/-
# The operators of the parser

Every operator that `parse_term` finds by its name is an operation on the term store behind
checks of the logic and of the number of its arguments.  What holds of such computations holds of
all operators.
-/
import Satrap.Smt.Parse
import Satrap.Smt.History

namespace Satrap.Smt

open CommandM

/-! ### The operations keep the store in order -/

lemma keeps_of_discard {α : Type} {x : TermM α} (h : Keeps (discard x)) : Keeps x where
  spec s hs := by
    obtain ⟨hextends, hok, -⟩ := h.spec s hs
    have hstore : (discard x s).2 = (x s).2 := by
      dsimp only [discard, Bind.bind]
      split <;> rename_i heq <;> rw [heq]
      rfl
    rw [hstore] at hextends hok
    refine ⟨hextends, hok, ?_⟩
    split
    · trivial
    · exact id

section Keeping

variable (depth : ℕ)

lemma keeps_bitvecUnaries : ∀ entry ∈ bitvecUnaries, ∀ term, Keeps (entry.2 term) := by
  simp only [bitvecUnaries, List.forall_mem_cons]
  exact ⟨fun t => keeps_of_discard (Operation.keeps 0 (.bvnot t)),
    fun t => keeps_of_discard (Operation.keeps 0 (.bvneg t)),
    fun t => keeps_of_discard (Operation.keeps 0 (.bvnego t)), nofun⟩

lemma keeps_bitvecChains : ∀ entry ∈ bitvecChains, ∀ terms, Keeps (entry.2 terms) := by
  have hfold := fun (operation : Bitwise) terms =>
    keeps_of_discard (Operation.keeps 0 (.foldBitwise terms operation))
  simp only [bitvecChains, List.forall_mem_cons]
  exact ⟨hfold .and, hfold .or, hfold .xor,
    fun terms => keeps_of_discard (Operation.keeps 0 (.bvadd terms)),
    fun terms => keeps_of_discard (Operation.keeps 0 (.bvmul terms)), nofun⟩

lemma keeps_bitvecBinaries :
    ∀ entry ∈ bitvecBinaries depth, ∀ left right, Keeps (entry.2 left right) := by
  have keeps := fun operation : Operation => Operation.keeps depth operation
  have hnot := fun (operation : Bitwise) left right =>
    keeps_of_discard (keeps (.notBitwise left right operation))
  have hshift := fun (direction : Shift) value amount =>
    keeps_of_discard (keeps (.variableShift value amount direction))
  have hult := fun left right => keeps_of_discard (keeps (.bvult left right))
  have hule := fun left right => keeps_of_discard (keeps (.bvule left right))
  have hslt := fun left right => keeps_of_discard (keeps (.bvslt left right))
  have hsle := fun left right => keeps_of_discard (keeps (.bvsle left right))
  simp only [bitvecBinaries, List.forall_mem_cons]
  exact ⟨fun l r => keeps_of_discard (keeps (.concat l r)), hnot .and, hnot .or, hnot .xor,
    fun l r => keeps_of_discard (keeps (.bvcomp l r)),
    fun l r => keeps_of_discard (keeps (.bvsub l r)),
    fun l r => keeps_of_discard (keeps (.bvudiv l r)),
    fun l r => keeps_of_discard (keeps (.bvurem l r)),
    fun l r => keeps_of_discard (keeps (.bvsdiv l r)),
    fun l r => keeps_of_discard (keeps (.bvsrem l r)),
    fun l r => keeps_of_discard (keeps (.bvsmod l r)),
    hshift .left, hshift .logicalRight, hshift .arithmeticRight,
    hult, hule, fun l r => hult r l, fun l r => hule r l,
    hslt, hsle, fun l r => hslt r l, fun l r => hsle r l,
    fun l r => keeps_of_discard (keeps (.bvuaddo l r)),
    fun l r => keeps_of_discard (keeps (.bvsaddo l r)),
    fun l r => keeps_of_discard (keeps (.bvumulo l r)),
    fun l r => keeps_of_discard (keeps (.bvsmulo l r)),
    hult, fun l r => keeps_of_discard (keeps (.bvssubo l r)),
    fun l r => keeps_of_discard (keeps (.bvsdivo l r)), nofun⟩

lemma keeps_indexedOperators :
    ∀ entry ∈ indexedOperators, ∀ term index, Keeps (entry.2 term index) := by
  simp only [indexedOperators, List.forall_mem_cons]
  exact ⟨fun t i => keeps_of_discard (Operation.keeps 0 (.repeatWord t i)),
    fun t i => keeps_of_discard (Operation.keeps 0 (.zeroExtend t i)),
    fun t i => keeps_of_discard (Operation.keeps 0 (.signExtend t i)),
    fun t i => keeps_of_discard (Operation.keeps 0 (.rotateLeft t i)),
    fun t i => keeps_of_discard (Operation.keeps 0 (.rotateRight t i)), nofun⟩

lemma keeps_comparisons : ∀ entry ∈ comparisons, ∀ left right, Keeps (entry.2 left right) := by
  have h := fun left right strict =>
    keeps_of_discard (Operation.keeps 0 (.arithmeticComparison left right strict))
  simp only [comparisons, List.forall_mem_cons]
  exact ⟨fun l r => h l r true, fun l r => h l r false, fun l r => h r l true,
    fun l r => h r l false, nofun⟩

lemma keeps_compareAll {comparison : TermId → TermId → TermM TermId}
    (h : ∀ left right, Keeps (comparison left right)) (terms : List TermId) :
    Keeps (compareAll comparison terms) := by
  unfold compareAll
  infer_instance

instance (terms : List TermId) : Keeps (xorAll terms) := by
  unfold xorAll
  split <;> infer_instance

end Keeping

/-! ### What holds of all operators -/

/-- What holds of operations on the store and of errors, also behind a check, holds of every
operator. -/
structure OperatorClosed (P : ParseM TermId → Prop) : Prop where
  lift : ∀ x : TermM TermId, Keeps x → P (lift x)
  reject : ∀ message, P (reject message)
  bind : ∀ {α : Type} (check : Except CommandError α) (f : α → ParseM TermId),
    (∀ a, P (f a)) → P (liftM check >>= f)

/-- The property holds of all operators of a list. -/
def AllOperators (P : ParseM TermId → Prop) (operators : List (String × OperatorM)) : Prop :=
  ∀ entry ∈ operators, ∀ terms, P (entry.2 terms)

variable {P : ParseM TermId → Prop}

lemma AllOperators.append {operators operators' : List (String × OperatorM)}
    (h : AllOperators P operators) (h' : AllOperators P operators') :
    AllOperators P (operators ++ operators') :=
  fun entry hentry => (List.mem_append.1 hentry).elim (h entry) (h' entry)

namespace OperatorClosed

lemma unary (hP : OperatorClosed P) (name : String) {operation : TermId → TermM TermId}
    (h : ∀ term, Keeps (operation term)) (terms : List TermId) : P (unary name operation terms) := by
  unfold Smt.unary
  split
  · exact hP.lift _ (h _)
  · exact hP.reject _

lemma binary (hP : OperatorClosed P) (name : String) {operation : TermId → TermId → TermM TermId}
    (h : ∀ left right, Keeps (operation left right)) (terms : List TermId) :
    P (binary name operation terms) := by
  unfold Smt.binary
  split
  · exact hP.lift _ (h _ _)
  · exact hP.reject _

lemma ternary (hP : OperatorClosed P) (name : String)
    {operation : TermId → TermId → TermId → TermM TermId}
    (h : ∀ first second third, Keeps (operation first second third)) (terms : List TermId) :
    P (ternary name operation terms) := by
  unfold Smt.ternary
  split
  · exact hP.lift _ (h _ _ _)
  · exact hP.reject _

lemma atLeastTwo (hP : OperatorClosed P) (name : String) {operation : List TermId → TermM TermId}
    (h : ∀ terms, Keeps (operation terms)) (terms : List TermId) :
    P (atLeastTwo name operation terms) := by
  unfold Smt.atLeastTwo
  split
  · exact hP.reject _
  · exact hP.lift _ (h terms)

lemma guardedBy (hP : OperatorClosed P) {operators : List (String × OperatorM)}
    (h : AllOperators P operators) (check : Except CommandError Unit) :
    AllOperators P (guardedBy check operators) := by
  intro entry hentry terms
  obtain ⟨entry, hmem, rfl⟩ := List.mem_map.1 hentry
  exact hP.bind check _ fun _ => h entry hmem terms

lemma core (hP : OperatorClosed P) (depth : ℕ) : AllOperators P (coreOperators depth) := by
  simp only [AllOperators, coreOperators, List.forall_mem_cons]
  exact ⟨hP.unary _ fun _ => inferInstance, hP.atLeastTwo _ fun _ => inferInstance,
    hP.atLeastTwo _ fun _ => inferInstance, hP.atLeastTwo _ fun _ => inferInstance,
    fun _ => hP.lift _ inferInstance, fun _ => hP.lift _ inferInstance,
    fun _ => hP.lift _ inferInstance, hP.ternary _ fun _ _ _ => inferInstance, nofun⟩

lemma arithmetic (hP : OperatorClosed P) : AllOperators P arithmeticOperators := by
  refine .append ?_ ?_
  · simp only [AllOperators, List.forall_mem_cons]
    exact ⟨fun terms => hP.lift _ (keeps_of_discard (Operation.keeps 0 (.arithmeticAdd terms))),
      fun terms => hP.lift _ (keeps_of_discard (Operation.keeps 0 (.arithmeticSub terms))),
      fun terms => hP.lift _ (keeps_of_discard (Operation.keeps 0 (.arithmeticMul terms))), nofun⟩
  · intro entry hentry terms
    obtain ⟨entry, hmem, rfl⟩ := List.mem_map.1 hentry
    exact hP.atLeastTwo _ (keeps_compareAll (keeps_comparisons entry hmem)) _

lemma division (hP : OperatorClosed P) : AllOperators P [("/", Smt.binary "/" arithmeticDivide)] := by
  simp only [AllOperators, List.forall_mem_cons]
  exact ⟨hP.binary _ fun l r => keeps_of_discard (Operation.keeps 0 (.arithmeticDivide l r)), nofun⟩

lemma array (hP : OperatorClosed P) (depth : ℕ) : AllOperators P (arrayOperators depth) := by
  simp only [AllOperators, arrayOperators, List.forall_mem_cons]
  exact ⟨hP.binary _ fun _ _ => inferInstance, hP.ternary _ fun _ _ _ => inferInstance, nofun⟩

lemma bitvec (hP : OperatorClosed P) (depth : ℕ) : AllOperators P (bitvecOperators depth) := by
  refine .append (.append ?_ ?_) ?_ <;> intro entry hentry terms <;>
    obtain ⟨entry, hmem, rfl⟩ := List.mem_map.1 hentry
  · exact hP.unary _ (keeps_bitvecUnaries entry hmem) _
  · exact hP.lift _ (keeps_bitvecChains entry hmem terms)
  · exact hP.binary _ (keeps_bitvecBinaries depth entry hmem) _

/-- The property holds of every operator that is found by its name. -/
lemma operatorOf (hP : OperatorClosed P) {depth : ℕ} {logic : Option Text} {name : Text}
    {operator : OperatorM} (h : operatorOf depth logic name = some operator)
    (terms : List TermId) : P (operator terms) := by
  obtain ⟨entry, hentry, rfl⟩ := Option.map_eq_some_iff.1 h
  have hall : AllOperators P (operators depth logic) :=
    ((((hP.core depth).append (hP.guardedBy hP.arithmetic _)).append
      (hP.guardedBy hP.division _)).append (hP.guardedBy (hP.array depth) _)).append
      (hP.guardedBy (hP.bitvec depth) _)
  exact hall entry (List.mem_of_find?_eq_some hentry) terms

/-- The property holds of every indexed operator. -/
lemma applyIndexed (hP : OperatorClosed P) (operator : Text) (indices : List SExpr)
    (term : TermId) : P (applyIndexed operator indices term) := by
  unfold Smt.applyIndexed
  split
  · refine hP.bind _ _ ?_
    rintro ⟨high, low⟩
    exact hP.bind _ _ fun _ => hP.bind _ _ fun _ =>
      hP.lift _ (keeps_of_discard (Operation.keeps 0 (.extract term _ _)))
  · split
    · rename_i entry hentry
      exact hP.bind _ _ fun index => hP.bind _ _ fun _ =>
        hP.lift _ (keeps_indexedOperators entry (List.mem_of_find?_eq_some hentry) _ _)
    · exact hP.reject _

end OperatorClosed

end Satrap.Smt
