/-
# Histories of a term store

Every operation that builds a term, a sort or a function, as one type; a store is reachable from
another by operations, whatever their outcome, and by checkpoints taken and rolled back on the
way.  Rolling back restores the store of the checkpoint, so that what is built after it does not
depend on what was rolled back.
-/
import Satrap.Smt.Arrays

namespace Satrap.Smt

open Logic TermStore TermM

/-! ### Bit-vector operators keep the invariant -/

instance (width : ℕ) (operation : String) : Keeps (checkQuadratic width operation) := by
  unfold checkQuadratic
  infer_instance

instance (left right : TermId) (operation : String) :
    Keeps (requireSameBvWidth left right operation) := by
  unfold requireSameBvWidth
  infer_instance

instance (literal : List Char) : Keeps (bitvecFromBinary literal) := by
  unfold bitvecFromBinary
  split <;> infer_instance

instance (literal : List Char) : Keeps (bitvecFromHexadecimal literal) := by
  unfold bitvecFromHexadecimal
  split <;> infer_instance

instance (decimal : List Char) (width : ℕ) : Keeps (bitvecFromDecimal decimal width) := by
  unfold bitvecFromDecimal
  infer_instance

lemma keeps_addBitsFrom (carry : TermId) (left right : List TermId) :
    Keeps (addBitsFrom carry left right) := by
  fun_induction addBitsFrom carry left right with
  | case1 carry left lefts right rights ih =>
    refine .of_bind fun pairSum => .of_bind fun sum => ?_
    infer_instance
  | case2 => infer_instance

instance (left right : List TermId) : Keeps (addBits left right) := keeps_addBitsFrom _ _ _

instance (bits : List TermId) : Keeps (negateBits bits) := by
  unfold negateBits
  infer_instance

instance (left right : List TermId) : Keeps (subtractBits left right) := by
  unfold subtractBits
  infer_instance

lemma keeps_partialProduct (rightBit : TermId) (rightIndex outputWidth : ℕ)
    (left : List (TermId × ℕ)) (products : List TermId) :
    Keeps (partialProduct rightBit rightIndex outputWidth left products) := by
  fun_induction partialProduct rightBit rightIndex outputWidth left products with
  | case1 => infer_instance
  | case2 => infer_instance
  | case3 products leftBit leftIndex rest output hlt ih => infer_instance

instance (rightBit : TermId) (rightIndex outputWidth : ℕ) (left : List (TermId × ℕ))
    (products : List TermId) : Keeps (partialProduct rightBit rightIndex outputWidth left products) :=
  keeps_partialProduct ..

instance (left right : List TermId) (outputWidth : ℕ) :
    Keeps (multiplyBits left right outputWidth) := by
  unfold multiplyBits
  infer_instance

lemma keeps_lessThanFrom (less equal : TermId) (pairs : List (TermId × TermId)) :
    Keeps (lessThanFrom less equal pairs) := by
  fun_induction lessThanFrom less equal pairs with
  | case1 => infer_instance
  | case2 less equal left right rest ih => infer_instance

instance (left right : List TermId) : Keeps (unsignedLessThanBits left right) :=
  keeps_lessThanFrom _ _ _

instance (condition : TermId) (thenBits elseBits : List TermId) :
    Keeps (selectBits condition thenBits elseBits) := by
  unfold selectBits
  infer_instance

instance (bits : List TermId) (sign : TermId) : Keeps (absoluteBits bits sign) := by
  unfold absoluteBits
  infer_instance

instance (bits : List TermId) : Keeps (isZeroBits bits) := by
  unfold isZeroBits
  infer_instance

lemma keeps_divideFrom (divisor dividend quotient remainder : List TermId) :
    Keeps (divideFrom divisor dividend quotient remainder) := by
  fun_induction divideFrom divisor dividend quotient remainder with
  | case1 => infer_instance
  | case2 bit rest quotient remainder shifted ih => infer_instance

instance (divisor dividend quotient remainder : List TermId) :
    Keeps (divideFrom divisor dividend quotient remainder) := keeps_divideFrom ..

instance (dividend divisor : List TermId) : Keeps (unsignedDivideBits dividend divisor) := by
  unfold unsignedDivideBits
  infer_instance

instance (operation : Bitwise) (left right : TermId) : Keeps (operation.onBits left right) := by
  cases operation <;> (unfold Bitwise.onBits; infer_instance)

instance (term : TermId) : Keeps (bvnot term) := by
  unfold bvnot
  infer_instance

instance (terms : List TermId) (operation : Bitwise) : Keeps (foldBitwise terms operation) := by
  unfold foldBitwise
  split <;> infer_instance

instance (left right : TermId) : Keeps (bvsmod left right) := by
  unfold bvsmod
  refine .of_bind fun _ => .of_bind fun dividend => .of_bind fun divisor => ?_
  refine .of_bind fun absDividend => .of_bind fun absDivisor => .of_bind fun result => ?_
  refine .of_bind fun remainderIsZero => .of_bind fun negatedRemainder => ?_
  refine .of_bind fun negativePositive => .of_bind fun positiveNegative => ?_
  refine .of_bind fun notDividendSign => .of_bind fun notDivisorSign => ?_
  refine .of_bind fun bothPositive => .of_bind fun dividendNegative => ?_
  infer_instance

instance (left right : TermId) : Keeps (bvumulo left right) := by
  unfold bvumulo
  refine .of_bind fun width => .of_bind fun _ => .of_bind fun _ => .of_bind fun _ => ?_
  infer_instance

instance (left right : TermId) : Keeps (bvsmulo left right) := by
  unfold bvsmulo
  refine .of_bind fun width => .of_bind fun _ => .of_bind fun _ => .of_bind fun _ => ?_
  infer_instance

/-! ### Operations -/

/-- The operations of `TermStore` that add to it. -/
inductive Operation where
  | freshUninterpretedSort
  | arraySort (index element : SmtSort)
  | declareFunction (domain : List SmtSort) (range : SmtSort)
  | freshTerm (sort : SmtSort)
  | not (term : TermId)
  | and (terms : List TermId)
  | or (terms : List TermId)
  | xor (left right : TermId)
  | iff (left right : TermId)
  | implies (terms : List TermId)
  | equal (terms : List TermId)
  | distinct (terms : List TermId)
  | equivalent (left right : TermId)
  | ite (condition thenTerm elseTerm : TermId)
  | apply (function : FunctionId) (arguments : List TermId)
  | constArray (sort : ArraySortId) (value : TermId)
  | store (array index value : TermId)
  | select (array index : TermId)
  | prepareArrays (arrange : List (List TermId) → List (List TermId)) (rounds : ℕ)
  | arithmeticConstant (sort : SmtSort) (value : ℚ)
  | arithmeticAdd (terms : List TermId)
  | arithmeticNegate (term : TermId)
  | arithmeticSub (terms : List TermId)
  | arithmeticMul (terms : List TermId)
  | arithmeticDivide (numerator denominator : TermId)
  | arithmeticToReal (term : TermId)
  | arithmeticComparison (left right : TermId) (strict : Bool)
  | makeBitvec (bits : List TermId)
  | bitvecFromBinary (literal : List Char)
  | bitvecFromHexadecimal (literal : List Char)
  | bitvecFromDecimal (decimal : List Char) (width : ℕ)
  | bvnot (term : TermId)
  | foldBitwise (terms : List TermId) (operation : Bitwise)
  | notBitwise (left right : TermId) (operation : Bitwise)
  | bvcomp (left right : TermId)
  | concat (left right : TermId)
  | extract (term : TermId) (high low : ℕ)
  | repeatWord (term : TermId) (count : ℕ)
  | zeroExtend (term : TermId) (amount : ℕ)
  | signExtend (term : TermId) (amount : ℕ)
  | rotateLeft (term : TermId) (amount : ℕ)
  | rotateRight (term : TermId) (amount : ℕ)
  | bvneg (term : TermId)
  | bvadd (terms : List TermId)
  | bvsub (left right : TermId)
  | bvmul (terms : List TermId)
  | bvudiv (left right : TermId)
  | bvurem (left right : TermId)
  | bvsdiv (left right : TermId)
  | bvsrem (left right : TermId)
  | bvsmod (left right : TermId)
  | variableShift (value amount : TermId) (direction : Shift)
  | bvult (left right : TermId)
  | bvule (left right : TermId)
  | bvslt (left right : TermId)
  | bvsle (left right : TermId)
  | bvnego (term : TermId)
  | bvuaddo (left right : TermId)
  | bvsaddo (left right : TermId)
  | bvumulo (left right : TermId)
  | bvsmulo (left right : TermId)
  | bvssubo (left right : TermId)
  | bvsdivo (left right : TermId)

/-- An operation without its result. -/
def discard {α : Type} (x : TermM α) : TermM Unit := do
  let _ ← x
  pure ()

namespace Operation

/-- The operation; the depth bounds nested reads of arrays. -/
def run (depth : ℕ) : Operation → TermM Unit
  | freshUninterpretedSort => discard Smt.freshUninterpretedSort
  | arraySort index element => discard (Smt.arraySort index element)
  | declareFunction domain range => discard (Smt.declareFunction domain range)
  | freshTerm sort => discard (Smt.freshTerm sort)
  | not term => discard (mkNot term)
  | and terms => discard (mkAnd terms)
  | or terms => discard (mkOr terms)
  | xor left right => discard (mkXor left right)
  | iff left right => discard (mkIff left right)
  | implies terms => discard (Smt.implies terms)
  | equal terms => discard (Smt.equal depth terms)
  | distinct terms => discard (Smt.distinct depth terms)
  | equivalent left right => discard (Smt.equivalent depth left right)
  | ite condition thenTerm elseTerm => discard (mkIte condition thenTerm elseTerm)
  | apply function arguments => discard (Smt.apply function arguments)
  | constArray sort value => discard (Smt.constArray sort value)
  | store array index value => discard (Smt.store array index value)
  | select array index => discard (Smt.select depth array index)
  | prepareArrays arrange rounds => Smt.prepareArrays arrange depth rounds
  | arithmeticConstant sort value => discard (Smt.arithmeticConstant sort value)
  | arithmeticAdd terms => discard (Smt.arithmeticAdd terms)
  | arithmeticNegate term => discard (Smt.arithmeticNegate term)
  | arithmeticSub terms => discard (Smt.arithmeticSub terms)
  | arithmeticMul terms => discard (Smt.arithmeticMul terms)
  | arithmeticDivide numerator denominator => discard (Smt.arithmeticDivide numerator denominator)
  | arithmeticToReal term => discard (Smt.arithmeticToReal term)
  | arithmeticComparison left right strict => discard (Smt.arithmeticComparison left right strict)
  | makeBitvec bits => discard (Smt.makeBitvec bits)
  | bitvecFromBinary literal => discard (Smt.bitvecFromBinary literal)
  | bitvecFromHexadecimal literal => discard (Smt.bitvecFromHexadecimal literal)
  | bitvecFromDecimal decimal width => discard (Smt.bitvecFromDecimal decimal width)
  | bvnot term => discard (Smt.bvnot term)
  | foldBitwise terms operation => discard (Smt.foldBitwise terms operation)
  | notBitwise left right operation => discard do
      Smt.bvnot (← Smt.foldBitwise [left, right] operation)
  | bvcomp left right => discard (Smt.bvcomp depth left right)
  | concat left right => discard (Smt.concat left right)
  | extract term high low => discard (Smt.extract term high low)
  | repeatWord term count => discard (Smt.repeatWord term count)
  | zeroExtend term amount => discard (Smt.zeroExtend term amount)
  | signExtend term amount => discard (Smt.signExtend term amount)
  | rotateLeft term amount => discard (Smt.rotateLeft term amount)
  | rotateRight term amount => discard (Smt.rotateRight term amount)
  | bvneg term => discard (Smt.bvneg term)
  | bvadd terms => discard (Smt.bvadd terms)
  | bvsub left right => discard (Smt.bvsub left right)
  | bvmul terms => discard (Smt.bvmul terms)
  | bvudiv left right => discard (Smt.bvudiv left right)
  | bvurem left right => discard (Smt.bvurem left right)
  | bvsdiv left right => discard (Smt.bvsdiv left right)
  | bvsrem left right => discard (Smt.bvsrem left right)
  | bvsmod left right => discard (Smt.bvsmod left right)
  | variableShift value amount direction => discard (Smt.variableShift value amount direction)
  | bvult left right => discard (Smt.bvult left right)
  | bvule left right => discard (Smt.bvule left right)
  | bvslt left right => discard (Smt.bvslt left right)
  | bvsle left right => discard (Smt.bvsle left right)
  | bvnego term => discard (Smt.bvnego term)
  | bvuaddo left right => discard (Smt.bvuaddo left right)
  | bvsaddo left right => discard (Smt.bvsaddo left right)
  | bvumulo left right => discard (Smt.bvumulo left right)
  | bvsmulo left right => discard (Smt.bvsmulo left right)
  | bvssubo left right => discard (Smt.bvssubo left right)
  | bvsdivo left right => discard (Smt.bvsdivo left right)

end Operation

instance {α : Type} (x : TermM α) [Keeps x] : Keeps (discard x) := by
  unfold discard
  infer_instance

/-- Every operation keeps the invariant and extends the store, also when it fails. -/
theorem Operation.keeps (depth : ℕ) (operation : Operation) : Keeps (operation.run depth) := by
  cases operation with
  | prepareArrays arrange rounds => exact keeps_prepareArrays arrange depth rounds
  | bvcomp | concat | extract | repeatWord | zeroExtend | signExtend | rotateLeft | rotateRight
  | bvneg | bvsub | variableShift =>
    dsimp only [run, Smt.bvcomp, Smt.concat, Smt.extract, Smt.repeatWord, Smt.zeroExtend,
      Smt.signExtend, Smt.rotateLeft, Smt.rotateRight, Smt.bvneg, Smt.bvsub, Smt.variableShift]
    infer_instance
  | bvadd | bvmul =>
    dsimp only [run, Smt.bvadd, Smt.bvmul]
    exact @Keeps.bind _ _ _ _ (by split <;> infer_instance) inferInstance
  | bvudiv | bvurem | bvsdiv | bvsrem =>
    dsimp only [run, Smt.bvudiv, Smt.bvurem, Smt.bvsdiv, Smt.bvsrem]
    infer_instance
  | bvult | bvule | bvslt | bvsle =>
    dsimp only [run, Smt.bvult, Smt.bvule, Smt.bvslt, Smt.bvsle]
    infer_instance
  | bvnego | bvuaddo | bvsaddo | bvssubo | bvsdivo =>
    dsimp only [run, Smt.bvnego, Smt.bvuaddo, Smt.bvsaddo, Smt.bvssubo, Smt.bvsdivo]
    infer_instance
  | _ =>
    dsimp only [run]
    infer_instance

/-! ### Histories -/

/-- The second store was built from the first, by operations, whatever their outcome, and by
checkpoints that were taken and rolled back. -/
inductive Built : TermStore → TermStore → Prop
  | refl (s : TermStore) : Built s s
  | step {s s' : TermStore} (depth : ℕ) (operation : Operation) (h : Built s s') :
      Built s (operation.run depth s').2
  | rollback {s s₁ s₂ s₃ : TermStore} (h : Built s s₁) (h' : Built s₁ s₂)
      (hr : s₂.rollback s₁.checkpoint = some s₃) : Built s s₃

/-- The store has been built from the new one. -/
def Reachable (s : TermStore) : Prop := Built .new s

lemma ok_new : TermStore.new.Ok where
  first := rfl
  second := rfl
  boolean := rfl
  nodes i node hn := by
    have hcases : i = 0 ∧ node = ⟨boolSort, .bool true⟩ ∨ i = 1 ∧ node = ⟨boolSort, .bool false⟩ := by
      rcases i with _ | _ | i
      · exact .inl ⟨rfl, (Option.some.inj hn).symm⟩
      · exact .inr ⟨rfl, (Option.some.inj hn).symm⟩
      · cases hn
    obtain ⟨rfl, rfl⟩ | ⟨rfl, rfl⟩ := hcases <;>
      exact ⟨Nat.zero_lt_one, by simp [TermKind.members], by simp, by simp [TermStore.new, boolSort],
        by simp, by simp⟩
  interned := ((Indexes.nilPositions TermNode).pushPosition rfl).pushPosition (by simp)
  sortIds := (Indexes.nilPositions SmtSort).pushPosition rfl
  expressionIds := .nil
  bounded := by simp [TermStore.new]
  predicates := .nil
  ites := .nil
  ites_live := by simp [TermStore.new]
  arraySortIds := .nil
  equalities := .nil
  ordered := by simp [TermStore.new]
  equality_nodes := by simp [TermStore.new]
  predicate_nodes := by simp [TermStore.new]
  ufIte_nodes := by simp [TermStore.new]
  results := .nil
  byResult := .nil
  byBit := .nil
  applications := by simp [TermStore.new]
  selects := .nil
  reads := rfl
  reads_nodup := List.nodup_nil
  recorded t node hn symbol e strict hk := by
    rcases t with _ | _ | t <;> cases hn <;> cases hk

/-- Building keeps the invariant and extends the store; a rollback gives the store back. -/
lemma Built.later {s s' : TermStore} (hb : Built s s') (h : s.Ok) : s.Later s' := by
  induction hb with
  | refl s => exact ⟨h, h, .refl s⟩
  | step depth operation _ ih =>
    obtain ⟨he, hok, -⟩ := (operation.keeps depth).spec _ (ih h).after
    exact (ih h).trans ⟨(ih h).after, hok, he⟩
  | rollback _ _ hr ih ih' =>
    have h' := ih' (ih h).after
    rw [rollback_eq h'.before h'.after h'.grown, Option.some.injEq] at hr
    exact hr ▸ ih h

lemma Reachable.ok {s : TermStore} (hs : Reachable s) : s.Ok := (hs.later ok_new).after

/-- Rolling back to a checkpoint restores the store of the checkpoint, whatever has been built
since, and never panics. -/
theorem rollback_exact {s s' : TermStore} (hs : Reachable s) (hb : Built s s') :
    s'.rollback s.checkpoint = some s := by
  have h := hb.later hs.ok
  exact rollback_eq h.before h.after h.grown

theorem rollback_exact_of_word :
    let s := ((Operation.freshTerm .bool).run 1 .new).2
    let s' := ((Operation.makeBitvec [2, 7]).run 1
      ((Operation.freshTerm (.bitVec 2)).run 1 s).2).2
    s'.nodes.length = 6 ∧ s'.rollback s.checkpoint = some s :=
  ⟨by decide, rollback_exact (.step _ _ (.refl _)) (.step _ _ (.step _ _ (.refl _)))⟩

end Satrap.Smt
