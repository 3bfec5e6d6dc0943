/-
# Writing to the tables

The operations that enter a new arithmetic expression, application, equality or read in its
table and index.  A new application has a new result: this is what makes the reverse indices of
the applications maps.
-/
import Satrap.Smt.Keeps

namespace Satrap.Smt

open Logic TermStore TermM

variable {α β : Type} {s s' : TermStore} {t : TermId} {T : Prop}

/-! ### The other tables -/

namespace TermStore

/-- The term is an arithmetic term with the expression. -/
def Expresses (s : TermStore) (t : TermId) (e : LinearExpression) : Prop :=
  ∃ sort i range, s.nodes[t]? = some ⟨sort, .arithmetic i⟩ ∧
    s.arithmeticExpressions[i]? = some (range, e)

lemma Expresses.mono {e : LinearExpression} (h : s.Expresses t e) (he : s.Extends s') :
    s'.Expresses t e := by
  obtain ⟨sort, i, range, hn, hi⟩ := h
  obtain ⟨suffix, hs⟩ := he.arithmeticExpressions
  refine ⟨sort, i, range, he.node hn, ?_⟩
  rw [← hs, List.getElem?_append_left (List.getElem?_eq_some_iff.1 hi).1, hi]

/-- The tables that operations on terms, sorts and expressions leave alone. -/
def rest (s : TermStore) : TermStore :=
  { s with
    nodes := [], interned := fun _ => none, sorts := [], sortIds := fun _ => none
    nextSymbol := 0, nextUninterpretedSort := 0, nextUninterpretedValue := 0, functions := []
    arithmeticExpressions := [], arithmeticExpressionIds := fun _ => none
    arithmeticVariableSorts := [] }

end TermStore

/-- The operation leaves a part of the store alone, whatever its outcome. -/
class Frames {γ : Type} (part : TermStore → γ) (x : TermM α) : Prop where
  frame : ∀ s : TermStore, part (x s).2 = part s

section

variable {γ : Type} (part : TermStore → γ)

namespace Frames

instance pure (a : α) : Frames part (pure a : TermM α) := ⟨fun _ => rfl⟩

instance fail (message : String) : Frames part (TermM.fail message : TermM α) := ⟨fun _ => rfl⟩

instance get : Frames part TermM.get := ⟨fun _ => rfl⟩

instance okOr (message : String) (a : Option α) : Frames part (TermM.okOr message a) := by
  cases a with
  | none => exact .fail part message
  | some a => exact .pure part a

instance bind (x : TermM α) (f : α → TermM β) [hx : Frames part x]
    [hf : ∀ a, Frames part (f a)] : Frames part (x >>= f) where
  frame s := by
    have h := hx.frame s
    change part (match x s with | (.ok a, s) => f a s | (.error e, s) => (.error e, s)).2 = _
    generalize x s = r at h
    obtain ⟨a | a, s'⟩ := r
    · exact h
    · exact ((hf a).frame s').trans h

variable {part} in
lemma of_bind {x : TermM α} {f : α → TermM β} [Frames part x] (hf : ∀ a, Frames part (f a)) :
    Frames part (x >>= f) := .bind part x f

instance ite (p : Prop) [Decidable p] (x y : TermM α) [hx : Frames part x] [hy : Frames part y] :
    Frames part (if p then x else y) := by
  split
  · exact hx
  · exact hy

instance collect (f : α → TermM β) [hf : ∀ a, Frames part (f a)] (list : List α) :
    Frames part (TermM.collect f list) := by
  induction list with
  | nil => exact .pure part []
  | cons a rest ih => exact .bind part (f a) _

instance each (f : α → TermM Unit) [hf : ∀ a, Frames part (f a)] (list : List α) :
    Frames part (TermM.each f list) := by
  induction list with
  | nil => exact .pure part ()
  | cons a rest ih => exact .bind part (f a) _

end Frames

instance (length : ℕ) (message : String) : Frames part (checkIndex length message) := by
  unfold checkIndex
  infer_instance

instance (term : TermId) : Frames part (requireBool term) := by
  unfold requireBool sortId
  infer_instance

/-- What is left alone is known afterwards. -/
lemma Spec.framed {x : TermM α} {Q : α → TermStore → Prop} (h : Spec T x s Q)
    [hx : Frames part x] : Spec T x s fun a s' => Q a s' ∧ part s' = part s := by
  obtain ⟨he, hok, hq⟩ := h
  refine ⟨he, hok, ?_⟩
  have hf := hx.frame s
  generalize x s = r at he hok hq hf
  obtain ⟨a | a, s'⟩ := r
  · exact hq
  · exact ⟨hq, hf⟩

end

instance (sort : SmtSort) : Frames rest (sortIdFor sort) := by
  unfold sortIdFor
  refine .of_bind fun s => ?_
  split
  · infer_instance
  · have : Frames rest (modify fun s : TermStore => { s with
        sorts := s.sorts ++ [sort]
        sortIds := Function.update s.sortIds sort (some s.sorts.length) }) := ⟨fun _ => rfl⟩
    infer_instance

instance (sort : SortId) (kind : TermKind) : Frames rest (intern sort kind) := by
  unfold intern
  refine .of_bind fun s => ?_
  split
  · infer_instance
  · have : Frames rest (modify fun s : TermStore => { s with
        nodes := s.nodes ++ [⟨sort, kind⟩]
        interned := Function.update s.interned ⟨sort, kind⟩ (some s.nodes.length) }) :=
      ⟨fun _ => rfl⟩
    infer_instance

instance : Frames rest freshSymbol := ⟨fun _ => rfl⟩

instance : Frames rest freshBoolAtom := by
  unfold freshBoolAtom
  infer_instance

instance (bits : List TermId) : Frames rest (makeBitvec bits) := by
  unfold makeBitvec
  infer_instance

instance (width : ℕ) : Frames rest (freshBitvec width) := by
  unfold freshBitvec checkWidth
  infer_instance

instance (sort : SmtSort) (expression : LinearExpression) :
    Frames rest (internArithmeticExpression sort expression) := by
  unfold internArithmeticExpression
  refine .of_bind fun s => ?_
  split
  · infer_instance
  · have : Frames rest (modify fun s : TermStore => { s with
        arithmeticExpressions := s.arithmeticExpressions ++ [(sort, expression)]
        arithmeticExpressionIds := Function.update s.arithmeticExpressionIds (sort, expression)
          (some s.arithmeticExpressions.length) }) := ⟨fun _ => rfl⟩
    infer_instance

instance (sort : SmtSort) (expression : LinearExpression) :
    Frames rest (makeArithmeticTerm sort expression) := by
  unfold makeArithmeticTerm
  infer_instance

instance (sort : SmtSort) : Frames rest (freshArithmeticVariable sort) := by
  unfold freshArithmeticVariable
  have : Frames rest (modify fun s : TermStore => { s with
      arithmeticVariableSorts := s.arithmeticVariableSorts ++ [sort] }) := ⟨fun _ => rfl⟩
  infer_instance

instance (function : FunctionId) (arguments : List TermId) (range : SmtSort) :
    Frames rest (applicationTerm function arguments range) := by
  unfold applicationTerm
  split <;> infer_instance

instance (domain : List SmtSort) (range : SmtSort) : Frames rest (declareFunction domain range) := by
  unfold declareFunction
  have : Frames rest (modify fun s : TermStore => { s with
      functions := s.functions ++ [⟨domain, range⟩] }) := ⟨fun _ => rfl⟩
  infer_instance

/-! ### Arithmetic terms -/

section

variable (h : s.Ok)
include h

lemma internArithmeticExpression_spec {sort : SmtSort} {expression : LinearExpression}
    (hb : expression.WellFormed s.arithmeticVariableSorts.length) :
    Spec False (internArithmeticExpression sort expression) s fun i s' =>
      s'.nodes = s.nodes ∧ s'.arithmeticExpressions[i]? = some (sort, expression) ∧
        ((sort, expression) ∉ s.arithmeticExpressions → i = s.arithmeticExpressions.length) := by
  refine .get ?_
  split
  · next i hi =>
    have hget := h.expressionIds.position.1 hi
    exact .pure h ⟨rfl, hget, fun hnot => absurd (List.mem_of_getElem? hget) hnot⟩
  · next hnone =>
    refine .bind (checkIndex_spec h False.elim) ?_
    rintro _ _ - - ⟨rfl, -⟩
    have he : s.Extends { s with
        arithmeticExpressions := s.arithmeticExpressions ++ [(sort, expression)]
        arithmeticExpressionIds := Function.update s.arithmeticExpressionIds (sort, expression)
          (some s.arithmeticExpressions.length) } := by
      constructor <;> simp
    have hok : TermStore.Ok { s with
        arithmeticExpressions := s.arithmeticExpressions ++ [(sort, expression)]
        arithmeticExpressionIds := Function.update s.arithmeticExpressionIds (sort, expression)
          (some s.arithmeticExpressions.length) } :=
      { h with
        nodes := fun i n hn => he.nodeOk (h.nodes i n hn)
        expressionIds := h.expressionIds.pushPosition hnone
        bounded := fun e hm => (List.mem_append.1 hm).elim (h.bounded e) fun hm => by
          rw [List.mem_singleton.1 hm]
          exact hb
        applications := fun a ha => h.applicationOk_extends he (h.applications a ha) }
    exact .modify he hok (.pure hok ⟨rfl, by simp, fun _ => rfl⟩)

lemma makeArithmeticTerm_spec {sort : SmtSort} {expression : LinearExpression}
    (hb : expression.WellFormed s.arithmeticVariableSorts.length) :
    Spec False (makeArithmeticTerm sort expression) s fun r s' => s'.sort? r = some sort ∧
      s'.Expresses r expression ∧
      ((sort, expression) ∉ s.arithmeticExpressions → s.nodes.length ≤ r) := by
  rw [makeArithmeticTerm]
  split
  · exact .fail h id
  split
  · exact .fail h id
  next harith _ =>
  refine .bind (internArithmeticExpression_spec h hb) ?_
  rintro i s₁ he₁ h₁ ⟨hnodes, hi, hnew⟩
  refine .bind (sortIdFor_spec h₁ False.elim) ?_
  rintro sortId s₂ he₂ h₂ ⟨hs, hnodes₂⟩
  have hnode : s₂.NodeOk s₂.nodes.length ⟨sortId, .arithmetic i⟩ := by
    refine ⟨(List.getElem?_eq_some_iff.1 hs).1, by simp [TermKind.members], by simp,
      fun w hw => ?_, by simp, ?_⟩
    · rw [hs, Option.some.injEq] at hw
      subst hw
      simp [SmtSort.isArithmetic] at harith
    · rintro _ ⟨⟩
      exact (List.getElem?_eq_some_iff.1 hi).1.trans_le he₂.arithmeticExpressions.length_le
  refine (intern_spec h₂ hnode (by simp)).weaken ?_
  rintro r s₃ he₃ h₃ ⟨hr, hfresh, hsorts⟩
  obtain ⟨suffix, hsuffix⟩ := (he₂.trans he₃).arithmeticExpressions
  have hi' : s₃.arithmeticExpressions[i]? = some (sort, expression) := by
    rw [← hsuffix, List.getElem?_append_left (List.getElem?_eq_some_iff.1 hi).1, hi]
  refine ⟨(sort?_eq_some_iff h₃).2 ⟨_, hr, he₃.sort hs⟩, ⟨_, _, _, hr, hi'⟩, fun hnot => ?_⟩
  rw [hfresh, hnodes₂, hnodes]
  rw [hnodes₂, hnodes]
  intro hm
  obtain ⟨j, hj⟩ := List.mem_iff_getElem?.1 hm
  have := (h.nodes j _ hj).expression i rfl
  rw [hnew hnot] at this
  exact absurd this (lt_irrefl _)

/-- A fresh variable gives a new term. -/
lemma freshArithmeticVariable_spec (sort : SmtSort) :
    Spec False (freshArithmeticVariable sort) s fun r s' => s'.sort? r = some sort ∧
      (∃ e, s'.Expresses r e) ∧ s.nodes.length ≤ r := by
  rw [freshArithmeticVariable]
  split
  · exact .fail h id
  refine .get (.bind (checkIndex_spec h False.elim) ?_)
  rintro _ _ - - ⟨rfl, -⟩
  have he : s.Extends { s with
      arithmeticVariableSorts := s.arithmeticVariableSorts ++ [sort] } := by
    constructor <;> simp
  have hok : TermStore.Ok { s with
      arithmeticVariableSorts := s.arithmeticVariableSorts ++ [sort] } :=
    { h with
      nodes := fun i n hn => he.nodeOk (h.nodes i n hn)
      bounded := fun e hm => (h.bounded e hm).mono he.arithmeticVariableSorts.length_le
      applications := fun a ha => h.applicationOk_extends he (h.applications a ha) }
  refine .modify he hok ((makeArithmeticTerm_spec hok ?_).weaken ?_)
  · exact LinearExpression.wellFormed_variable (by simp)
  · rintro r s' - - ⟨hs, hkind, hnew⟩
    refine ⟨hs, ⟨_, hkind⟩, hnew fun hm => ?_⟩
    have := (h.bounded _ hm).bounded (s.arithmeticVariableSorts.length, 1)
      (by simp [LinearExpression.ofVariable])
    exact absurd this (lt_irrefl _)

lemma arithmeticExpression_spec (i : ℕ) :
    Spec False (arithmeticExpression i) s fun e s' => s = s' ∧
      e.WellFormed s.arithmeticVariableSorts.length ∧
        ∃ range, s.arithmeticExpressions[i]? = some (range, e) := by
  refine .get (.okOr h False.elim fun e he => ⟨rfl, ?_⟩)
  obtain ⟨⟨range, e⟩, hp, rfl⟩ := Option.map_eq_some_iff.1 he
  exact ⟨h.bounded _ (List.mem_of_getElem? hp), range, hp⟩

/-- An arithmetic term has its expression. -/
lemma arithmeticExpressionForTerm_spec (ht : t < s.nodes.length) :
    Spec False (arithmeticExpressionForTerm t) s fun e s' => s = s' ∧
      e.WellFormed s.arithmeticVariableSorts.length ∧ s.Expresses t e := by
  refine .get ?_
  split
  · next i hk =>
    refine (arithmeticExpression_spec h i).weaken ?_
    rintro e _ - - ⟨rfl, he, range, hi⟩
    have hn := (h.node_of_lt ht).1
    refine ⟨rfl, he, (s.node t).sort, i, range, ?_, hi⟩
    rw [hn, ← hk]
  · exact .fail h id

lemma requireArithmetic_spec (t : TermId) :
    Spec False (requireArithmetic t) s fun sort s' => s = s' ∧ s.sort? t = some sort ∧
      sort.isArithmetic = true := by
  refine .bind (sortOf_spec h False.elim) ?_
  rintro sort _ - - ⟨rfl, hs⟩
  split
  · next ha => exact .pure h ⟨rfl, hs, ha⟩
  · exact .fail h id

lemma arithmeticExpressionAs_spec (t : TermId) (target : SmtSort) :
    Spec False (arithmeticExpressionAs t target) s fun e s' => s = s' ∧
      e.WellFormed s.arithmeticVariableSorts.length ∧ s.Expresses t e := by
  refine .bind (requireArithmetic_spec h t) ?_
  rintro source _ - - ⟨rfl, hs, -⟩
  split
  · exact .fail h id
  split
  · exact .fail h id
  · exact arithmeticExpressionForTerm_spec h (lt_of_sort? hs)

/-- What is known in a store holds for the rest of the construction. -/
lemma Spec.of_keeps {x : TermM α} [hx : Keeps x] : Spec False x s fun _ _ => True := hx.spec s h

lemma collect_arithmeticExpressionAs (terms : List TermId) (sort : SmtSort) :
    Spec False (collect (arithmeticExpressionAs · sort) terms) s fun es s' =>
      ∀ e ∈ es, e.WellFormed s'.arithmeticVariableSorts.length := by
  refine (Spec.collect (P := fun _ e s' =>
    LinearExpression.WellFormed s'.arithmeticVariableSorts.length e) (fun _ e s₁ s₂ hl he =>
      he.mono hl.grown.arithmeticVariableSorts.length_le) terms s h fun t _ s' _ h' => ?_).weaken ?_
  · refine (arithmeticExpressionAs_spec h' t sort).weaken ?_
    rintro e _ - - ⟨rfl, he, -⟩
    exact he
  · intro es s' _ _ hes
    induction hes with
    | nil => simp
    | cons he _ ih => simpa using ⟨he, ih⟩

end

instance (term : TermId) : Keeps (requireArithmetic term) :=
  .of_spec fun _ h => requireArithmetic_spec h term

instance (terms : List TermId) : Keeps (commonArithmeticSort terms) := by
  unfold commonArithmeticSort
  refine @Keeps.loop _ _ _ (fun result term => ?_) _ _
  refine .of_bind fun sort => ?_
  split <;> infer_instance

instance (sort : SmtSort) : Keeps (freshArithmeticVariable sort) :=
  .of_spec fun _ h => freshArithmeticVariable_spec h sort

instance (sort : SmtSort) (value : ℚ) : Keeps (arithmeticConstant sort value) :=
  .of_spec fun _ h => makeArithmeticTerm_spec h (LinearExpression.wellFormed_constant _ value)

instance (value : ℤ) : Keeps (arithmeticInteger value) := by
  unfold arithmeticInteger
  infer_instance

instance (value : ℚ) : Keeps (arithmeticReal value) := by
  unfold arithmeticReal
  infer_instance

instance (terms : List TermId) : Keeps (arithmeticAdd terms) := by
  unfold arithmeticAdd
  refine @Keeps.ite _ _ _ _ _ inferInstance (.of_bind fun sort => ?_)
  refine .bind_spec (fun s h => collect_arithmeticExpressionAs h terms sort) ?_
  intro s es s' _ h' hes
  exact (makeArithmeticTerm_spec h' (.sum hes)).weaken fun _ _ _ _ _ => trivial

instance (term : TermId) : Keeps (arithmeticNegate term) := by
  unfold arithmeticNegate
  refine .bind_spec (fun s h => requireArithmetic_spec h term) ?_
  rintro s sort _ - h ⟨rfl, hs, -⟩
  refine .bind (arithmeticExpressionForTerm_spec h (lt_of_sort? hs)) ?_
  rintro e _ - - ⟨rfl, he, -⟩
  exact (makeArithmeticTerm_spec h (he.scaled _)).weaken fun _ _ _ _ _ => trivial

instance (terms : List TermId) : Keeps (arithmeticSub terms) := by
  unfold arithmeticSub
  split
  · infer_instance
  · infer_instance
  · next first rest _ =>
    refine .of_bind fun sort => .bind_spec (fun s h => arithmeticExpressionAs_spec h first sort) ?_
    rintro s result _ - h ⟨rfl, hr, -⟩
    refine .bind (Spec.loop (I := fun e _ s' =>
      LinearExpression.WellFormed s'.arithmeticVariableSorts.length e) rest result s h hr ?_) ?_
    · intro e term rest s₁ _ h₁ he
      refine .bind (arithmeticExpressionAs_spec h₁ term sort) ?_
      rintro e' _ - - ⟨rfl, he', -⟩
      exact .pure h₁ (he.addScaled he' _)
    · intro e s₁ _ h₁ he
      exact (makeArithmeticTerm_spec h₁ he).weaken fun _ _ _ _ _ => trivial

instance (terms : List TermId) : Keeps (arithmeticMul terms) := by
  unfold arithmeticMul
  refine @Keeps.ite _ _ _ _ _ inferInstance (.of_bind fun sort => ?_)
  refine .bind_spec (fun s h => Spec.loop (I := fun factors _ s' => ∀ e, factors.2 = some e →
    LinearExpression.WellFormed s'.arithmeticVariableSorts.length e) terms (1, none) s h (by simp)
    ?_) ?_
  · rintro ⟨scale, factor⟩ term rest s₁ _ h₁ hf
    refine .bind (arithmeticExpressionAs_spec h₁ term sort) ?_
    rintro e _ - - ⟨rfl, he, -⟩
    split
    · exact .pure h₁ hf
    · cases factor with
      | none =>
        refine .pure h₁ ?_
        rintro _ ⟨⟩
        exact he
      | some e' => exact .fail h₁ id
  · rintro s ⟨scale, factor⟩ s' _ h' hf
    cases factor with
    | none =>
      exact (makeArithmeticTerm_spec h' (LinearExpression.wellFormed_constant _ scale)).weaken
        fun _ _ _ _ _ => trivial
    | some e =>
      exact (makeArithmeticTerm_spec h' ((hf e rfl).scaled scale)).weaken fun _ _ _ _ _ => trivial

instance (numerator denominator : TermId) : Keeps (arithmeticDivide numerator denominator) := by
  unfold arithmeticDivide
  refine .of_bind fun _ => .bind_spec (fun s h => requireArithmetic_spec h denominator) ?_
  rintro s sort _ - h ⟨rfl, hs, -⟩
  refine .bind (arithmeticExpressionForTerm_spec h (lt_of_sort? hs)) ?_
  rintro divisor _ - - ⟨rfl, -⟩
  split
  · exact .fail h id
  split
  · exact .fail h id
  refine .bind (arithmeticExpressionAs_spec h numerator .real) ?_
  rintro e _ - - ⟨rfl, he, -⟩
  exact (makeArithmeticTerm_spec h (he.scaled _)).weaken fun _ _ _ _ _ => trivial

instance (term : TermId) (target : SmtSort) : Keeps (coerceArithmeticTerm term target) := by
  unfold coerceArithmeticTerm
  refine .of_bind fun sort => @Keeps.ite _ _ _ _ _ inferInstance ?_
  refine .bind_spec (fun s h => arithmeticExpressionAs_spec h term target) ?_
  rintro s e _ - h ⟨rfl, he, -⟩
  exact (makeArithmeticTerm_spec h he).weaken fun _ _ _ _ _ => trivial

instance (term : TermId) : Keeps (arithmeticToReal term) := by
  unfold arithmeticToReal
  infer_instance

/-! ### Atoms and conditionals of arithmetic -/

section

variable (h : s.Ok)
include h

/-- A node without members, words, symbols or expressions. -/
lemma nodeOk_leaf {sort : SortId} {kind : TermKind} (hs : sort < s.sorts.length)
    (hword : ∀ w, s.sorts[sort]? ≠ some (.bitVec w)) (hm : kind.members = [])
    (hw : ∀ bits, kind ≠ .bitVec bits) (ha : ∀ symbol, kind ≠ .atom symbol)
    (he : ∀ e, kind ≠ .arithmetic e) : s.NodeOk s.nodes.length ⟨sort, kind⟩ where
  sort := hs
  members m hmem := by
    rw [hm] at hmem
    cases hmem
  word bits hb := absurd hb (hw bits)
  bits w hw := absurd hw (hword w)
  symbol symbol hsym := absurd hsym (ha symbol)
  expression e hk := absurd hk (he e)

lemma arithmeticPredicate_spec {expression : ℕ} {strict : Bool}
    (hnone : s.arithmeticPredicateTerms (expression, strict) = none) :
    Spec False (do
      let symbol ← freshSymbol
      let term ← intern boolSort (.arithmeticPredicate symbol expression strict)
      modify fun s => { s with
        arithmeticPredicateTerms :=
          Function.update s.arithmeticPredicateTerms (expression, strict) (some term)
        arithmeticPredicates := s.arithmeticPredicates ++ [⟨term, expression, strict⟩] }
      pure term) s fun t s' => s'.IsBool t ∧ ⟨t, expression, strict⟩ ∈ s'.arithmeticPredicates := by
  refine .bind ((freshSymbol_spec h).framed rest) ?_
  rintro symbol s₁ - h₁ ⟨-, hrest⟩
  have hindex : s₁.arithmeticPredicateTerms = s.arithmeticPredicateTerms :=
    (congrArg TermStore.arithmeticPredicateTerms hrest :)
  set node : TermNode := ⟨boolSort, .arithmeticPredicate symbol expression strict⟩
  -- a predicate with this node would be in the table
  have hnew : node ∉ s₁.nodes := by
    intro hm
    obtain ⟨t, ht⟩ := List.mem_iff_getElem?.1 hm
    have hrecorded := List.mem_map_of_mem (f := predicateEntry)
      (h₁.recorded t node ht symbol expression strict rfl)
    rw [← hindex] at hnone
    exact absurd (h₁.predicates.eq_some_iff.2 hrecorded) (by simp [hnone])
  obtain ⟨he₂, h₂⟩ := h₁.toConsistent.withNode (nodeOk_boolean h₁ (by simp [TermKind.members])
    (by simp) (by simp) (by simp)) hnew
  set s₂ := s₁.withNode node
  have hn : s₂.nodes[s₁.nodes.length]? = some node := List.getElem?_concat_length
  have he : s₂.Extends { s₂ with
      arithmeticPredicateTerms := Function.update s₂.arithmeticPredicateTerms (expression, strict)
        (some s₁.nodes.length)
      arithmeticPredicates :=
        s₂.arithmeticPredicates ++ [⟨s₁.nodes.length, expression, strict⟩] } := by
    constructor <;> simp
  have hok : TermStore.Ok { s₂ with
      arithmeticPredicateTerms := Function.update s₂.arithmeticPredicateTerms (expression, strict)
        (some s₁.nodes.length)
      arithmeticPredicates :=
        s₂.arithmeticPredicates ++ [⟨s₁.nodes.length, expression, strict⟩] } :=
    { h₂ with
      nodes := fun i n hn => he.nodeOk (h₂.nodes i n hn)
      predicates := by
        rw [List.map_append]
        exact h₂.predicates.push (hindex ▸ hnone) s₁.nodes.length
      predicate_nodes := fun p hm => (List.mem_append.1 hm).elim (h₂.predicate_nodes p) fun hm => by
        rw [List.mem_singleton.1 hm]
        exact ⟨symbol, hn⟩
      applications := fun a ha => h₂.applicationOk_extends he (h₂.applications a ha)
      recorded := fun t n ht symbol e strict hk => by
        rcases s₁.getElem?_withNode ht with ht | ⟨rfl, rfl⟩
        · exact List.mem_append_left _ (h₁.recorded t n ht symbol e strict hk)
        · cases hk
          exact List.mem_append_right _ List.mem_cons_self }
  have hrun : (do
      let term ← intern boolSort (.arithmeticPredicate symbol expression strict)
      modify fun s => { s with
        arithmeticPredicateTerms :=
          Function.update s.arithmeticPredicateTerms (expression, strict) (some term)
        arithmeticPredicates := s.arithmeticPredicates ++ [⟨term, expression, strict⟩] }
      pure term : TermM TermId) s₁ = _ := bind_ok (intern_eq h₁ hnew)
  rw [Spec, hrun]
  exact ⟨he₂.trans he, hok, ⟨_, hn, rfl⟩, List.mem_append_right _ List.mem_cons_self⟩

lemma arithmeticIte_spec {condition thenTerm elseTerm : TermId} {sort : SmtSort}
    (hnone : s.arithmeticIteTerms (condition, thenTerm, elseTerm, sort) = none) :
    Spec False (do
      let result ← freshArithmeticVariable sort
      modify fun s => { s with
        arithmeticIteTerms :=
          Function.update s.arithmeticIteTerms (condition, thenTerm, elseTerm, sort) (some result)
        arithmeticItes := s.arithmeticItes ++ [⟨result, condition, thenTerm, elseTerm⟩] }
      pure result) s fun r s' => ⟨r, condition, thenTerm, elseTerm⟩ ∈ s'.arithmeticItes := by
  refine .bind ((freshArithmeticVariable_spec h sort).framed rest) ?_
  rintro result s₁ - h₁ ⟨⟨hsort, -⟩, hrest⟩
  have hindex : s₁.arithmeticIteTerms = s.arithmeticIteTerms :=
    (congrArg TermStore.arithmeticIteTerms hrest :)
  obtain ⟨node, hn, -⟩ := (sort?_eq_some_iff h₁).1 hsort
  have he : s₁.Extends { s₁ with
      arithmeticIteTerms :=
        Function.update s₁.arithmeticIteTerms (condition, thenTerm, elseTerm, sort) (some result)
      arithmeticItes := s₁.arithmeticItes ++ [⟨result, condition, thenTerm, elseTerm⟩] } := by
    constructor <;> simp
  have hentry : s₁.iteEntry ⟨result, condition, thenTerm, elseTerm⟩ =
      ((condition, thenTerm, elseTerm, sort), result) := by
    rw [iteEntry, hsort]
    rfl
  have hok : TermStore.Ok { s₁ with
      arithmeticIteTerms :=
        Function.update s₁.arithmeticIteTerms (condition, thenTerm, elseTerm, sort) (some result)
      arithmeticItes := s₁.arithmeticItes ++ [⟨result, condition, thenTerm, elseTerm⟩] } :=
    { h₁ with
      nodes := fun i n hn => he.nodeOk (h₁.nodes i n hn)
      ites := by
        have hpush := h₁.ites.push (hindex ▸ hnone) result
        rw [← hentry, ← List.map_singleton, ← List.map_append] at hpush
        exact hpush
      ites_live := fun item hm => (List.mem_append.1 hm).elim (h₁.ites_live item) fun hm => by
        rw [List.mem_singleton.1 hm]
        exact (List.getElem?_eq_some_iff.1 hn).1
      applications := fun a ha => h₁.applicationOk_extends he (h₁.applications a ha) }
  exact .modify he hok (.pure hok (by simp))

end

instance (left right : TermId) (strict : Bool) : Keeps (arithmeticComparison left right strict) := by
  unfold arithmeticComparison
  refine .of_bind fun sort => .bind_spec (fun s h => arithmeticExpressionAs_spec h left sort) ?_
  rintro s e _ - h ⟨rfl, he, -⟩
  refine .bind (arithmeticExpressionAs_spec h right sort) ?_
  rintro e' _ - - ⟨rfl, he', -⟩
  dsimp only
  split
  · exact .pure h trivial
  refine .bind (internArithmeticExpression_spec h (he.addScaled he' _)) ?_
  rintro i s₁ - h₁ -
  refine .get ?_
  split
  · exact .pure h₁ trivial
  · next hnone => exact (arithmeticPredicate_spec h₁ hnone).weaken fun _ _ _ _ _ => trivial

instance (left right : TermId) : Keeps (arithmeticLe left right) := by
  unfold arithmeticLe
  infer_instance

instance (left right : TermId) : Keeps (arithmeticLt left right) := by
  unfold arithmeticLt
  infer_instance

instance (left right : TermId) : Keeps (arithmeticGe left right) := by
  unfold arithmeticGe
  infer_instance

instance (left right : TermId) : Keeps (arithmeticGt left right) := by
  unfold arithmeticGt
  infer_instance

instance (left right : TermId) : Keeps (arithmeticEquivalent left right) := by
  unfold arithmeticEquivalent
  infer_instance

instance (condition thenTerm elseTerm : TermId) :
    Keeps (arithmeticIte condition thenTerm elseTerm) := by
  unfold arithmeticIte
  refine .of_bind fun sort => .of_bind fun thenTerm => .of_bind fun elseTerm => ⟨fun s h => .get ?_⟩
  split
  · exact .pure h trivial
  · next hnone => exact (arithmeticIte_spec h hnone).weaken fun _ _ _ _ _ => trivial

end Satrap.Smt
