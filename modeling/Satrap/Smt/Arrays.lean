/-
# Reads, equalities and conditionals

Array reads with their generated axioms, equality and `ite` of every sort.  A read of a stored
array and an equality of arrays build terms of each other; the induction is on the depth of
these calls.
-/
import Satrap.Smt.Applications
import Satrap.Smt.Rollback

namespace Satrap.Smt

open Logic TermStore TermM

variable {s s' : TermStore} {t r : TermId}

/-! ### The logs of the reads -/

namespace TermStore

lemma mem_readsOf {log : List (TermId × TermId)} {array index : TermId} :
    index ∈ (readsOf log array).getD [] ↔ (array, index) ∈ log := by
  have hmem : index ∈ (log.filter fun e => decide (e.1 = array)).map Prod.snd ↔
      (array, index) ∈ log := by
    simp only [List.mem_map, List.mem_filter, decide_eq_true_eq]
    constructor
    · rintro ⟨⟨a, i⟩, ⟨hm, rfl⟩, rfl⟩
      exact hm
    · exact fun hm => ⟨_, ⟨hm, rfl⟩, rfl⟩
  rw [← hmem, readsOf]
  split
  · next heq => simp [heq]
  · simp

end TermStore

instance (array index : TermId) : Keeps (registerArrayRead array index) := by
  refine ⟨fun s h => ?_⟩
  by_cases hm : index ∈ (s.arrayReads array).getD []
  · have heq : registerArrayRead array index s = (.ok (), s) := by
      change ((Except.ok (), if _ then _ else _) : Except TermError Unit × TermStore) = _
      rw [if_pos hm]
    rw [Spec, heq]
    exact ⟨.refl s, h, trivial⟩
  · have heq : registerArrayRead array index s = (.ok (), { s with
        arrayReads := Function.update s.arrayReads array
          (some ((s.arrayReads array).getD [] ++ [index]))
        arrayReadLog := s.arrayReadLog ++ [(array, index)] }) := by
      change ((Except.ok (), if _ then _ else _) : Except TermError Unit × TermStore) = _
      rw [if_neg hm]
    have he : s.Extends { s with
        arrayReads := Function.update s.arrayReads array
          (some ((s.arrayReads array).getD [] ++ [index]))
        arrayReadLog := s.arrayReadLog ++ [(array, index)] } := by
      constructor <;> simp
    rw [Spec, heq]
    refine ⟨he, ?_, trivial⟩
    exact { h with
      nodes := fun i n hn => he.nodeOk (h.nodes i n hn)
      applications := fun a ha => h.applicationOk_extends he (h.applications a ha)
      reads := by
        rw [readsOf_append, ← h.reads]
      reads_nodup := by
        rw [h.reads, mem_readsOf] at hm
        refine List.nodup_append'.2 ⟨h.reads_nodup, List.nodup_singleton _, ?_⟩
        simpa using hm }

instance (result : TermId) : Keeps (insertSemanticSelect result) := by
  refine ⟨fun s h => .get ?_⟩
  split
  · exact .pure h trivial
  · next hnone =>
    have he : s.Extends { s with
        arraySemanticSelects := Function.update s.arraySemanticSelects result (some ())
        arraySemanticSelectLog := s.arraySemanticSelectLog ++ [result] } := by
      constructor <;> simp
    have hok : TermStore.Ok { s with
        arraySemanticSelects := Function.update s.arraySemanticSelects result (some ())
        arraySemanticSelectLog := s.arraySemanticSelectLog ++ [result] } :=
      { h with
        nodes := fun i n hn => he.nodeOk (h.nodes i n hn)
        applications := fun a ha => h.applicationOk_extends he (h.applications a ha)
        selects := by
          rw [List.map_append]
          exact h.selects.push hnone () }
    exact .modify he hok (.pure hok trivial)

instance (term : TermId) : Keeps (pushArrayAxiom term) := by
  refine ⟨fun s h => ?_⟩
  have he : s.Extends { s with arrayAxioms := s.arrayAxioms ++ [term] } := by
    constructor <;> simp
  exact ⟨he, { h with
    nodes := fun i n hn => he.nodeOk (h.nodes i n hn)
    applications := fun a ha => h.applicationOk_extends he (h.applications a ha) }, trivial⟩

/-! ### Equalities -/

lemma orderedPair_le (left right : TermId) :
    (orderedPair left right).1 ≤ (orderedPair left right).2 := by
  rw [orderedPair]
  split
  · next hle => exact hle
  · next hlt => exact (not_le.1 hlt).le

/-- The atom of a new equality. -/
lemma theoryEqualityAtom_spec (h : s.Ok) {left right : TermId} (hle : left ≤ right)
    (hnone : s.theoryEqualityTerms (left, right) = none) {f : TermId → TermM TermId}
    {Q : TermId → TermStore → Prop} (hf : ∀ term s', s'.Ok → s'.IsBool term →
      ⟨term, left, right⟩ ∈ s'.theoryEqualities → Spec False (f term) s' Q) :
    Spec False (do
      let symbol ← freshSymbol
      let term ← intern boolSort (.theoryEquality symbol left right)
      recordTheoryEquality term left right
      f term) s Q := by
  refine .bind ((freshSymbol_spec h).framed rest) ?_
  rintro symbol s₁ - h₁ ⟨-, hrest₁⟩
  refine .bind ((intern_spec h₁ (nodeOk_boolean h₁ (by simp [TermKind.members]) (by simp) (by simp)
    (by simp)) (by simp)).framed rest) ?_
  rintro term s₂ - h₂ ⟨⟨hn, -⟩, hrest₂⟩
  have hindex : s₂.theoryEqualityTerms = s.theoryEqualityTerms :=
    (congrArg TermStore.theoryEqualityTerms (hrest₂.trans hrest₁) :)
  have he : s₂.Extends { s₂ with
      theoryEqualityTerms := Function.update s₂.theoryEqualityTerms (left, right) (some term)
      theoryEqualities := s₂.theoryEqualities ++ [⟨term, left, right⟩] } := by
    constructor <;> simp
  have hok : TermStore.Ok { s₂ with
      theoryEqualityTerms := Function.update s₂.theoryEqualityTerms (left, right) (some term)
      theoryEqualities := s₂.theoryEqualities ++ [⟨term, left, right⟩] } :=
    { h₂ with
      nodes := fun i n hn => he.nodeOk (h₂.nodes i n hn)
      applications := fun a ha => h₂.applicationOk_extends he (h₂.applications a ha)
      equalities := by
        rw [List.map_append]
        exact h₂.equalities.push (hindex ▸ hnone) term
      ordered := fun e hm => (List.mem_append.1 hm).elim (h₂.ordered e) fun hm => by
        rw [List.mem_singleton.1 hm]
        exact hle
      equality_nodes := fun e hm => (List.mem_append.1 hm).elim (h₂.equality_nodes e) fun hm => by
        rw [List.mem_singleton.1 hm]
        exact ⟨symbol, hn⟩ }
  exact .modify he hok (hf term _ hok ⟨_, hn, rfl⟩ (by simp))

lemma keeps_equivalentWith {theoryEquality : TermId → TermId → TermM TermId}
    (hq : ∀ left right, Keeps (theoryEquality left right)) (left right : TermId) :
    Keeps (equivalentWith theoryEquality left right) := by
  unfold equivalentWith
  refine .of_bind fun leftSort => .of_bind fun rightSort => ?_
  refine @Keeps.ite _ _ _ _ _ inferInstance (@Keeps.ite _ _ _ _ _ inferInstance ?_)
  split
  · infer_instance
  · infer_instance
  · exact hq left right

/-! ### Conditionals -/

lemma iteBit_spec (h : s.Ok) {c a b : TermId} (ha : s.IsBool a) (hb : s.IsBool b) :
    Spec False (iteBit c a b) s fun r s' => s'.IsBool r := by
  refine .bind (requireBool_spec h False.elim) ?_
  rintro _ _ - - ⟨rfl, hc⟩
  refine .bind (sortOf_spec h False.elim) ?_
  rintro _ _ - - ⟨rfl, -⟩
  refine .bind (sortOf_spec h False.elim) ?_
  rintro _ _ - - ⟨rfl, -⟩
  split
  · exact .fail h id
  · exact (iteBool_spec (ρ := fun _ => false) h hc ha hb).weaken fun _ _ _ _ hm => hm.isBool

/-- A conditional that is not interpreted has no bits. -/
lemma ufIteTerm_spec (h : s.Ok) {c a b : TermId} {sort : SmtSort} (ha : s.sort? a = some sort)
    (hsort : ∀ w, sort ≠ .bitVec w) :
    Spec False (ufIteTerm c a b) s fun r s' => ⟨r, c, a, b⟩ ∈ s'.ufItes := by
  refine .bind (sortId_spec h False.elim) ?_
  rintro _ _ - - ⟨rfl, node, hn, rfl⟩
  obtain ⟨node', hn', hs⟩ := (sort?_eq_some_iff h).1 ha
  rw [hn, Option.some.injEq] at hn'
  subst hn'
  have hnode : s.NodeOk s.nodes.length ⟨node.sort, .ufIte c a b⟩ := by
    refine nodeOk_leaf h (h.nodes _ _ hn).sort (fun w hw => ?_) rfl (by simp) (by simp) (by simp)
    rw [hs, Option.some.injEq] at hw
    exact hsort w hw
  refine .bind (intern_spec h hnode (by simp)) ?_
  rintro r s₁ - h₁ ⟨hr, -⟩
  have hmain : s₁.Extends (if s₁.ufItes.any fun item => decide (item.result = r) then s₁
      else { s₁ with ufItes := s₁.ufItes ++ [⟨r, c, a, b⟩] }) ∧
      (if s₁.ufItes.any fun item => decide (item.result = r) then s₁
        else { s₁ with ufItes := s₁.ufItes ++ [⟨r, c, a, b⟩] }).Ok ∧
      ⟨r, c, a, b⟩ ∈ (if s₁.ufItes.any fun item => decide (item.result = r) then s₁
        else { s₁ with ufItes := s₁.ufItes ++ [⟨r, c, a, b⟩] }).ufItes := by
    split
    · -- the conditional that is recorded for this term is the one of its node
      next hany =>
      obtain ⟨⟨r', c', a', b'⟩, hm, hres⟩ := List.any_eq_true.1 hany
      obtain rfl : r' = r := by simpa using hres
      obtain ⟨sort', hnode'⟩ := h₁.ufIte_nodes _ hm
      rw [hr] at hnode'
      simp only [Option.some.injEq, TermNode.mk.injEq, TermKind.ufIte.injEq] at hnode'
      obtain ⟨-, rfl, rfl, rfl⟩ := hnode'
      exact ⟨.refl s₁, h₁, hm⟩
    · have he : s₁.Extends { s₁ with ufItes := s₁.ufItes ++ [⟨r, c, a, b⟩] } := by
        constructor <;> simp
      refine ⟨he, { h₁ with
        nodes := fun i n hn => he.nodeOk (h₁.nodes i n hn)
        applications := fun a ha => h₁.applicationOk_extends he (h₁.applications a ha)
        ufIte_nodes := fun item hm => (List.mem_append.1 hm).elim (h₁.ufIte_nodes item) fun hm => by
          rw [List.mem_singleton.1 hm]
          exact ⟨_, hr⟩ }, by simp⟩
  exact .modify hmain.1 hmain.2.1 (.pure hmain.2.1 hmain.2.2)

instance (condition thenTerm elseTerm : TermId) : Keeps (mkIte condition thenTerm elseTerm) := by
  refine .bind_spec (fun s h => requireBool_spec h False.elim) ?_
  rintro s _ _ - h ⟨rfl, hc⟩
  refine .bind (sortOf_spec h False.elim) ?_
  rintro sort _ - - ⟨rfl, hsort⟩
  refine .bind (sortOf_spec h False.elim) ?_
  rintro elseSort _ - - ⟨rfl, helse⟩
  split
  · -- arithmetic branches
    refine .bind (Spec.of_keeps h) ?_
    rintro common s₁ - h₁ -
    refine .get ?_
    split <;> exact .of_keeps h₁
  split
  · exact .fail h id
  next heq =>
  rw [not_not.1 heq] at helse
  split
  · exact .pure h trivial
  cases sort with
  | bool =>
    refine (iteBool_spec (ρ := fun _ => false) h hc ((isBool_iff_sort? h).2 hsort)
      ((isBool_iff_sort? h).2 helse)).weaken fun _ _ _ _ _ => trivial
  | bitVec width =>
    obtain ⟨thenBits, hthen, -, -, hthenBool⟩ := bits_of_sort h hsort
    obtain ⟨elseBits, helse, -, -, helseBool⟩ := bits_of_sort h helse
    refine .bind (bitvecBits_spec h False.elim) ?_
    rintro _ _ - - ⟨rfl, hb⟩
    rw [hthen, Option.some.injEq] at hb
    subst hb
    refine .bind (bitvecBits_spec h False.elim) ?_
    rintro _ _ - - ⟨rfl, hb⟩
    rw [helse, Option.some.injEq] at hb
    subst hb
    refine .bind (Spec.collect (P := fun _ r s' => s'.IsBool r)
      (fun _ _ _ _ hl hr => hl.grown.isBool hr) _ s h fun pair hm s' he' h' => ?_) ?_
    · exact iteBit_spec h' (he'.isBool (hthenBool _ (List.of_mem_zip hm).1))
        (he'.isBool (helseBool _ (List.of_mem_zip hm).2))
    · intro bits s₁ _ h₁ _
      exact .of_keeps h₁
  | int => exact (ufIteTerm_spec h hsort (by simp)).weaken fun _ _ _ _ _ => trivial
  | real => exact (ufIteTerm_spec h hsort (by simp)).weaken fun _ _ _ _ _ => trivial
  | uninterpreted id => exact (ufIteTerm_spec h hsort (by simp)).weaken fun _ _ _ _ _ => trivial
  | array id => exact (ufIteTerm_spec h hsort (by simp)).weaken fun _ _ _ _ _ => trivial

/-! ### Reads and equalities of arrays -/

/-- Reads and equalities up to a depth. -/
lemma keeps_arrays (depth : ℕ) : (∀ array index, Keeps (select depth array index)) ∧
    ∀ left right, Keeps (theoryEquality depth left right) := by
  induction depth with
  | zero =>
    constructor
    · intro array index
      unfold select
      infer_instance
    · intro left right
      unfold theoryEquality
      infer_instance
  | succ depth ih =>
    obtain ⟨hselect, hequality⟩ := ih
    have hequivalent := fun left right => keeps_equivalentWith hequality left right
    constructor
    · intro array index
      unfold select
      refine .of_bind fun signature => .of_bind fun indexSort =>
        @Keeps.ite _ _ _ _ _ inferInstance ?_
      refine .of_bind fun _ => .of_bind fun result => .of_bind fun new =>
        @Keeps.ite _ _ _ _ _ (.of_bind fun s => ?_) inferInstance
      split <;> infer_instance
    · intro left right
      unfold theoryEquality
      refine @Keeps.ite _ _ _ _ _ inferInstance ?_
      have hle := orderedPair_le left right
      generalize orderedPair left right = pair at hle
      obtain ⟨left, right⟩ := pair
      refine ⟨fun s h => .get ?_⟩
      split
      · exact .pure h trivial
      · next hnone =>
        refine theoryEqualityAtom_spec h hle hnone fun term s' h' _ _ => ?_
        refine (@Keeps.of_bind _ _ (sortOf left) _ inferInstance fun sort => ?_).spec s' h'
        split
        · refine .of_bind fun signature => .of_bind fun witness => ?_
          refine .of_bind fun leftValue => .of_bind fun rightValue => ?_
          refine .of_bind fun valuesEqual => .of_bind fun valuesDiffer => ?_
          infer_instance
        · infer_instance

instance (depth : ℕ) (array index : TermId) : Keeps (select depth array index) :=
  (keeps_arrays depth).1 array index

instance (depth : ℕ) (left right : TermId) : Keeps (equivalent depth left right) :=
  keeps_equivalentWith (keeps_arrays depth).2 left right

instance (name : String) (first : TermId) (rest : List TermId) :
    Keeps (checkSameSort name first rest) := by
  unfold checkSameSort
  infer_instance

instance (depth : ℕ) (terms : List TermId) : Keeps (equal depth terms) := by
  unfold equal
  split <;> infer_instance

instance (depth : ℕ) (terms : List TermId) : Keeps (distinct depth terms) := by
  unfold distinct
  split <;> infer_instance

instance (depth : ℕ) (arrays : List TermId) : Keeps (shareArrayReads depth arrays) := by
  unfold shareArrayReads
  infer_instance

instance (arrange : List (List TermId) → List (List TermId)) (depth : ℕ) :
    Keeps (prepareArraysRound arrange depth) := by
  unfold prepareArraysRound
  infer_instance

lemma keeps_prepareArrays (arrange : List (List TermId) → List (List TermId)) (depth rounds : ℕ) :
    Keeps (prepareArrays arrange depth rounds) := by
  induction rounds with
  | zero => exact .fail _
  | succ rounds ih =>
    unfold prepareArrays
    infer_instance

end Satrap.Smt
