/-
# Connectives, equality and sharing

What the simplifying constructors return, under every assignment of the atoms: the connective of
the arguments, for equality and `ite` by the sort of the arguments.  Equality and `ite` of terms
that are not interpreted are read in an interpretation, which gives these terms values and agrees
with the theory atoms and conditionals of the store.  Equal nodes are shared.
-/
import Satrap.Smt.Exactness

namespace Satrap.Smt

open Logic TermStore TermM

variable {s s' : TermStore} {t u l r c : TermId} {ρ : SymbolId → Bool} {T : Prop} {b : Bool}
  {e e' : LinearExpression} {V : Type}

/-! ### Interpretations -/

/-- Values of the atoms, of the terms of uninterpreted and array sorts and of the arithmetic
variables. -/
structure Interpretation (V : Type) where
  atom : SymbolId → Bool
  element : TermId → V
  number : ℕ → ℚ

/-- The comparison of a number with zero. -/
def belowZero (strict : Bool) (x : ℚ) : Bool := if strict then decide (x < 0) else decide (x ≤ 0)

namespace TermStore

/-- The value of an arithmetic term. -/
def numeric (s : TermStore) (number : ℕ → ℚ) (t : TermId) : ℚ :=
  match (s.node t).kind with
  | .arithmetic i => ((s.arithmeticExpressions[i]?).map fun e => e.2.evaluate number).getD 0
  | _ => 0

/-- The theory atoms and conditionals of the store mean what they stand for. -/
structure Agrees (s : TermStore) (I : Interpretation V) : Prop where
  equalities : ∀ q ∈ s.theoryEqualities,
    s.evaluate I.atom q.term = true ↔ I.element q.left = I.element q.right
  predicates : ∀ p ∈ s.arithmeticPredicates, ∀ range e,
    s.arithmeticExpressions[p.expression]? = some (range, e) →
      s.evaluate I.atom p.term = belowZero p.strict (e.evaluate I.number)
  ufItes : ∀ item ∈ s.ufItes, I.element item.result =
    if s.evaluate I.atom item.condition then I.element item.thenTerm else I.element item.elseTerm
  arithmeticItes : ∀ item ∈ s.arithmeticItes, s.numeric I.number item.result =
    if s.evaluate I.atom item.condition then s.numeric I.number item.thenTerm
    else s.numeric I.number item.elseTerm

/-- The terms have the same value. -/
def Same (s : TermStore) (I : Interpretation V) (t u : TermId) : Prop :=
  match s.sort? t with
  | some .bool => s.evaluate I.atom t = s.evaluate I.atom u
  | some (.bitVec w) => s.wordOf I.atom t w = s.wordOf I.atom u w
  | some .int | some .real => s.numeric I.number t = s.numeric I.number u
  | _ => I.element t = I.element u

/-! ### Comparisons and equalities under an assignment -/

/-- What the assignment makes of the comparison of an expression with zero. -/
def Compares (s : TermStore) (ρ : SymbolId → Bool) (e : LinearExpression) (strict b : Bool) :
    Prop :=
  if e.isConstant then b = belowZero strict e.constant
  else ∃ p ∈ s.arithmeticPredicates, ∃ range,
    s.arithmeticExpressions[p.expression]? = some (range, e) ∧ p.strict = strict ∧
      s.evaluate ρ p.term = b

/-- What the assignment makes of the equality of two terms: of Boolean terms and words it is
decided by their values, of others by the recorded atoms. -/
def Equates (s : TermStore) (ρ : SymbolId → Bool) (t u : TermId) (b : Bool) : Prop :=
  match s.sort? t with
  | some .bool => b = (s.evaluate ρ t == s.evaluate ρ u)
  | some (.bitVec w) => b = (s.wordOf ρ t w == s.wordOf ρ u w)
  | some .int | some .real => ∃ e e' b₁ b₂, s.Expresses t e ∧ s.Expresses u e' ∧
      s.Compares ρ (e.addScaled e' (-1)) false b₁ ∧ s.Compares ρ (e'.addScaled e (-1)) false b₂ ∧
      b = (b₁ && b₂)
  | _ => (t = u ∧ b = true) ∨
      ∃ q ∈ s.theoryEqualities, orderedPair t u = (q.left, q.right) ∧ s.evaluate ρ q.term = b

lemma Expresses.lt (h : s.Expresses t e) : t < s.nodes.length := by
  obtain ⟨sort, i, range, hn, -⟩ := h
  exact (List.getElem?_eq_some_iff.1 hn).1

lemma Expresses.numeric (h : s.Expresses t e) (number : ℕ → ℚ) :
    s.numeric number t = e.evaluate number := by
  obtain ⟨sort, i, range, hn, hi⟩ := h
  rw [TermStore.numeric, node_eq_of_getElem? hn]
  dsimp only
  rw [hi, Option.map_some, Option.getD_some]

lemma Expresses.wellFormed (h : s.Ok) (he : s.Expresses t e) :
    e.WellFormed s.arithmeticVariableSorts.length := by
  obtain ⟨sort, i, range, -, hi⟩ := he
  exact h.bounded _ (List.mem_of_getElem? hi)

lemma Expresses.unique (he : s.Expresses t e) (he' : s.Expresses t e') : e = e' := by
  obtain ⟨sort, i, range, hn, hi⟩ := he
  obtain ⟨sort', i', range', hn', hi'⟩ := he'
  rw [hn] at hn'
  cases hn'
  rw [hi] at hi'
  cases hi'
  rfl

lemma Compares.later {strict : Bool} (h : s.Compares ρ e strict b) (hl : s.Later s') :
    s'.Compares ρ e strict b := by
  rw [Compares] at h ⊢
  split at h
  · next hc => rwa [if_pos hc]
  · next hc =>
    obtain ⟨p, hp, range, hi, hs, hv⟩ := h
    obtain ⟨symbol, hn⟩ := hl.before.predicate_nodes p hp
    obtain ⟨suffix, hsuffix⟩ := hl.grown.arithmeticExpressions
    rw [if_neg hc]
    refine ⟨p, hl.grown.arithmeticPredicates.subset hp, range, ?_, hs, ?_⟩
    · rw [← hsuffix, List.getElem?_append_left (List.getElem?_eq_some_iff.1 hi).1, hi]
    · rw [hl.before.evaluate_extends hl.after hl.grown _ (List.getElem?_eq_some_iff.1 hn).1, hv]

lemma wordOf_later {w : ℕ} (hs : s.sort? t = some (.bitVec w)) (hl : s.Later s') :
    s'.wordOf ρ t w = s.wordOf ρ t w :=
  ((Denotes.wordOf hs).later hl).2

lemma Equates.later (h : s.Equates ρ t u b) (ht : t < s.nodes.length)
    (hsort : s.sort? u = s.sort? t ∨ (∀ w, s.sort? t ≠ some (.bitVec w)) ∧ s.sort? t ≠ some .bool)
    (hl : s.Later s') : s'.Equates ρ t u b := by
  rw [Equates, hl.before.sort?_extends hl.grown ht]
  rw [Equates] at h
  split at h
  · next hs =>
    have hu : u < s.nodes.length := by
      rcases hsort with heq | ⟨-, hne⟩
      · exact lt_of_sort? (heq.trans hs)
      · exact absurd hs hne
    rw [hl.before.evaluate_extends hl.after hl.grown t ht,
      hl.before.evaluate_extends hl.after hl.grown u hu, h]
  · next w hs =>
    have hu : s.sort? u = some (.bitVec w) := by
      rcases hsort with heq | ⟨hne, -⟩
      · exact heq.trans hs
      · exact absurd hs (hne w)
    rw [wordOf_later hs hl, wordOf_later hu hl, h]
  · obtain ⟨e, e', b₁, b₂, he, he', h₁, h₂, hb⟩ := h
    exact ⟨e, e', b₁, b₂, he.mono hl.grown, he'.mono hl.grown, h₁.later hl, h₂.later hl, hb⟩
  · obtain ⟨e, e', b₁, b₂, he, he', h₁, h₂, hb⟩ := h
    exact ⟨e, e', b₁, b₂, he.mono hl.grown, he'.mono hl.grown, h₁.later hl, h₂.later hl, hb⟩
  · rcases h with h | ⟨q, hq, hpair, hv⟩
    · exact .inl h
    · obtain ⟨symbol, hn⟩ := hl.before.equality_nodes q hq
      refine .inr ⟨q, hl.grown.theoryEqualities.subset hq, hpair, ?_⟩
      rw [hl.before.evaluate_extends hl.after hl.grown _ (List.getElem?_eq_some_iff.1 hn).1, hv]

/-- A comparison is the one of the value of the expression. -/
lemma Compares.value {strict : Bool} {I : Interpretation V} (hI : s.Agrees I)
    (h : s.Compares I.atom e strict b) : b = belowZero strict (e.evaluate I.number) := by
  rw [Compares] at h
  split at h
  · next hc => rw [h, LinearExpression.evaluate_of_isConstant hc]
  · obtain ⟨p, hp, range, hi, rfl, hv⟩ := h
    rw [← hv, hI.predicates p hp range e hi]

/-- An equality holds under an assignment that agrees with an interpretation exactly when the
values are the same. -/
lemma Equates.same (h : s.Ok) {I : Interpretation V} (hI : s.Agrees I)
    (hq : s.Equates I.atom t u b) : b = true ↔ s.Same I t u := by
  have harith : (∃ e e' b₁ b₂, s.Expresses t e ∧ s.Expresses u e' ∧
      s.Compares I.atom (e.addScaled e' (-1)) false b₁ ∧
      s.Compares I.atom (e'.addScaled e (-1)) false b₂ ∧ b = (b₁ && b₂)) →
      (b = true ↔ s.numeric I.number t = s.numeric I.number u) := by
    rintro ⟨e, e', b₁, b₂, he, he', h₁, h₂, rfl⟩
    rw [h₁.value hI, h₂.value hI, he.numeric, he'.numeric,
      LinearExpression.evaluate_addScaled (he.wellFormed h).toCanonical,
      LinearExpression.evaluate_addScaled (he'.wellFormed h).toCanonical, Bool.and_eq_true,
      belowZero, belowZero, if_neg Bool.false_ne_true, if_neg Bool.false_ne_true, decide_eq_true_eq,
      decide_eq_true_eq]
    constructor
    · rintro ⟨hle, hge⟩
      linarith
    · intro heq
      constructor <;> linarith
  rw [Equates] at hq
  rw [Same]
  split at hq
  · rw [hq, beq_iff_eq]
  · rw [hq, beq_iff_eq]
  · exact harith hq
  · exact harith hq
  · rcases hq with ⟨rfl, rfl⟩ | ⟨q, hm, hpair, rfl⟩
    · simp
    · rw [hI.equalities q hm]
      rcases orderedPair_eq t u with heq | heq <;> rw [heq, Prod.mk.injEq] at hpair
      · rw [← hpair.1, ← hpair.2]
      · rw [← hpair.1, ← hpair.2, eq_comm]

end TermStore

/-! ### Arithmetic comparisons -/

/-- What is not claimed is not lost. -/
lemma Spec.of_false {α : Type} {x : TermM α} {Q : α → TermStore → Prop} (hT : ¬ T)
    (hx : Spec False x s Q) : Spec T x s Q := by
  obtain ⟨he, hok, hq⟩ := hx
  refine ⟨he, hok, ?_⟩
  generalize x s = r at he hok hq
  obtain ⟨a | a, s'⟩ := r
  · exact hT
  · exact hq

lemma Spec.of_true {α : Type} {x : TermM α} {Q : α → TermStore → Prop} (hx : Spec True x s Q) :
    Spec T x s Q := by
  obtain ⟨he, hok, hq⟩ := hx
  refine ⟨he, hok, ?_⟩
  generalize x s = r at he hok hq
  obtain ⟨a | a, s'⟩ := r
  · exact absurd trivial hq
  · exact hq

/-- What an operation returns. -/
lemma Spec.returned {α : Type} {x : TermM α} {Q : α → TermStore → Prop} (hx : Spec T x s Q) {a : α}
    (ha : (x s).1 = .ok a) : Q a (x s).2 := by
  obtain ⟨-, -, hq⟩ := hx
  rw [ha] at hq
  exact hq

section

variable (h : s.Ok)
include h

lemma commonArithmeticSort_spec (terms : List TermId) :
    Spec False (commonArithmeticSort terms) s fun _ s' => s = s' ∧
      ∀ t ∈ terms, ∃ sort, s.sort? t = some sort ∧ sort.isArithmetic = true := by
  unfold commonArithmeticSort
  generalize SmtSort.int = result
  induction terms generalizing result with
  | nil => exact .pure h ⟨rfl, by simp⟩
  | cons t rest ih =>
    refine .bind (Q := fun _ s' => s = s' ∧
      ∃ sort, s.sort? t = some sort ∧ sort.isArithmetic = true) ?_ ?_
    · refine .bind (requireArithmetic_spec h t) ?_
      rintro sort _ - - ⟨rfl, hs, ha⟩
      split <;> exact .pure h ⟨rfl, _, hs, ha⟩
    · rintro result' _ - - ⟨rfl, hsort⟩
      refine (ih result').weaken ?_
      rintro _ _ - - ⟨rfl, hrest⟩
      exact ⟨rfl, by simpa using ⟨hsort, hrest⟩⟩

/-- A comparison is the one of the difference. -/
lemma arithmeticComparison_spec (l r : TermId) (strict : Bool) :
    Spec False (arithmeticComparison l r strict) s fun t s' => s'.IsBool t ∧ ∃ e e',
      s.Expresses l e ∧ s.Expresses r e' ∧
        s'.Compares ρ (e.addScaled e' (-1)) strict (s'.evaluate ρ t) := by
  refine .bind (commonArithmeticSort_spec h [l, r]) ?_
  rintro sort _ - - ⟨rfl, -⟩
  refine .bind (arithmeticExpressionAs_spec h l sort) ?_
  rintro e _ - - ⟨rfl, hw, he⟩
  refine .bind (arithmeticExpressionAs_spec h r sort) ?_
  rintro e' _ - - ⟨rfl, hw', he'⟩
  dsimp only
  split
  · next hc =>
    refine .pure h ⟨h.isBool_constant _, e, e', he, he', ?_⟩
    rw [Compares, if_pos hc, h.evaluate_constant, belowZero]
  next hc =>
  refine .bind (internArithmeticExpression_spec h (hw.addScaled hw' _)) ?_
  rintro i s₁ - h₁ ⟨-, hi, -⟩
  have hmain : ∀ t s', s₁.Extends s' → s'.IsBool t → ⟨t, i, strict⟩ ∈ s'.arithmeticPredicates →
      s'.IsBool t ∧ ∃ e e', s.Expresses l e ∧ s.Expresses r e' ∧
        s'.Compares ρ (e.addScaled e' (-1)) strict (s'.evaluate ρ t) := by
    intro t s' hext hb hm
    refine ⟨hb, e, e', he, he', ?_⟩
    obtain ⟨suffix, hsuffix⟩ := hext.arithmeticExpressions
    rw [Compares, if_neg hc]
    refine ⟨_, hm, sort, ?_, rfl, rfl⟩
    rw [← hsuffix, List.getElem?_append_left (List.getElem?_eq_some_iff.1 hi).1, hi]
  refine .get ?_
  split
  · next t ht =>
    obtain ⟨⟨t', i', strict'⟩, hm, heq⟩ := List.mem_map.1 (h₁.predicates.eq_some_iff.1 ht)
    simp only [predicateEntry, Prod.mk.injEq] at heq
    obtain ⟨⟨rfl, rfl⟩, rfl⟩ := heq
    obtain ⟨symbol, hn⟩ := h₁.predicate_nodes _ hm
    exact .pure h₁ (hmain _ _ (.refl s₁) ⟨_, hn, rfl⟩ hm)
  · next hnone =>
    refine (arithmeticPredicate_spec h₁ hnone).weaken ?_
    rintro t s' hext - ⟨hb, hm⟩
    exact hmain t s' hext hb hm

lemma arithmeticEquivalent_spec (l r : TermId) :
    Spec False (arithmeticEquivalent l r) s fun t s' => s'.IsBool t ∧ ∃ e e' b₁ b₂,
      s'.Expresses l e ∧ s'.Expresses r e' ∧ s'.Compares ρ (e.addScaled e' (-1)) false b₁ ∧
        s'.Compares ρ (e'.addScaled e (-1)) false b₂ ∧ s'.evaluate ρ t = (b₁ && b₂) := by
  refine .bind (arithmeticComparison_spec (ρ := ρ) h l r false) ?_
  rintro t₁ s₁ he₁ h₁ ⟨hb₁, e, e', hl, hr, hc₁⟩
  refine .bind (arithmeticComparison_spec (ρ := ρ) h₁ r l false) ?_
  rintro t₂ s₂ he₂ h₂ ⟨hb₂, e₁', e₁, hr', hl', hc₂⟩
  obtain rfl := (hl.mono he₁).unique hl'
  obtain rfl := (hr.mono he₁).unique hr'
  have hl₁₂ : s₁.Later s₂ := ⟨h₁, h₂, he₂⟩
  refine (mkAnd_spec (ρ := ρ) h₂ False.elim).weaken ?_
  rintro t s₃ he₃ h₃ ⟨hb, hv⟩
  have hl₂₃ : s₂.Later s₃ := ⟨h₂, h₃, he₃⟩
  refine ⟨hb, e, e', _, _, (hl'.mono he₂).mono he₃, (hr'.mono he₂).mono he₃,
    (hc₁.later hl₁₂).later hl₂₃, hc₂.later hl₂₃, ?_⟩
  rw [hv, List.all_cons, List.all_cons, List.all_nil, Bool.and_true,
    h₁.evaluate_extends h₂ he₂ _ hb₁.lt]

end

/-! ### Equality -/

/-- The term is the equality of the others, which are not interpreted. -/
def Equated (s : TermStore) (l r t : TermId) : Prop :=
  s.IsBool t ∧ (l = r ∧ t = trueTerm ∨
    ∃ q ∈ s.theoryEqualities, orderedPair l r = (q.left, q.right) ∧ q.term = t)

lemma Equated.equates (h : s.Ok) (hq : Equated s l r t)
    (hsort : ∃ i, s.sort? l = some (.uninterpreted i) ∨ s.sort? l = some (.array i)) :
    s.Equates ρ l r (s.evaluate ρ t) := by
  have hmain : (l = r ∧ s.evaluate ρ t = true) ∨ ∃ q ∈ s.theoryEqualities,
      orderedPair l r = (q.left, q.right) ∧ s.evaluate ρ q.term = s.evaluate ρ t := by
    rcases hq.2 with ⟨rfl, rfl⟩ | ⟨q, hm, hpair, rfl⟩
    · exact .inl ⟨rfl, h.evaluate_constant true⟩
    · exact .inr ⟨q, hm, hpair, rfl⟩
  obtain ⟨i, hs | hs⟩ := hsort <;> (rw [Equates, hs]; exact hmain)

lemma theoryEquality_spec (h : s.Ok) (depth : ℕ) (l r : TermId) :
    Spec False (theoryEquality depth l r) s fun t s' => Equated s' l r t := by
  cases depth with
  | zero =>
    unfold theoryEquality
    exact .fail h id
  | succ depth =>
    unfold theoryEquality
    split
    · next heq => exact .pure h ⟨h.isBool_constant true, .inl ⟨heq, rfl⟩⟩
    have hle := orderedPair_le l r
    generalize hpair : orderedPair l r = pair at hle
    obtain ⟨left, right⟩ := pair
    refine .get ?_
    split
    · next t ht =>
      obtain ⟨q, hm, heq⟩ := List.mem_map.1 (h.equalities.eq_some_iff.1 ht)
      simp only [equalityEntry, Prod.mk.injEq] at heq
      obtain ⟨⟨rfl, rfl⟩, rfl⟩ := heq
      obtain ⟨symbol, hn⟩ := h.equality_nodes q hm
      exact .pure h ⟨⟨_, hn, rfl⟩, .inr ⟨q, hm, hpair, rfl⟩⟩
    · next hnone =>
      refine theoryEqualityAtom_spec h hle hnone fun t s₁ h₁ hb hm => ?_
      have hdone : ∀ s₂, s₁.Extends s₂ → Equated s₂ l r t := fun s₂ he =>
        ⟨he.isBool hb, .inr ⟨_, he.theoryEqualities.subset hm, hpair, rfl⟩⟩
      refine .bind (sortOf_spec h₁ False.elim) ?_
      rintro sort _ - - ⟨rfl, -⟩
      -- the extensionality axiom of two arrays leaves the atom alone
      split
      · next sort =>
        refine .bind (.of_keeps h₁) fun signature s₂ he₂ h₂ _ => ?_
        refine .bind (.of_keeps h₂) fun witness s₃ he₃ h₃ _ => ?_
        refine .bind (.of_keeps h₃) fun leftValue s₄ he₄ h₄ _ => ?_
        refine .bind (.of_keeps h₄) fun rightValue s₅ he₅ h₅ _ => ?_
        refine .bind ((keeps_equivalentWith (keeps_arrays depth).2 _ _).spec s₅ h₅)
          fun valuesEqual s₆ he₆ h₆ _ => ?_
        refine .bind (.of_keeps h₆) fun valuesDiffer s₇ he₇ h₇ _ => ?_
        refine .bind (.of_keeps h₇) fun extensionality s₈ he₈ h₈ _ => ?_
        refine .bind (.of_keeps h₈) fun _ s₉ he₉ h₉ _ => .pure h₉ (hdone s₉ ?_)
        exact he₂.trans <| he₃.trans <| he₄.trans <| he₅.trans <| he₆.trans <| he₇.trans <|
          he₈.trans he₉
      · exact .pure h₁ (hdone s₁ (.refl s₁))

/-- Terms whose equality is built without fail: of sort `Bool`, or words of one width. -/
def Interpreted (s : TermStore) (t u : TermId) : Prop :=
  (s.IsBool t ∧ s.IsBool u) ∨ ∃ w, s.IsWord t w ∧ s.IsWord u w

lemma Interpreted.extends (h : s.Ok) (he : s.Extends s') (hi : Interpreted s t u) :
    Interpreted s' t u := by
  rcases hi with ⟨ht, hu⟩ | ⟨w, ht, hu⟩
  · exact .inl ⟨he.isBool ht, he.isBool hu⟩
  · refine .inr ⟨w, ?_, ?_⟩
    · rw [IsWord, h.sort?_extends he (lt_of_sort? ht), ht]
    · rw [IsWord, h.sort?_extends he (lt_of_sort? hu), hu]

lemma Interpreted.lt (hi : Interpreted s t u) : t < s.nodes.length ∧ u < s.nodes.length := by
  rcases hi with ⟨ht, hu⟩ | ⟨w, ht, hu⟩
  · exact ⟨ht.lt, hu.lt⟩
  · exact ⟨lt_of_sort? ht, lt_of_sort? hu⟩

lemma Interpreted.sort_eq (h : s.Ok) (hi : Interpreted s t u) : s.sort? t = s.sort? u ∧
    ∀ sort, s.sort? t = some sort → sort = .bool ∨ ∃ w, sort = .bitVec w := by
  rcases hi with ⟨ht, hu⟩ | ⟨w, ht, hu⟩
  · rw [h.sort?_isBool ht, h.sort?_isBool hu]
    exact ⟨rfl, by rintro sort ⟨⟩; exact .inl rfl⟩
  · rw [ht, hu]
    exact ⟨rfl, by rintro sort ⟨⟩; exact .inr ⟨w, rfl⟩⟩

/-- The value of the term is a function of the one that the assignment gives to the equality. -/
structure Decided (s : TermStore) (ρ : SymbolId → Bool) (f : Bool → Bool) (l r t : TermId) :
    Prop where
  equates : ∃ b, s.Equates ρ l r b ∧ s.Means ρ t (f b)
  left : l < s.nodes.length
  right : r < s.nodes.length
  sorts : s.sort? r = s.sort? l ∨ (∀ w, s.sort? l ≠ some (.bitVec w)) ∧ s.sort? l ≠ some .bool

lemma Decided.later {f : Bool → Bool} (h : Decided s ρ f l r t) (hl : s.Later s') :
    Decided s' ρ f l r t where
  equates := by
    obtain ⟨b, hq, hm⟩ := h.equates
    exact ⟨b, hq.later h.left h.sorts hl, hm.later hl⟩
  left := h.left.trans_le hl.grown.nodes.length_le
  right := h.right.trans_le hl.grown.nodes.length_le
  sorts := by
    rw [hl.before.sort?_extends hl.grown h.left, hl.before.sort?_extends hl.grown h.right]
    exact h.sorts

/-- The equality of two terms. -/
lemma equivalent_spec (h : s.Ok) (depth : ℕ) (l r : TermId) (hT : T → Interpreted s l r) :
    Spec T (equivalent depth l r) s fun t s' => Decided s' ρ id l r t := by
  have hdecided : ∀ t s', s.Later s' → s'.IsBool t → s'.Equates ρ l r (s'.evaluate ρ t) →
      ∀ leftSort rightSort, s.sort? l = some leftSort → s.sort? r = some rightSort →
      (rightSort = leftSort ∨ (∀ w, leftSort ≠ .bitVec w) ∧ leftSort ≠ .bool) →
      Decided s' ρ id l r t := by
    intro t s' hl hb hq leftSort rightSort hsl hsr hsorts
    have hll := lt_of_sort? hsl
    have hlr := lt_of_sort? hsr
    refine ⟨⟨_, hq, hb, rfl⟩, hll.trans_le hl.grown.nodes.length_le, hlr.trans_le hl.grown.nodes.length_le, ?_⟩
    rw [h.sort?_extends hl.grown hll, h.sort?_extends hl.grown hlr, hsl, hsr]
    simpa using hsorts
  by_cases hwords : ∃ w, s.IsWord l w ∧ s.IsWord r w
  · obtain ⟨w, hl, hr⟩ := hwords
    have hd := equivalentWith_words (ρ := ρ) h (.wordOf hl) (.wordOf hr) (theoryEquality depth)
    refine .of_true (hd.weaken ?_)
    rintro t s' he h' ⟨⟨hb, hv⟩, -⟩
    refine hdecided t s' ⟨h, h', he⟩ hb ?_ _ _ hl hr (.inl rfl)
    rw [Equates, h.sort?_extends he (lt_of_sort? hl), hl]
    dsimp only
    rw [hv, wordOf_later hl ⟨h, h', he⟩, wordOf_later hr ⟨h, h', he⟩]
  refine .bind (sortOf_spec h fun ht => (hT ht).lt.1) ?_
  rintro leftSort _ - - ⟨rfl, hl⟩
  refine .bind (sortOf_spec h fun ht => (hT ht).lt.2) ?_
  rintro rightSort _ - - ⟨rfl, hr⟩
  have hlt := lt_of_sort? hl
  have hnot : (∀ w, leftSort ≠ .bitVec w) → leftSort ≠ .bool → ¬ T := by
    intro hw hb ht
    rcases ((hT ht).sort_eq h).2 leftSort hl with heq | ⟨w, heq⟩
    · exact hb heq
    · exact hw w heq
  split
  · next harith =>
    rw [Bool.and_eq_true] at harith
    have hw : ∀ w, leftSort ≠ .bitVec w := by
      rintro w rfl
      simp [SmtSort.isArithmetic] at harith
    have hb : leftSort ≠ .bool := by
      rintro rfl
      simp [SmtSort.isArithmetic] at harith
    refine .of_false (hnot hw hb) ((arithmeticEquivalent_spec (ρ := ρ) h l r).weaken ?_)
    rintro t s' he h' ⟨hbool, e, e', b₁, b₂, hel, her, h₁, h₂, hv⟩
    refine hdecided t s' ⟨h, h', he⟩ hbool ?_ _ _ hl hr (.inr ⟨hw, hb⟩)
    rw [Equates, h.sort?_extends he hlt, hl]
    cases leftSort with
    | int | real => exact ⟨e, e', b₁, b₂, hel, her, h₁, h₂, hv⟩
    | _ => simp [SmtSort.isArithmetic] at harith
  next harith =>
  split
  · next hne => exact .fail h fun ht => hne (by
      have := ((hT ht).sort_eq h).1
      rw [hl, hr, Option.some.injEq] at this
      exact this.symm)
  next heq =>
  rw [not_not] at heq
  subst heq
  have habstract : (∃ i, rightSort = .uninterpreted i ∨ rightSort = .array i) →
      Spec T (theoryEquality depth l r) s fun t s' => Decided s' ρ id l r t := by
    intro hsort
    refine .of_false (hnot ?_ ?_) ((theoryEquality_spec h depth l r).weaken ?_)
    · rintro w rfl
      simp at hsort
    · rintro rfl
      simp at hsort
    · rintro t s' he h' hq
      refine hdecided t s' ⟨h, h', he⟩ hq.1 (hq.equates h' ?_) _ _ hl hr (.inl rfl)
      rw [h.sort?_extends he hlt, hl]
      simpa using hsort
  cases rightSort with
  | bool =>
    have hbl := (isBool_iff_sort? h).2 hl
    have hbr := (isBool_iff_sort? h).2 hr
    refine (mkIff_spec (ρ := ρ) h (fun _ => hbl) fun _ => hbr).weaken ?_
    rintro t s' he h' ⟨hb, hv⟩
    refine hdecided t s' ⟨h, h', he⟩ hb ?_ _ _ hl hr (.inl rfl)
    rw [Equates, h.sort?_extends he hlt, hl]
    dsimp only
    rw [hv, h.evaluate_extends h' he l hbl.lt, h.evaluate_extends h' he r hbr.lt]
  | bitVec w => exact absurd ⟨w, hl, hr⟩ hwords
  | int | real => simp [SmtSort.isArithmetic] at harith
  | uninterpreted id => exact habstract ⟨id, .inl rfl⟩
  | array id => exact habstract ⟨id, .inr rfl⟩

/-- The sorts of the arguments of `=` and `distinct` are checked. -/
lemma checkSameSort_spec (h : s.Ok) (name : String) (first : TermId) (rest : List TermId)
    (hT : T → first < s.nodes.length ∧ ∀ t ∈ rest, Interpreted s first t) :
    Spec T (checkSameSort name first rest) s fun _ s' => s = s' := by
  have heach : ∀ (arithmetic : Bool) (firstSort : SmtSort), s.sort? first = some firstSort →
      ∀ rest : List TermId, (T → ∀ t ∈ rest, Interpreted s first t) →
      Spec T (each (fun term => do
        if arithmetic then pure ()
        else if (← sortOf term) ≠ firstSort then
          fail s!"all arguments to `{name}` must have the same sort"
        else pure ()) rest) s fun _ s' => s = s' := by
    intro arithmetic firstSort hfirst rest
    induction rest with
    | nil => exact fun _ => .pure h rfl
    | cons t rest ih =>
      intro ht
      refine .bind (Q := fun _ s' => s = s') ?_ ?_
      · cases arithmetic with
        | true => exact .pure h rfl
        | false =>
          refine .bind (sortOf_spec h fun hT => (ht hT t (by simp)).lt.2) ?_
          rintro sort _ - - ⟨rfl, hs⟩
          split
          · next hne =>
            refine .fail h fun hT => hne ?_
            have := ((ht hT t (by simp)).sort_eq h).1
            rw [hfirst, hs, Option.some.injEq] at this
            exact this.symm
          · exact .pure h rfl
      · rintro _ _ - - rfl
        exact ih fun hT u hu => ht hT u (by simp [hu])
  refine .bind (sortOf_spec h fun ht => (hT ht).1) ?_
  rintro firstSort _ - - ⟨rfl, hs⟩
  exact .get (heach _ firstSort hs rest fun ht => (hT ht).2)

/-- The values of a list of equalities. -/
def EquatesAll (s : TermStore) (ρ : SymbolId → Bool) (pairs : List (TermId × TermId))
    (values : List Bool) : Prop :=
  List.Forall₂ (fun p b => s.Equates ρ p.1 p.2 b) pairs values

lemma equatesAll_of_decided {f : Bool → Bool} {pairs : List (TermId × TermId)}
    {results : List TermId} (hd : List.Forall₂ (fun p t => Decided s ρ f p.1 p.2 t) pairs results) :
    ∃ values, EquatesAll s ρ pairs values ∧ s.Reads ρ results (values.map f) := by
  induction hd with
  | nil => exact ⟨[], .nil, .nil⟩
  | cons hp _ ih =>
    obtain ⟨b, hq, hm⟩ := hp.equates
    obtain ⟨values, hvalues, hreads⟩ := ih
    exact ⟨b :: values, .cons hq hvalues, .cons hm hreads⟩

/-- The conjunction of terms that depend on equalities. -/
lemma conjunction_spec (h : s.Ok) {f : Bool → Bool} (pairs : List (TermId × TermId))
    {g : TermId × TermId → TermM TermId} (hg : ∀ p ∈ pairs, ∀ s', s.Extends s' → s'.Ok →
      Spec T (g p) s' fun t s'' => Decided s'' ρ f p.1 p.2 t) :
    Spec T (collect g pairs >>= mkAnd) s fun t s' => ∃ values, EquatesAll s' ρ pairs values ∧
      s'.Means ρ t ((values.map f).all id) := by
  refine .bind (.collect (P := fun (p : TermId × TermId) t s' => Decided s' ρ f p.1 p.2 t)
    (fun p t s₁ s₂ hl (hd : Decided s₁ ρ f p.1 p.2 t) => hd.later hl) pairs s h hg) ?_
  intro results s₁ he₁ h₁ hd
  have hbool : ∀ t ∈ results, s₁.IsBool t := by
    obtain ⟨values, -, hreads⟩ := equatesAll_of_decided hd
    exact hreads.isBool
  refine (mkAnd_spec (ρ := ρ) h₁ fun _ => hbool).weaken ?_
  rintro t s₂ he₂ h₂ ⟨hb, hv⟩
  have hl : s₁.Later s₂ := ⟨h₁, h₂, he₂⟩
  obtain ⟨values, hvalues, hreads⟩ := equatesAll_of_decided (hd.imp fun p t hp => hp.later hl)
  refine ⟨values, hvalues, hb, ?_⟩
  have hmap : results.map (s₁.evaluate ρ) = results.map (s₂.evaluate ρ) :=
    List.map_congr_left fun t ht => (h₁.evaluate_extends h₂ he₂ t (hbool t ht).lt).symm
  rw [hv, ← hreads.eq_map, ← hmap, List.all_map]
  rfl

lemma equal_spec (h : s.Ok) (depth : ℕ) (first : TermId) (rest : List TermId)
    (hT : T → rest ≠ [] ∧ ∀ t ∈ rest, Interpreted s first t) :
    Spec T (equal depth (first :: rest)) s fun t s' => ∃ values,
      EquatesAll s' ρ (rest.map fun t => (first, t)) values ∧ s'.Means ρ t (values.all id) := by
  cases rest with
  | nil => exact .fail h fun ht => (hT ht).1 rfl
  | cons second rest =>
    refine .bind (checkSameSort_spec h _ _ _ fun ht => ⟨?_, (hT ht).2⟩) ?_
    · exact ((hT ht).2 second (by simp)).lt.1
    rintro _ _ - - rfl
    have hcollect : ∀ list : List TermId, collect (equivalent depth first) list =
        collect (fun p => equivalent depth p.1 p.2) (list.map fun t => (first, t)) := by
      intro list
      induction list with
      | nil => rfl
      | cons t list ih =>
        rw [collect, List.map_cons, collect, ih]
    rw [hcollect]
    refine (conjunction_spec (ρ := ρ) (f := id) h _ fun p hp s' he h' => ?_).weaken ?_
    · obtain ⟨t, ht, rfl⟩ := List.mem_map.1 hp
      exact equivalent_spec h' depth first t fun hT' => ((hT hT').2 t ht).extends h he
    · rintro t s' - - ⟨values, hvalues, hm⟩
      exact ⟨values, hvalues, by simpa using hm⟩

/-- The arguments of `distinct`, two by two. -/
lemma forall_mem_pairs {P : TermId → TermId → Prop} (terms : List TermId) :
    (∀ p ∈ pairs terms, P p.1 p.2) ↔ terms.Pairwise P := by
  induction terms with
  | nil => simp [pairs]
  | cons first rest ih =>
    rw [pairs, List.pairwise_cons, ← ih]
    simp [or_imp, forall_and]

lemma distinct_spec (h : s.Ok) (depth : ℕ) (terms : List TermId)
    (hT : T → 2 ≤ terms.length ∧ terms.Pairwise (Interpreted s)) :
    Spec T (distinct depth terms) s fun t s' => ∃ values, EquatesAll s' ρ (pairs terms) values ∧
      s'.Means ρ t (values.all not) := by
  match terms, hT with
  | [], hT => exact .fail h fun ht => absurd (hT ht).1 (by simp)
  | [_], hT => exact .fail h fun ht => absurd (hT ht).1 (by simp)
  | first :: second :: rest, hT =>
    refine .bind (checkSameSort_spec h _ _ _ fun ht => ?_) ?_
    · have hfirst := (List.pairwise_cons.1 (hT ht).2).1
      exact ⟨(hfirst second (by simp)).lt.1, hfirst⟩
    rintro _ _ - - rfl
    refine (conjunction_spec (ρ := ρ) (f := not) h _ fun p hp s' he h' => ?_).weaken ?_
    · have hint : T → Interpreted s p.1 p.2 := fun ht => (forall_mem_pairs _).2 (hT ht).2 p hp
      refine .bind (equivalent_spec (ρ := ρ) h' depth p.1 p.2 fun ht => (hint ht).extends h he) ?_
      intro q s₁ he₁ h₁ hd
      obtain ⟨b, hq, hm⟩ := hd.equates
      refine (mkNot_spec (ρ := ρ) h₁ fun _ => hm.isBool).weaken ?_
      intro t s₂ he₂ h₂ ht
      have hd' := hd.later ⟨h₁, h₂, he₂⟩
      refine ⟨⟨b, hq.later hd.left hd.sorts ⟨h₁, h₂, he₂⟩, ?_⟩, hd'.left, hd'.right, hd'.sorts⟩
      rw [hm.eq] at ht
      exact ht
    · rintro t s' - - ⟨values, hvalues, hm⟩
      refine ⟨values, hvalues, ?_⟩
      rw [List.all_map] at hm
      exact hm

lemma EquatesAll.same (h : s.Ok) {I : Interpretation V} (hI : s.Agrees I)
    {pairs : List (TermId × TermId)} {values : List Bool}
    (hq : EquatesAll s I.atom pairs values) :
    (values.all id = true ↔ ∀ p ∈ pairs, s.Same I p.1 p.2) ∧
      (values.all not = true ↔ ∀ p ∈ pairs, ¬ s.Same I p.1 p.2) := by
  induction hq with
  | nil => simp
  | @cons p b pairs values hp _ ih =>
    rw [List.all_cons, List.all_cons, Bool.and_eq_true, Bool.and_eq_true, List.forall_mem_cons,
      List.forall_mem_cons, ih.1, ih.2, ← hp.same h hI]
    simp

/-! ### Implication and conditionals -/

lemma implies_spec (h : s.Ok) (antecedents : List TermId) (conclusion : TermId)
    (hne : antecedents ≠ []) (hb : ∀ t ∈ antecedents, s.IsBool t) (hc : s.IsBool conclusion) :
    Spec T (implies (antecedents ++ [conclusion])) s fun t s' =>
      s'.Means ρ t (!antecedents.all (s.evaluate ρ) || s.evaluate ρ conclusion) := by
  rw [implies, if_neg (by
    rw [List.length_append, List.length_singleton]
    have := List.length_pos_iff.2 hne
    omega)]
  refine .bind (each_requireBool_spec h _ fun _ t ht => ?_) ?_
  · rcases List.mem_append.1 ht with ht | ht
    · exact hb t ht
    · exact List.mem_singleton.1 ht ▸ hc
  rintro _ _ - - ⟨rfl, -⟩
  rw [List.dropLast_concat, List.getLastD_eq_getLast?, List.getLast?_concat, Option.getD_some]
  -- the antecedents still to come imply the result so far
  refine (Spec.loop (I := fun result rest s' => (∀ t ∈ rest, s.IsBool t) ∧
    ∃ value, s'.Means ρ result value ∧ (!rest.all (s.evaluate ρ) || value) =
      (!antecedents.all (s.evaluate ρ) || s.evaluate ρ conclusion))
    antecedents.reverse conclusion s h ?_ ?_).weaken ?_
  · refine ⟨fun t ht => hb t (List.mem_reverse.1 ht), _, .of_isBool hc, ?_⟩
    rw [List.all_reverse]
  · rintro result t rest s₁ he₁ h₁ ⟨hrest, value, hm, hv⟩
    have ht : s.IsBool t := hrest t (by simp)
    refine .bind (mkNot_spec (ρ := ρ) h₁ fun _ => he₁.isBool ht) ?_
    intro negated s₂ he₂ h₂ hneg
    have hm₂ := hm.later ⟨h₁, h₂, he₂⟩
    refine (mkOr_spec (ρ := ρ) h₂ fun _ u hu => ?_).weaken ?_
    · rcases List.mem_cons.1 hu with rfl | hu
      · exact hneg.isBool
      · exact List.mem_singleton.1 hu ▸ hm₂.isBool
    · rintro r s₃ - - hr
      refine ⟨fun u hu => hrest u (by simp [hu]), _, hr, ?_⟩
      rw [← hv, List.any_cons, List.any_cons, List.any_nil, Bool.or_false, hneg.eq, hm₂.eq,
        h.evaluate_extends h₁ he₁ t ht.lt, List.all_cons]
      cases s.evaluate ρ t <;> simp
  · rintro r s' - - ⟨-, value, hm, hv⟩
    rw [← hv]
    simpa using hm

lemma iteBit_means (h : s.Ok) {x y : TermId} {a a' : Bool} (hc : s.Means ρ c b)
    (hx : s.Means ρ x a) (hy : s.Means ρ y a') :
    Spec True (iteBit c x y) s fun r s' => s'.Means ρ r (if b then a else a') := by
  refine .bind (requireBool_spec h fun _ => hc.isBool) ?_
  rintro _ _ - - ⟨rfl, -⟩
  refine .bind (sortOf_spec h fun _ => hx.isBool.lt) ?_
  rintro _ _ - - ⟨rfl, hs⟩
  refine .bind (sortOf_spec h fun _ => hy.isBool.lt) ?_
  rintro _ _ - - ⟨rfl, hs'⟩
  rw [h.sort?_isBool hx.isBool, Option.some.injEq] at hs
  rw [h.sort?_isBool hy.isBool, Option.some.injEq] at hs'
  rw [if_neg (by simp [← hs, ← hs']), ← hc.eq, ← hx.eq, ← hy.eq]
  exact (iteBool_spec (ρ := ρ) h hc.isBool hx.isBool hy.isBool).of_true

/-- `ite` of words. -/
lemma mkIte_words (h : s.Ok) {x y : TermId} {w : ℕ} (hc : s.IsBool c) (hx : s.IsWord x w)
    (hy : s.IsWord y w) : Spec True (mkIte c x y) s fun r s' =>
      s'.Denotes ρ r (if s.evaluate ρ c then s.wordOf ρ x w else s.wordOf ρ y w) := by
  refine .bind (requireBool_spec h fun _ => hc) ?_
  rintro _ _ - - ⟨rfl, -⟩
  refine .bind (sortOf_spec h fun _ => lt_of_sort? hx) ?_
  rintro _ _ - - ⟨rfl, hs⟩
  refine .bind (sortOf_spec h fun _ => lt_of_sort? hy) ?_
  rintro _ _ - - ⟨rfl, hs'⟩
  rw [hx, Option.some.injEq] at hs
  rw [hy, Option.some.injEq] at hs'
  subst hs hs'
  rw [if_neg (by simp [SmtSort.isArithmetic]), if_neg (by simp)]
  split
  · next heq =>
    subst heq
    rw [ite_self]
    exact .pure h (.wordOf hx)
  refine .bind (bitvecBits_denotes (ρ := ρ) h (.wordOf hx)) ?_
  rintro left _ - - ⟨rfl, -, xs, hxs, hlx, hvx⟩
  refine .bind (bitvecBits_denotes (ρ := ρ) h (.wordOf hy)) ?_
  rintro right _ - - ⟨rfl, -, ys, hys, hly, hvy⟩
  have hcv : s.Means ρ c (s.evaluate ρ c) := .of_isBool hc
  refine .bind (collect_pairs (f := iteBit c) (g := fun a b => if s.evaluate ρ c then a else b)
    h hxs hys fun s' t u a b hl ht hu => iteBit_means hl.after (hcv.later hl) ht hu) ?_
  intro bits s₁ he₁ h₁ hbits
  have hl : s.Later s₁ := ⟨h, h₁, he₁⟩
  refine makeBitvec_same h₁ ((Denotes.wordOf (ρ := ρ) hx).later hl) ?_
  rw [zipWith_ite (hlx.trans hly.symm)] at hbits
  cases hv : s.evaluate ρ c with
  | true =>
    rw [if_pos rfl]
    rw [hv, if_pos rfl] at hbits
    exact ⟨xs, hbits, hlx, hvx⟩
  | false =>
    rw [if_neg Bool.false_ne_true]
    rw [hv, if_neg Bool.false_ne_true] at hbits
    exact ⟨ys, hbits, hly, hvy⟩

lemma numeric_extends (h : s.Ok) (he : s.Extends s') (ht : t < s.nodes.length) (number : ℕ → ℚ) :
    s'.numeric number t = s.numeric number t := by
  rw [numeric, numeric, he.node_eq ht]
  split
  · next i hk =>
    have hi := (h.node_of_lt ht).2.expression i hk
    obtain ⟨suffix, hs⟩ := he.arithmeticExpressions
    rw [← hs, List.getElem?_append_left hi]
  · rfl

/-- Coercing a term keeps its value. -/
lemma coerceArithmeticTerm_spec (h : s.Ok) (t : TermId) (target : SmtSort) :
    Spec False (coerceArithmeticTerm t target) s fun r s' => r < s'.nodes.length ∧
      t < s.nodes.length ∧ ∀ number, s'.numeric number r = s.numeric number t := by
  refine .bind (sortOf_spec h False.elim) ?_
  rintro sort _ - - ⟨rfl, hs⟩
  have ht := lt_of_sort? hs
  split
  · exact .pure h ⟨ht, ht, fun number => rfl⟩
  · refine .bind (arithmeticExpressionAs_spec h t target) ?_
    rintro e _ - - ⟨rfl, hw, he⟩
    refine (makeArithmeticTerm_spec h hw).weaken ?_
    rintro r s' - - ⟨-, hr, -⟩
    exact ⟨hr.lt, ht, fun number => by rw [hr.numeric, he.numeric]⟩

lemma mem_of_arithmeticIteTerms (h : s.Ok) {sort : SmtSort}
    (hr : s.arithmeticIteTerms (c, t, u, sort) = some r) : ⟨r, c, t, u⟩ ∈ s.arithmeticItes := by
  obtain ⟨⟨r', c', t', u'⟩, hm, heq⟩ := List.mem_map.1 (h.ites.eq_some_iff.1 hr)
  simp only [iteEntry, Prod.mk.injEq] at heq
  obtain ⟨⟨rfl, rfl, rfl, -⟩, rfl⟩ := heq
  exact hm

/-- The conditional of two arithmetic terms has the value of the branch. -/
lemma arithmeticIte_value (h : s.Ok) (hc : s.IsBool c) (t u : TermId) :
    Spec False (arithmeticIte c t u) s fun r s' => ∀ I : Interpretation V, s'.Agrees I →
      s'.numeric I.number r =
        if s.evaluate I.atom c then s.numeric I.number t else s.numeric I.number u := by
  refine .bind (commonArithmeticSort_spec h [t, u]) ?_
  rintro sort _ - - ⟨rfl, hsorts⟩
  obtain ⟨_, hsu, -⟩ := hsorts u (by simp)
  refine .bind (coerceArithmeticTerm_spec h t sort) ?_
  rintro t' s₁ he₁ h₁ ⟨ht', ht, hvt⟩
  refine .bind (coerceArithmeticTerm_spec h₁ u sort) ?_
  rintro u' s₂ he₂ h₂ ⟨hu', hu, hvu⟩
  have hmain : ∀ r s', s₂.Extends s' → s'.Ok → ⟨r, c, t', u'⟩ ∈ s'.arithmeticItes →
      ∀ I : Interpretation V, s'.Agrees I → s'.numeric I.number r =
        if s.evaluate I.atom c then s.numeric I.number t else s.numeric I.number u := by
    intro r s' he h' hm I hI
    rw [hI.arithmeticItes _ hm, h.evaluate_extends h' (he₁.trans (he₂.trans he)) c hc.lt,
      numeric_extends h₂ he hu', numeric_extends h₂ he (ht'.trans_le he₂.nodes.length_le),
      numeric_extends h₁ he₂ ht', hvt, hvu, numeric_extends h he₁ (lt_of_sort? hsu)]
  refine .get ?_
  split
  · next r hr => exact .pure h₂ (hmain r s₂ (.refl s₂) h₂ (mem_of_arithmeticIteTerms h₂ hr))
  · next hnone =>
    refine (arithmeticIte_spec h₂ hnone).weaken ?_
    intro r s' he h' hm
    exact hmain r s' he h' hm

/-- `ite` of terms of every sort, in an interpretation. -/
lemma mkIte_value (h : s.Ok) (c t u : TermId) :
    Spec False (mkIte c t u) s fun r s' => ∀ I : Interpretation V, s'.Agrees I →
      (∀ sort, s.sort? t = some sort → sort.isArithmetic = true → s'.numeric I.number r =
        if s.evaluate I.atom c then s.numeric I.number t else s.numeric I.number u) ∧
      (∀ i, s.sort? t = some (.uninterpreted i) ∨ s.sort? t = some (.array i) →
        I.element r = if s.evaluate I.atom c then I.element t else I.element u) := by
  by_cases hplain : s.sort? t = some .bool ∨ ∃ w, s.sort? t = some (.bitVec w)
  · refine (Spec.of_keeps h).weaken fun r s' _ _ _ I _ => ⟨fun sort hsort ha => ?_, fun i hi => ?_⟩
    · rcases hplain with hs | ⟨w, hs⟩ <;> rw [hs, Option.some.injEq] at hsort <;> subst hsort <;>
        simp [SmtSort.isArithmetic] at ha
    · rcases hplain with hs | ⟨w, hs⟩ <;> simp [hs] at hi
  refine .bind (requireBool_spec h False.elim) ?_
  rintro _ _ - - ⟨rfl, hc⟩
  refine .bind (sortOf_spec h False.elim) ?_
  rintro sort _ - - ⟨rfl, hs⟩
  refine .bind (sortOf_spec h False.elim) ?_
  rintro elseSort _ - - ⟨rfl, hs'⟩
  split
  · -- arithmetic branches
    next harith =>
    rw [Bool.and_eq_true] at harith
    have hnot : ∀ i, ¬ (s.sort? t = some (.uninterpreted i) ∨ s.sort? t = some (.array i)) := by
      rintro i (heq | heq) <;> rw [hs, Option.some.injEq] at heq <;> subst heq <;>
        simp [SmtSort.isArithmetic] at harith
    refine .bind (commonArithmeticSort_spec h [t, u]) ?_
    rintro common _ - - ⟨rfl, -⟩
    refine .get ?_
    split
    · next hk =>
      refine (coerceArithmeticTerm_spec h t common).weaken ?_
      rintro r s' - - ⟨-, -, hv⟩ I -
      refine ⟨fun _ _ _ => ?_, fun i hi => absurd hi (hnot i)⟩
      rw [hv, evaluate_of_kind h hc hk, TermKind.value, if_pos rfl]
    · next hk =>
      refine (coerceArithmeticTerm_spec h u common).weaken ?_
      rintro r s' - - ⟨-, -, hv⟩ I -
      refine ⟨fun _ _ _ => ?_, fun i hi => absurd hi (hnot i)⟩
      rw [hv, evaluate_of_kind h hc hk, TermKind.value, if_neg Bool.false_ne_true]
    · refine (arithmeticIte_value (V := V) h hc t u).weaken ?_
      intro r s' _ _ hv I hI
      exact ⟨fun _ _ _ => hv I hI, fun i hi => absurd hi (hnot i)⟩
  next harith =>
  split
  · exact .fail h id
  next heq =>
  rw [not_not] at heq
  subst heq
  have hnumeric : ∀ sort, s.sort? t = some sort → sort.isArithmetic = true → False := by
    intro sort hsort ha
    rw [hs, Option.some.injEq] at hsort
    subst hsort
    simp [ha] at harith
  split
  · next heq =>
    subst heq
    refine .pure h fun I _ => ⟨fun sort hsort ha => (hnumeric sort hsort ha).elim, fun i _ => ?_⟩
    rw [ite_self]
  have huf : (∀ w, elseSort ≠ .bitVec w) → Spec False (ufIteTerm c t u) s fun r s' =>
      ∀ I : Interpretation V, s'.Agrees I →
      (∀ sort, s.sort? t = some sort → sort.isArithmetic = true → s'.numeric I.number r =
        if s.evaluate I.atom c then s.numeric I.number t else s.numeric I.number u) ∧
      (∀ i, s.sort? t = some (.uninterpreted i) ∨ s.sort? t = some (.array i) →
        I.element r = if s.evaluate I.atom c then I.element t else I.element u) := by
    intro hw
    refine (ufIteTerm_spec h hs hw).weaken ?_
    intro r s' he h' hm I hI
    refine ⟨fun sort hsort ha => (hnumeric sort hsort ha).elim, fun i _ => ?_⟩
    rw [hI.ufItes _ hm, h.evaluate_extends h' he c hc.lt]
  cases elseSort with
  | bool => exact absurd (.inl hs) hplain
  | bitVec w => exact absurd (.inr ⟨w, hs⟩) hplain
  | int | real => simp [SmtSort.isArithmetic] at harith
  | uninterpreted id => exact huf (by simp)
  | array id => exact huf (by simp)

/-! ### Exactness -/

/-- Each constructor returns the connective of its arguments. -/
structure ConnectivesExact (s : TermStore) : Prop where
  not : ∀ t, s.IsBool t → s.Decides (mkNot t) fun ρ => !s.evaluate ρ t
  and : ∀ terms, (∀ t ∈ terms, s.IsBool t) →
    s.Decides (mkAnd terms) fun ρ => terms.all (s.evaluate ρ)
  or : ∀ terms, (∀ t ∈ terms, s.IsBool t) →
    s.Decides (mkOr terms) fun ρ => terms.any (s.evaluate ρ)
  xor : ∀ t u, s.IsBool t → s.IsBool u →
    s.Decides (mkXor t u) fun ρ => s.evaluate ρ t ^^ s.evaluate ρ u
  iff : ∀ t u, s.IsBool t → s.IsBool u →
    s.Decides (mkIff t u) fun ρ => s.evaluate ρ t == s.evaluate ρ u
  implies : ∀ antecedents conclusion, antecedents ≠ [] → (∀ t ∈ antecedents, s.IsBool t) →
    s.IsBool conclusion → s.Decides (implies (antecedents ++ [conclusion])) fun ρ =>
      !antecedents.all (s.evaluate ρ) || s.evaluate ρ conclusion
  ite : ∀ c t u, s.IsBool c → s.IsBool t → s.IsBool u → s.Decides (mkIte c t u) fun ρ =>
    if s.evaluate ρ c then s.evaluate ρ t else s.evaluate ρ u
  iteWord : ∀ c x y w, s.IsBool c → s.IsWord x w → s.IsWord y w → s.Computes (mkIte c x y) fun ρ =>
    if s.evaluate ρ c then s.wordOf ρ x w else s.wordOf ρ y w

/-- `=` and `distinct` return what the assignment makes of the equalities, and do return where
the arguments are Boolean terms or words of one width. -/
structure EqualitiesExact (s : TermStore) : Prop where
  equal : ∀ depth first rest r, (equal depth (first :: rest) s).1 = .ok r →
    ∀ ρ, ∃ values, EquatesAll (equal depth (first :: rest) s).2 ρ
      (rest.map fun t => (first, t)) values ∧
        (equal depth (first :: rest) s).2.Means ρ r (values.all id)
  distinct : ∀ depth terms r, (distinct depth terms s).1 = .ok r →
    ∀ ρ, ∃ values, EquatesAll (distinct depth terms s).2 ρ (pairs terms) values ∧
      (distinct depth terms s).2.Means ρ r (values.all not)
  equal_returns : ∀ depth first rest, rest ≠ [] → (∀ t ∈ rest, Interpreted s first t) →
    ∃ r, (Smt.equal depth (first :: rest) s).1 = .ok r
  distinct_returns : ∀ depth terms, 2 ≤ terms.length → terms.Pairwise (Interpreted s) →
    ∃ r, (Smt.distinct depth terms s).1 = .ok r

/-- In an interpretation that agrees with the store reached, equality and `ite` of terms of every
sort have the values of their arguments. -/
structure ReadingsExact (s : TermStore) : Prop where
  equal : ∀ depth first rest r, (equal depth (first :: rest) s).1 = .ok r →
    ∀ (V : Type) (I : Interpretation V), (equal depth (first :: rest) s).2.Agrees I →
      ((equal depth (first :: rest) s).2.evaluate I.atom r = true ↔
        ∀ t ∈ rest, (equal depth (first :: rest) s).2.Same I first t)
  distinct : ∀ depth terms r, (distinct depth terms s).1 = .ok r →
    ∀ (V : Type) (I : Interpretation V), (distinct depth terms s).2.Agrees I →
      ((distinct depth terms s).2.evaluate I.atom r = true ↔
        terms.Pairwise fun t u => ¬ (distinct depth terms s).2.Same I t u)
  iteNumber : ∀ c t u r sort, (mkIte c t u s).1 = .ok r → s.sort? t = some sort →
    sort.isArithmetic = true → ∀ (V : Type) (I : Interpretation V), (mkIte c t u s).2.Agrees I →
      (mkIte c t u s).2.numeric I.number r =
        if s.evaluate I.atom c then s.numeric I.number t else s.numeric I.number u
  iteElement : ∀ c t u r i, (mkIte c t u s).1 = .ok r →
    (s.sort? t = some (.uninterpreted i) ∨ s.sort? t = some (.array i)) →
    ∀ (V : Type) (I : Interpretation V), (mkIte c t u s).2.Agrees I →
      I.element r = if s.evaluate I.atom c then I.element t else I.element u

/-- Equal nodes are shared, and nodes stay as they are. -/
structure Sharing (s : TermStore) : Prop where
  unique : ∀ (t u : TermId) node, s.nodes[t]? = some node → s.nodes[u]? = some node → t = u
  stable : ∀ s', Built s s' → ∀ (t : TermId) node, s.nodes[t]? = some node → s'.nodes[t]? = some node

section

variable (hs : Reachable s)
include hs

lemma connectivesExact : ConnectivesExact s := by
  have h := hs.ok
  constructor
  · exact fun t ht => decides_of_spec fun ρ => mkNot_spec h fun _ => ht
  · exact fun terms ht => decides_of_spec fun ρ => mkAnd_spec h fun _ => ht
  · exact fun terms ht => decides_of_spec fun ρ => mkOr_spec h fun _ => ht
  · exact fun t u ht hu => decides_of_spec fun ρ => mkXor_spec h (fun _ => ht) fun _ => hu
  · exact fun t u ht hu => decides_of_spec fun ρ => mkIff_spec h (fun _ => ht) fun _ => hu
  · exact fun antecedents conclusion hne hb hc =>
      decides_of_spec fun ρ => implies_spec h antecedents conclusion hne hb hc
  · exact fun c t u hc ht hu => decides_of_spec fun ρ => mkIte_spec h hc ht hu
  · exact fun c x y w hc hx hy => computes_of_spec fun ρ => mkIte_words h hc hx hy

lemma equalitiesExact : EqualitiesExact s where
  equal depth first rest r hr ρ := (equal_spec (T := False) hs.ok depth first rest False.elim).returned hr
  distinct depth terms r hr ρ := (distinct_spec (T := False) hs.ok depth terms False.elim).returned hr
  equal_returns depth first rest hne hi := by
    obtain ⟨r, hr, -⟩ := (equal_spec (T := True) (ρ := fun _ => false) hs.ok depth first rest
      fun _ => ⟨hne, hi⟩).result
    exact ⟨r, hr⟩
  distinct_returns depth terms hlen hi := by
    obtain ⟨r, hr, -⟩ := (distinct_spec (T := True) (ρ := fun _ => false) hs.ok depth terms
      fun _ => ⟨hlen, hi⟩).result
    exact ⟨r, hr⟩

lemma readingsExact : ReadingsExact s := by
  have h := hs.ok
  constructor
  · intro depth first rest r hr V I hI
    have hspec := equal_spec (T := False) (ρ := I.atom) h depth first rest False.elim
    obtain ⟨values, hvalues, -, hv⟩ := hspec.returned hr
    rw [hv, (hvalues.same hspec.2.1 hI).1, List.forall_mem_map]
  · intro depth terms r hr V I hI
    have hspec := distinct_spec (T := False) (ρ := I.atom) h depth terms False.elim
    obtain ⟨values, hvalues, -, hv⟩ := hspec.returned hr
    rw [hv, (hvalues.same hspec.2.1 hI).2]
    exact forall_mem_pairs (P := fun t u => ¬ (distinct depth terms s).2.Same I t u) terms
  · intro c t u r sort hr hsort ha V I hI
    exact ((mkIte_value h c t u).returned hr I hI).1 sort hsort ha
  · intro c t u r i hr hsort V I hI
    exact ((mkIte_value h c t u).returned hr I hI).2 i hsort

lemma sharing : Sharing s where
  unique t u node ht hu := by
    have h := hs.ok.interned
    rw [← h.position] at ht hu
    exact Option.some.inj (ht.symm.trans hu)
  stable s' hb t node ht := (hb.later hs.ok).grown.node ht

/-- The simplifying constructors preserve meaning and sharing. -/
theorem constructors_exact :
    ConnectivesExact s ∧ EqualitiesExact s ∧ ReadingsExact s ∧ Sharing s :=
  ⟨connectivesExact hs, equalitiesExact hs, readingsExact hs, sharing hs⟩

end

/-- Two constants of an uninterpreted sort. -/
def twoElements : TermStore :=
  ((Operation.freshTerm (.uninterpreted 0)).run 0 ((Operation.freshTerm (.uninterpreted 0)).run 0
    (Operation.freshUninterpretedSort.run 0 .new).2).2).2

lemma reachable_twoElements : Reachable twoElements :=
  .step _ _ (.step _ _ (.step _ _ (.refl _)))

/-- Two different elements, and no atom is true. -/
def apart : Interpretation ℕ := ⟨fun _ => false, fun t => t, fun _ => 0⟩

lemma agrees_apart : (equal 1 [2, 3] twoElements).2.Agrees apart := by
  have hp : (equal 1 [2, 3] twoElements).2.arithmeticPredicates = [] := by decide +kernel
  have hu : (equal 1 [2, 3] twoElements).2.ufItes = [] := by decide +kernel
  have hi : (equal 1 [2, 3] twoElements).2.arithmeticItes = [] := by decide +kernel
  exact ⟨by decide +kernel, by simp [hp], by simp [hu], by simp [hi]⟩

theorem constructors_exact_twoElements :
    (equal 1 [2, 3] twoElements).1 = .ok 4 ∧
      ((equal 1 [2, 3] twoElements).2.evaluate apart.atom 4 = true ↔
        ∀ t ∈ [3], (equal 1 [2, 3] twoElements).2.Same apart 2 t) := by
  have hr : (equal 1 [2, 3] twoElements).1 = .ok 4 := by decide +kernel
  exact ⟨hr, (constructors_exact reachable_twoElements).2.2.1.equal 1 2 [3] 4 hr ℕ apart agrees_apart⟩

end Satrap.Smt
