/-
# The theory of arithmetic

The theory of `arithmetic.rs` around its solver: the predicates and conditionals that matter for the
roots, and the check of a complete assignment, which hands the solver one constraint for every
predicate and two for every conditional.  The selection is the one that the validation of a model
repeats, and the check decides every assignment unless it mixes the sorts.
-/
import Satrap.Smt.Congruence
import Satrap.Smt.Constraints

namespace Satrap.Smt

open Logic TermStore TermM

variable {s : TermStore} {t : TermId}

/-! ### Preparation -/

/-- `ArithmeticTheory`. -/
structure ArithmeticTheory extends TheoryTrail where
  required : List TermId
  predicates : List ArithmeticPredicate
  ites : List ArithmeticIte

/-- An `expect` of a reading of the store. -/
def expecting {α : Type} (terms : TermStore) (x : TermM α) : Validated α :=
  match (x terms).1 with
  | .ok a => pure a
  | .error _ => (none : Option _)

namespace ArithmeticTheory

/-- A turn of the loop over the predicates, on the sets of `prepare` and the theory. -/
def selectPredicate (terms : TermStore) (p : (Relevance × ArithmeticTheory) × Bool)
    (predicate : ArithmeticPredicate) : Validated ((Relevance × ArithmeticTheory) × Bool) :=
  if predicate.term ∉ p.1.1.relevant ∨ predicate.term ∈ p.1.1.predicates then pure p
  else do
    let e ← expecting terms (arithmeticExpression predicate.expression)
    pure (({ p.1.1 with
        predicates := predicate.term :: p.1.1.predicates
        vars := e.coefficients.map Prod.fst ++ p.1.1.vars },
      { p.1.2 with
        predicates := p.1.2.predicates ++ [predicate]
        required := p.1.2.required ++ [predicate.term] }), true)

/-- A turn of the loop over the conditionals. -/
def selectIte (terms : TermStore) (p : (Relevance × ArithmeticTheory) × Bool)
    (entry : ArithmeticIte × ℕ) : Validated ((Relevance × ArithmeticTheory) × Bool) :=
  if entry.2 ∈ p.1.1.ites then pure p
  else do
    let result ← expecting terms (arithmeticExpressionForTerm entry.1.result)
    if !result.coefficients.any fun item => decide (item.1 ∈ p.1.1.vars) then pure p
    else
      let condition ← reachableBooleanTerms terms [entry.1.condition]
      let thenBranch ← reading terms (arithmeticExpressionForTerm entry.1.thenTerm)
      let elseBranch ← reading terms (arithmeticExpressionForTerm entry.1.elseTerm)
      pure (({ p.1.1 with
          ites := entry.2 :: p.1.1.ites
          relevant := condition ++ p.1.1.relevant
          vars := elseBranch.coefficients.map Prod.fst ++
            (thenBranch.coefficients.map Prod.fst ++ p.1.1.vars) },
        { p.1.2 with
          ites := p.1.2.ites ++ [entry.1]
          required := p.1.2.required ++ [entry.1.condition] }), true)

/-- The loop of `prepare`, whose turns are bounded as those of `expandRelevance`. -/
def selectLoop (terms : TermStore) : ℕ → Relevance × ArithmeticTheory →
    Validated (Relevance × ArithmeticTheory)
  | 0, _ => (none : Option _)
  | fuel + 1, selected => do
    let p ← terms.arithmeticPredicates.foldlM (selectPredicate terms) (selected, false)
    let p ← terms.arithmeticItes.zipIdx.foldlM (selectIte terms) p
    if p.2 then selectLoop terms fuel p.1 else pure p.1

/-- `prepare`; the assignments of a theory are not touched. -/
def prepare (trail : TheoryTrail) (relevant : List TermId) : Preparation ArithmeticTheory := do
  let selected ← .read fun s =>
    selectLoop s (s.arithmeticPredicates.length + s.arithmeticItes.length + 1)
      (⟨relevant, [], [], []⟩, { trail with required := [], predicates := [], ites := [] })
  pure { selected.2 with required := sortDedup selected.2.required }

/-! ### The check -/

/-- The constraint of a predicate that is asserted or denied. -/
def predicateConstraint (s : TermStore) (th : ArithmeticTheory) (predicate : ArithmeticPredicate) :
    Option LinearConstraint := do
  let (sort, expression) ← s.arithmeticExpressions[predicate.expression]?
  some {
    expression := if th.value predicate.term then expression else expression.scaled (-1)
    strict := decide (predicate.strict = th.value predicate.term)
    sort }

/-- The expression of a term that is expected to have one. -/
def expressionOf (s : TermStore) (term : TermId) : Option LinearExpression :=
  (arithmeticExpressionForTerm term s).1.toOption

/-- The branch of a conditional that the assignment selects. -/
def branch (th : ArithmeticTheory) (item : ArithmeticIte) : TermId :=
  if th.value item.condition then item.thenTerm else item.elseTerm

/-- The constraints of a conditional: its result is at most and at least the selected branch. -/
def iteConstraints (s : TermStore) (th : ArithmeticTheory) (item : ArithmeticIte) :
    Option (List LinearConstraint) := do
  let sort ← s.sort? item.result
  let result ← expressionOf s item.result
  let selected ← expressionOf s (th.branch item)
  let forward := result.addScaled selected (-1)
  some [⟨forward, false, sort⟩, ⟨forward.scaled (-1), false, sort⟩]

/-- The literals that the assignment makes true. -/
def explanation (th : ArithmeticTheory) : List SignedTerm :=
  (th.predicates.map fun predicate => ⟨predicate.term, th.value predicate.term⟩) ++
    th.ites.map fun item => ⟨item.condition, th.value item.condition⟩

/-- `sort_unstable_by_key` and `dedup` of the explanation. -/
def sortLiterals (literals : List SignedTerm) : List SignedTerm :=
  (literals.insertionSort fun a b =>
    a.term < b.term ∨ a.term = b.term ∧ (a.positive → b.positive)).dedup

/-- The constraints of an assignment. -/
def constraints (s : TermStore) (th : ArithmeticTheory) : Option (List LinearConstraint) := do
  let predicates ← th.predicates.mapM (th.predicateConstraint s)
  let ites ← th.ites.mapM (th.iteConstraints s)
  some (predicates ++ ites.flatten)

/-- What the check makes of the result of the solver. -/
def checked (th : ArithmeticTheory) : ArithmeticSolve → TheoryCheck ArithmeticModel
  | .sat model => .consistent model
  | .incomplete => .unknown
  | .unsat => .conflict ⟨(sortLiterals th.explanation).map SignedTerm.negate⟩

/-- `final_check`, within the depth that the solver is given. -/
def finalCheck (s : TermStore) (th : ArithmeticTheory) (fuel : ℕ) :
    Option (TheoryCheck ArithmeticModel) := do
  let constraints ← th.constraints s
  let solved ← solveConstraints fuel constraints s.arithmeticVariableSorts
  some (th.checked solved)

end ArithmeticTheory

/-! ### The selection -/

lemma returns_expecting {α : Type} {x : TermM α} {a : α} :
    Returns (expecting s x) a ↔ Returns (reading s x) a := by
  rw [returns_reading, expecting]
  cases (x s).1 with
  | ok b =>
    rw [Except.ok.injEq]
    exact returns_pure
  | error e => exact iff_of_false not_returns_none (by simp)

/-- The theory has selected what is in the sets. -/
structure Selected (s : TermStore) (r : Relevance) (th : ArithmeticTheory) : Prop where
  predicates : ∀ p, p ∈ th.predicates ↔ p ∈ s.arithmeticPredicates ∧ p.term ∈ r.predicates
  ites : ∀ item, item ∈ th.ites ↔ r.Has s (.conditional item)
  stored : ∀ p ∈ th.predicates, ∃ entry, s.arithmeticExpressions[p.expression]? = some entry
  affine : ∀ item ∈ th.ites, ∀ t ∈ [item.result, item.thenTerm, item.elseTerm], ∃ e, s.Expresses t e
  terms : ∀ p ∈ th.predicates, p.term ∈ th.required
  conditions : ∀ item ∈ th.ites, item.condition ∈ th.required

/-- One selection is the other one without the theory. -/
structure Mirrors (s : TermStore) (p : (Relevance × ArithmeticTheory) × Bool)
    (q : Relevance × Bool) : Prop where
  sets : q = (p.1.1, p.2)
  selected : Selected s p.1.1 p.1.2

/-- Two loops whose turns correspond correspond. -/
lemma Returns.foldlM_mirrors {α β γ : Type} {R : β → γ → Prop} {f : β → α → Validated β}
    {g : γ → α → Validated γ} {list : List α}
    (hstep : ∀ a ∈ list, ∀ b c b', R b c → Returns (f b a) b' → ∃ c', Returns (g c a) c' ∧ R b' c')
    {b b' : β} {c : γ} (hr : R b c) (hrun : Returns (list.foldlM f b) b') :
    ∃ c', Returns (list.foldlM g c) c' ∧ R b' c' := by
  induction list generalizing b c with
  | nil =>
    rw [List.foldlM_nil] at hrun ⊢
    obtain rfl := returns_pure.1 hrun
    exact ⟨c, returns_pure.2 rfl, hr⟩
  | cons a rest ih =>
    obtain ⟨hhead, hrest⟩ := List.forall_mem_cons.1 hstep
    rw [List.foldlM_cons] at hrun
    obtain ⟨b₁, hb, hrun⟩ := returns_bind.1 hrun
    obtain ⟨c₁, hc, hr₁⟩ := hhead b c b₁ hr hb
    obtain ⟨c', hc', hr'⟩ := ih hrest hr₁ hrun
    refine ⟨c', ?_, hr'⟩
    rw [List.foldlM_cons]
    exact returns_bind.2 ⟨c₁, hc, hc'⟩

section

variable (h : s.Ok)
include h

/-- A predicate is determined by its term. -/
lemma predicate_unique {p q : ArithmeticPredicate} (hp : p ∈ s.arithmeticPredicates)
    (hq : q ∈ s.arithmeticPredicates) (heq : p.term = q.term) : p = q := by
  obtain ⟨symbol, hn⟩ := h.predicate_nodes p hp
  obtain ⟨symbol', hn'⟩ := h.predicate_nodes q hq
  rw [heq, hn', Option.some.injEq, TermNode.mk.injEq, TermKind.arithmeticPredicate.injEq] at hn
  obtain ⟨term, expression, strict⟩ := p
  obtain ⟨term', expression', strict'⟩ := q
  obtain ⟨-, -, hexpression, hstrict⟩ := hn
  dsimp only at heq hexpression hstrict
  rw [heq, hexpression, hstrict]

lemma expresses_of_returns {e : LinearExpression} (ht : t < s.nodes.length)
    (hrun : Returns (reading s (arithmeticExpressionForTerm t)) e) : s.Expresses t e := by
  obtain ⟨-, -, hpost⟩ := arithmeticExpressionForTerm_spec h ht
  rw [returns_reading.1 hrun] at hpost
  exact hpost.2.2

lemma selectPredicate_mirrors {predicate : ArithmeticPredicate}
    (hm : predicate ∈ s.arithmeticPredicates) {p p' : (Relevance × ArithmeticTheory) × Bool}
    {q : Relevance × Bool} (hr : Mirrors s p q)
    (hrun : Returns (ArithmeticTheory.selectPredicate s p predicate) p') :
    ∃ q', Returns (selectPredicate s q predicate) q' ∧ Mirrors s p' q' := by
  obtain ⟨⟨r, th⟩, changed⟩ := p
  obtain ⟨rfl, hselected⟩ := hr
  rw [ArithmeticTheory.selectPredicate] at hrun
  rw [selectPredicate]
  dsimp only at hrun hselected ⊢
  split at hrun
  · next hskip =>
    obtain rfl := returns_pure.1 hrun
    rw [if_pos hskip]
    exact ⟨_, returns_pure.2 rfl, rfl, hselected⟩
  · next hnew =>
    obtain ⟨e, he, hrun⟩ := returns_bind.1 hrun
    obtain rfl := returns_pure.1 hrun
    rw [if_neg hnew]
    refine ⟨_, returns_bind.2 ⟨e, returns_expecting.1 he, returns_pure.2 rfl⟩, rfl, ?_⟩
    constructor
    · intro p
      rw [List.mem_append, List.mem_singleton, List.mem_cons, hselected.predicates]
      constructor
      · rintro (⟨hp, hin⟩ | rfl)
        · exact ⟨hp, .inr hin⟩
        · exact ⟨hm, .inl rfl⟩
      · rintro ⟨hp, heq | hin⟩
        · exact .inr (predicate_unique h hp hm heq)
        · exact .inl ⟨hp, hin⟩
    · exact hselected.ites
    · intro p hp
      rcases List.mem_append.1 hp with hp | hp
      · exact hselected.stored p hp
      · rw [List.mem_singleton.1 hp]
        obtain ⟨entry, hentry, -⟩ := Option.map_eq_some_iff.1
          (returns_arithmeticExpression.1 (returns_expecting.1 he))
        exact ⟨entry, hentry⟩
    · exact hselected.affine
    · intro p hp
      rcases List.mem_append.1 hp with hp | hp
      · exact List.mem_append_left _ (hselected.terms p hp)
      · exact List.mem_append_right _ (List.mem_singleton.1 hp ▸ List.mem_singleton_self _)
    · exact fun item hitem => List.mem_append_left _ (hselected.conditions item hitem)

lemma selectIte_mirrors (ht : s.Typed) {entry : ArithmeticIte × ℕ}
    (hm : entry ∈ s.arithmeticItes.zipIdx) {p p' : (Relevance × ArithmeticTheory) × Bool}
    {q : Relevance × Bool} (hr : Mirrors s p q)
    (hrun : Returns (ArithmeticTheory.selectIte s p entry) p') :
    ∃ q', Returns (selectIte s q entry) q' ∧ Mirrors s p' q' := by
  obtain ⟨⟨r, th⟩, changed⟩ := p
  obtain ⟨rfl, hselected⟩ := hr
  have hget : s.arithmeticItes[entry.2]? = some entry.1 := by
    simpa using List.mem_zipIdx_iff_getElem?.1 hm
  rw [ArithmeticTheory.selectIte] at hrun
  rw [selectIte]
  dsimp only at hrun hselected ⊢
  split at hrun
  · next hskip =>
    obtain rfl := returns_pure.1 hrun
    rw [if_pos hskip]
    exact ⟨_, returns_pure.2 rfl, rfl, hselected⟩
  next hnew =>
  obtain ⟨result, hresult, hrun⟩ := returns_bind.1 hrun
  have hresult := returns_expecting.1 hresult
  rw [if_neg hnew]
  split at hrun
  · next hnone =>
    obtain rfl := returns_pure.1 hrun
    refine ⟨_, returns_bind.2 ⟨result, hresult, ?_⟩, rfl, hselected⟩
    rw [if_pos hnone]
    exact returns_pure.2 rfl
  · next hsome =>
    obtain ⟨condition, hcondition, hrun⟩ := returns_bind.1 hrun
    obtain ⟨thenBranch, hthen, hrun⟩ := returns_bind.1 hrun
    obtain ⟨elseBranch, helse, hrun⟩ := returns_bind.1 hrun
    obtain rfl := returns_pure.1 hrun
    refine ⟨_, returns_bind.2 ⟨result, hresult, ?_⟩, rfl, ?_⟩
    · rw [if_neg hsome]
      exact returns_bind.2 ⟨condition, hcondition, returns_bind.2 ⟨thenBranch, hthen,
        returns_bind.2 ⟨elseBranch, helse, returns_pure.2 rfl⟩⟩⟩
    constructor
    · exact hselected.predicates
    · intro item
      rw [List.mem_append, List.mem_singleton, hselected.ites]
      constructor
      · rintro (⟨i, hi, hitem⟩ | rfl)
        · exact ⟨i, List.mem_cons_of_mem _ hi, hitem⟩
        · exact ⟨entry.2, List.mem_cons_self, hget⟩
      · rintro ⟨i, hi, hitem⟩
        rcases List.mem_cons.1 hi with rfl | hi
        · exact .inr (Option.some.inj (hitem.symm.trans hget))
        · exact .inl ⟨i, hi, hitem⟩
    · exact hselected.stored
    · intro item hitem
      rcases List.mem_append.1 hitem with hitem | hitem
      · exact hselected.affine item hitem
      rw [List.mem_singleton.1 hitem]
      obtain ⟨-, sort, -, hsorts⟩ := ht.arithmeticItes _ (List.mem_of_getElem? hget)
      simp only [List.forall_mem_cons, List.not_mem_nil, false_imp_iff, implies_true,
        and_true] at hsorts ⊢
      exact ⟨⟨_, expresses_of_returns h (lt_of_sort? hsorts.1) hresult⟩,
        ⟨_, expresses_of_returns h (lt_of_sort? hsorts.2.1) hthen⟩,
        ⟨_, expresses_of_returns h (lt_of_sort? hsorts.2.2) helse⟩⟩
    · exact fun p hp => List.mem_append_left _ (hselected.terms p hp)
    · intro item hitem
      rcases List.mem_append.1 hitem with hitem | hitem
      · exact List.mem_append_left _ (hselected.conditions item hitem)
      · exact List.mem_append_right _ (List.mem_singleton.1 hitem ▸ List.mem_singleton_self _)

/-- The selection of the theory is the one that the validation repeats. -/
lemma selectLoop_mirrors (ht : s.Typed) {fuel : ℕ} {p p' : Relevance × ArithmeticTheory}
    (hselected : Selected s p.1 p.2) (hrun : Returns (ArithmeticTheory.selectLoop s fuel p) p') :
    Returns (expandRelevance s fuel p.1) p'.1 ∧ Selected s p'.1 p'.2 := by
  induction fuel generalizing p with
  | zero => exact absurd hrun not_returns_none
  | succ fuel ih =>
    obtain ⟨p₁, hp₁, hrun⟩ := returns_bind.1 hrun
    obtain ⟨p₂, hp₂, hrun⟩ := returns_bind.1 hrun
    obtain ⟨q₁, hq₁, hr₁⟩ := hp₁.foldlM_mirrors (R := Mirrors s)
      (fun predicate hm b c b' => selectPredicate_mirrors h hm) ⟨rfl, hselected⟩
    obtain ⟨q₂, hq₂, rfl, hselected₂⟩ := hp₂.foldlM_mirrors (R := Mirrors s)
      (fun entry hm b c b' => selectIte_mirrors h ht hm) hr₁
    rw [expandRelevance]
    split at hrun
    · next hchanged =>
      obtain ⟨hexpand, hselected'⟩ := ih hselected₂ hrun
      refine ⟨returns_bind.2 ⟨q₁, hq₁, returns_bind.2 ⟨_, hq₂, ?_⟩⟩, hselected'⟩
      rw [if_pos hchanged]
      exact hexpand
    · next hchanged =>
      obtain rfl := returns_pure.1 hrun
      refine ⟨returns_bind.2 ⟨q₁, hq₁, returns_bind.2 ⟨_, hq₂, ?_⟩⟩, hselected₂⟩
      rw [if_neg hchanged]
      exact returns_pure.2 rfl

end

/-- What the preparation selects for the roots. -/
structure ArithmeticTheory.Prepared (s : TermStore) (roots : List TermId) (th : ArithmeticTheory) :
    Prop where
  predicates : ∀ p ∈ th.predicates, p ∈ s.arithmeticPredicates ∧ p.term ∈ th.required
  stored : ∀ p ∈ th.predicates, ∃ entry, s.arithmeticExpressions[p.expression]? = some entry
  ites : ∀ item ∈ th.ites, item ∈ s.arithmeticItes ∧ item.condition ∈ th.required
  affine : ∀ item ∈ th.ites, ∀ t ∈ [item.result, item.thenTerm, item.elseTerm], ∃ e, s.Expresses t e
  allPredicates : ∀ p ∈ s.arithmeticPredicates, Relevant s roots (.term p.term) → p ∈ th.predicates
  allItes : ∀ item, Relevant s roots (.conditional item) → item ∈ th.ites

lemma ArithmeticTheory.prepare_eq {trail : TheoryTrail} {roots : List TermId} {s' : TermStore}
    {th : ArithmeticTheory} (h : s.Ok) (ht : s.Typed) (hclosed : MemberClosed s roots)
    (hbool : ∀ t ∈ roots, s.IsBool t) (hrun : prepare trail roots s = some (.ok th, s')) :
    s' = s ∧ th.Prepared s roots := by
  have hselect : ∃ p : Relevance × ArithmeticTheory, s' = s ∧
      th = { p.2 with required := sortDedup p.2.required } ∧
      Returns (selectLoop s (s.arithmeticPredicates.length + s.arithmeticItes.length + 1)
        (⟨roots, [], [], []⟩, { trail with required := [], predicates := [], ites := [] })) p := by
    dsimp only [prepare, Bind.bind, Preparation.read, Pure.pure] at hrun
    cases hloop : selectLoop s (s.arithmeticPredicates.length + s.arithmeticItes.length + 1)
        (⟨roots, [], [], []⟩, { trail with required := [], predicates := [], ites := [] }) with
    | none => simp [hloop] at hrun
    | some outcome =>
      obtain (_ | _) | p := outcome <;> rw [hloop] at hrun <;> cases hrun
      exact ⟨p, rfl, rfl, rfl⟩
  obtain ⟨p, rfl, rfl, hloop⟩ := hselect
  obtain ⟨hexpand, hselected⟩ := selectLoop_mirrors h ht ⟨by simp, by simp [Relevance.Has], by simp,
    by simp, by simp, by simp⟩ hloop
  have hfollowed : (⟨roots, [], [], []⟩ : Relevance).Followed s' roots :=
    ⟨List.Subset.refl _, hclosed, hbool, by simp, by simp [Relevance.Has]⟩
  obtain ⟨-, hpredicates, -⟩ := expandRelevance_spec h hfollowed hexpand
  have hreturn : Returns (expandArithmeticRelevance s' roots)
      (p.1.relevant, p.1.ites.insertionSort (· ≤ ·)) :=
    returns_bind.2 ⟨p.1, hexpand, returns_pure.2 rfl⟩
  obtain ⟨-, -, hterms, hconditionals⟩ :=
    expandArithmeticRelevance_spec h (List.Subset.refl _) hclosed hbool hreturn
  refine ⟨rfl, ?_, hselected.stored, ?_, hselected.affine, ?_, ?_⟩
  · exact fun q hq => ⟨((hselected.predicates q).1 hq).1, mem_sortDedup.2 (hselected.terms q hq)⟩
  · intro item hitem
    obtain ⟨i, -, hi⟩ := (hselected.ites item).1 hitem
    exact ⟨List.mem_of_getElem? hi, mem_sortDedup.2 (hselected.conditions item hitem)⟩
  · exact fun q hq hrelevant => (hselected.predicates q).2
      ⟨hq, hpredicates q hq (hterms _ hrelevant)⟩
  · intro item hrelevant
    obtain ⟨-, i, hi, hitem⟩ := hconditionals item hrelevant
    exact (hselected.ites item).2 ⟨i, (List.mem_insertionSort _).1 hi, hitem⟩

/-! ### The constraints -/

lemma TermStore.OverIntegers.opposite {e : LinearExpression} (he : s.OverIntegers e) :
    s.OverIntegers (e.scaled (-1)) := by
  obtain ⟨hintegral, hvars⟩ := he
  refine ⟨?_, hvars.scaled (-1)⟩
  rw [isIntegral_iff] at hintegral ⊢
  obtain ⟨hconstant, hcoefficients⟩ := hintegral
  rw [LinearExpression.scaled, if_neg (by norm_num)]
  refine ⟨by simpa using hconstant, fun entry hentry => ?_⟩
  obtain ⟨entry', hentry', rfl⟩ := List.mem_map.1 hentry
  simpa using hcoefficients entry' hentry'

/-- The constraints of a store are well sorted. -/
lemma wellSorted_of_typed (ht : s.Typed) {e : LinearExpression} {sort : SmtSort} (strict : Bool)
    (hw : e.WellFormed s.arithmeticVariableSorts.length)
    (hsort : sort.isArithmetic = true ∧ (sort = .int → s.OverIntegers e)) :
    LinearConstraint.WellSorted s.arithmeticVariableSorts ⟨e, strict, sort⟩ := by
  refine ⟨hw.toCanonical, ?_, ?_⟩
  · intro v hv
    obtain ⟨entry, hentry, rfl⟩ := List.mem_map.1 hv
    have hlt := hw.bounded entry hentry
    have harith := ht.variableSorts _ (List.getElem_mem hlt)
    rw [List.getElem?_eq_getElem hlt]
    cases hs : s.arithmeticVariableSorts[entry.1] <;> simp_all [SmtSort.isArithmetic]
  · obtain ⟨harith, hint⟩ := hsort
    cases sort with
    | real => exact .inl rfl
    | int =>
      obtain ⟨hintegral, hvars⟩ := hint rfl
      obtain ⟨hconstant, hcoefficients⟩ := isIntegral_iff.1 hintegral
      refine .inr ⟨hw.toCanonical, hconstant, hcoefficients, rfl, fun v hv => ?_⟩
      obtain ⟨entry, hentry, rfl⟩ := List.mem_map.1 hv
      exact hvars entry hentry
    | _ => cases harith

namespace ArithmeticTheory

variable {th : ArithmeticTheory} (h : s.Ok) (ht : s.Typed)
include h ht

/-- The constraint of a predicate holds where the predicate has the value of its term. -/
lemma predicateConstraint_spec {p : ArithmeticPredicate}
    (hp : ∃ entry, s.arithmeticExpressions[p.expression]? = some entry) :
    ∃ c, th.predicateConstraint s p = some c ∧ c.WellSorted s.arithmeticVariableSorts ∧
      ∀ x, c.Holds x ↔ s.holdsExactly x p.expression p.strict = th.value p.term := by
  obtain ⟨⟨sort, e⟩, he⟩ := hp
  have hm := List.mem_of_getElem? he
  obtain ⟨harith, hint⟩ := ht.expressions _ hm
  have hw := h.bounded _ hm
  rw [predicateConstraint, he]
  refine ⟨_, rfl, ?_, fun x => ?_⟩
  · split
    · exact wellSorted_of_typed ht _ hw ⟨harith, hint⟩
    · exact wellSorted_of_typed ht _ (hw.scaled (-1)) ⟨harith, fun hs => (hint hs).opposite⟩
  · rw [TermStore.holdsExactly, he, Option.map_some, Option.getD_some, LinearConstraint.holds_iff]
    cases th.value p.term <;> cases p.strict <;>
      simp [belowZero, LinearExpression.evaluate_scaled]

omit h ht in
lemma expressionOf_eq {e : LinearExpression} (he : s.Expresses t e) :
    expressionOf s t = some e := by
  obtain ⟨sort, i, range, hn, hi⟩ := he
  show (arithmeticExpressionForTerm t s).1.toOption = some e
  dsimp only [arithmeticExpressionForTerm, arithmeticExpression, Bind.bind, TermM.get]
  rw [node_eq_of_getElem? hn]
  dsimp only
  rw [hi]
  rfl

/-- The constraints of a conditional hold where its result is the selected branch. -/
lemma iteConstraints_spec {item : ArithmeticIte} (hitem : item ∈ s.arithmeticItes)
    (haffine : ∀ t ∈ [item.result, item.thenTerm, item.elseTerm], ∃ e, s.Expresses t e) :
    ∃ cs, th.iteConstraints s item = some cs ∧
      (∀ c ∈ cs, c.WellSorted s.arithmeticVariableSorts) ∧
      ∀ x, (∀ c ∈ cs, c.Holds x) ↔ s.numeric x item.result = s.numeric x (th.branch item) := by
  obtain ⟨-, sort, harith, hsorts⟩ := ht.arithmeticItes item hitem
  have hbranch : th.branch item ∈ [item.result, item.thenTerm, item.elseTerm] := by
    rw [branch]
    split <;> simp
  have hresult : item.result ∈ [item.result, item.thenTerm, item.elseTerm] := List.mem_cons_self
  obtain ⟨e, he⟩ := haffine _ hresult
  obtain ⟨e', he'⟩ := haffine _ hbranch
  have hw := (he.wellFormed h).addScaled (he'.wellFormed h) (-1)
  have hint : sort = .int → s.OverIntegers (e.addScaled e' (-1)) := by
    rintro rfl
    exact (ht.overIntegers h he (hsorts _ hresult)).sub (ht.overIntegers h he' (hsorts _ hbranch))
  rw [iteConstraints, hsorts _ hresult, expressionOf_eq he, expressionOf_eq he']
  refine ⟨_, rfl, ?_, fun x => ?_⟩
  · simp only [List.forall_mem_cons, List.not_mem_nil, false_imp_iff, implies_true, and_true]
    exact ⟨wellSorted_of_typed ht _ hw ⟨harith, hint⟩, wellSorted_of_typed ht _ (hw.scaled (-1))
      ⟨harith, fun hs => (hint hs).opposite⟩⟩
  · simp only [List.forall_mem_cons, List.not_mem_nil, false_imp_iff, implies_true, and_true,
      LinearConstraint.holds_iff, Bool.false_eq_true, if_false, LinearExpression.evaluate_scaled,
      LinearExpression.evaluate_addScaled (he.wellFormed h).toCanonical, he.numeric, he'.numeric]
    constructor
    · rintro ⟨hle, hge⟩
      linarith
    · intro heq
      rw [heq]
      exact ⟨by linarith, by linarith⟩

/-- The predicates and conditionals have the values of the assignment. -/
structure Realized (s : TermStore) (th : ArithmeticTheory) (x : ℕ → ℚ) : Prop where
  predicates : ∀ p ∈ th.predicates, s.holdsExactly x p.expression p.strict = th.value p.term
  ites : ∀ item ∈ th.ites, s.numeric x item.result = s.numeric x (th.branch item)

omit h ht in
/-- Where every entry has a result with a property, so have all of them. -/
lemma mapM_spec {α β : Type} {f : α → Option β} {P : α → β → Prop} {list : List α}
    (hf : ∀ a ∈ list, ∃ b, f a = some b ∧ P a b) :
    ∃ results, list.mapM f = some results ∧ List.Forall₂ P list results := by
  induction list with
  | nil => exact ⟨[], rfl, .nil⟩
  | cons a rest ih =>
    obtain ⟨hhead, hrest⟩ := List.forall_mem_cons.1 hf
    obtain ⟨b, hb, hP⟩ := hhead
    obtain ⟨results, hresults, hall⟩ := ih hrest
    refine ⟨b :: results, ?_, .cons hP hall⟩
    rw [List.mapM_cons, hb, hresults]
    rfl

/-- The constraints hold where the assignment is realized. -/
lemma constraints_spec {roots : List TermId} (hp : th.Prepared s roots) :
    ∃ cs, th.constraints s = some cs ∧ (∀ c ∈ cs, c.WellSorted s.arithmeticVariableSorts) ∧
      ∀ x, (∀ c ∈ cs, c.Holds x) ↔ th.Realized s x := by
  obtain ⟨predicates, hpredicates, hall⟩ := mapM_spec (f := th.predicateConstraint s)
    fun p hm => predicateConstraint_spec h ht (hp.stored p hm)
  obtain ⟨ites, hites, hall'⟩ := mapM_spec (f := th.iteConstraints s)
    fun item hm => iteConstraints_spec h ht (hp.ites item hm).1 (hp.affine item hm)
  refine ⟨predicates ++ ites.flatten, ?_, fun c hc => ?_, fun x => ⟨fun hx => ⟨?_, ?_⟩, ?_⟩⟩
  · rw [constraints, hpredicates, hites]
    rfl
  · rcases List.mem_append.1 hc with hc | hc
    · obtain ⟨-, -, hsorted, -⟩ := exists_related hall.flip hc
      exact hsorted
    · obtain ⟨cs, hcs, hc⟩ := List.mem_flatten.1 hc
      obtain ⟨-, -, hsorted, -⟩ := exists_related hall'.flip hcs
      exact hsorted c hc
  · intro p hm
    obtain ⟨c, hc, -, hholds⟩ := exists_related hall hm
    exact (hholds x).1 (hx c (List.mem_append_left _ hc))
  · intro item hm
    obtain ⟨cs, hcs, -, hholds⟩ := exists_related hall' hm
    exact (hholds x).1 fun c hc => hx c (List.mem_append_right _ (List.mem_flatten.2 ⟨cs, hcs, hc⟩))
  · intro hr c hc
    rcases List.mem_append.1 hc with hc | hc
    · obtain ⟨p, hm, -, hholds⟩ := exists_related hall.flip hc
      exact (hholds x).2 (hr.predicates p hm)
    · obtain ⟨cs, hcs, hc⟩ := List.mem_flatten.1 hc
      obtain ⟨item, hm, -, hholds⟩ := exists_related hall'.flip hcs
      exact (hholds x).2 (hr.ites item hm) c hc

end ArithmeticTheory

/-! ### Every assignment is decided -/

/-- A model of the store whose integer variables are integers. -/
structure TermStore.Intended {V : Type} (s : TermStore) (I : Interpretation V) : Prop
    extends Models s I where
  integral : IntegralAt s.arithmeticVariableSorts I.number

/-- A clause over required terms that the assignment makes false and that the intended models
satisfy. -/
structure Refutes (s : TermStore) (value : TermId → Bool) (required : List TermId)
    (clause : TheoryLemma) : Prop where
  refuted : ∀ l ∈ clause.literals, value l.term ≠ l.positive
  required : ∀ l ∈ clause.literals, l.term ∈ required
  sound : ∀ (V : Type) (I : Interpretation V), s.Intended I →
    ∃ l ∈ clause.literals, l.Holds s I.atom

namespace ArithmeticTheory

variable {th : ArithmeticTheory} {roots : List TermId}

/-- What the check says of the assignment. -/
def Judges (s : TermStore) (th : ArithmeticTheory) : TheoryCheck ArithmeticModel → Prop
  | .consistent model =>
    IntegralAt s.arithmeticVariableSorts model.values ∧ th.Realized s model.values
  | .conflict clause => Refutes s th.value th.required clause
  | .unknown => ∃ cs, th.constraints s = some cs ∧ Mixed s.arithmeticVariableSorts cs

lemma mem_explanation {l : SignedTerm} : l ∈ (sortLiterals th.explanation).map SignedTerm.negate ↔
    (∃ p ∈ th.predicates, l = ⟨p.term, !th.value p.term⟩) ∨
      ∃ item ∈ th.ites, l = ⟨item.condition, !th.value item.condition⟩ := by
  simp only [List.mem_map, sortLiterals, List.mem_dedup, List.mem_insertionSort, explanation,
    List.mem_append]
  constructor
  · rintro ⟨_, ⟨p, hp, rfl⟩ | ⟨item, hitem, rfl⟩, rfl⟩
    · exact .inl ⟨p, hp, rfl⟩
    · exact .inr ⟨item, hitem, rfl⟩
  · rintro (⟨p, hp, rfl⟩ | ⟨item, hitem, rfl⟩)
    · exact ⟨_, .inl ⟨p, hp, rfl⟩, rfl⟩
    · exact ⟨_, .inr ⟨item, hitem, rfl⟩, rfl⟩

section

variable (h : s.Ok) (ht : s.Typed) (hp : th.Prepared s roots)
include hp

/-- A model of the store realizes what it agrees with. -/
lemma Prepared.realized {V : Type} {I : Interpretation V} (hI : s.Agrees I)
    (hpredicates : ∀ p ∈ th.predicates, s.evaluate I.atom p.term = th.value p.term)
    (hites : ∀ item ∈ th.ites, s.evaluate I.atom item.condition = th.value item.condition) :
    th.Realized s I.number := by
  constructor
  · intro p hm
    obtain ⟨⟨range, e⟩, he⟩ := hp.stored p hm
    rw [← hpredicates p hm, hI.predicates p (hp.predicates p hm).1 range e he, holdsExactly, he]
    rfl
  · intro item hm
    rw [hI.arithmeticItes item (hp.ites item hm).1, hites item hm, branch]
    split <;> rfl

/-- Where no numbers realize the assignment, its negation is a sound clause. -/
lemma Prepared.refutes
    (hnone : ∀ x, IntegralAt s.arithmeticVariableSorts x → ¬th.Realized s x) :
    Refutes s th.value th.required ⟨(sortLiterals th.explanation).map SignedTerm.negate⟩ := by
  constructor
  · intro l hl
    rcases mem_explanation.1 hl with ⟨p, -, rfl⟩ | ⟨item, -, rfl⟩ <;>
      exact (Bool.not_ne_self _).symm
  · intro l hl
    rcases mem_explanation.1 hl with ⟨p, hm, rfl⟩ | ⟨item, hm, rfl⟩
    · exact (hp.predicates p hm).2
    · exact (hp.ites item hm).2
  · intro V I hI
    by_contra hfalse
    simp only [not_exists, not_and] at hfalse
    have hkept : ∀ t, (⟨t, !th.value t⟩ : SignedTerm) ∈
        (sortLiterals th.explanation).map SignedTerm.negate → s.evaluate I.atom t = th.value t :=
      fun t hl => by simpa [SignedTerm.Holds] using hfalse _ hl
    refine hnone I.number hI.integral (hp.realized hI.agrees ?_ ?_)
    · exact fun p hm => hkept _ (mem_explanation.2 (.inl ⟨p, hm, rfl⟩))
    · exact fun item hm => hkept _ (mem_explanation.2 (.inr ⟨item, hm, rfl⟩))

include h ht

/-- The check decides every assignment that does not mix the sorts. -/
lemma finalCheck_judges :
    ∃ fuel result, (∀ n ≥ fuel, th.finalCheck s n = some result) ∧ th.Judges s result := by
  obtain ⟨cs, hcs, hsorted, hrealized⟩ := constraints_spec h ht hp
  obtain ⟨fuel, result, hrun, hdecides⟩ := solveConstraints_outcome hsorted
  refine ⟨fuel, th.checked result, fun n hn => ?_, ?_⟩
  · rw [finalCheck, hcs]
    show (solveConstraints n cs _ >>= fun solved => some (th.checked solved)) = _
    rw [hrun n hn]
    rfl
  cases result with
  | sat model => exact ⟨hdecides.1, (hrealized _).1 hdecides.2⟩
  | incomplete => exact ⟨cs, hcs, hdecides⟩
  | unsat => exact hp.refutes fun x hintegral hr => hdecides x hintegral ((hrealized x).2 hr)

end

/-- The theory under an assignment. -/
def under (th : ArithmeticTheory) (assigned : TheoryTrail) : ArithmeticTheory :=
  { th with toTheoryTrail := assigned }

lemma Prepared.under (hp : th.Prepared s roots) (assigned : TheoryTrail) :
    (th.under assigned).Prepared s roots :=
  ⟨hp.predicates, hp.stored, hp.ites, hp.affine, hp.allPredicates, hp.allItes⟩

end ArithmeticTheory

/-- **The theory of arithmetic decides every assignment** after its preparation: the check ends with
numbers, integers where they have to be, that realize all that matters for the roots, with a sound
clause that the assignment makes false, or without an answer where the sorts are mixed. -/
theorem arithmeticAssignment_decided (hs : Reachable s) {s' : TermStore} {trail : TheoryTrail}
    {roots : List TermId} {th : ArithmeticTheory} (hclosed : MemberClosed s roots)
    (hbool : ∀ t ∈ roots, s.IsBool t)
    (hprepare : ArithmeticTheory.prepare trail roots s = some (.ok th, s'))
    (assigned : TheoryTrail) :
    (∀ p ∈ s'.arithmeticPredicates, Relevant s' roots (.term p.term) → p ∈ th.predicates) ∧
      (∀ item, Relevant s' roots (.conditional item) → item ∈ th.ites) ∧
      ∃ fuel result, (∀ n ≥ fuel, (th.under assigned).finalCheck s' n = some result) ∧
        (th.under assigned).Judges s' result := by
  obtain ⟨rfl, hp⟩ := ArithmeticTheory.prepare_eq hs.ok hs.typed hclosed hbool hprepare
  exact ⟨hp.allPredicates, hp.allItes,
    ArithmeticTheory.finalCheck_judges hs.ok hs.typed (hp.under assigned)⟩

/-- The conditional is not negative, and its condition holds. -/
theorem arithmeticAssignment_decided_oneOrZero : ∃ th s',
    ArithmeticTheory.prepare .beginCheck [6] oneOrZero = some (.ok th, s') ∧
      th.predicates.length = 1 ∧ th.ites.length = 1 ∧
      ∃ fuel result, (∀ n ≥ fuel, (th.under ((TheoryTrail.beginCheck.notifyAssignment
          ⟨6, true⟩).notifyAssignment ⟨2, true⟩)).finalCheck s' n = some result) ∧
        (th.under ((TheoryTrail.beginCheck.notifyAssignment
          ⟨6, true⟩).notifyAssignment ⟨2, true⟩)).Judges s' result := by
  have hrun : (ArithmeticTheory.prepare .beginCheck [6] oneOrZero).any (fun outcome =>
      outcome.1.toOption.any fun th => decide (th.predicates.length = 1 ∧ th.ites.length = 1)) =
      true := by decide +kernel
  cases hprepare : ArithmeticTheory.prepare .beginCheck [6] oneOrZero with
  | none =>
    rw [hprepare] at hrun
    cases hrun
  | some outcome =>
    obtain ⟨e | th, s'⟩ := outcome <;> rw [hprepare] at hrun
    · cases hrun
    · obtain ⟨hpredicates, hites⟩ := of_decide_eq_true hrun
      have hreachable : Reachable oneOrZero :=
        .step _ _ (.step _ _ (.step _ _ (.step _ _ (.step _ _ (.refl _)))))
      have hclosed : MemberClosed oneOrZero [6] := by
        intro t ht
        rw [List.mem_singleton.1 ht]
        decide +kernel
      have hbool : ∀ t ∈ [6], oneOrZero.IsBool t := by
        intro t ht
        rw [List.mem_singleton.1 ht, isBool_iff_sort? hreachable.ok]
        decide +kernel
      obtain ⟨-, -, hcheck⟩ := arithmeticAssignment_decided hreachable hclosed hbool hprepare
        ((TheoryTrail.beginCheck.notifyAssignment ⟨6, true⟩).notifyAssignment ⟨2, true⟩)
      exact ⟨th, s', rfl, hpredicates, hites, hcheck⟩

end Satrap.Smt
