/-
# Model validation

`validate_model` checks a candidate model against the terms of the store before it is reported:
every arithmetic predicate and every conditional that matters for the roots is evaluated exactly.
What matters is found by a search through Boolean members, arithmetic variables, conditions and
branches; it is closed under all of these when the search ends.
-/
import Mathlib.Algebra.BigOperators.Fin
import Satrap.Smt.Arithmetic
import Satrap.Smt.Connectives

namespace Satrap.Smt

open Logic TermStore TermM

/-! ### The checks -/

/-- `ModelValidationError`. -/
inductive ModelValidationError where
  | term (error : TermError)
  | falseRoot (term : TermId)
  | arithmeticPredicate (term : TermId)
  | arithmeticIte (result : TermId)
  | nonIntegralVariable (v : ℕ)
deriving DecidableEq

/-- A result of a check, `none` where the source panics. -/
abbrev Validated (α : Type) : Type := ExceptT ModelValidationError Option α

/-- An operation that only reads the store. -/
def reading {α : Type} (terms : TermStore) (x : TermM α) : Validated α :=
  match (x terms).1 with
  | .ok a => pure a
  | .error error => throw (.term error)

/-- The node can occur in a Boolean circuit. -/
def TermKind.isCircuit : TermKind → Bool
  | ufConstant _ | ufApplication _ _ | ufIte _ _ _ | arithmetic _ | arrayConst _ | arrayStore _ _ _
  | bitVec _ => false
  | _ => true

/-- The loop of `reachable_boolean_terms`, with the pending terms from the last to the first.  The
first argument bounds the number of terms it takes. -/
def reachableFrom (terms : TermStore) : ℕ → List TermId → List TermId → Validated (List TermId)
  | 0, _, _ => (none : Option _)
  | _ + 1, reachable, [] => pure reachable
  | fuel + 1, reachable, term :: pending => do
    reading terms (requireBool term)
    if term ∈ reachable then reachableFrom terms fuel reachable pending
    else if (terms.node term).kind.isCircuit then
      reachableFrom terms fuel (term :: reachable)
        ((terms.node term).kind.members.reverse ++ pending)
    else (none : Option _)

/-- `reachable_boolean_terms`: every term is taken once for each of its occurrences. -/
def reachableBooleanTerms (terms : TermStore) (roots : List TermId) : Validated (List TermId) :=
  reachableFrom terms (roots.length + (terms.nodes.map fun n => n.kind.members.length).sum + 1) []
    roots.reverse

/-- The sets of `expand_arithmetic_relevance`. -/
structure Relevance where
  relevant : List TermId
  vars : List ℕ
  predicates : List TermId
  ites : List ℕ

/-- A turn of the loop over the predicates. -/
def selectPredicate (terms : TermStore) (p : Relevance × Bool) (predicate : ArithmeticPredicate) :
    Validated (Relevance × Bool) :=
  if predicate.term ∉ p.1.relevant ∨ predicate.term ∈ p.1.predicates then pure p
  else do
    let e ← reading terms (arithmeticExpression predicate.expression)
    pure ({ p.1 with
      predicates := predicate.term :: p.1.predicates
      vars := e.coefficients.map Prod.fst ++ p.1.vars }, true)

/-- A turn of the loop over the conditionals. -/
def selectIte (terms : TermStore) (p : Relevance × Bool) (entry : ArithmeticIte × ℕ) :
    Validated (Relevance × Bool) :=
  if entry.2 ∈ p.1.ites then pure p
  else do
    let result ← reading terms (arithmeticExpressionForTerm entry.1.result)
    if !result.coefficients.any fun item => decide (item.1 ∈ p.1.vars) then pure p
    else
      let condition ← reachableBooleanTerms terms [entry.1.condition]
      let thenBranch ← reading terms (arithmeticExpressionForTerm entry.1.thenTerm)
      let elseBranch ← reading terms (arithmeticExpressionForTerm entry.1.elseTerm)
      pure ({ p.1 with
        ites := entry.2 :: p.1.ites
        relevant := condition ++ p.1.relevant
        vars := elseBranch.coefficients.map Prod.fst ++
          (thenBranch.coefficients.map Prod.fst ++ p.1.vars) }, true)

/-- The loop of `expand_arithmetic_relevance`, in which every pass but the last one selects a
predicate or a conditional. -/
def expandRelevance (terms : TermStore) : ℕ → Relevance → Validated Relevance
  | 0, _ => (none : Option _)
  | fuel + 1, r => do
    let p ← terms.arithmeticPredicates.foldlM (selectPredicate terms) (r, false)
    let p ← terms.arithmeticItes.zipIdx.foldlM (selectIte terms) p
    if p.2 then expandRelevance terms fuel p.1 else pure p.1

/-- `expand_arithmetic_relevance`. -/
def expandArithmeticRelevance (terms : TermStore) (rootRelevant : List TermId) :
    Validated (List TermId × List ℕ) := do
  let r ← expandRelevance terms
    (terms.arithmeticPredicates.length + terms.arithmeticItes.length + 1) ⟨rootRelevant, [], [], []⟩
  pure (r.relevant, r.ites.insertionSort (· ≤ ·))

/-- `validate_integer_values`. -/
def validateIntegerValues (terms : TermStore) (theory : ArithmeticModel) : Validated Unit :=
  terms.arithmeticVariableSorts.zipIdx.forM fun entry =>
    if entry.1 ≠ .int then pure ()
    else if (theory.values entry.2).den ≠ 1 then throw (.nonIntegralVariable entry.2)
    else pure ()

/-- `validate_arithmetic_ites`. -/
def validateArithmeticItes (terms : TermStore) (theory : ArithmeticModel) (selected : List ℕ)
    (atomValue : SymbolId → Bool) : Validated Unit :=
  selected.forM fun index =>
    match terms.arithmeticItes[index]? with
    | none => (none : Option _)
    | some item => do
      let condition ← reading terms (evaluateBool atomValue item.condition)
      let result ← reading terms (arithmeticExpressionForTerm item.result)
      let branch ← reading terms
        (arithmeticExpressionForTerm (if condition then item.thenTerm else item.elseTerm))
      if result.evaluate theory.values ≠ branch.evaluate theory.values then
        throw (.arithmeticIte item.result)
      else pure ()

/-- `validate_arithmetic_predicates`. -/
def validateArithmeticPredicates (terms : TermStore) (theory : ArithmeticModel)
    (relevant : List TermId) (atomValue : SymbolId → Bool) : Validated Unit :=
  (terms.arithmeticPredicates.filter fun p => decide (p.term ∈ relevant)).forM fun predicate => do
    let e ← reading terms (arithmeticExpression predicate.expression)
    let value := e.evaluate theory.values
    let expected := if predicate.strict then decide (value < 0) else decide (value ≤ 0)
    let actual ← reading terms (evaluateBool atomValue predicate.term)
    if actual ≠ expected then throw (.arithmeticPredicate predicate.term) else pure ()

/-- `validate_model`. -/
def validateModel (terms : TermStore) (theory : ArithmeticModel) (roots observed : List TermId)
    (atomValue : SymbolId → Bool) : Validated Unit := do
  let rootRelevant ← reachableBooleanTerms terms roots
  let seeds ← observed.foldlM (fun seeds term => do
    pure (seeds ++ (← reachableBooleanTerms terms [term]))) rootRelevant
  let (relevant, selectedItes) ← expandArithmeticRelevance terms seeds
  validateIntegerValues terms theory
  validateArithmeticItes terms theory selectedItes atomValue
  validateArithmeticPredicates terms theory relevant atomValue
  roots.forM fun root => do
    if ← reading terms (evaluateBool atomValue root) then pure () else throw (.falseRoot root)

/-! ### Checks that return -/

/-- The check returns the value. -/
def Returns {α : Type} (x : Validated α) (a : α) : Prop := x = pure a

section

variable {α β : Type} {x : Validated α} {f : α → Validated β} {a a' : α} {b : β}

lemma returns_pure : Returns (pure a : Validated α) a' ↔ a = a' := by
  constructor
  · intro h
    have h : (some (.ok a) : Option (Except ModelValidationError α)) = some (.ok a') := h
    cases h
    rfl
  · rintro rfl
    rfl

lemma not_returns_throw {e : ModelValidationError} : ¬Returns (throw e : Validated α) a := by
  intro h
  have h : (some (.error e) : Option (Except ModelValidationError α)) = some (.ok a) := h
  cases h

lemma not_returns_none : ¬Returns ((none : Option _) : Validated α) a := by
  intro h
  have h : (none : Option (Except ModelValidationError α)) = some (.ok a) := h
  cases h

lemma returns_bind : Returns (x >>= f) b ↔ ∃ a, Returns x a ∧ Returns (f a) b := by
  constructor
  · intro h
    match x, h with
    | some (.ok a), h => exact ⟨a, rfl, h⟩
    | some (.error e), h => exact absurd h not_returns_throw
    | none, h => exact absurd h not_returns_none
  · rintro ⟨a, ha, h⟩
    rw [Returns] at ha
    rw [ha]
    exact h

lemma bind_congr_returns {f' : α → Validated β} (h : ∀ a, Returns x a → f a = f' a) :
    x >>= f = x >>= f' := by
  match x with
  | some (.ok a) => exact h a rfl
  | some (.error e) => rfl
  | none => rfl

lemma returns_reading {s : TermStore} {x : TermM α} :
    Returns (reading s x) a ↔ (x s).1 = .ok a := by
  rw [reading]
  split
  · next a' h => rw [returns_pure, h, Except.ok.injEq]
  · next e h => simp [not_returns_throw, h]

/-- A check that returns has not found its error. -/
lemma returns_check {c : Prop} [Decidable c] {e : ModelValidationError}
    (h : Returns (if c then throw e else pure () : Validated Unit) ()) : ¬c := by
  intro hc
  rw [if_pos hc] at h
  exact not_returns_throw h

/-- What a loop checks holds of every element. -/
lemma Returns.forM {f : α → Validated Unit} {list : List α} (h : Returns (list.forM f) ()) :
    ∀ a ∈ list, Returns (f a) () := by
  induction list with
  | nil => simp
  | cons first rest ih =>
    obtain ⟨⟨⟩, hfirst, hrest⟩ := returns_bind.1 h
    simpa using ⟨hfirst, ih hrest⟩

/-- A loop keeps what every turn keeps.  When its flag is not set, no turn has changed anything,
and every turn has found the state as it wants it. -/
lemma Returns.foldlM {f : β × Bool → α → Validated (β × Bool)} {I : β → Prop} {D : α → β → Prop}
    {list : List α} (hf : ∀ a ∈ list, ∀ p p', Returns (f p a) p' →
      (I p.1 → I p'.1) ∧ (p'.2 = false → p' = p ∧ D a p.1)) {p p' : β × Bool}
    (h : Returns (list.foldlM f p) p') :
    (I p.1 → I p'.1) ∧ (p'.2 = false → p' = p ∧ ∀ a ∈ list, D a p.1) := by
  induction list generalizing p with
  | nil =>
    obtain rfl := returns_pure.1 h
    simp
  | cons first rest ih =>
    rw [List.foldlM_cons] at h
    obtain ⟨q, hq, hrest⟩ := returns_bind.1 h
    obtain ⟨hkeep, hstop⟩ := hf first List.mem_cons_self p q hq
    obtain ⟨hkeep', hstop'⟩ := ih (fun a ha => hf a (List.mem_cons_of_mem _ ha)) hrest
    refine ⟨fun hI => hkeep' (hkeep hI), fun hflag => ?_⟩
    obtain ⟨rfl, hall⟩ := hstop' hflag
    obtain ⟨rfl, hfirst⟩ := hstop hflag
    exact ⟨rfl, by simpa using ⟨hfirst, hall⟩⟩

end

/-! ### Reachable terms -/

variable {s : TermStore} {ρ : SymbolId → Bool} {x : ℕ → ℚ} {t : TermId}

/-- The terms are closed under their members. -/
def MemberClosed (s : TermStore) (terms : List TermId) : Prop :=
  ∀ t ∈ terms, ∀ m ∈ (s.node t).kind.members, m ∈ terms

/-- The search returns a closed set with all pending terms. -/
lemma reachableFrom_spec (h : s.Ok) {fuel : ℕ} {reachable pending result : List TermId}
    (hclosed : ∀ t ∈ reachable, ∀ m ∈ (s.node t).kind.members, m ∈ reachable ∨ m ∈ pending)
    (hbool : ∀ t ∈ reachable, s.IsBool t)
    (hrun : Returns (reachableFrom s fuel reachable pending) result) :
    pending ⊆ result ∧ reachable ⊆ result ∧ MemberClosed s result ∧ ∀ t ∈ result, s.IsBool t := by
  induction fuel generalizing reachable pending with
  | zero => exact absurd hrun not_returns_none
  | succ fuel ih =>
    cases pending with
    | nil =>
      obtain rfl := returns_pure.1 hrun
      exact ⟨List.nil_subset _, List.Subset.refl _, fun t ht m hm => by simpa using hclosed t ht m hm,
        hbool⟩
    | cons term pending =>
      obtain ⟨⟨⟩, hterm, hrun⟩ := returns_bind.1 hrun
      have hterm := ((requireBool_spec h False.elim).returned (returns_reading.1 hterm)).2
      split at hrun
      · next hmem =>
        have hnext : ∀ t ∈ reachable, ∀ m ∈ (s.node t).kind.members,
            m ∈ reachable ∨ m ∈ pending := by
          intro t ht m hm
          rcases hclosed t ht m hm with hm | hm
          · exact .inl hm
          · rcases List.mem_cons.1 hm with rfl | hm
            · exact .inl hmem
            · exact .inr hm
        obtain ⟨hpending, hreachable, hresult⟩ := ih hnext hbool hrun
        exact ⟨List.cons_subset.2 ⟨hreachable hmem, hpending⟩, hreachable, hresult⟩
      split at hrun
      · have hnext : ∀ t ∈ term :: reachable, ∀ m ∈ (s.node t).kind.members,
            m ∈ term :: reachable ∨ m ∈ (s.node term).kind.members.reverse ++ pending := by
          intro t ht m hm
          rcases List.mem_cons.1 ht with rfl | ht
          · exact .inr (List.mem_append_left _ (List.mem_reverse.2 hm))
          · rcases hclosed t ht m hm with hm | hm
            · exact .inl (List.mem_cons_of_mem _ hm)
            · rcases List.mem_cons.1 hm with rfl | hm
              · exact .inl List.mem_cons_self
              · exact .inr (List.mem_append_right _ hm)
        obtain ⟨hpending, hreachable, hresult⟩ :=
          ih hnext (List.forall_mem_cons.2 ⟨hterm, hbool⟩) hrun
        obtain ⟨hhead, hreachable⟩ := List.cons_subset.1 hreachable
        exact ⟨List.cons_subset.2 ⟨hhead, (List.append_subset.1 hpending).2⟩, hreachable, hresult⟩
      · exact absurd hrun not_returns_none

lemma reachableBooleanTerms_spec (h : s.Ok) {roots result : List TermId}
    (hrun : Returns (reachableBooleanTerms s roots) result) :
    roots ⊆ result ∧ MemberClosed s result ∧ ∀ t ∈ result, s.IsBool t := by
  obtain ⟨hroots, -, hresult⟩ := reachableFrom_spec h (by simp) (by simp) hrun
  exact ⟨fun t ht => hroots (List.mem_reverse.2 ht), hresult⟩

/-- The members of the terms that are not reached. -/
def membersLeft (s : TermStore) (reachable : List TermId) : ℕ :=
  ∑ t ∈ (Finset.range s.nodes.length).filter (· ∉ reachable), (s.node t).kind.members.length

lemma membersLeft_nil : membersLeft s [] = (s.nodes.map fun n => n.kind.members.length).sum := by
  rw [membersLeft, Finset.filter_true_of_mem (by simp), Finset.sum_range,
    ← Fin.sum_univ_fun_getElem]
  exact Finset.sum_congr rfl fun i _ => by simp [TermStore.node]

lemma membersLeft_cons {reachable : List TermId} (ht : t < s.nodes.length) (hnew : t ∉ reachable) :
    (s.node t).kind.members.length + membersLeft s (t :: reachable) = membersLeft s reachable := by
  have hfilter : (Finset.range s.nodes.length).filter (· ∉ reachable) =
      insert t ((Finset.range s.nodes.length).filter (· ∉ t :: reachable)) := by
    ext u
    by_cases hu : u = t
    · subst hu
      simp [ht, hnew]
    · simp [hu]
  rw [membersLeft, membersLeft, hfilter, Finset.sum_insert (by simp)]

/-- The bound of the search is high enough: every term is pushed once for each of its
occurrences. -/
lemma reachableFrom_enough (h : s.Ok) {fuel fuel' : ℕ} {reachable pending : List TermId}
    (hfuel : pending.length + membersLeft s reachable < fuel) (hle : fuel ≤ fuel') :
    reachableFrom s fuel' reachable pending = reachableFrom s fuel reachable pending := by
  induction fuel generalizing fuel' reachable pending with
  | zero => omega
  | succ fuel ih =>
    obtain ⟨fuel', rfl⟩ := Nat.exists_eq_succ_of_ne_zero (by omega : fuel' ≠ 0)
    cases pending with
    | nil => rfl
    | cons term pending =>
      rw [List.length_cons] at hfuel
      rw [reachableFrom, reachableFrom]
      refine bind_congr_returns fun _ hterm => ?_
      have hlt := ((requireBool_spec h False.elim).returned (returns_reading.1 hterm)).2.lt
      by_cases hmem : term ∈ reachable
      · rw [if_pos hmem, if_pos hmem]
        exact ih (by omega) (by omega)
      rw [if_neg hmem, if_neg hmem]
      split
      · have hleft := membersLeft_cons hlt hmem
        refine ih ?_ (by omega)
        rw [List.length_append, List.length_reverse]
        omega
      · rfl

/-- A higher bound finds the same terms. -/
lemma reachableBooleanTerms_enough (h : s.Ok) {roots : List TermId} {fuel : ℕ}
    (hle : roots.length + (s.nodes.map fun n => n.kind.members.length).sum + 1 ≤ fuel) :
    reachableFrom s fuel [] roots.reverse = reachableBooleanTerms s roots := by
  refine reachableFrom_enough h ?_ hle
  rw [membersLeft_nil, List.length_reverse]
  exact Nat.lt_succ_self _

/-! ### What matters for the roots -/

/-- A part of a model. -/
inductive Part where
  | term (t : TermId)
  | number (v : ℕ)
  | conditional (item : ArithmeticIte)

/-- The variable occurs in the arithmetic term. -/
def Occurs (s : TermStore) (v : ℕ) (t : TermId) : Prop :=
  ∃ e, s.Expresses t e ∧ ∃ entry ∈ e.coefficients, entry.1 = v

/-- What matters for the roots: their members, the variables of the predicates among these, the
conditionals with such a variable, and through their conditions and branches further terms and
variables. -/
inductive Relevant (s : TermStore) (roots : List TermId) : Part → Prop
  | root (t : TermId) : t ∈ roots → Relevant s roots (.term t)
  | member (t m : TermId) : Relevant s roots (.term t) → m ∈ (s.node t).kind.members →
    Relevant s roots (.term m)
  | predicate (t : TermId) (symbol i : ℕ) (strict : Bool) (range : SmtSort) (e : LinearExpression)
    (entry : ℕ × ℚ) : Relevant s roots (.term t) →
    (s.node t).kind = .arithmeticPredicate symbol i strict →
    s.arithmeticExpressions[i]? = some (range, e) → entry ∈ e.coefficients →
    Relevant s roots (.number entry.1)
  | conditional (item : ArithmeticIte) (v : ℕ) : item ∈ s.arithmeticItes →
    Relevant s roots (.number v) → Occurs s v item.result → Relevant s roots (.conditional item)
  | condition (item : ArithmeticIte) : Relevant s roots (.conditional item) →
    Relevant s roots (.term item.condition)
  | branch (item : ArithmeticIte) (v : ℕ) : Relevant s roots (.conditional item) →
    Occurs s v item.thenTerm ∨ Occurs s v item.elseTerm → Relevant s roots (.number v)

/-- The search has found the part. -/
def Relevance.Has (s : TermStore) (r : Relevance) : Part → Prop
  | .term t => t ∈ r.relevant
  | .number v => v ∈ r.vars
  | .conditional item => ∃ i ∈ r.ites, s.arithmeticItes[i]? = some item

/-- What has been selected has been followed. -/
structure Relevance.Followed (s : TermStore) (roots : List TermId) (r : Relevance) : Prop where
  roots : roots ⊆ r.relevant
  members : MemberClosed s r.relevant
  terms : ∀ t ∈ r.relevant, s.IsBool t
  predicates : ∀ p ∈ s.arithmeticPredicates, p.term ∈ r.predicates → ∀ range e,
    s.arithmeticExpressions[p.expression]? = some (range, e) → ∀ entry ∈ e.coefficients,
      entry.1 ∈ r.vars
  ites : ∀ item, r.Has s (.conditional item) → item.condition ∈ r.relevant ∧
    ∀ v, Occurs s v item.thenTerm ∨ Occurs s v item.elseTerm → v ∈ r.vars

lemma returns_arithmeticExpression {i : ℕ} {e : LinearExpression} :
    Returns (reading s (arithmeticExpression i)) e ↔
      (s.arithmeticExpressions[i]?).map Prod.snd = some e := by
  rw [returns_reading]
  change (okOr _ ((s.arithmeticExpressions[i]?).map Prod.snd) s).1 = _ ↔ _
  cases (s.arithmeticExpressions[i]?).map Prod.snd with
  | none => simp [okOr, TermM.fail]
  | some e' =>
    change (Except.ok e' : Except TermError LinearExpression) = .ok e ↔ _
    rw [Except.ok.injEq, Option.some.injEq]

lemma returns_expressionForTerm {e : LinearExpression}
    (hrun : Returns (reading s (arithmeticExpressionForTerm t)) e) :
    s.numeric x t = e.evaluate x ∧ ∀ e', s.Expresses t e' → e' = e := by
  rw [returns_reading] at hrun
  dsimp only [arithmeticExpressionForTerm, Bind.bind, TermM.get] at hrun
  cases hk : (s.node t).kind with
  | arithmetic i =>
    rw [hk] at hrun
    have hi := returns_arithmeticExpression.1 (returns_reading.2 hrun)
    constructor
    · rw [TermStore.numeric, hk]
      dsimp only
      cases hs : s.arithmeticExpressions[i]? with
      | none => simp [hs] at hi
      | some entry =>
        rw [hs, Option.map_some, Option.some.injEq] at hi
        rw [← hi]
        rfl
    · rintro e' ⟨sort, i', range, hn, hi'⟩
      rw [node_eq_of_getElem? hn] at hk
      cases hk
      rw [hi', Option.map_some, Option.some.injEq] at hi
      exact hi
  | _ =>
    rw [hk] at hrun
    cases hrun

section

variable (h : s.Ok)
include h

/-- A turn of the loop over the predicates. -/
lemma selectPredicate_spec {roots : List TermId} {predicate : ArithmeticPredicate}
    (hm : predicate ∈ s.arithmeticPredicates) {p p' : Relevance × Bool}
    (hrun : Returns (selectPredicate s p predicate) p') :
    (p.1.Followed s roots → p'.1.Followed s roots) ∧
      (p'.2 = false → p' = p ∧ (predicate.term ∈ p.1.relevant → predicate.term ∈ p.1.predicates)) := by
  rw [selectPredicate] at hrun
  split at hrun
  · next hskip =>
    obtain rfl := returns_pure.1 hrun
    exact ⟨id, fun _ => ⟨rfl, fun ht => hskip.resolve_left (not_not.2 ht)⟩⟩
  · obtain ⟨e, he, hrun⟩ := returns_bind.1 hrun
    have hi := returns_arithmeticExpression.1 he
    obtain rfl := returns_pure.1 hrun
    refine ⟨fun hf => ?_, by simp⟩
    refine { hf with predicates := ?_, ites := fun item hitem => ?_ }
    · intro p' hp' hterm range e' he' item hitem
      rcases List.mem_cons.1 hterm with heq | hterm
      · obtain ⟨symbol, hn⟩ := h.predicate_nodes p' hp'
        obtain ⟨symbol', hn'⟩ := h.predicate_nodes predicate hm
        rw [heq, hn', Option.some.injEq, TermNode.mk.injEq, TermKind.arithmeticPredicate.injEq] at hn
        rw [hn.2.2.1, he', Option.map_some, Option.some.injEq] at hi
        exact List.mem_append_left _ (hi ▸ List.mem_map_of_mem hitem)
      · exact List.mem_append_right _ (hf.predicates p' hp' hterm range e' he' item hitem)
    · obtain ⟨hcondition, hbranches⟩ := hf.ites item hitem
      exact ⟨hcondition, fun v hv => List.mem_append_right _ (hbranches v hv)⟩

/-- A turn of the loop over the conditionals. -/
lemma selectIte_spec {roots : List TermId} {entry : ArithmeticIte × ℕ}
    (hm : entry ∈ s.arithmeticItes.zipIdx) {p p' : Relevance × Bool}
    (hrun : Returns (selectIte s p entry) p') :
    (p.1.Followed s roots → p'.1.Followed s roots) ∧
      (p'.2 = false → p' = p ∧
        ∀ v ∈ p.1.vars, Occurs s v entry.1.result → entry.2 ∈ p.1.ites) := by
  have hget : s.arithmeticItes[entry.2]? = some entry.1 := by
    simpa using List.mem_zipIdx_iff_getElem?.1 hm
  rw [selectIte] at hrun
  split at hrun
  · next hskip =>
    obtain rfl := returns_pure.1 hrun
    exact ⟨id, fun _ => ⟨rfl, fun _ _ _ => hskip⟩⟩
  obtain ⟨result, hresult, hrun⟩ := returns_bind.1 hrun
  split at hrun
  · next hnone =>
    obtain rfl := returns_pure.1 hrun
    refine ⟨id, fun _ => ⟨rfl, fun v hv hoccurs => ?_⟩⟩
    obtain ⟨e, he, item, hitem, rfl⟩ := hoccurs
    obtain rfl := (returns_expressionForTerm (x := fun _ => 0) hresult).2 e he
    simp only [Bool.not_eq_true', List.any_eq_false, decide_eq_true_eq] at hnone
    exact absurd hv (hnone item hitem)
  obtain ⟨condition, hcondition, hrun⟩ := returns_bind.1 hrun
  obtain ⟨thenBranch, hthen, hrun⟩ := returns_bind.1 hrun
  obtain ⟨elseBranch, helse, hrun⟩ := returns_bind.1 hrun
  obtain rfl := returns_pure.1 hrun
  obtain ⟨hin, hclosed, hbool⟩ := reachableBooleanTerms_spec h hcondition
  refine ⟨fun hf => ?_, by simp⟩
  constructor
  · exact fun r hr => List.mem_append_right _ (hf.roots hr)
  · intro t ht m hmem
    rcases List.mem_append.1 ht with ht | ht
    · exact List.mem_append_left _ (hclosed t ht m hmem)
    · exact List.mem_append_right _ (hf.members t ht m hmem)
  · exact fun t ht => (List.mem_append.1 ht).elim (hbool t) (hf.terms t)
  · intro p' hp' hterm range e he item hitem
    exact List.mem_append_right _ (List.mem_append_right _
      (hf.predicates p' hp' hterm range e he item hitem))
  · rintro item ⟨i, hi, hitem⟩
    rcases List.mem_cons.1 hi with rfl | hi
    · obtain rfl := Option.some.inj (hget.symm.trans hitem)
      refine ⟨List.mem_append_left _ (hin List.mem_cons_self), ?_⟩
      rintro v (⟨e, he, item, hitem, rfl⟩ | ⟨e, he, item, hitem, rfl⟩)
      · obtain rfl := (returns_expressionForTerm (x := fun _ => 0) hthen).2 e he
        exact List.mem_append_right _ (List.mem_append_left _ (List.mem_map_of_mem hitem))
      · obtain rfl := (returns_expressionForTerm (x := fun _ => 0) helse).2 e he
        exact List.mem_append_left _ (List.mem_map_of_mem hitem)
    · obtain ⟨hcondition, hbranches⟩ := hf.ites item ⟨i, hi, hitem⟩
      exact ⟨List.mem_append_right _ hcondition, fun v hv =>
        List.mem_append_right _ (List.mem_append_right _ (hbranches v hv))⟩

/-- Where the search ends, nothing is left to select. -/
lemma expandRelevance_spec {roots : List TermId} {fuel : ℕ} {r r' : Relevance}
    (hf : r.Followed s roots) (hrun : Returns (expandRelevance s fuel r) r') :
    r'.Followed s roots ∧
      (∀ p ∈ s.arithmeticPredicates, p.term ∈ r'.relevant → p.term ∈ r'.predicates) ∧
      ∀ entry ∈ s.arithmeticItes.zipIdx, ∀ v ∈ r'.vars, Occurs s v entry.1.result →
        entry.2 ∈ r'.ites := by
  induction fuel generalizing r with
  | zero => exact absurd hrun not_returns_none
  | succ fuel ih =>
    obtain ⟨p, hp, hrun⟩ := returns_bind.1 hrun
    obtain ⟨q, hq, hrun⟩ := returns_bind.1 hrun
    obtain ⟨hkeep, hstop⟩ := hp.foldlM (I := Relevance.Followed s roots)
      (D := fun predicate r => predicate.term ∈ r.relevant → predicate.term ∈ r.predicates)
      fun predicate hm p p' => selectPredicate_spec h hm
    obtain ⟨hkeep', hstop'⟩ := hq.foldlM (I := Relevance.Followed s roots)
      (D := fun entry r => ∀ v ∈ r.vars, Occurs s v entry.1.result → entry.2 ∈ r.ites)
      fun entry hm p p' => selectIte_spec h hm
    have hf' := hkeep' (hkeep hf)
    split at hrun
    · exact ih hf' hrun
    · next hflag =>
      obtain rfl := returns_pure.1 hrun
      obtain ⟨rfl, hites⟩ := hstop' (Bool.eq_false_iff.2 hflag)
      obtain ⟨rfl, hpredicates⟩ := hstop (Bool.eq_false_iff.2 hflag)
      exact ⟨hf, hpredicates, hites⟩

/-- The search finds everything that matters for the roots. -/
lemma expandArithmeticRelevance_spec {roots seeds relevant : List TermId} {ites : List ℕ}
    (hroots : roots ⊆ seeds) (hclosed : MemberClosed s seeds) (hbool : ∀ t ∈ seeds, s.IsBool t)
    (hrun : Returns (expandArithmeticRelevance s seeds) (relevant, ites)) :
    MemberClosed s relevant ∧ (∀ t ∈ relevant, s.IsBool t) ∧
      (∀ t, Relevant s roots (.term t) → t ∈ relevant) ∧
      ∀ item, Relevant s roots (.conditional item) →
        item.condition ∈ relevant ∧ ∃ i ∈ ites, s.arithmeticItes[i]? = some item := by
  obtain ⟨r, hr, hrun⟩ := returns_bind.1 hrun
  obtain ⟨rfl, rfl⟩ := Prod.mk.inj (returns_pure.1 hrun)
  obtain ⟨hf, hpredicates, hites⟩ := expandRelevance_spec h
    (r := ⟨seeds, [], [], []⟩) ⟨hroots, hclosed, hbool, by simp, by simp [Relevance.Has]⟩ hr
  have hfound : ∀ part, Relevant s roots part → r.Has s part := by
    intro part hpart
    induction hpart with
    | root t ht => exact hf.roots ht
    | member t m _ hm ih => exact hf.members t ih m hm
    | predicate t symbol i strict range e entry _ hk hi hentry ih =>
      have hn := (h.node_of_lt (hf.terms t ih).lt).1
      have hp := h.recorded t _ hn symbol i strict hk
      exact hf.predicates _ hp (hpredicates _ hp ih) range e hi entry hentry
    | conditional item v hm _ hoccurs ih =>
      obtain ⟨i, hi⟩ := List.mem_iff_getElem?.1 hm
      exact ⟨i, hites (item, i) (List.mem_zipIdx_iff_getElem?.2 (by simpa using hi)) v ih hoccurs, hi⟩
    | condition item _ ih => exact (hf.ites item ih).1
    | branch item v _ hv ih => exact (hf.ites item ih).2 v hv
  refine ⟨hf.members, hf.terms, fun t ht => hfound _ ht, fun item hitem => ?_⟩
  obtain ⟨i, hi, hget⟩ := hfound _ hitem
  exact ⟨(hf.ites item (hfound _ hitem)).1, i, (List.mem_insertionSort _).2 hi, hget⟩

end

/-- The predicates and conditionals that are not selected. -/
def Relevance.left (s : TermStore) (r : Relevance) : ℕ :=
  (s.arithmeticPredicates.countP fun p => decide (p.term ∉ r.predicates)) +
    s.arithmeticItes.zipIdx.countP fun entry => decide (entry.2 ∉ r.ites)

lemma countP_notMem_cons {α : Type} (key : α → ℕ) {list : List α} {a : α} {seen : List ℕ}
    (ha : a ∈ list) (hnew : key a ∉ seen) :
    (list.countP fun b => decide (key b ∉ key a :: seen)) <
      list.countP fun b => decide (key b ∉ seen) := by
  obtain ⟨before, after, rfl⟩ := List.append_of_mem ha
  have hmono : ∀ list : List α, (list.countP fun b => decide (key b ∉ key a :: seen)) ≤
      list.countP fun b => decide (key b ∉ seen) := fun list =>
    List.countP_mono_left fun b _ hb => by
      simp only [List.mem_cons, not_or, decide_eq_true_eq] at hb ⊢
      exact hb.2
  have hbefore := hmono before
  have hafter := hmono after
  rw [List.countP_append, List.countP_append, List.countP_cons, List.countP_cons,
    if_neg (by simp), if_pos (by simpa using hnew)]
  omega

/-- A pass selects something new or changes nothing. -/
lemma Returns.foldlM_left {α : Type} {f : Relevance × Bool → α → Validated (Relevance × Bool)}
    {list : List α} (hf : ∀ a ∈ list, ∀ p p', Returns (f p a) p' →
      p' = p ∨ p'.2 = true ∧ p'.1.left s < p.1.left s)
    {p p' : Relevance × Bool} (h : Returns (list.foldlM f p) p') :
    p' = p ∨ p'.2 = true ∧ p'.1.left s < p.1.left s := by
  induction list generalizing p with
  | nil => exact .inl (returns_pure.1 h).symm
  | cons first rest ih =>
    rw [List.foldlM_cons] at h
    obtain ⟨q, hq, hrest⟩ := returns_bind.1 h
    have hrest := ih (fun a ha => hf a (List.mem_cons_of_mem _ ha)) hrest
    rcases hf first List.mem_cons_self p q hq with rfl | ⟨hflag, hlt⟩
    · exact hrest
    · rcases hrest with rfl | ⟨hflag', hlt'⟩
      · exact .inr ⟨hflag, hlt⟩
      · exact .inr ⟨hflag', hlt'.trans hlt⟩

lemma selectPredicate_left {predicate : ArithmeticPredicate}
    (hm : predicate ∈ s.arithmeticPredicates) {p p' : Relevance × Bool}
    (hrun : Returns (selectPredicate s p predicate) p') :
    p' = p ∨ p'.2 = true ∧ p'.1.left s < p.1.left s := by
  rw [selectPredicate] at hrun
  split at hrun
  · exact .inl (returns_pure.1 hrun).symm
  · next hselect =>
    obtain ⟨e, -, hrun⟩ := returns_bind.1 hrun
    obtain rfl := returns_pure.1 hrun
    have hlt := countP_notMem_cons ArithmeticPredicate.term hm (not_or.1 hselect).2
    exact .inr ⟨rfl, Nat.add_lt_add_right hlt _⟩

lemma selectIte_left {entry : ArithmeticIte × ℕ} (hm : entry ∈ s.arithmeticItes.zipIdx)
    {p p' : Relevance × Bool} (hrun : Returns (selectIte s p entry) p') :
    p' = p ∨ p'.2 = true ∧ p'.1.left s < p.1.left s := by
  rw [selectIte] at hrun
  split at hrun
  · exact .inl (returns_pure.1 hrun).symm
  next hselect =>
  obtain ⟨result, -, hrun⟩ := returns_bind.1 hrun
  split at hrun
  · exact .inl (returns_pure.1 hrun).symm
  · obtain ⟨condition, -, hrun⟩ := returns_bind.1 hrun
    obtain ⟨thenBranch, -, hrun⟩ := returns_bind.1 hrun
    obtain ⟨elseBranch, -, hrun⟩ := returns_bind.1 hrun
    obtain rfl := returns_pure.1 hrun
    have hlt := countP_notMem_cons Prod.snd hm hselect
    exact .inr ⟨rfl, Nat.add_lt_add_left hlt _⟩

/-- The bound of the passes is high enough. -/
lemma expandRelevance_enough {fuel fuel' : ℕ} {r : Relevance} (hfuel : r.left s < fuel)
    (hle : fuel ≤ fuel') : expandRelevance s fuel' r = expandRelevance s fuel r := by
  induction fuel generalizing fuel' r with
  | zero => omega
  | succ fuel ih =>
    obtain ⟨fuel', rfl⟩ := Nat.exists_eq_succ_of_ne_zero (by omega : fuel' ≠ 0)
    rw [expandRelevance, expandRelevance]
    refine bind_congr_returns fun p hp => bind_congr_returns fun q hq => ?_
    have hp := hp.foldlM_left (s := s) fun predicate hm p p' => selectPredicate_left hm
    have hq := hq.foldlM_left (s := s) fun entry hm p p' => selectIte_left hm
    split
    · next hflag =>
      refine ih ?_ (by omega)
      have hlt : q.1.left s < r.left s := by
        rcases hp with rfl | ⟨-, hp⟩ <;> rcases hq with rfl | ⟨-, hq⟩
        · cases hflag
        · exact hq
        · exact hp
        · exact hq.trans hp
      omega
    · rfl

/-- More passes select nothing. -/
lemma expandArithmeticRelevance_enough {seeds : List TermId} {fuel : ℕ}
    (hle : s.arithmeticPredicates.length + s.arithmeticItes.length + 1 ≤ fuel) :
    expandRelevance s fuel ⟨seeds, [], [], []⟩ = expandRelevance s
      (s.arithmeticPredicates.length + s.arithmeticItes.length + 1) ⟨seeds, [], [], []⟩ :=
  expandRelevance_enough (by simp [Relevance.left]) hle

/-! ### The exact reading -/

namespace TermStore

/-- The value of a predicate from the values of the variables. -/
def holdsExactly (s : TermStore) (number : ℕ → ℚ) (expression : ℕ) (strict : Bool) : Bool :=
  belowZero strict (((s.arithmeticExpressions[expression]?).map fun e => e.2.evaluate number).getD 0)

/-- The value of a Boolean term with every arithmetic predicate read as its linear inequality. -/
def readWithin (s : TermStore) (ρ : SymbolId → Bool) (number : ℕ → ℚ) : ℕ → TermId → Bool
  | 0, _ => false
  | depth + 1, t =>
    match (s.node t).kind with
    | .arithmeticPredicate _ expression strict => s.holdsExactly number expression strict
    | kind => kind.value ρ (s.readWithin ρ number depth)

/-- The members of a term are older than the term. -/
def read (s : TermStore) (ρ : SymbolId → Bool) (number : ℕ → ℚ) (t : TermId) : Bool :=
  s.readWithin ρ number (t + 1) t

end TermStore

section

variable (h : s.Ok)
include h

/-- Where the assignment gives every predicate of a closed set its exact value, the exact reading
is the value under the assignment. -/
lemma readWithin_eq {terms : List TermId} (hclosed : MemberClosed s terms)
    (hbool : ∀ t ∈ terms, s.IsBool t)
    (hexact : ∀ p ∈ s.arithmeticPredicates, p.term ∈ terms →
      s.evaluate ρ p.term = s.holdsExactly x p.expression p.strict) :
    ∀ depth, ∀ t ∈ terms, t < depth → s.readWithin ρ x depth t = s.evaluate ρ t := by
  intro depth
  induction depth with
  | zero => simp
  | succ depth ih =>
    intro t ht hdepth
    have hlt := (hbool t ht).lt
    have hmembers : (s.node t).kind.value ρ (s.readWithin ρ x depth) = s.evaluate ρ t := by
      rw [h.evaluate_eq hlt]
      refine TermKind.value_congr _ fun m hm => ih m (hclosed t ht m hm) ?_
      exact (h.members_isBool hlt hm).1.trans_le (Nat.lt_succ_iff.1 hdepth)
    rw [readWithin]
    split
    · next symbol i strict hk =>
      exact (hexact _ (h.recorded t _ (h.node_of_lt hlt).1 symbol i strict hk) ht).symm
    · exact hmembers

end

lemma returns_evaluateBool (h : s.Ok) {b : Bool} (hrun : Returns (reading s (evaluateBool ρ t)) b) :
    s.evaluate ρ t = b := by
  have hspec : Spec False (evaluateBool ρ t) s fun b _ => s.evaluate ρ t = b := by
    refine .bind (requireBool_spec h False.elim) ?_
    rintro _ _ - - ⟨rfl, -⟩
    exact .get (.pure h rfl)
  exact hspec.returned (returns_reading.1 hrun)

/-- The terms reachable from the observed terms are added to the seeds. -/
lemma returns_seeds (h : s.Ok) {observed seeds result : List TermId}
    (hclosed : MemberClosed s seeds) (hbool : ∀ t ∈ seeds, s.IsBool t)
    (hrun : Returns (observed.foldlM (fun seeds term => do
      pure (seeds ++ (← reachableBooleanTerms s [term]))) seeds) result) :
    seeds ⊆ result ∧ MemberClosed s result ∧ ∀ t ∈ result, s.IsBool t := by
  induction observed generalizing seeds with
  | nil =>
    obtain rfl := returns_pure.1 hrun
    exact ⟨List.Subset.refl _, hclosed, hbool⟩
  | cons first rest ih =>
    rw [List.foldlM_cons] at hrun
    obtain ⟨_, hfirst, hrun⟩ := returns_bind.1 hrun
    obtain ⟨found, hfound, hfirst⟩ := returns_bind.1 hfirst
    obtain rfl := returns_pure.1 hfirst
    obtain ⟨-, hclosed', hbool'⟩ := reachableBooleanTerms_spec h hfound
    obtain ⟨hsub, hresult⟩ := ih (fun t ht m hm => (List.mem_append.1 ht).elim
      (fun ht => List.mem_append_left _ (hclosed t ht m hm))
      fun ht => List.mem_append_right _ (hclosed' t ht m hm))
      (fun t ht => (List.mem_append.1 ht).elim (hbool t) (hbool' t)) hrun
    exact ⟨fun t ht => hsub (List.mem_append_left _ ht), hresult⟩

/-- The values are exact: integral for the variables of sort `Int`, and with them every root is
true when the predicates are read as their inequalities, and every conditional that matters has
the value of the branch selected. -/
structure Adequate (s : TermStore) (theory : ArithmeticModel) (roots : List TermId)
    (ρ : SymbolId → Bool) : Prop where
  integral : ∀ v, s.arithmeticVariableSorts[v]? = some .int → ∃ k : ℤ, theory.values v = k
  truths : ∀ r ∈ roots, s.read ρ theory.values r = true
  conditionals : ∀ item, Relevant s roots (.conditional item) →
    s.numeric theory.values item.result =
      if s.read ρ theory.values item.condition then s.numeric theory.values item.thenTerm
      else s.numeric theory.values item.elseTerm

/-- A model that passes validation is adequate. -/
theorem validateModel_adequate (hs : Reachable s) (theory : ArithmeticModel)
    (roots observed : List TermId) (ρ : SymbolId → Bool)
    (hvalid : Returns (validateModel s theory roots observed ρ) ()) :
    Adequate s theory roots ρ := by
  have h := hs.ok
  obtain ⟨rootRelevant, hrootRelevant, hvalid⟩ := returns_bind.1 hvalid
  obtain ⟨seeds, hseeds, hvalid⟩ := returns_bind.1 hvalid
  obtain ⟨⟨relevant, ites⟩, hrelevant, hvalid⟩ := returns_bind.1 hvalid
  obtain ⟨⟨⟩, hintegers, hvalid⟩ := returns_bind.1 hvalid
  obtain ⟨⟨⟩, hites, hvalid⟩ := returns_bind.1 hvalid
  obtain ⟨⟨⟩, hpredicates, htruths⟩ := returns_bind.1 hvalid
  obtain ⟨hroots, hclosed, hbool⟩ := reachableBooleanTerms_spec h hrootRelevant
  obtain ⟨hsub, hclosed, hbool⟩ := returns_seeds h hclosed hbool hseeds
  obtain ⟨hclosed, hbool, hterms, hconditionals⟩ :=
    expandArithmeticRelevance_spec h (List.Subset.trans hroots hsub) hclosed hbool hrelevant
  have hexact : ∀ p ∈ s.arithmeticPredicates, p.term ∈ relevant →
      s.evaluate ρ p.term = s.holdsExactly theory.values p.expression p.strict := by
    intro p hp hm
    have hrun := hpredicates.forM p (List.mem_filter.2 ⟨hp, decide_eq_true hm⟩)
    obtain ⟨e, he, hrun⟩ := returns_bind.1 hrun
    obtain ⟨actual, hactual, hrun⟩ := returns_bind.1 hrun
    obtain ⟨entry, hentry, rfl⟩ := Option.map_eq_some_iff.1 (returns_arithmeticExpression.1 he)
    rw [returns_evaluateBool h hactual, not_not.1 (returns_check hrun), holdsExactly, hentry]
    rfl
  have hread : ∀ t ∈ relevant, s.read ρ theory.values t = s.evaluate ρ t := fun t ht =>
    readWithin_eq h hclosed hbool hexact (t + 1) t ht (Nat.lt_succ_self t)
  constructor
  · intro v hv
    have hrun := hintegers.forM (.int, v) (List.mem_zipIdx_iff_getElem?.2 (by simpa using hv))
    rw [if_neg (by simp)] at hrun
    exact ⟨_, (Rat.coe_int_num_of_den_eq_one (not_not.1 (returns_check hrun))).symm⟩
  · intro r hr
    obtain ⟨value, hvalue, hrun⟩ := returns_bind.1 (htruths.forM r hr)
    rw [hread r (hterms r (.root r hr)), returns_evaluateBool h hvalue]
    split at hrun
    · assumption
    · exact absurd hrun not_returns_throw
  · intro item hitem
    obtain ⟨hcondition, i, hi, hget⟩ := hconditionals item hitem
    have hrun := hites.forM i hi
    rw [hget] at hrun
    obtain ⟨condition, hc, hrun⟩ := returns_bind.1 hrun
    obtain ⟨result, hresult, hrun⟩ := returns_bind.1 hrun
    obtain ⟨branch, hbranch, hrun⟩ := returns_bind.1 hrun
    rw [hread _ hcondition, returns_evaluateBool h hc, (returns_expressionForTerm hresult).1,
      not_not.1 (returns_check hrun), ← (returns_expressionForTerm hbranch).1]
    cases condition <;> rfl

/-- A conditional that is one or zero, and the predicate that it is not negative. -/
def oneOrZero : TermStore :=
  ((Operation.arithmeticComparison 3 5 false).run 0 ((Operation.ite 2 4 3).run 0
    ((Operation.arithmeticConstant .real 1).run 0 ((Operation.arithmeticConstant .real 0).run 0
      ((Operation.freshTerm .bool).run 0 .new).2).2).2).2).2

theorem validateModel_adequate_oneOrZero :
    oneOrZero.nodes.length = 7 ∧ Adequate oneOrZero ⟨fun _ => 1⟩ [6] fun _ => true := by
  refine ⟨by decide +kernel, validateModel_adequate ?_ _ _ [] _ ?_⟩
  · exact .step _ _ (.step _ _ (.step _ _ (.step _ _ (.step _ _ (.refl _)))))
  · have hrun : @Eq (Option (Except ModelValidationError Unit))
        (validateModel oneOrZero ⟨fun _ => 1⟩ [6] [] fun _ => true) (some (.ok ())) := by
      decide +kernel
    exact hrun

end Satrap.Smt
