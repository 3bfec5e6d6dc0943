/-
# Propagation in the search loop reaches a fixpoint

`Alert` is what the loop keeps: every active clause is watched, unless a conflict at the root
has been deferred, and then the next propagation returns it.  A reactivated clause that is
false with both watches propagated is such a conflict; no other propagation would find it.
-/
import Satrap.Solver.Coverage
import Satrap.Solver.Engagement

namespace Satrap

open Logic

namespace Solver

variable {Γ : Set (List Lit)} {O : Oracle} {s s' : Solver} {c d : ClauseRef} {l q : Lit}
  {A : List Lit} {D : Lit → Prop} {X : ClauseRef → Prop} {W : Waiver}

/-! ### The observed clauses -/

/-- The list of observed clauses is in order. -/
structure Tidy (s : Solver) : Prop where
  nodup : s.shadowClauses.Nodup
  observed : ∀ i ∈ s.shadowClauses,
    s.shadowStates i ≠ .active ∧ (s.clause (.long i)).deleted = false
  enabled : s.shadowClauses ≠ [] → s.config.shadowClauseReactivation = true

namespace Tidy

lemma congr (h : s.Tidy) (hdb : s'.toClauseDb = s.toClauseDb) (hconfig : s'.config = s.config) :
    s'.Tidy := by
  obtain ⟨h1, h2, h3⟩ := h
  constructor
  · rwa [hdb]
  · rwa [hdb]
  · rwa [hdb, hconfig]

lemma of_extended (h : s.Tidy) (hp : Extended s s') : s'.Tidy := by
  constructor
  · rw [hp.db.observed]
    exact h.nodup
  · intro i hi
    rw [hp.db.observed] at hi
    obtain ⟨h1, h2⟩ := h.observed i hi
    exact ⟨fun he => h1 ((hp.db.shadow i).1 he), (hp.db.deleted _).trans h2⟩
  · rw [hp.db.observed, hp.config]
    exact h.enabled

lemma isShadow (h : s.Tidy) {i : ℕ} (hi : i ∈ s.shadowClauses) :
    s.clauseIsShadow (.long i) = true := by
  have hne : s.shadowClauses ≠ [] := List.ne_nil_of_mem hi
  simp [clauseIsShadow, h.enabled hne, (h.observed i hi).1]

lemma addClauseToDb {literals : List Lit} {learned : Bool} (h : s.Tidy) (hcore : Core Γ s) :
    (s.addClauseToDb literals learned).Tidy := by
  have hlist : (s.addClauseToDb literals learned).shadowClauses = s.shadowClauses :=
    ClauseDb.add_shadowClauses
  have hstates : (s.addClauseToDb literals learned).shadowStates = s.shadowStates :=
    ClauseDb.add_shadowStates
  constructor
  · rw [hlist]
    exact h.nodup
  · intro i hi
    rw [hlist] at hi
    have hclause : (s.addClauseToDb literals learned).clause (.long i) = s.clause (.long i) :=
      ClauseDb.add_clause_of_allocated (hcore.db.observed i hi).1
    rw [hstates, hclause]
    exact h.observed i hi
  · rw [hlist]
    exact h.enabled

lemma markClauseDeleted (h : s.Tidy) (hc : ∀ i ∈ s.shadowClauses, c ≠ .long i) :
    (s.markClauseDeleted c).Tidy := by
  refine ⟨h.nodup, fun i hi => ⟨(h.observed i hi).1, ?_⟩, h.enabled⟩
  show ((s.toClauseDb.delete c).clause (.long i)).deleted = false
  rw [ClauseDb.delete_clause, if_neg (hc i hi).symm]
  exact (h.observed i hi).2

end Tidy

/-! ### Deletion and observation -/

lemma Watchful.markClauseDeleted (hset : s.Watchful D X) (c : ClauseRef) :
    (s.markClauseDeleted c).Watchful D X := by
  intro d hd hX hD
  obtain ⟨hact, hdc⟩ := ClauseDb.active_delete.1 hd
  have hw : (s.markClauseDeleted c).watched d = s.watched d :=
    congrArg (List.take 2) literals_markClauseDeleted
  rw [hw] at hD
  obtain ⟨h1, h2⟩ := hset d hact hX hD
  constructor
  · rw [isShadow_markClauseDeleted, literals_markClauseDeleted, hw]
    exact h1
  · rw [isShadow_markClauseDeleted, RootTrue, literals_markClauseDeleted, hw]
    exact h2

/-- A clause that is put under observation asks for no more than before. -/
lemma Watchful.beginShadowObservation (hset : s.Watchful D X) (i : ℕ) :
    (s.beginShadowObservation i).Watchful D X := by
  intro c hc hX hD
  obtain ⟨h1, h2⟩ := hset c hc hX hD
  have hmono : s.clauseIsShadow c = true → (s.beginShadowObservation i).clauseIsShadow c = true := by
    cases c with
    | binary j => exact id
    | long j =>
      by_cases hj : j = i
      · subst hj
        simp only [clauseIsShadow, Solver.beginShadowObservation, Bool.and_eq_true]
        exact fun h => ⟨h.1, by simp⟩
      · simp [clauseIsShadow, Solver.beginShadowObservation, Function.update_of_ne hj]
  constructor
  · intro hs
    refine h1 ?_
    by_contra hne
    rw [hmono (by simpa using hne)] at hs
    simp at hs
  · intro _ h0
    cases hs : s.clauseIsShadow c with
    | true => exact h2 hs h0
    | false =>
      obtain ⟨q, hq, hv, l, hl, hle⟩ := h1 hs
      exact .inl ⟨q, hq, hv, Nat.le_zero.1 (hle.trans (h0 l hl).le)⟩

namespace Shielded

lemma markClauseDeleted (h : s.Shielded W) (c : ClauseRef) : (s.markClauseDeleted c).Shielded W :=
  ⟨h.firm.markClauseDeleted c, h.watchful.markClauseDeleted c⟩

lemma beginShadowObservation (h : s.Shielded W) (i : ℕ) :
    (s.beginShadowObservation i).Shielded W :=
  ⟨h.firm, h.watchful.beginShadowObservation i⟩

end Shielded

/-- Every active clause is watched up to a waiver, and the observed clauses are in order. -/
structure Vigilant (W : Waiver) (s : Solver) : Prop where
  shielded : s.Shielded W
  tidy : s.Tidy

namespace Vigilant

lemma congr (h : s.Vigilant W) (ht : s'.toTrailState = s.toTrailState)
    (hdb : s'.toClauseDb = s.toClauseDb) (hconfig : s'.config = s.config) : s'.Vigilant W :=
  ⟨h.shielded.congr ht hdb hconfig, h.tidy.congr hdb hconfig⟩

lemma cancelUntil (h : s.Vigilant W) (hcore : Core Γ s) (O : Oracle) (level : ℕ) :
    (s.cancelUntil O level).Vigilant W :=
  have hc := cancelled_cancelUntil O s level
  ⟨h.shielded.cancelUntil hcore O level, h.tidy.congr hc.db hc.config⟩

lemma markClauseDeleted (h : s.Vigilant W) (hc : ∀ i ∈ s.shadowClauses, c ≠ .long i) :
    (s.markClauseDeleted c).Vigilant W :=
  ⟨h.shielded.markClauseDeleted c, h.tidy.markClauseDeleted hc⟩

lemma beginShadowObservation (h : s.Vigilant W) {i : ℕ} (hi : i ∉ s.shadowClauses)
    (hd : (s.clause (.long i)).deleted = false)
    (hconfig : s.config.shadowClauseReactivation = true) :
    (s.beginShadowObservation i).Vigilant W := by
  refine ⟨h.shielded.beginShadowObservation i, ?_, ?_, fun _ => hconfig⟩
  · exact List.nodup_append.2 ⟨h.tidy.nodup, List.nodup_singleton i, fun a ha b hb hab =>
      hi (by rw [← List.mem_singleton.1 hb, ← hab]; exact ha)⟩
  · intro j hj
    show Function.update s.shadowStates i .observing j ≠ .active ∧ _
    by_cases hji : j = i
    · rw [hji, Function.update_self]
      exact ⟨by simp, hd⟩
    · rw [Function.update_of_ne hji]
      exact h.tidy.observed j ((List.mem_append.1 hj).resolve_right (by simpa using hji))

lemma foldl_markClauseDeleted : ∀ (cs : List ClauseRef) (s : Solver), s.Vigilant W →
    (∀ c ∈ cs, ∀ i ∈ s.shadowClauses, c ≠ .long i) →
    (cs.foldl Solver.markClauseDeleted s).Vigilant W ∧
      (cs.foldl Solver.markClauseDeleted s).shadowClauses = s.shadowClauses ∧
      (cs.foldl Solver.markClauseDeleted s).config = s.config ∧
      ∀ d, d ∉ cs → (cs.foldl Solver.markClauseDeleted s).clause d = s.clause d := by
  intro cs
  induction cs with
  | nil => exact fun s h _ => ⟨h, rfl, rfl, fun _ _ => rfl⟩
  | cons c cs ih =>
    intro s h hc
    obtain ⟨h1, h2, h3, h4⟩ := ih (s.markClauseDeleted c) (h.markClauseDeleted (hc c (by simp)))
      fun d hd => hc d (List.mem_cons_of_mem c hd)
    refine ⟨h1, h2, h3, fun d hd => ?_⟩
    rw [List.mem_cons, not_or] at hd
    obtain ⟨hdc, hd⟩ := hd
    refine (h4 d hd).trans ?_
    show (s.toClauseDb.delete c).clause d = s.clause d
    rw [ClauseDb.delete_clause, if_neg hdc]

lemma foldl_beginShadowObservation : ∀ (is : List ℕ) (s : Solver), s.Vigilant W → is.Nodup →
    (∀ i ∈ is, i ∉ s.shadowClauses ∧ (s.clause (.long i)).deleted = false ∧
      s.config.shadowClauseReactivation = true) →
    (is.foldl Solver.beginShadowObservation s).Vigilant W := by
  intro is
  induction is with
  | nil => exact fun s h _ _ => h
  | cons i is ih =>
    intro s h hnd hi
    obtain ⟨hnotin, hnd⟩ := List.nodup_cons.1 hnd
    obtain ⟨h1, h2, h3⟩ := hi i (by simp)
    refine ih _ (h.beginShadowObservation h1 h2 h3) hnd fun j hj => ?_
    obtain ⟨h4, h5, h6⟩ := hi j (List.mem_cons_of_mem i hj)
    refine ⟨fun hmem => ?_, h5, h6⟩
    rcases List.mem_append.1 hmem with hmem | hmem
    · exact h4 hmem
    · exact hnotin (List.mem_singleton.1 hmem ▸ hj)

lemma reduceDatabase (h : s.Vigilant W) (O : Oracle) : (s.reduceDatabase O).Vigilant W := by
  have htick : s.tick.Vigilant W := h.congr rfl rfl rfl
  have hremovable : ∀ i, s.isRemovable i = true →
      (s.clause (.long i)).deleted = false ∧ i ∉ s.shadowClauses := by
    intro i hi
    simp only [isRemovable, Bool.and_eq_true, Bool.not_eq_true'] at hi
    exact ⟨hi.1.1.2, fun hmem => by simp [h.tidy.isShadow hmem] at hi⟩
  rw [Solver.reduceDatabase]
  split
  · exact htick
  next deletions shadows _ =>
  dsimp only
  obtain ⟨h1, h2, h3, h4⟩ := foldl_markClauseDeleted
    ((deletions.dedup.filter s.isRemovable).map ClauseRef.long) s.tick htick fun c hc i hi he => by
      obtain ⟨j, hj, rfl⟩ := List.mem_map.1 hc
      cases he
      exact (hremovable i (List.mem_filter.1 hj).2).2 hi
  refine foldl_beginShadowObservation _ _ h1 ((List.nodup_dedup shadows).filter _) fun i hi => ?_
  have hi' := (List.mem_filter.1 hi).2
  simp only [Bool.and_eq_true, decide_eq_true_eq] at hi'
  obtain ⟨⟨hconfig, hrem⟩, hnotin⟩ := hi'
  obtain ⟨hd, hmem⟩ := hremovable i hrem
  refine ⟨h2 ▸ hmem, ?_, h3 ▸ hconfig⟩
  rw [h4 _ fun hm => hnotin ?_]
  · exact hd
  · obtain ⟨j, hj, he⟩ := List.mem_map.1 hm
    cases he
    exact hj

end Vigilant

/-! ### Reactivation -/

/-- The first loop of `finalize_shadow_clauses_at_root` deals with the clauses whose time has
come: it reactivates what was triggered and deletes the rest. -/
structure ExpireShadowOk (due : ℕ → Bool) (is : List ℕ) (s : Solver)
    (r : List ℕ × List ℕ × Solver) : Prop where
  retained : r.1 = is.filter fun i => !due i
  reactivated : r.2.1 = is.filter fun i => due i && decide (s.shadowStates i = .triggered)
  states : ∀ i, r.2.2.shadowStates i = if i ∈ is ∧ due i = true then .active else s.shadowStates i
  deleted : ∀ i, (r.2.2.clause (.long i)).deleted = ((s.clause (.long i)).deleted ||
    decide (i ∈ is ∧ due i = true ∧ s.shadowStates i ≠ .triggered))
  config : r.2.2.config = s.config
  list : r.2.2.shadowClauses = s.shadowClauses

lemma expireShadow_ok (O : Oracle) (clock : ℕ) : ∀ (is : List ℕ) (s : Solver), is.Nodup →
    ExpireShadowOk (O.shadowExpired clock) is s (expireShadow O clock is s) := by
  intro is
  induction is with
  | nil => exact fun s _ => ⟨rfl, rfl, by simp [expireShadow], by simp [expireShadow], rfl, rfl⟩
  | cons i is ih =>
    intro s hnd
    obtain ⟨hi, hnd⟩ := List.nodup_cons.1 hnd
    rw [expireShadow]
    split
    · next hdue =>
      have hdue : O.shadowExpired clock i = false := by simpa using hdue
      obtain ⟨h1, h2, h3, h4, h5, h6⟩ := ih s hnd
      refine ⟨?_, ?_, fun j => ?_, fun j => ?_, h5, h6⟩
      · simp [hdue, h1]
      · simp [hdue, h2]
      · rw [h3]
        by_cases hj : j = i <;> simp [hj, hdue]
      · rw [h4]
        by_cases hj : j = i <;> simp [hj, hdue]
    next hdue =>
    have hdue : O.shadowExpired clock i = true := by simpa using hdue
    have hne : ∀ j ∈ is, j ≠ i := fun j hj he => hi (he ▸ hj)
    have hstates : ∀ j ∈ is, (s.setShadow i .active).shadowStates j = s.shadowStates j :=
      fun j hj => Function.update_of_ne (hne j hj) _ _
    dsimp only
    split
    · next htrig =>
      obtain ⟨h1, h2, h3, h4, h5, h6⟩ := ih (s.setShadow i .active) hnd
      refine ⟨?_, ?_, fun j => ?_, fun j => ?_, h5, h6⟩
      · simp only [List.filter_cons, hdue, Bool.not_true, Bool.false_eq_true, if_false]
        exact h1
      · simp only [List.filter_cons, hdue, htrig, decide_true, Bool.and_self, if_true]
        refine congrArg (List.cons i) (h2.trans (List.filter_congr fun j hj => ?_))
        rw [hstates j hj]
      · refine (h3 j).trans ?_
        by_cases hj : j = i
        · simp [hj, hdue, hi, Solver.setShadow]
        · simp [hj, Solver.setShadow]
      · refine (h4 j).trans ?_
        by_cases hj : j = i
        · simp [hj, hi, htrig, Solver.setShadow]
        · simp [hj, Solver.setShadow]
    · next htrig =>
      obtain ⟨h1, h2, h3, h4, h5, h6⟩ :=
        ih ((s.setShadow i .active).markClauseDeleted (.long i)) hnd
      refine ⟨?_, ?_, fun j => ?_, fun j => ?_, h5, h6⟩
      · simp only [List.filter_cons, hdue, Bool.not_true, Bool.false_eq_true, if_false]
        exact h1
      · simp only [List.filter_cons, hdue, htrig, decide_false, Bool.and_false,
          Bool.false_eq_true, if_false]
        refine h2.trans (List.filter_congr fun j hj => ?_)
        rw [show ((s.setShadow i .active).markClauseDeleted (.long i)).shadowStates j =
          s.shadowStates j from hstates j hj]
      · refine (h3 j).trans ?_
        by_cases hj : j = i
        · simp [hj, hdue, hi, Solver.setShadow, Solver.markClauseDeleted, ClauseDb.delete]
        · simp [hj, Solver.setShadow, Solver.markClauseDeleted, ClauseDb.delete]
      · refine (h4 j).trans ?_
        have hdel : (((s.setShadow i .active).markClauseDeleted (.long i)).clause
            (.long j)).deleted = if j = i then true else (s.clause (.long j)).deleted := by
          show ((s.toClauseDb.delete (.long i)).clause (.long j)).deleted = _
          rw [ClauseDb.delete_clause]
          by_cases hj : j = i <;> simp [hj]
        rw [hdel]
        by_cases hj : j = i
        · simp [hj, hdue, htrig]
        · simp [hj, Solver.setShadow, Solver.markClauseDeleted, ClauseDb.delete]

/-- Without a deferred conflict, a clause classified is satisfied, open or about to be. -/
lemma classifyReactivated_status : ∀ (is : List ℕ) (s : Solver),
    ∃ deferred, (classifyReactivated is s).2 = { s with shadowDeferredRootConflict := deferred } ∧
      (∀ c, deferred = some c → s.shadowDeferredRootConflict = some c ∨ ∃ i ∈ is, c = .long i) ∧
      (∀ p ∈ (classifyReactivated is s).1, ∃ i ∈ is, p.2 = .long i ∧ p.1 ∈ s.literals p.2) ∧
      (deferred = none → s.shadowDeferredRootConflict = none ∧ ∀ i ∈ is,
        (∃ q ∈ s.literals (.long i), s.value q = some true) ∨
        rootStatus s.toTrailState (s.literals (.long i)) = .open ∨
        ∃ l, (l, .long i) ∈ (classifyReactivated is s).1) := by
  intro is
  induction is with
  | nil =>
    exact fun s => ⟨s.shadowDeferredRootConflict, rfl, fun _ => .inl, by simp [classifyReactivated],
      fun hd => ⟨hd, by simp⟩⟩
  | cons i is ih =>
    intro s
    have hmem : ∀ {c : ClauseRef}, (∃ j ∈ is, c = .long j) → ∃ j ∈ i :: is, c = .long j := by
      rintro c ⟨j, hj, he⟩
      exact ⟨j, List.mem_cons_of_mem i hj, he⟩
    have hunits : ∀ {units : List (Lit × ClauseRef)},
        (∀ p ∈ units, ∃ j ∈ is, p.2 = .long j ∧ p.1 ∈ s.literals p.2) →
        ∀ p ∈ units, ∃ j ∈ i :: is, p.2 = .long j ∧ p.1 ∈ s.literals p.2 := fun h p hp => by
      obtain ⟨j, hj, h⟩ := h p hp
      exact ⟨j, List.mem_cons_of_mem i hj, h⟩
    rw [classifyReactivated]
    split
    · next hst =>
      obtain ⟨deferred, he, h1, h2, h3⟩ := ih s
      refine ⟨deferred, he, fun c hc => (h1 c hc).imp_right hmem, hunits h2,
        fun hd => ⟨(h3 hd).1, fun j hj => ?_⟩⟩
      rcases List.mem_cons.1 hj with rfl | hj
      · exact .inl (rootStatus_satisfied hst)
      · exact (h3 hd).2 j hj
    · next hst =>
      obtain ⟨deferred, he, h1, h2, h3⟩ := ih s
      refine ⟨deferred, he, fun c hc => (h1 c hc).imp_right hmem, hunits h2,
        fun hd => ⟨(h3 hd).1, fun j hj => ?_⟩⟩
      rcases List.mem_cons.1 hj with rfl | hj
      · exact .inr (.inl hst)
      · exact (h3 hd).2 j hj
    · obtain ⟨deferred, he, h1, h2, h3⟩ := ih (s.deferConflict (.long i))
      have hne : deferred ≠ none := fun hd => by simpa [deferConflict] using (h3 hd).1
      refine ⟨deferred, he, fun c hc => ?_, hunits h2, fun hd => absurd hd hne⟩
      rcases h1 c hc with hc | hc
      · simp only [deferConflict, Option.some.injEq] at hc
        cases hs : s.shadowDeferredRootConflict with
        | none => exact .inr ⟨i, by simp, by rw [← hc, hs]; rfl⟩
        | some e => exact .inl (by rw [← hc, hs]; rfl)
      · exact .inr (hmem hc)
    · next l hst =>
      obtain ⟨deferred, he, h1, h2, h3⟩ := ih s
      refine ⟨deferred, he, fun c hc => (h1 c hc).imp_right hmem, fun p hp => ?_,
        fun hd => ⟨(h3 hd).1, fun j hj => ?_⟩⟩
      · rcases List.mem_cons.1 hp with rfl | hp
        · exact ⟨i, by simp, rfl, (rootStatus_unit hst).1⟩
        · exact hunits h2 p hp
      · rcases List.mem_cons.1 hj with rfl | hj
        · exact .inr (.inr ⟨l, by simp⟩)
        · exact ((h3 hd).2 j hj).imp_right
            (Or.imp_right (Exists.imp fun q hq => List.mem_cons_of_mem _ hq))

/-- The last loop of `finalize_shadow_clauses_at_root` makes every unit true, or defers a
conflict. -/
structure EnqueueReactivatedOk (units : List (Lit × ClauseRef)) (s s' : Solver) : Prop where
  extended : Extended s s'
  db : s'.toClauseDb = s.toClauseDb
  head : s'.propagationHead = s.propagationHead
  deferred : ∀ c, s'.shadowDeferredRootConflict = some c →
    s.shadowDeferredRootConflict = some c ∨ ∃ p ∈ units, p.2 = c
  holds : s'.shadowDeferredRootConflict = none →
    s.shadowDeferredRootConflict = none ∧ ∀ p ∈ units, s'.value p.1 = some true

lemma EnqueueReactivatedOk.cons {p : Lit × ClauseRef} {units : List (Lit × ClauseRef)}
    {s₁ : Solver} (h₁ : EnqueueReactivatedOk [p] s s₁) (h : EnqueueReactivatedOk units s₁ s') :
    EnqueueReactivatedOk (p :: units) s s' where
  extended := ⟨h₁.extended.trail.trans h.extended.trail, h₁.extended.db.trans h.extended.db,
    h.extended.session.trans h₁.extended.session⟩
  db := h.db.trans h₁.db
  head := h.head.trans h₁.head
  deferred c hc := by
    rcases h.deferred c hc with hc | ⟨q, hq, he⟩
    · exact (h₁.deferred c hc).imp_right fun ⟨q, hq, he⟩ =>
        ⟨q, List.mem_cons.2 (.inl (List.mem_singleton.1 hq)), he⟩
    · exact .inr ⟨q, List.mem_cons_of_mem p hq, he⟩
  holds hd := by
    obtain ⟨hd₁, hv⟩ := h.holds hd
    obtain ⟨hd₀, hv₀⟩ := h₁.holds hd₁
    refine ⟨hd₀, fun q hq => ?_⟩
    rcases List.mem_cons.1 hq with rfl | hq
    · exact h.extended.trail.value (hv₀ q (by simp))
    · exact hv q hq

lemma enqueueReactivated_ok : ∀ (units : List (Lit × ClauseRef)) (s : Solver),
    EnqueueReactivatedOk units s (enqueueReactivated units s) := by
  intro units
  induction units with
  | nil => exact fun s => ⟨⟨.refl _, .refl _, rfl⟩, rfl, rfl, fun _ => .inl, fun h => ⟨h, by simp⟩⟩
  | cons p units ih =>
    intro s
    rw [enqueueReactivated, List.foldl_cons]
    refine EnqueueReactivatedOk.cons ?_ (ih _)
    cases hv : s.value p.1 with
    | none =>
      rw [enqueue, enqueueInternal_of_none true hv]
      exact ⟨extended_assign s true hv _, rfl, rfl, fun _ => .inl, fun hd =>
        ⟨hd, fun q hq => List.mem_singleton.1 hq ▸ TrailState.value_push_self _⟩⟩
    | some b =>
      rw [enqueue, enqueueInternal, hv]
      cases b with
      | true =>
        exact ⟨⟨.refl _, .refl _, rfl⟩, rfl, rfl, fun _ => .inl, fun hd =>
          ⟨hd, fun q hq => List.mem_singleton.1 hq ▸ hv⟩⟩
      | false =>
        refine ⟨⟨.refl _, .refl _, rfl⟩, rfl, rfl, fun c hc => ?_, fun hd => ?_⟩
        · simp only [deferConflict, Option.some.injEq] at hc
          cases hs : s.shadowDeferredRootConflict with
          | none => exact .inr ⟨p, by simp, by rw [← hc, hs]; rfl⟩
          | some e => exact .inl (by rw [← hc, hs]; rfl)
        · simp [deferConflict] at hd

/-- Between the iterations of the search: a deferred conflict is an active clause, and without
one every active clause is watched. -/
structure Alert (W : Waiver) (s : Solver) : Prop where
  shielded : s.shadowDeferredRootConflict = none → s.Shielded W
  deferred : ∀ c, s.shadowDeferredRootConflict = some c → s.Active c ∧ s.clauseIsShadow c = false
  tidy : s.Tidy

lemma Vigilant.alert (h : s.Vigilant W) (hd : s.shadowDeferredRootConflict = none) : s.Alert W :=
  ⟨fun _ => h.shielded, by simp [hd], h.tidy⟩

lemma Alert.vigilant (h : s.Alert W) (hd : s.shadowDeferredRootConflict = none) : s.Vigilant W :=
  ⟨h.shielded hd, h.tidy⟩

/-- At the root a true literal makes a clause harmless. -/
lemma guarded_of_true (h : Core Γ s) (h0 : s.decisionLevel = 0) (hc : s.Active c)
    (hq : q ∈ s.literals c) (hv : s.value q = some true) : s.Guarded c := by
  have hq0 : s.levels q.var = 0 := h.level_root h0 (h.active_var hc hq) (by simp [hv])
  obtain ⟨a, b, rest, hab, -⟩ := h.db.exists_eq hc.1
  have ha : a ∈ s.watched c := by
    rw [ClauseDb.watched, hab]
    simp
  exact ⟨fun _ => ⟨q, hq, hv, a, ha, hq0 ▸ Nat.zero_le _⟩, fun _ _ => .inl ⟨q, hq, hv, hq0⟩⟩

/-- **Shadow clauses are finalized at the root**, and nothing escapes. -/
lemma Vigilant.finalizeShadowClausesAtRoot (h : s.Vigilant W) (hcalm : Calm False Γ A s)
    (O : Oracle) (hconfig : s.config.shadowClauseReactivation = true)
    (h0 : s.decisionLevel = 0) : (s.finalizeShadowClausesAtRoot O).Alert W := by
  obtain ⟨hresumable, -⟩ := hcalm.finalizeShadowClausesAtRoot O hconfig h0
  have hcore' := hresumable.core
  have h0' := hresumable.root
  rw [Solver.finalizeShadowClausesAtRoot] at hcore' h0' ⊢
  obtain ⟨-, -, hexp, hre, -⟩ := expireShadow_spec O s.clock s.shadowClauses s.tick (exempt False)
    hcalm.tick.core hconfig hcalm.core.db.observed hcalm.tick.settled (fun _ _ hf => .inr hf)
  have hok := expireShadow_ok O s.clock s.shadowClauses s.tick h.tidy.nodup
  generalize expireShadow O s.clock s.shadowClauses s.tick = r at hexp hre hok hcore' h0' ⊢
  obtain ⟨retained, reactivated, s₁⟩ := r
  obtain ⟨hretained, hreacted, hstates, hdeleted, hconfig₁, -⟩ := hok
  dsimp only at hexp hre hretained hreacted hstates hdeleted hconfig₁ hcore' h0' ⊢
  obtain ⟨deferred, he, hdef, hunits, hst⟩ :=
    classifyReactivated_status reactivated { s₁ with shadowClauses := retained }
  generalize classifyReactivated reactivated { s₁ with shadowClauses := retained } = r
    at he hunits hst hcore' h0' ⊢
  obtain ⟨units, s₂⟩ := r
  dsimp only at he hunits hst hcore' h0' ⊢
  subst he
  set s₃ : Solver :=
    { s₁ with shadowClauses := retained, shadowDeferredRootConflict := deferred } with hs₃
  have henq := enqueueReactivated_ok units s₃
  set s' := enqueueReactivated units s₃ with hs'
  have hnone : s₁.shadowDeferredRootConflict = none := hexp.deferred.trans hcalm.deferred
  have hactive : ∀ c, s'.Active c ↔ s₁.Active c := fun c => by rw [henq.db]; rfl
  have hliterals : ∀ c, s'.literals c = s.literals c := fun c => by
    show (s'.toClauseDb.clause c).literals = _
    rw [henq.db]
    exact hexp.literals c
  have hshadow : ∀ c, s'.clauseIsShadow c = s₁.clauseIsShadow c := fun c => henq.extended.isShadow c
  have hmem : ∀ i ∈ reactivated, i ∈ s.shadowClauses ∧ s.shadowStates i = .triggered := by
    intro i hi
    rw [hreacted] at hi
    obtain ⟨h1, h2⟩ := List.mem_filter.1 hi
    simp only [Bool.and_eq_true, decide_eq_true_eq] at h2
    exact ⟨h1, h2.2⟩
  have hreactivated : ∀ i ∈ reactivated,
      s'.Active (.long i) ∧ s'.clauseIsShadow (.long i) = false := by
    intro i hi
    obtain ⟨hi', htrig⟩ := hmem i hi
    have hdel : (s₁.clause (.long i)).deleted = false := by
      rw [hdeleted]
      have hd : (s.tick.clause (.long i)).deleted = false := (h.tidy.observed i hi').2
      have ht : s.tick.shadowStates i = .triggered := htrig
      simp [hd, ht]
    exact ⟨(hactive _).2 ⟨(hre i hi).allocated, hdel⟩, (hshadow _).trans (hre i hi).visible⟩
  refine ⟨fun hd => ?_, fun c hc => ?_, ?_⟩
  · obtain ⟨hd₃, hholds⟩ := henq.holds hd
    have htrail : s₃.toTrailState = s.toTrailState := hexp.trail
    have hst : ∀ i ∈ reactivated, (∃ q ∈ s.literals (.long i), s.value q = some true) ∨
        rootStatus s.toTrailState (s.literals (.long i)) = .open ∨
        ∃ l, (l, .long i) ∈ units := fun i hi => by
      have hlits : ({ s₁ with shadowClauses := retained } : Solver).literals (.long i) =
          s.literals (.long i) := hexp.literals (.long i)
      have htrail₁ : s₁.toTrailState = s.toTrailState := hexp.trail
      have := (hst hd₃).2 i hi
      rwa [hlits, htrail₁] at this
    have hw : ∀ c, s'.watched c = s.watched c := fun c => congrArg (List.take 2) (hliterals c)
    have hdone : ∀ l, s'.Done l → s.Done l := fun l hl => by
      have hiff := henq.extended.trail.done_iff (l := l) henq.head
        (htrail ▸ hcalm.core.trail.head_le)
      rw [htrail] at hiff
      exact hiff.1 hl
    refine ⟨fun c hc hL l hl hD => ?_, fun c hc hX hD => ?_⟩
    · have hgrown : TrailState.Grown s.toTrailState s'.toTrailState :=
        htrail ▸ henq.extended.trail
      have hlearned : (s'.clause c).learned = (s.clause c).learned := by
        rw [henq.db]
        exact hexp.learned c
      rw [hw] at hl
      obtain ⟨q, hq, hv, hle⟩ := h.shielded.firm c
        ⟨hexp.active c ((hactive c).1 hc.1), hlearned.symm.trans hc.2⟩ hL l hl (hdone l hD)
      have hvl := hcalm.core.trail.done_value (hdone l hD)
      refine ⟨q, hliterals c ▸ hq, hgrown.value hv, ?_⟩
      rw [hgrown.levels (by rw [hv]; simp), hgrown.levels (by rw [hvl]; simp)]
      exact hle
    have hact : s.Active c := hexp.active c ((hactive c).1 hc)
    have hD' : ∀ l ∈ s.watched c, s.Done l := fun l hl => hdone l (hD l (hw c ▸ hl))
    have hguard := h.shielded.watchful c hact hX hD'
    by_cases hre' : ∃ i ∈ reactivated, c = .long i
    · -- a reactivated clause has been satisfied
      obtain ⟨i, hi, rfl⟩ := hre'
      obtain ⟨-, htrig⟩ := hmem i hi
      have hsh : s.clauseIsShadow (.long i) = true := by simp [clauseIsShadow, hconfig, htrig]
      suffices ∃ q ∈ s'.literals (.long i), s'.value q = some true by
        obtain ⟨q, hq, hv⟩ := this
        exact guarded_of_true hcore' h0' hc hq hv
      have hgrow : ∀ q, s.value q = some true → s'.value q = some true := fun q hv =>
        henq.extended.trail.value (htrail ▸ hv)
      rw [hliterals]
      rcases hst i hi with ⟨q, hq, hv⟩ | hopen | ⟨l, hl⟩
      · exact ⟨q, hq, hgrow q hv⟩
      · rcases hguard.shadow hsh fun l hl => hcalm.core.level_root h0
            (hcalm.core.active_var hact (List.mem_of_mem_take hl))
            (by rw [hcalm.core.trail.done_value (hD' l hl)]; simp) with ⟨q, hq, hv, -⟩ | hrest
        · exact ⟨q, hq, hgrow q hv⟩
        -- with both watches and the rest false the clause would not be open
        exfalso
        obtain ⟨a, -, -, ha, -⟩ := hcalm.core.db.exists_eq hact.1
        obtain ⟨q, hq, -, hv⟩ := rootStatus_open hopen (hcalm.core.db.nodup _ hact.1).of_map a
        have hvq : s.value q = some false := by
          rw [← List.take_append_drop 2 (s.literals (.long i))] at hq
          rcases List.mem_append.1 hq with hq | hq
          · exact hcalm.core.trail.done_value (hD' q hq)
          · exact (hrest q hq).1
        rw [hv] at hvq
        simp at hvq
      · obtain ⟨j, -, -, hmem⟩ := hunits _ hl
        exact ⟨l, (hexp.literals (.long i)) ▸ hmem, hholds _ hl⟩
    · have hsame : s₁.clauseIsShadow c = s.clauseIsShadow c := by
        cases c with
        | binary i => rfl
        | long i =>
          have hkeep : s₁.shadowStates i = s.shadowStates i := by
            rw [hstates, if_neg]
            · rfl
            rintro ⟨hi, hdue⟩
            have hdel := ((hactive _).1 hc).2
            rw [hdeleted] at hdel
            simp only [Bool.or_eq_false_iff, decide_eq_false_iff_not, not_and, not_not] at hdel
            refine hre' ⟨i, ?_, rfl⟩
            rw [hreacted, List.mem_filter]
            exact ⟨hi, by simp [hdue, hdel.2 hi hdue]⟩
          have hconfig' : s₁.config = s.config := hconfig₁
          simp only [clauseIsShadow, hkeep, hconfig']
      have hguard₃ : s₃.Guarded c := hguard.of_frame htrail (hexp.literals c) hsame
      refine hguard₃.of_extended henq.extended (fun l hl => ?_) (fun q => ?_) fun q => ?_
      · have hw₃ : s₃.watched c = s.watched c := congrArg (List.take 2) (hexp.literals c)
        have hl' : l ∈ s.watched c := by rwa [hw₃] at hl
        rw [htrail, hcalm.core.trail.done_value (hD' l hl')]
        simp
      · rw [henq.db]
      · rw [literals, henq.db]
        rfl
  · have hcases : ∃ i ∈ reactivated, c = .long i := by
      rcases henq.deferred c hc with hc | ⟨p, hp, rfl⟩
      · rcases hdef c hc with hc | hc
        · rw [hnone] at hc
          simp at hc
        · exact hc
      · obtain ⟨i, hi, he, -⟩ := hunits p hp
        exact ⟨i, hi, he⟩
    obtain ⟨i, hi, rfl⟩ := hcases
    exact hreactivated i hi
  · have hret : ∀ i ∈ retained, i ∈ s.shadowClauses ∧ O.shadowExpired s.clock i = false := by
      intro i hi
      rw [hretained] at hi
      simpa using hi
    have htidy : s₃.Tidy := by
      refine ⟨?_, fun i hi => ?_, fun _ => ?_⟩
      · show retained.Nodup
        rw [hretained]
        exact h.tidy.nodup.filter _
      · obtain ⟨hi, hdue⟩ := hret i hi
        show s₁.shadowStates i ≠ .active ∧ (s₁.clause (.long i)).deleted = false
        obtain ⟨h1, h2⟩ := h.tidy.observed i hi
        rw [hstates, hdeleted, if_neg (by simp [hdue])]
        have hd : (s.tick.clause (.long i)).deleted = false := h2
        exact ⟨h1, by simp [hd, hdue]⟩
      · show s₁.config.shadowClauseReactivation = true
        rw [hconfig₁]
        exact hconfig
    exact htidy.of_extended henq.extended

/-! ### Modes -/

namespace Vigilant

lemma restart (h : s.Vigilant W) (hcalm : Calm False Γ A s) (O : Oracle) : (s.restart O).Alert W := by
  obtain ⟨h1, -, h3⟩ := hcalm.restartReuseLevel O
  obtain ⟨ht, hdb, hsession⟩ := restartReuseLevel_frame O s
  rw [Solver.restart]
  generalize s.restartReuseLevel O = r at h1 h3 ht hdb hsession
  obtain ⟨level, s₁⟩ := r
  dsimp only at h1 h3 ht hdb hsession ⊢
  have hv₁ : s₁.Vigilant W := h.congr ht hdb (congrArg Session.config hsession)
  have hcalm₂ := (h1.cancelUntil O level).applyVotes O
  have hv₂ : ((s₁.cancelUntil O level).applyVotes O).Vigilant W :=
    (hv₁.cancelUntil h1.core O level).congr rfl rfl rfl
  split
  · next hconfig =>
    have hlevel : level = 0 := by
      refine h3 (s.config.shadow_never ?_)
      rw [← congrArg Session.config hsession,
        ← (cancelled_cancelUntil O s₁ level).config]
      exact hconfig
    refine hv₂.finalizeShadowClausesAtRoot hcalm₂ O hconfig ?_
    show (s₁.cancelUntil O level).decisionLevel = 0
    rw [cancelUntil_decisionLevel, hlevel, Nat.zero_min]
  · exact hv₂.alert hcalm₂.deferred

lemma rephase (h : s.Vigilant W) (hcalm : Calm False Γ A s) (O : Oracle) (phases : ℕ → Bool) :
    (s.rephase O phases).Alert W :=
  alert ((h.cancelUntil hcalm.core O 0).congr rfl rfl rfl) (hcalm.cancelUntil O 0).deferred

lemma changeBranching (h : s.Vigilant W) (hcalm : Calm False Γ A s) (O : Oracle) :
    (s.changeBranching O).Alert W := by
  have htick : s.tick.Vigilant W := h.congr rfl rfl rfl
  rw [Solver.changeBranching]
  split
  · exact alert (h.congr rfl rfl rfl) hcalm.deferred
  split
  · exact alert (h.congr rfl rfl rfl) hcalm.deferred
  split
  · exact htick.restart hcalm.tick O
  · exact htick.alert hcalm.deferred

lemma changeMode (h : s.Vigilant W) (hcalm : Calm False Γ A s) (O : Oracle) :
    (s.changeMode O).Alert W := by
  have htick : s.tick.Vigilant W := h.congr rfl rfl rfl
  rw [Solver.changeMode]
  split
  · split
    · exact htick.rephase hcalm.tick O _
    · exact htick.changeBranching hcalm.tick O
  · exact htick.changeBranching hcalm.tick O

end Vigilant

/-! ### After a conflict -/

/-- What propagation leaves behind with a conflict above the root. -/
structure Startled (W : Waiver) (c : ClauseRef) (s : Solver) : Prop where
  shielded : PropagateShielded W s (some c)
  tidy : s.Tidy

lemma Startled.congr (h : Startled W c s) (ht : s'.toTrailState = s.toTrailState)
    (hdb : s'.toClauseDb = s.toClauseDb) (hconfig : s'.config = s.config) : Startled W c s' :=
  ⟨h.shielded.congr ht hdb hconfig, h.tidy.congr hdb hconfig⟩

/-- The first literal of a learned clause waits for propagation. -/
lemma Unitary.vigilant {L : Learned} (h : Unitary False Γ A L s) (hv : s.Vigilant W) :
    (if L.others.isEmpty then (s.enqueue L.asserting none).2
      else ((s.addClauseToDb (L.asserting :: L.others) true).enqueue L.asserting
        (some (s.nextReference (L.asserting :: L.others)))).2).Vigilant W := by
  split
  · rw [enqueue, enqueueInternal_of_none true h.unassigned]
    exact ⟨hv.shielded.assign h.core.trail true h.unassigned none, hv.tidy.congr rfl rfl⟩
  · next hnil =>
    have hcore := h.stored (by simpa using hnil)
    have hun : (s.addClauseToDb (L.asserting :: L.others) true).value L.asserting = none :=
      h.unassigned
    rw [enqueue, enqueueInternal_of_none true hun]
    refine ⟨Shielded.assign ⟨hv.shielded.firm.addClauseToDb (by simp),
      hv.shielded.watchful.addClauseToDb h.core fun hD => ?_⟩ hcore.trail true hun _,
      (hv.tidy.addClauseToDb h.core).congr rfl rfl⟩
    have := h.core.trail.done_value (hD L.asserting (by simp))
    rw [h.unassigned] at this
    simp at this

lemma Startled.learn (h : Startled W c s) (hconf : Conflict Γ (exempt False) c s)
    (hA : Aligned A s.toTrailState) {L : Learned} (ha : Analyzed Γ s L s') (O : Oracle) :
    (s'.learn O L).Vigilant W := by
  have hadd : Analyzed Γ s L (s'.proofAdd (L.asserting :: L.others)) :=
    { ha with core := ha.core.congr rfl rfl rfl rfl rfl ha.core.branching }
  have h' : Startled W c (s'.proofAdd (L.asserting :: L.others)) :=
    h.congr ha.trail ha.db (congrArg Session.config ha.session)
  have hback : L.backtrackLevel < (s'.proofAdd (L.asserting :: L.others)).decisionLevel := by
    rw [hadd.trail]
    exact ha.backtrack
  obtain ⟨h1, h2, h3⟩ := determineBacktrackLevel_spec _ (L.asserting :: L.others).length hback
  have hu := hconf.unitary hA hadd O (by rwa [hadd.trail] at h2) h1 fun hnil => by
    rw [h3 (by simp [hnil])]
    exact ha.unit hnil
  have hc := cancelled_cancelUntil O (s'.proofAdd (L.asserting :: L.others))
    ((s'.proofAdd (L.asserting :: L.others)).determineBacktrackLevel L.backtrackLevel
      (L.asserting :: L.others).length)
  exact hu.vigilant ⟨h'.shielded.cancelUntil hadd.core O h2, h'.tidy.congr hc.db hc.config⟩

/-! ### The loop -/

/-- What holds where `propagate` is called: a deferred conflict is an active clause that is false
at the root; without one every clause is watched, or there is a false one that an unstopped
propagation finds. -/
structure Attentive (W : Waiver) (Γ : Set (List Lit)) (s : Solver) : Prop where
  core : Core Γ s
  covered : Covered W s
  shielded : s.shadowDeferredRootConflict = none → s.Shielded W ∨
    s.Pending ∧ s.searchControlActive = false
  deferred : ∀ c, s.shadowDeferredRootConflict = some c → s.Active c ∧ s.clauseIsShadow c = false
  root : s.shadowDeferredRootConflict ≠ none → s.decisionLevel = 0

/-- **Propagation is correct.** -/
lemma Attentive.propagate (h : Attentive W Γ s) (O : Oracle) :
    PropagationCorrect s (s.propagate O).1 (s.propagate O).2 := by
  rw [Solver.propagate]
  cases hd : s.shadowDeferredRootConflict with
  | some c =>
    obtain ⟨hc, hf⟩ := h.core.deferred c hd
    obtain ⟨hact, hsh⟩ := h.deferred c hd
    obtain ⟨a, b, rest, hab, -⟩ := h.core.db.exists_eq hact.1
    have ha : a ∈ s.literals c := by rw [literals, hab]; simp
    refine ⟨by simp, ?_, fun i l hi hn => absurd (List.mem_of_getElem? hi) hn⟩
    rintro d hd'
    obtain rfl : c = d := Option.some.inj hd'
    exact ⟨hact, hsh, fun q hq => (hf.2 q hq).1, a, ha,
      (hf.2 a ha).2.trans (h.root (by simp [hd])).symm⟩
  | none =>
    rcases h.shielded hd with hw | ⟨hpend, hctl⟩
    · exact hw.correct h.covered h.core O rfl
    · obtain ⟨hp, hok⟩ := propagateInternal_spec (X := fun _ _ => True) O h.core
        (fun _ _ _ _ hX => absurd trivial hX)
        (fun (c : ClauseRef) (l : Lit) (_ : PropagationMode.ignored {} = some c) _ => trivial)
      have hne : (s.propagateInternal O {}).1 ≠ none := propagateInternal_pending
        (X := fun _ _ => True) O h.core (fun _ _ _ _ hX => absurd trivial hX) hctl hpend rfl
      dsimp only
      generalize s.propagateInternal O {} = r at hp hok hne
      obtain ⟨conflict, s'⟩ := r
      cases conflict with
      | none => exact absurd rfl hne
      | some c =>
        have hconf : Conflict Γ _ c s' := hok
        exact ⟨by simp, fun d hd => Option.some.inj hd ▸ hconf.correct,
          fun i l hi hn => hp.implied_correct h.core hconf.core hi hn⟩

lemma Attentive.of_alert (h : s.Alert W) (hcov : Covered W s) (he : Engaged Γ s) :
    Attentive W Γ s where
  core := he.searching.core
  covered := hcov
  shielded hd := .inl (h.shielded hd)
  deferred := h.deferred
  root := he.searching.rooted

lemma Alert.congr (h : s.Alert W) (ht : s'.toTrailState = s.toTrailState)
    (hdb : s'.toClauseDb = s.toClauseDb) (hconfig : s'.config = s.config)
    (hd : s'.shadowDeferredRootConflict = s.shadowDeferredRootConflict) : s'.Alert W := by
  refine ⟨fun hn => (h.shielded (hd ▸ hn)).congr ht hdb hconfig, fun c hc => ?_,
    h.tidy.congr hdb hconfig⟩
  obtain ⟨h1, h2⟩ := h.deferred c (hd ▸ hc)
  refine ⟨by rwa [hdb], ?_⟩
  cases c with
  | binary i => rfl
  | long i => simpa only [clauseIsShadow, hdb, hconfig] using h2

lemma Alert.poll (h : s.Alert W) (O : Oracle) : (s.pollSearchStop O).2.Alert W := by
  obtain ⟨n, r, he⟩ := poll_eq O s
  rw [he]
  exact h.congr rfl rfl rfl rfl

/-- Between the operations of a consistent solver. -/
structure Dormant (W : Waiver) (s : Solver) : Prop where
  shielded : s.shadowDeferredRootConflict = none → s.Shielded W ∨ s.Pending
  deferred : ∀ c, s.shadowDeferredRootConflict = some c → s.Active c ∧ s.clauseIsShadow c = false
  tidy : s.Tidy

lemma Alert.dormant (h : s.Alert W) : s.Dormant W :=
  ⟨fun hd => .inl (h.shielded hd), h.deferred, h.tidy⟩

lemma Dormant.cancelUntil (h : s.Dormant W) (hcore : Core Γ s) (O : Oracle) (level : ℕ) :
    (s.cancelUntil O level).Dormant W := by
  have hc := cancelled_cancelUntil O s level
  refine ⟨fun hd => ?_, fun c hd => ?_, h.tidy.congr hc.db hc.config⟩
  · rw [hc.deferred] at hd
    exact (h.shielded hd).imp (fun hw => hw.cancelUntil hcore O level)
      fun hp => hp.cancelUntil hcore O level
  · rw [hc.deferred] at hd
    obtain ⟨h1, h2⟩ := h.deferred c hd
    exact ⟨by rwa [hc.db], (hc.isShadow c).trans h2⟩

/-- A decision opens a level. -/
lemma Vigilant.decideOn {n : ℕ} {E : Set ℕ} (h : s.Vigilant W) (ht : s.toTrailState.Ok n E)
    (hhead : s.propagationHead = s.trail.length) (savePhase : Bool) (hl : s.value l = none) :
    (s.newLevel.assign savePhase l none).Vigilant W :=
  ⟨h.shielded.newLevel.assign (ht.newLevel hhead) savePhase hl none, h.tidy.congr rfl rfl⟩

/-- What becomes of the watches in an iteration.  A stop may discard a conflict at the root; that
is told apart by the condition. -/
def IterationAlert (W : Waiver) (O : Oracle) (kept : Prop) : SearchOutcome → Prop
  | .continue s => s.Alert W
  | .answer (.unknown _) s => kept → (s.cancelUntil O 0).Dormant W
  | .answer _ s => s.consistent = true → s.Dormant W

lemma Vigilant.extendTrail (h : s.Vigilant W) (hcalm : Calm False Γ [] s)
    (hhead : s.propagationHead = s.trail.length) {kept : Prop} (O : Oracle)
    {outcome : SearchOutcome} (he : s.extendTrail O A = some outcome) :
    IterationAlert W O kept outcome := by
  have ht := hcalm.core.trail
  rw [Solver.extendTrail] at he
  split at he
  · next a ha =>
    split at he
    · obtain rfl := Option.some.inj he
      exact Vigilant.alert ⟨h.shielded.newLevel, h.tidy.congr rfl rfl⟩ hcalm.deferred
    · obtain ⟨seen, hs, -⟩ := analyzeFailedAssumption_frame hcalm.core a A
      split at he
      next core s₁ heq =>
      rw [heq] at hs
      dsimp only at hs
      obtain rfl := Option.some.inj he
      subst hs
      exact fun _ => Alert.dormant (Vigilant.alert (h.congr rfl rfl rfl) hcalm.deferred)
    · next hv =>
      obtain rfl := Option.some.inj he
      rw [enqueueInternal_none false hv none]
      exact (h.decideOn ht hhead false hv).alert hcalm.deferred
  · have hpick := pickBranchLiteral_spec O hcalm.core
    split at he
    · next l s₁ hl =>
      rw [hl] at hpick
      obtain rfl := Option.some.inj he
      have hv : s₁.value l = none := by
        rw [hpick.trail]
        exact TrailState.value_eq_none_iff.2 (hpick.picked l.var rfl).2
      have h₁ : s₁.Vigilant W := h.congr hpick.trail hpick.db (congrArg Session.config hpick.session)
      rw [enqueue, enqueueInternal_none true hv]
      exact (h₁.decideOn (by rw [hpick.trail]; exact ht) (by rw [hpick.trail]; exact hhead) true
        hv).alert (hpick.deferred.trans hcalm.deferred)
    · next s₁ hl =>
      rw [hl] at hpick
      rw [Option.map_eq_some_iff] at he
      obtain ⟨model, -, rfl⟩ := he
      exact fun _ => Alert.dormant (Vigilant.alert (h.congr hpick.trail hpick.db
        (congrArg Session.config hpick.session)) (hpick.deferred.trans hcalm.deferred))

/-- What propagation comes to in the loop. -/
inductive AlertCase (W : Waiver) (s : Solver) : Option ClauseRef → Prop
  | refuted (c : ClauseRef) (active : s.Active c) (visible : s.clauseIsShadow c = false)
      (falsified : s.Falsified c) (tidy : s.Tidy) (root : s.decisionLevel = 0)
      (deferred : s.shadowDeferredRootConflict = none) : AlertCase W s (some c)
  | conflict (c : ClauseRef) (startled : Startled W c s) (above : 0 < s.decisionLevel)
      (deferred : s.shadowDeferredRootConflict = none) : AlertCase W s (some c)
  | done (vigilant : s.Vigilant W) (deferred : s.shadowDeferredRootConflict = none) :
    AlertCase W s none

lemma Alert.propagateCase (h : s.Alert W) (hcov : Covered W s) (he : Engaged Γ s) (O : Oracle) :
    AlertCase W (s.propagate O).2 (s.propagate O).1 := by
  have hcorrect := (Attentive.of_alert h hcov he).propagate O
  have hlevel := (he.propagate O).2
  rw [Solver.propagate] at hcorrect hlevel ⊢
  cases hd : s.shadowDeferredRootConflict with
  | some c =>
    obtain ⟨h1, h2⟩ := h.deferred c hd
    exact .refuted c h1 h2 (fun q hq => ((he.searching.core.deferred c hd).2.2 q hq).1)
      (h.tidy.congr rfl rfl) (he.searching.rooted (by simp [hd])) rfl
  | none =>
    rw [hd] at hcorrect hlevel
    dsimp only at hcorrect hlevel ⊢
    obtain ⟨hp, -⟩ := propagateInternal_spec (X := fun _ _ => True) O he.searching.core
      (fun _ _ _ _ hX => absurd trivial hX)
      (fun (c : ClauseRef) (l : Lit) (_ : PropagationMode.ignored {} = some c) _ => trivial)
    have hw : PropagateShielded W (s.propagateInternal O {}).2 (s.propagateInternal O {}).1 :=
      (h.shielded hd).propagateInternal he.searching.core O rfl
    generalize s.propagateInternal O {} = r at hp hw hcorrect hlevel
    obtain ⟨conflict, s'⟩ := r
    dsimp only at hp hw hcorrect hlevel ⊢
    have hdef : s'.shadowDeferredRootConflict = none := hp.deferred.trans hd
    have htidy := h.tidy.of_extended hp.toExtended
    cases conflict with
    | none => exact .done ⟨⟨hw.firm, hw.watchful⟩, htidy⟩ hdef
    | some c =>
      obtain ⟨h1, h2, h3, -⟩ := hcorrect.conflict c rfl
      rcases Nat.eq_zero_or_pos s'.decisionLevel with h0 | h0
      · exact .refuted c h1 h2 h3 htidy h0 hdef
      · exact .conflict c ⟨hw, htidy⟩ h0 hdef

lemma AlertCase.poll {conflict : Option ClauseRef} (h : AlertCase W s conflict) (O : Oracle) :
    AlertCase W (s.pollSearchStop O).2 conflict := by
  obtain ⟨n, r, he⟩ := poll_eq O s
  rw [he]
  cases h with
  | refuted c h1 h2 h3 h4 h5 h6 => exact .refuted c h1 h2 h3 (h4.congr rfl rfl) h5 h6
  | conflict c h1 h2 h3 => exact .conflict c (h1.congr rfl rfl rfl) h2 h3
  | done h1 h2 => exact .done (h1.congr rfl rfl rfl) h2

/-- The iteration is stopped right after a propagation that found a false clause at the root both
watches of which have been propagated. -/
def Discards (O : Oracle) (s : Solver) : Prop :=
  ∃ c s₁ s₂ r, s.pollSearchStop O = (none, s₁) ∧ s₁.propagate O = (some c, s₂) ∧
    s₂.decisionLevel = 0 ∧ (∀ l ∈ s₂.watched c, s₂.Done l) ∧ (s₂.pollSearchStop O).1 = some r

lemma Startled.resolve (h : Startled W c s) (hconf : Conflicting Γ c s) (O : Oracle)
    {outcome : SearchOutcome} (he : s.resolveConflict O c = some outcome) {kept : Prop} :
    IterationAlert W O kept outcome := by
  obtain ⟨L, s₁, hs₁, -, ha⟩ := hconf.countConflict.analyze O
  rw [Solver.resolveConflict, if_neg (show ¬ ({ s with conflicts := s.conflicts + 1 } :
    Solver).decisionLevel = 0 from Nat.ne_of_gt hconf.level)] at he
  rw [Solver.countConflict] at hs₁
  rw [hs₁] at he
  obtain rfl := Option.some.inj he
  have h' : Startled W c s.countConflict := h.congr rfl rfl rfl
  have hcconf := hconf.countConflict.conflict
  obtain ⟨h1, h2, h3, -, h5⟩ := hcconf.learn (aligned_nil _) ha O
  have hcalm : Calm False Γ [] (s₁.learn O L) := ⟨h1, h2, h3, h5.trans hconf.deferred⟩
  exact ((h'.learn hcconf (aligned_nil _) ha O).reduceDatabase O).changeMode
    (hcalm.reduceDatabase O).1 O

/-- A false clause at the root one watch of which waits is pending. -/
lemma Core.pending (h : Core Γ s) (h0 : s.decisionLevel = 0) (hc : s.Active c)
    (hsh : s.clauseIsShadow c = false) (hf : s.Falsified c) (hw : ¬ ∀ l ∈ s.watched c, s.Done l) :
    s.Pending := by
  push Not at hw
  exact ⟨c, hc, hsh, fun q hq => ⟨hf q hq, h.level_root h0 (h.active_var hc hq) (by
    rw [hf q hq]
    simp)⟩, hw⟩

/-- **One iteration of the loop** lets no clause escape, unless it discards a conflict. -/
lemma Alert.searchStep (h : s.Alert W) (hcov : Covered W s) (he : Engaged Γ s) (O : Oracle) {outcome : SearchOutcome}
    (hstep : s.searchStep O A = some outcome) : IterationAlert W O (¬ Discards O s) outcome := by
  have h₁ := h.poll O
  have he₁ := he.poll O
  have hcov₁ : Covered W (s.pollSearchStop O).2 := by
    obtain ⟨n, r, hpoll⟩ := poll_eq O s
    rw [hpoll]
    exact hcov.of_retained (.of_eq rfl rfl)
  have hdiscards : ∀ c s₂ r, (s.pollSearchStop O).1 = none →
      (s.pollSearchStop O).2.propagate O = (some c, s₂) → s₂.decisionLevel = 0 →
      (∀ l ∈ s₂.watched c, s₂.Done l) → (s₂.pollSearchStop O).1 = some r → Discards O s :=
    fun c s₂ r hp hc h0 hw hr => ⟨c, _, s₂, r, Prod.ext hp rfl, hc, h0, hw, hr⟩
  rw [Solver.searchStep] at hstep
  generalize s.pollSearchStop O = p₁ at hstep h₁ he₁ hcov₁ hdiscards
  obtain ⟨r₁, s₁⟩ := p₁
  cases r₁ with
  | some r =>
    obtain rfl := Option.some.inj hstep
    exact fun _ => h₁.dormant.cancelUntil he₁.searching.core O 0
  | none =>
  dsimp only at hstep h₁ he₁ hcov₁ hdiscards
  have hcase := he₁.propagateCase O
  have halert := h₁.propagateCase hcov₁ he₁ O
  generalize s₁.propagate O = p₂ at hstep hcase halert hdiscards
  obtain ⟨conflict, s₂⟩ := p₂
  dsimp only at hstep hcase halert
  obtain ⟨hcore₃, -, hcase'⟩ := hcase.poll O
  have halert₃ := halert.poll O
  have hdiscards : ∀ c r, conflict = some c → (s₂.pollSearchStop O).2.decisionLevel = 0 →
      (∀ l ∈ (s₂.pollSearchStop O).2.watched c, (s₂.pollSearchStop O).2.Done l) →
      (s₂.pollSearchStop O).1 = some r → Discards O s := fun c r hc h0 hw hr => by
    obtain ⟨n, r', hs₃⟩ := poll_eq O s₂
    rw [hs₃] at h0 hw
    exact hdiscards c s₂ r rfl (by rw [hc]) h0 hw hr
  generalize s₂.pollSearchStop O = p₃ at hstep hcore₃ hcase' hdiscards halert₃
  obtain ⟨r₃, s₃⟩ := p₃
  dsimp only at hcore₃ hcase' halert₃
  cases r₃ with
  | some r =>
    obtain rfl := Option.some.inj hstep
    intro hkeeps
    cases halert₃ with
    | refuted c hact hsh hf htidy h0 hd =>
      have hpend : s₃.Pending := hcore₃.pending h0 hact hsh hf fun hw =>
        hkeeps (hdiscards c r rfl h0 hw rfl)
      exact Dormant.cancelUntil ⟨fun _ => .inr hpend, by simp [hd], htidy⟩ hcore₃ O 0
    | conflict c hst habove hd =>
      have hc := cancelled_cancelUntil O s₃ 0
      exact Alert.dormant (Vigilant.alert ⟨hst.shielded.cancelUntil hcore₃ O habove,
        hst.tidy.congr hc.db hc.config⟩ (hc.deferred.trans hd))
    | done hv hd => exact (hv.alert hd).dormant.cancelUntil hcore₃ O 0
  | none =>
  obtain ⟨hcase', hhead⟩ := hcase' rfl
  cases hcase' with
  | refuted c _ h0 _ _ =>
    have hroot : s₃.resolveConflict O c = some (.answer .unsat
        { ({ s₃ with conflicts := s₃.conflicts + 1 } : Solver) with consistent := false }) := by
      rw [resolveConflict]
      exact if_pos h0
    obtain rfl := Option.some.inj (hroot.symm.trans hstep)
    exact fun hc => by simp at hc
  | conflict c _ hconf _ =>
    cases halert₃ with
    | refuted _ _ _ _ _ h0 _ => exact absurd h0 (Nat.ne_of_gt hconf.level)
    | conflict _ hst _ _ => exact hst.resolve hconf O hstep
  | done _ hcalm hj _ _ =>
    cases halert₃ with
    | done hv hd => exact hv.extendTrail hcalm (hhead rfl) O hstep

end Solver

end Satrap
