/-
# Clauses enter the database

Storing an entailed clause keeps the invariant.  Until one of its literals has been enqueued
the new clause may violate the watch invariant, so it is exempt for that time.  A learned
clause enters together with the assignment of its first literal, after the level of the
conflict has been left.
-/
import Satrap.Solver.Learning

namespace Satrap

open Logic

namespace Solver

variable {Γ Δ : Set (List Lit)} {O : Oracle} {s s' : Solver} {c : ClauseRef} {l q : Lit}
  {D : Lit → Prop} {X Y : ClauseRef → Lit → Prop} {literals : List Lit} {learned : Bool}

/-! ### Frames -/

/-- Whatever is entailed stays so when clauses are added. -/
lemma Core.mono (h : Core Γ s) (hsub : Γ ⊆ Δ) : Core Δ s :=
  { h with
    entailed := fun c hc => (h.entailed c hc).mono hsub
    root := fun l hl h0 => (h.root l hl h0).mono hsub }

/-- The invariant does not depend on what only steers the search. -/
lemma Core.congr (h : Core Γ s) (ht : s'.toTrailState = s.toTrailState)
    (hdb : s'.toClauseDb = s.toClauseDb) (hsession : s'.toSession = s.toSession)
    (hdeferred : s'.shadowDeferredRootConflict = s.shadowDeferredRootConflict)
    (hseen : s'.seen = s.seen)
    (hb : s'.toBranching.Ok s.variableCount s.assignments s.usesTransferBranching) :
    Core Γ s' := by
  obtain ⟨t', db', b', w', ss'⟩ := s'
  obtain ⟨_, seen', _, d', _, _, _, _, _, _, _, _⟩ := w'
  dsimp only at ht hdb hsession hdeferred hseen hb
  subst ht hdb hsession hdeferred hseen
  exact ⟨h.trail, h.db, h.reason, h.entailed, h.root, h.deferred, hb, h.seen⟩

lemma SettledAt.congr (h : s.SettledAt D c l) (ht : s'.toTrailState = s.toTrailState)
    (hdb : s'.toClauseDb = s.toClauseDb) (hconfig : s'.config = s.config) :
    s'.SettledAt D c l := by
  have hsh : s'.clauseIsShadow c = s.clauseIsShadow c := by
    cases c with
    | binary i => rfl
    | long i => simp only [clauseIsShadow, hdb, hconfig]
  obtain ⟨h1, h2, h3⟩ := h
  refine ⟨?_, ?_, ?_⟩ <;>
    simpa only [hsh, literals, RootTrue, RootFalse, ht, hdb] using by assumption

lemma Settled.congr (h : s.Settled D X) (ht : s'.toTrailState = s.toTrailState)
    (hdb : s'.toClauseDb = s.toClauseDb) (hconfig : s'.config = s.config) :
    s'.Settled D X := fun c hc l hl hX hD =>
  (h c (hdb ▸ hc) l (hdb ▸ hl) hX hD).congr ht hdb hconfig

/-- The watch invariant in a state with the same trail and clauses. -/
lemma Settled.congr_done (h : s.Settled s.Done X) (ht : s'.toTrailState = s.toTrailState)
    (hdb : s'.toClauseDb = s.toClauseDb) (hconfig : s'.config = s.config) :
    s'.Settled s'.Done X := by
  rw [ht]
  exact h.congr ht hdb hconfig

/-! ### Assignments -/

lemma Settled.assign (hset : s.Settled s.Done X) (h : Core Γ s) (savePhase : Bool)
    (hl : s.value l = none) (r : Option ClauseRef) :
    (s.assign savePhase l r).Settled (s.assign savePhase l r).Done X := by
  intro c hc q hq hX hD
  have hD' := (TrailState.done_push h.trail r).1 hD
  have hv : s.value q ≠ none := by rw [h.trail.done_value hD']; simp
  have hs : (s.assign savePhase l r).SettledAt s.Done c q :=
    (hset c hc q hq hX hD').of_extended (extended_assign s savePhase hl r) hv (fun _ => .rfl)
      (fun _ => .rfl)
  exact hs.mono fun p => (TrailState.done_push h.trail r).2

/-- An exemption ends when the clause is found harmless. -/
lemma Settled.unexempt (hset : s.Settled D Y)
    (hnew : ∀ c, s.Active c → ∀ l ∈ s.watched c, Y c l → ¬ X c l → D l → s.SettledAt D c l) :
    s.Settled D X := by
  intro c hc l hl hX hD
  by_cases hY : Y c l
  · exact hnew c hc l hl hY hX hD
  · exact hset c hc l hl hY hD

/-! ### Storing -/

lemma literals_addClauseToDb (hc : s.Allocated c) :
    (s.addClauseToDb literals learned).literals c = s.literals c := by
  show ((s.toClauseDb.add literals learned).clause c).literals = _
  rw [ClauseDb.add_clause_of_allocated hc]
  rfl

lemma literals_addClauseToDb_next :
    (s.addClauseToDb literals learned).literals (s.nextReference literals) = literals := by
  show ((s.toClauseDb.add literals learned).clause (s.nextReference literals)).literals = _
  rw [ClauseDb.add_clause_next]

lemma Core.addClauseToDb (h : Core Γ s) (hlen : 2 ≤ literals.length)
    (hnodup : (literals.map Literal.var).Nodup) (hlt : ∀ l ∈ literals, l.var < s.variableCount)
    (havoid : ∀ l ∈ literals, l.var ∉ s.eliminatedVariables) (he : Entails Γ literals) :
    Core Γ (s.addClauseToDb literals learned) where
  trail := h.trail
  db := h.db.add hlen hnodup hlt havoid
  reason i l c hl hr := by
    obtain ⟨h1, h2, h3⟩ := h.reason i l c hl hr
    rw [literals_addClauseToDb h1]
    exact ⟨ClauseDb.allocated_add.2 (.inl h1), h2, h3⟩
  entailed c hc := by
    rcases ClauseDb.allocated_add.1 hc with hc | rfl
    · rw [literals_addClauseToDb hc]
      exact h.entailed c hc
    · rw [literals_addClauseToDb_next]
      exact he
  root := h.root
  deferred c hc := by
    obtain ⟨h1, hle, h2⟩ := h.deferred c hc
    have hclause : (s.addClauseToDb literals learned).clause c = s.clause c :=
      ClauseDb.add_clause_of_allocated h1
    rw [literals_addClauseToDb h1, hclause]
    exact ⟨ClauseDb.allocated_add.2 (.inl h1), hle, h2⟩
  branching := h.branching
  seen := h.seen

lemma isShadow_addClauseToDb :
    (s.addClauseToDb literals learned).clauseIsShadow c = s.clauseIsShadow c := by
  cases c with
  | binary i => rfl
  | long i =>
    show (s.config.shadowClauseReactivation &&
      decide ((s.toClauseDb.add literals learned).shadowStates i ≠ .active)) = _
    rw [ClauseDb.add_shadowStates]
    rfl

lemma Core.not_isShadow_next (h : Core Γ s) :
    s.clauseIsShadow (s.nextReference literals) = false := by
  cases hn : s.nextReference literals with
  | binary i => rfl
  | long i =>
    by_cases hst : s.shadowStates i = .active
    · simp [clauseIsShadow, hst]
    · exfalso
      refine ClauseDb.not_allocated_next s.toClauseDb literals ?_
      rw [hn]
      exact (h.db.shadow i hst).1

/-- The new clause is exempt until it has been looked at. -/
lemma Settled.addClauseToDb (hset : s.Settled D X) :
    (s.addClauseToDb literals learned).Settled D
      fun c l => X c l ∨ c = s.nextReference literals := by
  intro c hc l hl hX hD
  obtain ⟨hX, hcn⟩ := not_or.1 hX
  have hc' : s.Active c := (ClauseDb.active_add.1 hc).resolve_right hcn
  have hclause : (s.addClauseToDb literals learned).clause c = s.clause c :=
    ClauseDb.add_clause_of_allocated hc'.1
  have hl' : l ∈ s.watched c := by
    rw [ClauseDb.watched, ← hclause]
    exact hl
  obtain ⟨h1, h2, h3⟩ := hset c hc' l hl' hX hD
  have hlits : (s.addClauseToDb literals learned).literals c = s.literals c :=
    literals_addClauseToDb hc'.1
  refine ⟨?_, ?_, ?_⟩
  · rw [hclause, hlits]
    exact h1
  · rw [isShadow_addClauseToDb, RootTrue, hlits, ClauseDb.watched, hclause]
    exact h2
  · rw [isShadow_addClauseToDb, RootTrue, hlits]
    exact h3

end Solver

end Satrap
