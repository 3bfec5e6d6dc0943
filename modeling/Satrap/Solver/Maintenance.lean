/-
# Clause deletion, restarts and mode changes

What follows a learned clause: the database is reduced, and the phases, the branching mode or
the trail are reset.  None of this touches original clauses, root assignments or the watch
invariant, with one exception: a clause that was only observed may be reactivated when it is
already false.  Such a clause is handed over as a deferred conflict, so the search does not
go on with it.
-/
import Satrap.Solver.Descent

namespace Satrap

open Logic

namespace Solver

variable {P : Prop}
variable {Γ : Set (List Lit)} {O : Oracle} {s s' : Solver} {c d : ClauseRef} {l q : Lit}
  {A : List Lit} {D : Lit → Prop} {X Y : ClauseRef → Lit → Prop}

/-- The search goes on from a state without a deferred conflict. -/
structure Calm (P : Prop) (Γ : Set (List Lit)) (A : List Lit) (s : Solver) : Prop where
  core : Core Γ s
  aligned : Aligned A s.toTrailState
  settled : s.Settled s.Done (exempt P)
  deferred : s.shadowDeferredRootConflict = none

/-- Only what steers the search has changed. -/
lemma Calm.congr (h : Calm P Γ A s) (ht : s'.toTrailState = s.toTrailState)
    (hdb : s'.toClauseDb = s.toClauseDb) (hsession : s'.toSession = s.toSession)
    (hdeferred : s'.shadowDeferredRootConflict = s.shadowDeferredRootConflict)
    (hseen : s'.seen = s.seen)
    (hb : s'.toBranching.Ok s.variableCount s.assignments s.usesTransferBranching) :
    Calm P Γ A s' where
  core := h.core.congr ht hdb hsession hdeferred hseen hb
  aligned := ht ▸ h.aligned
  settled := h.settled.congr_done ht hdb (congrArg Session.config hsession)
  deferred := hdeferred.trans h.deferred

lemma Calm.cancelUntil (h : Calm P Γ A s) (O : Oracle) (level : ℕ) :
    Calm P Γ A (s.cancelUntil O level) where
  core := h.core.cancelUntil O level
  aligned := h.aligned.cancelUntil h.core O level
  settled := h.settled.cancelUntil_done h.core O level
  deferred := (cancelled_cancelUntil O s level).deferred.trans h.deferred

/-! ### Deletion -/

lemma literals_markClauseDeleted : (s.markClauseDeleted c).literals d = s.literals d :=
  ClauseDb.delete_literals

lemma isShadow_markClauseDeleted : (s.markClauseDeleted c).clauseIsShadow d = s.clauseIsShadow d := by
  cases d <;> rfl

lemma Core.markClauseDeleted (h : Core Γ s) (c : ClauseRef) : Core Γ (s.markClauseDeleted c) where
  trail := h.trail
  db := h.db.delete c
  reason i l d hl hr := by
    obtain ⟨h1, h2, h3⟩ := h.reason i l d hl hr
    rw [literals_markClauseDeleted]
    exact ⟨ClauseDb.allocated_delete.2 h1, h2, h3⟩
  entailed d hd := by
    rw [literals_markClauseDeleted]
    exact h.entailed d (ClauseDb.allocated_delete.1 hd)
  root := h.root
  deferred d hd := by
    obtain ⟨h1, hle, h2⟩ := h.deferred d hd
    rw [literals_markClauseDeleted]
    exact ⟨ClauseDb.allocated_delete.2 h1, ClauseDb.delete_learned.trans hle, h2⟩
  branching := h.branching
  seen := h.seen

lemma Settled.markClauseDeleted (hset : s.Settled D X) (c : ClauseRef) :
    (s.markClauseDeleted c).Settled D fun d l => X d l ∨ d = c := by
  intro d hd l hl hX hD
  obtain ⟨hX, hdc⟩ := not_or.1 hX
  have hclause : (s.markClauseDeleted c).clause d = s.clause d := by
    show (s.toClauseDb.delete c).clause d = s.clause d
    rw [ClauseDb.delete_clause, if_neg hdc]
  have hl' : l ∈ s.watched d := by
    rw [ClauseDb.watched, ← hclause]
    exact hl
  obtain ⟨h1, h2, h3⟩ := hset d (ClauseDb.active_delete.1 hd).1 l hl' hX hD
  refine ⟨?_, ?_, ?_⟩
  · rw [hclause, literals_markClauseDeleted]
    exact h1
  · rw [isShadow_markClauseDeleted, RootTrue, literals_markClauseDeleted, ClauseDb.watched, hclause]
    exact h2
  · rw [isShadow_markClauseDeleted, RootTrue, literals_markClauseDeleted]
    exact h3

/-- The deleted clause needs no exemption. -/
lemma Settled.markClauseDeleted' (hset : s.Settled D X) (c : ClauseRef) :
    (s.markClauseDeleted c).Settled D X := by
  refine (hset.markClauseDeleted c).unexempt fun d hd l _ hY hX _ => ?_
  exact absurd (hY.resolve_left hX) (ClauseDb.active_delete.1 hd).2

lemma Kept.markClauseDeleted (hl : (s.clause c).learned = true) :
    Kept s (s.markClauseDeleted c) where
  original d hd := by
    have hdc : d ≠ c := by
      rintro rfl
      rw [hd.2] at hl
      simp at hl
    refine ⟨⟨ClauseDb.active_delete.2 ⟨hd.1, hdc⟩, ?_⟩, ?_⟩
    · rw [← hd.2]
      exact ClauseDb.delete_learned
    · rw [literals_markClauseDeleted]
  root l hl h0 := ⟨hl, h0⟩
  session := rfl

lemma Calm.markClauseDeleted (h : Calm P Γ A s) (c : ClauseRef) :
    Calm P Γ A (s.markClauseDeleted c) where
  core := h.core.markClauseDeleted c
  aligned := h.aligned
  settled := h.settled.markClauseDeleted' c
  deferred := h.deferred

lemma learned_markClauseDeleted :
    ((s.markClauseDeleted c).clause d).learned = (s.clause d).learned :=
  ClauseDb.delete_learned

/-- Deleting learned clauses. -/
lemma Calm.foldl_markClauseDeleted : ∀ (cs : List ClauseRef) (s : Solver), Calm P Γ A s →
    (∀ c ∈ cs, (s.clause c).learned = true) →
    Calm P Γ A (cs.foldl Solver.markClauseDeleted s) ∧ Kept s (cs.foldl Solver.markClauseDeleted s) ∧
      ∀ d, ((cs.foldl Solver.markClauseDeleted s).clause d).learned = (s.clause d).learned := by
  intro cs
  induction cs with
  | nil => exact fun s h _ => ⟨h, .refl s, fun _ => rfl⟩
  | cons c cs ih =>
    intro s h hl
    obtain ⟨h1, h2, h3⟩ := ih (s.markClauseDeleted c) (h.markClauseDeleted c) fun d hd => by
      rw [learned_markClauseDeleted]
      exact hl d (by simp [hd])
    exact ⟨h1, (Kept.markClauseDeleted (hl c (by simp))).trans h2, fun d =>
      (h3 d).trans learned_markClauseDeleted⟩

/-! ### Observation -/

/-- The observation state of a clause changes. -/
def setShadow (s : Solver) (i : ℕ) (state : ShadowState) : Solver :=
  { s with shadowStates := Function.update s.shadowStates i state }

lemma isShadow_setShadow {i : ℕ} {state : ShadowState} (hc : c ≠ .long i) :
    (s.setShadow i state).clauseIsShadow c = s.clauseIsShadow c := by
  cases c with
  | binary j => rfl
  | long j =>
    have hj : j ≠ i := fun he => hc (he ▸ rfl)
    simp [clauseIsShadow, setShadow, Function.update_of_ne hj]

lemma Core.setShadow (h : Core Γ s) {i : ℕ} {state : ShadowState}
    (hi : state ≠ .active → i < s.longCount ∧ (s.clause (.long i)).learned) :
    Core Γ (s.setShadow i state) where
  trail := h.trail
  db := by
    refine ⟨h.db.length, h.db.nodup, h.db.lt, h.db.avoid, h.db.sound, h.db.complete, h.db.once,
      fun j hj => ?_, h.db.observed⟩
    have hj' : Function.update s.shadowStates i state j ≠ .active := hj
    by_cases hji : j = i
    · rw [hji, Function.update_self] at hj'
      exact hji ▸ hi hj'
    · rw [Function.update_of_ne hji] at hj'
      exact h.db.shadow j hj'
  reason := h.reason
  entailed := h.entailed
  root := h.root
  deferred := h.deferred
  branching := h.branching
  seen := h.seen

lemma Settled.setShadow (hset : s.Settled D X) (i : ℕ) (state : ShadowState) :
    (s.setShadow i state).Settled D fun c l => X c l ∨ c = .long i := by
  intro c hc l hl hX hD
  obtain ⟨hX, hci⟩ := not_or.1 hX
  obtain ⟨h1, h2, h3⟩ := hset c hc l hl hX hD
  refine ⟨h1, ?_, ?_⟩ <;> rw [isShadow_setShadow hci]
  · exact h2
  · exact h3

lemma Calm.beginShadowObservation (h : Calm P Γ A s) {i : ℕ} (hi : i < s.longCount)
    (hl : (s.clause (.long i)).learned = true) : Calm P Γ A (s.beginShadowObservation i) := by
  have hcore : Core Γ (s.setShadow i .observing) := h.core.setShadow fun _ => ⟨hi, hl⟩
  refine ⟨⟨hcore.trail, ?_, hcore.reason, hcore.entailed, hcore.root, hcore.deferred,
    hcore.branching, hcore.seen⟩, h.aligned, ?_, h.deferred⟩
  · refine ⟨hcore.db.length, hcore.db.nodup, hcore.db.lt, hcore.db.avoid, hcore.db.sound,
      hcore.db.complete, hcore.db.once, hcore.db.shadow, fun j hj => ?_⟩
    rcases List.mem_append.1 hj with hj | hj
    · exact h.core.db.observed j hj
    · rw [List.mem_singleton.1 hj]
      exact ⟨hi, hl⟩
  · have hset := h.settled.setShadow i .observing
    have hset' : (s.setShadow i .observing).Settled s.Done (exempt P) := by
      refine hset.unexempt fun c hc l hw hY hX hD => ?_
      obtain rfl : c = .long i := hY.resolve_left hX
      obtain ⟨h1, h2, h3⟩ := h.settled (.long i) hc l hw hX hD
      -- a clause that was false at the root already is so without its watches
      have hrest : s.levels l.var = 0 →
          s.RootTrue (.long i) ∨ ∀ q ∈ (s.literals (.long i)).drop 2, s.RootFalse q := by
        intro h0
        cases hsh : s.clauseIsShadow (.long i) with
        | true => exact h3 hsh h0
        | false =>
          exact (h2 hsh h0).imp_right fun hall q hq => hall.2 q (List.mem_of_mem_drop hq)
      refine ⟨fun hle => ?_, fun hsh h0 => ?_, fun _ h0 => hrest h0⟩
      · rw [show ((s.setShadow i .observing).clause (.long i)).learned = true from hl] at hle
        simp at hle
      · have hsh' : s.config.shadowClauseReactivation = false := by
          simpa [clauseIsShadow, Solver.setShadow] using hsh
        exact h2 (by simp [clauseIsShadow, hsh']) h0
    intro c hc l hw hX hD
    exact ⟨(hset' c hc l hw hX hD).original, (hset' c hc l hw hX hD).active,
      (hset' c hc l hw hX hD).shadow⟩

lemma Calm.foldl_beginShadowObservation : ∀ (is : List ℕ) (s : Solver), Calm P Γ A s →
    (∀ i ∈ is, i < s.longCount ∧ (s.clause (.long i)).learned = true) →
    Calm P Γ A (is.foldl Solver.beginShadowObservation s) ∧
      Kept s (is.foldl Solver.beginShadowObservation s) := by
  intro is
  induction is with
  | nil => exact fun s h _ => ⟨h, .refl s⟩
  | cons i is ih =>
    intro s h hi
    obtain ⟨h1, h2⟩ := hi i (by simp)
    obtain ⟨h3, h4⟩ := ih (s.beginShadowObservation i) (h.beginShadowObservation h1 h2)
      fun j hj => hi j (by simp [hj])
    have hkept : Kept s (s.beginShadowObservation i) :=
      ⟨fun c hc => ⟨hc, .refl _⟩, fun l hl h0 => ⟨hl, h0⟩, rfl⟩
    exact ⟨h3, hkept.trans h4⟩

lemma longCount_foldl_markClauseDeleted : ∀ (cs : List ClauseRef) (s : Solver),
    (cs.foldl Solver.markClauseDeleted s).longCount = s.longCount := by
  intro cs
  induction cs with
  | nil => exact fun _ => rfl
  | cons c cs ih => exact fun s => ih (s.markClauseDeleted c)

lemma Calm.tick (h : Calm P Γ A s) : Calm P Γ A s.tick :=
  h.congr rfl rfl rfl rfl rfl h.core.branching

/-- **Database reduction** deletes or observes learned clauses only. -/
lemma Calm.reduceDatabase (h : Calm P Γ A s) (O : Oracle) :
    Calm P Γ A (s.reduceDatabase O) ∧ Kept s (s.reduceDatabase O) := by
  have hremovable : ∀ i, s.isRemovable i = true →
      i < s.longCount ∧ (s.clause (.long i)).learned = true := by
    intro i hi
    simp only [isRemovable, Bool.and_eq_true, decide_eq_true_eq] at hi
    exact ⟨hi.1.1.1.1, hi.1.1.1.2⟩
  rw [Solver.reduceDatabase]
  split
  · exact ⟨h.tick, .of_eq rfl rfl rfl⟩
  next deletions shadows _ =>
  dsimp only
  obtain ⟨h1, h2, h3⟩ := Calm.foldl_markClauseDeleted
    ((deletions.dedup.filter s.isRemovable).map ClauseRef.long) s.tick h.tick fun c hc => by
      obtain ⟨i, hi, rfl⟩ := List.mem_map.1 hc
      exact (hremovable i (List.mem_filter.1 hi).2).2
  obtain ⟨h4, h5⟩ := Calm.foldl_beginShadowObservation (shadows.dedup.filter fun i =>
      s.config.shadowClauseReactivation && s.isRemovable i &&
        decide (i ∉ deletions.dedup.filter s.isRemovable)) _ h1 fun i hi => by
    have hi' := (List.mem_filter.1 hi).2
    simp only [Bool.and_eq_true] at hi'
    obtain ⟨hlt, hl⟩ := hremovable i hi'.1.2
    rw [longCount_foldl_markClauseDeleted, h3]
    exact ⟨hlt, hl⟩
  have htick : Kept s s.tick := .of_eq rfl rfl rfl
  exact ⟨h4, (htick.trans h2).trans h5⟩

/-! ### Reactivation -/

/-- What is known of a clause that was observed until now: with the watch invariant, once a
watched literal is false at the root, the literals that are not watched are. -/
structure Reactivated (P : Prop) (s : Solver) (c : ClauseRef) : Prop where
  allocated : s.Allocated c
  learned : (s.clause c).learned = true
  visible : s.clauseIsShadow c = false
  rest : P → s.Active c → ∀ l ∈ s.watched c, s.Done l → s.levels l.var = 0 →
    s.RootTrue c ∨ ∀ q ∈ (s.literals c).drop 2, s.RootFalse q

/-- The clauses of the list are exempt. -/
def exempting (cs : List ℕ) (c : ClauseRef) (_ : Lit) : Prop := ∃ i ∈ cs, c = .long i

/-- What the first loop of `finalize_shadow_clauses_at_root` leaves alone. -/
structure Expired (s s' : Solver) : Prop where
  trail : s'.toTrailState = s.toTrailState
  deferred : s'.shadowDeferredRootConflict = s.shadowDeferredRootConflict
  kept : Kept s s'
  learned : ∀ c, (s'.clause c).learned = (s.clause c).learned
  literals : ∀ c, s'.literals c = s.literals c
  allocated : ∀ c, s'.Allocated c ↔ s.Allocated c
  active : ∀ c, s'.Active c → s.Active c
  visible : ∀ c, s.clauseIsShadow c = false → s'.clauseIsShadow c = false

namespace Expired

lemma refl (s : Solver) : Expired s s :=
  ⟨rfl, rfl, .refl s, fun _ => rfl, fun _ => rfl, fun _ => .rfl, fun _ => id, fun _ => id⟩

lemma trans {s₁ s₂ s₃ : Solver} (h : Expired s₁ s₂) (h' : Expired s₂ s₃) : Expired s₁ s₃ :=
  ⟨h'.trail.trans h.trail, h'.deferred.trans h.deferred, h.kept.trans h'.kept,
    fun c => (h'.learned c).trans (h.learned c), fun c => (h'.literals c).trans (h.literals c),
    fun c => (h'.allocated c).trans (h.allocated c), fun c hc => h.active c (h'.active c hc),
    fun c hc => h'.visible c (h.visible c hc)⟩

lemma activate (s : Solver) (i : ℕ) : Expired s (s.setShadow i .active) := by
  refine ⟨rfl, rfl, ⟨fun c hc => ⟨hc, .refl _⟩, fun l hl h0 => ⟨hl, h0⟩, rfl⟩, fun _ => rfl,
    fun _ => rfl, fun _ => .rfl, fun _ => id, fun c hc => ?_⟩
  by_cases hci : c = .long i
  · subst hci
    simp [clauseIsShadow, setShadow]
  · rwa [isShadow_setShadow hci]

lemma delete (hl : (s.clause c).learned = true) : Expired s (s.markClauseDeleted c) where
  trail := rfl
  deferred := rfl
  kept := .markClauseDeleted hl
  learned _ := learned_markClauseDeleted
  literals _ := literals_markClauseDeleted
  allocated _ := ClauseDb.allocated_delete
  active d hd := (ClauseDb.active_delete.1 hd).1
  visible d hd := by rwa [isShadow_markClauseDeleted]

/-- What is known of a reactivated clause stays known. -/
lemma reactivated (h : Expired s s') (hr : Reactivated P s c) : Reactivated P s' c where
  allocated := (h.allocated c).2 hr.allocated
  learned := (h.learned c).trans hr.learned
  visible := h.visible c hr.visible
  rest hP hc l hl hd h0 := by
    have hw : s'.watched c = s.watched c := congrArg (List.take 2) (h.literals c)
    rw [hw] at hl
    rw [h.trail] at hd h0
    have := hr.rest hP (h.active c hc) l hl hd h0
    simpa only [RootTrue, RootFalse, h.literals, h.trail] using this

end Expired

lemma expireShadow_spec (O : Oracle) (clock : ℕ) : ∀ (is : List ℕ) (s : Solver)
    (X : ClauseRef → Lit → Prop), Core Γ s → s.config.shadowClauseReactivation = true →
    (∀ i ∈ is, i < s.longCount ∧ (s.clause (.long i)).learned = true) →
    s.Settled s.Done X → (∀ c l, X c l → s.clauseIsShadow c = false ∨ ¬ P) →
    ((expireShadow O clock is s).1 ⊆ is) ∧ Core Γ (expireShadow O clock is s).2.2 ∧
      Expired s (expireShadow O clock is s).2.2 ∧
      (∀ i ∈ (expireShadow O clock is s).2.1,
        Reactivated P (expireShadow O clock is s).2.2 (.long i)) ∧
      (expireShadow O clock is s).2.2.Settled s.Done
        (fun c l => X c l ∨ exempting (expireShadow O clock is s).2.1 c l) := by
  intro is
  induction is with
  | nil =>
    intro s X h _ _ hset _
    exact ⟨List.Subset.refl _, h, .refl s, by simp [expireShadow], hset.mono fun _ _ => .inl⟩
  | cons i is ih =>
    intro s X h hconfig his hset hX
    obtain ⟨hi, hl⟩ := his i (by simp)
    have his' : ∀ j ∈ is, j < s.longCount ∧ (s.clause (.long j)).learned = true :=
      fun j hj => his j (by simp [hj])
    rw [expireShadow]
    split
    · obtain ⟨h1, h2⟩ := ih s X h hconfig his' hset hX
      exact ⟨List.cons_subset_cons i h1, h2⟩
    have hact := Expired.activate s i
    have hcore₁ : Core Γ (s.setShadow i .active) := h.setShadow fun hne => absurd rfl hne
    have hset₁ := hset.setShadow i .active
    dsimp only
    split
    · next htrig =>
      obtain ⟨h1, h2, h3, h4, h5⟩ := ih (s.setShadow i .active)
        (fun c l => X c l ∨ c = .long i) hcore₁ hconfig his' hset₁ fun c l hc => by
          rcases hc with hc | rfl
          · exact (hX c l hc).imp_left (hact.visible c)
          · exact .inl (by simp [clauseIsShadow, setShadow])
      have hri : Reactivated P (s.setShadow i .active) (.long i) := by
        refine ⟨hi, hl, by simp [clauseIsShadow, setShadow], fun hP hc l hw hd h0 => ?_⟩
        have hsh : s.clauseIsShadow (.long i) = true := by simp [clauseIsShadow, hconfig, htrig]
        refine (hset (.long i) hc l hw (fun hXl => ?_) hd).shadow hsh h0
        rw [(hX _ _ hXl).resolve_right fun hn => hn hP] at hsh
        simp at hsh
      refine ⟨fun j hj => List.mem_cons_of_mem i (h1 hj), h2, hact.trans h3, fun j hj => ?_,
        h5.mono fun c l hc => ?_⟩
      · rcases List.mem_cons.1 hj with rfl | hj
        · exact h3.reactivated hri
        · exact h4 j hj
      · rcases hc with (hc | rfl) | ⟨j, hj, rfl⟩
        · exact .inl hc
        · exact .inr ⟨i, by simp, rfl⟩
        · exact .inr ⟨j, List.mem_cons_of_mem i hj, rfl⟩
    · have hdel : Expired (s.setShadow i .active)
          ((s.setShadow i .active).markClauseDeleted (.long i)) := .delete hl
      obtain ⟨h1, h2, h3, h4, h5⟩ := ih ((s.setShadow i .active).markClauseDeleted (.long i)) X
        (hcore₁.markClauseDeleted _) hconfig (fun j hj => by
          rw [hdel.learned]
          exact his' j hj)
        ((hset₁.markClauseDeleted' (.long i)).unexempt fun c hc l _ hY hXl _ =>
          absurd (hY.resolve_left hXl) (ClauseDb.active_delete.1 hc).2)
        (fun c l hc => (hX c l hc).imp_left fun hv => hdel.visible c (hact.visible c hv))
      exact ⟨fun j hj => List.mem_cons_of_mem i (h1 hj), h2, hact.trans (hdel.trans h3), h4, h5⟩

end Solver

end Satrap
