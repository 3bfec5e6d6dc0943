/-
# Backtracking keeps the invariant

`cancel_until` undoes the assignments above a level and gives their variables back to the
decision structures.  The watch invariant survives because a true literal that makes a
propagated watch harmless is undone only together with that watch.
-/
import Satrap.Solver.Scan

namespace Satrap

open Logic

namespace Solver

variable {Γ : Set (List Lit)} {s s' : Solver} {c : ClauseRef} {l q : Lit} {level : ℕ}
  {X Y : ClauseRef → Lit → Prop} {D : Lit → Prop} {O : Oracle}

/-! ### The decision structures -/

/-- Reinserting variables changes only the decision structures and the clock. -/
lemma foldl_reinsert_eq (O : Oracle) (vs : List ℕ) (s : Solver) : ∃ n b,
    vs.foldl (reinsert O) s = { s with clock := n, toBranching := b } := by
  induction vs generalizing s with
  | nil => exact ⟨s.clock, s.toBranching, rfl⟩
  | cons v vs ih =>
    obtain ⟨n, b, he⟩ := ih (s.reinsert O v)
    exact ⟨n, b, by rw [List.foldl_cons, he]; rfl⟩

lemma branching_reinsert {n : ℕ} {assignments : ℕ → Option Bool} {v : ℕ} (hv : v < n)
    (h : s.toBranching.Ok n assignments s.usesTransferBranching) :
    (s.reinsert O v).toBranching.Ok n (fun w => if w = v then none else assignments w)
      s.usesTransferBranching where
  order := h.order.insert v
  order_mem w hw hn := by
    refine (h.order.mem_insert v w).2 ?_
    by_cases hwv : w = v
    · exact .inl hwv
    · exact .inr (h.order_mem w hw (by simpa [hwv] using hn))
  order_lt w hw := by
    rcases (h.order.mem_insert v w).1 hw with rfl | hw
    · exact hv
    · exact h.order_lt w hw
  transferOrder ht := by
    have hins : (s.reinsert O v).transferOrder =
        s.transferOrder.insert (O.transferActivity s.clock) v := by simp [reinsert, ht]
    rw [hins]
    exact (h.transferOrder ht).insert v
  transfer_mem ht w hw hn := by
    have hins : (s.reinsert O v).transferOrder =
        s.transferOrder.insert (O.transferActivity s.clock) v := by simp [reinsert, ht]
    rw [hins]
    refine ((h.transferOrder ht).mem_insert v w).2 ?_
    by_cases hwv : w = v
    · exact .inl hwv
    · exact .inr (h.transfer_mem ht w hw (by simpa [hwv] using hn))
  transfer_lt ht w hw := by
    have hins : (s.reinsert O v).transferOrder =
        s.transferOrder.insert (O.transferActivity s.clock) v := by simp [reinsert, ht]
    rw [hins] at hw
    rcases ((h.transferOrder ht).mem_insert v w).1 hw with rfl | hw
    · exact hv
    · exact h.transfer_lt ht w hw
  vmtf := h.vmtf.unassign (h.vmtf_size ▸ hv) fun w _ hwv hn => by simpa [hwv] using hn
  vmtf_size := (VmtfOrder.unassign_size _ _).trans h.vmtf_size

lemma branching_foldl_reinsert {n : ℕ} (vs : List ℕ) (hvs : ∀ v ∈ vs, v < n)
    {assignments : ℕ → Option Bool}
    (h : s.toBranching.Ok n assignments s.usesTransferBranching) :
    (vs.foldl (reinsert O) s).toBranching.Ok n
      (fun w => if w ∈ vs then none else assignments w) s.usesTransferBranching := by
  induction vs generalizing s assignments with
  | nil => simpa using h
  | cons v vs ih =>
    have hstep := branching_reinsert (O := O) (hvs v (by simp)) h
    have := ih (s := s.reinsert O v) (fun w hw => hvs w (by simp [hw])) hstep
    refine Branching.Ok.mono this fun w hw => ?_
    by_cases h1 : w ∈ vs <;> by_cases h2 : w = v <;> simp_all

/-! ### What backtracking leaves alone -/

/-- Backtracking changes the trail, the decision structures and the clock. -/
structure Cancelled (s s' : Solver) : Prop where
  db : s'.toClauseDb = s.toClauseDb
  session : s'.toSession = s.toSession
  seen : s'.seen = s.seen
  conflicts : s'.conflicts = s.conflicts
  deferred : s'.shadowDeferredRootConflict = s.shadowDeferredRootConflict
  proof : s'.proof = s.proof
  stop : s'.stopReason = s.stopReason
  phase : s'.phase = s.phase

lemma foldl_reinsert_phase (O : Oracle) (vs : List ℕ) (s : Solver) :
    (vs.foldl (reinsert O) s).phase = s.phase := by
  induction vs generalizing s with
  | nil => rfl
  | cons v vs ih => exact ih (s.reinsert O v)

lemma cancelled_cancelUntil (O : Oracle) (s : Solver) (level : ℕ) :
    Cancelled s (s.cancelUntil O level) := by
  rw [cancelUntil]
  split
  · exact ⟨rfl, rfl, rfl, rfl, rfl, rfl, rfl, rfl⟩
  · have hphase := foldl_reinsert_phase O
      ((s.trail.drop (s.trailLimits.getD level 0)).reverse.map Literal.var) s
    obtain ⟨n, b, he⟩ := foldl_reinsert_eq O
      ((s.trail.drop (s.trailLimits.getD level 0)).reverse.map Literal.var) s
    dsimp only
    rw [he] at hphase ⊢
    exact ⟨rfl, rfl, rfl, rfl, rfl, rfl, rfl, hphase⟩

lemma cancelUntil_trail (O : Oracle) (hlevel : level < s.decisionLevel) :
    (s.cancelUntil O level).toTrailState = s.toTrailState.shrink level := by
  rw [cancelUntil, if_neg (Nat.not_le.2 hlevel)]

lemma cancelUntil_of_le (O : Oracle) (hlevel : s.decisionLevel ≤ level) :
    s.cancelUntil O level = s := by
  rw [cancelUntil, if_pos hlevel]

namespace Cancelled

variable (h : Cancelled s s')
include h

lemma config : s'.config = s.config := congrArg Session.config h.session

lemma variableCount : s'.variableCount = s.variableCount :=
  congrArg Session.variableCount h.session

lemma eliminated : s'.eliminatedVariables = s.eliminatedVariables := by
  rw [eliminatedVariables, congrArg Session.eliminationRecords h.session, eliminatedVariables]

lemma transfer : s'.usesTransferBranching = s.usesTransferBranching := by
  rw [usesTransferBranching, h.config, usesTransferBranching]

lemma literals (c : ClauseRef) : s'.literals c = s.literals c := by
  rw [Solver.literals, h.db, Solver.literals]

lemma isShadow (c : ClauseRef) : s'.clauseIsShadow c = s.clauseIsShadow c := by
  cases c with
  | binary i => rfl
  | long i => simp only [clauseIsShadow, h.config, h.db]

end Cancelled

lemma cancelUntil_decisionLevel (O : Oracle) (s : Solver) (level : ℕ) :
    (s.cancelUntil O level).decisionLevel = min level s.decisionLevel := by
  rcases Nat.lt_or_ge level s.decisionLevel with hlt | hge
  · rw [TrailState.decisionLevel, cancelUntil_trail O hlt]
    show (s.trailLimits.take level).length = _
    rw [List.length_take]
    rfl
  · rw [cancelUntil_of_le O hge, min_eq_right hge]

/-! ### The invariant -/

lemma Core.mem_cancelUntil (h : Core Γ s) (O : Oracle) (level : ℕ) :
    l ∈ (s.cancelUntil O level).trail ↔
      l ∈ s.trail ∧ (s.levels l.var ≤ level ∨ s.decisionLevel ≤ level) := by
  rcases Nat.lt_or_ge level s.decisionLevel with hlt | hge
  · rw [cancelUntil_trail O hlt, h.trail.mem_shrink hlt]
    simp [Nat.not_le.2 hlt]
  · rw [cancelUntil_of_le O hge]
    simp [hge]

lemma Core.cancelUntil (h : Core Γ s) (O : Oracle) (level : ℕ) :
    Core Γ (s.cancelUntil O level) := by
  rcases Nat.lt_or_ge level s.decisionLevel with hlt | hge
  swap
  · rwa [cancelUntil_of_le O hge]
  have hc := cancelled_cancelUntil O s level
  have ht := cancelUntil_trail O hlt
  have htrail := h.trail.shrink hlt
  have hlev : ∀ l ∈ (s.toTrailState.shrink level).trail,
      (s.toTrailState.shrink level).levels l.var = s.levels l.var ∧
      (s.toTrailState.shrink level).reasons l.var = s.reasons l.var := fun l hl =>
    ((h.trail.shrunk hlt).kept l ((h.trail.mem_shrink hlt).1 hl).1
      ((h.trail.mem_shrink hlt).1 hl).2).2
  refine ⟨?_, ?_, ?_, ?_, ?_, ?_, ?_, fun v => by rw [hc.seen]; exact h.seen v⟩
  · rw [ht, hc.variableCount, hc.eliminated]
    exact htrail
  · rw [hc.db, hc.variableCount, hc.eliminated]
    exact h.db
  · intro i l c hl hr
    rw [ht] at hl hr
    obtain ⟨hl', hle⟩ := (h.trail.getElem?_shrink hlt).1 hl
    rw [(hlev l (List.mem_of_getElem? hl)).2] at hr
    obtain ⟨h1, h2, h3⟩ := h.reason i l c hl' hr
    rw [hc.db, hc.literals]
    refine ⟨h1, h2, fun q hq hql => ?_⟩
    obtain ⟨j, hj, hjq⟩ := h3 q hq hql
    refine ⟨j, hj, ?_⟩
    rw [ht, h.trail.getElem?_shrink hlt]
    refine ⟨hjq, ?_⟩
    rw [h.trail.level j _ hjq]
    rw [h.trail.level i _ hl'] at hle
    exact (TrailState.Ok.levelAt_mono hj.le).trans hle
  · intro c hc'
    rw [hc.literals]
    exact h.entailed c (hc.db ▸ hc')
  · intro l hl h0
    rw [ht] at hl h0
    rw [(hlev l hl).1] at h0
    exact h.root l ((h.trail.mem_shrink hlt).1 hl).1 h0
  · intro c hd
    rw [hc.deferred] at hd
    obtain ⟨h1, hle, h2⟩ := h.deferred c hd
    rw [hc.db, hc.literals]
    refine ⟨h1, hle, fun q hq => ?_⟩
    obtain ⟨hv, h0⟩ := h2 q hq
    rw [RootFalse, ht]
    by_cases hq' : -q ∈ s.trail
    · have hkept := (h.trail.shrunk hlt).kept (-q) hq' (by rw [Literal.var_neg, h0]; omega)
      exact ⟨TrailState.value_neg_eq_true_iff.1 (htrail.value_of_mem hkept.1), hkept.2.1.trans h0⟩
    · have hoff : q.var ∉ s.trail.map Literal.var := by
        intro hm
        obtain ⟨p, hp, hpv⟩ := List.mem_map.1 hm
        have hpv' := h.trail.value_of_mem hp
        rcases Literal.eq_or_eq_neg_of_var_eq hpv with rfl | rfl
        · rw [hv] at hpv'; simp at hpv'
        · exact hq' hp
      have hsame := (h.trail.shrunk hlt).other q.var hoff
      have hne : (s.toTrailState.shrink level).assignments q.var ≠ none := by
        rw [hsame, Ne, ← TrailState.value_eq_none_iff, hv]
        simp
      exact ⟨(TrailState.value_congr hsame).trans hv,
        (h.trail.assignments_shrink hlt hne).2.1.trans h0⟩
  · rw [hc.variableCount, hc.transfer, ht]
    have hb := branching_foldl_reinsert (O := O)
      ((s.trail.drop (s.trailLimits.getD level 0)).reverse.map Literal.var) (fun v hv => by
        obtain ⟨l, hl, rfl⟩ := List.mem_map.1 hv
        have hl' : l ∈ s.trail := List.mem_of_mem_drop (List.mem_reverse.1 hl)
        refine h.trail.lt _ ?_
        rw [h.trail.assigned l hl']
        simp) h.branching
    rw [Solver.cancelUntil, if_neg (Nat.not_le.2 hlt)]
    refine Branching.Ok.mono hb fun v hv => ?_
    simpa [TrailState.shrink] using hv

/-- The propagated literals after a backtrack. -/
lemma Core.done_cancelUntil (h : Core Γ s) (O : Oracle) (level : ℕ) :
    (s.cancelUntil O level).Done l ↔
      s.Done l ∧ (s.levels l.var ≤ level ∨ s.decisionLevel ≤ level) := by
  rcases Nat.lt_or_ge level s.decisionLevel with hlt | hge
  · rw [cancelUntil_trail O hlt, h.trail.done_shrink hlt]
    simp [Nat.not_le.2 hlt]
  · rw [cancelUntil_of_le O hge]
    simp [hge]

/-- What the backtrack leaves on the trail keeps its value and its level. -/
lemma Core.kept_cancelUntil (h : Core Γ s) (O : Oracle) (hlevel : level < s.decisionLevel)
    (hq : q ∈ s.trail) (hle : s.levels q.var ≤ level) :
    (s.cancelUntil O level).value q = some true ∧
      (s.cancelUntil O level).levels q.var = s.levels q.var := by
  rw [cancelUntil_trail O hlevel]
  exact ⟨h.trail.value_shrink hlevel hq hle, ((h.trail.shrunk hlevel).kept q hq hle).2.1⟩

lemma RootTrue.cancelUntil (hr : s.RootTrue c) (h : Core Γ s) (hc : s.Active c) (O : Oracle)
    (hlevel : level < s.decisionLevel) : (s.cancelUntil O level).RootTrue c := by
  obtain ⟨q, hq, hv, h0⟩ := hr
  have hmem := (h.trail.mem_iff (h.active_var hc hq)).2 hv
  obtain ⟨h1, h2⟩ := h.kept_cancelUntil O hlevel hmem (by omega)
  exact ⟨q, by rw [(cancelled_cancelUntil O s level).literals]; exact hq, h1, h2.trans h0⟩

lemma RootFalse.cancelUntil (hr : s.RootFalse q) (h : Core Γ s) (hc : s.Active c)
    (hq : q ∈ s.literals c) (O : Oracle) (hlevel : level < s.decisionLevel) :
    (s.cancelUntil O level).RootFalse q := by
  have hneg := h.rootFalse_mem hc hq hr
  obtain ⟨h1, h2⟩ := h.kept_cancelUntil O hlevel hneg (by rw [Literal.var_neg, hr.2]; omega)
  exact ⟨TrailState.value_neg_eq_true_iff.1 h1, h2.trans hr.2⟩

/-- The watch invariant after a backtrack, which may lift exemptions. -/
lemma Settled.cancelUntil (hset : s.Settled D X) (h : Core Γ s) (hlevel : level < s.decisionLevel)
    (hD : ∀ l, s.Done l → s.levels l.var ≤ level → D l) (hD' : ∀ l, D l → s.Done l)
    (hX : ∀ c l, X c l → s.Done l → s.levels l.var ≤ level → Y c l) :
    (s.cancelUntil O level).Settled (s.cancelUntil O level).Done Y := by
  have hc := cancelled_cancelUntil O s level
  have hdone := fun l => h.done_cancelUntil (l := l) O level
  intro c hact l hl hY hd
  have hact' : s.Active c := by rwa [hc.db] at hact
  have hl' : l ∈ s.watched c := by rwa [hc.db] at hl
  obtain ⟨hdl, hle⟩ := (hdone l).1 hd
  have hle : s.levels l.var ≤ level := hle.resolve_right (Nat.not_le.2 hlevel)
  have hlev : (s.cancelUntil O level).levels l.var = s.levels l.var :=
    (h.kept_cancelUntil O hlevel hdl.mem hle).2
  have hold := hset c hact' l hl' (fun hXl => hY (hX c l hXl hdl hle)) (hD l hdl hle)
  have hrt : s.RootTrue c → (s.cancelUntil O level).RootTrue c := fun hr =>
    hr.cancelUntil h hact' O hlevel
  refine ⟨fun hle' => ?_, fun hs h0 => ?_, fun hs h0 => ?_⟩
  · rw [hc.db] at hle'
    obtain ⟨q, hq, hv, hql⟩ := hold.original hle'
    have hmem := (h.trail.mem_iff (h.active_var hact' hq)).2 hv
    obtain ⟨h1, h2⟩ := h.kept_cancelUntil O hlevel hmem (hql.trans hle)
    exact ⟨q, by rw [hc.literals]; exact hq, h1, by rw [h2, hlev]; exact hql⟩
  · rw [hc.isShadow] at hs
    rw [hlev] at h0
    refine (hold.active hs h0).imp hrt fun hall => ⟨fun q hq => ?_, fun q hq => ?_⟩
    · rw [hc.db] at hq
      have hq0 := (hall.2 q (List.mem_of_mem_take hq)).2
      exact (hdone q).2 ⟨hD' q (hall.1 q hq), .inl (by omega)⟩
    · rw [hc.literals] at hq
      exact (hall.2 q hq).cancelUntil h hact' hq O hlevel
  · rw [hc.isShadow] at hs
    rw [hlev] at h0
    refine (hold.shadow hs h0).imp hrt fun hall q hq => ?_
    rw [hc.literals] at hq
    exact (hall q hq).cancelUntil h hact' (List.mem_of_mem_drop hq) O hlevel

/-- Backtracking without a conflict. -/
lemma Settled.cancelUntil_done (hset : s.Settled s.Done X) (h : Core Γ s) (O : Oracle)
    (level : ℕ) : (s.cancelUntil O level).Settled (s.cancelUntil O level).Done X := by
  rcases Nat.lt_or_ge level s.decisionLevel with hlt | hge
  · exact hset.cancelUntil h hlt (fun _ hd _ => hd) (fun _ hd => hd) fun _ _ hX _ _ => hX
  · rwa [cancelUntil_of_le O hge]

/-- Backtracking out of the level of a conflict: the watches whose scan was cut short are
unassigned again. -/
lemma Conflict.settled_cancelUntil (h : Conflict Γ X c s) (O : Oracle)
    (hlevel : level < s.decisionLevel) :
    (s.cancelUntil O level).Settled (s.cancelUntil O level).Done X := by
  obtain ⟨p, -, hlev, -, -, hset⟩ := h.source
  refine hset.cancelUntil h.core hlevel (fun l hd hle => ⟨hd, ?_⟩) (fun l hl => hl.1)
    fun _ _ hX _ _ => hX
  rintro rfl
  rw [Literal.var_neg, hlev] at hle
  omega

end Solver

end Satrap
