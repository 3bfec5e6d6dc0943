/-
# Excursions from the root

Probing and vivification decide literals one after another, propagate, and return to the root.
While `A` has been decided everything on the trail follows from the clauses and `A`; the way
back ends in the state from which the excursion started, up to the order of the watches.
-/
import Satrap.Solver.RootPass

namespace Satrap

open Logic

/-- A level can be opened for one more assumption. -/
lemma Aligned.extend {A : List Lit} {t : TrailState} {n : ℕ} {E : Set ℕ} (h : Aligned A t)
    (ht : t.Ok n E) (hlevel : t.decisionLevel = A.length) (a : Lit) : Aligned (A ++ [a]) t where
  decided l hl hr := by
    rcases h.decided l hl hr with h0 | hlt | hA
    · exact .inl h0
    · have := ht.level_le hl
      omega
    · exact .inr (.inr (List.mem_append_left _ hA))
  placed k b hb hk := by
    rw [List.getElem?_append_left (hlevel ▸ hk)] at hb
    exact h.placed k b hb hk

namespace Solver

variable {P : Prop}
variable {Γ : Set (List Lit)} {O : Oracle} {s₀ s s' : Solver} {c d : ClauseRef} {l q a : Lit}
  {A literals : List Lit} {X : ClauseRef → Lit → Prop} {mode : PropagationMode}

/-- From the root state `s₀` the literals `A` have been decided, one for each level. -/
structure Excursion (Γ : Set (List Lit)) (A : List Lit) (s₀ s : Solver) : Prop where
  core : Core Γ s
  aligned : Aligned A s.toTrailState
  level : s.decisionLevel = A.length
  kept : Kept s₀ s
  deferred : s.shadowDeferredRootConflict = none
  db : ClauseDb.Same s₀.toClauseDb s.toClauseDb
  prefix_trail : s₀.trail <+: s.trail
  cut : s.trailLimits.getD 0 s.trail.length = s₀.trail.length

namespace Excursion

lemma start (h : Prepared P Γ s) : Excursion Γ [] s s where
  core := h.core
  aligned := .of_root h.core.trail h.root
  level := h.root
  kept := .refl s
  deferred := h.deferred
  db := .refl _
  prefix_trail := List.prefix_rfl
  cut := by
    rw [List.length_eq_zero_iff.1 h.root]
    rfl

/-- Everything on the trail follows from the clauses and the decisions. -/
lemma holds (h : Excursion Γ A s₀ s) {m : ℕ → Bool} (hm : Models m Γ)
    (hA : ∀ a ∈ A, a.Holds m) (hl : l ∈ s.trail) : l.Holds m :=
  h.core.holds_assumed h.aligned h.level.le hm hA l hl

/-- A conflict refutes the decisions. -/
lemma refutes (h : Excursion Γ A s₀ s) (hc : Conflict Γ X c s) {m : ℕ → Bool}
    (hm : Models m Γ) : ¬ ∀ a ∈ A, a.Holds m := by
  intro hA
  obtain ⟨q, hq, hqm⟩ := h.core.entailed c hc.active.1 m hm
  have hneg := (h.core.trail.neg_mem_iff (h.core.active_var hc.active hq)).2 (hc.falsified q hq)
  exact Literal.holds_neg.1 (h.holds hm hA hneg) hqm

/-- What was propagated at the start still is. -/
lemma done (h : Excursion Γ A s₀ s) (hhead : s.propagationHead = s.trail.length)
    (hd : s₀.Done l) (h₀ : s₀.propagationHead = s₀.trail.length) : s.Done l := by
  obtain ⟨i, hi, hil⟩ := hd
  obtain ⟨u, hu⟩ := h.prefix_trail
  refine ⟨i, ?_, ?_⟩
  · rw [hhead, ← hu, List.length_append]
    omega
  · rw [← hu, List.getElem?_append_left (by omega), hil]

/-- **One more decision.** -/
lemma assume (h : Excursion Γ A s₀ s) (h₀ : Prepared P Γ s₀) (hset : s.Settled s.Done X)
    (hhead : s.propagationHead = s.trail.length) (ha : s.value a = none)
    (hlt : a.var < s.variableCount) (O : Oracle)
    (hign : ∀ c l, mode.ignored = some c → ¬ s₀.Done l → X c l) :
    Excursion Γ (A ++ [a]) s₀
        ((s.newLevel.enqueueInternal false a none).2.propagateInternal O mode).2 ∧
      match ((s.newLevel.enqueueInternal false a none).2.propagateInternal O mode).1 with
      | none =>
        ((s.newLevel.enqueueInternal false a none).2.propagateInternal O mode).2.Settled
          ((s.newLevel.enqueueInternal false a none).2.propagateInternal O mode).2.Done X ∧
        ((s.newLevel.enqueueInternal false a none).2.propagateInternal O mode).2.propagationHead =
          ((s.newLevel.enqueueInternal false a none).2.propagateInternal O mode).2.trail.length
      | some c => Conflict Γ X c
          ((s.newLevel.enqueueInternal false a none).2.propagateInternal O mode).2 := by
  rw [enqueueInternal_none false ha]
  have hcore : Core Γ (s.newLevel.assign false a none) :=
    (h.core.newLevel hhead).assign false ha hlt (by simp) fun _ h0 => by
      simp [newLevel, TrailState.newLevel, TrailState.decisionLevel] at h0
  have hset' : (s.newLevel.assign false a none).Settled (s.newLevel.assign false a none).Done X :=
    Settled.assign hset.newLevel (h.core.newLevel hhead) false ha none
  have haligned : Aligned (A ++ [a]) (s.newLevel.assign false a none).toTrailState := by
    refine (h.aligned.extend h.core.trail h.level a).decide h.core.trail hhead ha fun b hb => ?_
    rw [h.level, List.getElem?_concat_length] at hb
    exact (Option.some.inj hb).symm
  have hkept : Kept s (s.newLevel.assign false a none) :=
    (⟨fun _ hc => ⟨hc, .refl _⟩, fun _ hl h0 => ⟨hl, h0⟩, rfl⟩ : Kept s s.newLevel).trans
      (.assign (h.core.newLevel hhead) false ha none)
  have hlimits : (s.newLevel.assign false a none).trailLimits = s.trailLimits ++ [s.trail.length] :=
    rfl
  have hign' : ∀ c l, mode.ignored = some c → ¬ (s.newLevel.assign false a none).Done l →
      X c l := by
    intro c l hc hd
    refine hign c l hc fun hd₀ => hd ?_
    exact (TrailState.done_push (h.core.newLevel hhead).trail none).2 (h.done hhead hd₀ h₀.head)
  obtain ⟨hp, hok⟩ := propagateInternal_spec O hcore hset' hign'
  have hcore' : Core Γ ((s.newLevel.assign false a none).propagateInternal O mode).2 := by
    generalize (s.newLevel.assign false a none).propagateInternal O mode = r at hok
    obtain ⟨conflict, s'⟩ := r
    cases conflict with
    | none => exact hok.1
    | some c =>
      have hconf : Conflict Γ X c s' := hok
      exact hconf.core
  have ht := hcore'.trail
  rw [hp.variableCount, hp.eliminated] at ht
  have hkept' := (h.kept.trans hkept).trans (.of_propagated hcore hp)
  have hidle : (s.newLevel.assign false a none).searchControlActive = false :=
    (congrArg Session.searchControlActive (h.kept.trans hkept).session).trans h₀.idle
  refine ⟨⟨hcore', haligned.propagated hp hcore.trail ht, ?_, hkept', hp.deferred.trans h.deferred,
    h.db.trans hp.db, ?_, ?_⟩, ?_⟩
  · rw [hp.trail.decisionLevel, TrailState.decisionLevel, hlimits, List.length_append,
      List.length_append, ← h.level]
    rfl
  · exact (h.prefix_trail.trans (List.prefix_append _ _)).trans hp.trail.trail
  · rw [hp.trail.limits, hlimits]
    rcases hl : s.trailLimits with - | ⟨k, ks⟩
    · have := h.cut
      rw [hl] at this
      simpa using this
    · have := h.cut
      rw [hl] at this
      simpa using this
  · generalize (s.newLevel.assign false a none).propagateInternal O mode = r at hp hok
    obtain ⟨conflict, s'⟩ := r
    cases conflict with
    | none =>
      obtain ⟨-, h2, h3⟩ := hok
      refine ⟨h2, h3.resolve_right fun hs => ?_⟩
      rw [hp.controlActive, hidle] at hs
      simp at hs
    | some c => exact hok

lemma cancelUntil_trail_eq (h : Excursion Γ A s₀ s) (O : Oracle) :
    (s.cancelUntil O 0).trail = s₀.trail ∧
      (s.propagationHead = s.trail.length ∨ 0 < s.decisionLevel →
        (s.cancelUntil O 0).propagationHead = s₀.trail.length) := by
  obtain ⟨u, hu⟩ := h.prefix_trail
  rcases Nat.eq_zero_or_pos s.decisionLevel with h0 | h0
  · have hnil : s.trailLimits = [] := List.length_eq_zero_iff.1 h0
    have hcut := h.cut
    rw [hnil, List.getD_nil] at hcut
    have hu' : u = [] := by
      rw [← hu, List.length_append] at hcut
      exact List.length_eq_zero_iff.1 (by omega)
    rw [cancelUntil_of_le O h0.le]
    refine ⟨by rw [← hu, hu', List.append_nil], fun hh => ?_⟩
    rw [hh.resolve_right (by omega), hcut]
  · have hsh := h.core.trail.shrunk h0
    have htarget : s.target 0 = s₀.trail.length := by
      rw [← h.cut, TrailState.target]
      rcases hl : s.trailLimits with - | ⟨k, ks⟩
      · rw [TrailState.decisionLevel, hl] at h0
        simp at h0
      · rfl
    rw [cancelUntil_trail O h0, hsh.trail, hsh.head, htarget]
    exact ⟨by rw [← hu, List.take_left], fun _ => rfl⟩

/-- **The way back.** -/
lemma comeBack (h : Excursion Γ A s₀ s) (h₀ : Prepared P Γ s₀)
    (hset : (s.cancelUntil O 0).Settled (s.cancelUntil O 0).Done X)
    (hhead : s.propagationHead = s.trail.length ∨ 0 < s.decisionLevel)
    (hX : ∀ c l, X c l → s₀.Done l → exempt P c l) :
    Prepared P Γ (s.cancelUntil O 0) ∧ Kept s₀ (s.cancelUntil O 0) ∧
      (s.cancelUntil O 0).trail = s₀.trail ∧
      ClauseDb.Same s₀.toClauseDb (s.cancelUntil O 0).toClauseDb := by
  obtain ⟨htrail, hhead'⟩ := h.cancelUntil_trail_eq O
  have hcore := h.core.cancelUntil O 0
  have hkept := h.kept.trans (.cancelUntil h.core O 0)
  have hc := cancelled_cancelUntil O s 0
  refine ⟨⟨⟨hcore, hset.unexempt fun c hc l hl hXl hP hD => ?_, ?_⟩, ?_, hc.deferred.trans h.deferred,
    (congrArg Session.searchControlActive hkept.session).trans h₀.idle, h₀.complete.kept hkept⟩,
    hkept, htrail, hc.db ▸ h.db⟩
  · refine absurd (hX c l hXl ?_) hP
    obtain ⟨i, hi, hil⟩ := hD
    rw [htrail] at hil
    exact ⟨i, by rw [h₀.head]; exact (List.getElem?_eq_some_iff.1 hil).1, hil⟩
  · rw [cancelUntil_decisionLevel, Nat.zero_min]
  · rw [hhead' hhead, htrail]

end Excursion

end Solver

end Satrap
