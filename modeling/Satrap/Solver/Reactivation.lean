/-
# Reactivated clauses

The second half of `finalize_shadow_clauses_at_root`.  A reactivated clause is satisfied,
open, unit or false at the root.  A satisfied or open one is harmless; a unit one becomes so
once its literal has been enqueued; a false one is deferred as a conflict, and then either it
was already false when its watches were propagated, or one of them has yet to be.
-/
import Satrap.Solver.Maintenance

namespace Satrap

open Logic

namespace Solver

variable {P : Prop}
variable {Γ : Set (List Lit)} {O : Oracle} {s s' : Solver} {c d : ClauseRef} {l q : Lit}
  {A : List Lit} {D : Lit → Prop} {X Y : ClauseRef → Lit → Prop} {p : Lit × ClauseRef}

/-! ### Classification -/

section RootStatus

variable {t : TrailState} {literals : List Lit}

lemma rootStatus_satisfied (h : rootStatus t literals = .satisfied) :
    ∃ q ∈ literals, t.value q = some true := by
  rw [rootStatus] at h
  split at h
  · next hany => simpa using hany
  · split at h <;> simp at h

lemma rootStatus_false (h : rootStatus t literals = .false) :
    ∀ q ∈ literals, t.value q = some false := by
  rw [rootStatus] at h
  split at h
  · simp at h
  next hany =>
  split at h
  · next hnil =>
    intro q hq
    have h1 := List.filter_eq_nil_iff.1 hnil q hq
    simp only [List.any_eq_true, decide_eq_true_eq, not_exists, not_and] at hany
    have h2 := hany q hq
    simp only [decide_eq_true_eq] at h1
    cases hv : t.value q with
    | none => exact absurd hv h1
    | some b => cases b <;> simp_all
  · simp at h
  · simp at h

lemma rootStatus_unit (h : rootStatus t literals = .unit l) :
    l ∈ literals ∧ t.value l = none ∧ ∀ q ∈ literals, q ≠ l → t.value q = some false := by
  rw [rootStatus] at h
  split at h
  · simp at h
  next hany =>
  split at h
  · simp at h
  · next r hr =>
    obtain rfl : r = l := by simpa using h
    have hmem : ∀ q, q ∈ literals ∧ t.value q = none ↔ q = r := by
      intro q
      have : q ∈ literals.filter (fun l => decide (t.value l = none)) ↔ q = r := by simp [hr]
      simpa using this
    obtain ⟨h1, h2⟩ := (hmem r).2 rfl
    refine ⟨h1, h2, fun q hq hne => ?_⟩
    simp only [List.any_eq_true, decide_eq_true_eq, not_exists, not_and] at hany
    cases hv : t.value q with
    | none => exact absurd ((hmem q).1 ⟨hq, hv⟩) hne
    | some b =>
      cases b with
      | true => exact absurd hv (hany q hq)
      | false => rfl
  · simp at h

/-- Two literals of an open clause are unassigned. -/
lemma rootStatus_open (h : rootStatus t literals = .open) (hnd : literals.Nodup) (l : Lit) :
    ∃ q ∈ literals, q ≠ l ∧ t.value q = none := by
  rw [rootStatus] at h
  split at h
  · simp at h
  split at h
  · simp at h
  · simp at h
  next hnil hone =>
  have hnd' : (literals.filter fun l => decide (t.value l = none)).Nodup := hnd.filter _
  match hl : literals.filter fun l => decide (t.value l = none) with
  | [] => exact absurd hl hnil
  | [r] => exact absurd hl (hone r)
  | r :: q :: rest =>
    rw [hl] at hnd'
    have hmem : ∀ p ∈ r :: q :: rest, p ∈ literals ∧ t.value p = none := by
      intro p hp
      rw [← hl] at hp
      simpa using hp
    have hrq : r ≠ q := by
      rintro rfl
      simp at hnd'
    by_cases hr : r = l
    · obtain ⟨h1, h2⟩ := hmem q (by simp)
      exact ⟨q, h1, fun hq => hrq (hr.trans hq.symm), h2⟩
    · obtain ⟨h1, h2⟩ := hmem r (by simp)
      exact ⟨r, h1, hr, h2⟩

end RootStatus

/-- At the root every value is a root value. -/
lemma Core.level_root (h : Core Γ s) (h0 : s.decisionLevel = 0) (hq : q.var ∉ s.eliminatedVariables)
    (hv : s.value q ≠ none) : s.levels q.var = 0 := by
  cases hb : s.value q with
  | none => exact absurd hb hv
  | some b =>
    have hmem : ∃ p ∈ s.trail, p.var = q.var := by
      cases b with
      | true => exact ⟨q, (h.trail.mem_iff hq).2 hb, rfl⟩
      | false => exact ⟨-q, (h.trail.neg_mem_iff hq).2 hb, rfl⟩
    obtain ⟨p, hp, hpv⟩ := hmem
    have := h.trail.level_le hp
    rw [hpv, h0] at this
    exact Nat.le_zero.1 this

lemma Reactivated.not_eliminated (hr : Reactivated P s c) (h : Core Γ s) (hq : q ∈ s.literals c) :
    q.var ∉ s.eliminatedVariables := h.db.avoid c hr.allocated (.inr hr.learned) q hq

/-- A true literal of level 0 makes a learned clause harmless. -/
lemma RootTrue.settledAt (hroot : s.RootTrue c) (hle : (s.clause c).learned = true) :
    s.SettledAt D c l :=
  ⟨fun hle' => by rw [hle] at hle'; simp at hle', fun _ _ => .inl hroot, fun _ _ => .inl hroot⟩

lemma Reactivated.settledAt_of_true (hr : Reactivated P s c) (h : Core Γ s)
    (h0 : s.decisionLevel = 0) (hq : q ∈ s.literals c) (hv : s.value q = some true) :
    s.SettledAt D c l := by
  have hroot : s.RootTrue c := ⟨q, hq, hv, h.level_root h0 (hr.not_eliminated h hq) (by simp [hv])⟩
  exact hroot.settledAt hr.learned

/-- An open clause has no propagated watch. -/
lemma Reactivated.not_done (hr : Reactivated P s c) (hP : P) (h : Core Γ s) (h0 : s.decisionLevel = 0)
    (hst : rootStatus s.toTrailState (s.literals c) = .open) (hact : s.Active c)
    (hl : l ∈ s.watched c) : ¬ s.Done l ∨ ∃ q ∈ s.literals c, s.value q = some true := by
  by_cases hd : s.Done l
  swap
  · exact .inl hd
  have hlc : l ∈ s.literals c := List.mem_of_mem_take hl
  have hlev := h.level_root h0 (hr.not_eliminated h hlc) (by rw [h.trail.done_value hd]; simp)
  rcases hr.rest hP hact l hl hd hlev with ⟨q, hq, hv, -⟩ | hrest
  · exact .inr ⟨q, hq, hv⟩
  exfalso
  obtain ⟨a, b, rest, hab, -⟩ := h.db.exists_eq hact.1
  have hlits : s.literals c = a :: b :: rest := hab
  have hnd : (s.literals c).Nodup := (h.db.nodup c hact.1).of_map
  -- besides `l` only the other watch can be unassigned
  obtain ⟨r, hr⟩ : ∃ r, ∀ q ∈ s.literals c, q = l ∨ q = r ∨ q ∈ (s.literals c).drop 2 := by
    have hw : l = a ∨ l = b := by
      have : l ∈ (s.literals c).take 2 := hl
      rw [hlits] at this
      simpa using this
    rw [hlits]
    rcases hw with rfl | rfl
    · exact ⟨b, fun q hq => by simpa using hq⟩
    · exact ⟨a, fun q hq => by
        simp only [List.mem_cons, List.drop_succ_cons, List.drop_zero] at hq ⊢
        tauto⟩
  obtain ⟨q, hq, hqr, hn⟩ := rootStatus_open hst hnd r
  rcases hr q hq with rfl | rfl | hq
  · rw [h.trail.done_value hd] at hn
    simp at hn
  · exact hqr rfl
  · rw [(hrest q hq).1] at hn
    simp at hn

/-- A reactivated clause whose last unassigned literal is about to be enqueued. -/
structure Ready (s : Solver) (p : Lit × ClauseRef) : Prop where
  forces : s.Forces p.2 p.1
  learned : (s.clause p.2).learned = true
  visible : s.clauseIsShadow p.2 = false

lemma Core.deferConflict (h : Core Γ s) (hc : s.Allocated c) (hl : (s.clause c).learned = true)
    (hf : ∀ q ∈ s.literals c, s.RootFalse q) : Core Γ (s.deferConflict c) where
  trail := h.trail
  db := h.db
  reason := h.reason
  entailed := h.entailed
  root := h.root
  deferred d hd := by
    have hd' : s.shadowDeferredRootConflict.getD c = d := Option.some.inj hd
    cases hs : s.shadowDeferredRootConflict with
    | none =>
      rw [hs, Option.getD_none] at hd'
      exact hd' ▸ ⟨hc, hl, hf⟩
    | some e =>
      rw [hs, Option.getD_some] at hd'
      exact h.deferred d (by rw [hs, hd'])
  branching := h.branching
  seen := h.seen

/-- A learned clause that is false at the root is harmless or pending. -/
lemma settledAt_or_pending (hle : (s.clause c).learned = true) (hsh : s.clauseIsShadow c = false)
    (hact : s.Active c) (hf : ∀ q ∈ s.literals c, s.RootFalse q) :
    (∀ l, s.SettledAt s.Done c l) ∨ s.Pending := by
  by_cases hall : ∀ l ∈ s.watched c, s.Done l
  · refine .inl fun l => ⟨fun hle' => ?_, fun _ _ => .inr ⟨hall, hf⟩, fun hsh' => ?_⟩
    · rw [hle] at hle'
      simp at hle'
    · rw [hsh] at hsh'
      simp at hsh'
  · push Not at hall
    exact .inr ⟨c, hact, hsh, hf, hall⟩

/-- What is known of a reactivated clause after classification. -/
def Classified (s : Solver) (units : List (Lit × ClauseRef)) (deferred : Option ClauseRef)
    (c : ClauseRef) : Prop :=
  (∃ l, (l, c) ∈ units) ∨ (∀ l ∈ s.watched c, s.Done l → s.SettledAt s.Done c l) ∨
    (deferred ≠ none ∧ s.Pending)

lemma classifyReactivated_spec : ∀ (is : List ℕ) (s : Solver), Core Γ s → s.decisionLevel = 0 →
    (∀ i ∈ is, Reactivated P s (.long i)) →
    ∃ deferred, (classifyReactivated is s).2 =
        { s with shadowDeferredRootConflict := deferred } ∧
      (s.shadowDeferredRootConflict ≠ none → deferred ≠ none) ∧
      Core Γ (classifyReactivated is s).2 ∧
      (∀ p ∈ (classifyReactivated is s).1, Ready s p) ∧
      ∀ i ∈ is, P → s.Active (.long i) →
        Classified s (classifyReactivated is s).1 deferred (.long i) := by
  intro is
  induction is with
  | nil =>
    intro s h _ _
    exact ⟨s.shadowDeferredRootConflict, rfl, id, h, by simp [classifyReactivated], by simp⟩
  | cons i is ih =>
    intro s h h0 hre
    have hri := hre i (by simp)
    have hre' : ∀ j ∈ is, Reactivated P s (.long j) := fun j hj => hre j (by simp [hj])
    obtain ⟨deferred, he, hdef, hcore, hready, hcls⟩ := ih s h h0 hre'
    rw [classifyReactivated]
    split
    · next hst =>
      obtain ⟨q, hq, hv⟩ := rootStatus_satisfied hst
      refine ⟨deferred, he, hdef, hcore, hready, fun j hj hP hact => ?_⟩
      rcases List.mem_cons.1 hj with rfl | hj
      · exact .inr (.inl fun l _ _ => hri.settledAt_of_true h h0 hq hv)
      · exact hcls j hj hP hact
    · next hst =>
      refine ⟨deferred, he, hdef, hcore, hready, fun j hj hP hact => ?_⟩
      rcases List.mem_cons.1 hj with rfl | hj
      · refine .inr (.inl fun l hl hd => ?_)
        rcases hri.not_done hP h h0 hst hact hl with hnd | ⟨q, hq, hv⟩
        · exact absurd hd hnd
        · exact hri.settledAt_of_true h h0 hq hv
      · exact hcls j hj hP hact
    · next hst =>
      have hfalse : ∀ q ∈ s.literals (.long i), s.RootFalse q := fun q hq =>
        ⟨rootStatus_false hst q hq, h.level_root h0 (hri.not_eliminated h hq) (by
          rw [rootStatus_false hst q hq]
          simp)⟩
      have hcore₁ := h.deferConflict hri.allocated hri.learned hfalse
      obtain ⟨deferred, he, hdef, hcore, hready, hcls⟩ := ih (s.deferConflict (.long i)) hcore₁ h0
        fun j hj => ⟨(hre' j hj).allocated, (hre' j hj).learned, (hre' j hj).visible,
          (hre' j hj).rest⟩
      have hne : deferred ≠ none := hdef (by simp [deferConflict])
      refine ⟨deferred, he, fun _ => hne, hcore, fun p hp => ?_, fun j hj hP hact => ?_⟩
      · exact ⟨(hready p hp).forces, (hready p hp).learned, (hready p hp).visible⟩
      · rcases List.mem_cons.1 hj with rfl | hj
        · rcases settledAt_or_pending hri.learned hri.visible hact hfalse with hs | hp
          · exact .inr (.inl fun l _ _ => hs l)
          · exact .inr (.inr ⟨hne, hp⟩)
        · rcases hcls j hj hP hact with hu | hs | hp
          · exact .inl hu
          · exact .inr (.inl fun l hl hd => ⟨(hs l hl hd).original, (hs l hl hd).active,
              (hs l hl hd).shadow⟩)
          · exact .inr (.inr hp)
    · next l hst =>
      obtain ⟨hl, hn, hothers⟩ := rootStatus_unit hst
      refine ⟨deferred, he, hdef, hcore, fun p hp => ?_, fun j hj hP hact => ?_⟩
      · rcases List.mem_cons.1 hp with rfl | hp
        · refine ⟨⟨hri.allocated, hl, fun q hq hne => ?_⟩, hri.learned, hri.visible⟩
          exact (h.trail.neg_mem_iff (hri.not_eliminated h hq)).2 (hothers q hq hne)
        · exact hready p hp
      · rcases List.mem_cons.1 hj with rfl | hj
        · exact .inl ⟨l, by simp⟩
        · exact (hcls j hj hP hact).imp_left fun ⟨q, hq⟩ => ⟨q, List.mem_cons_of_mem _ hq⟩

/-! ### The last loop -/

/-- The clauses of the units are exempt, and where `P` does not hold all are. -/
def exemptingUnits (P : Prop) (units : List (Lit × ClauseRef)) (c : ClauseRef) (_ : Lit) : Prop :=
  ¬ P ∨ ∃ l, (l, c) ∈ units

lemma Pending.assign (hp : s.Pending) (h : Core Γ s) (savePhase : Bool) (hl : s.value l = none)
    (r : Option ClauseRef) : (s.assign savePhase l r).Pending := by
  obtain ⟨c, hact, hsh, hf, q, hq, hd⟩ := hp
  have hg := TrailState.grown_push hl r
  refine ⟨c, hact, hsh, fun p hp => ?_, q, hq, fun hd' => hd ?_⟩
  · obtain ⟨hv, h0⟩ := hf p hp
    exact ⟨hg.value hv, (hg.levels (by rw [hv]; simp)).trans h0⟩
  · exact (TrailState.done_push h.trail r).1 hd'

/-- The search can go on, possibly with a deferred conflict. -/
structure Resumable (Γ : Set (List Lit)) (X : ClauseRef → Lit → Prop) (s : Solver) : Prop where
  core : Core Γ s
  settled : s.Settled s.Done X ∨ s.Pending ∧ s.shadowDeferredRootConflict ≠ none
  root : s.decisionLevel = 0

lemma Ready.assign (h : Ready s p) (savePhase : Bool) (hl : s.value l = none)
    (r : Option ClauseRef) : Ready (s.assign savePhase l r) p := by
  obtain ⟨h1, h2, h3⟩ := h.forces
  exact ⟨⟨h1, h2, fun q hq hne => (TrailState.grown_push hl r).mem (h3 q hq hne)⟩, h.learned,
    h.visible⟩

/-- One unit is dealt with. -/
lemma Resumable.unexempt {units : List (Lit × ClauseRef)}
    (h : Resumable Γ (exemptingUnits P (p :: units)) s)
    (hnew : s.Active p.2 → (∀ l ∈ s.watched p.2, s.Done l → s.SettledAt s.Done p.2 l) ∨
      s.Pending ∧ s.shadowDeferredRootConflict ≠ none) :
    Resumable Γ (exemptingUnits P units) s := by
  refine ⟨h.core, ?_, h.root⟩
  rcases h.settled with hset | hpend
  swap
  · exact .inr hpend
  by_cases hpending : s.Pending ∧ s.shadowDeferredRootConflict ≠ none
  · exact .inr hpending
  refine .inl (hset.unexempt fun c hc l hl hY hX hD => ?_)
  obtain ⟨q, hq⟩ := hY.resolve_left fun hn => hX (.inl hn)
  rcases List.mem_cons.1 hq with he | hq
  · obtain rfl : c = p.2 := by rw [← he]
    exact ((hnew hc).resolve_right hpending) l hl hD
  · exact absurd (.inr ⟨q, hq⟩) hX

lemma enqueueReactivated_spec : ∀ (units : List (Lit × ClauseRef)) (s : Solver),
    Resumable Γ (exemptingUnits P units) s → (∀ p ∈ units, Ready s p) →
    Resumable Γ (exempt P) (enqueueReactivated units s) ∧ Kept s (enqueueReactivated units s) := by
  intro units
  induction units with
  | nil =>
    intro s h _
    exact ⟨⟨h.core, h.settled.imp_left fun hs => hs.mono fun c l hX =>
      hX.resolve_right fun ⟨q, hq⟩ => by simp at hq, h.root⟩, .refl s⟩
  | cons p units ih =>
    intro s h hready
    have hp := hready p (by simp)
    have hready' : ∀ p ∈ units, Ready s p := fun q hq => hready q (by simp [hq])
    obtain ⟨hc, hpc, hothers⟩ := hp.forces
    have havoid : ∀ q ∈ s.literals p.2, q.var ∉ s.eliminatedVariables :=
      h.core.db.avoid p.2 hc (.inr hp.learned)
    rw [enqueueReactivated, List.foldl_cons]
    cases hv : s.value p.1 with
    | none =>
      rw [enqueue, enqueueInternal_of_none true hv]
      have hcore₁ : Core Γ (s.assign true p.1 (some p.2)) :=
        h.core.assign true hv (h.core.db.lt p.2 hc p.1 hpc)
          (fun c hc => by cases hc; exact hp.forces) (by simp)
      have h₁ : Resumable Γ (exemptingUnits P (p :: units)) (s.assign true p.1 (some p.2)) :=
        ⟨hcore₁, h.settled.imp (fun hs => hs.assign h.core true hv _)
          (fun hpd => ⟨hpd.1.assign h.core true hv _, hpd.2⟩), h.root⟩
      have hroot : (s.assign true p.1 (some p.2)).RootTrue p.2 := by
        refine ⟨p.1, hpc, TrailState.value_push_self _, ?_⟩
        show Function.update s.levels p.1.var s.decisionLevel p.1.var = 0
        rw [Function.update_self]
        exact h.root
      have hle : ((s.assign true p.1 (some p.2)).clause p.2).learned = true := hp.learned
      obtain ⟨h2, h3⟩ := ih _ (h₁.unexempt fun _ => .inl fun l _ _ => hroot.settledAt hle)
        fun q hq => (hready' q hq).assign true hv _
      exact ⟨h2, (Kept.assign h.core true hv _).trans h3⟩
    | some b =>
      cases b with
      | true =>
        have he : s.enqueue p.1 (some p.2) = (true, s) := by simp [enqueue, enqueueInternal, hv]
        rw [he]
        have hroot : s.RootTrue p.2 :=
          ⟨p.1, hpc, hv, h.core.level_root h.root (havoid _ hpc) (by simp [hv])⟩
        exact ih s (h.unexempt fun _ => .inl fun l _ _ => hroot.settledAt hp.learned) hready'
      | false =>
        have he : s.enqueue p.1 (some p.2) = (false, s) := by simp [enqueue, enqueueInternal, hv]
        rw [he]
        have hf : ∀ q ∈ s.literals p.2, s.RootFalse q := by
          intro q hq
          have hvq : s.value q = some false := by
            by_cases hqp : q = p.1
            · rw [hqp, hv]
            · exact (h.core.trail.neg_mem_iff (havoid q hq)).1 (hothers q hq hqp)
          exact ⟨hvq, h.core.level_root h.root (havoid q hq) (by simp [hvq])⟩
        have hne : (s.deferConflict p.2).shadowDeferredRootConflict ≠ none := by
          simp [deferConflict]
        have h₁ : Resumable Γ (exemptingUnits P (p :: units)) (s.deferConflict p.2) :=
          ⟨h.core.deferConflict hc hp.learned hf,
            h.settled.imp (fun hs => hs.congr_done rfl rfl rfl) (fun hpd => ⟨hpd.1, hne⟩), h.root⟩
        obtain ⟨h2, h3⟩ := ih _ (h₁.unexempt fun hact => by
            rcases settledAt_or_pending hp.learned hp.visible hact hf with hs | hpd
            · exact .inl fun l _ _ => ⟨(hs l).original, (hs l).active, (hs l).shadow⟩
            · exact .inr ⟨hpd, hne⟩)
          fun q hq => ⟨(hready' q hq).forces, (hready' q hq).learned, (hready' q hq).visible⟩
        have hkept : Kept s (s.deferConflict p.2) := .of_eq rfl rfl rfl
        exact ⟨h2, hkept.trans h3⟩

/-- **Shadow clauses are finalized at the root.** -/
lemma Calm.finalizeShadowClausesAtRoot (h : Calm P Γ A s) (O : Oracle)
    (hconfig : s.config.shadowClauseReactivation = true) (h0 : s.decisionLevel = 0) :
    Resumable Γ (exempt P) (s.finalizeShadowClausesAtRoot O) ∧
      Kept s (s.finalizeShadowClausesAtRoot O) := by
  rw [Solver.finalizeShadowClausesAtRoot]
  obtain ⟨h1, h2, h3, h4, h5⟩ := expireShadow_spec O s.clock s.shadowClauses s.tick (exempt P)
    h.tick.core hconfig h.core.db.observed h.tick.settled (fun _ _ hf => .inr hf)
  generalize expireShadow O s.clock s.shadowClauses s.tick = r at h1 h2 h3 h4 h5
  obtain ⟨retained, reactivated, s₁⟩ := r
  dsimp only at h1 h2 h3 h4 h5 ⊢
  -- the expired clauses leave the list
  set s₂ : Solver := { s₁ with shadowClauses := retained } with hs₂
  have hcore₂ : Core Γ s₂ := by
    refine ⟨h2.trail, ⟨h2.db.length, h2.db.nodup, h2.db.lt, h2.db.avoid, h2.db.sound,
      h2.db.complete, h2.db.once, h2.db.shadow, fun i hi => ?_⟩, h2.reason, h2.entailed, h2.root,
      h2.deferred, h2.branching, h2.seen⟩
    obtain ⟨hlt, hle⟩ := h.core.db.observed i (h1 hi)
    exact ⟨(h3.allocated (.long i)).2 hlt, (h3.learned _).trans hle⟩
  have h0₂ : s₂.decisionLevel = 0 := by
    rw [hs₂, TrailState.decisionLevel, h3.trail]
    exact h0
  have hre₂ : ∀ i ∈ reactivated, Reactivated P s₂ (.long i) := fun i hi =>
    ⟨(h4 i hi).allocated, (h4 i hi).learned, (h4 i hi).visible, (h4 i hi).rest⟩
  obtain ⟨deferred, he, -, hcore₃, hready, hcls⟩ := classifyReactivated_spec reactivated s₂ hcore₂
    h0₂ hre₂
  generalize classifyReactivated reactivated s₂ = r at he hcore₃ hready hcls
  obtain ⟨units, s₃⟩ := r
  dsimp only at he hcore₃ hready hcls ⊢
  subst he
  have hset₂ : s₂.Settled s₂.Done fun c l => (exempt P) c l ∨ exempting reactivated c l := by
    have hD : s₂.Done = s.tick.Done := by rw [← h3.trail]
    rw [hD]
    exact fun c hc l hl hX hDl => ⟨(h5 c hc l hl hX hDl).original, (h5 c hc l hl hX hDl).active,
      (h5 c hc l hl hX hDl).shadow⟩
  have hres : Resumable Γ (exemptingUnits P units)
      { s₂ with shadowDeferredRootConflict := deferred } := by
    refine ⟨hcore₃, ?_, h0₂⟩
    by_cases hpend : s₂.Pending ∧ deferred ≠ none
    · exact .inr hpend
    refine .inl (Settled.congr_done (s := s₂) ?_ rfl rfl rfl)
    refine hset₂.unexempt fun c hc l hl hY hX hD => ?_
    have hP : P := by_contra fun hn => hX (.inl hn)
    obtain ⟨i, hi, rfl⟩ := hY.resolve_left fun hn => hn hP
    rcases hcls i hi hP hc with hu | hs | hp
    · exact absurd (.inr hu) hX
    · exact hs l hl hD
    · exact absurd ⟨hp.2, hp.1⟩ hpend
  obtain ⟨h6, h7⟩ := enqueueReactivated_spec units _ hres fun p hp =>
    ⟨(hready p hp).forces, (hready p hp).learned, (hready p hp).visible⟩
  have hkept : Kept s { s₂ with shadowDeferredRootConflict := deferred } :=
    ⟨h3.kept.original, h3.kept.root, h3.kept.session⟩
  exact ⟨h6, hkept.trans h7⟩

end Solver

end Satrap
