/-
# Levels, assumptions and learned clauses

`Aligned A t` says how the trail relates to the assumptions `A` of the query: they are placed
in order, one for each level, before the first decision.  So whatever is assigned up to the
level of the last assumption follows from the clauses and the assumptions
(`Core.unsat_of_failed`).

`Kept s s'` relates a state to a later one of the same query: no original clause and no root
assignment is lost.
-/
import Satrap.Solver.Storing
import Satrap.Solver.Search

namespace Satrap

open Logic

/-- The assumptions are placed in order; before the last of them is, nothing else is decided. -/
structure Aligned (A : List Lit) (t : TrailState) : Prop where
  decided : ∀ l ∈ t.trail, t.reasons l.var = none →
    t.levels l.var = 0 ∨ A.length < t.levels l.var ∨ l ∈ A
  placed : ∀ (k : ℕ) (a : Lit), A[k]? = some a → k < t.decisionLevel →
    a ∈ t.trail ∧ t.levels a.var ≤ k + 1

namespace Aligned

variable {A : List Lit} {t : TrailState} {n : ℕ} {E : Set ℕ} {l : Lit}

/-- At the root nothing has been decided. -/
lemma of_root (ht : t.Ok n E) (h0 : t.decisionLevel = 0) : Aligned A t where
  decided l hl _ := .inl (Nat.le_zero.1 (h0 ▸ ht.level_le hl))
  placed k a _ hk := by omega

lemma newLevel (h : Aligned A t) (ht : t.Ok n E)
    (hnext : ∀ a, A[t.decisionLevel]? = some a → a ∈ t.trail) : Aligned A t.newLevel where
  decided := h.decided
  placed k a ha hk := by
    have hk' : k < t.decisionLevel + 1 := by simpa [TrailState.newLevel,
      TrailState.decisionLevel] using hk
    rcases Nat.lt_succ_iff_lt_or_eq.1 hk' with hlt | rfl
    · exact h.placed k a ha hlt
    · exact ⟨hnext a ha, (ht.level_le (hnext a ha)).trans (Nat.le_succ _)⟩

/-- An unassigned literal is enqueued. -/
lemma push (h : Aligned A t) (ht : t.Ok n E) (hl : t.value l = none) (r : Option ClauseRef)
    (hr : r = none → t.decisionLevel = 0 ∨ A.length < t.decisionLevel ∨ l ∈ A) :
    Aligned A (t.push l r) where
  decided q hq hqr := by
    obtain ⟨i, hi⟩ := List.mem_iff_getElem?.1 hq
    rcases Solver.getElem?_push.1 hi with hi | ⟨-, rfl⟩
    · have hmem := List.mem_of_getElem? hi
      have hsame := (TrailState.grown_push hl r).same q.var (by rw [ht.assigned q hmem]; simp)
      rw [hsame.2.1]
      exact h.decided q hmem (hsame.2.2.symm.trans hqr)
    · have hqr' : r = none := by simpa [TrailState.push] using hqr
      simpa [TrailState.push] using hr hqr'
  placed k a ha hk := by
    obtain ⟨h1, h2⟩ := h.placed k a ha hk
    have hsame := (TrailState.grown_push hl r).same a.var (by rw [ht.assigned a h1]; simp)
    exact ⟨(TrailState.grown_push hl r).mem h1, hsame.2.1.trans_le h2⟩

/-- The next assumption, or a decision after all of them, opens a level. -/
lemma decide (h : Aligned A t) (ht : t.Ok n E) (hhead : t.propagationHead = t.trail.length)
    (hl : t.value l = none) (hnext : ∀ a, A[t.decisionLevel]? = some a → a = l) :
    Aligned A (t.newLevel.push l none) := by
  have ht' := ht.newLevel hhead
  have hl' : t.newLevel.value l = none := hl
  have hlevel : t.newLevel.decisionLevel = t.decisionLevel + 1 := by
    simp [TrailState.newLevel, TrailState.decisionLevel]
  have hlpush : l ∈ (t.newLevel.push l none).trail := by simp [TrailState.push]
  have hnew : (t.newLevel.push l none).levels l.var = t.decisionLevel + 1 := by
    rw [← hlevel]
    simp [TrailState.push]
  constructor
  · intro q hq hqr
    obtain ⟨i, hi⟩ := List.mem_iff_getElem?.1 hq
    rcases Solver.getElem?_push.1 hi with hi | ⟨-, rfl⟩
    · have hmem : q ∈ t.trail := List.mem_of_getElem? hi
      have hsame := (TrailState.grown_push hl' none).same q.var
        (by rw [ht'.assigned q hmem]; simp)
      rw [hsame.2.1]
      exact h.decided q hmem (hsame.2.2.symm.trans hqr)
    · rw [hnew]
      rcases Nat.lt_or_ge t.decisionLevel A.length with hlt | hge
      · have ha := List.getElem?_eq_getElem hlt
        exact .inr (.inr (hnext _ ha ▸ List.getElem_mem hlt))
      · exact .inr (.inl (by omega))
  · intro k a ha hk
    have hk' : k < t.decisionLevel + 1 := hlevel ▸ hk
    rcases Nat.lt_succ_iff_lt_or_eq.1 hk' with hlt | rfl
    · obtain ⟨h1, h2⟩ := h.placed k a ha hlt
      have hsame := (TrailState.grown_push hl' none).same a.var (by rw [ht'.assigned a h1]; simp)
      exact ⟨(TrailState.grown_push hl' none).mem h1, hsame.2.1.trans_le h2⟩
    · obtain rfl := hnext a ha
      exact ⟨hlpush, hnew.le⟩

variable {s s' : Solver}

/-- What propagation assigns has a reason. -/
lemma propagated (h : Aligned A s.toTrailState) (hp : Solver.Propagated s s')
    (ht : s.toTrailState.Ok n E) (ht' : s'.toTrailState.Ok n E) : Aligned A s'.toTrailState where
  decided l hl hr := by
    have hv : s'.assignments l.var ≠ none := by rw [ht'.assigned l hl]; simp
    have hne : s.assignments l.var ≠ none := by
      intro hn
      obtain ⟨c, hc, -⟩ := hp.implied l.var hn hv
      rw [hr] at hc
      simp at hc
    obtain ⟨h1, h2, h3⟩ := hp.trail.same l.var hne
    have hmem : l ∈ s.trail := by
      refine (ht.onTrail l ?_).resolve_right (ht'.var_notMem hl)
      rw [← h1, ht'.assigned l hl]
    rw [h2]
    exact h.decided l hmem (h3.symm.trans hr)
  placed k a ha hk := by
    obtain ⟨h1, h2⟩ := h.placed k a ha (hp.trail.decisionLevel ▸ hk)
    have hsame := hp.trail.same a.var (by rw [ht.assigned a h1]; simp)
    exact ⟨hp.trail.mem h1, hsame.2.1.trans_le h2⟩

lemma cancelUntil {Γ : Set (List Lit)} (h : Aligned A s.toTrailState) (hs : Solver.Core Γ s)
    (O : Oracle) (level : ℕ) : Aligned A (s.cancelUntil O level).toTrailState := by
  rcases Nat.lt_or_ge level s.decisionLevel with hlt | hge
  swap
  · rwa [Solver.cancelUntil_of_le O hge]
  rw [Solver.cancelUntil_trail O hlt]
  have hsh := hs.trail.shrunk hlt
  constructor
  · intro l hl hr
    obtain ⟨h1, h2⟩ := (hs.trail.mem_shrink hlt).1 hl
    obtain ⟨-, h3, h4⟩ := hsh.kept l h1 h2
    rw [h3]
    exact h.decided l h1 (h4.symm.trans hr)
  · intro k a ha hk
    have hk' : k < level := by
      have : k < (s.trailLimits.take level).length := hk
      rw [List.length_take] at this
      omega
    obtain ⟨h1, h2⟩ := h.placed k a ha (hk'.trans hlt)
    obtain ⟨h3, h4, -⟩ := hsh.kept a h1 (by omega)
    exact ⟨h3, h4.trans_le h2⟩

end Aligned

namespace Solver

variable {P : Prop}
variable {Γ : Set (List Lit)} {O : Oracle} {s s' : Solver} {c : ClauseRef} {l q : Lit}
  {A : List Lit} {D : Lit → Prop} {X Y : ClauseRef → Lit → Prop}

/-! ### Failed assumptions -/

/-- As long as assumptions are being placed, all assignments follow from the clauses and the
assumptions. -/
lemma Core.holds_assumed (h : Core Γ s) (hA : Aligned A s.toTrailState)
    (hlevel : s.decisionLevel ≤ A.length) {m : ℕ → Bool} (hm : Models m Γ)
    (hAm : ∀ a ∈ A, a.Holds m) : ∀ l ∈ s.trail, l.Holds m := by
  have hind : ∀ (i : ℕ) (l : Lit), s.trail[i]? = some l → l.Holds m := by
    intro i
    induction i using Nat.strong_induction_on with
    | _ i ih =>
      intro l hl
      have hmem := List.mem_of_getElem? hl
      cases hr : s.reasons l.var with
      | none =>
        rcases hA.decided l hmem hr with h0 | hlt | ha
        · exact h.holds_root hm hmem h0
        · have := h.trail.level_le hmem
          omega
        · exact hAm l ha
      | some c =>
        obtain ⟨hc, -, hothers⟩ := h.reason i l c hl hr
        refine (h.entailed c hc m hm).holds_of_others fun q hq hql => ?_
        obtain ⟨j, hj, hjq⟩ := hothers q hq hql
        exact ih j hj (-q) hjq
  intro l hl
  obtain ⟨i, hi⟩ := List.mem_iff_getElem?.1 hl
  exact hind i l hi

/-- **A false assumption is refuted by the clauses and the assumptions.** -/
lemma Core.unsat_of_failed (h : Core Γ s) (hA : Aligned A s.toTrailState) {a : Lit}
    (ha : A[s.decisionLevel]? = some a) (hE : a.var ∉ s.eliminatedVariables)
    (hf : s.value a = some false) {m : ℕ → Bool} (hm : Models m Γ) :
    ¬ ∀ a ∈ A, a.Holds m := by
  intro hAm
  have hlt := (List.getElem?_eq_some_iff.1 ha).1
  have hneg := (h.trail.neg_mem_iff hE).2 hf
  exact Literal.holds_neg.1 (h.holds_assumed hA hlt.le hm hAm (-a) hneg)
    (hAm a (List.mem_of_getElem? ha))

/-! ### What a query keeps -/

/-- No original clause and no root assignment is lost. -/
structure Kept (s s' : Solver) : Prop where
  original : ∀ c, s.Original c → s'.Original c ∧ (s'.literals c).Perm (s.literals c)
  root : ∀ l ∈ s.trail, s.levels l.var = 0 → l ∈ s'.trail ∧ s'.levels l.var = 0
  session : s'.toSession = s.toSession

namespace Kept

lemma refl (s : Solver) : Kept s s :=
  ⟨fun _ hc => ⟨hc, .refl _⟩, fun _ hl h0 => ⟨hl, h0⟩, rfl⟩

lemma trans {s₁ s₂ s₃ : Solver} (h : Kept s₁ s₂) (h' : Kept s₂ s₃) : Kept s₁ s₃ where
  original c hc := by
    obtain ⟨h1, h2⟩ := h.original c hc
    obtain ⟨h3, h4⟩ := h'.original c h1
    exact ⟨h3, h4.trans h2⟩
  root l hl h0 := by
    obtain ⟨h1, h2⟩ := h.root l hl h0
    exact h'.root l h1 h2
  session := h'.session.trans h.session

/-- The same trail and clauses. -/
lemma of_eq (ht : s'.toTrailState = s.toTrailState) (hdb : s'.toClauseDb = s.toClauseDb)
    (hs : s'.toSession = s.toSession) : Kept s s' := by
  refine ⟨fun c hc => ⟨?_, ?_⟩, fun l hl h0 => ?_, hs⟩
  · rwa [hdb]
  · rw [literals, hdb]
    exact .refl _
  · rw [ht]
    exact ⟨hl, h0⟩

lemma of_propagated (h : Core Γ s) (hp : Propagated s s') : Kept s s' where
  original c hc := ⟨hp.db.original.2 hc, hp.db.literals c⟩
  root l hl h0 := by
    have hv : s.assignments l.var ≠ none := by rw [h.trail.assigned l hl]; simp
    exact ⟨hp.trail.mem hl, (hp.trail.same l.var hv).2.1.trans h0⟩
  session := hp.session

lemma assign (h : Core Γ s) (savePhase : Bool) (hl : s.value l = none) (r : Option ClauseRef) :
    Kept s (s.assign savePhase l r) where
  original c hc := ⟨hc, .refl _⟩
  root q hq h0 := by
    have hg := TrailState.grown_push hl r
    have hv : s.assignments q.var ≠ none := by rw [h.trail.assigned q hq]; simp
    exact ⟨hg.mem hq, (hg.same q.var hv).2.1.trans h0⟩
  session := rfl

lemma cancelUntil (h : Core Γ s) (O : Oracle) (level : ℕ) : Kept s (s.cancelUntil O level) := by
  have hc := cancelled_cancelUntil O s level
  refine ⟨fun c hco => ⟨by rwa [hc.db], by rw [hc.literals]⟩, fun l hl h0 => ?_, hc.session⟩
  rcases Nat.lt_or_ge level s.decisionLevel with hlt | hge
  · rw [cancelUntil_trail O hlt]
    obtain ⟨h1, h2, -⟩ := (h.trail.shrunk hlt).kept l hl (by omega)
    exact ⟨h1, h2.trans h0⟩
  · rw [cancelUntil_of_le O hge]
    exact ⟨hl, h0⟩

lemma addClauseToDb (s : Solver) (literals : List Lit) (learned : Bool) :
    Kept s (s.addClauseToDb literals learned) where
  original c hc := by
    have hclause : (s.addClauseToDb literals learned).clause c = s.clause c :=
      ClauseDb.add_clause_of_allocated hc.1.1
    refine ⟨⟨ClauseDb.active_add.2 (.inl hc.1), ?_⟩, ?_⟩
    · rw [hclause]
      exact hc.2
    · rw [Solver.literals, hclause]
      exact .refl _
  root l hl h0 := ⟨hl, h0⟩
  session := rfl

end Kept

/-- The original clauses and the root assignment are still there. -/
structure Retained (s s' : Solver) : Prop where
  original : ∀ c, s.Original c → s'.Original c ∧ (s'.literals c).Perm (s.literals c)
  root : ∀ l ∈ s.trail, s.levels l.var = 0 → l ∈ s'.trail ∧ s'.levels l.var = 0

lemma Kept.retained (h : Kept s s') : Retained s s' := ⟨h.original, h.root⟩

namespace Retained

lemma trans {s₁ s₂ s₃ : Solver} (h : Retained s₁ s₂) (h' : Retained s₂ s₃) : Retained s₁ s₃ where
  original c hc := by
    obtain ⟨h1, h2⟩ := h.original c hc
    obtain ⟨h3, h4⟩ := h'.original c h1
    exact ⟨h3, h4.trans h2⟩
  root l hl h0 := by
    obtain ⟨h1, h2⟩ := h.root l hl h0
    exact h'.root l h1 h2

lemma of_eq (ht : s'.toTrailState = s.toTrailState) (hdb : s'.toClauseDb = s.toClauseDb) :
    Retained s s' := by
  refine ⟨fun c hc => ⟨by rwa [hdb], by rw [literals, hdb, literals]⟩, fun l hl h0 => ?_⟩
  rw [ht]
  exact ⟨hl, h0⟩

end Retained

/-! ### Learning -/

lemma determineBacktrackLevel_spec (s : Solver) {jumpLevel : ℕ} (length : ℕ)
    (hlt : jumpLevel < s.decisionLevel) :
    jumpLevel ≤ s.determineBacktrackLevel jumpLevel length ∧
      s.determineBacktrackLevel jumpLevel length < s.decisionLevel ∧
      (length = 1 → s.determineBacktrackLevel jumpLevel length = jumpLevel) := by
  rw [determineBacktrackLevel]
  split
  · exact ⟨le_rfl, hlt, fun _ => rfl⟩
  · next h1 =>
    simp only [Bool.or_eq_true, Bool.not_eq_true', decide_eq_true_eq, not_or] at h1
    split
    · exact ⟨le_rfl, hlt, fun _ => rfl⟩
    · exact ⟨by omega, by omega, fun hl => absurd hl h1.2⟩

lemma Conflict.congr (h : Conflict Γ X c s) (hcore : Core Γ s')
    (ht : s'.toTrailState = s.toTrailState) (hdb : s'.toClauseDb = s.toClauseDb)
    (hconfig : s'.config = s.config) : Conflict Γ X c s' := by
  obtain ⟨p, hp, hlev, hw, hd, hset⟩ := h.source
  refine ⟨hcore, hdb ▸ h.active, ?_, fun q hq => ?_, p, ?_⟩
  · cases c with
    | binary i => rfl
    | long i => simpa only [clauseIsShadow, hdb, hconfig] using h.visible
  · rw [literals, hdb] at hq
    rw [ht]
    exact h.falsified q hq
  · rw [hdb, ht]
    exact ⟨hp, hlev, hw, hd, hset.congr ht hdb hconfig⟩

/-- The state a learned clause enters: all its literals but the first are false. -/
structure Unitary (P : Prop) (Γ : Set (List Lit)) (A : List Lit) (L : Learned) (s : Solver) : Prop where
  core : Core Γ s
  aligned : Aligned A s.toTrailState
  settled : s.Settled s.Done (exempt P)
  entailed : Entails Γ (L.asserting :: L.others)
  nodup : ((L.asserting :: L.others).map Literal.var).Nodup
  unassigned : s.value L.asserting = none
  lt : L.asserting.var < s.variableCount
  avoid : L.asserting.var ∉ s.eliminatedVariables
  others : ∀ q ∈ L.others, -q ∈ s.trail ∧ 0 < s.levels q.var
  unit : L.others = [] → s.decisionLevel = 0

/-- Leaving the level of the conflict makes the learned clause unit. -/
lemma Conflict.unitary (h : Conflict Γ (exempt P) c s) (hA : Aligned A s.toTrailState)
    {L : Learned} (ha : Analyzed Γ s L s') (O : Oracle) {level : ℕ}
    (hlevel : level < s.decisionLevel) (hjump : L.backtrackLevel ≤ level)
    (hunit : L.others = [] → level = 0) : Unitary P Γ A L (s'.cancelUntil O level) := by
  have hc := cancelled_cancelUntil O s' level
  have hconf := h.congr ha.core ha.trail ha.db (congrArg Session.config ha.session)
  have hlevel' : level < s'.decisionLevel := by rwa [ha.trail]
  have hmem : ∀ q, q ∈ (s'.cancelUntil O level).trail ↔ q ∈ s.trail ∧ s.levels q.var ≤ level := by
    intro q
    rw [ha.core.mem_cancelUntil, ha.trail]
    exact and_congr_right fun _ => or_iff_left (Nat.not_le.2 hlevel)
  have havoid : (-L.asserting).var ∉ s'.eliminatedVariables :=
    ha.core.trail.var_notMem (by rw [ha.trail]; exact ha.mem)
  have hlt : L.asserting.var < s'.variableCount := by
    refine ha.core.trail.lt _ ?_
    rw [ha.trail, show L.asserting.var = (-L.asserting).var from rfl,
      h.core.trail.assigned _ ha.mem]
    simp
  have hcore := ha.core.cancelUntil O level
  have hopen : ∀ q : Lit, q.var = L.asserting.var → q ∉ (s'.cancelUntil O level).trail := by
    intro q hq hm
    have := ((hmem q).1 hm).2
    rw [hq, ha.level] at this
    omega
  refine ⟨hcore, ?_, hconf.settled_cancelUntil O hlevel', ha.entailed, ha.nodup, ?_, ?_, ?_,
    fun q hq => ?_, fun hnil => ?_⟩
  · have hA' : Aligned A s'.toTrailState := by rwa [ha.trail]
    exact hA'.cancelUntil ha.core O level
  · cases hv : (s'.cancelUntil O level).value L.asserting with
    | none => rfl
    | some b =>
      have hE : L.asserting.var ∉ (s'.cancelUntil O level).eliminatedVariables := by
        rwa [hc.eliminated]
      cases b with
      | true => exact absurd ((hcore.trail.mem_iff hE).2 hv) (hopen _ rfl)
      | false => exact absurd ((hcore.trail.neg_mem_iff hE).2 hv) (hopen _ rfl)
  · rwa [hc.variableCount]
  · rwa [hc.eliminated]
  · obtain ⟨h1, h2, h3⟩ := ha.others q hq
    have hq' : -q ∈ s'.trail := by rwa [ha.trail]
    refine ⟨(hmem (-q)).2 ⟨h1, h3.trans hjump⟩, ?_⟩
    rw [cancelUntil_trail O hlevel']
    have hkept := ((ha.core.trail.shrunk hlevel').kept (-q) hq' (by
      rw [ha.trail]
      exact h3.trans hjump)).2.1
    rw [Literal.var_neg] at hkept
    rw [hkept, ha.trail]
    exact h2
  · rw [cancelUntil_decisionLevel, hunit hnil, Nat.zero_min]

lemma Unitary.stored {L : Learned} (h : Unitary P Γ A L s) (hnil : L.others ≠ []) :
    Core Γ (s.addClauseToDb (L.asserting :: L.others) true) := by
  obtain ⟨q, rest, hqr⟩ := List.exists_cons_of_ne_nil hnil
  refine h.core.addClauseToDb (by simp [hqr]) h.nodup (fun l hl => ?_) (fun l hl => ?_) h.entailed
  · rcases List.mem_cons.1 hl with rfl | hl
    · exact h.lt
    · refine h.core.trail.lt _ ?_
      rw [show l.var = (-l).var from rfl, h.core.trail.assigned _ (h.others l hl).1]
      simp
  · rcases List.mem_cons.1 hl with rfl | hl
    · exact h.avoid
    · exact Literal.var_neg l ▸ h.core.trail.var_notMem (h.others l hl).1

/-- The learned clause is stored and its first literal assigned. -/
lemma Unitary.assert {L : Learned} (h : Unitary P Γ A L s) :
    ∃ s', (if L.others.isEmpty then (s.enqueue L.asserting none).2
        else ((s.addClauseToDb (L.asserting :: L.others) true).enqueue L.asserting
          (some (s.nextReference (L.asserting :: L.others)))).2) = s' ∧
      Core Γ s' ∧ Aligned A s'.toTrailState ∧ s'.Settled s'.Done (exempt P) ∧ Kept s s' ∧
      s'.shadowDeferredRootConflict = s.shadowDeferredRootConflict := by
  refine ⟨_, rfl, ?_⟩
  split
  · next hnil =>
    have hnil : L.others = [] := by simpa using hnil
    have h0 := h.unit hnil
    have hent : Entails Γ [L.asserting] := hnil ▸ h.entailed
    rw [enqueue, enqueueInternal_of_none true h.unassigned]
    exact ⟨h.core.assign true h.unassigned h.lt (fun c hc => by simp at hc) fun _ _ => hent,
      h.aligned.push h.core.trail h.unassigned none fun _ => .inl h0,
      h.settled.assign h.core true h.unassigned none, .assign h.core true h.unassigned none, rfl⟩
  · next hnil =>
    set literals := L.asserting :: L.others with hlits
    have hcore : Core Γ (s.addClauseToDb literals true) := h.stored (by simpa using hnil)
    have hun : (s.addClauseToDb literals true).value L.asserting = none := h.unassigned
    have hforces : (s.addClauseToDb literals true).Forces (s.nextReference literals)
        L.asserting := by
      rw [Forces, literals_addClauseToDb_next]
      refine ⟨ClauseDb.allocated_add.2 (.inr rfl), by simp [hlits], fun p hp hne => ?_⟩
      exact (h.others p ((List.mem_cons.1 hp).resolve_left hne)).1
    rw [enqueue, enqueueInternal_of_none true hun]
    refine ⟨hcore.assign true hun h.lt (fun c hc => by cases hc; exact hforces) (by simp),
      h.aligned.push h.core.trail h.unassigned _ (by simp), ?_,
      (Kept.addClauseToDb s literals true).trans (.assign hcore true hun _), rfl⟩
    -- the new clause needs no attention: its second literal is not of level 0
    refine ((h.settled.addClauseToDb).assign hcore true hun _).unexempt
      fun c hc l hl hY hX hD => ?_
    obtain rfl : c = s.nextReference literals := hY.resolve_left hX
    have hDs : s.Done l := (TrailState.done_push h.core.trail _).1 hD
    have hmem : l ∈ literals := by
      have hw : l ∈ (s.addClauseToDb literals true).watched (s.nextReference literals) := hl
      have := List.mem_of_mem_take hw
      rwa [← Solver.literals, literals_addClauseToDb_next] at this
    have hne : l ≠ L.asserting := by
      rintro rfl
      have := h.core.trail.done_value hDs
      rw [h.unassigned] at this
      simp at this
    have hlev := (h.others l ((List.mem_cons.1 hmem).resolve_left hne)).2
    have hlev' : ((s.addClauseToDb literals true).assign true L.asserting
        (some (s.nextReference literals))).levels l.var = s.levels l.var :=
      (TrailState.grown_push h.unassigned _).levels (by
        rw [h.core.trail.done_value hDs]
        simp)
    refine ⟨fun hle => ?_, fun _ h0 => ?_, fun _ h0 => ?_⟩
    · have hclause : ((s.addClauseToDb literals true).clause (s.nextReference literals)).learned =
          true := by
        show ((s.toClauseDb.add literals true).clause (s.nextReference literals)).learned = true
        rw [ClauseDb.add_clause_next]
      exact absurd (hle.symm.trans hclause) (by simp)
    · rw [hlev'] at h0
      omega
    · rw [hlev'] at h0
      omega

lemma Conflict.learn (h : Conflict Γ (exempt P) c s) (hA : Aligned A s.toTrailState)
    {L : Learned} (ha : Analyzed Γ s L s') (O : Oracle) :
    Core Γ (s'.learn O L) ∧ Aligned A (s'.learn O L).toTrailState ∧
      (s'.learn O L).Settled (s'.learn O L).Done (exempt P) ∧ Kept s (s'.learn O L) ∧
      (s'.learn O L).shadowDeferredRootConflict = s.shadowDeferredRootConflict := by
  have hadd : Analyzed Γ s L (s'.proofAdd (L.asserting :: L.others)) :=
    { ha with core := ha.core.congr rfl rfl rfl rfl rfl ha.core.branching }
  have hback : L.backtrackLevel < (s'.proofAdd (L.asserting :: L.others)).decisionLevel := by
    rw [hadd.trail]
    exact ha.backtrack
  obtain ⟨h1, h2, h3⟩ := determineBacktrackLevel_spec _ (L.asserting :: L.others).length hback
  rw [hadd.trail] at h2
  have hu := h.unitary hA hadd O h2 h1 fun hnil => by
    rw [h3 (by simp [hnil])]
    exact ha.unit hnil
  obtain ⟨s₂, he, hcore, hal, hset, hkept, hdef⟩ := hu.assert
  have hc := cancelled_cancelUntil O (s'.proofAdd (L.asserting :: L.others))
    ((s'.proofAdd (L.asserting :: L.others)).determineBacktrackLevel L.backtrackLevel
      (L.asserting :: L.others).length)
  have hlearn : s'.learn O L = s₂ := he
  rw [hlearn]
  refine ⟨hcore, hal, hset, ?_, hdef.trans (hc.deferred.trans ha.deferred)⟩
  exact ((Kept.of_eq hadd.trail hadd.db hadd.session).trans
    (.cancelUntil hadd.core O _)).trans hkept

end Solver

end Satrap
