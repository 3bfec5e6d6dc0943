/-
# The search loop under any assumptions

Whatever the assumptions are, also when elimination has removed their variables, the loop keeps
the solver invariant and its literals justified.  So conflict analysis never panics, and the only
way for an iteration to end without an answer or a next state is in the extension of a model.
-/
import Satrap.Solver.Justification

namespace Satrap

open Logic

/-- Nothing is said of the trail without assumptions. -/
lemma aligned_nil (t : TrailState) : Aligned [] t where
  decided l _ _ := by
    rcases Nat.eq_zero_or_pos (t.levels l.var) with h0 | h0
    · exact .inl h0
    · exact .inr (.inl h0)
  placed k a ha _ := by simp at ha

namespace Solver

variable {Γ : Set (List Lit)} {A : List Lit} {O : Oracle} {s s' : Solver} {c : ClauseRef}
  {l p q : Lit}

/-- A state of the search loop. -/
structure Engaged (Γ : Set (List Lit)) (s : Solver) : Prop where
  searching : Searching False Γ [] s
  justified : Justified s

lemma engaged_of_root (h : Core Γ s) (h0 : s.decisionLevel = 0) : Engaged Γ s where
  searching := ⟨h, aligned_nil _, .inl (.of_not id s _), fun _ => h0⟩
  justified := .of_root h.trail h0

lemma calm_of_core (h : Core Γ s) (hd : s.shadowDeferredRootConflict = none) :
    Calm False Γ [] s :=
  ⟨h, aligned_nil _, .of_not id s _, hd⟩

lemma Justified.poll (h : Justified s) (O : Oracle) : Justified (s.pollSearchStop O).2 := by
  obtain ⟨n, r, he⟩ := poll_eq O s
  rw [he]
  exact h.congr rfl rfl rfl

lemma Engaged.poll (h : Engaged Γ s) (O : Oracle) : Engaged Γ (s.pollSearchStop O).2 :=
  ⟨h.searching.poll O, h.justified.poll O⟩

lemma Engaged.propagate (h : Engaged Γ s) (O : Oracle) :
    Justified (s.propagate O).2 ∧ (s.propagate O).2.decisionLevel = s.decisionLevel := by
  rw [Solver.propagate]
  cases hd : s.shadowDeferredRootConflict with
  | some c => exact ⟨h.justified.congr rfl rfl rfl, rfl⟩
  | none =>
    obtain ⟨hp, hok⟩ := propagateInternal_spec (X := exempt False) O h.searching.core
      (.of_not id s _)
      (fun (c : ClauseRef) (l : Lit) (hc : PropagationMode.ignored {} = some c) => by simp at hc)
    refine ⟨h.justified.propagated hp h.searching.core.trail ?_, hp.trail.decisionLevel⟩
    dsimp only
    generalize s.propagateInternal O {} = r at hok
    obtain ⟨conflict, s'⟩ := r
    cases conflict with
    | none => exact hok.1.trail
    | some c => exact hok.core.trail

/-! ### Modes -/

lemma restartReuseLevel_frame (O : Oracle) (s : Solver) :
    (s.restartReuseLevel O).2.toTrailState = s.toTrailState ∧
      (s.restartReuseLevel O).2.toClauseDb = s.toClauseDb ∧
      (s.restartReuseLevel O).2.toSession = s.toSession := by
  have hcand : (s.restartReuseCandidate O).2.toTrailState = s.toTrailState ∧
      (s.restartReuseCandidate O).2.toClauseDb = s.toClauseDb ∧
      (s.restartReuseCandidate O).2.toSession = s.toSession := by
    rw [restartReuseCandidate]
    generalize s.order.peekMax s.assignments (O.activity s.clock) (s.order.size + 1) = r
    obtain ⟨next, order⟩ := r
    cases next <;> exact ⟨rfl, rfl, rfl⟩
  rw [restartReuseLevel]
  split
  · exact ⟨rfl, rfl, rfl⟩
  · dsimp only
    split <;> exact hcand

lemma Justified.restart (h : Justified s) (hs : Calm False Γ [] s) (O : Oracle) :
    Justified (s.restart O) := by
  obtain ⟨hsearch, hkept, hroot⟩ := hs.restart O
  by_cases hshadow : s.config.shadowClauseReactivation = true
  · exact .of_root hsearch.core.trail (hroot hshadow)
  · obtain ⟨h1, h2, h3⟩ := restartReuseLevel_frame O s
    have hcore := (hs.restartReuseLevel O).1.core
    have hj : Justified (s.restartReuseLevel O).2 :=
      h.congr h1 h2 (congrArg Session.config h3)
    have hplain : s.restart O =
        ((s.restartReuseLevel O).2.cancelUntil O (s.restartReuseLevel O).1).applyVotes O := by
      rw [Solver.restart]
      refine if_neg ?_
      show ¬ ((s.restartReuseLevel O).2.cancelUntil O
        (s.restartReuseLevel O).1).config.shadowClauseReactivation = true
      rw [(cancelled_cancelUntil O _ _).config, congrArg Session.config h3]
      exact hshadow
    rw [hplain]
    exact (hj.cancelUntil hcore O _).congr rfl rfl rfl

lemma Justified.changeBranching (h : Justified s) (hs : Calm False Γ [] s) (O : Oracle) :
    Justified (s.changeBranching O) := by
  rw [Solver.changeBranching]
  split
  · exact h.congr rfl rfl rfl
  split
  · exact h.congr rfl rfl rfl
  split
  · have htick : Justified s.tick := h.congr rfl rfl rfl
    exact htick.restart hs.tick O
  · exact h.congr rfl rfl rfl

lemma Justified.changeMode (h : Justified s) (hs : Calm False Γ [] s) (O : Oracle) :
    Justified (s.changeMode O) := by
  have htick : Justified s.tick := h.congr rfl rfl rfl
  rw [Solver.changeMode]
  split
  · split
    · exact (htick.cancelUntil hs.tick.core O 0).congr rfl rfl rfl
    · exact htick.changeBranching hs.tick O
  · exact htick.changeBranching hs.tick O

/-! ### After a conflict -/

/-- The state in which a conflict is analysed. -/
def countConflict (s : Solver) : Solver := { s with conflicts := s.conflicts + 1 }

/-- A conflict above the root, and the literals of the trail justified. -/
structure Conflicting (Γ : Set (List Lit)) (c : ClauseRef) (s : Solver) : Prop where
  conflict : Conflict Γ (exempt False) c s
  justified : Justified s
  deferred : s.shadowDeferredRootConflict = none
  level : 0 < s.decisionLevel

namespace Conflicting

lemma countConflict (h : Conflicting Γ c s) : Conflicting Γ c s.countConflict where
  conflict := h.conflict.congr
    (h.conflict.core.congr rfl rfl rfl rfl rfl h.conflict.core.branching) rfl rfl rfl
  justified := h.justified.congr rfl rfl rfl
  deferred := h.deferred
  level := h.level

variable (h : Conflicting Γ c s)
include h

lemma neg_mem (hq : q ∈ s.literals c) : -q ∈ s.trail :=
  (h.conflict.core.trail.neg_mem_iff (h.conflict.core.active_var h.conflict.active hq)).2
    (h.conflict.falsified q hq)

/-- The literal whose propagation met the conflict is of the current level. -/
lemma current : ∃ q ∈ s.literals c, s.levels q.var = s.decisionLevel := by
  obtain ⟨p, -, hlev, hw, -, -⟩ := h.conflict.source
  exact ⟨-p, List.mem_of_mem_take hw, by rw [Literal.var_neg]; exact hlev⟩

/-- **Analysis succeeds**, and its clause follows from the clauses in force. -/
lemma analyze (O : Oracle) : ∃ L s', s.analyze O c = some (L, s') ∧
    Derived s.activeClauses s L ∧ Analyzed Γ s L s' := by
  have hg := h.conflict.core.grounded_active h.justified
  have he := entails_activeClauses h.conflict.active h.conflict.visible
  obtain ⟨⟨L, s'⟩, hs⟩ := Option.isSome_iff_exists.1 (hg.analyze_isSome O h.justified
    h.conflict.active.1 he (fun q => h.neg_mem) h.level h.current)
  exact ⟨L, s', hs, (hg.analyze O h.conflict.active.1 he (fun q => h.neg_mem) h.level hs).1,
    analyze_spec O h.conflict.core h.conflict.active.1 (fun q => h.neg_mem) h.level hs⟩

/-- The conflict branch of the loop goes on. -/
lemma resolve (O : Oracle) :
    ∃ s', s.resolveConflict O c = some (.continue s') ∧ Engaged Γ s' ∧ Kept s s' := by
  obtain ⟨L, s₁, hs₁, -, ha⟩ := h.countConflict.analyze O
  have hres : s.resolveConflict O c =
      some (.continue (((s₁.learn O L).reduceDatabase O).changeMode O)) := by
    rw [Solver.resolveConflict, if_neg (show ¬ ({ s with conflicts := s.conflicts + 1 } :
      Solver).decisionLevel = 0 from Nat.ne_of_gt h.level)]
    rw [Solver.countConflict] at hs₁
    rw [hs₁]
  have hok := resolveConflict_spec O h.conflict (aligned_nil _) h.deferred h.level hres
  have hconf := h.countConflict.conflict
  obtain ⟨h1, h2, h3, h4, h5⟩ := hconf.learn (aligned_nil _) ha O
  have hj := h.countConflict.justified.learn (O := O) hconf (aligned_nil _) ha
  have hcalm : Calm False Γ [] (s₁.learn O L) := ⟨h1, h2, h3, h5.trans h.deferred⟩
  have hj' := (hj.reduceDatabase h1 O).changeMode (hcalm.reduceDatabase O).1 O
  cases hok with
  | «continue» _ hsearch hkept => exact ⟨_, hres, ⟨hsearch, hj'⟩, hkept⟩

end Conflicting

/-! ### Without a conflict -/

/-- What is left when a query has been answered. -/
structure Ended (Γ : Set (List Lit)) (s s' : Solver) : Prop where
  session : SameSession s s'
  core : s'.consistent = true → Core Γ s'
  retained : s'.consistent = true → Retained s s'

lemma SameSession.trans {s₁ s₂ s₃ : Solver} (h : s₂.toSession = s₁.toSession)
    (h' : SameSession s₂ s₃) : SameSession s₁ s₃ := by
  rw [SameSession, h', h]

lemma SameSession.of_eq (h : s'.toSession = s.toSession) : SameSession s s' := by
  rw [SameSession, h]

/-- What an iteration of the loop comes to, under any assumptions. -/
inductive IterationOk (Γ : Set (List Lit)) (s : Solver) : SearchOutcome → Prop
  | continue (s' : Solver) (engaged : Engaged Γ s') (kept : Kept s s') :
    IterationOk Γ s (.continue s')
  | answer (result : SolveResult) (s' : Solver) (ended : Ended Γ s s') :
    IterationOk Γ s (.answer result s')

lemma Ended.of_kept {s₁ : Solver} (hk : Kept s s₁) (h : Ended Γ s₁ s') : Ended Γ s s' :=
  ⟨.trans hk.session h.session, h.core, fun hc => hk.retained.trans (h.retained hc)⟩

lemma IterationOk.of_kept {s₁ : Solver} (hk : Kept s s₁) {outcome : SearchOutcome}
    (h : IterationOk Γ s₁ outcome) : IterationOk Γ s outcome := by
  cases h with
  | «continue» s' h1 h2 => exact .continue s' h1 (hk.trans h2)
  | answer result s' h1 => exact .answer result s' (h1.of_kept hk)

lemma extendTrail_engaged (hcalm : Calm False Γ [] s) (hj : Justified s)
    (hhead : s.propagationHead = s.trail.length) (hA : ∀ a ∈ A, a.var < s.variableCount)
    (O : Oracle) {outcome : SearchOutcome} (he : s.extendTrail O A = some outcome) :
    IterationOk Γ s outcome := by
  have hcore := hcalm.core
  rw [Solver.extendTrail] at he
  split at he
  · next a ha =>
    split at he
    · -- the assumption holds: an empty level
      obtain rfl := Option.some.inj he
      obtain ⟨h1, h2⟩ := hcalm.newLevel hhead (by simp)
      exact .continue _ ⟨h1.searching, hj.newLevel hcore.trail⟩ h2
    · -- the assumption fails
      obtain ⟨seen, hs, hseen⟩ := analyzeFailedAssumption_frame hcore a A
      split at he
      next core s₁ heq =>
      rw [heq] at hs
      dsimp only at hs
      obtain rfl := Option.some.inj he
      subst hs
      exact .answer _ _ ⟨rfl, fun _ => ⟨hcore.trail, hcore.db, hcore.reason, hcore.entailed,
        hcore.root, hcore.deferred, hcore.branching, hseen⟩, fun _ => .of_eq rfl rfl⟩
    · next hv =>
      obtain rfl := Option.some.inj he
      rw [enqueueInternal_none false hv none]
      obtain ⟨h1, h2⟩ := hcalm.decide hhead false hv (hA a (List.mem_of_getElem? ha)) (by simp)
      exact .continue _ ⟨h1.searching, hj.decideOn hcore.trail hhead false hv⟩ h2
  · have hpick := pickBranchLiteral_spec O hcore
    split at he
    · next l s₁ hl =>
      rw [hl] at hpick
      obtain rfl := Option.some.inj he
      obtain ⟨h1, h2⟩ := hcalm.decidePicked hhead hpick (by simp)
      refine .continue _ ⟨h1.searching, ?_⟩ h2
      have hv : s₁.value l = none := by
        rw [hpick.trail]
        exact TrailState.value_eq_none_iff.2 (hpick.picked l.var rfl).2
      have ht₁ : s₁.toTrailState.Ok s.variableCount s.eliminatedVariables := by
        rw [hpick.trail]
        exact hcore.trail
      have hj₁ : Justified s₁ := hj.congr hpick.trail hpick.db (congrArg Session.config hpick.session)
      rw [enqueue, enqueueInternal_none true hv]
      refine hj₁.decideOn ?_ (by rw [hpick.trail]; exact hhead) true hv
      rwa [eliminatedVariables, congrArg Session.eliminationRecords hpick.session,
        congrArg Session.variableCount hpick.session]
    · next s₁ hl =>
      rw [hl] at hpick
      rw [Option.map_eq_some_iff] at he
      obtain ⟨model, -, rfl⟩ := he
      have hb := hpick.branching
      simp only [Option.map_none, reduceCtorEq, if_false] at hb
      exact .answer _ _ ⟨.of_eq hpick.session, fun _ =>
        hcore.congr hpick.trail hpick.db hpick.session hpick.deferred hpick.seen hb,
        fun _ => .of_eq hpick.trail hpick.db⟩

/-! ### The loop -/

/-- What propagation in the loop leads to, under any assumptions. -/
inductive EngagedCase (Γ : Set (List Lit)) (s : Solver) : Option ClauseRef → Solver → Prop
  | refuted (c : ClauseRef) (s' : Solver) (root : s'.decisionLevel = 0) (core : Core Γ s')
      (kept : Kept s s') : EngagedCase Γ s (some c) s'
  | conflict (c : ClauseRef) (s' : Solver) (conflicting : Conflicting Γ c s')
      (kept : Kept s s') : EngagedCase Γ s (some c) s'
  | done (s' : Solver) (calm : Calm False Γ [] s') (justified : Justified s')
      (head : s'.propagationHead = s'.trail.length ∨
        s'.searchControlActive = true ∧ s'.stopReason ≠ none)
      (kept : Kept s s') : EngagedCase Γ s none s'

lemma Engaged.propagateCase (h : Engaged Γ s) (O : Oracle) :
    EngagedCase Γ s (s.propagate O).1 (s.propagate O).2 := by
  have hj := (h.propagate O).1
  have hcase := h.searching.propagate O
  generalize s.propagate O = r at hj hcase
  obtain ⟨conflict, s'⟩ := r
  cases hcase with
  | refuted c _ hu h0 hr hk => exact .refuted c s' h0 hr.core hk
  | conflict c _ hc hA hd hl hk => exact .conflict c s' ⟨hc, hj, hd, hl⟩ hk
  | done _ hc hh hk => exact .done s' hc hj hh hk

lemma Conflicting.poll (h : Conflicting Γ c s) (O : Oracle) :
    Conflicting Γ c (s.pollSearchStop O).2 := by
  obtain ⟨n, r, he⟩ := poll_eq O s
  rw [he]
  exact ⟨h.conflict.congr (h.conflict.core.congr rfl rfl rfl rfl rfl h.conflict.core.branching)
    rfl rfl rfl, h.justified.congr rfl rfl rfl, h.deferred, h.level⟩

/-- The state after the poll that follows propagation; unless the poll stops the search,
everything has been propagated. -/
lemma EngagedCase.poll {conflict : Option ClauseRef} (h : EngagedCase Γ s conflict s')
    (O : Oracle) : Core Γ (s'.pollSearchStop O).2 ∧ Kept s (s'.pollSearchStop O).2 ∧
      ((s'.pollSearchStop O).1 = none → EngagedCase Γ s conflict (s'.pollSearchStop O).2 ∧
        (conflict = none →
          (s'.pollSearchStop O).2.propagationHead = (s'.pollSearchStop O).2.trail.length)) := by
  have hk := Kept.poll O s'
  cases h with
  | refuted c _ h0 hc hs =>
    refine ⟨hc.poll O, hs.trans hk, fun _ =>
      ⟨.refuted c _ ?_ (hc.poll O) (hs.trans hk), by simp⟩⟩
    obtain ⟨n, r, he⟩ := poll_eq O s'
    rw [he]
    exact h0
  | conflict c _ hc hs =>
    exact ⟨(hc.poll O).conflict.core, hs.trans hk, fun _ =>
      ⟨.conflict c _ (hc.poll O) (hs.trans hk), by simp⟩⟩
  | done _ hc hj hh hs =>
    refine ⟨hc.core.poll O, hs.trans hk, fun hnone => ?_⟩
    have hhead : (s'.pollSearchStop O).2.propagationHead =
        (s'.pollSearchStop O).2.trail.length := by
      rcases hh with hh | ⟨h1, h2⟩
      · obtain ⟨n, r, he⟩ := poll_eq O s'
        rw [he]
        exact hh
      · exfalso
        rw [pollSearchStop, if_neg (by simp [h1])] at hnone
        cases hr : s'.stopReason with
        | none => exact h2 hr
        | some r => simp [hr] at hnone
    refine ⟨.done _ ?_ (hj.poll O) (.inl hhead) (hs.trans hk), fun _ => hhead⟩
    obtain ⟨n, r, he⟩ := poll_eq O s'
    rw [he]
    exact hc.congr rfl rfl rfl rfl rfl hc.core.branching

/-- **One iteration of the loop** under any assumptions. -/
lemma Engaged.searchStep (h : Engaged Γ s) (hA : ∀ a ∈ A, a.var < s.variableCount) (O : Oracle)
    {outcome : SearchOutcome} (he : s.searchStep O A = some outcome) :
    IterationOk Γ s outcome := by
  have hk₁ := Kept.poll O s
  have h₁ := h.poll O
  rw [Solver.searchStep] at he
  generalize s.pollSearchStop O = p₁ at he hk₁ h₁
  obtain ⟨r₁, s₁⟩ := p₁
  cases r₁ with
  | some r =>
    obtain rfl := Option.some.inj he
    exact .answer _ _ ⟨.of_eq hk₁.session, fun _ => h₁.searching.core, fun _ => hk₁.retained⟩
  | none =>
  dsimp only at he hk₁ h₁
  refine IterationOk.of_kept hk₁ ?_
  have hcase := h₁.propagateCase O
  generalize s₁.propagate O = p₂ at he hcase
  obtain ⟨conflict, s₂⟩ := p₂
  dsimp only at he hcase
  obtain ⟨hcore, hs₃, hcase'⟩ := hcase.poll O
  generalize s₂.pollSearchStop O = p₃ at he hcore hs₃ hcase'
  obtain ⟨r₃, s₃⟩ := p₃
  dsimp only at hcore hs₃ hcase'
  cases r₃ with
  | some r =>
    obtain rfl := Option.some.inj he
    exact .answer _ _ ⟨.of_eq hs₃.session, fun _ => hcore, fun _ => hs₃.retained⟩
  | none =>
  dsimp only at he
  obtain ⟨hcase', hhead⟩ := hcase' rfl
  cases hcase' with
  | refuted c _ h0 _ _ =>
    have hroot : s₃.resolveConflict O c = some (.answer .unsat
        { ({ s₃ with conflicts := s₃.conflicts + 1 } : Solver) with consistent := false }) := by
      rw [resolveConflict]
      exact if_pos h0
    obtain rfl := Option.some.inj (hroot.symm.trans he)
    refine .answer _ _ ⟨?_, fun hc => by simp at hc, fun hc => by simp at hc⟩
    rw [SameSession, ← hs₃.session]
  | conflict c _ hconf _ =>
    obtain ⟨s', hs', h1, h2⟩ := hconf.resolve O
    obtain rfl := Option.some.inj (hs'.symm.trans he)
    exact .continue _ h1 (hs₃.trans h2)
  | done _ hcalm hj _ _ =>
    exact (extendTrail_engaged hcalm hj (hhead rfl) (fun a ha => by
      rw [congrArg Session.variableCount hs₃.session, congrArg Session.variableCount hk₁.session]
      exact hA a ha) O he).of_kept hs₃

/-- The states the loop goes through from `s`, up to the answer. -/
inductive Visits (O : Oracle) (A : List Lit) (s : Solver) : Solver → Prop
  | start : Visits O A s s
  | step {s' s'' : Solver} (visits : Visits O A s s')
      (next : s'.searchStep O A = some (.continue s'')) : Visits O A s s''

lemma Engaged.visits (h : Engaged Γ s) (hA : ∀ a ∈ A, a.var < s.variableCount)
    (hv : Visits O A s s') : Engaged Γ s' ∧ Kept s s' := by
  induction hv with
  | start => exact ⟨h, .refl s⟩
  | step _ hnext ih =>
    obtain ⟨h1, h2⟩ := ih
    have hok := h1.searchStep (fun a ha => by
      rw [congrArg Session.variableCount h2.session]
      exact hA a ha) O hnext
    cases hok with
    | «continue» _ h3 h4 => exact ⟨h3, h2.trans h4⟩

/-- **The search loop** under any assumptions. -/
theorem Engaged.search (O : Oracle) : ∀ (fuel : ℕ) (s : Solver), Engaged Γ s →
    (∀ a ∈ A, a.var < s.variableCount) →
    ∀ result s', s.search O A fuel = some (result, s') → Ended Γ s s' := by
  intro fuel
  induction fuel with
  | zero => intro s _ _ result s' he; simp [Solver.search] at he
  | succ fuel ih =>
    intro s h hA result s' he
    rw [Solver.search] at he
    cases hstep : s.searchStep O A with
    | none => rw [hstep] at he; simp at he
    | some outcome =>
      rw [hstep] at he
      have hok := h.searchStep hA O hstep
      cases hok with
      | «continue» s₁ h₁ hs =>
        exact (ih s₁ h₁ (fun a ha => by
          rw [congrArg Session.variableCount hs.session]
          exact hA a ha) result s' he).of_kept hs
      | answer result₁ s₁ hend =>
        obtain ⟨rfl, rfl⟩ := Prod.mk.inj (Option.some.inj he)
        exact hend

end Solver

end Satrap
