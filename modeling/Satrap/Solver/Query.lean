/-
# Answering a query

A query cancels the trail of the last one, propagates at the root, runs the root passes the
first time and then searches.  Provided that the passes keep what a pass has to keep
(`PassOk`), the answer is right and the solver stays valid.
-/
import Satrap.Solver.Mutation
import Satrap.Solver.RootPass

namespace Satrap

open Logic

/-- No root pass is enabled. -/
def SolverConfig.PassesOff (config : SolverConfig) : Prop :=
  config.failedLiteralProbing = false ∧ config.clauseVivification = false ∧
    config.clauseSubsumption = false ∧ config.boundedVariableElimination = false ∧
    config.boundedVariableAddition = false

namespace Solver

variable {P P' : Prop}
variable {Γ Δ : Set (List Lit)} {O : Oracle} {s s' : Solver} {c d : ClauseRef} {l q : Lit}
  {A literals : List Lit}

/-! ### Preparation -/

lemma rootPasses_of_off (O : Oracle) (h : s.config.PassesOff) :
    s.rootPasses O = (true, s) := by
  obtain ⟨h1, h2, h3, h4, h5⟩ := h
  rw [rootPasses, h1, h2, h3, h4, h5]
  rfl

/-- The state in which a query begins. -/
def beginQuery (O : Oracle) (s : Solver) : Solver :=
  { (if !s.started then { s with started := true } else s.cancelUntil O 0) with
    failedAssumptions := [] }

lemma beginQuery_session (O : Oracle) (s : Solver) :
    (s.beginQuery O).toSession = { s.toSession with started := true, failedAssumptions := [] } := by
  rw [beginQuery]
  cases hs : s.started with
  | false => rfl
  | true =>
    have h := (cancelled_cancelUntil O s 0).session
    simp only [Bool.not_true, Bool.false_eq_true, if_false]
    rw [h, ← hs]

lemma Sound.beginQuery (h : Sound P Γ s) (O : Oracle) (hc : s.consistent = true) :
    Resting P Γ (s.beginQuery O) ∧ Complete Γ (s.beginQuery O) ∧
      (s.beginQuery O).decisionLevel = 0 := by
  obtain ⟨h1, h2⟩ := h.consistent hc
  rw [Solver.beginQuery]
  cases hs : s.started with
  | false =>
    have ha : Alike s { ({ s with started := true } : Solver) with failedAssumptions := [] } :=
      ⟨rfl, rfl, rfl, rfl, rfl, rfl, rfl, rfl⟩
    exact ⟨ha.resting h1, ha.complete h2, (h.fresh hs).1⟩
  | true =>
    have ha : Alike (s.cancelUntil O 0) { s.cancelUntil O 0 with failedAssumptions := [] } :=
      ⟨rfl, rfl, rfl, rfl, rfl, rfl, rfl, rfl⟩
    refine ⟨ha.resting (h1.cancelUntil O 0), ha.complete (h2.kept (.cancelUntil h1.core O 0)), ?_⟩
    show (s.cancelUntil O 0).decisionLevel = 0
    rw [cancelUntil_decisionLevel, Nat.zero_min]

lemma prepareQuery_eq (O : Oracle) (s : Solver) : s.prepareQuery O =
    if !(s.beginQuery O).consistent then (false, s.beginQuery O)
    else
      match (s.beginQuery O).propagate O with
      | (some _, s) => (false, s)
      | (none, s') => if !s.started then rootPasses O s' else (true, s') := rfl

/-- What the session looks like when a query has been prepared. -/
structure QueryFrame (s s' : Solver) : Prop where
  session : s'.toSession = { s.toSession with
    started := true, failedAssumptions := [], variableCount := s'.variableCount,
    eliminationRecords := s'.eliminationRecords }
  count : s.variableCount ≤ s'.variableCount
  records : s.irreversible = false → s'.eliminationRecords = s.eliminationRecords

lemma QueryFrame.begin (O : Oracle) (s : Solver) : QueryFrame s (s.beginQuery O) := by
  have h := beginQuery_session O s
  refine ⟨?_, ?_, fun _ => ?_⟩
  · rw [h]
  · exact (congrArg Session.variableCount h).ge
  · rw [h]

lemma QueryFrame.pass {s₁ : Solver} (h : QueryFrame s s₁) (h' : PassFrame s₁ s') :
    QueryFrame s s' where
  session := by rw [h'.session, h.session]
  count := h.count.trans h'.count
  records hirr := by
    have hirr' : s₁.irreversible = false := by
      rw [irreversible, h.session]
      exact hirr
    rw [h'.records hirr', h.records hirr]

/-- What the preparation of a query may come to. -/
inductive QueryPrepared (P : Prop) (Γ : Set (List Lit)) (s : Solver) : Bool × Solver → Prop
  | refuted (s' : Solver) (unsat : Unsat Γ) (frame : QueryFrame s s') :
    QueryPrepared P Γ s (false, s')
  | done (s' : Solver) (prepared : Prepared P Γ s') (consistent : s.consistent = true)
      (frame : QueryFrame s s') : QueryPrepared P Γ s (true, s')

/-- The preparation of a query up to the root passes. -/
inductive QueryBegun (P : Prop) (Γ : Set (List Lit)) (O : Oracle) (s : Solver) :
    Bool × Solver → Prop
  | refuted (s' : Solver) (unsat : Unsat Γ) (frame : QueryFrame s s') :
    QueryBegun P Γ O s (false, s')
  | done (s₁ : Solver) (prepared : Prepared P Γ s₁) (consistent : s.consistent = true)
      (frame : QueryFrame s s₁) (same : s.started = false →
        ClauseDb.Same s.toClauseDb s₁.toClauseDb)
      (begun : (s.beginQuery O).propagate O = (none, s₁)) :
    QueryBegun P Γ O s (if s.started = true then (true, s₁) else s₁.rootPasses O)

/-- The root propagation of a query finds the clauses refuted or prepares the solver. -/
lemma Sound.begin (h : Sound P Γ s) (O : Oracle) (hc : s.consistent = true) :
    match (s.beginQuery O).propagate O with
    | (some _, s₁) => Unsat Γ ∧ s₁.toSession = (s.beginQuery O).toSession
    | (none, s₁) => Prepared P Γ s₁ ∧ s₁.toSession = (s.beginQuery O).toSession ∧
        (s.started = false → ClauseDb.Same s.toClauseDb s₁.toClauseDb) := by
  have hidle : (s.beginQuery O).searchControlActive = false := by
    rw [beginQuery_session]
    exact h.idle
  obtain ⟨h1, h2, h3⟩ := h.beginQuery O hc
  have hprop := h1.propagate O h3 hidle
  have hdb : s.started = false → (s.beginQuery O).toClauseDb = s.toClauseDb := by
    intro hs
    rw [Solver.beginQuery, hs]
    rfl
  generalize (s.beginQuery O).propagate O = r at hprop
  obtain ⟨conflict, s₁⟩ := r
  cases conflict with
  | some c => exact hprop
  | none =>
    obtain ⟨hroot, hhead, hdef, hk, hsame⟩ := hprop
    exact ⟨⟨hroot, hhead, hdef, (congrArg Session.searchControlActive hk.session).trans hidle,
      h2.kept hk⟩, hk.session, fun hs => hdb hs ▸ hsame⟩

lemma prepareQuery_begun (h : Sound P Γ s) (O : Oracle) :
    QueryBegun P Γ O s (s.prepareQuery O) := by
  have hcons : (s.beginQuery O).consistent = s.consistent := by rw [beginQuery_session]
  rw [prepareQuery_eq, hcons]
  cases hc : s.consistent with
  | false => exact .refuted _ (h.refuted hc) (.begin O s)
  | true =>
    have hbegin := h.begin O hc
    simp only [Bool.not_true, Bool.false_eq_true, if_false]
    generalize hr : (s.beginQuery O).propagate O = r at hbegin
    obtain ⟨conflict, s₁⟩ := r
    cases conflict with
    | some c => exact .refuted s₁ hbegin.1 ((QueryFrame.begin O s).pass (.of_session hbegin.2))
    | none =>
      obtain ⟨hp, hs, hsame⟩ := hbegin
      have hdone := QueryBegun.done s₁ hp hc ((QueryFrame.begin O s).pass (.of_session hs)) hsame hr
      cases hs : s.started with
      | false => simpa [hs] using hdone
      | true => simpa [hs] using hdone

/-- **Preparing a query**, given that the root passes do what they have to: the first query may
add clauses. -/
lemma prepareQuery_spec (h : Sound P Γ s) (O : Oracle) (hPP : P' → P) (hsub : Γ ⊆ Δ)
    (hsame : s.started = true → Γ = Δ)
    (hpasses : s.started = false → s.consistent = true →
      ∀ s₁, (s.beginQuery O).propagate O = (none, s₁) →
      Prepared P Γ s₁ → QueryFrame s s₁ → PassOk P' Δ s₁ (s₁.rootPasses O)) :
    QueryPrepared P' Δ s (s.prepareQuery O) := by
  have hbegun := prepareQuery_begun h O
  generalize s.prepareQuery O = r at hbegun
  cases hbegun with
  | refuted s' hu hf => exact .refuted s' (fun m hm => hu m fun c hc => hm c (hsub hc)) hf
  | done s₁ hp hc hf _ hbegun =>
    split
    · next hs => exact .done s₁ (hsame hs ▸ hp.weaken hPP) hc hf
    · next hs =>
      have hok := hpasses (by simpa using hs) hc s₁ hbegun hp hf
      generalize s₁.rootPasses O = r at hok
      cases hok with
      | refuted s₂ hu hf' => exact .refuted s₂ hu (hf.pass hf')
      | done s₂ hp' hf' => exact .done s₂ hp' hc (hf.pass hf')

/-! ### The answer -/

lemma Prepared.searching (h : Prepared P Γ s) (A : List Lit) : Searching P Γ A s :=
  ⟨h.core, .of_root h.core.trail h.root, .inl h.settled, fun hne => absurd h.deferred hne⟩

lemma Searching.begin (h : Searching P Γ A s) (limits : SolveLimits) :
    Searching P Γ A (s.tick.beginSearchControl limits) := by
  have ha : Alike s (s.tick.beginSearchControl limits) := ⟨rfl, rfl, rfl, rfl, rfl, rfl, rfl, rfl⟩
  exact ⟨ha.core h.core, h.aligned, h.settled.imp (fun hs => hs.congr_done rfl rfl rfl)
    fun hp => ⟨ha.pending hp.1, hp.2⟩, h.rooted⟩

/-- The parts of the session that a query leaves alone. -/
structure Queried (s s' : Solver) : Prop where
  config : s'.config = s.config
  externalVariableCount : s'.externalVariableCount = s.externalVariableCount
  scopeSelectors : s'.scopeSelectors = s.scopeSelectors
  idle : s'.searchControlActive = false
  started : s'.started = true
  count : s.variableCount ≤ s'.variableCount
  records : s.irreversible = false → s'.eliminationRecords = s.eliminationRecords

lemma QueryFrame.queried (h : QueryFrame s s') (hidle : s.searchControlActive = false) :
    Queried s s' := by
  refine ⟨?_, ?_, ?_, ?_, ?_, h.count, h.records⟩ <;> rw [h.session]
  exact hidle

lemma foldl_reinsert_idle (O : Oracle) (vs : List ℕ) :
    ∀ s : Solver, vs.foldl (reinsert O) { s with searchControlActive := false } =
      { vs.foldl (reinsert O) s with searchControlActive := false } := by
  induction vs with
  | nil => exact fun _ => rfl
  | cons v vs ih => exact fun s => ih (reinsert O s v)

lemma cancelUntil_idle (O : Oracle) (s : Solver) (level : ℕ) :
    Solver.cancelUntil O { s with searchControlActive := false } level =
      { s.cancelUntil O level with searchControlActive := false } := by
  rcases Nat.lt_or_ge level s.decisionLevel with hlt | hge
  · rw [cancelUntil, cancelUntil, if_neg (Nat.not_le.2 hlt), if_neg (Nat.not_le.2 hlt)]
    dsimp only
    rw [foldl_reinsert_idle]
  · rw [cancelUntil_of_le O hge, cancelUntil_of_le (s := { s with searchControlActive := false }) O hge]

/-- What holds when the search has answered. -/
structure Answered (P : Prop) (Γ : Set (List Lit)) (A : List Lit) (O : Oracle) (s : Solver)
    (result : SolveResult) (s' : Solver) : Prop where
  correct : Correct P Γ A s.externalVariableCount result
  queried : Queried s s'
  consistent : s'.consistent = true → Core Γ s' ∧ Resting P Γ (s'.cancelUntil O 0) ∧ Complete Γ s'
  sat : ∀ m, result = .sat m → s'.consistent = true ∧ Resting P Γ s'
  unknown : ∀ r, result = .unknown r → s'.consistent = true
  refuted : s'.consistent = false → Unsat Γ
  coreless : s'.consistent = false → s'.failedAssumptions = []
  core : result = .unsat → s'.consistent = true → FailedCore Γ A s'.failedAssumptions

lemma Queried.of_search {s₁ s₂ : Solver} {limits : SolveLimits} (h : QueryFrame s s₁)
    (h₂ : s₂.toSession = { (s₁.tick.beginSearchControl limits).toSession with
      consistent := s₂.consistent, failedAssumptions := s₂.failedAssumptions }) :
    Queried s { s₂ with searchControlActive := false } := by
  have he : s₂.toSession = { s.toSession with
      started := true, variableCount := s₁.variableCount,
      eliminationRecords := s₁.eliminationRecords
      consistent := s₂.consistent, failedAssumptions := s₂.failedAssumptions
      searchLimits := limits, searchControlActive := true,
      searchStartConflicts := s₁.conflicts, searchStartPropagations := s₁.propagations } := by
    rw [h₂]
    show ({ s₁.toSession with
      consistent := s₂.consistent, failedAssumptions := s₂.failedAssumptions
      searchLimits := limits, searchControlActive := true,
      searchStartConflicts := s₁.conflicts, searchStartPropagations := s₁.propagations } : Session)
      = _
    rw [h.session]
  refine ⟨?_, ?_, ?_, rfl, ?_, ?_, fun hirr => ?_⟩ <;> dsimp only <;> rw [he]
  · exact h.count
  · exact h.records hirr

/-- **The answer to a query** that has been prepared. -/
lemma answerQuery_spec {A : List Lit} {limits : SolveLimits} {fuel : ℕ} {r : Bool × Solver}
    (h : QueryPrepared P Γ s r) (hidle : s.searchControlActive = false)
    (hA : r.1 = true → Admissible A r.2) {result : SolveResult}
    (he : answerQuery O fuel A limits r = some (result, s')) : Answered P Γ A O s result s' := by
  cases h with
  | refuted s₁ hu hf =>
    obtain ⟨rfl, rfl⟩ := Prod.mk.inj (Option.some.inj he)
    refine ⟨fun m hm => absurd hm (hu m), ?_, by simp, by simp, by simp, fun _ => hu, fun _ => ?_,
      by simp⟩
    swap
    · rw [hf.session]
    obtain ⟨h1, h2, h3, h4, h5, h6, h7⟩ := hf.queried hidle
    exact ⟨h1, h2, h3, h4, h5, h6, h7⟩
  | done s₁ hp hc hf =>
    have hc₁ : s₁.consistent = true := by
      rw [hf.session]
      exact hc
    have hext : s₁.externalVariableCount = s.externalVariableCount := by rw [hf.session]
    rw [answerQuery] at he
    split at he
    · obtain ⟨rfl, rfl⟩ := Prod.mk.inj (Option.some.inj he)
      have ha : Alike s₁ s₁.tick := ⟨rfl, rfl, rfl, rfl, rfl, rfl, rfl, rfl⟩
      have hr := ha.resting hp.toAtRoot.resting
      obtain ⟨h1, h2, h3, h4, h5, h6, h7⟩ := hf.queried hidle
      exact ⟨trivial, ⟨h1, h2, h3, h4, h5, h6, h7⟩,
        fun _ => ⟨hr.core, hr.cancelUntil O 0, ha.complete hp.complete⟩, by simp, fun _ _ => hc₁,
        fun hn => by simp [tick, hc₁] at hn, fun hn => by simp [tick, hc₁] at hn, by simp⟩
    have hsearching := (hp.searching A).begin limits
    have hcomplete : Complete Γ (s₁.tick.beginSearchControl limits) := hp.complete
    have hadm : Admissible A (s₁.tick.beginSearchControl limits) :=
      ⟨(hA rfl).lt, (hA rfl).present⟩
    have hspec := search_spec O fuel _ hsearching hcomplete hadm
    generalize hs₂ : (s₁.tick.beginSearchControl limits).search O A fuel = out at he hspec
    match out, he with
    | some (result₂, s₂), he =>
    obtain ⟨rfl, rfl⟩ := Prod.mk.inj (Option.some.inj he)
    have hok := hspec result₂ s₂ rfl
    have ha : Alike s₂ { s₂ with searchControlActive := false } :=
      ⟨rfl, rfl, rfl, rfl, rfl, rfl, rfl, rfl⟩
    have hac : Alike (s₂.cancelUntil O 0)
        (Solver.cancelUntil O { s₂ with searchControlActive := false } 0) := by
      rw [cancelUntil_idle]
      exact ⟨rfl, rfl, rfl, rfl, rfl, rfl, rfl, rfl⟩
    -- an answer that leaves the session alone
    have hkept : Kept (s₁.tick.beginSearchControl limits) s₂ →
        Queried s { s₂ with searchControlActive := false } ∧ s₂.consistent = true ∧
          Complete Γ s₂ := fun hk =>
      ⟨.of_search hf (by rw [hk.session]), (congrArg Session.consistent hk.session).trans hc₁,
        hcomplete.kept hk⟩
    cases result₂ with
    | sat m =>
      obtain ⟨hm, hr, hk⟩ := hok
      obtain ⟨hq, hcons, hcomp⟩ := hkept hk
      rw [show (s₁.tick.beginSearchControl limits).externalVariableCount =
        s.externalVariableCount from hext] at hm
      exact ⟨hm, hq, fun _ => ⟨ha.core hr.core, hac.resting (hr.cancelUntil O 0), ha.complete hcomp⟩,
        fun _ _ => ⟨hcons, ha.resting hr⟩, fun _ _ => hcons, fun hn => by simp [hcons] at hn,
        fun hn => by simp [hcons] at hn, by simp⟩
    | unsat =>
      obtain ⟨hs, ⟨hu, hcons, hfailed⟩ | ⟨hno, hr, hcons, hcomp⟩⟩ := hok
      · have hfailed' : s₂.failedAssumptions = [] := by
          rw [hfailed]
          show s₁.failedAssumptions = []
          rw [hf.session]
        exact ⟨fun m hm => absurd hm (hu m), .of_search hf hs, fun hn => by simp [hcons] at hn,
          by simp, by simp, fun _ => hu, fun _ => hfailed', fun _ hn => by simp [hcons] at hn⟩
      · have hcons' : s₂.consistent = true := hcons.trans hc₁
        exact ⟨hno.refutes_all, .of_search hf hs, fun _ => ⟨ha.core hr.core,
          hac.resting (hr.cancelUntil O 0), ha.complete (hcomp hcomplete)⟩, by simp, by simp,
          fun hn => by simp [hcons'] at hn, fun hn => by simp [hcons'] at hn, fun _ _ => hno⟩
    | unknown reason =>
      obtain ⟨hcore, hr, hk⟩ := hok
      obtain ⟨hq, hcons, hcomp⟩ := hkept hk
      exact ⟨trivial, hq, fun _ => ⟨ha.core hcore, hac.resting hr, ha.complete hcomp⟩, by simp,
        fun _ _ => hcons, fun hn => by simp [hcons] at hn, fun hn => by simp [hcons] at hn, by simp⟩

/-! ### After the answer -/

lemma Queried.sound (hq : Queried s s') (h : Sound P Γ s)
    (hcons : s'.consistent = true → Resting P' Δ s' ∧ Complete Δ s')
    (hrefuted : s'.consistent = false → Unsat Δ)
    (hcached : ∀ r, s'.cachedResult = some r →
      Correct P' Δ s'.cachedAssumptions s.externalVariableCount r)
    (hcoreless : s'.consistent = false → s'.failedAssumptions = [])
    (hcore : s'.cachedResult = some .unsat → s'.consistent = true → ∃ assumptions,
      s'.cachedAssumptions = s.scopeSelectors ++ assumptions ∧
        ReportedCore Δ s.scopeSelectors assumptions s'.failedAssumptions) : Sound P' Δ s' where
  count := by
    rw [hq.externalVariableCount]
    exact h.count.trans hq.count
  idle := hq.idle
  fresh hn := by
    rw [hq.started] at hn
    simp at hn
  records hne := by
    have hirr : s'.irreversible = s.irreversible := by rw [irreversible, hq.config, irreversible]
    refine ⟨hq.started, ?_⟩
    rw [hirr]
    by_contra hn
    have hn' : s.irreversible = false := by simpa using hn
    rw [hq.records hn'] at hne
    exact hn (h.records hne).2
  consistent := hcons
  refuted := hrefuted
  cached := by
    rw [hq.externalVariableCount]
    exact hcached
  coreless := hcoreless
  core := by
    rw [hq.scopeSelectors]
    exact hcore

lemma Queried.of_session {s₁ : Solver} (h : Queried s s₁)
    (h₂ : s'.toSession = { s₁.toSession with
      cachedAssumptions := s'.cachedAssumptions, cachedResult := s'.cachedResult
      failedAssumptions := s'.failedAssumptions }) : Queried s s' := by
  obtain ⟨h1, h2, h3, h4, h5, h6, h7⟩ := h
  constructor <;> rw [h₂]
  · exact h1
  · exact h2
  · exact h3
  · exact h4
  · exact h5
  · exact h6
  · exact h7

/-- **Recording the answer** keeps the solver valid. -/
lemma finishQuery_spec (assumptions : List Lit) {query : List Lit} {result : SolveResult} {s₁ : Solver}
    (hquery : query = s.scopeSelectors ++ assumptions) (h : Sound P Γ s)
    (ha : Answered P' Δ query O s result s₁) :
    Queried s (finishQuery O assumptions query result s₁) ∧
      Sound P' Δ (finishQuery O assumptions query result s₁) := by
  have hcancel := (cancelled_cancelUntil O s₁ 0).session
  have hkept : Core Δ s₁ → Kept s₁ (s₁.cancelUntil O 0) := fun hc => .cancelUntil hc O 0
  have hcached : ∀ {s' : Solver}, s'.cachedResult = some result → s'.cachedAssumptions = query →
      ∀ r, s'.cachedResult = some r →
        Correct P' Δ s'.cachedAssumptions s.externalVariableCount r := by
    intro s' h1 h2 r hr
    rw [h1] at hr
    rw [h2, ← Option.some.inj hr]
    exact ha.correct
  cases result with
  | sat m =>
    obtain ⟨hcons, hr⟩ := ha.sat m rfl
    have hal : Alike s₁ (finishQuery O assumptions query (.sat m) s₁) :=
      ⟨rfl, rfl, rfl, rfl, rfl, rfl, rfl, rfl⟩
    have hq : Queried s (finishQuery O assumptions query (.sat m) s₁) := ha.queried.of_session rfl
    exact ⟨hq, hq.sound h (fun hc => ⟨hal.resting hr, hal.complete (ha.consistent hc).2.2⟩)
      ha.refuted (hcached rfl rfl) ha.coreless (fun hn => by simp [finishQuery] at hn)⟩
  | unknown reason =>
    have hcons := ha.unknown reason rfl
    obtain ⟨hcore, hr, hcomp⟩ := ha.consistent hcons
    have hal : Alike (s₁.cancelUntil O 0) (finishQuery O assumptions query (.unknown reason) s₁) :=
      ⟨rfl, rfl, rfl, rfl, rfl, rfl, rfl, rfl⟩
    have hq : Queried s (finishQuery O assumptions query (.unknown reason) s₁) := by
      refine ha.queried.of_session ?_
      show ({ (s₁.cancelUntil O 0).toSession with
        failedAssumptions := [], cachedAssumptions := [], cachedResult := none } : Session) = _
      rw [hcancel]
      rfl
    refine ⟨hq, hq.sound h (fun _ => ⟨hal.resting hr, hal.complete (hcomp.kept (hkept hcore))⟩) ?_ ?_
      (fun _ => rfl) (fun hn => by simp [finishQuery] at hn)⟩
    · intro hc
      have : (s₁.cancelUntil O 0).consistent = true :=
        (congrArg Session.consistent hcancel).trans hcons
      rw [show (finishQuery O assumptions query (.unknown reason) s₁).consistent =
        (s₁.cancelUntil O 0).consistent from rfl, this] at hc
      simp at hc
    · intro r hr
      simp [finishQuery] at hr
  | unsat =>
    rw [finishQuery]
    split
    · next hcons =>
      obtain ⟨hcore, hr, hcomp⟩ := ha.consistent hcons
      set failed := s₁.failedAssumptions.filter fun l => decide (l ∈ assumptions)
      have hal : Alike (s₁.cancelUntil O 0) { s₁.cancelUntil O 0 with
          failedAssumptions := failed, cachedAssumptions := query, cachedResult := some .unsat } :=
        ⟨rfl, rfl, rfl, rfl, rfl, rfl, rfl, rfl⟩
      have hq : Queried s { s₁.cancelUntil O 0 with
          failedAssumptions := failed, cachedAssumptions := query, cachedResult := some .unsat } := by
        refine ha.queried.of_session ?_
        show ({ (s₁.cancelUntil O 0).toSession with
          failedAssumptions := failed, cachedAssumptions := query
          cachedResult := some .unsat } : Session) = _
        rw [hcancel]
      have hcons' : (s₁.cancelUntil O 0).consistent = true :=
        (congrArg Session.consistent hcancel).trans hcons
      exact ⟨hq, hq.sound h
        (fun _ => ⟨hal.resting hr, hal.complete (hcomp.kept (hkept hcore))⟩)
        (fun hc => by simp [hcons'] at hc) (hcached rfl rfl) (fun hc => by simp [hcons'] at hc)
        fun _ _ => ⟨assumptions, hquery, _, hquery ▸ ha.core rfl hcons, rfl⟩⟩
    · next hcons =>
      have hq : Queried s { s₁.proofAdd [] with
          cachedAssumptions := query, cachedResult := some .unsat } := ha.queried.of_session rfl
      exact ⟨hq, hq.sound h (fun hc => absurd hc hcons) ha.refuted (hcached rfl rfl) ha.coreless
        fun _ hc => absurd hc hcons⟩

lemma Correct.weaken {n : ℕ} {r : SolveResult} (h : Correct P Γ A n r) (hPP : P' → P) :
    Correct P' Γ A n r := by
  cases r with
  | sat m => exact fun hP => h (hPP hP)
  | unsat => exact h
  | unknown _ => trivial

lemma Valid.weaken (h : Valid P Γ s) (hPP : P' → P) : Valid P' Γ s where
  count := h.count
  vars := h.vars
  idle := h.idle
  fresh := h.fresh
  records := h.records
  consistent hc := by
    obtain ⟨⟨h1, h2⟩, h3⟩ := h.consistent hc
    exact ⟨⟨h1, h2.imp_left fun hs => hs.weaken hPP⟩, h3⟩
  refuted := h.refuted
  cached r hr := (h.cached r hr).weaken hPP
  coreless := h.coreless
  core := h.core

/-- The query asks for variables that are there. -/
lemma assumptions_lt {fuel : ℕ} {assumptions : List Lit} {limits : SolveLimits}
    {result : SolveResult}
    (he : s.solveAssumingWithLimits O fuel assumptions limits = some (result, s')) :
    ∀ a ∈ assumptions, a.var < s.externalVariableCount := by
  rw [solveAssumingWithLimits] at he
  split at he
  · simp at he
  · next hvars =>
    intro a ha
    by_contra hge
    exact hvars (List.any_eq_true.2 ⟨a, ha, by simpa using hge⟩)

/-- **A query** of a sound solver is answered from the cache or leaves a solver that is sound for
the clauses of the first query, and the answer is right for these. -/
lemma query_spec (h : Sound P Γ s) {fuel : ℕ} {assumptions : List Lit} {limits : SolveLimits}
    (hPP : P' → P) (hsub : Γ ⊆ Δ) (hsame : s.started = true → Γ = Δ)
    (hpasses : s.started = false → s.consistent = true →
      ∀ s₁, (s.beginQuery O).propagate O = (none, s₁) →
      Prepared P Γ s₁ → QueryFrame s s₁ → PassOk P' Δ s₁ (s₁.rootPasses O))
    (hsel : ∀ l ∈ s.scopeSelectors, l.var < s.externalVariableCount)
    (hpresent : (s.prepareQuery O).1 = true →
      ∀ a ∈ s.scopeSelectors ++ assumptions, a.var ∉ (s.prepareQuery O).2.eliminatedVariables)
    {result : SolveResult}
    (he : s.solveAssumingWithLimits O fuel assumptions limits = some (result, s')) :
    (s' = s ∧ s.cachedAssumptions = s.scopeSelectors ++ assumptions ∧
      s.cachedResult = some result) ∨
    (Correct P' Δ (s.scopeSelectors ++ assumptions) s.externalVariableCount result ∧
      Queried s s' ∧ Sound P' Δ s' ∧
      (result = .unsat → s'.cachedResult = some .unsat ∧
        s'.cachedAssumptions = s.scopeSelectors ++ assumptions)) := by
  have hlt : ∀ a ∈ s.scopeSelectors ++ assumptions, a.var < s.externalVariableCount := by
    intro a ha
    rcases List.mem_append.1 ha with ha | ha
    · exact hsel a ha
    · exact assumptions_lt he a ha
  rw [solveAssumingWithLimits] at he
  split at he
  · simp at he
  dsimp only at he
  split at he
  · next r hr =>
    obtain ⟨rfl, rfl⟩ := Prod.mk.inj (Option.some.inj he)
    split at hr
    · next hquery => exact .inl ⟨rfl, hquery, hr⟩
    · simp at hr
  have hprep := prepareQuery_spec h O hPP hsub hsame hpasses
  have hcount : s.variableCount ≤ (s.prepareQuery O).2.variableCount := by
    generalize s.prepareQuery O = r at hprep
    cases hprep with
    | refuted s' _ hf => exact hf.count
    | done s' _ _ hf => exact hf.count
  have hA : (s.prepareQuery O).1 = true →
      Admissible (s.scopeSelectors ++ assumptions) (s.prepareQuery O).2 := fun ht =>
    ⟨fun a ha => ((hlt a ha).trans_le h.count).trans_le hcount, hpresent ht⟩
  generalize hans : answerQuery O fuel (s.scopeSelectors ++ assumptions) limits
    (s.prepareQuery O) = out at he
  match out, he with
  | some (result₁, s₁), he =>
  obtain ⟨rfl, rfl⟩ := Prod.mk.inj (Option.some.inj he)
  have ha := answerQuery_spec hprep h.idle hA hans
  obtain ⟨hq, hs⟩ := finishQuery_spec assumptions rfl h ha
  refine .inr ⟨ha.correct, hq, hs, ?_⟩
  rintro rfl
  rw [finishQuery]
  split <;> exact ⟨rfl, rfl⟩

/-- **A query** of a valid solver is answered correctly and leaves a valid solver. -/
theorem solveAssumingWithLimits_spec (h : Valid P Γ s) {fuel : ℕ} {assumptions : List Lit}
    {limits : SolveLimits} (hPP : P' → P)
    (hpasses : s.started = false → ∀ s₁, (s.beginQuery O).propagate O = (none, s₁) →
      Prepared P Γ s₁ → QueryFrame s s₁ → PassOk P' Γ s₁ (s₁.rootPasses O))
    (hsel : ∀ l ∈ s.scopeSelectors, l.var < s.externalVariableCount)
    (hpresent : (s.prepareQuery O).1 = true →
      ∀ a ∈ s.scopeSelectors ++ assumptions, a.var ∉ (s.prepareQuery O).2.eliminatedVariables)
    {result : SolveResult}
    (he : s.solveAssumingWithLimits O fuel assumptions limits = some (result, s')) :
    Correct P' Γ (s.scopeSelectors ++ assumptions) s.externalVariableCount result ∧
      Valid P' Γ s' ∧ (s' = s ∨ s'.started = true) ∧ s'.config = s.config ∧
      s'.scopeSelectors = s.scopeSelectors ∧
      s'.externalVariableCount = s.externalVariableCount ∧
      (result = .unsat → s'.cachedResult = some .unsat ∧
        s'.cachedAssumptions = s.scopeSelectors ++ assumptions) := by
  obtain ⟨rfl, hquery, hr⟩ | ⟨hc, hq, hs, hu⟩ :=
    query_spec h.sound hPP subset_rfl (fun _ => rfl)
    (fun hst _ => hpasses hst) hsel hpresent he
  · exact ⟨hquery ▸ (h.cached _ hr).weaken hPP, h.weaken hPP, .inl rfl, rfl, rfl, rfl,
      fun hu => ⟨hu ▸ hr, hquery⟩⟩
  · refine ⟨hc, hs.valid ?_, .inr hq.started, hq.config, hq.scopeSelectors,
      hq.externalVariableCount, hu⟩
    rw [hq.externalVariableCount]
    exact h.vars

end Solver

end Satrap
