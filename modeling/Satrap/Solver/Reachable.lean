/-
# Every reachable state

`Reachable` are the states of a solver between the operations of its interface, for any
configuration and any calls.  Until elimination or addition of variables has run, such a state is
valid; afterwards nothing but queries is accepted, and the solver invariant still holds, for the
clauses that these passes have made of the given ones.  So the search loop is always entered in a
state in which conflict analysis does what it should.
-/
import Satrap.Solver.Engagement
import Satrap.Solver.Inprocessing

namespace Satrap

open Logic

namespace Solver

variable {P : Prop}
variable {Γ : Set (List Lit)} {A : List Lit} {O : Oracle} {config : SolverConfig}
  {s s' : Solver} {c : ClauseRef} {l q : Lit}

/-- The states between operations. -/
inductive Reachable (O : Oracle) (config : SolverConfig) : Solver → Prop
  | start : Reachable O config (withConfig config)
  | addClause {s : Solver} (run : Reachable O config s) (literals : List Lit) (guard : Bool)
      (kind : ProofClauseKind) : Reachable O config (s.addClauseInternal O literals guard kind).2
  | reserveVariables {s : Solver} (run : Reachable O config s) (count : ℕ) :
      Reachable O config (s.tryReserveVariables O count).2
  | pushLevels {s : Solver} (run : Reachable O config s) (levels : ℕ) :
      Reachable O config (s.pushLevels O levels).2
  | pop {s : Solver} (run : Reachable O config s) (levels : ℕ) :
      Reachable O config (s.pop O levels).2
  | solve {s s' : Solver} (run : Reachable O config s) {fuel : ℕ} {assumptions : List Lit}
      {limits : SolveLimits} {result : SolveResult}
      (answered : s.solveAssumingWithLimits O fuel assumptions limits = some (result, s')) :
      Reachable O config s'

/-- What holds of a solver between operations. -/
inductive Standing (s : Solver) : Prop
  | valid (Γ : Set (List Lit)) (valid : Valid (s.started = false) Γ s)
      (selectors : ∀ l ∈ s.scopeSelectors, l.var < s.externalVariableCount)
      (fresh : s.started = false → Unlearned s) (open_ : ¬ (s.started = true ∧ s.irreversible = true))
  | spent (started : s.started = true) (irreversible : s.irreversible = true)
      (count : s.externalVariableCount ≤ s.variableCount) (idle : s.searchControlActive = false)
      (selectors : ∀ l ∈ s.scopeSelectors, l.var < s.externalVariableCount)
      (core : s.consistent = true → ∃ Γ, Core Γ s)

/-! ### The root passes -/

/-- All root passes together; the last of them adds definitions to the clauses. -/
lemma rootPasses_ok (h : Prepared P Γ s) (hP : P) (hun : Unlearned s) (O : Oracle) :
    ∃ Δ, PassOk False Δ s (s.rootPasses O) := by
  have hsimplified : Simplified False Γ s (s.simplify O) :=
    simplify_spec h hP O False.elim False.elim
  obtain ⟨hok, hst⟩ := hsimplified
  have helim : PassOk False Γ s
      (thenPass s.config.boundedVariableElimination (eliminateVariables O) (s.simplify O)) := by
    generalize s.simplify O = r at hok hst
    cases hok with
    | refuted s₁ hu hf => exact .refuted s₁ hu hf
    | done s₁ hp hf =>
      cases hbve : s.config.boundedVariableElimination with
      | false => exact .done s₁ hp hf
      | true =>
        have hirr : s₁.irreversible = true := by
          rw [irreversible, hf.config, hbve]
          rfl
        exact (eliminateVariables_spec O hp (hun.of_stored (hst rfl)) hirr).1.of_frame hf
  show ∃ Δ, PassOk False Δ s (thenPass _ (fun s => (true, s.factorExactNeighborhoods O))
    (thenPass s.config.boundedVariableElimination (eliminateVariables O) (s.simplify O)))
  generalize thenPass s.config.boundedVariableElimination (eliminateVariables O) (s.simplify O) = r
    at helim
  cases helim with
  | refuted s₁ hu hf => exact ⟨Γ, .refuted s₁ hu hf⟩
  | done s₁ hp hf =>
    rw [thenPass]
    split
    · obtain ⟨D, hrew, hp'⟩ := factorExactNeighborhoods_spec O hp
      have hf' : PassFrame s₁ (s₁.factorExactNeighborhoods O) := by
        refine ⟨?_, hrew.count, fun _ => ?_⟩ <;> rw [hrew.session]
      exact ⟨Γ ∪ D, .done _ hp' (hf.trans hf')⟩
    · exact ⟨Γ, .done s₁ hp hf⟩

/-! ### Preparing a query -/

/-- What the preparation of a query comes to, for any configuration. -/
inductive Readied (s : Solver) : Bool × Solver → Prop
  | refuted (s' : Solver) (frame : QueryFrame s s') : Readied s (false, s')
  | done (s' : Solver) (Γ : Set (List Lit)) (core : Core Γ s') (root : s'.decisionLevel = 0)
      (frame : QueryFrame s s') : Readied s (true, s')

lemma Standing.prepareQuery (h : Standing s) (O : Oracle) : Readied s (s.prepareQuery O) := by
  cases h with
  | valid Γ hv hsel hfresh hopen =>
    have hbegun := prepareQuery_begun hv.sound O
    generalize s.prepareQuery O = r at hbegun
    cases hbegun with
    | refuted s' hu hf => exact .refuted s' hf
    | done s₁ hp hc hf hsame _ =>
      split
      · exact .done s₁ Γ hp.core hp.root hf
      · next hs =>
        have hs : s.started = false := by simpa using hs
        have hun : Unlearned s₁ := fun c hc => by
          have := hfresh hs c ((hsame hs).allocated.1 hc)
          rwa [(hsame hs).learned]
        obtain ⟨Δ, hok⟩ := rootPasses_ok hp hs hun O
        generalize s₁.rootPasses O = r at hok
        cases hok with
        | refuted s₂ hu hf' => exact .refuted s₂ (hf.pass hf')
        | done s₂ hp' hf' => exact .done s₂ Δ hp'.core hp'.root (hf.pass hf')
  | spent hst hirr hcount hidle hsel hcore =>
    have hframe := QueryFrame.begin O s
    have hcons : (s.beginQuery O).consistent = s.consistent := by rw [beginQuery_session]
    rw [prepareQuery_eq, hcons]
    cases hc : s.consistent with
    | false => exact .refuted _ hframe
    | true =>
      obtain ⟨Γ, hΓ⟩ := hcore hc
      have hbegin : s.beginQuery O = { s.cancelUntil O 0 with failedAssumptions := [] } := by
        rw [beginQuery, hst]
        rfl
      have hcore₀ : Core Γ (s.beginQuery O) := by
        have ha : Alike (s.cancelUntil O 0) (s.beginQuery O) := by
          rw [hbegin]
          exact ⟨rfl, rfl, rfl, rfl, rfl, rfl, rfl, rfl⟩
        exact ha.core (hΓ.cancelUntil O 0)
      have hroot : (s.beginQuery O).decisionLevel = 0 := by
        rw [hbegin]
        show (s.cancelUntil O 0).decisionLevel = 0
        rw [cancelUntil_decisionLevel, Nat.zero_min]
      have hcase := (engaged_of_root hcore₀ hroot).propagateCase O
      have hlevel := ((engaged_of_root hcore₀ hroot).propagate O).2.trans hroot
      simp only [Bool.not_true, Bool.false_eq_true, if_false, hst]
      generalize s.beginQuery O = s₀ at *
      generalize s₀.propagate O = r at hcase hlevel
      obtain ⟨conflict, s₁⟩ := r
      cases hcase with
      | refuted c _ h0 hc₁ hs => exact .refuted s₁ (hframe.pass (.of_session hs.session))
      | conflict c _ hconf hs => exact .refuted s₁ (hframe.pass (.of_session hs.session))
      | done _ hcalm hj hh hs =>
        exact .done s₁ Γ hcalm.core hlevel (hframe.pass (.of_session hs.session))

/-! ### Answering a query -/

lemma Engaged.begin (h : Core Γ s) (h0 : s.decisionLevel = 0) (limits : SolveLimits) :
    Engaged Γ (s.tick.beginSearchControl limits) := by
  have ha : Alike s (s.tick.beginSearchControl limits) := ⟨rfl, rfl, rfl, rfl, rfl, rfl, rfl, rfl⟩
  exact engaged_of_root (ha.core h) h0

/-- The answer leaves a state in which the invariant holds, unless the clauses are refuted. -/
lemma Readied.answer {r : Bool × Solver} (h : Readied s r) (hidle : s.searchControlActive = false)
    (hA : ∀ a ∈ A, a.var < s.variableCount) {fuel : ℕ} {limits : SolveLimits}
    {result : SolveResult} (he : answerQuery O fuel A limits r = some (result, s')) :
    Queried s s' ∧ (s'.consistent = true → ∃ Γ, Core Γ s') := by
  cases h with
  | refuted s₁ hf =>
    obtain ⟨rfl, rfl⟩ := Prod.mk.inj (Option.some.inj he)
    obtain ⟨h1, h2, h3, h4, h5, h6, h7⟩ := hf.queried hidle
    exact ⟨⟨h1, h2, h3, h4, h5, h6, h7⟩, fun hc => by simp at hc⟩
  | done s₁ Γ hcore h0 hf =>
    rw [answerQuery] at he
    split at he
    · obtain ⟨rfl, rfl⟩ := Prod.mk.inj (Option.some.inj he)
      have ha : Alike s₁ s₁.tick := ⟨rfl, rfl, rfl, rfl, rfl, rfl, rfl, rfl⟩
      obtain ⟨h1, h2, h3, h4, h5, h6, h7⟩ := hf.queried hidle
      exact ⟨⟨h1, h2, h3, h4, h5, h6, h7⟩, fun _ => ⟨Γ, ha.core hcore⟩⟩
    have hsearch := Engaged.search O fuel _ (Engaged.begin hcore h0 limits) fun a ha =>
      (hA a ha).trans_le hf.count
    generalize (s₁.tick.beginSearchControl limits).search O A fuel = out at he hsearch
    cases out with
    | none => cases he
    | some answer =>
    obtain ⟨result₂, s₂⟩ := answer
    obtain ⟨rfl, rfl⟩ := Prod.mk.inj (Option.some.inj he)
    obtain ⟨hs, hc⟩ := hsearch result₂ s₂ rfl
    have ha : Alike s₂ { s₂ with searchControlActive := false } :=
      ⟨rfl, rfl, rfl, rfl, rfl, rfl, rfl, rfl⟩
    exact ⟨Queried.of_search hf hs, fun hc' => ⟨Γ, ha.core (hc hc')⟩⟩

/-- Recording the answer. -/
lemma finishQuery_core (assumptions query : List Lit) (result : SolveResult) {s₁ : Solver}
    (hq : Queried s s₁) (hcore : s₁.consistent = true → ∃ Γ, Core Γ s₁) :
    Queried s (finishQuery O assumptions query result s₁) ∧
      ((finishQuery O assumptions query result s₁).consistent = true →
        ∃ Γ, Core Γ (finishQuery O assumptions query result s₁)) := by
  have hcancel := (cancelled_cancelUntil O s₁ 0).session
  have hback : (s₁.cancelUntil O 0).consistent = true → ∃ Γ, Core Γ (s₁.cancelUntil O 0) := by
    intro hc
    obtain ⟨Γ, hΓ⟩ := hcore ((congrArg Session.consistent hcancel).symm.trans hc)
    exact ⟨Γ, hΓ.cancelUntil O 0⟩
  have halike : ∀ {t t' : Solver}, (∃ Γ, Core Γ t) → Alike t t' → ∃ Γ, Core Γ t' :=
    fun ⟨Γ, hΓ⟩ ha => ⟨Γ, ha.core hΓ⟩
  cases result with
  | sat m =>
    exact ⟨hq.of_session rfl,
      fun hc => halike (hcore hc) ⟨rfl, rfl, rfl, rfl, rfl, rfl, rfl, rfl⟩⟩
  | unknown reason =>
    refine ⟨hq.of_session ?_,
      fun hc => halike (hback hc) ⟨rfl, rfl, rfl, rfl, rfl, rfl, rfl, rfl⟩⟩
    show ({ (s₁.cancelUntil O 0).toSession with
      failedAssumptions := [], cachedAssumptions := [], cachedResult := none } : Session) = _
    rw [hcancel]
    rfl
  | unsat =>
    rw [finishQuery]
    split
    · refine ⟨hq.of_session ?_,
        fun hc => halike (hback hc) ⟨rfl, rfl, rfl, rfl, rfl, rfl, rfl, rfl⟩⟩
      show ({ (s₁.cancelUntil O 0).toSession with
        failedAssumptions := _, cachedAssumptions := query
        cachedResult := some .unsat } : Session) = _
      rw [hcancel]
    · next hn => exact ⟨hq.of_session rfl, fun hc => absurd hc hn⟩

lemma Standing.count (h : Standing s) : s.externalVariableCount ≤ s.variableCount := by
  cases h with
  | valid Γ hv _ _ _ => exact hv.count
  | spent _ _ hcount _ _ _ => exact hcount

lemma Standing.idle (h : Standing s) : s.searchControlActive = false := by
  cases h with
  | valid Γ hv _ _ _ => exact hv.idle
  | spent _ _ _ hidle _ _ => exact hidle

lemma Standing.selectors (h : Standing s) :
    ∀ l ∈ s.scopeSelectors, l.var < s.externalVariableCount := by
  cases h with
  | valid Γ _ hsel _ _ => exact hsel
  | spent _ _ _ _ hsel _ => exact hsel

/-- The assumptions of a query, those for the scopes included. -/
lemma Standing.query_lt (h : Standing s) {assumptions : List Lit}
    (hA : ∀ a ∈ assumptions, a.var < s.externalVariableCount) :
    ∀ a ∈ s.scopeSelectors ++ assumptions, a.var < s.variableCount := by
  intro a ha
  rcases List.mem_append.1 ha with ha | ha
  · exact (h.selectors a ha).trans_le h.count
  · exact (hA a ha).trans_le h.count

/-- A query leaves a solver in order. -/
lemma Standing.solve (h : Standing s) {fuel : ℕ} {assumptions : List Lit} {limits : SolveLimits}
    {result : SolveResult}
    (he : s.solveAssumingWithLimits O fuel assumptions limits = some (result, s')) :
    Standing s' := by
  by_cases hirr : s.irreversible = true
  · -- elimination or addition of variables may run
    rw [solveAssumingWithLimits] at he
    split at he
    · simp at he
    next hA =>
    dsimp only at he
    split at he
    · obtain ⟨rfl, rfl⟩ := Prod.mk.inj (Option.some.inj he)
      exact h
    have hA : ∀ a ∈ assumptions, a.var < s.externalVariableCount := by simpa using hA
    have hlt := h.query_lt hA
    have hready := h.prepareQuery O
    split at he
    · simp at he
    next result₁ s₁ hans =>
    obtain ⟨rfl, rfl⟩ := Prod.mk.inj (Option.some.inj he)
    obtain ⟨hq, hcore⟩ := hready.answer h.idle hlt hans
    obtain ⟨hq', hcore'⟩ := finishQuery_core (O := O) assumptions
      (s.scopeSelectors ++ assumptions) result₁ hq hcore
    refine .spent hq'.started ?_ ?_ hq'.idle ?_ hcore'
    · rw [irreversible, hq'.config]
      exact hirr
    · rw [hq'.externalVariableCount]
      exact h.count.trans hq'.count
    · rw [hq'.externalVariableCount, hq'.scopeSelectors]
      exact h.selectors
  · cases h with
    | spent _ hirr' _ _ _ _ => exact absurd hirr' hirr
    | valid Γ hv hsel hfresh hopen =>
      have hirr' : s.irreversible = false := by simpa using hirr
      have hrev : s.config.Reversible := by
        rw [irreversible, Bool.or_eq_false_iff] at hirr'
        exact hirr'
      have hsafe : QuerySafe O (s.started = false) False Γ assumptions s :=
        .of_reversible hv id False.elim hrev False.elim
      obtain ⟨-, hv', hor, hcfg, hscope, hext, -⟩ := solveAssumingWithLimits_spec hv False.elim
        hsafe.passes hsel hsafe.present he
      rcases hor with rfl | hst
      · exact .valid Γ hv hsel hfresh hopen
      · have hnot : ¬ s'.started = false := by simp [hst]
        refine .valid Γ (hv'.weaken fun hn => hnot hn) ?_ (fun hn => absurd hn hnot) ?_
        · rw [hscope, hext]
          exact hsel
        · rw [irreversible, hcfg]
          exact fun hn => hirr hn.2

/-! ### Changing the clauses -/

/-- Once the clauses have been rewritten they can no longer be changed. -/
lemma mutations_of_spent (O : Oracle) (hst : s.started = true) (hirr : s.irreversible = true) :
    (∀ literals guard kind, (s.addClauseInternal O literals guard kind).2 = s) ∧
      (∀ count, (s.tryReserveVariables O count).2 = s) ∧
      (∀ levels, (s.pushLevels O levels).2 = s) ∧ ∀ levels, (s.pop O levels).2 = s := by
  refine ⟨fun literals guard kind => ?_, fun count => ?_, fun levels => ?_, fun levels => ?_⟩
  · rw [addClauseInternal, if_pos (by simp [hst, hirr])]
  · rw [tryReserveVariables]
    split
    · rfl
    split
    · rfl
    rw [if_pos (by simp [hst, hirr])]
  · rw [pushLevels, checkPushLevels]
    split
    · next h => rfl
    · next hc =>
      split at hc
      · next h0 => rw [if_pos h0]
      · cases hc
  · rw [pop]
    split
    · rfl
    split
    · rfl
    simp

/-- A change of the clauses that leaves them valid. -/
lemma Standing.mutate {Δ : Set (List Lit)} (hv : Valid (s.started = false) Δ s')
    (hst : s'.started = s.started) (hcfg : s'.config = s.config)
    (hsel : ∀ l ∈ s'.scopeSelectors, l.var < s'.externalVariableCount)
    (hfresh : s.started = false → Idle s')
    (hopen : ¬ (s.started = true ∧ s.irreversible = true)) : Standing s' := by
  refine .valid Δ (hst ▸ hv) hsel (fun hs => (hfresh (hst ▸ hs)).unlearned) ?_
  rw [hst, Solver.irreversible, hcfg]
  exact hopen

lemma newSelectors_lt {first levels n : ℕ} (hn : first + levels ≤ n) :
    ∀ l ∈ newSelectors first levels, l.var < n := by
  intro l hl
  obtain ⟨v, hv, rfl⟩ := List.mem_map.1 hl
  have := List.mem_range'_1.1 hv
  exact (show v < n by omega)

/-- **What holds of every reachable solver.** -/
theorem Reachable.standing (h : Reachable O config s) : Standing s := by
  induction h with
  | start =>
    exact .valid ∅ (valid_withConfig config) (by simp [withConfig])
      (fun _ c hc => by cases c <;> exact absurd hc (Nat.not_lt_zero _)) (by simp [withConfig])
  | @addClause s run literals guard kind ih =>
    cases ih with
    | spent hst hirr hcount hidle hsel hcore =>
      rw [(mutations_of_spent O hst hirr).1]
      exact .spent hst hirr hcount hidle hsel hcore
    | valid Γ hv hsel hfresh hopen =>
      obtain ⟨hm, hspec⟩ := addClauseInternal_spec hv O literals guard kind
      obtain ⟨Δ, hΔ⟩ : ∃ Δ, Valid (s.started = false) Δ
          (s.addClauseInternal O literals guard kind).2 := by
        split at hspec
        · exact ⟨_, hspec.1⟩
        · exact ⟨_, hspec⟩
      refine Standing.mutate hΔ hm.started hm.config (fun l hl => ?_)
        (fun hs => Idle.addClauseInternal ⟨hs, hfresh hs⟩ O literals guard kind) hopen
      rw [hm.scopeSelectors] at hl
      exact (hsel l hl).trans_le hm.count
  | @reserveVariables s run count ih =>
    cases ih with
    | spent hst hirr hcount hidle hsel hcore =>
      rw [(mutations_of_spent O hst hirr).2.1]
      exact .spent hst hirr hcount hidle hsel hcore
    | valid Γ hv hsel hfresh hopen =>
      obtain ⟨hm, hΔ⟩ := tryReserveVariables_spec hv O count
      refine Standing.mutate hΔ hm.started hm.config (fun l hl => ?_)
        (fun hs => Idle.tryReserveVariables ⟨hs, hfresh hs⟩ O count) hopen
      rw [hm.scopeSelectors] at hl
      exact (hsel l hl).trans_le hm.count
  | @pushLevels s run levels ih =>
    cases ih with
    | spent hst hirr hcount hidle hsel hcore =>
      rw [(mutations_of_spent O hst hirr).2.2.1]
      exact .spent hst hirr hcount hidle hsel hcore
    | valid Γ hv hsel hfresh hopen =>
      rcases pushLevels_spec hv O levels with ⟨e, he⟩ | ⟨s', he, hΔ, hcount, hscope, hcfg, hst⟩
      · rw [he]
        exact .valid Γ hv hsel hfresh hopen
      · have hidle : s.started = false → Idle (s.pushLevels O levels).2 := fun hs =>
          Idle.pushLevels ⟨hs, hfresh hs⟩ O levels
        rw [he] at hidle ⊢
        refine Standing.mutate hΔ hst hcfg (fun l hl => ?_) hidle hopen
        rw [hscope] at hl
        rcases List.mem_append.1 hl with hl | hl
        · exact (hsel l hl).trans_le (hcount ▸ Nat.le_add_right _ _)
        · exact newSelectors_lt hcount.ge l hl
  | @pop s run levels ih =>
    cases ih with
    | spent hst hirr hcount hidle hsel hcore =>
      rw [(mutations_of_spent O hst hirr).2.2.2]
      exact .spent hst hirr hcount hidle hsel hcore
    | valid Γ hv hsel hfresh hopen =>
      rcases pop_spec hv O levels hsel with ⟨e, he⟩ | ⟨s', he, -, hΔ, hscope, hcfg, hst, hcount⟩
      · rw [he]
        exact .valid Γ hv hsel hfresh hopen
      · have hidle : s.started = false → Idle (s.pop O levels).2 := fun hs =>
          Idle.pop ⟨hs, hfresh hs⟩ O levels
        rw [he] at hidle ⊢
        refine Standing.mutate hΔ hst hcfg (fun l hl => ?_) hidle hopen
        rw [hscope] at hl
        exact (hsel l (List.mem_of_mem_take hl)).trans_le hcount
  | @solve s s' run fuel assumptions limits result answered ih => exact ih.solve answered

/-! ### Conflict analysis -/

/-- `search` calls `analyze` for the clause in the state: a query has been prepared in a reachable
state, its loop has come to an iteration whose propagation returns the clause above the root,
neither poll stops it, and the conflict has been counted. -/
inductive Analyzes (O : Oracle) (config : SolverConfig) : ClauseRef → Solver → Prop
  | intro {s₀ s₁ s₂ s₃ s₄ s₅ : Solver} {assumptions : List Lit} {limits : SolveLimits}
      {c : ClauseRef} (run : Reachable O config s₀)
      (known : ∀ a ∈ assumptions, a.var < s₀.externalVariableCount)
      (prepared : s₀.prepareQuery O = (true, s₁))
      (visits : Visits O (s₀.scopeSelectors ++ assumptions) (s₁.tick.beginSearchControl limits) s₂)
      (polled : s₂.pollSearchStop O = (none, s₃)) (propagated : s₃.propagate O = (some c, s₄))
      (polled' : s₄.pollSearchStop O = (none, s₅)) (above : 0 < s₅.decisionLevel) :
      Analyzes O config c s₅.countConflict

lemma Analyzes.conflicting (h : Analyzes O config c s) : ∃ Γ, Conflicting Γ c s := by
  cases h with
  | @intro s₀ s₁ s₂ s₃ s₄ s₅ assumptions limits _ run known prepared visits polled propagated
      polled' above =>
    have hstanding := run.standing
    have hready := hstanding.prepareQuery O
    rw [prepared] at hready
    cases hready with
    | done _ Γ hcore hroot hframe =>
      obtain ⟨h₂, -⟩ := (Engaged.begin hcore hroot limits).visits (fun a ha =>
        (hstanding.query_lt known a ha).trans_le hframe.count) visits
      have h₃ := h₂.poll O
      rw [polled] at h₃
      have hcase := h₃.propagateCase O
      rw [propagated] at hcase
      have hpoll := (hcase.poll O).2.2
      rw [polled'] at hpoll
      obtain ⟨hcase', -⟩ := hpoll rfl
      cases hcase' with
      | refuted _ _ h0 _ _ => exact absurd h0 above.ne'
      | conflict _ _ hconf _ => exact ⟨Γ, hconf.countConflict⟩

lemma reachable_withClauses (O : Oracle) (config : SolverConfig) (clauses : List (List Lit)) :
    Reachable O config (withClauses O config clauses) := by
  induction clauses using List.reverseRecOn with
  | nil => exact .start
  | append_singleton clauses c ih =>
    rw [withClauses, List.foldl_append]
    exact ih.addClause c true .formula

/-- The clauses `a ∨ b` and `a ∨ ¬b`. -/
def alternatives : List (List Lit) := [[⟨0, false⟩, ⟨1, true⟩], [⟨0, false⟩, ⟨1, false⟩]]

end Solver

end Satrap
