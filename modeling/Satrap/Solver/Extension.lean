/-
# Queries of a solver that has eliminated variables

Elimination and addition of variables change the clauses for good: after the first query a solver
that makes them refuses new clauses, and it answers for the clauses it had and for further ones that
say nothing new about the variables of the client.  An eliminated variable keeps a value on the
trail that nobody derived.  As long as no assumption speaks of such a variable every answer is
right, otherwise the value may refute the assumption.
-/
import Satrap.Solver.Inprocessing

namespace Satrap

open Logic

namespace Solver

variable {P P' : Prop}
variable {Γ Δ : Set (List Lit)} {O : Oracle} {config : SolverConfig} {client : Client}
  {s s' : Solver} {A : List Lit}

/-! ### The root passes -/

/-- An answer for a conservative extension is one for the clauses. -/
lemma Correct.of_conservative {n : ℕ} {result : SolveResult} (h : Correct P Δ A n result)
    (hcons : Conservative {v | v < n} Γ Δ) (hA : ∀ a ∈ A, a.var < n) : Correct P Γ A n result := by
  cases result with
  | sat model =>
    intro hP
    obtain ⟨m, hm, ha, rfl⟩ := h hP
    exact ⟨m, hm.mono hcons.subset, ha, rfl⟩
  | unsat =>
    intro m hm ha
    obtain ⟨m', hagree, hm'⟩ := hcons.extend m hm
    exact h m' hm' fun a haA => (hagree a.var (hA a haA)).trans (ha a haA)
  | unknown _ => trivial

/-- **The root passes** of a first query leave a conservative extension of the clauses. -/
lemma rootPasses_spec (h : Prepared P Γ s) (hP : P) (hun : Unlearned s) (hPP : P' → P)
    (hsub : P' → SightedSimplification O s) (hv : ∀ c ∈ Γ, ∀ l ∈ c, l.var < s.variableCount) :
    ∃ Δ, Conservative {v | v < s.variableCount} Γ Δ ∧ PassOk P' Δ s (s.rootPasses O) := by
  have hok := eliminate_spec h hP hun hPP hsub
  rw [rootPasses]
  change ∃ Δ, _ ∧ PassOk P' Δ s (thenPass _ _
    (thenPass s.config.boundedVariableElimination (eliminateVariables O) (s.simplify O)))
  generalize thenPass s.config.boundedVariableElimination (eliminateVariables O) (s.simplify O) = r
    at hok
  cases hok with
  | refuted s₁ hu hf => exact ⟨Γ, .refl _ Γ, .refuted s₁ hu hf⟩
  | done s₁ hp hf =>
    cases hbva : s.config.boundedVariableAddition &&
        (!s.config.macroBoundedVariableAddition || s.factorizationDensityEligible) with
    | false => exact ⟨Γ, .refl _ Γ, .done s₁ hp hf⟩
    | true =>
      obtain ⟨D, hrew, hp'⟩ := factorExactNeighborhoods_spec O hp
      have hframe : PassFrame s₁ (s₁.factorExactNeighborhoods O) := by
        refine ⟨?_, hrew.count, fun _ => ?_⟩ <;> rw [hrew.session]
      refine ⟨Γ ∪ D, ⟨Set.subset_union_left, fun m hm => ?_⟩, .done _ hp' (hf.trans hframe)⟩
      have hsat : Satisfies m s₁ :=
        ⟨fun c hc => hp.core.entailed c hc.1.1 m hm, fun l hl h0 => hp.core.holds_root hm hl h0⟩
      obtain ⟨m', hagree, hD, -⟩ := hrew.extend m hsat
      refine ⟨m', fun v hlt => hagree v (lt_of_lt_of_le hlt hf.count), ?_⟩
      rintro c (hc | hc)
      · obtain ⟨l, hl, hlm⟩ := hm c hc
        exact ⟨l, hl, (hagree l.var ((hv c hc l hl).trans_le hf.count)).trans hlm⟩
      · exact hD c hc

/-! ### Runs -/

/-- The client has given the clauses `Γ` to `s₀`, and the solver answers for a conservative extension
of these. -/
structure Augmented (client : Client) (Γ Δ : Set (List Lit)) (s₀ s : Solver) : Prop where
  represents : Represents True Γ client s₀
  selectors : s.scopeSelectors = s₀.scopeSelectors
  count : s.externalVariableCount = s₀.externalVariableCount
  conservative : Conservative {v | v < s.externalVariableCount} Γ Δ
  sound : Sound True Δ s

/-- The clauses grow as long as no query has been asked and then stay. -/
def Augments (client : Client) (s : Solver) : Prop :=
  ∃ Γ Δ s₀, Augmented client Γ Δ s₀ s ∧ (s.started = false → Idle s ∧ s₀ = s ∧ Γ = Δ)

/-- The client has opened no scope. -/
structure Scopeless (client : Client) : Prop where
  scopes : client.scopes = []
  reserved : client.reserved = []

/-- Without scopes no query has an assumption of the solver's own. -/
lemma Augments.no_selectors (h : Augments client s) (hscopeless : Scopeless client) :
    s.scopeSelectors = [] := by
  obtain ⟨Γ, Δ, s₀, h, -⟩ := h
  rw [h.selectors, ← List.length_eq_zero_iff, h.represents.length, hscopeless.scopes,
    List.length_nil]

/-- The query is not a blind first query, and no assumption is on a variable that is eliminated
when the search begins. -/
def AvoidsEliminated (O : Oracle) (operation : Operation) (s : Solver) : Prop :=
  ∀ assumptions limits, operation = .solveAssuming assumptions limits → SightedQuery O s ∧
    ((s.prepareQuery O).1 = true →
      ∀ a ∈ assumptions, a.var ∉ (s.prepareQuery O).2.eliminatedVariables)

lemma Augmented.answersCorrectly {s₀ : Solver} {result : SolveResult}
    (h : Augmented client Γ Δ s₀ s)
    (hc : Correct True Δ (s.scopeSelectors ++ A) s.externalVariableCount result)
    (hpolite : ∀ v ∈ client.reserved, ¬ (Operation.solveAssuming A {}).Mentions v)
    (hA : ∀ a ∈ A, a.var < s.externalVariableCount) :
    AnswersCorrectly client.active A result := by
  have hlt : ∀ a ∈ s.scopeSelectors ++ A, a.var < s.externalVariableCount := by
    intro a ha
    rcases List.mem_append.1 ha with ha | ha
    · rw [h.count]
      rw [h.selectors] at ha
      exact h.represents.selector_lt ha
    · exact hA a ha
  have hc := hc.of_conservative h.conservative hlt
  rw [h.selectors, h.count] at hc
  rw [h.count] at hA
  exact h.represents.answersCorrectly trivial hc (fun a ha hv => hpolite a.var hv ⟨a, ha, rfl⟩) hA

/-- The root passes of the query that comes next make a conservative extension. -/
lemma Augments.extension (h : Augments client s) (hsighted : SightedQuery O s) :
    ∃ Γ Δ s₀ E, Augmented client Γ Δ s₀ s ∧ Conservative {v | v < s.externalVariableCount} Δ E ∧
      (s.started = true → Δ = E) ∧
      (s.started = false → s.consistent = true →
        ∀ s₁, (s.beginQuery O).propagate O = (none, s₁) → Prepared True Δ s₁ → QueryFrame s s₁ →
          PassOk True E s₁ (s₁.rootPasses O)) := by
  obtain ⟨Γ, Δ, s₀, haug, hfresh⟩ := h
  refine ⟨Γ, Δ, s₀, ?_⟩
  cases hst : s.started with
  | true => exact ⟨Δ, haug, .refl _ Δ, fun _ => rfl, by simp⟩
  | false =>
    obtain ⟨hidle, heq, rfl⟩ := hfresh hst
    have hvalid := haug.represents.valid
    rw [heq] at hvalid
    by_cases hbegun : s.consistent = true ∧ ∃ s₁, (s.beginQuery O).propagate O = (none, s₁)
    · obtain ⟨hcons, s₁, hs₁⟩ := hbegun
      have hbegin := hvalid.sound.begin O hcons
      rw [hs₁] at hbegin
      obtain ⟨hp, hs, hsame⟩ := hbegin
      have hf := (QueryFrame.begin O s).pass (.of_session hs)
      have hcount : s.externalVariableCount ≤ s₁.variableCount := hvalid.count.trans hf.count
      obtain ⟨E, hE, hok⟩ := rootPasses_spec hp trivial (hidle.unlearned.of_same (hsame hst)) id
        (fun _ => hsighted hst s₁ hs₁) fun c hc l hl => (hvalid.vars c hc l hl).trans_le hcount
      refine ⟨E, haug, hE.mono fun v hv => lt_of_lt_of_le hv hcount, by simp, ?_⟩
      rintro - - s₂ hs₂ - -
      obtain rfl : s₁ = s₂ := congrArg Prod.snd (hs₁.symm.trans hs₂)
      exact hok
    · exact ⟨Γ, haug, .refl _ Γ, by simp, fun _ hcons s₁ hs₁ _ _ => absurd ⟨hcons, s₁, hs₁⟩ hbegun⟩

lemma Augments.query (h : Augments client s) (hnone : s.scopeSelectors = []) {fuel : ℕ}
    {limits : SolveLimits} {result : SolveResult}
    (havoids : AvoidsEliminated O (.solveAssuming A limits) s)
    (hpolite : ∀ v ∈ client.reserved, ¬ (Operation.solveAssuming A limits).Mentions v)
    (he : s.solveAssumingWithLimits O fuel A limits = some (result, s')) :
    AnswersCorrectly client.active A result ∧ s'.config = s.config ∧ Augments client s' := by
  obtain ⟨hsighted, hpresent⟩ := havoids A limits rfl
  obtain ⟨Γ, Δ, s₀, E, haug, hE, hsame, hpasses⟩ := h.extension hsighted
  have hA := assumptions_lt he
  obtain ⟨rfl, hquery, hr⟩ | ⟨hc, hq, hs, -⟩ :=
    query_spec haug.sound id hE.subset hsame hpasses (by simp [hnone])
      (by simpa [hnone] using hpresent) he
  · exact ⟨haug.answersCorrectly (hquery ▸ haug.sound.cached _ hr) hpolite hA, rfl, h⟩
  · have haug' : Augmented client Γ E s₀ s' := by
      refine ⟨haug.represents, hq.scopeSelectors.trans haug.selectors,
        hq.externalVariableCount.trans haug.count, ?_, hs⟩
      rw [hq.externalVariableCount]
      exact haug.conservative.trans hE
    refine ⟨?_, hq.config, Γ, E, s₀, haug', fun hn => by simp [hq.started] at hn⟩
    rw [← hq.scopeSelectors, ← hq.externalVariableCount] at hc
    rw [← hq.externalVariableCount] at hA
    exact haug'.answersCorrectly hc hpolite hA

/-- An irreversible solver opens no scope. -/
lemma pushLevels_of_irreversible (hirr : s.irreversible = true) (levels : ℕ) :
    (s.pushLevels O levels).2 = s ∧ ((s.pushLevels O levels).1 = .ok () → levels = 0) := by
  rw [pushLevels, checkPushLevels]
  rcases Nat.eq_zero_or_pos levels with rfl | hpos
  · exact ⟨rfl, fun _ => rfl⟩
  · simp [hirr, hpos.ne']

lemma pop_of_irreversible (hirr : s.irreversible = true) (levels : ℕ) :
    (s.pop O levels).2 = s := by
  rw [pop]
  split_ifs <;> rfl

/-- An operation of an irreversible solver opens no scope. -/
lemma Scopeless.after {operation : Operation} {response : Response} {fuel : ℕ}
    (h : Scopeless client) (hirr : s.irreversible = true) (hnone : s.scopeSelectors = [])
    (he : operation.perform O fuel s = some (response, s')) :
    Scopeless (client.after operation response s') := by
  obtain ⟨hscopes, hreserved⟩ := h
  cases operation with
  | addClause literals =>
    cases response <;> constructor <;> simp [Client.after, Client.add, hscopes, hreserved]
  | pushLevels levels =>
    obtain ⟨hs, hok⟩ := pushLevels_of_irreversible (O := O) hirr levels
    rw [Operation.perform] at he
    generalize s.pushLevels O levels = r at he hs hok
    obtain ⟨e, s₁⟩ := r
    cases e with
    | ok _ =>
      obtain ⟨rfl, rfl⟩ := Prod.mk.inj (Option.some.inj he)
      obtain rfl : s₁ = s := hs
      constructor <;> simp [Client.after, hscopes, hreserved, hnone, hok rfl]
    | error e =>
      obtain ⟨rfl, rfl⟩ := Prod.mk.inj (Option.some.inj he)
      exact ⟨hscopes, hreserved⟩
  | pop levels => cases response <;> constructor <;> simp [Client.after, hscopes, hreserved]
  | reserveVariables count => exact ⟨hscopes, hreserved⟩
  | solveAssuming A limits => exact ⟨hscopes, hreserved⟩

/-- An irreversible solver that has answered refuses what would change it. -/
lemma perform_started (client : Client) {operation : Operation} {response : Response} {fuel : ℕ}
    (hirr : s.irreversible = true) (hstarted : s.started = true) (hm : operation.Mutates)
    (he : operation.perform O fuel s = some (response, s')) :
    s' = s ∧ (s.scopeSelectors = [] → client.scopes = [] →
      client.after operation response s' = client) := by
  have hrespond : ∀ {α : Type} (r : Except IncrementalError α × Solver), r.2 = s →
      some (Operation.respond r) = some (response, s') → s' = s := by
    rintro α ⟨e, s₁⟩ h₁ he
    cases e <;> obtain ⟨-, rfl⟩ := Prod.mk.inj (Option.some.inj he) <;> exact h₁
  cases operation with
  | addClause literals =>
    rw [Operation.perform, tryAddClause, addClauseInternal, if_pos (by simp [hstarted, hirr])] at he
    obtain ⟨rfl, rfl⟩ := Prod.mk.inj (Option.some.inj he)
    exact ⟨rfl, fun _ _ => rfl⟩
  | reserveVariables count =>
    refine ⟨hrespond _ ?_ he, fun _ _ => rfl⟩
    rw [Solver.tryReserveVariables]
    split_ifs with h1 h2 h3
    · rfl
    · rfl
    · rfl
    · simp [hstarted, hirr] at h3
  | pushLevels levels =>
    obtain ⟨hs, hok⟩ := pushLevels_of_irreversible (O := O) hirr levels
    refine ⟨hrespond _ hs he, fun hnone hscopes => ?_⟩
    obtain rfl := hrespond _ hs he
    rw [Operation.perform] at he
    generalize s'.pushLevels O levels = r at he hok
    obtain ⟨e, s₁⟩ := r
    cases e with
    | ok _ =>
      obtain ⟨rfl, rfl⟩ := Prod.mk.inj (Option.some.inj he)
      simp [Client.after, hok rfl, hnone]
    | error e =>
      obtain ⟨rfl, rfl⟩ := Prod.mk.inj (Option.some.inj he)
      rfl
  | pop levels =>
    refine ⟨hrespond _ (pop_of_irreversible hirr levels) he, fun _ hscopes => ?_⟩
    cases response with
    | done =>
      show { client with scopes := client.scopes.take (client.scopes.length - levels) } = client
      rw [hscopes, List.take_nil, ← hscopes]
    | rejected e => rfl
    | answer result => rfl
  | solveAssuming A limits => exact hm.elim

/-- **Runs** of a solver that eliminates or introduces variables, in which no assumption is on an
eliminated variable. -/
lemma Augments.of_reaches
    (hirr : (config.boundedVariableElimination || config.boundedVariableAddition) = true)
    (h : Reaches O config (AvoidsEliminated O) client s) :
    s.config = config ∧ Scopeless client ∧ Augments client s := by
  induction h with
  | start =>
    refine ⟨rfl, ⟨rfl, rfl⟩, ∅, ∅, withConfig config, ?_, fun _ => ⟨?_, rfl, rfl⟩⟩
    · have hrep := represents_withConfig (P := True) config
      exact ⟨hrep, rfl, rfl, .refl _ ∅, hrep.valid.sound⟩
    · exact ⟨rfl, fun c hc => by cases c <;> exact absurd hc (Nat.not_lt_zero _)⟩
  | @step client s s' operation response fuel _ hpolite hallowed hperformed ih =>
    obtain ⟨hcfg, hscopeless, haug⟩ := ih
    have hirr' : s.irreversible = true := by rw [irreversible, hcfg, hirr]
    have hnone := haug.no_selectors hscopeless
    by_cases hm : operation.Mutates
    · cases hst : s.started with
      | true =>
        obtain ⟨rfl, hclient⟩ := perform_started client hirr' hst hm hperformed
        rw [hclient hnone hscopeless.scopes]
        exact ⟨hcfg, hscopeless, haug⟩
      | false =>
        obtain ⟨Γ, Δ, s₀, h, hfresh⟩ := haug
        obtain ⟨hidle, rfl, rfl⟩ := hfresh hst
        have hsafe : ∀ A limits, operation = .solveAssuming A limits →
            QuerySafe O True True Γ A s₀ := by
          rintro A limits rfl
          exact hm.elim
        obtain ⟨hc, ⟨E, hE⟩, -⟩ := h.represents.perform hpolite hsafe hperformed
        have hrep : Represents True E (client.after operation response s') s' :=
          hE.elim And.left And.left
        exact ⟨hc.trans hcfg, hscopeless.after hirr' hnone hperformed, E, E, s',
          ⟨hrep, rfl, rfl, .refl _ E, hrep.valid.sound⟩,
          fun _ => ⟨hidle.perform O hm hperformed, rfl, rfl⟩⟩
    · cases operation with
      | solveAssuming A limits =>
        rw [Operation.perform, Option.map_eq_some_iff] at hperformed
        obtain ⟨⟨result, s₁⟩, he, hs⟩ := hperformed
        obtain ⟨rfl, rfl⟩ := Prod.mk.inj hs
        obtain ⟨-, hc, haug'⟩ := haug.query hnone hallowed hpolite he
        exact ⟨hc.trans hcfg, hscopeless, haug'⟩
      | _ => exact absurd trivial hm

/-- **Every answer is right** in the runs of a solver that eliminates variables, whatever other
passes it makes, as long as no query assumes a literal of an eliminated variable. -/
theorem answers_correctly_of_avoidsEliminated (hbve : config.boundedVariableElimination = true)
    (hrun : Reaches O config (AvoidsEliminated O) client s) {fuel : ℕ} {assumptions : List Lit}
    {limits : SolveLimits} {result : SolveResult}
    (havoids : AvoidsEliminated O (.solveAssuming assumptions limits) s)
    (he : s.solveAssumingWithLimits O fuel assumptions limits = some (result, s')) :
    AnswersCorrectly client.active assumptions result := by
  obtain ⟨-, hscopeless, haug⟩ := Augments.of_reaches (by rw [hbve]; rfl) hrun
  refine (haug.query (haug.no_selectors hscopeless) havoids ?_ he).1
  simp [hscopeless.reserved]

theorem answers_correctly_of_avoidsEliminated_other :
    AnswersCorrectly [[⟨0, true⟩, ⟨1, true⟩]] [⟨1, false⟩] (.sat ⟨[true, false]⟩) := by
  let config : SolverConfig := { boundedVariableElimination := true }
  have hrun : Reaches .quiet config (AvoidsEliminated .quiet)
      ⟨[[⟨0, true⟩, ⟨1, true⟩]], [], []⟩ (withClauses .quiet config [[⟨0, true⟩, ⟨1, true⟩]]) :=
    (withClauses_spec True (by decide) fun c s A limits h => by cases h).1
  set s := withClauses .quiet config [[⟨0, true⟩, ⟨1, true⟩]] with hs
  have havoids : AvoidsEliminated .quiet (.solveAssuming [⟨1, false⟩] {}) s := by
    rintro A limits h
    obtain ⟨rfl, rfl⟩ := Operation.solveAssuming.inj h
    refine ⟨fun _ s₁ hs₁ hon => ?_, fun _ a ha => ?_⟩
    · obtain rfl : firstQueryState .quiet config [[⟨0, true⟩, ⟨1, true⟩]] = s₁ :=
        congrArg Prod.snd hs₁
      exact absurd hon (by decide)
    · have helim : (s.prepareQuery .quiet).2.eliminationRecords.map (·.pivot) = [0] := by
        decide +kernel
      obtain rfl : a = ⟨1, false⟩ := by simpa using ha
      rintro ⟨r, hr, hv⟩
      have hmem := List.mem_map_of_mem (f := (·.pivot)) hr
      rw [helim, hv] at hmem
      simp at hmem
  have he : (s.solveAssumingWithLimits .quiet 20 [⟨1, false⟩] {}).map Prod.fst =
      some (.sat ⟨[true, false]⟩) := by decide +kernel
  obtain ⟨⟨result, s'⟩, h, rfl⟩ := Option.map_eq_some_iff.1 he
  exact answers_correctly_of_avoidsEliminated rfl hrun havoids h

/-- The value of an eliminated variable refutes an assumption that a model fulfils, and a model that
is extended may leave the assumption behind. -/
theorem answers_incorrectly_of_eliminated :
    (∃ s s', Reaches .quiet { boundedVariableElimination := true } (fun _ _ => True)
        ⟨[[⟨0, true⟩, ⟨1, true⟩]], [], []⟩ s ∧
      s.solveAssumingWithLimits .quiet 20 [⟨0, false⟩] {} = some (.unsat, s') ∧
      ¬ AnswersCorrectly [[⟨0, true⟩, ⟨1, true⟩]] [⟨0, false⟩] .unsat) ∧
    ∃ s s' model, Reaches .quiet { boundedVariableElimination := true } (fun _ _ => True)
        ⟨[[⟨0, false⟩, ⟨1, false⟩]], [], []⟩ s ∧
      s.solveAssumingWithLimits .quiet 20 [⟨0, true⟩] {} = some (.sat model, s') ∧
      ¬ AnswersCorrectly [[⟨0, false⟩, ⟨1, false⟩]] [⟨0, true⟩] (.sat model) := by
  constructor
  · have he : ((withClauses .quiet { boundedVariableElimination := true }
        [[⟨0, true⟩, ⟨1, true⟩]]).solveAssumingWithLimits .quiet 20 [⟨0, false⟩] {}).map Prod.fst =
        some .unsat := by decide +kernel
    obtain ⟨⟨result, s'⟩, h, rfl⟩ := Option.map_eq_some_iff.1 he
    refine ⟨_, s', reaches_withClauses _ _ (by decide), h, fun hcorrect => ?_⟩
    exact hcorrect (fun v => v == 1) (by decide) (by decide)
  · have he : ((withClauses .quiet { boundedVariableElimination := true }
        [[⟨0, false⟩, ⟨1, false⟩]]).solveAssumingWithLimits .quiet 20 [⟨0, true⟩] {}).map Prod.fst =
        some (.sat ⟨[false, true]⟩) := by decide +kernel
    obtain ⟨⟨result, s'⟩, h, rfl⟩ := Option.map_eq_some_iff.1 he
    exact ⟨_, s', _, reaches_withClauses _ _ (by decide), h, fun hcorrect =>
      absurd (hcorrect.2 _ (List.mem_singleton_self _)) (by decide)⟩

end Solver

end Satrap
