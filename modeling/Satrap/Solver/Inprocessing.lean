/-
# Elimination and addition of variables in the first query

`eliminate_variables` runs on the clauses that the passes before it have left.  It keeps their
satisfiability, and `extend_model` turns a model of what remains into a model of them.
`factor_exact_neighborhoods` runs last and keeps the models over the variables there are.
-/
import Satrap.Solver.FirstQuery
import Satrap.Solver.Factoring

namespace Satrap

open Logic

namespace Solver

variable {P P' : Prop} {Γ : Set (List Lit)}
variable {O : Oracle} {s s' : Solver} {client : Client} {config : SolverConfig} {m : ℕ → Bool}

/-! ### Elimination -/

/-- `s` is a state that the first query of a run hands to `eliminate_variables`: its root trail
is closed under propagation, and the passes before have not found a conflict. -/
def EntersElimination (O : Oracle) (config : SolverConfig) (client : Client) (s : Solver) : Prop :=
  config.boundedVariableElimination = true ∧
    ∃ s₀, FirstQuery O config client s₀ ∧ s₀.simplify O = (true, s)

/-- The clauses that enter elimination are original, and nothing has been eliminated. -/
lemma EntersElimination.prepared (h : EntersElimination O config client s) :
    s.irreversible = true ∧ s.eliminationRecords = [] ∧ Unlearned s ∧ ∃ Γ, Prepared False Γ s := by
  obtain ⟨hbve, s₀, hfirst, he⟩ := h
  obtain ⟨hcfg, hnone, hun, -, Γ, -, hp⟩ := hfirst.prepared
  have hsimplified : Simplified False Γ s₀ (s₀.simplify O) :=
    simplify_spec hp trivial O False.elim False.elim
  obtain ⟨hok, hst⟩ := hsimplified
  rw [he] at hok hst
  cases hok with
  | done _ hp' hf =>
    refine ⟨?_, (hst rfl).records.trans hnone, hun.of_stored (hst rfl), Γ, hp'⟩
    rw [irreversible, hf.config, hcfg, hbve]
    rfl

/-- **Bounded variable elimination** keeps satisfiability, answers `false` only when there is no
model, and `extend_model` extends every model of the remaining clauses, without panic, to one of
the clauses that were active before. -/
theorem eliminateVariables_correct (h : EntersElimination O config client s) :
    match s.eliminateVariables O with
    | (true, s') => ((∃ m, Satisfies m s') ↔ ∃ m, Satisfies m s) ∧
        ∀ m, Satisfies m s' → ∃ m', s'.extendModel m = some m' ∧ Satisfies m' s
    | (false, _) => ∀ m, ¬ Satisfies m s := by
  obtain ⟨hirr, hnone, hun, Γ, hp⟩ := h.prepared
  have hmodels := models_iff_satisfies hp hnone
  obtain ⟨hok, -⟩ := eliminateVariables_spec O hp hun hirr
  generalize s.eliminateVariables O = r at hok
  cases hok with
  | refuted s' hu _ => exact fun m hm => hu m ((hmodels m).2 hm)
  | done s' hp' _ =>
    have hext : ∀ m, Satisfies m s' → ∃ m', s'.extendModel m = some m' ∧ Satisfies m' s := by
      intro m hm
      obtain ⟨m', h1, h2⟩ := hp'.complete m hm.1 hm.2
      exact ⟨m', h1, (hmodels m').1 h2⟩
    refine ⟨⟨fun ⟨m, hm⟩ => ?_, fun ⟨m, hm⟩ => ⟨m, ?_⟩⟩, hext⟩
    · obtain ⟨m', -, h2⟩ := hext m hm
      exact ⟨m', h2⟩
    · have hm := (hmodels m).2 hm
      exact ⟨fun c hc => hp'.core.entailed c hc.1.1 m hm, fun l hl h0 => hp'.core.holds_root hm hl h0⟩

theorem eliminateVariables_correct_pair :
    (∃ m, Satisfies m ((firstQueryState .quiet { boundedVariableElimination := true }
        [[⟨0, true⟩, ⟨1, true⟩], [⟨0, false⟩, ⟨2, true⟩]]).eliminateVariables .quiet).2) ↔
      ∃ m, Satisfies m (firstQueryState .quiet { boundedVariableElimination := true }
        [[⟨0, true⟩, ⟨1, true⟩], [⟨0, false⟩, ⟨2, true⟩]]) := by
  have hfirst : FirstQuery .quiet { boundedVariableElimination := true }
      ⟨[[⟨0, true⟩, ⟨1, true⟩], [⟨0, false⟩, ⟨2, true⟩]], [], []⟩ _ :=
    firstQuery_withClauses (by decide) (by decide) (by decide)
  have h := eliminateVariables_correct ⟨rfl, _, hfirst, rfl⟩
  set s := firstQueryState .quiet { boundedVariableElimination := true }
    [[⟨0, true⟩, ⟨1, true⟩], [⟨0, false⟩, ⟨2, true⟩]]
  have hres : (s.eliminateVariables .quiet).1 = true := by decide
  generalize s.eliminateVariables .quiet = r at h hres
  obtain ⟨answer, s'⟩ := r
  obtain rfl : answer = true := hres
  exact h.1

/-! ### Addition -/

/-- The passes up to elimination keep the models of the clauses. -/
lemma eliminate_spec (h : Prepared P Γ s) (hP : P) (hun : Unlearned s) (hPP : P' → P)
    (hsub : P' → SightedSimplification O s) :
    PassOk P' Γ s (thenPass s.config.boundedVariableElimination (eliminateVariables O)
      (s.simplify O)) := by
  obtain ⟨hok, hst⟩ := simplify_spec h hP O hPP hsub
  generalize s.simplify O = r at hok hst
  cases hok with
  | refuted s₁ hu hf => exact .refuted s₁ hu hf
  | done s₁ hp hf =>
    cases hbve : s.config.boundedVariableElimination with
    | false => exact .done s₁ hp hf
    | true =>
      have hirr : s₁.irreversible = true := by
        rw [irreversible, hf.config, hbve]
        rfl
      exact (eliminateVariables_spec O hp (hun.of_stored (hst rfl)) hirr).1.of_frame hf

/-- `s` is a state that the first query of a run hands to `factor_exact_neighborhoods`. -/
def EntersFactoring (O : Oracle) (config : SolverConfig) (client : Client) (s : Solver) : Prop :=
  config.boundedVariableAddition = true ∧ ∃ s₀, FirstQuery O config client s₀ ∧
    thenPass config.boundedVariableElimination (eliminateVariables O) (s₀.simplify O) = (true, s)

lemma EntersFactoring.prepared (h : EntersFactoring O config client s) : ∃ Γ, Prepared False Γ s := by
  obtain ⟨-, s₀, hfirst, he⟩ := h
  obtain ⟨hcfg, -, hun, -, Γ, -, hp⟩ := hfirst.prepared
  have hok : PassOk False Γ s₀ _ := eliminate_spec hp trivial hun False.elim (O := O) False.elim
  rw [hcfg, he] at hok
  cases hok with
  | done _ hp' _ => exact ⟨Γ, hp'⟩

/-- **Bounded variable addition** is a conservative rewrite.  A plan is applied when all its
clauses are active, and under the root trail they say that all its factors hold or all its
quotients; in the end the models over the variables there were are the same. -/
theorem factorExactNeighborhoods_correct (h : EntersFactoring O config client s) :
    (∀ plan t, Applied O s.factorBudget 8 s plan t →
      (∀ c ∈ plan.matrix, t.Original c) ∧ ∀ m, (∀ l ∈ t.trail, t.levels l.var = 0 → l.Holds m) →
        ((∀ c ∈ plan.matrix, Sat m (t.literals c)) ↔
          (∀ f ∈ plan.factors, f.Holds m) ∨ ∀ q ∈ plan.quotients, Sat m q)) ∧
    (∀ m, Satisfies m (s.factorExactNeighborhoods O) → Satisfies m s) ∧
    ∀ m, Satisfies m s → ∃ m', (∀ v < s.variableCount, m' v = m v) ∧
      Satisfies m' (s.factorExactNeighborhoods O) := by
  obtain ⟨Γ, hp⟩ := h.prepared
  obtain ⟨D, hrew, -⟩ := factorExactNeighborhoods_spec O hp
  refine ⟨fun plan t ha => ?_, fun m hm => (hrew.restore m hm).1, fun m hm => ?_⟩
  · obtain ⟨Δ, hroot, hfit⟩ := ha.fits hp.toAtRoot
    refine ⟨fun c hc => ?_, fun m hm => hfit.sat_iff hroot hm⟩
    obtain ⟨f, -, q, -, hcov⟩ := hfit.covers c hc
    exact hcov.1
  · obtain ⟨m', h1, -, h2⟩ := hrew.extend m hm
    exact ⟨m', h1, h2⟩

/-- The product of two literals and three. -/
def productClauses : List (List Lit) :=
  [[⟨0, true⟩, ⟨2, true⟩], [⟨0, true⟩, ⟨3, true⟩], [⟨0, true⟩, ⟨4, true⟩],
    [⟨1, true⟩, ⟨2, true⟩], [⟨1, true⟩, ⟨3, true⟩], [⟨1, true⟩, ⟨4, true⟩]]

theorem factorExactNeighborhoods_correct_product :
    ((firstQueryState .quiet { boundedVariableAddition := true }
        productClauses).factorExactNeighborhoods .quiet).variableCount = 6 ∧
      ∀ m, Satisfies m ((firstQueryState .quiet { boundedVariableAddition := true }
          productClauses).factorExactNeighborhoods .quiet) →
        Satisfies m (firstQueryState .quiet { boundedVariableAddition := true } productClauses) := by
  have hfirst : FirstQuery .quiet { boundedVariableAddition := true }
      ⟨productClauses, [], []⟩ _ := firstQuery_withClauses (by decide) (by decide) (by decide)
  exact ⟨by decide, (factorExactNeighborhoods_correct ⟨rfl, _, hfirst, rfl⟩).2.1⟩

end Solver

end Satrap
