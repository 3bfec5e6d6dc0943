/-
# Failed assumptions

A solver that neither eliminates nor introduces variables reports a correct core: probing,
vivification and subsumption keep the models of the clauses, and a refutation under
assumptions only needs that what the solver derives is entailed.
-/
import Satrap.Solver.Client
import Satrap.Solver.Subsumption

namespace Satrap

open Logic

/-- The configuration neither eliminates nor introduces variables. -/
def SolverConfig.Reversible (config : SolverConfig) : Prop :=
  config.boundedVariableElimination = false ∧ config.boundedVariableAddition = false

namespace Solver

variable {P P' : Prop}
variable {Γ : Set (List Lit)} {O : Oracle} {s s' : Solver} {client : Client}
  {config : SolverConfig} {Allowed : Operation → Solver → Prop}

/-! ### Passes that keep the models -/

/-- The passes up to subsumption. -/
def simplify (O : Oracle) (s : Solver) : Bool × Solver :=
  thenPass s.config.clauseSubsumption (subsumeOriginalClauses O)
    (thenPass s.config.clauseVivification (vivifyOriginalClauses O)
      (thenPass s.config.failedLiteralProbing (probeFailedLiterals O) (true, s)))

/-- What a pass that keeps the clauses on record does. -/
def Simplified (P : Prop) (Γ : Set (List Lit)) (s : Solver) (r : Bool × Solver) : Prop :=
  PassOk P Γ s r ∧ (r.1 = true → Stored (fun _ => True) s r.2)

lemma Simplified.weaken {r : Bool × Solver} (h : Simplified P Γ s r) (hPP : P' → P) :
    Simplified P' Γ s r := ⟨h.1.weaken hPP, h.2⟩

/-- The first two passes, as far as they are enabled. -/
def probeAndVivify (O : Oracle) (s : Solver) : Bool × Solver :=
  thenPass s.config.clauseVivification (vivifyOriginalClauses O)
    (thenPass s.config.failedLiteralProbing (probeFailedLiterals O) (true, s))

/-- Subsumption, where it is enabled, never makes a clause whose watches are false at the root. -/
def SightedSimplification (O : Oracle) (s : Solver) : Prop :=
  s.config.clauseSubsumption = true → ∀ s', s.probeAndVivify O = (true, s') → SightedRun O s'

lemma Simplified.thenPass {enabled : Bool} {pass : Solver → Bool × Solver} {r : Bool × Solver}
    (h : Simplified P Γ s r) (hpass : enabled = true → ∀ s', r = (true, s') → Prepared P Γ s' →
      Simplified P Γ s' (pass s')) : Simplified P Γ s (thenPass enabled pass r) := by
  obtain ⟨h1, h2⟩ := h
  cases h1 with
  | refuted s' hu hf => exact ⟨.refuted s' hu hf, h2⟩
  | done s' hp hf =>
    cases enabled with
    | false => exact ⟨.done s' hp hf, h2⟩
    | true =>
      obtain ⟨h3, h4⟩ := hpass rfl s' rfl hp
      exact ⟨h3.of_frame hf, fun ht => (h2 rfl).trans (h4 ht)⟩

lemma probeAndVivify_spec (h : Prepared P Γ s) (hP : P) (O : Oracle) :
    Simplified P Γ s (s.probeAndVivify O) := by
  have hstart : Simplified P Γ s (true, s) := ⟨.done s h (.refl s), fun _ => .refl s⟩
  refine Simplified.thenPass ?_ fun _ s' _ hp => vivifyOriginalClauses_spec hp hP O
  exact hstart.thenPass fun _ s' _ hp => probeFailedLiterals_spec hp O

/-- **Probing, vivification and subsumption** keep the models.  Only subsumption may lose the
watch invariant. -/
lemma simplify_spec (h : Prepared P Γ s) (hP : P) (O : Oracle) (hPP : P' → P)
    (hsub : P' → SightedSimplification O s) : Simplified P' Γ s (s.simplify O) :=
  Simplified.thenPass ((probeAndVivify_spec h hP O).weaken hPP) fun he s' hs' hp =>
    subsumeOriginalClauses_spec hp O fun hP' => hsub hP' he s' hs'

lemma rootPasses_of_reversible (O : Oracle) (h : s.config.Reversible) :
    s.rootPasses O = s.simplify O := by
  obtain ⟨h1, h2⟩ := h
  rw [rootPasses, h1, h2]
  show thenPass false _ (thenPass false _ (s.simplify O)) = s.simplify O
  obtain ⟨answer, s'⟩ := s.simplify O
  cases answer <;> rfl

/-- Nothing has been eliminated when the configuration is reversible. -/
lemma QueryPrepared.not_eliminated {r : Bool × Solver} (h : QueryPrepared P' Γ s r)
    (hv : Valid P Γ s) (hirr : s.irreversible = false) (v : ℕ) : v ∉ r.2.eliminatedVariables := by
  have hnone : s.eliminationRecords = [] := by
    by_contra hne
    rw [(hv.records hne).2] at hirr
    simp at hirr
  have hrec : r.2.eliminationRecords = [] := by
    cases h with
    | refuted s' _ hf => exact (hf.records hirr).trans hnone
    | done s' _ _ hf => exact (hf.records hirr).trans hnone
  rw [eliminatedVariables, hrec]
  simp

/-- If the query is the first one, its subsumption never makes a clause whose watches are false at
the root. -/
def SightedQuery (O : Oracle) (s : Solver) : Prop :=
  s.started = false → ∀ s₁, (s.beginQuery O).propagate O = (none, s₁) → SightedSimplification O s₁

/-- A query of a reversible solver is safe. -/
lemma QuerySafe.of_reversible {assumptions : List Lit} (h : Valid P Γ s)
    (hP : s.started = false → P) (hPP : P' → P) (hrev : s.config.Reversible)
    (hsub : P' → SightedQuery O s) : QuerySafe O P P' Γ assumptions s := by
  have hpasses : s.started = false → ∀ s₁, (s.beginQuery O).propagate O = (none, s₁) →
      Prepared P Γ s₁ → QueryFrame s s₁ → PassOk P' Γ s₁ (s₁.rootPasses O) := by
    intro hs s₁ hbegun hp hf
    rw [rootPasses_of_reversible O (by rwa [show s₁.config = s.config by rw [hf.session]])]
    exact (simplify_spec hp (hP hs) O hPP fun hP' => hsub hP' hs s₁ hbegun).1
  refine ⟨hPP, hpasses, fun _ a _ => ?_⟩
  refine (prepareQuery_spec h.sound O hPP subset_rfl (fun _ => rfl)
    fun hst _ => hpasses hst).not_eliminated h ?_ a.var
  rw [irreversible, hrev.1, hrev.2]
  rfl

/-! ### Runs -/

/-- Before the first query nothing has touched the watches. -/
lemma Represents.of_reversible (hrev : config.Reversible) (h : Reaches O config Allowed client s) :
    s.config = config ∧ ∃ Γ, Represents (s.started = false) Γ client s := by
  induction h with
  | start => exact ⟨rfl, _, represents_withConfig config⟩
  | @step client s s' operation response _ _ hpolite _ hperformed ih =>
    obtain ⟨hcfg, Γ, hrep⟩ := ih
    have hsafe : ∀ A limits, operation = .solveAssuming A limits →
        QuerySafe O (s.started = false) False Γ A s := fun A _ _ =>
      .of_reversible hrep.valid id (by simp) (hcfg ▸ hrev) False.elim
    obtain ⟨h1, ⟨Δ, hΔ⟩, -⟩ := hrep.perform hpolite hsafe hperformed
    refine ⟨h1.trans hcfg, Δ, ?_⟩
    rcases hΔ with ⟨hΔ, hst⟩ | ⟨hΔ, hst⟩
    · rwa [hst]
    · exact hΔ.weaken fun hn => absurd hn (by simp [hst])

/-- The base clauses have no model when the given ones have none: a scope can be left out. -/
lemma Represents.base_unsat (h : Represents P Γ client s) (hu : Unsat Γ) (m : ℕ → Bool) :
    ¬ ∀ c ∈ client.base, Sat m c := by
  intro hm
  refine hu (fun v => if v ∈ client.reserved then false else m v) fun d hd => ?_
  have hbase : ∀ c ∈ client.base, Sat (fun v => if v ∈ client.reserved then false else m v) c := by
    intro c hc
    obtain ⟨l, hl, hlm⟩ := hm c hc
    refine ⟨l, hl, ?_⟩
    rw [Literal.Holds, if_neg (h.avoid c (List.mem_append_left _ hc) l hl)]
    exact hlm
  have hfalse : ∀ v ∈ client.reserved, (⟨v, false⟩ : Lit) ∈ d →
      Sat (fun v => if v ∈ client.reserved then false else m v) d := fun v hv hvd =>
    ⟨_, hvd, by simp [Literal.Holds, hv]⟩
  rcases h.only d hd with hd | ⟨v, hv, -, hvd⟩
  · rcases List.mem_append.1 hd with hd | hd
    · exact hbase d hd
    · obtain ⟨l, scope, hp, c, -, rfl⟩ := mem_guardedClauses.1 hd
      have hl := (List.of_mem_zip hp).1
      refine hfalse l.var (h.reserved l hl) (List.mem_append_right _ ?_)
      rw [List.mem_singleton]
      exact Literal.ext_iff'.2 ⟨rfl, by simp [h.positive l hl]⟩
  · exact hfalse v hv hvd

/-- Four clauses without a model and one about another variable. -/
def contradictory : List (List Lit) :=
  [[⟨0, true⟩, ⟨1, true⟩], [⟨0, true⟩, ⟨1, false⟩], [⟨0, false⟩, ⟨1, true⟩],
    [⟨0, false⟩, ⟨1, false⟩], [⟨1, true⟩, ⟨2, true⟩]]

end Solver

end Satrap
