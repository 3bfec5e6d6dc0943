/-
# Simplification keeps the models

Failed-literal probing, vivification and subsumption leave clauses and root units that are
equivalent to the ones they were given, step by step and for every value of their budgets, and
answer `false` only when there is no model.  A clause that subsumes or strengthens another one is
active when it does so.
-/
import Satrap.Solver.FirstQuery

namespace Satrap

open Logic

namespace Solver

variable {P P' : Prop} {Γ : Set (List Lit)} {O : Oracle} {config : SolverConfig} {client : Client}
  {s s' t : Solver} {c d : ClauseRef} {removed : ClauseRef → Prop} {m : ℕ → Bool}

/-! ### Equivalence -/

/-- The conjunction of the active clauses and the root units. -/
def Conjunction (s : Solver) (m : ℕ → Bool) : Prop :=
  (∀ c, s.Active c → Sat m (s.literals c)) ∧ ∀ l ∈ s.trail, s.levels l.var = 0 → l.Holds m

/-- What a pass or a step of it leaves is equivalent to what it was given, and it answers `false`
only when there is no model. -/
def Equivalent (s : Solver) (r : Bool × Solver) : Prop :=
  match r with
  | (true, s') => ∀ m, s'.Conjunction m ↔ s.Conjunction m
  | (false, _) => ∀ m, ¬ s.Conjunction m

lemma conjunction_iff (h : Unlearned s) : s.Conjunction m ↔ Satisfies m s :=
  and_congr_left' ⟨fun hm c hc => hm c hc.1, fun hm c hc => hm c ⟨hc, h c hc.1⟩⟩

/-- A prepared state in which nothing has been learned or eliminated. -/
structure Untouched (P : Prop) (Γ : Set (List Lit)) (s : Solver) : Prop where
  prepared : Prepared P Γ s
  records : s.eliminationRecords = []
  unlearned : Unlearned s

namespace Untouched

lemma models (h : Untouched P Γ s) : Models m Γ ↔ s.Conjunction m :=
  (models_iff_satisfies h.prepared h.records m).trans (conjunction_iff h.unlearned).symm

lemma later (h : Untouched P Γ s) (hp : Prepared P Γ s') (hst : Stored removed s s') :
    Untouched P Γ s' :=
  ⟨hp, hst.records.trans h.records, h.unlearned.of_stored hst⟩

lemma weaken (h : Untouched P Γ s) (hPP : P' → P) : Untouched P' Γ s :=
  ⟨h.prepared.weaken hPP, h.records, h.unlearned⟩

/-- A pass keeps the set of models of the clauses. -/
lemma equivalent (h : Untouched P Γ s) {r : Bool × Solver} (hok : PassOk P Γ s r)
    (hst : r.1 = true → Stored removed s r.2) : Equivalent s r := by
  cases hok with
  | refuted s' hu _ => exact fun m hm => hu m (h.models.2 hm)
  | done s' hp _ => exact fun m => (h.later hp (hst rfl)).models.symm.trans h.models

lemma step (h : Untouched P Γ s) {r : Option Bool × Solver} (hok : StepOk P Γ removed s r) :
    Equivalent s (r.1.getD true, r.2) := by
  obtain ⟨answer, s'⟩ := r
  refine h.equivalent hok.1 fun ht => hok.2 ?_
  rintro rfl
  simp at ht

/-- The steps of a pass, one by one. -/
lemma takenUp {α : Type} {step : α → Solver → Option Bool × Solver} {schedule : List α}
    (h : Untouched P Γ s) (hstep : ∀ a ∈ schedule, ∀ s', Prepared P Γ s' → PassFrame s s' →
      Stored removed s s' → StepOk P Γ removed s' (step a s')) {a : α}
    (ht : TakenUp step schedule s a t) : Untouched P Γ t ∧ StepOk P Γ removed t (step a t) := by
  obtain ⟨hm, hp, hf, hst⟩ := ht.spec h.prepared hstep
  exact ⟨h.later hp hst, hstep a hm t hp hf hst⟩

end Untouched

/-! ### The passes -/

section

variable (O : Oracle) (budget startedAt : ℕ)

lemma probing_steps : ∀ v ∈ List.range s.variableCount, ∀ s', Prepared P Γ s' → PassFrame s s' →
    Stored (fun _ => False) s s' →
      StepOk P Γ (fun _ => False) s' (probeVariable O budget startedAt v s') :=
  fun _ hv _ hp hf _ => probeVariable_spec hp O ((List.mem_range.1 hv).trans_le hf.count)

lemma vivification_steps (hP : P) : ∀ c ∈ s.vivificationSchedule, ∀ s', Prepared P Γ s' →
    PassFrame s s' → Stored (fun _ => True) s s' →
      StepOk P Γ (fun _ => True) s' (vivifyScheduled O budget startedAt c s') :=
  fun _ hc _ hp _ hst => (vivifyScheduled_spec hp hP O budget startedAt
    (hst.scheduled (mem_vivificationSchedule hc))).mono fun _ _ => trivial

lemma subsumption_steps (hP : ¬ P) : ∀ c ∈ s.subsumptionSchedule, ∀ s', Prepared P Γ s' →
    PassFrame s s' → Stored (fun _ => True) s s' →
      StepOk P Γ (fun _ => True) s' (subsumeScheduled O budget s.subsumptionOccurrences c s') :=
  fun _ hc _ hp _ hst => (subsumeScheduled_spec hp O budget
    (fun _ d hd => (hst.allocated d (allocated_of_mem_occurrences hd)).1)
    (hst.scheduled (mem_subsumptionSchedule hc)) fun h => absurd h hP).mono fun _ _ => trivial

end

/-- A state in which a pass starts: in the first query, after any number of passes of probing and
vivification with any budgets. -/
inductive Simplifying (O : Oracle) (config : SolverConfig) (client : Client) : Solver → Prop
  | query {s : Solver} (h : FirstQuery O config client s) : Simplifying O config client s
  | probed {s s' : Solver} (budget startedAt : ℕ) (h : Simplifying O config client s)
      (hr : runPass (probeVariable O budget startedAt) (List.range s.variableCount) s = (true, s')) :
      Simplifying O config client s'
  | vivified {s s' : Solver} (budget startedAt : ℕ) (h : Simplifying O config client s)
      (hr : runPass (vivifyScheduled O budget startedAt) s.vivificationSchedule s = (true, s')) :
      Simplifying O config client s'

lemma Untouched.of_pass {r : Bool × Solver} (h : Untouched P Γ s)
    (hok : PassOk P Γ s r ∧ (r.1 = true → Stored removed s r.2)) (hr : r = (true, s')) :
    Untouched P Γ s' := by
  subst hr
  obtain ⟨hok, hst⟩ := hok
  cases hok with
  | done _ hp _ => exact h.later hp (hst rfl)

lemma Simplifying.untouched (h : Simplifying O config client s) : ∃ Γ, Untouched True Γ s := by
  induction h with
  | query h =>
    obtain ⟨-, hrec, hun, -, Γ, -, hp⟩ := h.prepared
    exact ⟨Γ, hp, hrec, hun⟩
  | probed budget startedAt _ hr ih =>
    obtain ⟨Γ, h⟩ := ih
    exact ⟨Γ, h.of_pass (runPass_spec _ _ h.prepared (probing_steps O budget startedAt)) hr⟩
  | vivified budget startedAt _ hr ih =>
    obtain ⟨Γ, h⟩ := ih
    exact ⟨Γ, h.of_pass
      (runPass_spec _ _ h.prepared (vivification_steps O budget startedAt trivial)) hr⟩

/-! ### Deletions -/

/-- What holds of the comparison of a target: the subsumer is active before and after it, with
the literals that are compared, and no other clause than the target is deleted. -/
structure Subsumes (c d : ClauseRef) (subsumer : List Lit) (s : Solver)
    (r : Option Bool × List ClauseRef × Solver) : Prop where
  subsumer : s.Active c ∧ (s.literals c).Perm subsumer
  stays : r.1 ≠ some false → r.2.2.Active c
  others : r.1 ≠ some false → ∀ e, s.Active e → e ≠ d → r.2.2.Active e
  equivalent : Equivalent s (r.1.getD true, r.2.2)

lemma Compared.justified (hP : ¬ P) {O : Oracle} {budget : ℕ} {subsumer : List Lit}
    {targets visited visited' : List ClauseRef}
    (h : Compared O budget c subsumer targets visited s d visited' t) (hs : Untouched P Γ s)
    (hc : s.Original c) (hperm : (s.literals c).Perm subsumer)
    (halloc : ∀ d ∈ targets, s.Allocated d) :
    Subsumes c d subsumer t (subsumeTarget O budget c subsumer d visited' t) := by
  induction h with
  | here d rest visited s =>
    have hstep := subsumeTarget_spec hs.prepared hc hperm O budget
      (halloc d List.mem_cons_self) visited fun h => absurd h hP
    refine ⟨⟨hc.1, hperm⟩, fun hr => ((hstep.2 hr).original c hc (by simp)).1.1,
      fun hr e he hed => ?_, hs.step hstep⟩
    exact ((hstep.2 hr).original e ⟨he, hs.unlearned e he.1⟩ fun h => hed h.1).1.1
  | @later d e rest visited visited' visited'' s s' t he _ ih =>
    have hstep := subsumeTarget_spec hs.prepared hc hperm O budget
      (halloc d List.mem_cons_self) visited fun h => absurd h hP
    rw [he] at hstep
    obtain ⟨hp, hf, hst⟩ := StepOk.prepared hstep
    obtain ⟨hc', hperm'⟩ := hst.original c hc (by simp)
    exact ih (hs.later hp hst) hc' (hperm'.trans hperm) fun b hb =>
      (hst.allocated b (halloc b (List.mem_cons_of_mem d hb))).1

/-- **Probing, vivification and subsumption keep the models**, for every value of the budgets, as
a whole and step by step; and in subsumption every clause that is deleted is deleted on account of
one that is active. -/
theorem simplification_preserves (h : Simplifying O config client s) (budget startedAt : ℕ) :
    Equivalent s (runPass (probeVariable O budget startedAt) (List.range s.variableCount) s) ∧
    Equivalent s (runPass (vivifyScheduled O budget startedAt) s.vivificationSchedule s) ∧
    Equivalent s (runPass (subsumeScheduled O budget s.subsumptionOccurrences)
      s.subsumptionSchedule s) ∧
    (∀ v t, TakenUp (probeVariable O budget startedAt) (List.range s.variableCount) s v t →
      Equivalent t ((probeVariable O budget startedAt v t).1.getD true,
        (probeVariable O budget startedAt v t).2) ∧
      ((probeVariable O budget startedAt v t).1 ≠ some false →
        ∀ e, t.Active e → (probeVariable O budget startedAt v t).2.Active e)) ∧
    (∀ c t, TakenUp (vivifyScheduled O budget startedAt) s.vivificationSchedule s c t →
      Equivalent t ((vivifyScheduled O budget startedAt c t).1.getD true,
        (vivifyScheduled O budget startedAt c t).2) ∧
      ((vivifyScheduled O budget startedAt c t).1 ≠ some false →
        ∀ e, t.Active e → e ≠ c → (vivifyScheduled O budget startedAt c t).2.Active e)) ∧
    ∀ c t, TakenUp (subsumeScheduled O budget s.subsumptionOccurrences) s.subsumptionSchedule s c t →
      (t.clause c).deleted = false →
      ∀ targets d visited t', Compared O budget c (t.clause c).literals targets [] t d visited t' →
        (∀ e ∈ targets, ∃ l, e ∈ s.subsumptionOccurrences l) →
        Subsumes c d (t.clause c).literals t'
          (subsumeTarget O budget c (t.clause c).literals d visited t') := by
  obtain ⟨Γ, hs⟩ := h.untouched
  have hs' : Untouched False Γ s := hs.weaken False.elim
  have hactive : ∀ {removed : ClauseRef → Prop} {t : Solver} {r : Option Bool × Solver},
      Untouched True Γ t → StepOk True Γ removed t r → r.1 ≠ some false →
      ∀ e, t.Active e → ¬ removed e → r.2.Active e := fun ht hok hr e he hne =>
    ((hok.2 hr).original e ⟨he, ht.unlearned e he.1⟩ hne).1.1
  obtain ⟨hp₁, hp₂⟩ := runPass_spec _ _ hs.prepared (probing_steps O budget startedAt)
  obtain ⟨hv₁, hv₂⟩ := runPass_spec _ _ hs.prepared (vivification_steps O budget startedAt trivial)
  obtain ⟨hb₁, hb₂⟩ := runPass_spec _ _ hs'.prepared (subsumption_steps O budget id)
  refine ⟨hs.equivalent hp₁ hp₂, hs.equivalent hv₁ hv₂, hs'.equivalent hb₁ hb₂,
    fun v t ht => ?_, fun c t ht => ?_, fun c t ht hdel targets d visited t' hcmp hocc => ?_⟩
  · obtain ⟨htu, hok⟩ := hs.takenUp (probing_steps O budget startedAt) ht
    exact ⟨htu.step hok, fun hr e he => hactive htu hok hr e he id⟩
  · obtain ⟨hm, hp, hf, hst⟩ := ht.spec hs.prepared (vivification_steps O budget startedAt trivial)
    have htu := hs.later hp hst
    have hok := vivifyScheduled_spec hp trivial O budget startedAt
      (hst.scheduled (mem_vivificationSchedule hm))
    exact ⟨htu.step hok, fun hr e he hec => hactive htu hok hr e he hec⟩
  · obtain ⟨hm, hp, hf, hst⟩ := ht.spec hs'.prepared (subsumption_steps O budget id)
    obtain ⟨halloc, hlearned⟩ := hst.scheduled (mem_subsumptionSchedule hm)
    refine hcmp.justified id (hs'.later hp hst) ⟨⟨halloc, hdel⟩, hlearned⟩ (.refl _) fun e he => ?_
    obtain ⟨l, hl⟩ := hocc e he
    exact (hst.allocated e (allocated_of_mem_occurrences hl)).1

/-- A clause and one that contains it. -/
def nestedClauses : List (List Lit) :=
  [[⟨0, true⟩, ⟨1, true⟩], [⟨0, true⟩, ⟨1, true⟩, ⟨2, true⟩]]

theorem simplification_preserves_nested :
    (((firstQueryState .quiet {} nestedClauses).subsumeOriginalClauses .quiet).2.clause
        (.long 0)).deleted = true ∧
      Equivalent (firstQueryState .quiet {} nestedClauses)
        ((firstQueryState .quiet {} nestedClauses).subsumeOriginalClauses .quiet) := by
  have hfirst : FirstQuery .quiet {} ⟨nestedClauses, [], []⟩
      (firstQueryState .quiet {} nestedClauses) :=
    firstQuery_withClauses (by decide) (by decide) (by decide)
  have hdeleted : (((firstQueryState .quiet {} nestedClauses).subsumeOriginalClauses
      .quiet).2.clause (.long 0)).deleted = true := by decide +kernel
  refine ⟨hdeleted, ?_⟩
  generalize firstQueryState .quiet {} nestedClauses = s at hfirst
  exact (simplification_preserves (.query hfirst) s.subsumptionLiteralTouchBudget 0).2.2.1

end Solver

end Satrap
