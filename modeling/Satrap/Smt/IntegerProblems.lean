/-
# Problems of the integer search

Simplification keeps the solutions of a problem and leaves inequalities that have no divisor.  The
bounds that inequalities set one variable are the ends of its interval.  The steps that the search
shares with the deciders of refutations are theirs on the same data.
-/
import Satrap.Smt.IntegerRefutation
import Satrap.Smt.RealArithmetic

namespace Satrap.Smt

open Logic

variable {x : ℕ → ℤ} {v : ℕ} {vars : List ℕ}

/-! ### The problems of the search -/

namespace IntegerExpression

/-- The expression as the deciders of refutations have it. -/
def toProof (e : IntegerExpression) : ProofIntegerExpression ℕ := ⟨e.constant, e.coefficients⟩

lemma evaluate_toProof (e : IntegerExpression) (x : ℕ → ℤ) : e.toProof.evaluate x = e.evaluate x :=
  (foldl_weightedSum _).symm

lemma toProof_scaled (e : IntegerExpression) (scale : ℤ) :
    (e.scaled scale).toProof = e.toProof.scaled scale := by
  unfold scaled ProofIntegerExpression.scaled
  split <;> rfl

lemma toProof_tighten (e : IntegerExpression) :
    (IntegerProblem.tighten e).toProof = ProofIntegerProblem.tighten e.toProof := by
  unfold IntegerProblem.tighten ProofIntegerProblem.tighten
  dsimp only
  split
  · next h => exact (if_pos h).symm
  · next h => exact (if_neg h).symm

lemma toProof_normalizeExpression (e : IntegerExpression) (scale : ℤ) :
    (IntegerProblem.normalizeExpression v scale e).toProof =
      ProofIntegerProblem.normalizeExpression v scale e.toProof := by
  unfold IntegerProblem.normalizeExpression ProofIntegerProblem.normalizeExpression
  have h := toProof_scaled (e.without v) (scale.tdiv |e.coefficient v|)
  have hcoefficients := congrArg ProofIntegerExpression.coefficients h
  have hconstant := congrArg ProofIntegerExpression.constant h
  simp only [toProof] at hcoefficients hconstant
  simp only [toProof, hcoefficients, hconstant]
  rfl

end IntegerExpression

namespace DivisibilityConstraint

/-- The divisibility as the deciders of refutations have it. -/
def toProof (d : DivisibilityConstraint) : ProofDivisibilityConstraint ℕ :=
  ⟨d.modulus, d.expression.toProof⟩

end DivisibilityConstraint

namespace IntegerProblem

variable {p q : IntegerProblem}

/-- The problem as the deciders of refutations have it. -/
def toProof (p : IntegerProblem) : ProofIntegerProblem ℕ :=
  ⟨p.inequalities.map IntegerExpression.toProof,
    p.divisibilities.map DivisibilityConstraint.toProof⟩

/-- The values solve the problem. -/
def Holds (p : IntegerProblem) (x : ℕ → ℤ) : Prop :=
  (∀ e ∈ p.inequalities, e.evaluate x < 0) ∧
    ∀ d ∈ p.divisibilities, d.modulus ∣ d.expression.evaluate x

lemma holds_toProof : p.toProof.Holds x ↔ p.Holds x := by
  simp only [Holds, ProofIntegerProblem.Holds, toProof, List.forall_mem_map,
    IntegerExpression.evaluate_toProof, ProofDivisibilityConstraint.Holds,
    DivisibilityConstraint.toProof]

/-- The expressions are canonical and have the variables, and the moduli are positive. -/
structure Proper (p : IntegerProblem) (vars : List ℕ) : Prop where
  canonical : p.toProof.Every ProofIntegerExpression.Canonical
  within : p.toProof.Every (ProofIntegerExpression.Over vars)
  positive : p.toProof.Positive

lemma toProof_substitute (p : IntegerProblem) (v : ℕ) (value : IntegerExpression) :
    (p.substitute v value).toProof = p.toProof.substitute v value.toProof := by
  simp only [toProof, substitute, ProofIntegerProblem.substitute, List.map_map]
  rfl

lemma coefficientsOf_toProof (p : IntegerProblem) (v : ℕ) :
    p.toProof.coefficientsOf v = p.coefficientsOf v := by
  simp only [ProofIntegerProblem.coefficientsOf, coefficientsOf, toProof, List.map_map]
  rfl

lemma scaleOf_toProof (p : IntegerProblem) (v : ℕ) : p.toProof.scaleOf v = p.scaleOf v := by
  rw [ProofIntegerProblem.scaleOf, scaleOf, coefficientsOf_toProof]
  rfl

lemma mentions_toProof (p : IntegerProblem) (v : ℕ) : p.toProof.mentions v = p.mentions v := by
  simp only [ProofIntegerProblem.mentions, mentions, toProof, List.any_map]
  rfl

/-- Cooper's elimination is that of refutations. -/
lemma divisibilities_normalizeCooper (p : IntegerProblem) (v : ℕ) :
    (p.normalizeCooper v).normalized.divisibilities.map DivisibilityConstraint.toProof =
      (p.toProof.cooperElimination v).normalized.divisibilities := by
  simp only [ProofIntegerProblem.cooperElimination, normalizeCooper, scaleOf_toProof]
  simp only [toProof, List.map_append, List.map_map, List.map_cons, List.map_nil]
  refine congrArg₂ _ (List.map_congr_left fun d _ => ?_) rfl
  dsimp only [Function.comp_apply]
  split
  · next h => exact (if_pos h).symm
  · next h =>
    rw [DivisibilityConstraint.toProof, IntegerExpression.toProof_normalizeExpression]
    exact (if_neg h).symm

lemma period_normalizeCooper (p : IntegerProblem) (v : ℕ) :
    (p.normalizeCooper v).period = (p.toProof.cooperElimination v).period := by
  show (p.normalizeCooper v).normalized.divisibilities.foldl
    (fun result d => integerLcm result d.modulus) 1 =
      (p.toProof.cooperElimination v).normalized.divisibilities.foldl
        (fun result d => proofIntegerLcm result d.modulus) 1
  rw [← divisibilities_normalizeCooper, List.foldl_map]
  rfl

lemma normalized_normalizeCooper (p : IntegerProblem) (v : ℕ) :
    (p.normalizeCooper v).normalized.toProof = (p.toProof.cooperElimination v).normalized := by
  have hinequalities : (p.normalizeCooper v).normalized.inequalities.map IntegerExpression.toProof =
      (p.toProof.cooperElimination v).normalized.inequalities := by
    simp only [ProofIntegerProblem.cooperElimination, normalizeCooper, scaleOf_toProof]
    simp only [toProof, List.map_map]
    refine List.map_congr_left fun e _ => ?_
    dsimp only [Function.comp_apply]
    split
    · next h => exact (if_pos h).symm
    · next h =>
      rw [IntegerExpression.toProof_normalizeExpression]
      exact (if_neg h).symm
  rw [toProof, hinequalities, divisibilities_normalizeCooper]

lemma bases_normalizeCooper (p : IntegerProblem) (v : ℕ) :
    (p.normalizeCooper v).lowerBases.map IntegerExpression.toProof =
        (p.toProof.cooperElimination v).lowerBases ∧
      (p.normalizeCooper v).upperBases.map IntegerExpression.toProof =
        (p.toProof.cooperElimination v).upperBases := by
  have hnormalize (e : IntegerExpression) :
      ((normalizeExpression v (p.scaleOf v) e).without v).toProof =
        (ProofIntegerProblem.normalizeExpression v (p.scaleOf v) e.toProof).without v := by
    rw [← IntegerExpression.toProof_normalizeExpression]
    rfl
  simp only [ProofIntegerProblem.cooperElimination, normalizeCooper, scaleOf_toProof]
  simp only [toProof, List.map_map, List.filter_map]
  refine ⟨List.map_congr_left fun e _ => hnormalize e, List.map_congr_left fun e _ => ?_⟩
  show ((normalizeExpression v (p.scaleOf v) e).without v).negated.toProof = _
  rw [IntegerExpression.negated, IntegerExpression.toProof_scaled, hnormalize]
  rfl

/-! ### Simplification -/

/-- The inequality has variables, and no divisor to be divided by. -/
def Tight (e : IntegerExpression) : Prop := e.coefficients ≠ [] ∧ tighten e = e

lemma simplifyInequalities_none {kept items : List IntegerExpression}
    (h : simplifyInequalities kept items = none) :
    ∃ e ∈ items, (tighten e).coefficients = [] ∧ ¬(tighten e).constant < 0 := by
  induction items generalizing kept with
  | nil => cases h
  | cons e rest ih =>
    have hrest : ∀ {kept}, simplifyInequalities kept rest = none → ∃ e' ∈ e :: rest,
        (tighten e').coefficients = [] ∧ ¬(tighten e').constant < 0 := fun h =>
      (ih h).imp fun _ => And.imp_left (List.mem_cons_of_mem _)
    unfold simplifyInequalities at h
    dsimp only at h
    split at h
    · next hnil =>
      split at h
      · exact hrest h
      · next hconstant => exact ⟨e, List.mem_cons_self, hnil, hconstant⟩
    · split at h
      · exact hrest h
      · exact hrest h

lemma simplifyInequalities_some {kept items out : List IntegerExpression}
    (h : simplifyInequalities kept items = some out) :
    (∀ e, e ∈ out ↔ e ∈ kept ∨ e.coefficients ≠ [] ∧ ∃ e' ∈ items, tighten e' = e) ∧
      ∀ e ∈ items, (tighten e).coefficients = [] → (tighten e).constant < 0 := by
  induction items generalizing kept with
  | nil =>
    obtain rfl := Option.some.inj h
    simp
  | cons e rest ih =>
    simp only [List.exists_mem_cons_iff, List.forall_mem_cons]
    unfold simplifyInequalities at h
    dsimp only at h
    split at h
    · next hnil =>
      split at h
      · next hconstant =>
        obtain ⟨hmem, hall⟩ := ih h
        refine ⟨fun e' => (hmem e').trans (or_congr_right (and_congr_right fun hne => ?_)),
          fun _ => hconstant, hall⟩
        refine ⟨.inr, fun hcases => hcases.resolve_left ?_⟩
        rintro rfl
        exact hne hnil
      · cases h
    · next hne =>
      split at h
      · next hkept =>
        obtain ⟨hmem, hall⟩ := ih h
        refine ⟨fun e' => (hmem e').trans ⟨fun hcases => ?_, fun hcases => ?_⟩,
          fun hnil => absurd hnil hne, hall⟩
        · exact hcases.imp_right (And.imp_right .inr)
        · rcases hcases with hmem | ⟨hne', rfl | hmem⟩
          · exact .inl hmem
          · exact .inl hkept
          · exact .inr ⟨hne', hmem⟩
      · obtain ⟨hmem, hall⟩ := ih h
        refine ⟨fun e' => (hmem e').trans ?_, fun hnil => absurd hnil hne, hall⟩
        rw [List.mem_append, List.mem_singleton, or_assoc]
        refine or_congr_right ⟨fun hcases => ?_, fun hcases => ?_⟩
        · rcases hcases with rfl | ⟨hne', hmem⟩
          · exact ⟨hne, .inl rfl⟩
          · exact ⟨hne', .inr hmem⟩
        · rcases hcases with ⟨hne', rfl | hmem⟩
          · exact .inl rfl
          · exact .inr ⟨hne', hmem⟩

/-- What becomes of a divisibility that is not refuted. -/
def Reduced (d d' : DivisibilityConstraint) : Prop :=
  reduceDivisibility d = some d' ∧ d'.modulus ≠ 1 ∧ d'.expression.coefficients ≠ []

/-- The divisibility is refuted by itself. -/
def Refuted (d : DivisibilityConstraint) : Prop :=
  reduceDivisibility d = none ∨ ∃ d', reduceDivisibility d = some d' ∧
    d'.expression.coefficients = [] ∧ d'.expression.constant.tmod d'.modulus ≠ 0

lemma simplifyDivisibilities_none {kept items : List DivisibilityConstraint}
    (h : simplifyDivisibilities kept items = none) : ∃ d ∈ items, Refuted d := by
  induction items generalizing kept with
  | nil => cases h
  | cons d rest ih =>
    have hrest : ∀ {kept}, simplifyDivisibilities kept rest = none → ∃ d' ∈ d :: rest, Refuted d' :=
      fun h => (ih h).imp fun _ => And.imp_left (List.mem_cons_of_mem _)
    unfold simplifyDivisibilities at h
    split at h
    · next hd => exact ⟨d, List.mem_cons_self, .inl hd⟩
    next d' hd =>
    split at h
    · exact hrest h
    split at h
    · next hnil =>
      split at h
      · next hmod => exact ⟨d, List.mem_cons_self, .inr ⟨d', hd, hnil, hmod⟩⟩
      · exact hrest h
    split at h
    · exact hrest h
    · exact hrest h

lemma simplifyDivisibilities_some {kept items out : List DivisibilityConstraint}
    (h : simplifyDivisibilities kept items = some out) :
    (∀ d, d ∈ out ↔ d ∈ kept ∨ ∃ d' ∈ items, Reduced d' d) ∧ ∀ d ∈ items, ∃ d',
      reduceDivisibility d = some d' ∧ (Reduced d d' ∨ d'.modulus = 1 ∨
        d'.expression.coefficients = [] ∧ d'.expression.constant.tmod d'.modulus = 0) := by
  induction items generalizing kept with
  | nil =>
    obtain rfl := Option.some.inj h
    simp
  | cons d rest ih =>
    simp only [List.exists_mem_cons_iff, List.forall_mem_cons]
    unfold simplifyDivisibilities at h
    split at h
    · cases h
    next d' hd =>
    have hunique : ∀ {d''}, Reduced d d'' → d'' = d' := fun hr =>
      Option.some.inj (hr.1.symm.trans hd)
    -- the loop goes on with what it has kept
    have hskip : (∀ d'', ¬ Reduced d d'' ∨ d' ∈ kept) →
        simplifyDivisibilities kept rest = some out →
        ∀ d'', d'' ∈ out ↔ d'' ∈ kept ∨ Reduced d d'' ∨ ∃ d₀ ∈ rest, Reduced d₀ d'' := by
      intro hno h d''
      rw [(ih h).1 d'']
      refine ⟨fun hcases => hcases.imp_right .inr, fun hcases => ?_⟩
      rcases hcases with hmem | hr | hmem
      · exact .inl hmem
      · exact .inl ((hno d'').elim (absurd hr) fun hkept => hunique hr ▸ hkept)
      · exact .inr hmem
    split at h
    · next hone =>
      refine ⟨hskip (fun d'' => .inl fun hr => hr.2.1 (hunique hr ▸ hone)) h,
        ⟨d', hd, .inr (.inl hone)⟩, (ih h).2⟩
    next hone =>
    split at h
    · next hnil =>
      split at h
      · cases h
      · next hmod =>
        refine ⟨hskip (fun d'' => .inl fun hr => hr.2.2 (hunique hr ▸ hnil)) h,
          ⟨d', hd, .inr (.inr ⟨hnil, not_not.1 hmod⟩)⟩, (ih h).2⟩
    next hne =>
    split at h
    · next hkept => exact ⟨hskip (fun _ => .inr hkept) h, ⟨d', hd, .inl ⟨hd, hone, hne⟩⟩, (ih h).2⟩
    · refine ⟨fun d'' => ((ih h).1 d'').trans ?_, ⟨d', hd, .inl ⟨hd, hone, hne⟩⟩, (ih h).2⟩
      rw [List.mem_append, List.mem_singleton, or_assoc]
      refine or_congr_right (or_congr_left ⟨?_, hunique⟩)
      rintro rfl
      exact ⟨hd, hone, hne⟩

lemma reduceDivisibility_toProof {d : DivisibilityConstraint} (h : 0 < d.modulus) :
    ProofIntegerProblem.reduceDivisibility d.toProof =
      .ok ((reduceDivisibility d).map DivisibilityConstraint.toProof) := by
  have hne : ¬|d.modulus| = 0 := (abs_pos.2 h.ne').ne'
  unfold ProofIntegerProblem.reduceDivisibility reduceDivisibility
  dsimp only
  rw [if_neg hne, if_neg (show ¬|d.toProof.modulus| = 0 from hne)]
  by_cases hmod : d.expression.constant.tmod (d.expression.coefficients.foldl
      (fun result entry => integerGcd result entry.2) |d.modulus|) ≠ 0
  · rw [if_pos hmod]
    exact if_pos hmod
  rw [if_neg hmod]
  refine Eq.trans (if_neg hmod) ?_
  by_cases hlt : 1 < d.expression.coefficients.foldl
      (fun result entry => integerGcd result entry.2) |d.modulus|
  · rw [if_pos hlt]
    exact if_pos hlt
  · rw [if_neg hlt]
    exact if_neg hlt

/-- A reduced divisibility says the same. -/
lemma reduceDivisibility_spec {d : DivisibilityConstraint} (h : 0 < d.modulus) :
    match reduceDivisibility d with
    | none => ∀ x, ¬ d.modulus ∣ d.expression.evaluate x
    | some r => (∀ x, r.modulus ∣ r.expression.evaluate x ↔ d.modulus ∣ d.expression.evaluate x) ∧
        0 < r.modulus ∧
        (d.expression.toProof.Canonical → r.expression.toProof.Canonical) ∧
        ∀ vars, d.expression.toProof.Over vars → r.expression.toProof.Over vars := by
  have hproof := reduceDivisibility_toProof h
  cases hr : reduceDivisibility d with
  | none =>
    rw [hr] at hproof
    intro x
    rw [← IntegerExpression.evaluate_toProof]
    exact ProofIntegerProblem.reduceDivisibility_spec hproof x
  | some r =>
    rw [hr] at hproof
    obtain ⟨hholds, hpos, hcanonical, hover⟩ := ProofIntegerProblem.reduceDivisibility_spec hproof
    refine ⟨fun x => ?_, hpos, hcanonical, hover⟩
    rw [← IntegerExpression.evaluate_toProof, ← IntegerExpression.evaluate_toProof]
    exact hholds x

lemma evaluate_of_nil {e : IntegerExpression} (h : e.coefficients = []) :
    e.evaluate x = e.constant := by
  rw [IntegerExpression.evaluate, h]
  rfl

lemma tighten_lt_iff (e : IntegerExpression) : (tighten e).evaluate x < 0 ↔ e.evaluate x < 0 := by
  rw [← IntegerExpression.evaluate_toProof, ← IntegerExpression.evaluate_toProof,
    IntegerExpression.toProof_tighten]
  exact ProofIntegerProblem.tighten_lt_iff _

/-- The simplified problem has the same solutions. -/
structure Simplified (p q : IntegerProblem) (vars : List ℕ) : Prop where
  holds : ∀ x, q.Holds x ↔ p.Holds x
  proper : q.Proper vars
  inequalities : ∀ e, e ∈ q.inequalities ↔ e.coefficients ≠ [] ∧
    ∃ e' ∈ p.inequalities, tighten e' = e
  divisibilities : ∀ d ∈ q.divisibilities, ∃ d' ∈ p.divisibilities, Reduced d' d

lemma simplify_none (h : p.Proper vars) (hp : p.simplify = none) (x : ℕ → ℤ) : ¬p.Holds x := by
  rintro ⟨hi, hd⟩
  unfold simplify at hp
  split at hp
  · next hnone =>
    obtain ⟨e, he, hnil, hconstant⟩ := simplifyInequalities_none hnone
    have := (tighten_lt_iff e).2 (hi e he)
    rw [evaluate_of_nil hnil] at this
    exact hconstant this
  · rw [Option.map_eq_none_iff] at hp
    obtain ⟨d, hmem, hrefuted⟩ := simplifyDivisibilities_none hp
    have hspec := reduceDivisibility_spec (h.positive _ (List.mem_map_of_mem hmem) : 0 < d.modulus)
    rcases hrefuted with hnone | ⟨r, hr, hnil, hmod⟩
    · rw [hnone] at hspec
      exact hspec x (hd d hmem)
    · rw [hr] at hspec
      have hdvd := (hspec.1 x).2 (hd d hmem)
      rw [evaluate_of_nil hnil] at hdvd
      exact hmod (Int.tmod_eq_zero_of_dvd hdvd)

lemma simplify_some (h : p.Proper vars) (hp : p.simplify = some q) : Simplified p q vars := by
  unfold simplify at hp
  split at hp
  · cases hp
  next inequalities hi =>
  obtain ⟨divisibilities, hd, rfl⟩ := Option.map_eq_some_iff.1 hp
  obtain ⟨hmem, hconstants⟩ := simplifyInequalities_some hi
  obtain ⟨hmem', hreduced⟩ := simplifyDivisibilities_some hd
  have hspec : ∀ d ∈ p.divisibilities, ∀ r, reduceDivisibility d = some r →
      (∀ x, r.modulus ∣ r.expression.evaluate x ↔ d.modulus ∣ d.expression.evaluate x) ∧
        0 < r.modulus ∧ r.expression.toProof.Canonical ∧ r.expression.toProof.Over vars := by
    intro d hd r hr
    have hspec := reduceDivisibility_spec (h.positive _ (List.mem_map_of_mem hd) : 0 < d.modulus)
    rw [hr] at hspec
    exact ⟨hspec.1, hspec.2.1, hspec.2.2.1 (h.canonical.2 _ (List.mem_map_of_mem hd)),
      hspec.2.2.2 vars (h.within.2 _ (List.mem_map_of_mem hd))⟩
  simp only [List.not_mem_nil, false_or] at hmem hmem'
  refine ⟨fun x => and_congr ⟨fun hall e he => ?_, fun hall e he => ?_⟩
    ⟨fun hall d hd => ?_, fun hall d hd => ?_⟩, ⟨⟨?_, ?_⟩, ⟨?_, ?_⟩, ?_⟩, hmem,
    fun d hd => (hmem' d).1 hd⟩
  · rw [← tighten_lt_iff]
    by_cases hnil : (tighten e).coefficients = []
    · rw [evaluate_of_nil hnil]
      exact hconstants e he hnil
    · exact hall _ ((hmem _).2 ⟨hnil, e, he, rfl⟩)
  · obtain ⟨-, e', he', rfl⟩ := (hmem e).1 he
    exact (tighten_lt_iff e').2 (hall e' he')
  · obtain ⟨r, hr, hcases⟩ := hreduced d hd
    rw [← (hspec d hd r hr).1 x]
    rcases hcases with hr' | hone | ⟨hnil, hmod⟩
    · exact hall r ((hmem' r).2 ⟨d, hd, hr'⟩)
    · rw [hone]
      exact one_dvd _
    · rw [evaluate_of_nil hnil]
      exact Int.dvd_of_tmod_eq_zero hmod
  · obtain ⟨d', hd', hr⟩ := (hmem' d).1 hd
    exact ((hspec d' hd' d hr.1).1 x).2 (hall d' hd')
  · rintro _ hmap
    obtain ⟨e, he, rfl⟩ := List.mem_map.1 hmap
    obtain ⟨-, e', he', rfl⟩ := (hmem e).1 he
    rw [IntegerExpression.toProof_tighten]
    exact ProofIntegerProblem.tighten_canonical (h.canonical.1 _ (List.mem_map_of_mem he'))
  · rintro _ hmap
    obtain ⟨d, hd, rfl⟩ := List.mem_map.1 hmap
    obtain ⟨d', hd', hr⟩ := (hmem' d).1 hd
    exact (hspec d' hd' d hr.1).2.2.1
  · rintro _ hmap
    obtain ⟨e, he, rfl⟩ := List.mem_map.1 hmap
    obtain ⟨-, e', he', rfl⟩ := (hmem e).1 he
    rw [IntegerExpression.toProof_tighten]
    exact ProofIntegerProblem.tighten_over (h.within.1 _ (List.mem_map_of_mem he'))
  · rintro _ hmap
    obtain ⟨d, hd, rfl⟩ := List.mem_map.1 hmap
    obtain ⟨d', hd', hr⟩ := (hmem' d).1 hd
    exact (hspec d' hd' d hr.1).2.2.2
  · rintro _ hmap
    obtain ⟨d, hd, rfl⟩ := List.mem_map.1 hmap
    obtain ⟨d', hd', hr⟩ := (hmem' d).1 hd
    exact (hspec d' hd' d hr.1).2.1

/-! ### Intervals of variables -/

/-- The lower bound that an inequality in one variable sets it. -/
def lowerOf (v : ℕ) (e : IntegerExpression) : Option ℤ :=
  if e.coefficients.length ≠ 1 ∨ ¬e.coefficient v < 0 then none
  else some (⌊(-e.constant : ℚ) / e.coefficient v⌋ + 1)

/-- The upper bound that an inequality in one variable sets it. -/
def upperOf (v : ℕ) (e : IntegerExpression) : Option ℤ :=
  if e.coefficients.length ≠ 1 ∨ ¬0 < e.coefficient v then none
  else some (⌈(-e.constant : ℚ) / e.coefficient v⌉ - 1)

/-- The best of the candidates, if there are any. -/
def Best (R : ℤ → ℤ → Prop) (candidates : List ℤ) : Option ℤ → Prop
  | none => candidates = []
  | some m => m ∈ candidates ∧ ∀ a ∈ candidates, R a m

lemma Best.max {candidates : List ℤ} {best : Option ℤ} (h : Best (· ≤ ·) candidates best) (a : ℤ) :
    Best (· ≤ ·) (candidates ++ [a]) (some (best.elim a (max a))) := by
  cases best with
  | none =>
    obtain rfl : candidates = [] := h
    exact ⟨List.mem_singleton_self a, fun b hb => (List.mem_singleton.1 hb).le⟩
  | some m =>
    obtain ⟨hmem, hall⟩ := h
    simp only [Option.elim_some]
    refine ⟨?_, fun b hb => ?_⟩
    · rcases le_total m a with hle | hle
      · rw [max_eq_left hle]
        exact List.mem_append_right _ (List.mem_singleton_self a)
      · rw [max_eq_right hle]
        exact List.mem_append_left _ hmem
    · rcases List.mem_append.1 hb with hb | hb
      · exact (hall b hb).trans (le_max_right _ _)
      · exact (List.mem_singleton.1 hb).le.trans (le_max_left _ _)

lemma Best.min {candidates : List ℤ} {best : Option ℤ} (h : Best (· ≥ ·) candidates best) (a : ℤ) :
    Best (· ≥ ·) (candidates ++ [a]) (some (best.elim a (min a))) := by
  cases best with
  | none =>
    obtain rfl : candidates = [] := h
    exact ⟨List.mem_singleton_self a, fun b hb => (List.mem_singleton.1 hb).ge⟩
  | some m =>
    obtain ⟨hmem, hall⟩ := h
    simp only [Option.elim_some]
    refine ⟨?_, fun b hb => ?_⟩
    · rcases le_total m a with hle | hle
      · rw [min_eq_right hle]
        exact List.mem_append_left _ hmem
      · rw [min_eq_left hle]
        exact List.mem_append_right _ (List.mem_singleton_self a)
    · rcases List.mem_append.1 hb with hb | hb
      · exact (min_le_right _ _).trans (hall b hb)
      · exact (min_le_left _ _).trans (List.mem_singleton.1 hb).ge

lemma tightenBounds_best {lowers uppers : List ℤ} {bounds : Option ℤ × Option ℤ}
    (hl : Best (· ≤ ·) lowers bounds.1) (hu : Best (· ≥ ·) uppers bounds.2)
    (e : IntegerExpression) :
    Best (· ≤ ·) (lowers ++ (lowerOf v e).toList) (tightenBounds v bounds e).1 ∧
      Best (· ≥ ·) (uppers ++ (upperOf v e).toList) (tightenBounds v bounds e).2 := by
  have hkeep : e.coefficients.length ≠ 1 ∨ e.coefficient v = 0 →
      tightenBounds v bounds e = bounds := fun h => if_pos h
  by_cases hlen : e.coefficients.length ≠ 1
  · rw [hkeep (.inl hlen), lowerOf, upperOf, if_pos (.inl hlen), if_pos (.inl hlen),
      Option.toList_none, List.append_nil, List.append_nil]
    exact ⟨hl, hu⟩
  rcases lt_trichotomy (e.coefficient v) 0 with hneg | hzero | hpos
  · have hlower : lowerOf v e = some (⌊(-e.constant : ℚ) / e.coefficient v⌋ + 1) :=
      if_neg (not_or.2 ⟨hlen, not_not.2 hneg⟩)
    have hupper : upperOf v e = none := if_pos (.inr (not_lt.2 hneg.le))
    rw [tightenBounds, if_neg (not_or.2 ⟨hlen, hneg.ne⟩), if_neg (not_lt.2 hneg.le), hlower, hupper,
      Option.toList_some, Option.toList_none, List.append_nil]
    exact ⟨hl.max _, hu⟩
  · have hlower : lowerOf v e = none := if_pos (.inr (not_lt.2 hzero.ge))
    have hupper : upperOf v e = none := if_pos (.inr (not_lt.2 hzero.le))
    rw [hkeep (.inr hzero), hlower, hupper, Option.toList_none, List.append_nil, List.append_nil]
    exact ⟨hl, hu⟩
  · have hlower : lowerOf v e = none := if_pos (.inr (not_lt.2 hpos.le))
    have hupper : upperOf v e = some (⌈(-e.constant : ℚ) / e.coefficient v⌉ - 1) :=
      if_neg (not_or.2 ⟨hlen, not_not.2 hpos⟩)
    rw [tightenBounds, if_neg (not_or.2 ⟨hlen, hpos.ne'⟩), if_pos hpos, hlower, hupper,
      Option.toList_some, Option.toList_none, List.append_nil]
    exact ⟨hl, hu.min _⟩

lemma foldl_tightenBounds {items : List IntegerExpression} {lowers uppers : List ℤ}
    {bounds : Option ℤ × Option ℤ} (hl : Best (· ≤ ·) lowers bounds.1)
    (hu : Best (· ≥ ·) uppers bounds.2) :
    Best (· ≤ ·) (lowers ++ items.filterMap (lowerOf v)) (items.foldl (tightenBounds v) bounds).1 ∧
      Best (· ≥ ·) (uppers ++ items.filterMap (upperOf v))
        (items.foldl (tightenBounds v) bounds).2 := by
  induction items generalizing lowers uppers bounds with
  | nil =>
    rw [List.filterMap_nil, List.filterMap_nil, List.append_nil, List.append_nil]
    exact ⟨hl, hu⟩
  | cons e rest ih =>
    have hcons : ∀ f : IntegerExpression → Option ℤ,
        (e :: rest).filterMap f = (f e).toList ++ rest.filterMap f := fun f => by
      rw [List.filterMap_cons]
      cases f e <;> rfl
    rw [hcons, hcons, ← List.append_assoc, ← List.append_assoc]
    obtain ⟨hl', hu'⟩ := tightenBounds_best hl hu e
    exact ih hl' hu'

/-- The interval of a variable is set by the strongest bounds. -/
structure Interval (p : IntegerProblem) (v : ℕ) (lower upper : ℤ) : Prop where
  lower_mem : ∃ e ∈ p.inequalities, lowerOf v e = some lower
  le_lower : ∀ e ∈ p.inequalities, ∀ l, lowerOf v e = some l → l ≤ lower
  upper_mem : ∃ e ∈ p.inequalities, upperOf v e = some upper
  upper_le : ∀ e ∈ p.inequalities, ∀ u, upperOf v e = some u → upper ≤ u

lemma best_tightenBounds (v : ℕ) (items : List IntegerExpression) :
    Best (· ≤ ·) (items.filterMap (lowerOf v)) (items.foldl (tightenBounds v) (none, none)).1 ∧
      Best (· ≥ ·) (items.filterMap (upperOf v))
        (items.foldl (tightenBounds v) (none, none)).2 := by
  show Best (· ≤ ·) ([] ++ items.filterMap (lowerOf v)) _ ∧
    Best (· ≥ ·) ([] ++ items.filterMap (upperOf v)) _
  exact foldl_tightenBounds rfl rfl

lemma constantBounds_some {lower upper : ℤ} (h : p.constantBounds v = some (lower, upper)) :
    Interval p v lower upper := by
  obtain ⟨hl, hu⟩ := best_tightenBounds v p.inequalities
  unfold constantBounds at h
  split at h
  · next l u heq =>
    obtain ⟨rfl, rfl⟩ := Prod.mk.inj (Option.some.inj h)
    rw [heq] at hl hu
    exact ⟨List.mem_filterMap.1 hl.1, fun e he l hel => hl.2 l (List.mem_filterMap.2 ⟨e, he, hel⟩),
      List.mem_filterMap.1 hu.1, fun e he u heu => hu.2 u (List.mem_filterMap.2 ⟨e, he, heu⟩)⟩
  · cases h

lemma exists_constantBounds (hl : ∃ e ∈ p.inequalities, ∃ l, lowerOf v e = some l)
    (hu : ∃ e ∈ p.inequalities, ∃ u, upperOf v e = some u) :
    ∃ lower upper, p.constantBounds v = some (lower, upper) := by
  obtain ⟨hbest, hbest'⟩ := best_tightenBounds v p.inequalities
  unfold constantBounds
  generalize p.inequalities.foldl (tightenBounds v) (none, none) = bounds at hbest hbest'
  obtain ⟨l | l, u | u⟩ := bounds
  · obtain ⟨e, he, l, hel⟩ := hl
    exact absurd (List.mem_filterMap.2 ⟨e, he, hel⟩) (hbest ▸ List.not_mem_nil)
  · obtain ⟨e, he, l, hel⟩ := hl
    exact absurd (List.mem_filterMap.2 ⟨e, he, hel⟩) (hbest ▸ List.not_mem_nil)
  · obtain ⟨e, he, u, heu⟩ := hu
    exact absurd (List.mem_filterMap.2 ⟨e, he, heu⟩) (hbest' ▸ List.not_mem_nil)
  · exact ⟨l, u, rfl⟩

lemma coefficients_of_length {e : IntegerExpression} (hlen : ¬e.coefficients.length ≠ 1)
    (hne : e.coefficient v ≠ 0) : e.coefficients = [(v, e.coefficient v)] := by
  obtain ⟨⟨w, a⟩, hw⟩ := List.length_eq_one_iff.1 (not_not.1 hlen)
  unfold IntegerExpression.coefficient at hne ⊢
  rw [hw, coefficientOf_cons] at hne ⊢
  split at hne
  · next heq =>
    rw [if_pos heq, heq]
  · exact absurd rfl hne

lemma lowerOf_some {e : IntegerExpression} {l : ℤ} (h : lowerOf v e = some l) :
    ∃ a < 0, e.coefficients = [(v, a)] ∧ l = ⌊(-e.constant : ℚ) / a⌋ + 1 := by
  unfold lowerOf at h
  split at h
  · cases h
  · next hcases =>
    obtain ⟨hlen, hneg⟩ := not_or.1 hcases
    exact ⟨_, not_not.1 hneg, coefficients_of_length hlen (not_not.1 hneg).ne,
      (Option.some.inj h).symm⟩

lemma upperOf_some {e : IntegerExpression} {u : ℤ} (h : upperOf v e = some u) :
    ∃ a > 0, e.coefficients = [(v, a)] ∧ u = ⌈(-e.constant : ℚ) / a⌉ - 1 := by
  unfold upperOf at h
  split at h
  · cases h
  · next hcases =>
    obtain ⟨hlen, hpos⟩ := not_or.1 hcases
    exact ⟨_, not_not.1 hpos, coefficients_of_length hlen (not_not.1 hpos).ne',
      (Option.some.inj h).symm⟩

lemma evaluate_single {e : IntegerExpression} {a : ℤ} (h : e.coefficients = [(v, a)]) (x : ℕ → ℤ) :
    e.evaluate x = e.constant + a * x v := by
  rw [IntegerExpression.evaluate, h]
  rfl

/-- Solutions are in the intervals. -/
lemma Interval.mem {lower upper : ℤ} (h : Interval p v lower upper) (hx : p.Holds x) :
    lower ≤ x v ∧ x v ≤ upper := by
  obtain ⟨e, he, hl⟩ := h.lower_mem
  obtain ⟨e', he', hu⟩ := h.upper_mem
  obtain ⟨a, ha, hcoefficients, rfl⟩ := lowerOf_some hl
  obtain ⟨b, hb, hcoefficients', rfl⟩ := upperOf_some hu
  have hlt := hx.1 e he
  have hlt' := hx.1 e' he'
  rw [evaluate_single hcoefficients] at hlt
  rw [evaluate_single hcoefficients'] at hlt'
  constructor
  · rw [Int.add_one_le_iff, Int.floor_lt, div_lt_iff_of_neg (by exact_mod_cast ha)]
    have : (e.constant : ℚ) + a * x v < 0 := by exact_mod_cast hlt
    linarith
  · rw [Int.le_sub_one_iff, Int.lt_ceil, lt_div_iff₀ (by exact_mod_cast hb)]
    have : (e'.constant : ℚ) + b * x v < 0 := by exact_mod_cast hlt'
    linarith

/-- The coefficient of a tight inequality in one variable is a unit. -/
lemma Tight.unit {e : IntegerExpression} {a : ℤ} (h : Tight e)
    (hcoefficients : e.coefficients = [(v, a)])
    (ha : a ≠ 0) : |a| = 1 := by
  have htight := congrArg IntegerExpression.coefficients h.2
  unfold tighten at htight
  have hgcd : e.coefficients.foldl (fun result entry => integerGcd result entry.2) 0 = |a| := by
    rw [hcoefficients]
    simp [integerGcd]
  dsimp only at htight
  rw [hgcd] at htight
  have hpos := abs_pos.2 ha
  split at htight
  · rw [hcoefficients] at htight
    simp only [List.map_cons, List.map_nil, List.cons.injEq, Prod.mk.injEq, true_and,
      and_true] at htight
    have hmul := Int.tdiv_mul_cancel (abs_dvd_self a)
    rw [htight] at hmul
    exact mul_left_cancel₀ ha (hmul.trans (mul_one a).symm)
  · omega

end IntegerProblem

end Satrap.Smt
