/-
# Exact real arithmetic

Fourier–Motzkin elimination decides conjunctions of strict and non-strict linear constraints over
the rationals.  A variable is eliminated by combining each of its upper bounds with each of its
lower bounds; what remains is satisfied exactly when all of these bounds are compatible, so that
the reconstruction always finds room for a value.
-/
import Mathlib.Data.List.Dedup
import Satrap.Logic.Bounds
import Satrap.Smt.Arithmetic

namespace Satrap.Smt

open Logic

variable {c d u l : LinearConstraint} {constraints : List LinearConstraint} {x y : ℕ → ℚ} {v : ℕ}

/-! ### Constraints and their bounds -/

namespace LinearConstraint

/-- The values satisfy the constraint. -/
def Holds (c : LinearConstraint) (x : ℕ → ℚ) : Prop := c.admits (c.expression.evaluate x) = true

/-- The coefficient of a variable. -/
def coefficient (c : LinearConstraint) (v : ℕ) : ℚ := coefficientOf c.expression.coefficients v

/-- What remains of the expression without the variable. -/
def remainder (c : LinearConstraint) (v : ℕ) (x : ℕ → ℚ) : ℚ :=
  c.expression.constant + weightedSum x (removeEntry v c.expression.coefficients)

lemma holds_iff : c.Holds x ↔
    if c.strict then c.expression.evaluate x < 0 else c.expression.evaluate x ≤ 0 := by
  rw [Holds, admits]
  split <;> simp

lemma evaluate_eq (h : c.expression.Canonical) :
    c.expression.evaluate x = c.coefficient v * x v + c.remainder v x := by
  rw [LinearExpression.evaluate_eq, remainder, weightedSum_removeEntry h.ordered, coefficient]
  ring

lemma remainder_congr (h : ∀ w, w ≠ v → x w = y w) : c.remainder v x = c.remainder v y := by
  rw [remainder, remainder, weightedSum_congr fun entry he => h entry.1 ?_]
  simpa using (List.mem_filter.1 he).2

lemma boundOf_eq : boundOf v x c = -c.remainder v x / c.coefficient v := by
  rw [boundOf, foldl_weightedSum]
  rfl

lemma boundOf_congr (h : ∀ w, w ≠ v → x w = y w) : boundOf v x c = boundOf v y c := by
  rw [boundOf_eq, boundOf_eq, remainder_congr h]

/-- A constraint with a positive coefficient is an upper bound of the variable. -/
lemma holds_iff_below (h : c.expression.Canonical) (hv : 0 < c.coefficient v) :
    c.Holds x ↔ Below (boundOf v x c, c.strict) (x v) := by
  rw [holds_iff, boundOf_eq, below_iff hv, ← evaluate_eq h]

/-- A constraint with a negative coefficient is a lower bound of the variable. -/
lemma holds_iff_above (h : c.expression.Canonical) (hv : c.coefficient v < 0) :
    c.Holds x ↔ Above (boundOf v x c, c.strict) (x v) := by
  rw [holds_iff, boundOf_eq, above_iff hv, ← evaluate_eq h]

/-- A constraint without the variable does not depend on it. -/
lemma holds_congr (h : c.expression.Canonical) (hv : c.coefficient v = 0)
    (hxy : ∀ w, w ≠ v → x w = y w) : c.Holds x ↔ c.Holds y := by
  rw [holds_iff, holds_iff, evaluate_eq h (v := v), evaluate_eq h (v := v), hv, zero_mul, zero_mul,
    remainder_congr hxy]

end LinearConstraint

open LinearConstraint

/-! ### Simplification -/

lemma holds_iff_of_constant (h : c.expression.coefficients = []) :
    c.Holds x ↔ c.admits c.expression.constant = true := by
  rw [Holds, LinearExpression.evaluate_eq, h, weightedSum_nil, add_zero]

lemma simplifyConstraintsFrom_none (kept : List LinearConstraint)
    (h : simplifyConstraintsFrom kept constraints = none) (x : ℕ → ℚ) :
    ∃ c ∈ constraints, ¬ c.Holds x := by
  induction constraints generalizing kept with
  | nil => simp [simplifyConstraintsFrom] at h
  | cons c rest ih =>
    have later {kept} (h : simplifyConstraintsFrom kept rest = none) :
        ∃ d ∈ c :: rest, ¬ d.Holds x := by
      obtain ⟨d, hd, hx⟩ := ih kept h
      exact ⟨d, List.mem_cons_of_mem c hd, hx⟩
    rw [simplifyConstraintsFrom] at h
    split at h
    · next hconstant =>
      split at h
      · exact later h
      · next hc => exact ⟨c, List.mem_cons_self, fun hx => hc ((holds_iff_of_constant hconstant).1 hx)⟩
    · split at h <;> exact later h

lemma simplifyConstraintsFrom_some (kept : List LinearConstraint) {simplified : List LinearConstraint}
    (h : simplifyConstraintsFrom kept constraints = some simplified) :
    kept ⊆ simplified ∧
      (∀ c ∈ simplified, c ∈ kept ∨ c ∈ constraints ∧ c.expression.coefficients ≠ []) ∧
      ∀ c ∈ constraints, c ∈ simplified ∨ ∀ x, c.Holds x := by
  induction constraints generalizing kept with
  | nil =>
    cases h
    exact ⟨List.Subset.refl _, fun c hc => .inl hc, by simp⟩
  | cons c rest ih =>
    rw [simplifyConstraintsFrom] at h
    split at h
    · next hconstant =>
      split at h
      · next hc =>
        obtain ⟨hkept, hfrom, hall⟩ := ih kept h
        refine ⟨hkept, fun d hd => (hfrom d hd).imp_right fun hd => ⟨List.mem_cons_of_mem c hd.1, hd.2⟩,
          fun d hd => ?_⟩
        rcases List.mem_cons.1 hd with rfl | hd
        · exact .inr fun x => (holds_iff_of_constant hconstant).2 hc
        · exact hall d hd
      · cases h
    next hvariable =>
    split at h
    · next hmem =>
      obtain ⟨hkept, hfrom, hall⟩ := ih kept h
      refine ⟨hkept, fun d hd => (hfrom d hd).imp_right fun hd => ⟨List.mem_cons_of_mem c hd.1, hd.2⟩,
        fun d hd => ?_⟩
      rcases List.mem_cons.1 hd with rfl | hd
      · exact .inl (hkept hmem)
      · exact hall d hd
    · obtain ⟨hkept, hfrom, hall⟩ := ih (kept ++ [c]) h
      refine ⟨fun d hd => hkept (List.mem_append_left _ hd), fun d hd => ?_, fun d hd => ?_⟩
      · rcases hfrom d hd with hd | hd
        · rcases List.mem_append.1 hd with hd | hd
          · exact .inl hd
          · obtain rfl := List.mem_singleton.1 hd
            exact .inr ⟨List.mem_cons_self, hvariable⟩
        · exact .inr ⟨List.mem_cons_of_mem c hd.1, hd.2⟩
      · rcases List.mem_cons.1 hd with rfl | hd
        · exact .inl (hkept (by simp))
        · exact hall d hd

/-- Simplification keeps the solutions. -/
lemma holds_of_simplifyConstraints {simplified : List LinearConstraint}
    (h : simplifyConstraints constraints = some simplified) :
    (∀ c ∈ simplified, c.Holds x) ↔ ∀ c ∈ constraints, c.Holds x := by
  obtain ⟨-, hfrom, hall⟩ := simplifyConstraintsFrom_some [] h
  constructor
  · intro hx c hc
    rcases hall c hc with hm | hvalid
    · exact hx c hm
    · exact hvalid x
  · intro hx c hc
    rcases hfrom c hc with hc | hc
    · cases hc
    · exact hx c hc.1

/-- What simplification keeps has variables. -/
lemma mem_simplifyConstraints {simplified : List LinearConstraint}
    (h : simplifyConstraints constraints = some simplified) (hc : c ∈ simplified) :
    c ∈ constraints ∧ c.expression.coefficients ≠ [] := by
  obtain ⟨-, hfrom, -⟩ := simplifyConstraintsFrom_some [] h
  rcases hfrom c hc with hc | hc
  · cases hc
  · exact hc

/-! ### Elimination -/

/-- The combination of an upper and a lower bound says that they are compatible. -/
lemma combineBounds_holds (hu : u.expression.Canonical) (hl : l.expression.Canonical)
    (hpos : 0 < u.coefficient v) (hneg : l.coefficient v < 0) :
    (combineBounds v u l).Holds x ↔
      Compatible (boundOf v x l, l.strict) (boundOf v x u, u.strict) := by
  set combined := (u.expression.scaled (-l.coefficient v)).addScaled l.expression (u.coefficient v)
    with hcombined
  have hcanonical : combined.Canonical := (hu.scaled _).addScaled _ _
  have hzero : coefficientOf combined.coefficients v = 0 := by
    rw [coefficientOf_eq hcanonical.ordered, hcombined,
      LinearExpression.weightedSum_addScaled (hu.scaled _), LinearExpression.weightedSum_scaled,
      ← coefficientOf_eq hu.ordered, ← coefficientOf_eq hl.ordered]
    exact (by ring : u.coefficient v * -l.coefficient v + l.coefficient v * u.coefficient v = 0)
  have hvalue : (combineBounds v u l).expression.evaluate x =
      u.remainder v x * -l.coefficient v + l.remainder v x * u.coefficient v := by
    have hremoved : (combineBounds v u l).expression.evaluate x = combined.evaluate x := by
      rw [LinearExpression.evaluate_eq, LinearExpression.evaluate_eq]
      refine congrArg (combined.constant + ·) ?_
      rw [← sub_zero (weightedSum x combined.coefficients), ← zero_mul (x v), ← hzero]
      exact weightedSum_removeEntry hcanonical.ordered
    rw [hremoved, hcombined, LinearExpression.evaluate_addScaled (hu.scaled _),
      LinearExpression.evaluate_scaled, evaluate_eq hu (v := v), evaluate_eq hl (v := v)]
    ring
  rw [holds_iff, hvalue, boundOf_eq, boundOf_eq, compatible_iff_combined hpos hneg]
  rfl

/-- The variables of the constraints are among these. -/
def Over (vars : List ℕ) (constraints : List LinearConstraint) : Prop :=
  ∀ c ∈ constraints, ∀ entry ∈ c.expression.coefficients, entry.1 ∈ vars

/-- Every lower bound of the variable is compatible with every upper bound. -/
def Bounded (v : ℕ) (constraints : List LinearConstraint) (x : ℕ → ℚ) : Prop :=
  ∀ u ∈ constraints, ∀ l ∈ constraints, 0 < u.coefficient v → l.coefficient v < 0 →
    Compatible (boundOf v x l, l.strict) (boundOf v x u, u.strict)

lemma mem_eliminateReal : c ∈ eliminateReal v constraints ↔
    c ∈ constraints ∧ c.coefficient v = 0 ∨
      ∃ u ∈ constraints, 0 < u.coefficient v ∧
        ∃ l ∈ constraints, l.coefficient v < 0 ∧ combineBounds v u l = c := by
  simp only [eliminateReal, List.mem_append, List.mem_filter, decide_eq_true_eq, List.mem_flatMap,
    List.mem_map, and_assoc]
  rfl

/-- What is left holds exactly when the constraints without the variable do and its bounds leave
room. -/
lemma eliminateReal_holds (h : ∀ c ∈ constraints, c.expression.Canonical) :
    (∀ c ∈ eliminateReal v constraints, c.Holds x) ↔
      (∀ c ∈ constraints, c.coefficient v = 0 → c.Holds x) ∧ Bounded v constraints x := by
  constructor
  · intro hx
    refine ⟨fun c hc hzero => hx c (mem_eliminateReal.2 (.inl ⟨hc, hzero⟩)),
      fun u hu l hl hpos hneg => ?_⟩
    rw [← combineBounds_holds (h u hu) (h l hl) hpos hneg]
    exact hx _ (mem_eliminateReal.2 (.inr ⟨u, hu, hpos, l, hl, hneg, rfl⟩))
  · rintro ⟨hzero, hroom⟩ c hc
    rcases mem_eliminateReal.1 hc with ⟨hc, h0⟩ | ⟨u, hu, hpos, l, hl, hneg, rfl⟩
    · exact hzero c hc h0
    · exact (combineBounds_holds (h u hu) (h l hl) hpos hneg).2 (hroom u hu l hl hpos hneg)

/-- A solution leaves room for every variable. -/
lemma eliminateReal_of_holds (h : ∀ c ∈ constraints, c.expression.Canonical)
    (hx : ∀ c ∈ constraints, c.Holds x) : ∀ c ∈ eliminateReal v constraints, c.Holds x := by
  refine (eliminateReal_holds h).2 ⟨fun c hc _ => hx c hc, fun u hu l hl hpos hneg => ?_⟩
  exact .of_between ((holds_iff_above (h l hl) hneg).1 (hx l hl))
    ((holds_iff_below (h u hu) hpos).1 (hx u hu))

lemma eliminateReal_canonical (h : ∀ c ∈ constraints, c.expression.Canonical) :
    ∀ c ∈ eliminateReal v constraints, c.expression.Canonical := by
  intro c hc
  rcases mem_eliminateReal.1 hc with ⟨hc, -⟩ | ⟨u, hu, -, l, -, -, rfl⟩
  · exact h c hc
  · have hcombined := ((h u hu).scaled (-l.coefficient v)).addScaled l.expression (u.coefficient v)
    exact ⟨hcombined.ordered.removeEntry, fun entry he =>
      hcombined.nonzero entry (List.mem_of_mem_filter he)⟩

/-- The eliminated variable does not occur in what is left. -/
lemma eliminateReal_over {rest : List ℕ} (h : ∀ c ∈ constraints, c.expression.Canonical)
    (hover : Over (v :: rest) constraints) : Over rest (eliminateReal v constraints) := by
  intro c hc entry he
  rcases mem_eliminateReal.1 hc with ⟨hmem, hzero⟩ | ⟨u, hu, -, l, hl, -, rfl⟩
  · refine (List.mem_cons.1 (hover c hmem entry he)).resolve_left ?_
    rintro rfl
    exact (h c hmem).nonzero entry he
      ((coefficientOf_of_mem (h c hmem).ordered he).symm.trans hzero)
  · obtain ⟨hcombined, hne⟩ := List.mem_filter.1 he
    refine (List.mem_cons.1 ?_).resolve_left (of_decide_eq_true hne)
    rcases LinearExpression.mem_addScaled hcombined with ⟨e, hm, heq⟩ | ⟨e, hm, heq⟩
    · exact heq ▸ hover l hl e hm
    · obtain ⟨e', hm', heq'⟩ := LinearExpression.mem_scaled hm
      exact heq ▸ heq' ▸ hover u hu e' hm'

/-! ### Reconstruction -/

lemma strengthenLower_strongest {current : Option (ℚ × Bool)} {seen : List (ℚ × Bool)}
    (h : Strongest Above current seen) (value : ℚ) (strict : Bool) :
    Strongest Above (strengthenLower current value strict) (seen ++ [(value, strict)]) := by
  rcases current with _ | ⟨best, bestStrict⟩
  · rw [Strongest] at h
    subst h
    exact .first
  simp only [strengthenLower]
  split
  · next hlt => exact h.keep fun x hx => .of_lt (lt_of_lt_of_le hlt hx.le)
  split
  · next heq =>
    subst heq
    cases strict
    · rw [Bool.or_false]
      exact h.keep fun x hx => hx.le
    · rw [Bool.or_true]
      exact h.replace fun x hx => .of_lt hx
  · next hlt heq =>
    have hlt : best < value := lt_of_le_of_ne (not_lt.1 hlt) (Ne.symm heq)
    exact h.replace fun x hx => .of_lt (lt_of_lt_of_le hlt hx.le)

lemma strengthenUpper_strongest {current : Option (ℚ × Bool)} {seen : List (ℚ × Bool)}
    (h : Strongest Below current seen) (value : ℚ) (strict : Bool) :
    Strongest Below (strengthenUpper current value strict) (seen ++ [(value, strict)]) := by
  rcases current with _ | ⟨best, bestStrict⟩
  · rw [Strongest] at h
    subst h
    exact .first
  simp only [strengthenUpper]
  split
  · next hlt => exact h.keep fun x hx => .of_lt (lt_of_le_of_lt hx.le hlt)
  split
  · next heq =>
    subst heq
    cases strict
    · rw [Bool.or_false]
      exact h.keep fun x hx => hx.le
    · rw [Bool.or_true]
      exact h.replace fun x hx => .of_lt hx
  · next hlt heq =>
    have hlt : value < best := lt_of_le_of_ne (not_lt.1 hlt) heq
    exact h.replace fun x hx => .of_lt (lt_of_le_of_lt hx.le hlt)

/-- The strongest bounds of a stage, given the values chosen so far. -/
def EliminationStage.strongest (stage : EliminationStage) (values : ℕ → ℚ) :
    Option (ℚ × Bool) × Option (ℚ × Bool) :=
  stage.bounds.foldl
    (fun p c =>
      if 0 < c.coefficient stage.pivot then
        (p.1, strengthenUpper p.2 (boundOf stage.pivot values c) c.strict)
      else (strengthenLower p.1 (boundOf stage.pivot values c) c.strict, p.2))
    (none, none)

lemma reconstructStage_eq (values : ℕ → ℚ) (stage : EliminationStage) :
    reconstructStage values stage = Function.update values stage.pivot
      (chooseBetween (stage.strongest values).1 (stage.strongest values).2) := rfl

/-- The bounds that the constraints set the variable from below. -/
def lowerBounds (v : ℕ) (values : ℕ → ℚ) (bounds : List LinearConstraint) : List (ℚ × Bool) :=
  (bounds.filter fun c => decide (¬0 < c.coefficient v)).map fun c => (boundOf v values c, c.strict)

/-- The bounds that the constraints set the variable from above. -/
def upperBounds (v : ℕ) (values : ℕ → ℚ) (bounds : List LinearConstraint) : List (ℚ × Bool) :=
  (bounds.filter fun c => decide (0 < c.coefficient v)).map fun c => (boundOf v values c, c.strict)

lemma lowerBounds_cons (bounds : List LinearConstraint) : lowerBounds v x (c :: bounds) =
    if 0 < c.coefficient v then lowerBounds v x bounds
    else (boundOf v x c, c.strict) :: lowerBounds v x bounds := by
  rw [lowerBounds, List.filter_cons]
  by_cases h : 0 < c.coefficient v
  · rw [if_pos h, if_neg (by simpa using h), lowerBounds]
  · rw [if_neg h, if_pos (by simpa using h), lowerBounds, List.map_cons]

lemma upperBounds_cons (bounds : List LinearConstraint) : upperBounds v x (c :: bounds) =
    if 0 < c.coefficient v then (boundOf v x c, c.strict) :: upperBounds v x bounds
    else upperBounds v x bounds := by
  rw [upperBounds, List.filter_cons]
  by_cases h : 0 < c.coefficient v
  · rw [if_pos h, if_pos (by simpa using h), upperBounds, List.map_cons]
  · rw [if_neg h, if_neg (by simpa using h), upperBounds]

/-- The strongest bounds of a stage are among its constraints, and imply all of them. -/
lemma EliminationStage.strongest_spec (stage : EliminationStage) (values : ℕ → ℚ) :
    Strongest Above (stage.strongest values).1 (lowerBounds stage.pivot values stage.bounds) ∧
      Strongest Below (stage.strongest values).2
        (upperBounds stage.pivot values stage.bounds) := by
  have hrun : ∀ (bounds : List LinearConstraint) (p : Option (ℚ × Bool) × Option (ℚ × Bool))
      (lowers uppers : List (ℚ × Bool)), Strongest Above p.1 lowers → Strongest Below p.2 uppers →
      let q := bounds.foldl (fun p c =>
        if 0 < c.coefficient stage.pivot then
          (p.1, strengthenUpper p.2 (boundOf stage.pivot values c) c.strict)
        else (strengthenLower p.1 (boundOf stage.pivot values c) c.strict, p.2)) p
      Strongest Above q.1 (lowers ++ lowerBounds stage.pivot values bounds) ∧
        Strongest Below q.2 (uppers ++ upperBounds stage.pivot values bounds) := by
    intro bounds
    induction bounds with
    | nil =>
      intro p lowers uppers hl hu
      simpa [lowerBounds, upperBounds] using ⟨hl, hu⟩
    | cons c rest ih =>
      intro p lowers uppers hl hu
      rw [lowerBounds_cons, upperBounds_cons, List.foldl_cons]
      split
      · have hu := strengthenUpper_strongest hu (boundOf stage.pivot values c) c.strict
        have h := ih (p.1, strengthenUpper p.2 _ _) lowers _ hl hu
        rwa [List.append_cons]
      · have hl := strengthenLower_strongest hl (boundOf stage.pivot values c) c.strict
        have h := ih (strengthenLower p.1 _ _, p.2) _ uppers hl hu
        rwa [List.append_cons]
  exact hrun stage.bounds (none, none) [] [] rfl rfl

/-- `choose_between` meets compatible bounds. -/
lemma chooseBetween_meets {lower upper : Option (ℚ × Bool)}
    (h : ∀ l u, lower = some l → upper = some u → Compatible l u) :
    (∀ l, lower = some l → Above l (chooseBetween lower upper)) ∧
      ∀ u, upper = some u → Below u (chooseBetween lower upper) := by
  rcases lower with _ | ⟨l, ls⟩ <;> rcases upper with _ | ⟨u, us⟩
  · simp
  · refine ⟨by simp, ?_⟩
    rintro _ ⟨⟩
    cases us <;> simp [Below, chooseBetween]
  · refine ⟨?_, by simp⟩
    rintro _ ⟨⟩
    cases ls <;> simp [Above, chooseBetween]
  · obtain ⟨hl, hu⟩ := (h (l, ls) (u, us) rfl rfl).middle
    exact ⟨fun _ heq => by cases heq; exact hl, fun _ heq => by cases heq; exact hu⟩

/-- The stage of a variable with its bounds among the constraints. -/
def stageOf (v : ℕ) (constraints : List LinearConstraint) : EliminationStage :=
  ⟨v, constraints.filter fun c => decide (coefficientOf c.expression.coefficients v ≠ 0)⟩

section

variable {values : ℕ → ℚ} {b : ℚ × Bool}

lemma mem_lowerBounds : b ∈ lowerBounds v values (stageOf v constraints).bounds ↔
    ∃ c ∈ constraints, c.coefficient v < 0 ∧ (boundOf v values c, c.strict) = b := by
  have hsplit (q : ℚ) : ¬0 < q ∧ q ≠ 0 ↔ q < 0 :=
    ⟨fun h => lt_of_le_of_ne (not_lt.1 h.1) h.2, fun h => ⟨h.not_gt, h.ne⟩⟩
  simp only [lowerBounds, stageOf, List.mem_map, List.mem_filter, decide_eq_true_eq, and_assoc]
  exact exists_congr fun c => and_congr_right fun _ => by
    rw [← and_assoc, ← hsplit, and_comm (b := c.coefficient v ≠ 0)]
    rfl

lemma mem_upperBounds : b ∈ upperBounds v values (stageOf v constraints).bounds ↔
    ∃ c ∈ constraints, 0 < c.coefficient v ∧ (boundOf v values c, c.strict) = b := by
  simp only [upperBounds, stageOf, List.mem_map, List.mem_filter, decide_eq_true_eq, and_assoc]
  exact exists_congr fun c => and_congr_right fun _ =>
    ⟨fun h => h.2, fun h => ⟨h.1.ne', h⟩⟩

/-- Where every pair of bounds is compatible, the strongest ones are. -/
lemma stageOf_compatible (h : Bounded v constraints values) :
    ∀ lower upper, ((stageOf v constraints).strongest values).1 = some lower →
      ((stageOf v constraints).strongest values).2 = some upper → Compatible lower upper := by
  intro lower upper hlower hupper
  obtain ⟨hl, hu⟩ := (stageOf v constraints).strongest_spec values
  rw [hlower] at hl
  rw [hupper] at hu
  obtain ⟨l, hmeml, hneg, rfl⟩ := mem_lowerBounds.1 hl.1
  obtain ⟨u, hmemu, hpos, rfl⟩ := mem_upperBounds.1 hu.1
  exact h u hmemu l hmeml hpos hneg

/-- The value chosen for a variable meets its bounds and leaves the other constraints alone. -/
lemma reconstructStage_holds (h : ∀ c ∈ constraints, c.expression.Canonical)
    (hzero : ∀ c ∈ constraints, c.coefficient v = 0 → c.Holds values)
    (hroom : Bounded v constraints values) :
    ∀ c ∈ constraints, c.Holds (reconstructStage values (stageOf v constraints)) := by
  intro c hc
  obtain ⟨hl, hu⟩ := (stageOf v constraints).strongest_spec values
  obtain ⟨hlower, hupper⟩ := chooseBetween_meets (stageOf_compatible hroom)
  rw [reconstructStage_eq]
  set value := chooseBetween ((stageOf v constraints).strongest values).1
    ((stageOf v constraints).strongest values).2
  change c.Holds (Function.update values v value)
  have hsame : ∀ w, w ≠ v → Function.update values v value w = values w := fun w hw =>
    Function.update_of_ne hw _ _
  rcases lt_trichotomy (c.coefficient v) 0 with hneg | heq | hpos
  · rw [holds_iff_above (h c hc) hneg, boundOf_congr hsame, Function.update_self]
    exact hl.meets_all hlower _ (mem_lowerBounds.2 ⟨c, hc, hneg, rfl⟩)
  · exact (holds_congr (h c hc) heq hsame).2 (hzero c hc heq)
  · rw [holds_iff_below (h c hc) hpos, boundOf_congr hsame, Function.update_self]
    exact hu.meets_all hupper _ (mem_upperBounds.2 ⟨c, hc, hpos, rfl⟩)

end

/-! ### The elimination loop -/

/-- The values of the stages, of which the last one is reconstructed first. -/
def reconstruct (stages : List EliminationStage) : ℕ → ℚ :=
  stages.reverse.foldl reconstructStage fun _ => 0

/-- The bounds of a stage leave room for a value. -/
def EliminationStage.Roomy (stage : EliminationStage) (values : ℕ → ℚ) : Prop :=
  ∀ lower upper, stage.strongest values = (some lower, some upper) → Compatible lower upper

lemma realStages_none {vars : List ℕ} (h : ∀ c ∈ constraints, c.expression.Canonical)
    (hstages : realStages vars constraints = none) : ¬∀ c ∈ constraints, c.Holds x := by
  intro hx
  induction vars generalizing constraints with
  | nil => cases hstages
  | cons v rest ih =>
    have hleft := eliminateReal_of_holds (v := v) h hx
    rw [realStages] at hstages
    split at hstages
    · next hnone =>
      obtain ⟨c, hc, hfails⟩ := simplifyConstraintsFrom_none [] hnone x
      exact hfails (hleft c hc)
    · next simplified hsome =>
      refine ih (fun c hc => eliminateReal_canonical h c (mem_simplifyConstraints hsome hc).1) ?_
        ((holds_of_simplifyConstraints hsome).2 hleft)
      simpa using hstages

/-- The reconstruction satisfies the constraints, and finds room at every stage. -/
lemma realStages_some {vars : List ℕ} {stages : List EliminationStage}
    (h : ∀ c ∈ constraints, c.expression.Canonical) (hover : Over vars constraints)
    (hvars : ∀ c ∈ constraints, c.expression.coefficients ≠ [])
    (hstages : realStages vars constraints = some stages) :
    (∀ c ∈ constraints, c.Holds (reconstruct stages)) ∧
      ∀ before stage after, stages = before ++ stage :: after → stage.Roomy (reconstruct after) := by
  induction vars generalizing constraints stages with
  | nil =>
    cases hstages
    refine ⟨fun c hc => ?_, by simp⟩
    obtain ⟨entry, he⟩ := List.exists_mem_of_ne_nil _ (hvars c hc)
    cases hover c hc entry he
  | cons v rest ih =>
    rw [realStages] at hstages
    split at hstages
    · cases hstages
    next simplified hsome =>
    obtain ⟨later, hlater, rfl⟩ := Option.map_eq_some_iff.1 hstages
    obtain ⟨hholds, hroomy⟩ := ih
      (fun c hc => eliminateReal_canonical h c (mem_simplifyConstraints hsome hc).1)
      (fun c hc => eliminateReal_over h hover c (mem_simplifyConstraints hsome hc).1)
      (fun c hc => (mem_simplifyConstraints hsome hc).2) hlater
    obtain ⟨hzero, hroom⟩ :=
      (eliminateReal_holds h).1 ((holds_of_simplifyConstraints hsome).1 hholds)
    constructor
    · have hstep : reconstruct (stageOf v constraints :: later) =
          reconstructStage (reconstruct later) (stageOf v constraints) := by
        simp [reconstruct]
      exact hstep ▸ reconstructStage_holds h hzero hroom
    · intro before stage after heq
      rcases before with _ | ⟨first, before⟩
      · obtain ⟨rfl, rfl⟩ := List.cons.inj heq
        intro lower upper hbounds
        exact stageOf_compatible hroom lower upper (congrArg Prod.fst hbounds)
          (congrArg Prod.snd hbounds)
      · exact hroomy before stage after (List.cons.inj heq).2

/-- The stages of `solve_real_linear`, when it does not refute the constraints. -/
def eliminationStages (constraints : List LinearConstraint) : Option (List EliminationStage) :=
  (simplifyConstraints constraints).bind fun simplified =>
    realStages (sortedKeys (simplified.map fun c => c.expression.coefficients)) simplified

lemma solveRealLinear_eq : solveRealLinear constraints =
    match eliminationStages constraints with
    | none => .unsat
    | some stages => .sat ⟨reconstruct stages⟩ := by
  rw [solveRealLinear, eliminationStages]
  cases simplifyConstraints constraints <;> rfl

lemma over_sortedKeys : Over (sortedKeys (constraints.map fun c => c.expression.coefficients))
    constraints := by
  intro c hc entry he
  refine (List.mem_insertionSort _).2 (List.mem_dedup.2 (List.mem_flatMap.2 ?_))
  exact ⟨_, List.mem_map_of_mem hc, List.mem_map_of_mem he⟩

/-- The solver of real arithmetic is exact: it finds values for all satisfiable constraints and
refutes all others, and whenever it reconstructs the value of a variable, the bounds between which
it chooses leave room for one. -/
theorem solveRealLinear_exact (constraints : List LinearConstraint)
    (h : ∀ c ∈ constraints, c.expression.Canonical) :
    ((∃ model, solveRealLinear constraints = .sat model ∧
        ∀ c ∈ constraints, c.Holds model.values) ↔ ∃ x, ∀ c ∈ constraints, c.Holds x) ∧
      ((¬∃ x, ∀ c ∈ constraints, c.Holds x) → solveRealLinear constraints = .unsat) ∧
      ∀ stages, eliminationStages constraints = some stages →
        ∀ done stage left, stages.reverse = done ++ stage :: left →
          stage.Roomy (done.foldl reconstructStage fun _ => 0) := by
  have hsat : ∀ stages, eliminationStages constraints = some stages →
      (∀ c ∈ constraints, c.Holds (reconstruct stages)) ∧ ∀ before stage after,
        stages = before ++ stage :: after → stage.Roomy (reconstruct after) := by
    intro stages hstages
    obtain ⟨simplified, hsimplified, hstages⟩ := Option.bind_eq_some_iff.1 hstages
    obtain ⟨hholds, hroomy⟩ := realStages_some
      (fun c hc => h c (mem_simplifyConstraints hsimplified hc).1) over_sortedKeys
      (fun c hc => (mem_simplifyConstraints hsimplified hc).2) hstages
    exact ⟨(holds_of_simplifyConstraints hsimplified).1 hholds, hroomy⟩
  have hunsat : eliminationStages constraints = none → ∀ x, ¬∀ c ∈ constraints, c.Holds x := by
    intro hnone x hx
    cases hsimplified : simplifyConstraints constraints with
    | none =>
      obtain ⟨c, hc, hfails⟩ := simplifyConstraintsFrom_none [] hsimplified x
      exact hfails (hx c hc)
    | some simplified =>
      exact realStages_none (fun c hc => h c (mem_simplifyConstraints hsimplified hc).1)
        (Option.bind_eq_none_iff.1 hnone simplified hsimplified)
        ((holds_of_simplifyConstraints hsimplified).2 hx)
  rw [solveRealLinear_eq]
  refine ⟨⟨fun ⟨model, _, hmodel⟩ => ⟨model.values, hmodel⟩, fun ⟨x, hx⟩ => ?_⟩, fun hnone => ?_,
    fun stages hstages done stage left hsplit => ?_⟩
  · cases hstages : eliminationStages constraints with
    | none => exact absurd hx (hunsat hstages x)
    | some stages => exact ⟨_, rfl, (hsat stages hstages).1⟩
  · cases hstages : eliminationStages constraints with
    | none => rfl
    | some stages => exact absurd ⟨_, (hsat stages hstages).1⟩ hnone
  · have hstages' : stages = left.reverse ++ stage :: done.reverse := by
      rw [← List.reverse_reverse stages, hsplit]
      simp
    simpa [reconstruct] using (hsat stages hstages).2 _ _ _ hstages'

/-- Two variables in an open square, one above the other. -/
theorem solveRealLinear_exact_square :
    ∃ model, solveRealLinear
        [⟨⟨0, [(0, -1)]⟩, true, .real⟩, ⟨⟨-1, [(1, 1)]⟩, true, .real⟩,
          ⟨⟨0, [(0, 1), (1, -1)]⟩, false, .real⟩] = .sat model ∧
      ∀ c ∈ ([⟨⟨0, [(0, -1)]⟩, true, .real⟩, ⟨⟨-1, [(1, 1)]⟩, true, .real⟩,
          ⟨⟨0, [(0, 1), (1, -1)]⟩, false, .real⟩] : List LinearConstraint), c.Holds model.values := by
  refine (solveRealLinear_exact _ ?_).1.2 ⟨fun _ => 1 / 2, ?_⟩
  · intro c hc
    simp only [List.mem_cons, List.not_mem_nil, or_false] at hc
    rcases hc with rfl | rfl | rfl <;> exact ⟨by simp [Ordered], by simp⟩
  · intro c hc
    simp only [List.mem_cons, List.not_mem_nil, or_false] at hc
    rcases hc with rfl | rfl | rfl <;> norm_num [holds_iff, LinearExpression.evaluate]

end Satrap.Smt
