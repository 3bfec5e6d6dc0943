/-
# The search over the integers

`solve_integer_problem` finds values that solve a problem, or there are none.  Each of its ways to
go on leads to smaller problems: enumeration and Cooper's elimination take a variable away, and a
branch cuts the interval of a variable.
-/
import Mathlib.Algebra.Order.BigOperators.Group.List
import Satrap.Smt.IntegerProblems

namespace Satrap.Smt

open Logic

variable {x : ℕ → ℤ} {v : ℕ} {vars : List ℕ}

namespace IntegerProblem

variable {p q : IntegerProblem}

/-! ### The relaxation -/

lemma evaluate_asLinear (e : IntegerExpression) (x : ℕ → ℤ) :
    e.asLinear.evaluate (fun v => (x v : ℚ)) = e.evaluate x := by
  have hfold : ∀ (entries : List (ℕ × ℤ)) (start : ℤ),
      (entries.map fun entry => (entry.1, (entry.2 : ℚ))).foldl
        (fun sum entry => sum + entry.2 * (x entry.1 : ℚ)) (start : ℚ) =
      ((entries.foldl (fun sum entry => sum + entry.2 * x entry.1) start : ℤ) : ℚ) := by
    intro entries
    induction entries with
    | nil => exact fun _ => rfl
    | cons entry rest ih =>
      intro start
      rw [List.map_cons, List.foldl_cons, List.foldl_cons, ← ih]
      push_cast
      rfl
  exact hfold e.coefficients e.constant

lemma relaxation_holds {y : ℕ → ℚ} :
    (∀ c ∈ relaxation p, c.Holds y) ↔ ∀ e ∈ p.inequalities, e.asLinear.evaluate y + 1 ≤ 0 := by
  unfold relaxation
  rw [List.forall_mem_map]
  refine forall₂_congr fun e _ => ?_
  rw [LinearConstraint.holds_iff, if_neg Bool.false_ne_true, LinearExpression.evaluate_eq,
    LinearExpression.evaluate_eq]
  dsimp only
  rw [add_right_comm]

lemma relaxation_of_holds (h : p.Holds x) : ∀ c ∈ relaxation p, c.Holds fun v => (x v : ℚ) := by
  rw [relaxation_holds]
  intro e he
  rw [evaluate_asLinear]
  exact_mod_cast h.1 e he

lemma relaxation_canonical (h : p.toProof.Every ProofIntegerExpression.Canonical) :
    ∀ c ∈ relaxation p, c.expression.Canonical := by
  unfold relaxation
  rw [List.forall_mem_map]
  intro e he
  have hcanonical := h.1 _ (List.mem_map_of_mem he)
  refine ⟨List.pairwise_map.2 hcanonical.ordered, fun entry hentry => ?_⟩
  obtain ⟨entry', hentry', rfl⟩ := List.mem_map.1 hentry
  exact Int.cast_ne_zero.2 (hcanonical.nonzero entry' hentry')

section

variable {constraints : List LinearConstraint} {model : ArithmeticModel}

lemma holds_of_solveRealLinear (h : ∀ c ∈ constraints, c.expression.Canonical)
    (hsat : solveRealLinear constraints = .sat model) :
    ∀ c ∈ constraints, c.Holds model.values := by
  rw [solveRealLinear_eq] at hsat
  split at hsat
  · cases hsat
  next stages hstages =>
  cases hsat
  obtain ⟨simplified, hsimplified, hreal⟩ := Option.bind_eq_some_iff.1 hstages
  refine (holds_of_simplifyConstraints hsimplified).1 (realStages_some (fun c hc => ?_)
    over_sortedKeys (fun c hc => ?_) hreal).1
  · exact h c (mem_simplifyConstraints hsimplified hc).1
  · exact (mem_simplifyConstraints hsimplified hc).2

lemma not_holds_of_solveRealLinear (h : ∀ c ∈ constraints, c.expression.Canonical)
    (hsat : ∀ model, solveRealLinear constraints ≠ .sat model) (y : ℕ → ℚ) :
    ¬∀ c ∈ constraints, c.Holds y := by
  intro hy
  rw [solveRealLinear_eq] at hsat
  split at hsat
  · next hnone =>
    cases hsimplified : simplifyConstraints constraints with
    | none =>
      obtain ⟨c, hc, hfails⟩ := simplifyConstraintsFrom_none [] hsimplified y
      exact hfails (hy c hc)
    | some simplified =>
      refine realStages_none (fun c hc => ?_)
        (Option.bind_eq_none_iff.1 hnone simplified hsimplified)
        ((holds_of_simplifyConstraints hsimplified).2 hy)
      exact h c (mem_simplifyConstraints hsimplified hc).1
  · exact hsat _ rfl

lemma reconstruct_of_notMem {stages : List EliminationStage} {v : ℕ}
    (h : ∀ stage ∈ stages, stage.pivot ≠ v) : reconstruct stages v = 0 := by
  induction stages with
  | nil => rfl
  | cons stage rest ih =>
    rw [List.forall_mem_cons] at h
    rw [reconstruct, List.reverse_cons, List.foldl_append, List.foldl_cons, List.foldl_nil,
      reconstructStage_eq, Function.update_of_ne h.1.symm]
    exact ih h.2

lemma pivots_realStages {vars : List ℕ} {constraints : List LinearConstraint}
    {stages : List EliminationStage} (h : realStages vars constraints = some stages) :
    ∀ stage ∈ stages, stage.pivot ∈ vars := by
  induction vars generalizing constraints stages with
  | nil =>
    obtain rfl := Option.some.inj h
    exact fun _ hm => absurd hm List.not_mem_nil
  | cons v rest ih =>
    unfold realStages at h
    split at h
    · cases h
    · obtain ⟨stages', hstages, rfl⟩ := Option.map_eq_some_iff.1 h
      refine List.forall_mem_cons.2 ⟨List.mem_cons_self, fun stage hm => ?_⟩
      exact List.mem_cons_of_mem _ (ih hstages stage hm)

/-- A variable without constraints gets the value zero. -/
lemma values_eq_zero (hsat : solveRealLinear constraints = .sat model) {v : ℕ}
    (hv : ∀ c ∈ constraints, ∀ entry ∈ c.expression.coefficients, entry.1 ≠ v) :
    model.values v = 0 := by
  rw [solveRealLinear_eq] at hsat
  split at hsat
  · cases hsat
  next stages hstages =>
  cases hsat
  obtain ⟨simplified, hsimplified, hreal⟩ := Option.bind_eq_some_iff.1 hstages
  refine reconstruct_of_notMem fun stage hm heq => ?_
  have hpivot := pivots_realStages hreal stage hm
  rw [sortedKeys, List.mem_insertionSort, List.mem_dedup, List.mem_flatMap] at hpivot
  obtain ⟨entries, hentries, hpivot⟩ := hpivot
  obtain ⟨c, hc, rfl⟩ := List.mem_map.1 hentries
  obtain ⟨entry, hentry, hentryv⟩ := List.mem_map.1 hpivot
  exact hv c (mem_simplifyConstraints hsimplified hc).1 entry hentry (hentryv.trans heq)

end

/-! ### Branches -/

lemma dvd_foldl_gcd_iff {entries : List (ℕ × ℤ)} {start d : ℤ} :
    d ∣ entries.foldl (fun result entry => integerGcd result entry.2) start ↔
      d ∣ start ∧ ∀ entry ∈ entries, d ∣ entry.2 := by
  induction entries generalizing start with
  | nil => simp
  | cons entry rest ih =>
    rw [List.foldl_cons, ih, List.forall_mem_cons, integerGcd, Int.dvd_coe_gcd_iff, and_assoc]

/-- What has been divided by the common divisor has no other. -/
lemma tighten_tighten (e : IntegerExpression) : tighten (tighten e) = tighten e := by
  by_cases hlt : 1 < e.coefficients.foldl (fun result entry => integerGcd result entry.2) 0
  · generalize hg : e.coefficients.foldl (fun result entry => integerGcd result entry.2) 0
      = g at hlt
    have htighten : (tighten e).coefficients =
        e.coefficients.map fun entry => (entry.1, entry.2.tdiv g) := by
      rw [tighten, hg, if_pos hlt]
    have hdvd : ∀ entry ∈ e.coefficients, g ∣ entry.2 := (dvd_foldl_gcd_iff.1 hg.symm.dvd).2
    generalize hh : (tighten e).coefficients.foldl
      (fun result entry => integerGcd result entry.2) 0 = h
    have hone : h ∣ 1 := by
      refine Int.dvd_of_mul_dvd_mul_right (show g ≠ 0 by omega) ?_
      rw [one_mul]
      refine Dvd.dvd.trans (dvd_foldl_gcd_iff.2 ⟨dvd_zero _, fun entry hentry => ?_⟩) hg.dvd
      have hmem : (entry.1, entry.2.tdiv g) ∈ (tighten e).coefficients := by
        rw [htighten]
        exact List.mem_map_of_mem hentry
      have := mul_dvd_mul_right ((dvd_foldl_gcd_iff.1 hh.symm.dvd).2 _ hmem) g
      rwa [Int.tdiv_mul_cancel (hdvd entry hentry)] at this
    rw [tighten, hh, if_neg (by have := Int.le_of_dvd one_pos hone; omega)]
  · have htighten : tighten e = e := if_neg hlt
    rw [htighten, htighten]

lemma tight_unit (constant : ℤ) {a : ℤ} (ha : |a| = 1) : Tight ⟨constant, [(v, a)]⟩ := by
  refine ⟨List.cons_ne_nil _ _, if_neg ?_⟩
  simp [integerGcd, ha]

lemma Simplified.tight (h : Simplified p q vars) : ∀ e ∈ q.inequalities, Tight e := by
  intro e he
  obtain ⟨hne, e', -, rfl⟩ := (h.inequalities e).1 he
  exact ⟨hne, tighten_tighten e'⟩

/-- A simplified problem with one more tight inequality is simplified already. -/
lemma Simplified.push {b : IntegerExpression} {q' : IntegerProblem}
    (htight : ∀ e ∈ q.inequalities, Tight e) (hb : Tight b) (h : Simplified (q.push b) q' vars)
    (e : IntegerExpression) : e ∈ q'.inequalities ↔ e ∈ q.inequalities ∨ e = b := by
  have hmem : ∀ e', e' ∈ (q.push b).inequalities ↔ e' ∈ q.inequalities ∨ e' = b := fun e' => by
    rw [IntegerProblem.push, List.mem_append, List.mem_singleton]
  have hall : ∀ e' ∈ (q.push b).inequalities, Tight e' := fun e' he' => by
    rcases (hmem e').1 he' with hq | rfl
    · exact htight e' hq
    · exact hb
  rw [h.inequalities, ← hmem]
  refine ⟨?_, fun he => ⟨(hall e he).1, e, he, (hall e he).2⟩⟩
  rintro ⟨-, e', he', rfl⟩
  rwa [(hall e' he').2]

/-- The number of values that the interval of a variable leaves. -/
def width (p : IntegerProblem) (v : ℕ) : ℕ :=
  match p.constantBounds v with
  | some (lower, upper) => (upper + 1 - lower).toNat
  | none => 0

/-- Every variable has an interval, or is not mentioned. -/
def Boxed (p : IntegerProblem) (vars : List ℕ) : Prop :=
  ∀ w ∈ vars, p.mentions w = false ∨ ∃ lower upper, p.constantBounds w = some (lower, upper)

lemma mentions_of_mem {e : IntegerExpression} {entry : ℕ × ℤ} (he : e ∈ p.inequalities)
    (hentry : entry ∈ e.coefficients) : p.mentions entry.1 = true := by
  refine Bool.or_eq_true_iff.2 (.inl (List.any_eq_true.2 ⟨e, he, ?_⟩))
  exact decide_eq_true (List.mem_map_of_mem hentry)

lemma width_of_not_mentions (h : p.mentions v = false) : p.width v = 0 := by
  unfold width
  split
  · next lower upper hbounds =>
    obtain ⟨e, he, hl⟩ := (constantBounds_some hbounds).lower_mem
    obtain ⟨a, -, hcoefficients, -⟩ := lowerOf_some hl
    have hentry : (v, a) ∈ e.coefficients := hcoefficients ▸ List.mem_singleton_self _
    have hmentions : p.mentions v = true := mentions_of_mem he hentry
    rw [h] at hmentions
    cases hmentions
  · rfl

/-- More inequalities make an interval smaller. -/
lemma Interval.shrink {lower upper : ℤ} (h : Interval p v lower upper)
    (hsub : ∀ e ∈ p.inequalities, e ∈ q.inequalities) :
    ∃ lower' upper', q.constantBounds v = some (lower', upper') ∧ Interval q v lower' upper' ∧
      lower ≤ lower' ∧ upper' ≤ upper := by
  obtain ⟨e, he, hl⟩ := h.lower_mem
  obtain ⟨e', he', hu⟩ := h.upper_mem
  obtain ⟨lower', upper', heq⟩ := exists_constantBounds (p := q) (v := v)
    ⟨e, hsub e he, lower, hl⟩ ⟨e', hsub e' he', upper, hu⟩
  have hinterval := constantBounds_some heq
  exact ⟨lower', upper', heq, hinterval, hinterval.le_lower e (hsub e he) lower hl,
    hinterval.upper_le e' (hsub e' he') upper hu⟩

/-- The relaxation stays in the intervals. -/
lemma Interval.mem_relaxation {lower upper : ℤ} {y : ℕ → ℚ} (h : Interval p v lower upper)
    (htight : ∀ e ∈ p.inequalities, Tight e) (hy : ∀ c ∈ relaxation p, c.Holds y) :
    (lower : ℚ) ≤ y v ∧ y v ≤ upper := by
  rw [relaxation_holds] at hy
  have hsingle : ∀ {e : IntegerExpression} {a : ℤ}, e.coefficients = [(v, a)] →
      e.asLinear.evaluate y = e.constant + a * y v := fun hcoefficients => by
    rw [LinearExpression.evaluate_eq, IntegerExpression.asLinear, hcoefficients]
    simp
  obtain ⟨e, he, hl⟩ := h.lower_mem
  obtain ⟨e', he', hu⟩ := h.upper_mem
  obtain ⟨a, ha, hcoefficients, rfl⟩ := lowerOf_some hl
  obtain ⟨b, hb, hcoefficients', rfl⟩ := upperOf_some hu
  have hunit := (htight e he).unit hcoefficients ha.ne
  have hunit' := (htight e' he').unit hcoefficients' hb.ne'
  obtain rfl : a = -1 := by rw [abs_of_neg ha] at hunit; omega
  obtain rfl : b = 1 := by rwa [abs_of_pos hb] at hunit'
  have hlt := hy e he
  have hlt' := hy e' he'
  rw [hsingle hcoefficients] at hlt
  rw [hsingle hcoefficients'] at hlt'
  push_cast at hlt hlt' ⊢
  simp only [div_one, div_neg, neg_neg, Int.floor_intCast, ← Int.cast_neg, Int.ceil_intCast]
  push_cast
  constructor <;> linarith

/-- What a branch on a value adds: a bound that excludes the value. -/
def Cuts (v : ℕ) (value : ℚ) (b : IntegerExpression) : Prop :=
  b = ⟨-⌊value⌋ - 1, [(v, 1)]⟩ ∨ b = ⟨⌈value⌉ - 1, [(v, -1)]⟩

lemma mem_branches {value : ℚ} {branch : IntegerProblem} (h : branch ∈ branches p v value) :
    ∃ b, Cuts v value b ∧ p.push b = branch := by
  rcases List.mem_cons.1 h with rfl | h
  · exact ⟨_, .inl rfl, rfl⟩
  · rw [List.mem_singleton.1 h]
    exact ⟨_, .inr rfl, rfl⟩

lemma Cuts.tight {value : ℚ} {b : IntegerExpression} (h : Cuts v value b) : Tight b := by
  rcases h with rfl | rfl
  · exact tight_unit _ abs_one
  · exact tight_unit _ (by rw [abs_neg, abs_one])

lemma coefficient_single (constant a : ℤ) :
    (⟨constant, [(v, a)]⟩ : IntegerExpression).coefficient v = a := by
  rw [IntegerExpression.coefficient, coefficientOf_cons, if_pos rfl]

/-- A cut leaves fewer values to its variable. -/
lemma width_of_cuts {lower upper : ℤ} {value : ℚ} {b : IntegerExpression}
    (h : p.constantBounds v = some (lower, upper))
    (hmem : ∀ e, e ∈ q.inequalities ↔ e ∈ p.inequalities ∨ e = b)
    (hcuts : Cuts v value b) (hvalue : value.den ≠ 1) (hlower : (lower : ℚ) ≤ value)
    (hupper : value ≤ upper) : q.width v < p.width v := by
  obtain ⟨lower', upper', heq, hinterval, hle, hle'⟩ :=
    (constantBounds_some h).shrink fun e he => (hmem e).2 (.inl he)
  have hfloor : (⌊value⌋ : ℚ) < value := by
    refine lt_of_le_of_ne (Int.floor_le value) fun hinteger => hvalue ?_
    rw [← hinteger]
    exact Rat.den_intCast _
  have hceil : value < (⌈value⌉ : ℚ) := by
    refine lt_of_le_of_ne (Int.le_ceil value) fun hinteger => hvalue ?_
    rw [hinteger]
    exact Rat.den_intCast _
  have hlow : lower ≤ ⌊value⌋ := Int.le_floor.2 hlower
  have hhigh : ⌈value⌉ ≤ upper := Int.ceil_le.2 hupper
  have hlow' : ⌊value⌋ < upper := by exact_mod_cast hfloor.trans_le hupper
  have hhigh' : lower < ⌈value⌉ := by exact_mod_cast hlower.trans_lt hceil
  have hb : b ∈ q.inequalities := (hmem b).2 (.inr rfl)
  have hwidth : q.width v = (upper' + 1 - lower').toNat := by rw [width, heq]
  have hwidth' : p.width v = (upper + 1 - lower).toNat := by rw [width, h]
  rw [hwidth, hwidth']
  rcases hcuts with rfl | rfl
  · have hbound := hinterval.upper_le _ hb ⌊value⌋ (by
      rw [upperOf, coefficient_single, if_neg (by simp)]
      push_cast
      simp only [neg_sub, div_one, sub_neg_eq_add, Option.some_inj]
      rw [add_comm, Int.ceil_add_one, Int.ceil_intCast, add_sub_cancel_right])
    omega
  · have hbound := hinterval.le_lower _ hb ⌈value⌉ (by
      rw [lowerOf, coefficient_single, if_neg (by simp)]
      push_cast
      simp only [neg_sub, div_neg, div_one, Option.some_inj]
      rw [Int.floor_sub_one, Int.floor_intCast, sub_add_cancel])
    omega

lemma not_mentions_of_mem {w : ℕ} {b : IntegerExpression}
    (hmem : ∀ e, e ∈ q.inequalities ↔ e ∈ p.inequalities ∨ e = b)
    (hdivisibilities : q.divisibilities = []) (hb : ∀ entry ∈ b.coefficients, entry.1 ≠ w)
    (h : p.mentions w = false) : q.mentions w = false := by
  by_contra hne
  rw [Bool.not_eq_false, mentions, hdivisibilities, List.any_nil, Bool.or_false,
    List.any_eq_true] at hne
  obtain ⟨e, he, hw⟩ := hne
  obtain ⟨entry, hentry, rfl⟩ := List.mem_map.1 (of_decide_eq_true hw)
  rcases (hmem e).1 he with hp | rfl
  · rw [mentions_of_mem hp hentry] at h
    cases h
  · exact hb entry hentry rfl

/-- A branch leaves fewer values. -/
lemma width_sum_lt {lower upper : ℤ} {value : ℚ} {b : IntegerExpression} (hbox : Boxed p vars)
    (hv : v ∈ vars) (h : p.constantBounds v = some (lower, upper))
    (hmem : ∀ e, e ∈ q.inequalities ↔ e ∈ p.inequalities ∨ e = b)
    (hdivisibilities : q.divisibilities = [])
    (hcuts : Cuts v value b) (hvalue : value.den ≠ 1) (hlower : (lower : ℚ) ≤ value)
    (hupper : value ≤ upper) :
    (vars.map q.width).sum < (vars.map p.width).sum := by
  have hother : ∀ w, p.mentions w = false → w ≠ v → q.mentions w = false := fun w hw hne => by
    refine not_mentions_of_mem hmem hdivisibilities ?_ hw
    rcases hcuts with rfl | rfl <;> simpa using hne.symm
  have hmentions : p.mentions v = true := by
    obtain ⟨e, he, hl⟩ := (constantBounds_some h).lower_mem
    obtain ⟨a, -, hcoefficients, -⟩ := lowerOf_some hl
    have hentry : (v, a) ∈ e.coefficients := hcoefficients ▸ List.mem_singleton_self _
    exact mentions_of_mem he hentry
  have hne : ∀ w, p.mentions w = false → w ≠ v := by
    rintro w hw rfl
    rw [hmentions] at hw
    cases hw
  have hstrict := width_of_cuts h hmem hcuts hvalue hlower hupper
  refine List.sum_lt_sum q.width p.width (fun w hw => ?_) ⟨v, hv, hstrict⟩
  rcases hbox w hw with hno | ⟨l, u, hbounds⟩
  · rw [width_of_not_mentions (hother w hno (hne w hno))]
    exact Nat.zero_le _
  · obtain ⟨l', u', heq, -, hle, hle'⟩ :=
      (constantBounds_some hbounds).shrink (q := q) fun e he => (hmem e).2 (.inl he)
    rw [width, width, heq, hbounds]
    dsimp only
    omega

/-! ### The search -/

/-- The answer of a search is right. -/
def Answers (p : IntegerProblem) (result : Option (ℕ → ℤ)) : Prop :=
  (∀ values, result = some values → p.Holds values) ∧ (result = none → ∀ x, ¬p.Holds x)

/-- With enough fuel the search answers, and its answer is right. -/
def Decides (p : IntegerProblem) (vars : List ℕ) : Prop :=
  ∃ fuel, ∀ n ≥ fuel, ∃ result, solveIntegerProblem n p vars = some result ∧ p.Answers result

lemma Simplified.answers (h : Simplified p q vars) {result : Option (ℕ → ℤ)}
    (hq : q.Answers result) :
    p.Answers result :=
  ⟨fun values hvalues => (h.holds values).1 (hq.1 values hvalues),
    fun hnone x hx => hq.2 hnone x ((h.holds x).2 hx)⟩

lemma exists_fuel {α : Type} {Q : α → ℕ → Prop} {list : List α}
    (h : ∀ a ∈ list, ∃ fuel, ∀ n ≥ fuel, Q a n) : ∃ fuel, ∀ n ≥ fuel, ∀ a ∈ list, Q a n := by
  induction list with
  | nil => exact ⟨0, fun _ _ _ ha => absurd ha List.not_mem_nil⟩
  | cons a rest ih =>
    rw [List.forall_mem_cons] at h
    obtain ⟨fuel, hfuel⟩ := h.1
    obtain ⟨fuel', hfuel'⟩ := ih h.2
    refine ⟨max fuel fuel', fun n hn => List.forall_mem_cons.2 ⟨?_, ?_⟩⟩
    · exact hfuel n (le_of_max_le_left hn)
    · exact hfuel' n (le_of_max_le_right hn)

/-- The first result that is found, if there is one. -/
lemma firstFound_spec {α β : Type} (attempt : α → Option (Option β)) {list : List α}
    (h : ∀ a ∈ list, ∃ result, attempt a = some result) : ∃ result,
      firstFound attempt list = some result ∧
        (∀ b, result = some b → ∃ a ∈ list, attempt a = some (some b)) ∧
        (result = none → ∀ a ∈ list, attempt a = some none) := by
  induction list with
  | nil => exact ⟨none, rfl, fun _ hb => (by cases hb), fun _ _ ha => absurd ha List.not_mem_nil⟩
  | cons a rest ih =>
    rw [List.forall_mem_cons] at h
    obtain ⟨result, hresult⟩ := h.1
    unfold firstFound
    rw [hresult]
    cases result with
    | some b =>
      refine ⟨some b, rfl, ?_, fun hnone => (by cases hnone)⟩
      rintro _ ⟨⟩
      exact ⟨a, List.mem_cons_self, hresult⟩
    | none =>
      obtain ⟨result', hrest, hsome, hnone⟩ := ih h.2
      refine ⟨result', hrest, fun b hb => ?_, fun hn => List.forall_mem_cons.2 ⟨hresult, hnone hn⟩⟩
      obtain ⟨a', ha', hattempt⟩ := hsome b hb
      exact ⟨a', List.mem_cons_of_mem _ ha', hattempt⟩

/-- A problem whose solutions are those of finitely many others is decided when they are. -/
lemma decides_of_cases {α : Type} (h : Simplified p q vars) {list : List α}
    {problem : α → IntegerProblem} {attempt : ℕ → α → Option (Option (ℕ → ℤ))} {vars' : List ℕ}
    (lift : α → (ℕ → ℤ) → Option (ℕ → ℤ))
    (hstep : ∀ n, solveIntegerProblem (n + 1) p vars = firstFound (attempt n) list)
    (hattempt : ∀ n a, attempt n a = (solveIntegerProblem n (problem a) vars').map fun result =>
      result.bind (lift a))
    (hdecides : ∀ a ∈ list, Decides (problem a) vars')
    (hlift : ∀ a ∈ list, ∀ values, (problem a).Holds values →
      ∃ lifted, lift a values = some lifted ∧ q.Holds lifted)
    (hcover : ∀ x, q.Holds x → ∃ a ∈ list, ∃ y, (problem a).Holds y) : Decides p vars := by
  obtain ⟨fuel, hfuel⟩ := exists_fuel hdecides
  refine ⟨fuel + 1, fun n hn => ?_⟩
  obtain ⟨n, rfl⟩ := Nat.exists_eq_add_of_le' (Nat.le_of_add_left_le hn)
  have hresults : ∀ a ∈ list, ∃ result, attempt n a = some result ∧
      (∀ values, result = some values → q.Holds values) ∧
        (result = none → ∀ y, ¬(problem a).Holds y) := by
    intro a ha
    obtain ⟨result, hresult, hanswers⟩ := hfuel n (Nat.le_of_succ_le_succ hn) a ha
    refine ⟨result.bind (lift a), by rw [hattempt, hresult]; rfl, fun values hvalues => ?_,
      fun hnone => ?_⟩
    · obtain ⟨found, rfl, hfound⟩ := Option.bind_eq_some_iff.1 hvalues
      obtain ⟨lifted, heq, hholds⟩ := hlift a ha found (hanswers.1 found rfl)
      exact Option.some.inj (heq.symm.trans hfound) ▸ hholds
    · cases result with
      | none => exact hanswers.2 rfl
      | some found =>
        obtain ⟨lifted, heq, -⟩ := hlift a ha found (hanswers.1 found rfl)
        cases heq.symm.trans hnone
  obtain ⟨result, hresult, hsome, hnone⟩ := firstFound_spec (attempt n) fun a ha =>
    (hresults a ha).imp fun _ hr => hr.1
  refine ⟨result, (hstep n).trans hresult, h.answers ⟨fun values hvalues => ?_, fun hn x hx => ?_⟩⟩
  · obtain ⟨a, ha, hfound⟩ := hsome values hvalues
    obtain ⟨result', hresult', hholds, -⟩ := hresults a ha
    exact hholds values (Option.some.inj (hresult'.symm.trans hfound))
  · obtain ⟨a, ha, y, hy⟩ := hcover x hx
    obtain ⟨result', hresult', -, hno⟩ := hresults a ha
    exact hno (Option.some.inj (hresult'.symm.trans (hnone hn a ha))) y hy

lemma leastBy_mem {α : Type} {less : α → α → Bool} {list : List α} {a : α}
    (h : leastBy less list = some a) : a ∈ list := by
  cases list with
  | nil => cases h
  | cons first rest =>
    have hfold : ∀ (rest : List α) (best : α),
        rest.foldl (fun best b => if less b best then b else best) best ∈ best :: rest := by
      intro rest
      induction rest with
      | nil => exact fun best => List.mem_singleton_self best
      | cons b rest ih =>
        intro best
        rw [List.foldl_cons]
        split
        · exact List.mem_cons_of_mem _ (ih b)
        · rcases List.mem_cons.1 (ih best) with heq | hmem
          · exact List.mem_cons.2 (.inl heq)
          · exact List.mem_cons_of_mem _ (List.mem_cons_of_mem _ hmem)
    exact Option.some.inj h ▸ hfold rest first

lemma leastBy_none {α : Type} {less : α → α → Bool} {list : List α}
    (h : leastBy less list = none) : list = [] := by
  cases list with
  | nil => rfl
  | cons first rest => cases h

/-- Without variables, every simplified problem is solved. -/
lemma holds_of_nil (h : Simplified p q []) : q.Holds x := by
  have hnil : ∀ e : IntegerExpression, e.toProof.Over [] → e.coefficients = [] := fun e he =>
    List.eq_nil_iff_forall_not_mem.2 fun entry hentry => List.not_mem_nil (he entry hentry)
  refine ⟨fun e he => ?_, fun d hd => ?_⟩
  · exact absurd (hnil e (h.proper.within.1 _ (List.mem_map_of_mem he))) ((h.inequalities e).1 he).1
  · obtain ⟨d', -, hreduced⟩ := h.divisibilities d hd
    exact absurd (hnil _ (h.proper.within.2 _ (List.mem_map_of_mem hd))) hreduced.2.2

/-- Values in the place of a variable. -/
lemma holds_substitute (h : p.toProof.Every ProofIntegerExpression.Canonical)
    {value : IntegerExpression} :
    (p.substitute v value).Holds x ↔ p.Holds (Function.update x v (value.evaluate x)) := by
  rw [← holds_toProof, ← holds_toProof, toProof_substitute,
    ProofIntegerProblem.holds_substitute h, IntegerExpression.evaluate_toProof]

lemma Proper.substitute (h : p.Proper vars) {value : IntegerExpression}
    (hvalue : value.toProof.Over (vars.filter fun w => decide (w ≠ v))) :
    (p.substitute v value).Proper (vars.filter fun w => decide (w ≠ v)) := by
  refine ⟨?_, ?_, ?_⟩
  · rw [toProof_substitute]
    exact h.canonical.substitute fun e he => he.substitute v value.toProof
  · rw [toProof_substitute]
    exact h.within.substitute fun e he => he.substitute hvalue
  · rw [toProof_substitute]
    intro d hd
    obtain ⟨d', hd', rfl⟩ := List.mem_map.1 hd
    exact h.positive d' hd'

lemma Proper.push (h : p.Proper vars) {b : IntegerExpression}
    (hb : b.toProof.Canonical ∧ b.toProof.Over vars) : (p.push b).Proper vars := by
  have hinequalities : ∀ e ∈ (p.push b).toProof.inequalities,
      e ∈ p.toProof.inequalities ∨ e = b.toProof := by
    intro e he
    obtain ⟨e', he', rfl⟩ := List.mem_map.1 he
    rcases List.mem_append.1 he' with hp | hp
    · exact .inl (List.mem_map_of_mem hp)
    · exact .inr (List.mem_singleton.1 hp ▸ rfl)
  refine ⟨⟨fun e he => ?_, h.canonical.2⟩, ⟨fun e he => ?_, h.within.2⟩, h.positive⟩
  · rcases hinequalities e he with hp | rfl
    · exact h.canonical.1 e hp
    · exact hb.1
  · rcases hinequalities e he with hp | rfl
    · exact h.within.1 e hp
    · exact hb.2

lemma Cuts.proper {value : ℚ} {b : IntegerExpression} (h : Cuts v value b) (hv : v ∈ vars) :
    b.toProof.Canonical ∧ b.toProof.Over vars := by
  have hsingle : ∀ constant a : ℤ, a ≠ 0 →
      (⟨constant, [(v, a)]⟩ : ProofIntegerExpression ℕ).Canonical ∧
      (⟨constant, [(v, a)]⟩ : ProofIntegerExpression ℕ).Over vars := fun constant a ha =>
    ⟨⟨List.pairwise_singleton _ _, fun entry hentry => List.mem_singleton.1 hentry ▸ ha⟩,
      fun entry hentry => List.mem_singleton.1 hentry ▸ hv⟩
  rcases h with rfl | rfl
  · exact hsingle _ 1 one_ne_zero
  · exact hsingle _ (-1) (by decide)

/-- A solution is on one side of a value that is not an integer. -/
lemma exists_branch_holds {value : ℚ} (hx : p.Holds x) :
    ∃ branch ∈ branches p v value, branch.Holds x := by
  have hpush : ∀ b : IntegerExpression, b.evaluate x < 0 → (p.push b).Holds x := fun b hb =>
    ⟨fun e he => (List.mem_append.1 he).elim (hx.1 e) fun heq => List.mem_singleton.1 heq ▸ hb,
    hx.2⟩
  rcases le_or_gt (x v : ℚ) value with hle | hlt
  · refine ⟨_, List.mem_cons_self, hpush _ ?_⟩
    rw [evaluate_single rfl]
    have := Int.le_floor.2 hle
    dsimp only
    omega
  · refine ⟨_, List.mem_cons_of_mem _ (List.mem_singleton_self _), hpush _ ?_⟩
    rw [evaluate_single rfl]
    have := Int.ceil_le.2 hlt.le
    dsimp only
    omega

lemma length_filter_lt (hv : v ∈ vars) :
    (vars.filter fun w => decide (w ≠ v)).length < vars.length :=
  List.length_filter_lt_length_iff_exists.2 ⟨v, hv, by simp⟩

lemma solveIntegerProblem_relaxation (hq : p.simplify = some q) (hvars : vars ≠ [])
    (hcondition : 5 ≤ vars.length ∧ q.divisibilities = [] ∧
      vars.all fun v => !q.mentions v || (q.constantBounds v).isSome) (n : ℕ) :
    solveIntegerProblem (n + 1) p vars = match solveRealLinear (relaxation q) with
      | .sat model =>
        match vars.find? fun v => decide ((model.values v).den ≠ 1) with
        | none => some (some fun v => if v ∈ vars then (model.values v).num else 0)
        | some v => firstFound (fun branch => solveIntegerProblem n branch vars)
            (branches q v (model.values v))
      | _ => some none := by
  rw [solveIntegerProblem, hq]
  dsimp only
  exact (if_neg hvars).trans (if_pos hcondition)

/-- A model of the relaxation whose values are integers solves the inequalities. -/
lemma holds_of_integral (hproper : q.Proper vars) (hdivisibilities : q.divisibilities = [])
    {values : ℕ → ℚ} (hholds : ∀ c ∈ relaxation q, c.Holds values)
    (hintegral : ∀ v ∈ vars, (values v).den = 1) :
    q.Holds fun v => if v ∈ vars then (values v).num else 0 := by
  have hinteger : ∀ v ∈ vars, ((values v).num : ℚ) = values v := fun v hv =>
    Rat.coe_int_num_of_den_eq_one (hintegral v hv)
  refine ⟨fun e he => ?_, fun d hd => ?_⟩
  · have hover := hproper.within.1 _ (List.mem_map_of_mem he)
    have hle := relaxation_holds.1 hholds e he
    have hvalue : ((e.evaluate fun v => if v ∈ vars then (values v).num else 0 : ℤ) : ℚ) =
        e.asLinear.evaluate values := by
      rw [← evaluate_asLinear, LinearExpression.evaluate_eq, LinearExpression.evaluate_eq]
      refine congrArg _ (weightedSum_congr fun entry hentry => ?_)
      obtain ⟨entry', hentry', rfl⟩ := List.mem_map.1 hentry
      have hmem : entry'.1 ∈ vars := hover entry' hentry'
      dsimp only
      rw [if_pos hmem, hinteger _ hmem]
    rw [← hvalue] at hle
    exact_mod_cast hle
  · rw [hdivisibilities] at hd
    exact absurd hd List.not_mem_nil

section

variable (h : Simplified p q vars) (hq : p.simplify = some q)
include h hq

/-- The branch on the relaxation. -/
lemma decides_relaxation (hvars : vars ≠ [])
    (hcondition : 5 ≤ vars.length ∧ q.divisibilities = [] ∧
      vars.all fun v => !q.mentions v || (q.constantBounds v).isSome)
    (ih : ∀ b q', (q.push b).Proper vars → (q.push b).simplify = some q' →
      (vars.map q'.width).sum < (vars.map q.width).sum → Decides (q.push b) vars) :
    Decides p vars := by
  have hdivisibilities := hcondition.2.1
  have hbox : q.Boxed vars := fun w hw => by
    rcases Bool.or_eq_true_iff.1 (List.all_eq_true.1 hcondition.2.2 w hw) with hno | hsome
    · exact .inl (by simpa using hno)
    · obtain ⟨⟨lower, upper⟩, hbounds⟩ := Option.isSome_iff_exists.1 hsome
      exact .inr ⟨lower, upper, hbounds⟩
  have hcanonical := relaxation_canonical h.proper.canonical
  have hstep := solveIntegerProblem_relaxation hq hvars hcondition
  by_cases hsat : ∃ model, solveRealLinear (relaxation q) = .sat model
  swap
  · -- the relaxation has no solution
    refine ⟨1, fun n hn => ⟨none, ?_, h.answers ⟨fun _ hv => (by cases hv), fun _ x hx => ?_⟩⟩⟩
    · obtain ⟨n, rfl⟩ := Nat.exists_eq_add_of_le' hn
      rw [hstep]
      split
      · next model hmodel => exact absurd ⟨model, hmodel⟩ hsat
      · rfl
    · exact not_holds_of_solveRealLinear hcanonical (fun model hmodel => hsat ⟨model, hmodel⟩) _
        (relaxation_of_holds hx)
  obtain ⟨model, hmodel⟩ := hsat
  have hholds := holds_of_solveRealLinear hcanonical hmodel
  cases hfind : vars.find? fun v => decide ((model.values v).den ≠ 1) with
  | none =>
    -- the values are integers
    refine ⟨1, fun n hn => ⟨some fun v => if v ∈ vars then (model.values v).num else 0, ?_,
      h.answers ⟨?_, fun hnone => (by cases hnone)⟩⟩⟩
    · obtain ⟨n, rfl⟩ := Nat.exists_eq_add_of_le' hn
      rw [hstep, hmodel]
      dsimp only
      rw [hfind]
    · rintro _ ⟨⟩
      exact holds_of_integral h.proper hdivisibilities hholds fun v hv => by
        simpa using List.find?_eq_none.1 hfind v hv
  | some v =>
    have hv := List.mem_of_find?_eq_some hfind
    have hden : (model.values v).den ≠ 1 := by simpa using List.find?_some hfind
    have hinterval : ∃ lower upper, q.constantBounds v = some (lower, upper) := by
      refine (hbox v hv).resolve_left fun hno => hden ?_
      have hzero : model.values v = 0 := values_eq_zero hmodel fun c hc entry hentry heq => by
        obtain ⟨e, he, rfl⟩ := List.mem_map.1 hc
        obtain ⟨entry', hentry', rfl⟩ := List.mem_map.1 hentry
        have hmentions := mentions_of_mem he hentry'
        rw [show entry'.1 = v from heq, hno] at hmentions
        cases hmentions
      rw [hzero]
      rfl
    obtain ⟨lower, upper, hbounds⟩ := hinterval
    obtain ⟨hlower, hupper⟩ := (constantBounds_some hbounds).mem_relaxation h.tight hholds
    -- each branch leaves fewer values
    have hbranch : ∀ branch ∈ branches q v (model.values v), Decides branch vars := by
      intro branch hmem
      obtain ⟨b, hcuts, rfl⟩ := mem_branches hmem
      have hproper : (q.push b).Proper vars := h.proper.push (hcuts.proper hv)
      cases hsimplify : (q.push b).simplify with
      | none =>
        refine ⟨1, fun n hn => ⟨none, ?_, fun _ hv => (by cases hv), fun _ =>
          simplify_none hproper hsimplify⟩⟩
        obtain ⟨n, rfl⟩ := Nat.exists_eq_add_of_le' hn
        rw [solveIntegerProblem, hsimplify]
      | some q' =>
        have hsimplified := simplify_some hproper hsimplify
        have hlt := width_sum_lt (q := q') hbox hv hbounds
          (hsimplified.push h.tight hcuts.tight) (List.eq_nil_iff_forall_not_mem.2 fun d hd => by
            obtain ⟨d', hd', -⟩ := hsimplified.divisibilities d hd
            rw [IntegerProblem.push, hdivisibilities] at hd'
            exact List.not_mem_nil hd') hcuts hden hlower hupper
        exact ih b q' hproper hsimplify hlt
    have hfirst : ∀ n, solveIntegerProblem (n + 1) p vars =
        firstFound (fun branch => solveIntegerProblem n branch vars)
          (branches q v (model.values v)) :=
      fun n => by
        rw [hstep, hmodel]
        dsimp only
        rw [hfind]
    refine decides_of_cases h (fun _ => some) hfirst (fun n branch => ?_) hbranch
      (fun branch hmem values hvalues => ⟨values, rfl, ?_⟩) fun x hx => ?_
    · simp
    · obtain ⟨b, -, rfl⟩ := mem_branches hmem
      exact ⟨fun e he => hvalues.1 e (List.mem_append_left _ he), hvalues.2⟩
    · -- a solution is in one of the branches
      obtain ⟨branch, hmem, hbranch⟩ := exists_branch_holds hx
      exact ⟨branch, hmem, x, hbranch⟩

omit h hq in
lemma map_range_cast (lower : ℤ) (count : ℕ) :
    ((do let i ← List.range count; pure (i : ℤ)).map fun i => lower + i) =
      (List.range count).map fun i : ℕ => lower + i := by
  rw [List.bind_eq_flatMap, List.map_flatMap]
  exact List.map_eq_flatMap.symm

/-- The enumeration of an interval. -/
lemma decides_bounded {lower upper : ℤ} (hvars : vars ≠ [])
    (hcondition : ¬(5 ≤ vars.length ∧ q.divisibilities = [] ∧
      vars.all fun v => !q.mentions v || (q.constantBounds v).isSome))
    (hchoose : q.chooseBounded vars = some (v, lower, upper))
    (ih : ∀ (q' : IntegerProblem) vars', vars'.length < vars.length → q'.Proper vars' →
      Decides q' vars') : Decides p vars := by
  obtain ⟨v', hv, hbounds⟩ := List.mem_filterMap.1 (leastBy_mem hchoose)
  obtain ⟨bounds, hbounds, heq⟩ := Option.map_eq_some_iff.1 hbounds
  obtain ⟨rfl, rfl⟩ := Prod.mk.inj heq
  have hdecides : ∀ value ∈ (List.range (upper - lower + 1).toNat).map fun i : ℕ => lower + i,
      Decides (q.substitute v' (.ofConstant value)) (vars.filter fun w => decide (w ≠ v')) := by
    intro value _
    exact ih _ _ (length_filter_lt hv) (h.proper.substitute fun _ hentry =>
      absurd hentry List.not_mem_nil)
  have hupdate : ∀ (value : ℤ) (x : ℕ → ℤ), (q.substitute v' (.ofConstant value)).Holds x ↔
      q.Holds (Function.update x v' value) := fun value x => holds_substitute h.proper.canonical
  have hfirst : ∀ n, solveIntegerProblem (n + 1) p vars = firstFound (fun value : ℤ =>
      (solveIntegerProblem n (q.substitute v' (.ofConstant value))
        (vars.filter fun w => decide (w ≠ v'))).map
          (Option.map fun values => Function.update values v' value))
        ((List.range (upper - lower + 1).toNat).map fun i : ℕ => lower + i) := fun n => by
    rw [solveIntegerProblem, hq]
    dsimp only
    rw [if_neg hvars, if_neg hcondition, hchoose]
    dsimp only
    rw [map_range_cast]
  refine decides_of_cases h (fun value values => some (Function.update values v' value)) hfirst
    (fun n value => ?_) hdecides (fun value _ values hvalues =>
      ⟨_, rfl, (hupdate value values).1 hvalues⟩)
    fun x hx => ?_
  · exact congrArg (fun f => Option.map f _) (funext fun _ => Option.map_eq_bind)
  · -- the value of a solution is one of those that are tried
    obtain ⟨hlower, hupper⟩ := (constantBounds_some hbounds).mem hx
    have hmem : x v' ∈ (List.range (upper - lower + 1).toNat).map fun i : ℕ => lower + i := by
      refine List.mem_map.2 ⟨(x v' - lower).toNat, List.mem_range.2 (by omega), by omega⟩
    refine ⟨x v', hmem, x, (hupdate _ x).2 ?_⟩
    rwa [Function.update_eq_self]

/-- A variable that is not mentioned. -/
lemma decides_absent (hvars : vars ≠ [])
    (hcondition : ¬(5 ≤ vars.length ∧ q.divisibilities = [] ∧
      vars.all fun v => !q.mentions v || (q.constantBounds v).isSome))
    (hbounded : q.chooseBounded vars = none) (hchoose : q.chooseElimination vars = some v)
    (hmentions : q.mentions v = false)
    (ih : ∀ (q' : IntegerProblem) vars', vars'.length < vars.length → q'.Proper vars' →
      Decides q' vars') : Decides p vars := by
  have hv : v ∈ vars := leastBy_mem hchoose
  have hover : q.toProof.Every
      (ProofIntegerExpression.Over (vars.filter fun w => decide (w ≠ v))) :=
    ProofIntegerProblem.over_of_not_mentions h.proper.within (by rwa [mentions_toProof])
  obtain ⟨fuel, hfuel⟩ := ih q _ (length_filter_lt hv)
    ⟨h.proper.canonical, hover, h.proper.positive⟩
  refine ⟨fuel + 1, fun n hn => ?_⟩
  obtain ⟨n, rfl⟩ := Nat.exists_eq_add_of_le' (Nat.le_of_add_left_le hn)
  obtain ⟨result, hresult, hanswers⟩ := hfuel n (Nat.le_of_succ_le_succ hn)
  refine ⟨result.map fun values => Function.update values v 0, ?_,
    h.answers ⟨fun values hvalues => ?_, fun hn => hanswers.2 (Option.map_eq_none_iff.1 hn)⟩⟩
  · rw [solveIntegerProblem, hq]
    dsimp only
    rw [if_neg hvars, if_neg hcondition, hbounded]
    dsimp only
    rw [hchoose]
    dsimp only
    rw [if_pos (by simp [hmentions]), hresult]
    rfl
  · obtain ⟨found, rfl, rfl⟩ := Option.map_eq_some_iff.1 hvalues
    have hfound := hanswers.1 found rfl
    rw [← holds_toProof] at hfound ⊢
    have hupdate : ∀ e : ProofIntegerExpression ℕ, e.Over (vars.filter fun w => decide (w ≠ v)) →
        e.evaluate (Function.update found v 0) = e.evaluate found := fun e he =>
      ProofIntegerExpression.evaluate_update_of_notMem (fun entry hentry =>
        of_decide_eq_true (List.mem_filter.1 (he entry hentry)).2) 0
    refine ⟨fun e he => ?_, fun d hd => ?_⟩
    · rw [hupdate e (hover.1 e he)]
      exact hfound.1 e he
    · have hdvd : d.modulus ∣ d.expression.evaluate found := hfound.2 d hd
      show d.modulus ∣ d.expression.evaluate (Function.update found v 0)
      rwa [hupdate _ (hover.2 d hd)]

end

/-! ### Cooper's elimination -/

/-- The values that are tried are the candidates of refutations. -/
lemma mem_candidates (p : IntegerProblem) (v : ℕ) (c : ProofIntegerExpression ℕ) :
    ProofIntegerProblem.Candidate (p.toProof.cooperElimination v) c ↔
      ∃ candidate ∈ (p.normalizeCooper v).candidates, candidate.toProof = c := by
  obtain ⟨hlower, hupper⟩ := bases_normalizeCooper p v
  unfold ProofIntegerProblem.Candidate CooperElimination.candidates
  rw [← hlower, ← hupper, ← period_normalizeCooper]
  simp only [ne_eq, List.map_eq_nil_iff, List.mem_map, exists_exists_and_eq_and]
  generalize (p.normalizeCooper v).period.toNat = count
  split
  · simp only [List.mem_flatMap, List.mem_map, List.mem_range]
    constructor
    · rintro ⟨base, hbase, j, hj, hj', rfl⟩
      refine ⟨_, ⟨base, hbase, (j - 1).toNat, by omega, rfl⟩, ?_⟩
      simp only [IntegerExpression.toProof, IntegerExpression.withConstant,
        ProofIntegerExpression.shifted,
        ProofIntegerExpression.mk.injEq, and_true]
      omega
    · rintro ⟨_, ⟨base, hbase, i, hi, rfl⟩, rfl⟩
      exact ⟨base, hbase, i + 1, by omega, by omega, rfl⟩
  · split
    · simp only [List.mem_flatMap, List.mem_map, List.mem_range]
      constructor
      · rintro ⟨base, hbase, j, hj, hj', rfl⟩
        refine ⟨_, ⟨base, hbase, (j - 1).toNat, by omega, rfl⟩, ?_⟩
        simp only [IntegerExpression.toProof, IntegerExpression.withConstant,
          ProofIntegerExpression.shifted, ProofIntegerExpression.mk.injEq, and_true]
        omega
      · rintro ⟨_, ⟨base, hbase, i, hi, rfl⟩, rfl⟩
        refine ⟨base, hbase, i + 1, by omega, by omega, ?_⟩
        simp only [IntegerExpression.toProof, IntegerExpression.withConstant,
          ProofIntegerExpression.shifted, ProofIntegerExpression.mk.injEq, and_true]
        omega
    · simp only [List.mem_map, List.mem_range]
      constructor
      · rintro ⟨j, hj, hj', rfl⟩
        refine ⟨_, ⟨j.toNat, by omega, rfl⟩, ?_⟩
        simp only [IntegerExpression.toProof, IntegerExpression.ofConstant,
          ProofIntegerExpression.mk.injEq, and_true]
        omega
      · rintro ⟨_, ⟨i, hi, rfl⟩, rfl⟩
        exact ⟨i, by omega, by omega, rfl⟩

lemma positive_cooperElimination (h : p.Proper vars) :
    (p.toProof.cooperElimination v).normalized.Positive := by
  obtain ⟨hscale, -, hdvd⟩ := p.toProof.scaleOf_spec v
  intro d hd
  rcases List.mem_append.1 hd with hd | hd
  · obtain ⟨d', hd', rfl⟩ := List.mem_map.1 hd
    split
    · exact h.positive d' hd'
    · next hne =>
      exact mul_pos (h.positive d' hd') (ProofIntegerProblem.tdiv_abs_pos hscale (hdvd d' hd' hne))
  · rw [List.mem_singleton.1 hd]
    exact hscale

/-- The elimination of a variable that is mentioned. -/
lemma decides_cooper (h : Simplified p q vars) (hq : p.simplify = some q) (hvars : vars ≠ [])
    (hcondition : ¬(5 ≤ vars.length ∧ q.divisibilities = [] ∧
      vars.all fun v => !q.mentions v || (q.constantBounds v).isSome))
    (hbounded : q.chooseBounded vars = none) (hchoose : q.chooseElimination vars = some v)
    (hmentions : q.mentions v = true)
    (ih : ∀ (q' : IntegerProblem) vars', vars'.length < vars.length → q'.Proper vars' →
      Decides q' vars') : Decides p vars := by
  have hv : v ∈ vars := leastBy_mem hchoose
  have hproper : (q.normalizeCooper v).normalized.Proper vars := by
    refine ⟨?_, ?_, ?_⟩ <;> rw [normalized_normalizeCooper]
    · exact ProofIntegerProblem.cooperElimination_canonical h.proper.canonical v
    · exact ProofIntegerProblem.cooperElimination_over h.proper.within hv
    · exact positive_cooperElimination h.proper
  have hdecides : ∀ candidate ∈ (q.normalizeCooper v).candidates,
      Decides ((q.normalizeCooper v).normalized.substitute v candidate)
        (vars.filter fun w => decide (w ≠ v)) := fun candidate hmem =>
    ih _ _ (length_filter_lt hv) (hproper.substitute
      (ProofIntegerProblem.candidate_over h.proper.within
      ((mem_candidates q v _).2 ⟨candidate, hmem, rfl⟩)))
  have hscale : (q.normalizeCooper v).scale = q.toProof.scaleOf v := (scaleOf_toProof q v).symm
  -- what is found for a candidate solves the problem
  have hfound : ∀ candidate values,
      ((q.normalizeCooper v).normalized.substitute v candidate).Holds values →
      (candidate.evaluate values).tmod (q.normalizeCooper v).scale = 0 ∧
        q.Holds (Function.update values v
          ((candidate.evaluate values).tdiv (q.normalizeCooper v).scale)) := by
    intro candidate values hholds
    have hnormalized := (holds_substitute hproper.canonical).1 hholds
    have hdvd : (q.normalizeCooper v).scale ∣ candidate.evaluate values := by
      have := hnormalized.2 ⟨(q.normalizeCooper v).scale, .ofVariable v⟩
        (List.mem_append_right _ (List.mem_singleton_self _))
      simpa [IntegerExpression.evaluate, IntegerExpression.ofVariable] using this
    refine ⟨Int.tmod_eq_zero_of_dvd hdvd, ?_⟩
    rw [← holds_toProof, ← ProofIntegerProblem.cooperElimination_holds h.proper.canonical _ v,
      Function.update_self, ← hscale, Function.update_idem, ← normalized_normalizeCooper,
        holds_toProof,
      Int.mul_tdiv_cancel' hdvd]
    exact hnormalized
  have hfirst : ∀ n, solveIntegerProblem (n + 1) p vars = firstFound (fun candidate =>
      (solveIntegerProblem n ((q.normalizeCooper v).normalized.substitute v candidate)
        (vars.filter fun w => decide (w ≠ v))).map fun result => result.bind fun values =>
          if (candidate.evaluate values).tmod (q.normalizeCooper v).scale ≠ 0 then none
          else some (Function.update values v
            ((candidate.evaluate values).tdiv (q.normalizeCooper v).scale)))
        (q.normalizeCooper v).candidates := fun n => by
    rw [solveIntegerProblem, hq]
    dsimp only
    rw [if_neg hvars, if_neg hcondition, hbounded]
    dsimp only
    rw [hchoose]
    dsimp only
    rw [if_neg (by simp [hmentions])]
  refine decides_of_cases h _ hfirst (fun _ _ => rfl) hdecides
    (fun candidate _ values hvalues => ?_)
    fun x hx => ?_
  · obtain ⟨hmod, hholds⟩ := hfound candidate values hvalues
    exact ⟨_, if_neg (not_not.2 hmod), hholds⟩
  · -- a solution gives one for some candidate
    have hsolvable : ∃ y, (q.toProof.cooperElimination v).normalized.Holds y :=
      (ProofIntegerProblem.cooperElimination_solvable h.proper.canonical v).2
        ⟨x, holds_toProof.2 hx⟩
    obtain ⟨c, hc, y, hy⟩ := (ProofIntegerProblem.cooperElimination_candidates h.proper.canonical
      h.proper.positive v).1 hsolvable
    obtain ⟨candidate, hmem, rfl⟩ := (mem_candidates q v c).1 hc
    rw [← normalized_normalizeCooper, ← toProof_substitute, holds_toProof] at hy
    exact ⟨candidate, hmem, y, hy⟩

/-! ### The decision -/

/-- The search decides every problem. -/
lemma solveIntegerProblem_decides (h : p.Proper vars) : Decides p vars := by
  -- on the number of variables, and for branches on the number of values their intervals leave
  induction hlength : vars.length using Nat.strong_induction_on generalizing p vars with
  | _ k ihk =>
    subst hlength
    have hfewer : ∀ (q' : IntegerProblem) vars', vars'.length < vars.length → q'.Proper vars' →
        Decides q' vars' := fun q' vars' hlt hproper => ihk _ hlt hproper rfl
    induction hwidth : (match p.simplify with
      | some q => (vars.map q.width).sum
      | none => 0) using Nat.strong_induction_on generalizing p with
    | _ w ihw =>
      subst hwidth
      cases hq : p.simplify with
      | none =>
        refine ⟨1, fun n hn => ⟨none, ?_, fun _ hv => (by cases hv), fun _ => simplify_none h hq⟩⟩
        obtain ⟨n, rfl⟩ := Nat.exists_eq_add_of_le' hn
        rw [solveIntegerProblem, hq]
      | some q =>
        have hs := simplify_some h hq
        by_cases hvars : vars = []
        · subst hvars
          refine ⟨1, fun n hn => ⟨some fun _ => 0, ?_, hs.answers ⟨?_, fun hn => (by cases hn)⟩⟩⟩
          · obtain ⟨n, rfl⟩ := Nat.exists_eq_add_of_le' hn
            rw [solveIntegerProblem, hq]
            rfl
          · rintro _ ⟨⟩
            exact holds_of_nil hs
        by_cases hcondition : 5 ≤ vars.length ∧ q.divisibilities = [] ∧
            vars.all fun v => !q.mentions v || (q.constantBounds v).isSome
        · refine decides_relaxation hs hq hvars hcondition fun b q' hproper hq' hlt => ?_
          exact ihw _ (by rwa [hq, hq']) hproper rfl
        cases hbounded : q.chooseBounded vars with
        | some choice =>
          obtain ⟨v, lower, upper⟩ := choice
          exact decides_bounded hs hq hvars hcondition hbounded hfewer
        | none =>
          cases hchoose : q.chooseElimination vars with
          | none => exact absurd (leastBy_none hchoose) hvars
          | some v =>
            cases hmentions : q.mentions v with
            | false => exact decides_absent hs hq hvars hcondition hbounded hchoose hmentions hfewer
            | true => exact decides_cooper hs hq hvars hcondition hbounded hchoose hmentions hfewer

end IntegerProblem

end Satrap.Smt
