/-
# Integer refutations

Cooper's elimination says that integer constraints are satisfiable exactly when they have a
solution, whenever it ends within its budget.  Simplification keeps the solutions of a problem;
the elimination of a variable scales it to unit coefficients, and the values it tries are those
that bounds and divisibilities leave to be tried.
-/
import Mathlib.Tactic.LinearCombination
import Satrap.Logic.Cooper
import Satrap.Smt.RealRefutation

namespace Satrap.Smt

open Logic

variable {V : Type} [LinearOrder V]

/-! ### Computations within a budget -/

section

variable {α β : Type} {m : IntegerProof α} {P : α → Prop}

/-- Every result that the computation returns has the property. -/
def Yields (m : IntegerProof α) (P : α → Prop) : Prop :=
  ∀ budget a left, m budget = .ok (a, left) → P a

lemma yields_pure {a : α} (h : P a) : Yields (pure a) P := by
  rintro budget _ _ ⟨⟩
  exact h

lemma yields_bind {f : α → IntegerProof β} {Q : β → Prop} (hm : Yields m P)
    (hf : ∀ a, P a → Yields (f a) Q) : Yields (m >>= f) Q := by
  intro budget b left h
  have hrun : (m >>= f) budget = (m budget).bind fun p => f p.1 p.2 := rfl
  rw [hrun] at h
  cases hmb : m budget with
  | error e =>
    rw [hmb] at h
    cases h
  | ok p =>
    rw [hmb] at h
    exact hf p.1 (hm budget p.1 p.2 hmb) _ _ _ h

lemma yields_throw {e : ProofError} : Yields (throw e : IntegerProof α) P := by
  rintro budget a left ⟨⟩

lemma yields_spend (amount : ℕ) : Yields (spend amount) fun _ => True := fun _ _ _ _ => trivial

/-- A step of the budget is spent before the rest. -/
lemma yields_spend_bind {f : Unit → IntegerProof α} (amount : ℕ) (h : Yields (f ()) P) :
    Yields (spend amount >>= f) P :=
  yields_bind (yields_spend amount) fun _ _ => h

lemma yields_lift {x : Except ProofError α} (h : ∀ a, x = .ok a → P a) :
    Yields (liftM x : IntegerProof α) P := by
  intro budget a left hrun
  cases x with
  | error e => cases hrun
  | ok a' =>
    cases hrun
    exact h _ rfl

/-- Trying the members of a list finds one that works, if there is one. -/
lemma yields_anyM {f : α → IntegerProof Bool} {Q : α → Prop} {items : List α}
    (h : ∀ a ∈ items, Yields (f a) fun b => b = true ↔ Q a) :
    Yields (items.anyM f) fun b => b = true ↔ ∃ a ∈ items, Q a := by
  induction items with
  | nil => exact yields_pure (by simp)
  | cons a rest ih =>
    rw [List.anyM]
    refine yields_bind (h a List.mem_cons_self) fun found hfound => ?_
    cases found with
    | true => exact yields_pure (by simp [hfound.1 rfl])
    | false =>
      have hno : ¬ Q a := fun hq => by simpa using hfound.2 hq
      have ih := ih fun a' ha' => h a' (List.mem_cons_of_mem a ha')
      simpa [hno] using ih

lemma yields_anyOffset {attempt : ℤ → IntegerProof Bool} {Q : ℤ → Prop} {count : ℕ} {first : ℤ}
    (h : ∀ j, first ≤ j → j < first + count → Yields (attempt j) fun b => b = true ↔ Q j) :
    Yields (ProofIntegerProblem.anyOffset attempt count first) fun b =>
      b = true ↔ ∃ j, first ≤ j ∧ j < first + count ∧ Q j := by
  induction count generalizing first with
  | zero => exact yields_pure (by simpa using fun j h1 h2 => absurd h1 (not_le.2 h2))
  | succ count ih =>
    rw [ProofIntegerProblem.anyOffset]
    refine yields_spend_bind 1 (yields_bind (h first le_rfl (by omega)) fun found hfound => ?_)
    cases found with
    | true => exact yields_pure (by simpa using ⟨first, le_rfl, by omega, hfound.1 rfl⟩)
    | false =>
      have hno : ¬ Q first := fun hq => by simpa using hfound.2 hq
      have hlater (j : ℤ) (h1 : first + 1 ≤ j) (h2 : j < first + 1 + count) :
          Yields (attempt j) fun b => b = true ↔ Q j := h j (by omega) (by push_cast; omega)
      have hrest := ih hlater
      refine fun budget b left hrun => (hrest budget b left hrun).trans ?_
      constructor
      · rintro ⟨j, h1, h2, hj⟩
        exact ⟨j, by omega, by push_cast; omega, hj⟩
      · rintro ⟨j, h1, h2, hj⟩
        have hne : j ≠ first := fun heq => hno (heq ▸ hj)
        exact ⟨j, by omega, by push_cast at h2; omega, hj⟩

end

/-! ### Values -/

namespace ProofIntegerExpression

variable {e e' : ProofIntegerExpression V} {x y : V → ℤ} {v : V} {scale : ℤ} {entry : V × ℤ}

/-- The value of an expression. -/
def evaluate (e : ProofIntegerExpression V) (x : V → ℤ) : ℤ :=
  e.constant + weightedSum x e.coefficients

/-- The entries are those of an ordered map of nonzero coefficients. -/
structure Canonical (e : ProofIntegerExpression V) : Prop where
  ordered : Ordered e.coefficients
  nonzero : ∀ entry ∈ e.coefficients, entry.2 ≠ 0

/-- The variables of the expression are among these. -/
def Over (vars : List V) (e : ProofIntegerExpression V) : Prop :=
  ∀ entry ∈ e.coefficients, entry.1 ∈ vars

lemma Canonical.without (h : e.Canonical) (v : V) : (e.without v).Canonical :=
  ⟨h.ordered.removeEntry, fun entry hm => h.nonzero entry (List.mem_filter.1 hm).1⟩

lemma mem_without (h : entry ∈ (e.without v).coefficients) :
    entry ∈ e.coefficients ∧ entry.1 ≠ v := by
  obtain ⟨hm, hne⟩ := List.mem_filter.1 h
  exact ⟨hm, of_decide_eq_true hne⟩

omit [LinearOrder V] in
lemma mem_scaled (h : entry ∈ (e.scaled scale).coefficients) :
    ∃ entry' ∈ e.coefficients, entry.1 = entry'.1 := by
  rw [scaled] at h
  split at h
  · cases h
  · obtain ⟨entry', hm, rfl⟩ := List.mem_map.1 h
    exact ⟨entry', hm, rfl⟩

lemma Canonical.scaled (h : e.Canonical) (scale : ℤ) : (e.scaled scale).Canonical := by
  rw [ProofIntegerExpression.scaled]
  split
  · exact ⟨List.Pairwise.nil, by simp⟩
  · next hne =>
    refine ⟨List.pairwise_map.2 h.ordered, fun entry hm => ?_⟩
    obtain ⟨entry', hm', rfl⟩ := List.mem_map.1 hm
    exact mul_ne_zero (h.nonzero entry' hm') hne

lemma Canonical.addScaled (h : e.Canonical) (e' : ProofIntegerExpression V) (scale : ℤ) :
    (e.addScaled e' scale).Canonical where
  ordered := Ordered.foldl_addMultiple h.ordered
  nonzero entry hm := by
    rcases mem_foldl_addMultiple hm with ⟨-, -, -, hne⟩ | hm
    · exact hne
    · exact h.nonzero entry hm

lemma Canonical.substitute (h : e.Canonical) (v : V) (value : ProofIntegerExpression V) :
    (e.substitute v value).Canonical :=
  (h.without v).addScaled value _

/-- A coefficient is zero when the variable does not occur. -/
lemma coefficient_eq_zero_iff (h : e.Canonical) :
    e.coefficient v = 0 ↔ ∀ entry ∈ e.coefficients, entry.1 ≠ v := by
  refine ⟨fun hzero entry hm heq => ?_, coefficientOf_of_notMem⟩
  subst heq
  exact h.nonzero entry hm ((coefficientOf_of_mem h.ordered hm).symm.trans hzero)

lemma evaluate_eq (h : e.Canonical) (v : V) (x : V → ℤ) :
    e.evaluate x = e.coefficient v * x v + (e.without v).evaluate x := by
  rw [evaluate, evaluate, without, weightedSum_removeEntry h.ordered, coefficient]
  ring

omit [LinearOrder V] in
lemma evaluate_congr (h : ∀ entry ∈ e.coefficients, x entry.1 = y entry.1) :
    e.evaluate x = e.evaluate y := by
  rw [evaluate, evaluate, weightedSum_congr h]

/-- An expression without the variable does not depend on it. -/
lemma evaluate_update_of_notMem (h : ∀ entry ∈ e.coefficients, entry.1 ≠ v) (t : ℤ) :
    e.evaluate (Function.update x v t) = e.evaluate x :=
  evaluate_congr fun entry hm => Function.update_of_ne (h entry hm) _ _

lemma evaluate_update (h : e.Canonical) (t : ℤ) :
    e.evaluate (Function.update x v t) = e.coefficient v * t + (e.without v).evaluate x := by
  rw [evaluate_eq h v, Function.update_self,
    evaluate_update_of_notMem fun entry hm => (mem_without hm).2]

omit [LinearOrder V] in
lemma evaluate_scaled (scale : ℤ) : (e.scaled scale).evaluate x = e.evaluate x * scale := by
  rw [evaluate, evaluate, scaled]
  split
  · next hz => simp [hz]
  · rw [weightedSum_scaled]
    ring

lemma evaluate_substitute (h : e.Canonical) (value : ProofIntegerExpression V) :
    (e.substitute v value).evaluate x = e.evaluate (Function.update x v (value.evaluate x)) := by
  rw [evaluate_update h, evaluate, substitute, addScaled,
    weightedSum_foldl_addMultiple (h.without v).ordered, evaluate, evaluate]
  ring

/-- What is put in the place of a variable brings its own variables. -/
lemma Over.substitute {vars : List V} {value : ProofIntegerExpression V} (h : e.Over vars)
    (hvalue : value.Over (vars.filter fun w => decide (w ≠ v))) :
    (e.substitute v value).Over (vars.filter fun w => decide (w ≠ v)) := by
  intro entry hm
  rcases mem_foldl_addMultiple hm with ⟨entry', hm', heq, -⟩ | hm
  · exact heq ▸ hvalue entry' hm'
  · obtain ⟨hm, hne⟩ := mem_without hm
    exact List.mem_filter.2 ⟨h entry hm, decide_eq_true hne⟩

end ProofIntegerExpression

/-- The divisibility holds of the values. -/
def ProofDivisibilityConstraint.Holds (d : ProofDivisibilityConstraint V) (x : V → ℤ) : Prop :=
  d.modulus ∣ d.expression.evaluate x

namespace ProofIntegerProblem

variable {p q : ProofIntegerProblem V} {x : V → ℤ} {v : V} {vars : List V}

/-- The values solve the problem. -/
def Holds (p : ProofIntegerProblem V) (x : V → ℤ) : Prop :=
  (∀ e ∈ p.inequalities, e.evaluate x < 0) ∧ ∀ d ∈ p.divisibilities, d.Holds x

/-- The property holds of all expressions of the problem. -/
def Every (P : ProofIntegerExpression V → Prop) (p : ProofIntegerProblem V) : Prop :=
  (∀ e ∈ p.inequalities, P e) ∧ ∀ d ∈ p.divisibilities, P d.expression

/-- The moduli are positive. -/
def Positive (p : ProofIntegerProblem V) : Prop := ∀ d ∈ p.divisibilities, 0 < d.modulus

omit [LinearOrder V] in
lemma Every.mono {P Q : ProofIntegerExpression V → Prop} (h : p.Every P) (hPQ : ∀ e, P e → Q e) :
    p.Every Q :=
  ⟨fun e he => hPQ e (h.1 e he), fun d hd => hPQ d.expression (h.2 d hd)⟩

lemma Every.substitute {P Q : ProofIntegerExpression V → Prop} {value : ProofIntegerExpression V}
    (h : p.Every P) (hPQ : ∀ e, P e → Q (e.substitute v value)) : (p.substitute v value).Every Q := by
  refine ⟨fun e he => ?_, fun d hd => ?_⟩
  · obtain ⟨e', he', rfl⟩ := List.mem_map.1 he
    exact hPQ e' (h.1 e' he')
  · obtain ⟨d', hd', rfl⟩ := List.mem_map.1 hd
    exact hPQ d'.expression (h.2 d' hd')

lemma holds_substitute (h : p.Every ProofIntegerExpression.Canonical)
    {value : ProofIntegerExpression V} :
    (p.substitute v value).Holds x ↔ p.Holds (Function.update x v (value.evaluate x)) := by
  simp only [Holds, ProofIntegerProblem.substitute, List.forall_mem_map,
    ProofDivisibilityConstraint.Holds]
  refine and_congr (forall₂_congr fun e he => ?_) (forall₂_congr fun d hd => ?_)
  · rw [ProofIntegerExpression.evaluate_substitute (h.1 e he)]
  · rw [ProofIntegerExpression.evaluate_substitute (h.2 d hd)]

/-! ### Simplification -/

omit [LinearOrder V] in
lemma dvd_foldl_gcd {entries : List (V × ℤ)} {start g : ℤ}
    (h : entries.foldl (fun result entry => proofIntegerGcd result entry.2) start = g) :
    g ∣ start ∧ ∀ entry ∈ entries, g ∣ entry.2 := by
  induction entries generalizing start with
  | nil => exact ⟨h ▸ dvd_rfl, by simp⟩
  | cons entry rest ih =>
    obtain ⟨hstart, hrest⟩ := ih h
    refine ⟨hstart.trans (Int.gcd_dvd_left ..), fun entry' hm => ?_⟩
    rcases List.mem_cons.1 hm with rfl | hm
    · exact hstart.trans (Int.gcd_dvd_right ..)
    · exact hrest entry' hm

omit [LinearOrder V] in
/-- A map all of whose values are divided by a common divisor. -/
lemma weightedSum_tdiv {entries : List (V × ℤ)} {g : ℤ} (h : ∀ entry ∈ entries, g ∣ entry.2) :
    weightedSum x (entries.map fun entry => (entry.1, entry.2.tdiv g)) * g = weightedSum x entries := by
  induction entries with
  | nil => simp
  | cons entry rest ih =>
    rw [List.map_cons, weightedSum_cons, weightedSum_cons, add_mul,
      ih fun e he => h e (List.mem_cons_of_mem entry he), mul_right_comm,
      Int.tdiv_mul_cancel (h entry List.mem_cons_self)]

/-- The map divided by a common divisor is canonical again, with the same variables. -/
lemma canonical_tdiv {e : ProofIntegerExpression V} {g : ℤ} (h : e.Canonical)
    (hg : ∀ entry ∈ e.coefficients, g ∣ entry.2) (constant : ℤ) :
    (⟨constant, e.coefficients.map fun entry => (entry.1, entry.2.tdiv g)⟩ :
      ProofIntegerExpression V).Canonical := by
  refine ⟨List.pairwise_map.2 h.ordered, fun entry hm => ?_⟩
  obtain ⟨entry', hm', rfl⟩ := List.mem_map.1 hm
  intro hzero
  have hne := h.nonzero entry' hm'
  rw [← Int.tdiv_mul_cancel (hg entry' hm')] at hne
  dsimp only at hzero
  rw [hzero, zero_mul] at hne
  exact hne rfl

omit [LinearOrder V] in
/-- The division by the common divisor keeps the inequality, since its value is an integer. -/
lemma tighten_lt_iff (e : ProofIntegerExpression V) : (tighten e).evaluate x < 0 ↔ e.evaluate x < 0 := by
  rw [tighten]
  generalize hg : e.coefficients.foldl (fun result entry => proofIntegerGcd result entry.2) 0 = g
  split
  · next hlt =>
    have hsum := weightedSum_tdiv (x := x) (dvd_foldl_gcd hg).2
    have hpos : (0 : ℚ) < g := by exact_mod_cast (by omega : 0 < g)
    rw [ProofIntegerExpression.evaluate, ProofIntegerExpression.evaluate, ← hsum,
      ← lt_neg_iff_add_neg, Int.floor_lt, div_lt_iff₀ hpos, ← Int.cast_mul, Int.cast_lt]
    dsimp only
    rw [neg_mul, lt_neg_iff_add_neg]
  · exact Iff.rfl

lemma tighten_canonical {e : ProofIntegerExpression V} (h : e.Canonical) : (tighten e).Canonical := by
  rw [tighten]
  generalize hg : e.coefficients.foldl (fun result entry => proofIntegerGcd result entry.2) 0 = g
  split
  · exact canonical_tdiv h (dvd_foldl_gcd hg).2 _
  · exact h

omit [LinearOrder V] in
lemma tighten_over {e : ProofIntegerExpression V} (h : e.Over vars) : (tighten e).Over vars := by
  rw [tighten]
  split
  · intro entry hm
    obtain ⟨entry', hm', rfl⟩ := List.mem_map.1 hm
    exact h entry' hm'
  · exact h

omit [LinearOrder V] in
/-- Inequalities without variables are decided, the others kept. -/
lemma keepInequalities_spec (items : List (ProofIntegerExpression V)) :
    Sifted (fun e (x : V → ℤ) => e.evaluate x < 0)
      (fun e e' => tighten e = e' ∧ e'.coefficients ≠ []) items (keepInequalities items) := by
  induction items with
  | nil => exact .nil
  | cons e rest ih =>
    rw [keepInequalities]
    by_cases hconstant : (tighten e).coefficients = []
    · have hvalue (x : V → ℤ) : e.evaluate x < 0 ↔ (tighten e).constant < 0 := by
        rw [← tighten_lt_iff, ProofIntegerExpression.evaluate, hconstant, weightedSum_nil, add_zero]
      rw [if_pos hconstant]
      by_cases hneg : (tighten e).constant < 0
      · rw [if_pos hneg]
        exact ih.skip fun x => (hvalue x).2 hneg
      · rw [if_neg hneg]
        exact .fail fun x hx => hneg ((hvalue x).1 hx)
    · rw [if_neg hconstant]
      exact ih.keep (fun x => tighten_lt_iff e) ⟨rfl, hconstant⟩

/-- The division by a common divisor of the modulus keeps the divisibility. -/
lemma reduceDivisibility_spec {d : ProofDivisibilityConstraint V}
    {reduced : Option (ProofDivisibilityConstraint V)} (h : reduceDivisibility d = .ok reduced) :
    match reduced with
    | none => ∀ x, ¬ d.Holds x
    | some r => (∀ x, r.Holds x ↔ d.Holds x) ∧ 0 < r.modulus ∧
        (d.expression.Canonical → r.expression.Canonical) ∧
        ∀ vars, d.expression.Over vars → r.expression.Over vars := by
  rw [reduceDivisibility] at h
  generalize hg : d.expression.coefficients.foldl
    (fun result entry => proofIntegerGcd result entry.2) |d.modulus| = g at h
  obtain ⟨hmodulus, hentries⟩ := dvd_foldl_gcd hg
  dsimp only at h
  split at h
  · cases h
  next hne =>
  have hpos : 0 < |d.modulus| := lt_of_le_of_ne (abs_nonneg _) (Ne.symm hne)
  have hsum (x : V → ℤ) := weightedSum_tdiv (x := x) hentries
  split at h
  · next hconstant =>
    cases h
    intro x hx
    have hg : g ∣ d.expression.evaluate x := hmodulus.trans ((abs_dvd _ _).2 hx)
    rw [ProofIntegerExpression.evaluate, ← hsum x] at hg
    exact hconstant (Int.tmod_eq_zero_of_dvd ((Int.dvd_add_left (dvd_mul_left _ _)).1 hg))
  next hconstant =>
  have hconstant : g ∣ d.expression.constant := Int.dvd_of_tmod_eq_zero (not_not.1 hconstant)
  split at h
  · next hlt =>
    cases h
    have hg0 : 0 < g := by omega
    refine ⟨fun x => ?_, ?_, fun hc => canonical_tdiv hc hentries _, fun vars hvars entry hm => ?_⟩
    · rw [ProofDivisibilityConstraint.Holds, ProofDivisibilityConstraint.Holds,
        ← mul_dvd_mul_iff_right hg0.ne', Int.tdiv_mul_cancel hmodulus, abs_dvd,
        ProofIntegerExpression.evaluate, ProofIntegerExpression.evaluate, add_mul, hsum,
        Int.tdiv_mul_cancel hconstant]
    · refine pos_of_mul_pos_left ?_ hg0.le
      dsimp only
      rwa [Int.tdiv_mul_cancel hmodulus]
    · obtain ⟨entry', hm', rfl⟩ := List.mem_map.1 hm
      exact hvars entry' hm'
  · cases h
    refine ⟨fun x => ?_, hpos, id, fun vars => id⟩
    rw [ProofDivisibilityConstraint.Holds, abs_dvd]
    rfl

/-- Divisibilities without variables are decided, the others kept. -/
lemma keepDivisibilities_spec {items : List (ProofDivisibilityConstraint V)}
    {kept : Option (List (ProofDivisibilityConstraint V))} (h : keepDivisibilities items = .ok kept) :
    Sifted ProofDivisibilityConstraint.Holds (fun d r => reduceDivisibility d = .ok (some r) ∧
      r.expression.coefficients ≠ []) items kept := by
  induction items generalizing kept with
  | nil =>
    cases h
    exact .nil
  | cons d rest ih =>
    rw [keepDivisibilities] at h
    split at h
    · cases h
    · next hreduced =>
      cases h
      exact .fail (reduceDivisibility_spec hreduced)
    next r hreduced =>
    obtain ⟨hholds, -, -, -⟩ := reduceDivisibility_spec hreduced
    split at h
    · next hone =>
      refine (ih h).skip fun x => (hholds x).1 ?_
      rw [ProofDivisibilityConstraint.Holds, hone]
      exact one_dvd _
    split at h
    · next hconstant =>
      have hvalue (x : V → ℤ) : d.Holds x ↔ r.expression.constant.tmod r.modulus = 0 := by
        rw [← hholds x, ProofDivisibilityConstraint.Holds, ProofIntegerExpression.evaluate, hconstant,
          weightedSum_nil, add_zero, Int.dvd_iff_tmod_eq_zero]
      split at h
      · next hno =>
        cases h
        exact .fail fun x hx => hno ((hvalue x).1 hx)
      · next hyes => exact (ih h).skip fun x => (hvalue x).2 (not_not.1 hyes)
    next hvariable =>
    cases hkept : keepDivisibilities rest with
    | error e =>
      rw [hkept] at h
      cases h
    | ok kept' =>
      rw [hkept] at h
      cases h
      exact (ih hkept).keep hholds ⟨hreduced, hvariable⟩

/-- A simplified problem: all its expressions have variables. -/
structure Simplified (p q : ProofIntegerProblem V) : Prop where
  holds : ∀ x, q.Holds x ↔ p.Holds x
  proper : q.Every fun e => e.coefficients ≠ []
  positive : q.Positive
  canonical : p.Every ProofIntegerExpression.Canonical → q.Every ProofIntegerExpression.Canonical
  within : ∀ vars, p.Every (ProofIntegerExpression.Over vars) → q.Every (ProofIntegerExpression.Over vars)

lemma simplify_spec (p : ProofIntegerProblem V) : Yields p.simplify fun r =>
    match r with
    | none => ∀ x, ¬ p.Holds x
    | some q => Simplified p q := by
  refine yields_spend_bind _ ?_
  have hineqs := keepInequalities_spec p.inequalities
  cases hineq : keepInequalities p.inequalities with
  | none =>
    rw [hineq] at hineqs
    exact yields_pure fun x hx => hineqs x hx.1
  | some inequalities =>
    rw [hineq] at hineqs
    refine yields_bind (yields_lift (P := fun r => keepDivisibilities p.divisibilities = .ok r)
      fun r hr => hr) fun r hr => yields_pure ?_
    have hdivs := keepDivisibilities_spec hr
    cases r with
    | none => exact fun x hx => hdivs x hx.2
    | some divisibilities =>
      have hfrom (e : ProofIntegerExpression V) (he : e ∈ sortedSet ProofIntegerExpression.key
          inequalities) := hineqs.2 e (mem_sortedSet.1 he)
      have hfrom' (d : ProofDivisibilityConstraint V) (hd : d ∈ sortedSet
          ProofDivisibilityConstraint.key divisibilities) := hdivs.2 d (mem_sortedSet.1 hd)
      refine ⟨fun x => ?_, ⟨fun e he => ?_, fun d hd => ?_⟩, fun d hd => ?_,
        fun hc => ⟨fun e he => ?_, fun d hd => ?_⟩, fun vars hvars => ⟨fun e he => ?_, fun d hd => ?_⟩⟩
      · rw [Holds, Holds, ← hineqs.1 x, ← hdivs.1 x]
        simp only [mem_sortedSet]
      · obtain ⟨-, -, -, hne⟩ := hfrom e he
        exact hne
      · obtain ⟨-, -, -, hne⟩ := hfrom' d hd
        exact hne
      · obtain ⟨d', -, heq, -⟩ := hfrom' d hd
        exact (reduceDivisibility_spec heq).2.1
      · obtain ⟨e', he', rfl, -⟩ := hfrom e he
        exact tighten_canonical (hc.1 e' he')
      · obtain ⟨d', hd', heq, -⟩ := hfrom' d hd
        exact (reduceDivisibility_spec heq).2.2.1 (hc.2 d' hd')
      · obtain ⟨e', he', rfl, -⟩ := hfrom e he
        exact tighten_over (hvars.1 e' he')
      · obtain ⟨d', hd', heq, -⟩ := hfrom' d hd
        exact (reduceDivisibility_spec heq).2.2.2 vars (hvars.2 d' hd')

/-! ### The elimination of a variable -/

lemma dvd_proofIntegerLcm (left right : ℤ) :
    left ∣ proofIntegerLcm left right ∧ right ∣ proofIntegerLcm left right := by
  rw [proofIntegerLcm]
  split
  · exact ⟨dvd_zero _, dvd_zero _⟩
  · have hleft : proofIntegerGcd left right ∣ left := Int.gcd_dvd_left ..
    have hright : proofIntegerGcd left right ∣ right := Int.gcd_dvd_right ..
    refine ⟨(dvd_abs _ _).2 ?_, (dvd_abs _ _).2 (dvd_mul_left _ _)⟩
    obtain ⟨k, hk⟩ := hright
    refine ⟨k, ?_⟩
    calc left.tdiv (proofIntegerGcd left right) * right
        = left.tdiv (proofIntegerGcd left right) * (proofIntegerGcd left right * k) :=
          congrArg _ hk
      _ = left * k := by rw [← mul_assoc, Int.tdiv_mul_cancel hleft]

lemma proofIntegerLcm_pos {left right : ℤ} (hl : 0 < left) (hr : 0 < right) :
    0 < proofIntegerLcm left right := by
  rw [proofIntegerLcm, if_neg (by omega), abs_pos]
  refine mul_ne_zero (fun hzero => ?_) hr.ne'
  have hleft : proofIntegerGcd left right ∣ left := Int.gcd_dvd_left ..
  rw [← Int.tdiv_mul_cancel hleft, hzero, zero_mul] at hl
  exact lt_irrefl 0 hl

/-- The least common multiple of positive numbers is positive, and all of them divide it. -/
lemma foldl_proofIntegerLcm {α : Type*} {f : α → ℤ} {items : List α} {start : ℤ}
    (hpos : ∀ a ∈ items, 0 < f a) (hstart : 0 < start) :
    0 < items.foldl (fun result a => proofIntegerLcm result (f a)) start ∧
      start ∣ items.foldl (fun result a => proofIntegerLcm result (f a)) start ∧
      ∀ a ∈ items, f a ∣ items.foldl (fun result a => proofIntegerLcm result (f a)) start := by
  induction items generalizing start with
  | nil => exact ⟨hstart, dvd_rfl, by simp⟩
  | cons a rest ih =>
    obtain ⟨h0, h1, h2⟩ := ih (fun a' ha' => hpos a' (List.mem_cons_of_mem a ha'))
      (proofIntegerLcm_pos hstart (hpos a List.mem_cons_self))
    obtain ⟨hd, hd'⟩ := dvd_proofIntegerLcm start (f a)
    refine ⟨h0, hd.trans h1, fun a' ha' => ?_⟩
    rcases List.mem_cons.1 ha' with rfl | ha'
    · exact hd'.trans h1
    · exact h2 a' ha'

/-- The unit of a scaled variable is a common multiple of its coefficients. -/
lemma scaleOf_spec (p : ProofIntegerProblem V) (v : V) :
    0 < p.scaleOf v ∧ (∀ e ∈ p.inequalities, e.coefficient v ≠ 0 → e.coefficient v ∣ p.scaleOf v) ∧
      ∀ d ∈ p.divisibilities, d.expression.coefficient v ≠ 0 →
        d.expression.coefficient v ∣ p.scaleOf v := by
  have hpos : ∀ a ∈ p.coefficientsOf v, 0 < |a| := fun a ha =>
    abs_pos.2 (of_decide_eq_true (List.mem_filter.1 ha).2)
  obtain ⟨h0, -, hdvd⟩ := foldl_proofIntegerLcm hpos one_pos
  refine ⟨h0, fun e he hne => (abs_dvd _ _).1 (hdvd _ ?_), fun d hd hne => (abs_dvd _ _).1 (hdvd _ ?_)⟩
  · exact List.mem_filter.2
      ⟨List.mem_append_left _ (List.mem_map.2 ⟨e, he, rfl⟩), decide_eq_true hne⟩
  · exact List.mem_filter.2
      ⟨List.mem_append_right _ (List.mem_map.2 ⟨d, hd, rfl⟩), decide_eq_true hne⟩

section

variable {e : ProofIntegerExpression V} {scale : ℤ}

lemma tdiv_abs_mul {a : ℤ} (h : a ∣ scale) : scale.tdiv |a| * |a| = scale :=
  Int.tdiv_mul_cancel ((abs_dvd _ _).2 h)

lemma tdiv_abs_pos {a : ℤ} (hscale : 0 < scale) (h : a ∣ scale) : 0 < scale.tdiv |a| :=
  pos_of_mul_pos_left (by rwa [tdiv_abs_mul h]) (abs_nonneg a)

/-- What is scaled has unit coefficient. -/
def unitOf (e : ProofIntegerExpression V) (v : V) : ℤ := if 0 < e.coefficient v then 1 else -1

lemma unitOf_mul_abs (h : e.coefficient v ≠ 0) : unitOf e v * |e.coefficient v| = e.coefficient v := by
  rw [unitOf]
  split
  · next hpos => rw [abs_of_pos hpos, one_mul]
  · next hneg => rw [abs_of_neg (by omega), neg_one_mul, neg_neg]

lemma mem_normalizeExpression {entry : V × ℤ}
    (h : entry ∈ (normalizeExpression v scale e).coefficients) :
    entry = (v, unitOf e v) ∨ ∃ entry' ∈ (e.without v).coefficients, entry.1 = entry'.1 :=
  (mem_insertEntry h).imp_right ProofIntegerExpression.mem_scaled

lemma normalizeExpression_canonical (h : e.Canonical) :
    (normalizeExpression v scale e).Canonical := by
  have hscaled := (h.without v).scaled (scale.tdiv |e.coefficient v|)
  refine ⟨hscaled.ordered.insertEntry, fun entry hm => ?_⟩
  rcases mem_insertEntry hm with rfl | hm
  · dsimp only
    split <;> decide
  · exact hscaled.nonzero entry hm

/-- The variable occurs with its unit, and the rest is scaled. -/
lemma evaluate_normalizeExpression (h : e.Canonical) :
    (normalizeExpression v scale e).evaluate x =
      unitOf e v * x v + (e.without v).evaluate x * scale.tdiv |e.coefficient v| := by
  have hscaled := (h.without v).scaled (scale.tdiv |e.coefficient v|)
  have hzero : coefficientOf ((e.without v).scaled (scale.tdiv |e.coefficient v|)).coefficients v =
      0 := by
    refine coefficientOf_of_notMem fun entry hm => ?_
    obtain ⟨entry', hm', heq⟩ := ProofIntegerExpression.mem_scaled hm
    exact heq ▸ (ProofIntegerExpression.mem_without hm').2
  have hsum : weightedSum x (insertEntry v (unitOf e v) _) = _ :=
    weightedSum_insertEntry hscaled.ordered
  have hvalue := ProofIntegerExpression.evaluate_scaled (e := e.without v) (x := x)
    (scale.tdiv |e.coefficient v|)
  rw [ProofIntegerExpression.evaluate] at hvalue ⊢
  rw [hzero, sub_zero] at hsum
  rw [← hvalue, normalizeExpression]
  dsimp only
  rw [unitOf] at hsum
  rw [hsum, unitOf]
  ring

lemma without_normalizeExpression (h : e.Canonical) :
    ((normalizeExpression v scale e).without v).evaluate x =
      (e.without v).evaluate x * scale.tdiv |e.coefficient v| := by
  have hcanonical : (normalizeExpression v scale e).Canonical := normalizeExpression_canonical h
  have hrest := ProofIntegerExpression.evaluate_update_of_notMem (x := x)
    (fun entry (hm : entry ∈ (e.without v).coefficients) => (ProofIntegerExpression.mem_without hm).2) 0
  have hsplit := ProofIntegerExpression.evaluate_update (x := x) (v := v) hcanonical 0
  rw [evaluate_normalizeExpression h, Function.update_self, hrest, mul_zero, mul_zero, zero_add,
    zero_add] at hsplit
  exact hsplit.symm

/-- An expression at a value of the variable is scaled to the normalized expression at the scaled
value. -/
lemma normalizeExpression_update (h : e.Canonical) (hne : e.coefficient v ≠ 0)
    (hdvd : e.coefficient v ∣ scale) :
    (normalizeExpression v scale e).evaluate (Function.update x v (scale * x v)) =
      e.evaluate x * scale.tdiv |e.coefficient v| := by
  rw [evaluate_normalizeExpression h, Function.update_self,
    ProofIntegerExpression.evaluate_update_of_notMem fun entry hm =>
      (ProofIntegerExpression.mem_without hm).2, ProofIntegerExpression.evaluate_eq h v x]
  have hunit := unitOf_mul_abs hne
  have hscale := tdiv_abs_mul hdvd
  generalize scale.tdiv |e.coefficient v| = q at hscale ⊢
  subst hscale
  linear_combination q * x v * hunit

end

/-- The expressions of the normalized problem are canonical. -/
lemma cooperElimination_canonical (h : p.Every ProofIntegerExpression.Canonical) (v : V) :
    (p.cooperElimination v).normalized.Every ProofIntegerExpression.Canonical := by
  refine ⟨fun e he => ?_, fun d hd => ?_⟩
  · obtain ⟨e', he', rfl⟩ := List.mem_map.1 he
    split
    · exact h.1 e' he'
    · exact normalizeExpression_canonical (h.1 e' he')
  · rcases List.mem_append.1 hd with hd | hd
    · obtain ⟨d', hd', rfl⟩ := List.mem_map.1 hd
      split
      · exact h.2 d' hd'
      · exact normalizeExpression_canonical (h.2 d' hd')
    · rw [List.mem_singleton.1 hd]
      exact ⟨List.pairwise_singleton _ _, by simp [ProofIntegerExpression.ofVariable]⟩

lemma normalizeExpression_over {e : ProofIntegerExpression V} {scale : ℤ} (h : e.Over vars)
    (hv : v ∈ vars) : (normalizeExpression v scale e).Over vars := by
  intro entry hm
  rcases mem_normalizeExpression hm with rfl | ⟨entry', hm', heq⟩
  · exact hv
  · exact heq ▸ h entry' (ProofIntegerExpression.mem_without hm').1

lemma cooperElimination_over (h : p.Every (ProofIntegerExpression.Over vars)) (hv : v ∈ vars) :
    (p.cooperElimination v).normalized.Every (ProofIntegerExpression.Over vars) := by
  refine ⟨fun e he => ?_, fun d hd => ?_⟩
  · obtain ⟨e', he', rfl⟩ := List.mem_map.1 he
    split
    · exact h.1 e' he'
    · exact normalizeExpression_over (h.1 e' he') hv
  · rcases List.mem_append.1 hd with hd | hd
    · obtain ⟨d', hd', rfl⟩ := List.mem_map.1 hd
      split
      · exact h.2 d' hd'
      · exact normalizeExpression_over (h.2 d' hd') hv
    · rw [List.mem_singleton.1 hd]
      intro entry hm
      rw [List.mem_singleton.1 hm]
      exact hv

/-- The moduli of the normalized problem are positive and divide the period. -/
lemma cooperElimination_period (h : p.Positive) (v : V) :
    0 < (p.cooperElimination v).period ∧ ∀ d ∈ (p.cooperElimination v).normalized.divisibilities,
      d.modulus ∣ (p.cooperElimination v).period := by
  obtain ⟨hscale, -, hdvd⟩ := scaleOf_spec p v
  have hpos : ∀ d ∈ (p.cooperElimination v).normalized.divisibilities, 0 < d.modulus := by
    intro d hd
    rcases List.mem_append.1 hd with hd | hd
    · obtain ⟨d', hd', rfl⟩ := List.mem_map.1 hd
      split
      · exact h d' hd'
      · next hne => exact mul_pos (h d' hd') (tdiv_abs_pos hscale (hdvd d' hd' hne))
    · rw [List.mem_singleton.1 hd]
      exact hscale
  obtain ⟨h0, -, hall⟩ := foldl_proofIntegerLcm hpos one_pos
  exact ⟨h0, hall⟩

/-- The solutions of the normalized problem are those of the problem with the variable scaled. -/
lemma cooperElimination_holds (h : p.Every ProofIntegerExpression.Canonical) (x : V → ℤ) (v : V) :
    (p.cooperElimination v).normalized.Holds (Function.update x v (p.scaleOf v * x v)) ↔
      p.Holds x := by
  obtain ⟨hscale, hineq, hdiv⟩ := scaleOf_spec p v
  have hconstant {e : ProofIntegerExpression V} (he : e.Canonical) (hzero : e.coefficient v = 0) :
      e.evaluate (Function.update x v (p.scaleOf v * x v)) = e.evaluate x :=
    ProofIntegerExpression.evaluate_update_of_notMem
      ((ProofIntegerExpression.coefficient_eq_zero_iff he).1 hzero) _
  rw [Holds, Holds]
  refine and_congr ?_ ?_
  · simp only [cooperElimination, List.forall_mem_map]
    refine forall₂_congr fun e he => ?_
    split
    · next hzero => rw [hconstant (h.1 e he) hzero]
    · next hne =>
      rw [normalizeExpression_update (h.1 e he) hne (hineq e he hne)]
      exact mul_neg_iff.trans (by simp [tdiv_abs_pos hscale (hineq e he hne),
        (tdiv_abs_pos hscale (hineq e he hne)).not_gt])
  · simp only [cooperElimination, List.forall_mem_append, List.forall_mem_map, List.forall_mem_singleton]
    have hself : (⟨p.scaleOf v, .ofVariable v⟩ : ProofDivisibilityConstraint V).Holds
        (Function.update x v (p.scaleOf v * x v)) := by
      simp [ProofDivisibilityConstraint.Holds, ProofIntegerExpression.evaluate,
        ProofIntegerExpression.ofVariable]
    rw [and_iff_left hself]
    refine forall₂_congr fun d hd => ?_
    split
    · next hzero =>
      rw [ProofDivisibilityConstraint.Holds, ProofDivisibilityConstraint.Holds,
        hconstant (h.2 d hd) hzero]
    · next hne =>
      rw [ProofDivisibilityConstraint.Holds, ProofDivisibilityConstraint.Holds]
      dsimp only
      rw [normalizeExpression_update (h.2 d hd) hne (hdiv d hd hne)]
      exact mul_dvd_mul_iff_right (tdiv_abs_pos hscale (hdiv d hd hne)).ne'

/-- The normalized problem has a solution exactly when the problem has one. -/
lemma cooperElimination_solvable (h : p.Every ProofIntegerExpression.Canonical) (v : V) :
    (∃ x, (p.cooperElimination v).normalized.Holds x) ↔ ∃ x, p.Holds x := by
  constructor
  · rintro ⟨x, hx⟩
    have hdvd : p.scaleOf v ∣ x v := by
      have := hx.2 ⟨p.scaleOf v, .ofVariable v⟩ (List.mem_append_right _ (List.mem_singleton_self _))
      simpa [ProofDivisibilityConstraint.Holds, ProofIntegerExpression.evaluate,
        ProofIntegerExpression.ofVariable] using this
    obtain ⟨y, hy⟩ := hdvd
    refine ⟨Function.update x v y, (cooperElimination_holds h _ v).1 ?_⟩
    rwa [Function.update_self, Function.update_idem, ← hy, Function.update_eq_self]
  · rintro ⟨x, hx⟩
    exact ⟨_, (cooperElimination_holds h x v).2 hx⟩

/-! ### Candidates -/

/-- The values that are tried for the scaled variable. -/
def Candidate (E : ProofCooperElimination V) (candidate : ProofIntegerExpression V) : Prop :=
  if E.lowerBases ≠ [] then
    ∃ base ∈ E.lowerBases, ∃ j : ℤ, 1 ≤ j ∧ j < 1 + E.period.toNat ∧ base.shifted j = candidate
  else if E.upperBases ≠ [] then
    ∃ base ∈ E.upperBases, ∃ j : ℤ, 1 ≤ j ∧ j < 1 + E.period.toNat ∧ base.shifted (-j) = candidate
  else ∃ j : ℤ, 0 ≤ j ∧ j < 0 + E.period.toNat ∧ ⟨j, []⟩ = candidate

omit [LinearOrder V] in
lemma anyCandidate_spec {E : ProofCooperElimination V}
    {attempt : ProofIntegerExpression V → IntegerProof Bool} {Q : ProofIntegerExpression V → Prop}
    (h : ∀ candidate, Candidate E candidate →
      Yields (attempt candidate) fun b => b = true ↔ Q candidate) :
    Yields (anyCandidate E attempt) fun b => b = true ↔ ∃ candidate, Candidate E candidate ∧ Q candidate := by
  rw [anyCandidate]
  by_cases hlower : E.lowerBases ≠ []
  · simp only [Candidate, if_pos hlower] at h ⊢
    have htry := yields_anyM fun base hbase => yields_anyOffset
      fun j h1 h2 => h _ ⟨base, hbase, j, h1, h2, rfl⟩
    refine fun budget b left hrun => (htry budget b left hrun).trans ?_
    constructor
    · rintro ⟨base, hbase, j, h1, h2, hQ⟩
      exact ⟨_, ⟨base, hbase, j, h1, h2, rfl⟩, hQ⟩
    · rintro ⟨_, ⟨base, hbase, j, h1, h2, rfl⟩, hQ⟩
      exact ⟨base, hbase, j, h1, h2, hQ⟩
  by_cases hupper : E.upperBases ≠ []
  · simp only [Candidate, if_neg hlower, if_pos hupper] at h ⊢
    have htry := yields_anyM fun base hbase => yields_anyOffset
      fun j h1 h2 => h _ ⟨base, hbase, j, h1, h2, rfl⟩
    refine fun budget b left hrun => (htry budget b left hrun).trans ?_
    constructor
    · rintro ⟨base, hbase, j, h1, h2, hQ⟩
      exact ⟨_, ⟨base, hbase, j, h1, h2, rfl⟩, hQ⟩
    · rintro ⟨_, ⟨base, hbase, j, h1, h2, rfl⟩, hQ⟩
      exact ⟨base, hbase, j, h1, h2, hQ⟩
  · simp only [Candidate, if_neg hlower, if_neg hupper] at h ⊢
    have htry := yields_anyOffset fun j h1 h2 => h _ ⟨j, h1, h2, rfl⟩
    refine fun budget b left hrun => (htry budget b left hrun).trans ?_
    constructor
    · rintro ⟨j, h1, h2, hQ⟩
      exact ⟨_, ⟨j, h1, h2, rfl⟩, hQ⟩
    · rintro ⟨_, ⟨j, h1, h2, rfl⟩, hQ⟩
      exact ⟨j, h1, h2, hQ⟩

/-- The bounds of the normalized problem on the scaled variable, the others being given. -/
lemma cooperElimination_update (h : p.Every ProofIntegerExpression.Canonical) (x : V → ℤ) (v : V)
    (t : ℤ) : (p.cooperElimination v).normalized.Holds (Function.update x v t) ↔
      (∀ e ∈ p.inequalities, e.coefficient v = 0 → e.evaluate x < 0) ∧
        Between ((p.cooperElimination v).lowerBases.map fun e => e.evaluate x)
          ((p.cooperElimination v).upperBases.map fun e => e.evaluate x) t ∧
        ∀ d ∈ (p.cooperElimination v).normalized.divisibilities, d.Holds (Function.update x v t) := by
  have hvalue {e : ProofIntegerExpression V} (he : e.Canonical) :
      (normalizeExpression v (p.scaleOf v) e).evaluate (Function.update x v t) =
        unitOf e v * t + ((normalizeExpression v (p.scaleOf v) e).without v).evaluate x := by
    rw [evaluate_normalizeExpression he, without_normalizeExpression he, Function.update_self,
      ProofIntegerExpression.evaluate_update_of_notMem fun entry hm =>
        (ProofIntegerExpression.mem_without hm).2]
  have hnegated (e : ProofIntegerExpression V) : e.negated.evaluate x = -e.evaluate x := by
    rw [ProofIntegerExpression.negated, ProofIntegerExpression.evaluate_scaled, mul_neg_one]
  rw [Holds, ← and_assoc]
  refine and_congr ?_ Iff.rfl
  simp only [cooperElimination, Between, List.forall_mem_map, List.mem_filter, decide_eq_true_eq,
    and_imp, hnegated]
  constructor
  · intro hx
    refine ⟨fun e he hzero => ?_, fun e he hneg => ?_, fun e he hpos => ?_⟩
    · have hlt := hx e he
      rwa [if_pos hzero, ProofIntegerExpression.evaluate_update_of_notMem
        ((ProofIntegerExpression.coefficient_eq_zero_iff (h.1 e he)).1 hzero)] at hlt
    · have hlt := hx e he
      rw [if_neg hneg.ne, hvalue (h.1 e he), unitOf, if_neg hneg.not_gt] at hlt
      omega
    · have hlt := hx e he
      rw [if_neg hpos.ne', hvalue (h.1 e he), unitOf, if_pos hpos] at hlt
      omega
  · rintro ⟨hzero, hlower, hupper⟩ e he
    rcases lt_trichotomy (e.coefficient v) 0 with hneg | h0 | hpos
    · have hlt := hlower e he hneg
      rw [if_neg hneg.ne, hvalue (h.1 e he), unitOf, if_neg hneg.not_gt]
      omega
    · rw [if_pos h0, ProofIntegerExpression.evaluate_update_of_notMem
        ((ProofIntegerExpression.coefficient_eq_zero_iff (h.1 e he)).1 h0)]
      exact hzero e he h0
    · have hlt := hupper e he hpos
      rw [if_neg hpos.ne', hvalue (h.1 e he), unitOf, if_pos hpos]
      omega

/-- The divisibilities repeat with the period. -/
lemma cooperElimination_repeats (h : p.Every ProofIntegerExpression.Canonical) (hpos : p.Positive)
    (x : V → ℤ) (v : V) : Repeats (fun t => ∀ d ∈ (p.cooperElimination v).normalized.divisibilities,
      d.Holds (Function.update x v t)) (p.cooperElimination v).period := by
  intro t t' hdvd ht d hd
  have hcanonical := (cooperElimination_canonical h v).2 d hd
  have hmodulus := ((cooperElimination_period hpos v).2 d hd).trans hdvd
  have hholds := ht d hd
  rw [ProofDivisibilityConstraint.Holds, ProofIntegerExpression.evaluate_update hcanonical] at hholds ⊢
  have hsplit : d.expression.coefficient v * t' + (d.expression.without v).evaluate x =
      d.expression.coefficient v * t + (d.expression.without v).evaluate x -
        d.expression.coefficient v * (t - t') := by ring
  rw [hsplit]
  exact dvd_sub hholds (hmodulus.mul_left _)

omit [LinearOrder V] in
/-- A candidate gives the variable the value of its expression. -/
lemma evaluate_shifted (e : ProofIntegerExpression V) (j : ℤ) :
    (e.shifted j).evaluate x = e.evaluate x + j := by
  rw [ProofIntegerExpression.evaluate, ProofIntegerExpression.evaluate,
    ProofIntegerExpression.shifted]
  ring

/-- **The candidates suffice**: the normalized problem has a solution exactly when it has one with
one of the candidates in the place of the variable. -/
lemma cooperElimination_candidates (h : p.Every ProofIntegerExpression.Canonical)
    (hpos : p.Positive) (v : V) : (∃ x, (p.cooperElimination v).normalized.Holds x) ↔
      ∃ candidate, Candidate (p.cooperElimination v) candidate ∧
        ∃ x, ((p.cooperElimination v).normalized.substitute v candidate).Holds x := by
  have hcanonical := cooperElimination_canonical h v
  obtain ⟨hperiod, -⟩ := cooperElimination_period hpos v
  simp only [holds_substitute hcanonical]
  constructor
  · rintro ⟨x, hx⟩
    rw [← Function.update_eq_self v x, cooperElimination_update h] at hx
    obtain ⟨hzero, hbetween, hdivs⟩ := hx
    have hrepeats := cooperElimination_repeats h hpos x v
    set E := p.cooperElimination v with hE
    by_cases hlower : E.lowerBases ≠ []
    · obtain ⟨b, hb, j, h1, h2, hbounds, hd⟩ :=
        hbetween.near_lower hrepeats hperiod (by simpa using hlower) hdivs
      obtain ⟨base, hbase, rfl⟩ := List.mem_map.1 hb
      refine ⟨base.shifted j, ?_, x, ?_⟩
      · rw [Candidate, if_pos hlower]
        exact ⟨base, hbase, j, h1, by omega, rfl⟩
      · rw [evaluate_shifted, hE, cooperElimination_update h]
        exact ⟨hzero, hbounds, hd⟩
    by_cases hupper : E.upperBases ≠ []
    · obtain ⟨b, hb, j, h1, h2, hbounds, hd⟩ :=
        hbetween.near_upper hrepeats hperiod (by simpa using hupper) hdivs
      obtain ⟨base, hbase, rfl⟩ := List.mem_map.1 hb
      refine ⟨base.shifted (-j), ?_, x, ?_⟩
      · rw [Candidate, if_neg hlower, if_pos hupper]
        exact ⟨base, hbase, j, h1, by omega, rfl⟩
      · rw [evaluate_shifted, ← sub_eq_add_neg, hE, cooperElimination_update h]
        exact ⟨hzero, hbounds, hd⟩
    · obtain ⟨j, h1, h2, hd⟩ := hrepeats.exists_small hperiod hdivs
      refine ⟨⟨j, []⟩, ?_, x, ?_⟩
      · rw [Candidate, if_neg hlower, if_neg hupper]
        exact ⟨j, h1, by omega, rfl⟩
      · have hvalue : (⟨j, []⟩ : ProofIntegerExpression V).evaluate x = j := by
          rw [ProofIntegerExpression.evaluate, weightedSum_nil, add_zero]
        rw [hvalue, hE, cooperElimination_update h]
        refine ⟨hzero, ?_, hd⟩
        rw [not_not.1 hlower, not_not.1 hupper]
        exact ⟨by simp, by simp⟩
  · rintro ⟨candidate, -, x, hx⟩
    exact ⟨_, hx⟩

/-- The candidates do not mention the variable. -/
lemma candidate_over (h : p.Every (ProofIntegerExpression.Over vars))
    {candidate : ProofIntegerExpression V} (hcandidate : Candidate (p.cooperElimination v) candidate) :
    candidate.Over (vars.filter fun w => decide (w ≠ v)) := by
  have hbase {e : ProofIntegerExpression V} (he : e ∈ p.inequalities) :
      ((normalizeExpression v (p.scaleOf v) e).without v).Over
        (vars.filter fun w => decide (w ≠ v)) := by
    intro entry hm
    obtain ⟨hm, hne⟩ := ProofIntegerExpression.mem_without hm
    rcases mem_normalizeExpression hm with rfl | ⟨entry', hm', heq⟩
    · exact absurd rfl hne
    · rw [heq] at hne ⊢
      exact List.mem_filter.2
        ⟨h.1 e he entry' (ProofIntegerExpression.mem_without hm').1, decide_eq_true hne⟩
  rw [Candidate] at hcandidate
  split at hcandidate
  · obtain ⟨base, hb, j, -, -, rfl⟩ := hcandidate
    obtain ⟨e, he, rfl⟩ := List.mem_map.1 hb
    exact hbase (List.mem_filter.1 he).1
  split at hcandidate
  · obtain ⟨base, hb, j, -, -, rfl⟩ := hcandidate
    obtain ⟨e, he, rfl⟩ := List.mem_map.1 hb
    intro entry hm
    obtain ⟨entry', hm', heq⟩ := ProofIntegerExpression.mem_scaled hm
    exact heq ▸ hbase (List.mem_filter.1 he).1 entry' hm'
  · obtain ⟨j, -, -, rfl⟩ := hcandidate
    exact fun entry hm => absurd hm List.not_mem_nil

/-! ### The search -/

lemma chooseElimination_none (h : p.chooseElimination vars = none) : vars = [] :=
  List.argmin_eq_none.1 h

lemma chooseElimination_mem (h : p.chooseElimination vars = some v) : v ∈ vars :=
  List.argmin_mem h

/-- A simplified problem without variables has nothing left to hold. -/
lemma Simplified.solvable_of_nil (hs : Simplified p q)
    (hvars : p.Every (ProofIntegerExpression.Over [])) : ∃ x, p.Holds x := by
  have hnone {e : ProofIntegerExpression V} (h : e.Over []) (hne : e.coefficients ≠ []) : False :=
    hne (List.eq_nil_iff_forall_not_mem.2 fun entry hm => absurd (h entry hm) List.not_mem_nil)
  have hover := hs.within [] hvars
  exact ⟨fun _ => 0, (hs.holds _).1 ⟨fun e he => (hnone (hover.1 e he) (hs.proper.1 e he)).elim,
    fun d hd => (hnone (hover.2 d hd) (hs.proper.2 d hd)).elim⟩⟩

/-- A variable that is not mentioned can be left out. -/
lemma over_of_not_mentions (h : p.Every (ProofIntegerExpression.Over vars))
    (hno : p.mentions v = false) :
    p.Every (ProofIntegerExpression.Over (vars.filter fun w => decide (w ≠ v))) := by
  simp only [mentions, Bool.or_eq_false_iff, List.any_eq_false, decide_eq_true_eq, List.mem_map,
    not_exists, not_and] at hno
  refine ⟨fun e he entry hm => ?_, fun d hd entry hm => ?_⟩
  · exact List.mem_filter.2 ⟨h.1 e he entry hm, decide_eq_true (hno.1 e he entry hm)⟩
  · exact List.mem_filter.2 ⟨h.2 d hd entry hm, decide_eq_true (hno.2 d hd entry hm)⟩

lemma normalizeCooper_spec (p : ProofIntegerProblem V) (v : V) :
    Yields (p.normalizeCooper v) fun E => E = p.cooperElimination v := by
  refine yields_spend_bind _ ?_
  split
  · exact yields_throw
  · exact yields_pure rfl

/-- **The search decides the problem** whenever it ends within the budget. -/
theorem satisfiable_spec (depth : ℕ) (h : p.Every ProofIntegerExpression.Canonical)
    (hvars : p.Every (ProofIntegerExpression.Over vars)) (hdepth : vars.length ≤ depth) :
    Yields (satisfiable depth p vars) fun b => b = true ↔ ∃ x, p.Holds x := by
  induction depth generalizing p vars with
  | zero =>
    obtain rfl := List.length_eq_zero_iff.1 (Nat.le_zero.1 hdepth)
    rw [satisfiable]
    refine yields_spend_bind 1 (yields_bind (simplify_spec p) fun r hr => ?_)
    cases r with
    | none => exact yields_pure (by simpa using hr)
    | some q => exact yields_pure (iff_of_true rfl (hr.solvable_of_nil hvars))
  | succ depth ih =>
    rw [satisfiable]
    refine yields_spend_bind 1 (yields_bind (simplify_spec p) fun r hr => ?_)
    cases r with
    | none => exact yields_pure (by simpa using hr)
    | some q =>
      have hq := hr.canonical h
      have hover := hr.within vars hvars
      have hsolvable : (∃ x, p.Holds x) ↔ ∃ x, q.Holds x := by simp only [hr.holds]
      dsimp only
      cases hchoose : q.chooseElimination vars with
      | none =>
        obtain rfl := chooseElimination_none hchoose
        exact yields_pure (iff_of_true rfl (hr.solvable_of_nil hvars))
      | some v =>
        have hv := chooseElimination_mem hchoose
        have hshort : (vars.filter fun w => decide (w ≠ v)).length ≤ depth := by
          have hlt := (List.length_filter_lt_length_iff_exists
            (p := fun w => decide (w ≠ v))).2 ⟨v, hv, by simp⟩
          omega
        rw [hsolvable]
        dsimp only
        split
        · next hno => exact ih hq (over_of_not_mentions hover (by simpa using hno)) hshort
        · refine yields_bind (normalizeCooper_spec q v) fun E hE => ?_
          subst hE
          rw [← cooperElimination_solvable hq v, cooperElimination_candidates hq hr.positive v]
          refine anyCandidate_spec fun candidate hcandidate => ?_
          have hcanonical := cooperElimination_canonical hq v
          exact ih (hcanonical.substitute fun e he => he.substitute v candidate)
            ((cooperElimination_over hover hv).substitute fun e he =>
              he.substitute (candidate_over hover hcandidate)) hshort

end ProofIntegerProblem

/-! ### The decision -/

variable {constraints : List (ProofLinearConstraint V)} {b : Bool}

namespace ProofIntegerExpression

variable {e : ProofLinearExpression V} {e' : ProofIntegerExpression V}

omit [LinearOrder V] in
lemma fromLinear_eq (h : fromLinear e = some e') : (e'.constant : ℚ) = e.constant ∧
    (∀ entry ∈ e.coefficients, (entry.2.num : ℚ) = entry.2) ∧
      e'.coefficients = e.coefficients.map fun entry => (entry.1, entry.2.num) := by
  rw [fromLinear] at h
  split at h
  · cases h
  next hintegral =>
  cases h
  simp only [not_or, not_not, List.any_eq_true, decide_eq_true_eq, not_exists, not_and] at hintegral
  exact ⟨Rat.coe_int_num_of_den_eq_one hintegral.1,
    fun entry hm => Rat.coe_int_num_of_den_eq_one (hintegral.2 entry hm), rfl⟩

omit [LinearOrder V] in
/-- The integer expression of a linear one has its value. -/
lemma evaluate_fromLinear (h : fromLinear e = some e') (x : V → ℤ) :
    (e'.evaluate x : ℚ) = e.evaluate fun v => x v := by
  obtain ⟨hconstant, hintegral, hentries⟩ := fromLinear_eq h
  have hsum : ∀ entries : List (V × ℚ), (∀ entry ∈ entries, (entry.2.num : ℚ) = entry.2) →
      ((weightedSum x (entries.map fun entry => (entry.1, entry.2.num)) : ℤ) : ℚ) =
        weightedSum (fun v => (x v : ℚ)) entries := by
    intro entries
    induction entries with
    | nil => simp
    | cons entry rest ih =>
      intro hentries
      rw [List.map_cons, weightedSum_cons, weightedSum_cons, Int.cast_add, Int.cast_mul,
        ih fun entry' hm => hentries entry' (List.mem_cons_of_mem entry hm),
        hentries entry List.mem_cons_self]
  rw [evaluate, hentries, Int.cast_add, hconstant, hsum _ hintegral, ProofLinearExpression.evaluate]

lemma canonical_fromLinear (h : fromLinear e = some e') (he : e.Canonical) : e'.Canonical := by
  obtain ⟨-, -, hentries⟩ := fromLinear_eq h
  refine ⟨hentries ▸ List.pairwise_map.2 he.ordered, fun entry hm => ?_⟩
  rw [hentries] at hm
  obtain ⟨entry', hm', rfl⟩ := List.mem_map.1 hm
  exact Rat.num_ne_zero.2 (he.nonzero entry' hm')

end ProofIntegerExpression

/-- The inequalities hold of the integers that meet the constraints. -/
lemma proofInequalities_ok {inequalities : List (ProofIntegerExpression V)}
    (h : proofInequalities constraints = .ok inequalities) (hcanonical : CanonicalAll constraints) :
    (∀ e ∈ inequalities, e.Canonical) ∧ ∀ x : V → ℤ,
      (∀ e ∈ inequalities, e.evaluate x < 0) ↔ HoldAll constraints fun v => x v := by
  induction constraints generalizing inequalities with
  | nil =>
    cases h
    exact ⟨by simp, fun x => by simp [HoldAll]⟩
  | cons c rest ih =>
    rw [proofInequalities] at h
    split at h
    · cases h
    split at h
    · cases h
    next e he =>
    cases hrest : proofInequalities rest with
    | error err =>
      rw [hrest] at h
      cases h
    | ok later =>
      rw [hrest] at h
      cases h
      obtain ⟨hc, hholds⟩ := ih hrest fun d hd => hcanonical d (List.mem_cons_of_mem c hd)
      have hfirst := ProofIntegerExpression.canonical_fromLinear he
        (hcanonical c List.mem_cons_self)
      have hvalue (x : V → ℤ) := ProofIntegerExpression.evaluate_fromLinear he x
      refine ⟨List.forall_mem_cons.2 ⟨?_, hc⟩, fun x => ?_⟩
      · split
        · exact hfirst
        · exact ⟨hfirst.ordered, hfirst.nonzero⟩
      · rw [HoldAll, List.forall_mem_cons, List.forall_mem_cons, hholds x,
          ProofLinearConstraint.Holds, ← hvalue x]
        refine and_congr ?_ Iff.rfl
        split
        · exact Int.cast_lt_zero.symm
        · rw [ProofIntegerProblem.evaluate_shifted, Int.cast_nonpos]
          omega

/-- **Integer refutations are exact.**  Cooper's elimination says that constraints are
unsatisfiable exactly when they have no integer solution. -/
lemma integerLinearConstraintsUnsat_iff (h : CanonicalAll constraints)
    (hr : integerLinearConstraintsUnsat constraints = .ok b) :
    b = true ↔ ∀ x : V → ℤ, ¬ HoldAll constraints fun v => x v := by
  rw [integerLinearConstraintsUnsat] at hr
  cases hineq : proofInequalities constraints with
  | error e =>
    rw [hineq] at hr
    cases hr
  | ok inequalities =>
    rw [hineq] at hr
    obtain ⟨hcanonical, hholds⟩ := proofInequalities_ok hineq h
    set vars := sortedSet id (inequalities.flatMap fun e => e.coefficients.map Prod.fst) with hvars
    have hover : (⟨inequalities, []⟩ : ProofIntegerProblem V).Every
        (ProofIntegerExpression.Over vars) := by
      refine ⟨fun e he entry hm => ?_, by simp⟩
      exact mem_sortedSet.2 (List.mem_flatMap.2 ⟨e, he, List.mem_map_of_mem hm⟩)
    have hsearch := ProofIntegerProblem.satisfiable_spec vars.length
      (p := ⟨inequalities, []⟩) ⟨hcanonical, by simp⟩ hover le_rfl
    have hsolvable : (∃ x, ProofIntegerProblem.Holds ⟨inequalities, []⟩ x) ↔
        ∃ x : V → ℤ, HoldAll constraints fun v => x v := by
      simp only [← hholds, ProofIntegerProblem.Holds, List.not_mem_nil, false_implies,
        implies_true, and_true]
    simp only [bind, Except.bind] at hr
    split at hr
    · cases hr
    split at hr
    · cases hr
    · next found hrun =>
      cases hr
      have hfound : found.1 = true ↔ _ := hsearch _ _ _ hrun
      rw [← not_exists, ← hsolvable, ← hfound, Bool.not_eq_true, Bool.not_eq_true']

end Satrap.Smt
