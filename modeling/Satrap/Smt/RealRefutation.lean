/-
# Real refutations

The value of a constraint of a refutation, and the exactness of Fourier–Motzkin elimination on
such constraints: it says that they are unsatisfiable exactly when they have no rational solution.
-/
import Mathlib.Data.List.Dedup
import Satrap.Logic.Bounds
import Satrap.Smt.ProofArithmetic

namespace Satrap.Smt

open Logic

variable {V : Type} [LinearOrder V] {constraints simplified : List (ProofLinearConstraint V)}
  {x : V → ℚ} {v : V} {vars : List V} {b : Bool}

lemma mem_sortedSet {α β : Type*} [DecidableEq α] [LinearOrder β] {key : α → β} {items : List α}
    {a : α} : a ∈ sortedSet key items ↔ a ∈ items := by
  rw [sortedSet, List.mem_insertionSort, List.mem_dedup]

lemma nodup_sortedSet {α β : Type*} [DecidableEq α] [LinearOrder β] {key : α → β}
    {items : List α} : (sortedSet key items).Nodup :=
  (List.perm_insertionSort _ _).nodup_iff.2 (List.nodup_dedup items)

/-! ### Values -/

namespace ProofLinearExpression

variable {e e' : ProofLinearExpression V} {scale : ℚ} {entry : V × ℚ}

/-- The value of an expression. -/
def evaluate (e : ProofLinearExpression V) (x : V → ℚ) : ℚ :=
  e.constant + weightedSum x e.coefficients

/-- The entries are those of an ordered map of nonzero coefficients. -/
structure Canonical (e : ProofLinearExpression V) : Prop where
  ordered : Ordered e.coefficients
  nonzero : ∀ entry ∈ e.coefficients, entry.2 ≠ 0

omit [LinearOrder V] in
lemma mem_scaled (h : entry ∈ (e.scaled scale).coefficients) :
    entry.2 ≠ 0 ∧ ∃ entry' ∈ e.coefficients, entry.1 = entry'.1 := by
  obtain ⟨hm, hne⟩ := List.mem_filter.1 h
  obtain ⟨entry', hm', rfl⟩ := List.mem_map.1 hm
  exact ⟨of_decide_eq_true hne, entry', hm', rfl⟩

lemma Canonical.scaled (h : e.Canonical) (scale : ℚ) : (e.scaled scale).Canonical where
  ordered := List.Pairwise.filter _ (List.pairwise_map.2 h.ordered)
  nonzero _ hm := (mem_scaled hm).1

lemma Canonical.addScaled (h : e.Canonical) (e' : ProofLinearExpression V) (scale : ℚ) :
    (e.addScaled e' scale).Canonical where
  ordered := Ordered.foldl_addMultiple h.ordered
  nonzero entry hm := by
    rcases mem_foldl_addMultiple hm with ⟨-, -, -, hne⟩ | hm
    · exact hne
    · exact h.nonzero entry hm

lemma mem_addScaled (h : entry ∈ (e.addScaled e' scale).coefficients) :
    (∃ entry' ∈ e'.coefficients, entry.1 = entry'.1) ∨ entry ∈ e.coefficients :=
  (mem_foldl_addMultiple h).imp_left fun ⟨entry', hm, heq, _⟩ => ⟨entry', hm, heq⟩

omit [LinearOrder V] in
lemma weightedSum_filter_ne_zero (entries : List (V × ℚ)) :
    weightedSum x (entries.filter fun entry => decide (entry.2 ≠ 0)) = weightedSum x entries := by
  induction entries with
  | nil => rfl
  | cons entry rest ih =>
    by_cases hz : entry.2 = 0
    · rw [List.filter_cons_of_neg (by simp [hz]), ih, weightedSum_cons, hz, zero_mul, zero_add]
    · rw [List.filter_cons_of_pos (by simp [hz]), weightedSum_cons, ih, weightedSum_cons]

omit [LinearOrder V] in
lemma weightedSum_scaled (scale : ℚ) :
    weightedSum x (e.scaled scale).coefficients = weightedSum x e.coefficients * scale :=
  (weightedSum_filter_ne_zero _).trans (Smt.weightedSum_scaled scale)

omit [LinearOrder V] in
lemma evaluate_scaled (scale : ℚ) : (e.scaled scale).evaluate x = e.evaluate x * scale := by
  rw [evaluate, weightedSum_scaled, evaluate, add_mul]
  rfl

lemma evaluate_addScaled (h : e.Canonical) (scale : ℚ) :
    (e.addScaled e' scale).evaluate x = e.evaluate x + e'.evaluate x * scale := by
  rw [evaluate, evaluate, evaluate, addScaled, weightedSum_foldl_addMultiple h.ordered]
  ring

end ProofLinearExpression

namespace ProofLinearConstraint

variable {c u l : ProofLinearConstraint V} {y : V → ℚ}

/-- The values meet the constraint. -/
def Holds (c : ProofLinearConstraint V) (x : V → ℚ) : Prop :=
  if c.strict then c.expression.evaluate x < 0 else c.expression.evaluate x ≤ 0

/-- The coefficient of a variable. -/
def coefficient (c : ProofLinearConstraint V) (v : V) : ℚ := c.expression.coefficient v

/-- The value of the expression without the variable. -/
def remainder (c : ProofLinearConstraint V) (v : V) (x : V → ℚ) : ℚ :=
  c.expression.constant + weightedSum x (removeEntry v c.expression.coefficients)

/-- The bound that the constraint sets the variable. -/
def bound (c : ProofLinearConstraint V) (v : V) (x : V → ℚ) : ℚ × Bool :=
  (-c.remainder v x / c.coefficient v, c.strict)

lemma evaluate_eq (h : c.expression.Canonical) (v : V) (x : V → ℚ) :
    c.expression.evaluate x = c.coefficient v * x v + c.remainder v x := by
  rw [ProofLinearExpression.evaluate, remainder, weightedSum_removeEntry h.ordered, coefficient,
    ProofLinearExpression.coefficient]
  ring

lemma remainder_update (a : ℚ) : c.remainder v (Function.update x v a) = c.remainder v x := by
  rw [remainder, remainder]
  refine congrArg (c.expression.constant + ·) (weightedSum_congr fun entry he => ?_)
  exact Function.update_of_ne (by simpa using (List.mem_filter.1 he).2) _ _

/-- A constraint on the value of one variable, the others being given. -/
lemma holds_update (h : c.expression.Canonical) (a : ℚ) : c.Holds (Function.update x v a) ↔
    if c.strict then c.coefficient v * a + c.remainder v x < 0
      else c.coefficient v * a + c.remainder v x ≤ 0 := by
  rw [Holds, evaluate_eq h v, remainder_update, Function.update_self]

lemma holds_update_below (h : c.expression.Canonical) (hv : 0 < c.coefficient v) (a : ℚ) :
    c.Holds (Function.update x v a) ↔ Below (c.bound v x) a := by
  rw [holds_update h, bound, below_iff hv]

lemma holds_update_above (h : c.expression.Canonical) (hv : c.coefficient v < 0) (a : ℚ) :
    c.Holds (Function.update x v a) ↔ Above (c.bound v x) a := by
  rw [holds_update h, bound, above_iff hv]

lemma holds_update_of_zero (h : c.expression.Canonical) (hv : c.coefficient v = 0) (a : ℚ) :
    c.Holds (Function.update x v a) ↔ c.Holds x := by
  rw [holds_update h, Holds, evaluate_eq h v, hv, zero_mul, zero_mul]

omit [LinearOrder V] in
lemma holds_iff_satisfied (h : c.expression.coefficients = []) :
    c.Holds x ↔ c.satisfied = true := by
  rw [Holds, ProofLinearExpression.evaluate, h, weightedSum_nil, add_zero, satisfied]
  split <;> simp

end ProofLinearConstraint

open ProofLinearConstraint

/-- All constraints hold. -/
def HoldAll (constraints : List (ProofLinearConstraint V)) (x : V → ℚ) : Prop :=
  ∀ c ∈ constraints, c.Holds x

/-- The expressions of the constraints are canonical. -/
def CanonicalAll (constraints : List (ProofLinearConstraint V)) : Prop :=
  ∀ c ∈ constraints, c.expression.Canonical

/-- The variables of the constraints are among these. -/
def VariablesIn (vars : List V) (constraints : List (ProofLinearConstraint V)) : Prop :=
  ∀ c ∈ constraints, ∀ entry ∈ c.expression.coefficients, entry.1 ∈ vars

/-! ### Simplification -/

section

variable {α σ : Type*} {holds : α → σ → Prop} {comes : α → α → Prop} {a r : α} {items : List α}
  {result : Option (List α)}

/-- What a loop makes of its items: a list that holds exactly when they do, each member of which
comes from one of them, or nothing when they cannot all hold. -/
def Sifted (holds : α → σ → Prop) (comes : α → α → Prop) (items : List α) :
    Option (List α) → Prop
  | none => ∀ x, ¬ ∀ a ∈ items, holds a x
  | some kept => (∀ x, (∀ a ∈ kept, holds a x) ↔ ∀ a ∈ items, holds a x) ∧
      ∀ b ∈ kept, ∃ a ∈ items, comes a b

lemma Sifted.nil : Sifted holds comes [] (some []) := ⟨fun _ => Iff.rfl, by simp⟩

/-- An item that always holds may be dropped. -/
lemma Sifted.skip (h : Sifted holds comes items result) (ha : ∀ x, holds a x) :
    Sifted holds comes (a :: items) result := by
  cases result with
  | none => exact fun x hx => h x (List.forall_mem_cons.1 hx).2
  | some kept =>
    refine ⟨fun x => ?_, fun b hb => ?_⟩
    · rw [h.1 x, List.forall_mem_cons]
      exact ⟨fun hx => ⟨ha x, hx⟩, And.right⟩
    · obtain ⟨a', ha', hcomes⟩ := h.2 b hb
      exact ⟨a', List.mem_cons_of_mem a ha', hcomes⟩

/-- An item that never holds decides them all. -/
lemma Sifted.fail (ha : ∀ x, ¬ holds a x) : Sifted holds comes (a :: items) none :=
  fun x hx => ha x (List.forall_mem_cons.1 hx).1

/-- An item is kept in another form. -/
lemma Sifted.keep (h : Sifted holds comes items result) (hr : ∀ x, holds r x ↔ holds a x)
    (hcomes : comes a r) : Sifted holds comes (a :: items) (result.map (r :: ·)) := by
  cases result with
  | none => exact fun x hx => h x (List.forall_mem_cons.1 hx).2
  | some kept =>
    refine ⟨fun x => ?_, fun b hb => ?_⟩
    · rw [List.forall_mem_cons, List.forall_mem_cons, h.1 x, hr x]
    · rcases List.mem_cons.1 hb with rfl | hb
      · exact ⟨a, List.mem_cons_self, hcomes⟩
      · obtain ⟨a', ha', hcomes'⟩ := h.2 b hb
        exact ⟨a', List.mem_cons_of_mem a ha', hcomes'⟩

end

omit [LinearOrder V] in
/-- Constraints without variables are decided, the others kept. -/
lemma keepRealConstraints_ok {kept : Option (List (ProofLinearConstraint V))}
    (h : keepRealConstraints constraints = .ok kept) :
    Sifted Holds (fun c d => c = d ∧ d.expression.coefficients ≠ []) constraints kept := by
  induction constraints generalizing kept with
  | nil =>
    cases h
    exact .nil
  | cons c rest ih =>
    rw [keepRealConstraints] at h
    split at h
    · cases h
    split at h
    · next hconstant =>
      split at h
      · next hsat => exact (ih h).skip fun x => (holds_iff_satisfied hconstant).2 hsat
      · next hsat =>
        cases h
        exact .fail fun x hx => hsat ((holds_iff_satisfied hconstant).1 hx)
    · next hvariable =>
      cases hrest : keepRealConstraints rest with
      | error e =>
        rw [hrest] at h
        cases h
      | ok kept' =>
        rw [hrest] at h
        cases h
        exact (ih hrest).keep (fun x => Iff.rfl) ⟨rfl, hvariable⟩

lemma simplifyRealConstraints_none (h : simplifyRealConstraints constraints = .ok none) (x : V → ℚ) :
    ¬ HoldAll constraints x := by
  rw [simplifyRealConstraints] at h
  cases hkept : keepRealConstraints constraints with
  | error e =>
    rw [hkept] at h
    cases h
  | ok kept =>
    rw [hkept] at h
    cases kept with
    | none => exact keepRealConstraints_ok hkept x
    | some kept => cases h

lemma simplifyRealConstraints_some (h : simplifyRealConstraints constraints = .ok (some simplified)) :
    (∀ x, HoldAll simplified x ↔ HoldAll constraints x) ∧
      ∀ c ∈ simplified, c ∈ constraints ∧ c.expression.coefficients ≠ [] := by
  rw [simplifyRealConstraints] at h
  cases hkept : keepRealConstraints constraints with
  | error e =>
    rw [hkept] at h
    cases h
  | ok kept =>
    rw [hkept] at h
    cases kept with
    | none => cases h
    | some kept =>
      cases h
      obtain ⟨hholds, hfrom⟩ := keepRealConstraints_ok hkept
      refine ⟨fun x => ?_, fun c hc => ?_⟩
      · rw [HoldAll, HoldAll, ← hholds x]
        simp only [mem_sortedSet]
      · obtain ⟨c', hc', rfl, hne⟩ := hfrom c (mem_sortedSet.1 hc)
        exact ⟨hc', hne⟩

/-! ### Elimination -/

lemma combineRealBounds_holds {u l : ProofLinearConstraint V} (hu : u.expression.Canonical)
    (hl : l.expression.Canonical) (hpos : 0 < u.coefficient v) (hneg : l.coefficient v < 0) :
    (combineRealBounds v u l).Holds x ↔ Compatible (l.bound v x) (u.bound v x) := by
  set combined := (u.expression.scaled (-l.coefficient v)).addScaled l.expression (u.coefficient v)
    with hcombined
  have hcanonical : combined.Canonical := (hu.scaled _).addScaled _ _
  have hzero : coefficientOf combined.coefficients v = 0 := by
    rw [coefficientOf_eq hcanonical.ordered, hcombined, ProofLinearExpression.addScaled,
      weightedSum_foldl_addMultiple (hu.scaled _).ordered, ProofLinearExpression.weightedSum_scaled,
      ← coefficientOf_eq hu.ordered, ← coefficientOf_eq hl.ordered]
    exact (by ring : u.coefficient v * -l.coefficient v + l.coefficient v * u.coefficient v = 0)
  have hvalue : (combineRealBounds v u l).expression.evaluate x =
      u.remainder v x * -l.coefficient v + l.remainder v x * u.coefficient v := by
    have hremoved : (combineRealBounds v u l).expression.evaluate x = combined.evaluate x := by
      refine congrArg (combined.constant + ·) ?_
      rw [← sub_zero (weightedSum x combined.coefficients), ← zero_mul (x v), ← hzero]
      exact weightedSum_removeEntry hcanonical.ordered
    rw [hremoved, hcombined, ProofLinearExpression.evaluate_addScaled (hu.scaled _),
      ProofLinearExpression.evaluate_scaled, evaluate_eq hu v, evaluate_eq hl v]
    ring
  rw [Holds, hvalue, bound, bound, compatible_iff_combined hpos hneg]
  rfl

lemma mem_eliminateRealVariable {c : ProofLinearConstraint V} :
    c ∈ eliminateRealVariable v constraints ↔
      c ∈ constraints ∧ c.coefficient v = 0 ∨
        ∃ u ∈ constraints, 0 < u.coefficient v ∧
          ∃ l ∈ constraints, l.coefficient v < 0 ∧ combineRealBounds v u l = c := by
  simp only [eliminateRealVariable, List.mem_append, List.mem_filter, decide_eq_true_eq,
    List.mem_flatMap, List.mem_map, and_assoc]
  rfl

/-- What is left holds exactly when the variable has a value that meets all constraints. -/
lemma eliminateRealVariable_holds (h : CanonicalAll constraints) :
    HoldAll (eliminateRealVariable v constraints) x ↔
      ∃ a, HoldAll constraints (Function.update x v a) := by
  set lowers := (constraints.filter fun c => decide (c.coefficient v < 0)).map fun c => c.bound v x
  set uppers := (constraints.filter fun c => decide (0 < c.coefficient v)).map fun c => c.bound v x
  have hsplit (a : ℚ) : HoldAll constraints (Function.update x v a) ↔
      (∀ c ∈ constraints, c.coefficient v = 0 → c.Holds x) ∧
        (∀ b ∈ lowers, Above b a) ∧ ∀ b ∈ uppers, Below b a := by
    simp only [lowers, uppers, List.mem_map, List.mem_filter, decide_eq_true_eq]
    constructor
    · intro hx
      refine ⟨fun c hc hzero => (holds_update_of_zero (h c hc) hzero a).1 (hx c hc), ?_, ?_⟩
      · rintro b ⟨c, ⟨hc, hneg⟩, rfl⟩
        exact (holds_update_above (h c hc) hneg a).1 (hx c hc)
      · rintro b ⟨c, ⟨hc, hpos⟩, rfl⟩
        exact (holds_update_below (h c hc) hpos a).1 (hx c hc)
    · rintro ⟨hzero, hlow, hup⟩ c hc
      rcases lt_trichotomy (c.coefficient v) 0 with hneg | h0 | hpos
      · exact (holds_update_above (h c hc) hneg a).2 (hlow _ ⟨c, ⟨hc, hneg⟩, rfl⟩)
      · exact (holds_update_of_zero (h c hc) h0 a).2 (hzero c hc h0)
      · exact (holds_update_below (h c hc) hpos a).2 (hup _ ⟨c, ⟨hc, hpos⟩, rfl⟩)
  simp only [hsplit, exists_and_left, exists_between_iff]
  constructor
  · intro hx
    refine ⟨fun c hc hzero => hx c (mem_eliminateRealVariable.2 (.inl ⟨hc, hzero⟩)), ?_⟩
    simp only [lowers, uppers, List.mem_map, List.mem_filter, decide_eq_true_eq]
    rintro - ⟨l, ⟨hl, hneg⟩, rfl⟩ - ⟨u, ⟨hu, hpos⟩, rfl⟩
    rw [← combineRealBounds_holds (h u hu) (h l hl) hpos hneg]
    exact hx _ (mem_eliminateRealVariable.2 (.inr ⟨u, hu, hpos, l, hl, hneg, rfl⟩))
  · rintro ⟨hzero, hroom⟩ c hc
    simp only [lowers, uppers, List.mem_map, List.mem_filter, decide_eq_true_eq] at hroom
    rcases mem_eliminateRealVariable.1 hc with ⟨hc, h0⟩ | ⟨u, hu, hpos, l, hl, hneg, rfl⟩
    · exact hzero c hc h0
    · exact (combineRealBounds_holds (h u hu) (h l hl) hpos hneg).2
        (hroom _ ⟨l, ⟨hl, hneg⟩, rfl⟩ _ ⟨u, ⟨hu, hpos⟩, rfl⟩)

lemma eliminateRealVariable_canonical (h : CanonicalAll constraints) :
    CanonicalAll (eliminateRealVariable v constraints) := by
  intro c hc
  rcases mem_eliminateRealVariable.1 hc with ⟨hc, -⟩ | ⟨u, hu, -, l, -, -, rfl⟩
  · exact h c hc
  · have hcombined := ((h u hu).scaled (-l.coefficient v)).addScaled l.expression (u.coefficient v)
    exact ⟨hcombined.ordered.removeEntry, fun entry he =>
      hcombined.nonzero entry (List.mem_of_mem_filter he)⟩

/-- The eliminated variable does not occur in what is left. -/
lemma eliminateRealVariable_variablesIn (h : CanonicalAll constraints)
    (hvars : VariablesIn (v :: vars) constraints) :
    VariablesIn vars (eliminateRealVariable v constraints) := by
  intro c hc entry he
  rcases mem_eliminateRealVariable.1 hc with ⟨hmem, hzero⟩ | ⟨u, hu, -, l, hl, -, rfl⟩
  · refine (List.mem_cons.1 (hvars c hmem entry he)).resolve_left ?_
    rintro rfl
    exact (h c hmem).nonzero entry he
      ((coefficientOf_of_mem (h c hmem).ordered he).symm.trans hzero)
  · obtain ⟨hcombined, hne⟩ := List.mem_filter.1 he
    refine (List.mem_cons.1 ?_).resolve_left (of_decide_eq_true hne)
    rcases ProofLinearExpression.mem_addScaled hcombined with ⟨e, hm, heq⟩ | hm
    · exact heq ▸ hvars l hl e hm
    · obtain ⟨-, e, hm', heq⟩ := ProofLinearExpression.mem_scaled hm
      exact heq ▸ hvars u hu e hm'

/-- The elimination of all variables decides the constraints. -/
lemma eliminateRealVariables_iff (h : CanonicalAll constraints) (hvars : VariablesIn vars constraints)
    (hproper : ∀ c ∈ constraints, c.expression.coefficients ≠ [])
    (hr : eliminateRealVariables vars constraints = .ok b) :
    b = true ↔ ∀ x, ¬ HoldAll constraints x := by
  induction vars generalizing constraints with
  | nil =>
    cases hr
    have hnone : constraints = [] := by
      refine List.eq_nil_iff_forall_not_mem.2 fun c hc => hproper c hc ?_
      exact List.eq_nil_iff_forall_not_mem.2 fun entry he => absurd (hvars c hc entry he) (by simp)
    rw [hnone]
    simp [HoldAll]
  | cons v rest ih =>
    have hleft : (∀ x, ¬ HoldAll (eliminateRealVariable v constraints) x) ↔
        ∀ x, ¬ HoldAll constraints x := by
      constructor
      · intro hno x hx
        exact hno x ((eliminateRealVariable_holds h).2 ⟨x v, by rwa [Function.update_eq_self]⟩)
      · intro hno x hx
        obtain ⟨a, ha⟩ := (eliminateRealVariable_holds h).1 hx
        exact hno _ ha
    rw [eliminateRealVariables] at hr
    split at hr
    · cases hr
    split at hr
    · cases hr
    · next hs =>
      cases hr
      exact iff_of_true rfl (hleft.1 (simplifyRealConstraints_none hs))
    · next next hs =>
      obtain ⟨hholds, hfrom⟩ := simplifyRealConstraints_some hs
      rw [← hleft]
      simp only [← hholds]
      exact ih (fun c hc => eliminateRealVariable_canonical h c (hfrom c hc).1)
        (fun c hc => eliminateRealVariable_variablesIn h hvars c (hfrom c hc).1)
        (fun c hc => (hfrom c hc).2) hr

lemma variablesIn_constraintVariables :
    VariablesIn (constraintVariables constraints) constraints := by
  intro c hc entry he
  exact mem_sortedSet.2 (List.mem_flatMap.2 ⟨c, hc, List.mem_map_of_mem he⟩)

/-- **Real refutations are exact.**  The elimination says that constraints are unsatisfiable
exactly when they have no solution. -/
lemma realLinearConstraintsUnsat_iff (h : CanonicalAll constraints)
    (hr : realLinearConstraintsUnsat constraints = .ok b) :
    b = true ↔ ∀ x, ¬ HoldAll constraints x := by
  rw [realLinearConstraintsUnsat] at hr
  split at hr
  · cases hr
  · next hs =>
    cases hr
    exact iff_of_true rfl (simplifyRealConstraints_none hs)
  · next simplified hs =>
    obtain ⟨hholds, hfrom⟩ := simplifyRealConstraints_some hs
    simp only [← hholds]
    exact eliminateRealVariables_iff (fun c hc => h c (hfrom c hc).1)
      variablesIn_constraintVariables (fun c hc => (hfrom c hc).2) hr

end Satrap.Smt
