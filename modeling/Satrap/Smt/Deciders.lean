/-
# The deciders of refutations

The deciders of conjunctions of linear constraints say that these are unsatisfiable exactly when
they have no solution, whenever they say anything: over the integers for Cooper's elimination and
for difference constraints, over the rationals for Fourier–Motzkin elimination and for difference
constraints.  The last of these counts infinitesimals in a machine integer that saturates, which
its lists of constraints are too short to bring about in practice.
-/
import Satrap.Smt.DifferenceRefutation
import Satrap.Smt.IntegerRefutation

namespace Satrap.Smt

open Logic

section

variable {V : Type} [LinearOrder V] {constraints : List (ProofLinearConstraint V)}
  {c : ProofLinearConstraint V} {sort : ProofSort} {b : Bool}

/-! ### What is refused -/

/-- A multiple of a variable or of the difference of two. -/
def DifferenceShaped (e : ProofLinearExpression V) : Prop :=
  (∃ v a, a ≠ 0 ∧ e.coefficients = [(v, a)]) ∨
    ∃ v w a, a ≠ 0 ∧ e.coefficients = [(v, a), (w, -a)]

omit [LinearOrder V] in
/-- Only multiples of differences have ends. -/
lemma DifferenceShaped.of_ends {index : V → ℕ} {origin : ℕ} {ends : ℕ × ℕ × ℚ}
    (h : differenceEnds c index origin = .ok ends) : DifferenceShaped c.expression := by
  rw [differenceEnds] at h
  split at h
  · next v a hcoefficients =>
    split at h
    · next ha => exact .inl ⟨v, a, ha.ne', hcoefficients⟩
    split at h
    · next ha => exact .inl ⟨v, a, ha.ne, hcoefficients⟩
    · cases h
  · next v a w b hcoefficients =>
    split at h
    · next ha =>
      refine .inr ⟨v, w, a, ha.1.ne', ?_⟩
      rw [hcoefficients, ha.2, neg_neg]
    split at h
    · next hb =>
      refine .inr ⟨v, w, a, ?_, ?_⟩
      · rintro rfl
        exact hb.1.ne' (hb.2.trans neg_zero)
      · rw [hcoefficients, hb.2]
    · cases h
  · cases h

omit [LinearOrder V] in
/-- Once edges are found, every constraint with variables is a difference. -/
lemma differenceShaped_of_edges {index : V → ℕ} {origin : ℕ} {edges : List ProofDifferenceEdge}
    (h : proofDifferenceEdges sort index origin constraints = .ok (some edges)) :
    ∀ c ∈ constraints, c.expression.coefficients ≠ [] → DifferenceShaped c.expression := by
  induction constraints generalizing edges with
  | nil => simp
  | cons c rest ih =>
    rw [proofDifferenceEdges] at h
    split at h
    · next hconstant =>
      split at h
      · exact List.forall_mem_cons.2 ⟨fun hne => absurd hconstant hne, ih h⟩
      · cases h
    split at h
    · cases h
    next edge hedge =>
    have hfirst : DifferenceShaped c.expression := by
      rw [proofDifferenceEdge] at hedge
      split at hedge
      · cases hedge
      · next hends => exact .of_ends hends
    cases hrest : proofDifferenceEdges sort index origin rest with
    | error e =>
      rw [hrest] at h
      cases h
    | ok result =>
      rw [hrest] at h
      cases result with
      | none => cases h
      | some later => exact List.forall_mem_cons.2 ⟨fun _ => hfirst, ih hrest⟩

/-- A difference refutation that says "satisfiable" was given differences of its sort. -/
lemma differenceConstraintsUnsat_false (hr : differenceConstraintsUnsat constraints sort = .ok false) :
    ∀ c ∈ constraints, c.expression.coefficients ≠ [] → DifferenceShaped c.expression := by
  rw [differenceConstraintsUnsat] at hr
  split at hr
  · cases hr
  dsimp only at hr
  split at hr
  · cases hr
  · cases hr
  · next edges hedges => exact differenceShaped_of_edges hedges

/-- A difference refutation that says anything was given constraints of its sort. -/
lemma differenceConstraintsUnsat_sort (hr : differenceConstraintsUnsat constraints sort = .ok b) :
    ∀ c ∈ constraints, c.sort = sort := by
  rw [differenceConstraintsUnsat] at hr
  split at hr
  · cases hr
  · next hsort =>
    intro c hc
    by_contra hne
    exact hsort (List.any_eq_true.2 ⟨c, hc, decide_eq_true hne⟩)

omit [LinearOrder V] in
lemma proofInequalities_integral {inequalities : List (ProofIntegerExpression V)}
    (h : proofInequalities constraints = .ok inequalities) :
    (∀ c ∈ constraints, c.sort = .int ∧ ∃ e, ProofIntegerExpression.fromLinear c.expression = some e) ∧
      inequalities.flatMap (fun e => e.coefficients.map Prod.fst) =
        constraints.flatMap fun c => c.expression.coefficients.map Prod.fst := by
  induction constraints generalizing inequalities with
  | nil =>
    cases h
    exact ⟨by simp, rfl⟩
  | cons c rest ih =>
    rw [proofInequalities] at h
    split at h
    · cases h
    next hsort =>
    split at h
    · cases h
    next e he =>
    cases hrest : proofInequalities rest with
    | error err =>
      rw [hrest] at h
      cases h
    | ok later =>
      rw [hrest] at h
      cases h
      obtain ⟨hall, hkeys⟩ := ih hrest
      refine ⟨List.forall_mem_cons.2 ⟨⟨not_not.1 hsort, e, he⟩, hall⟩, ?_⟩
      rw [List.flatMap_cons, List.flatMap_cons, hkeys]
      refine congrArg (· ++ _) ?_
      have hentries := (ProofIntegerExpression.fromLinear_eq he).2.2
      have hsame : (if c.strict = true then e else e.shifted (-1)).coefficients = e.coefficients := by
        split <;> rfl
      rw [hsame, hentries, List.map_map]
      rfl

/-- An integer refutation that says anything was given integral constraints with few variables. -/
lemma integerLinearConstraintsUnsat_ok (hr : integerLinearConstraintsUnsat constraints = .ok b) :
    (∀ c ∈ constraints, c.sort = .int ∧ ∃ e, ProofIntegerExpression.fromLinear c.expression = some e) ∧
      (constraintVariables constraints).length ≤ maxIntegerProofVariables := by
  rw [integerLinearConstraintsUnsat] at hr
  cases hineq : proofInequalities constraints with
  | error e =>
    rw [hineq] at hr
    cases hr
  | ok inequalities =>
    rw [hineq] at hr
    obtain ⟨hall, hkeys⟩ := proofInequalities_integral hineq
    refine ⟨hall, ?_⟩
    rw [constraintVariables, ← hkeys]
    simp only [bind, Except.bind] at hr
    split at hr
    · cases hr
    · next hcount => exact not_lt.1 hcount

/-! ### Exactness -/

/-- **The arithmetic deciders are exact.**  Whatever the deciders return is right: they say that the
constraints are unsatisfiable exactly when they have no solution.  What is outside of their
fragments or limits they refuse, or they find it unsatisfiable before they see it. -/
theorem arithmetic_deciders_exact (h : CanonicalAll constraints) :
    (∀ b, realLinearConstraintsUnsat constraints = .ok b →
      (b = true ↔ ∀ x : V → ℚ, ¬ HoldAll constraints x)) ∧
    (∀ b, integerLinearConstraintsUnsat constraints = .ok b →
      (b = true ↔ ∀ x : V → ℤ, ¬ HoldAll constraints fun v => x v) ∧
        (∀ c ∈ constraints, c.sort = .int ∧
          ∃ e, ProofIntegerExpression.fromLinear c.expression = some e) ∧
        (constraintVariables constraints).length ≤ maxIntegerProofVariables) ∧
    (∀ b, differenceConstraintsUnsat constraints .int = .ok b →
      (b = true ↔ ∀ x : V → ℤ, ¬ HoldAll constraints fun v => x v)) ∧
    (∀ b, differenceConstraintsUnsat constraints .real = .ok b →
      constraints.length * vertexCount constraints ≤ 2 ^ 63 →
        (b = true ↔ ∀ x : V → ℚ, ¬ HoldAll constraints x)) ∧
    ∀ sort b, differenceConstraintsUnsat constraints sort = .ok b →
      (∀ c ∈ constraints, c.sort = sort) ∧ (b = false → ∀ c ∈ constraints,
        c.expression.coefficients ≠ [] → DifferenceShaped c.expression) :=
  ⟨fun _ hr => realLinearConstraintsUnsat_iff h hr,
    fun _ hr => ⟨integerLinearConstraintsUnsat_iff h hr, integerLinearConstraintsUnsat_ok hr⟩,
    fun _ hr => differenceConstraintsUnsat_int_iff hr,
    fun _ hr => differenceConstraintsUnsat_real_iff hr,
    fun _ b hr => ⟨differenceConstraintsUnsat_sort hr, fun hb => by
      subst hb
      exact differenceConstraintsUnsat_false hr⟩⟩

end

/-- Two variables that are each below the other. -/
def opposed : List (ProofLinearConstraint ℕ) :=
  [⟨.real, ⟨0, [(0, 1), (1, -1)]⟩, true⟩, ⟨.real, ⟨0, [(0, -1), (1, 1)]⟩, true⟩]

lemma canonicalAll_opposed : CanonicalAll opposed := by
  intro c hc
  rcases List.mem_pair.1 hc with rfl | rfl <;> exact ⟨by simp [Ordered], by simp⟩

theorem arithmetic_deciders_exact_opposed :
    differenceConstraintsUnsat opposed .real = .ok true ∧ ∀ x, ¬ HoldAll opposed x := by
  have hr : differenceConstraintsUnsat opposed .real = .ok true := by decide +kernel
  have hsize : opposed.length * vertexCount opposed ≤ 2 ^ 63 := by decide +kernel
  exact ⟨hr, ((arithmetic_deciders_exact canonicalAll_opposed).2.2.2.1 true hr hsize).1 rfl⟩

/-! ### Saturation -/

/-- Constraints that repeat the two opposed ones, with further variables that are at most zero. -/
def saturating (pairs spare : ℕ) : List (ProofLinearConstraint ℕ) :=
  (List.replicate pairs opposed).flatten ++
    (List.range spare).map fun i => ⟨.real, ⟨0, [(i + 2, 1)]⟩, false⟩

section

variable {pairs spare : ℕ} {c : ProofLinearConstraint ℕ}

lemma mem_saturating (h : c ∈ saturating pairs spare) :
    c ∈ opposed ∨ ∃ i < spare, c = ⟨.real, ⟨0, [(i + 2, 1)]⟩, false⟩ := by
  rcases List.mem_append.1 h with h | h
  · obtain ⟨l, hl, hc⟩ := List.mem_flatten.1 h
    rw [List.eq_of_mem_replicate hl] at hc
    exact .inl hc
  · obtain ⟨i, hi, rfl⟩ := List.mem_map.1 h
    exact .inr ⟨i, List.mem_range.1 hi, rfl⟩

lemma sort_saturating (h : c ∈ saturating pairs spare) : c.sort = .real := by
  rcases mem_saturating h with h | ⟨i, -, rfl⟩
  · rcases List.mem_pair.1 h with rfl | rfl <;> rfl
  · rfl

lemma canonicalAll_saturating : CanonicalAll (saturating pairs spare) := by
  intro c hc
  rcases mem_saturating hc with h | ⟨i, -, rfl⟩
  · exact canonicalAll_opposed c h
  · exact ⟨List.pairwise_singleton _ _, by simp⟩

lemma not_holdAll_saturating (hpairs : 0 < pairs) (x : ℕ → ℚ) :
    ¬ HoldAll (saturating pairs spare) x := by
  intro hx
  have hopposed (c : ProofLinearConstraint ℕ) (hc : c ∈ opposed) : c.Holds x :=
    hx c (List.mem_append_left _ (List.mem_flatten.2 ⟨opposed,
      List.mem_replicate.2 ⟨hpairs.ne', rfl⟩, hc⟩))
  have hbelow := hopposed ⟨.real, ⟨0, [(0, 1), (1, -1)]⟩, true⟩ (by simp [opposed])
  have habove := hopposed ⟨.real, ⟨0, [(0, -1), (1, 1)]⟩, true⟩ (by simp [opposed])
  simp only [ProofLinearConstraint.Holds, if_true, ProofLinearExpression.evaluate,
    weightedSum_cons, weightedSum_nil] at hbelow habove
  linarith

/-- The edges of opposed constraints, over and over, with edges that change nothing. -/
def saturatingEdges (i j origin pairs : ℕ) (idle : List ℕ) : List ProofDifferenceEdge :=
  (List.replicate pairs [⟨j, i, 0, -1⟩, ⟨i, j, 0, -1⟩]).flatten ++ idle.map fun v => ⟨origin, v, 0, 0⟩

/-- The distances once the opposed constraints have been relaxed a number of times. -/
def counted (i j k : ℕ) : ℕ → ℚ × ℤ := fun v =>
  if v = i then (0, -(min (2 * k - 1) (2 ^ 63) : ℕ))
  else if v = j then (0, -(min (2 * k) (2 ^ 63) : ℕ)) else (0, 0)

lemma relaxProofEdge_counting {d : ℕ → ℚ × ℤ} {source target a b : ℕ} (changed : Bool)
    (hs : d source = (0, -(a : ℤ))) (ht : d target = (0, -(b : ℤ))) (hle : b ≤ min (a + 1) (2 ^ 63)) :
    ∃ changed', relaxProofEdge (d, changed) ⟨source, target, 0, -1⟩ =
        (Function.update d target (0, -(min (a + 1) (2 ^ 63) : ℕ)), changed') ∧
      (b = min (a + 1) (2 ^ 63) → changed' = changed) := by
  have hsum : saturatingAdd (-(a : ℤ)) (-1) = -(min (a + 1) (2 ^ 63) : ℕ) := by
    rw [saturatingAdd]
    omega
  rw [relaxProofEdge]
  simp only [hs, ht, hsum, add_zero, lt_irrefl, true_and, false_or, neg_lt_neg_iff, Nat.cast_lt]
  split
  · next hlt => exact ⟨true, rfl, fun heq => absurd heq hlt.ne⟩
  · next hge =>
    have heq : b = min (a + 1) (2 ^ 63) := le_antisymm hle (not_lt.1 hge)
    refine ⟨changed, ?_, fun _ => rfl⟩
    rw [← heq, ← ht, Function.update_eq_self]

/-- Both opposed edges count one further; nothing changes once the counters are saturated. -/
lemma relax_opposed {i j : ℕ} (hne : i ≠ j) (k : ℕ) (changed : Bool) :
    ∃ changed', [(⟨j, i, 0, -1⟩ : ProofDifferenceEdge), ⟨i, j, 0, -1⟩].foldl relaxProofEdge
        (counted i j k, changed) = (counted i j (k + 1), changed') ∧
      (2 ^ 63 ≤ 2 * k - 1 → changed' = changed) := by
  have hi : counted i j k i = (0, -((min (2 * k - 1) (2 ^ 63) : ℕ) : ℤ)) := if_pos rfl
  have hj : counted i j k j = (0, -((min (2 * k) (2 ^ 63) : ℕ) : ℤ)) := by
    rw [counted, if_neg hne.symm, if_pos rfl]
  obtain ⟨first, hfirst, hsame⟩ := relaxProofEdge_counting changed hj hi (by omega)
  set d := Function.update (counted i j k) i (0, -((min (min (2 * k) (2 ^ 63) + 1) (2 ^ 63) : ℕ) : ℤ))
    with hd
  have hi' : d i = (0, -((min (min (2 * k) (2 ^ 63) + 1) (2 ^ 63) : ℕ) : ℤ)) :=
    Function.update_self _ _ _
  have hj' : d j = (0, -((min (2 * k) (2 ^ 63) : ℕ) : ℤ)) := by
    rw [hd, Function.update_of_ne hne.symm, hj]
  obtain ⟨second, hsecond, hsame'⟩ := relaxProofEdge_counting first hi' hj' (by omega)
  refine ⟨second, ?_, fun hk => (hsame' (by omega)).trans (hsame (by omega))⟩
  rw [List.foldl_cons, hfirst, List.foldl_cons, hsecond, List.foldl_nil]
  refine congrArg (·, second) (funext fun v => ?_)
  by_cases hv : v = j
  · rw [hv, Function.update_self, counted, if_neg hne.symm, if_pos rfl]
    congr 2
    omega
  rw [Function.update_of_ne hv]
  by_cases hv' : v = i
  · rw [hv', hi', counted, if_pos rfl]
    congr 2
    omega
  · rw [hd, Function.update_of_ne hv', counted, counted, if_neg hv', if_neg hv, if_neg hv', if_neg hv]

lemma relax_repeated {i j : ℕ} (hne : i ≠ j) (pairs k : ℕ) (changed : Bool) :
    ∃ changed', (List.replicate pairs
          [(⟨j, i, 0, -1⟩ : ProofDifferenceEdge), ⟨i, j, 0, -1⟩]).flatten.foldl relaxProofEdge
        (counted i j k, changed) = (counted i j (k + pairs), changed') ∧
      (2 ^ 63 ≤ 2 * k - 1 → changed' = changed) := by
  induction pairs generalizing k changed with
  | zero => exact ⟨changed, rfl, fun _ => rfl⟩
  | succ pairs ih =>
    obtain ⟨first, hfirst, hsame⟩ := relax_opposed hne k changed
    obtain ⟨rest, hrest, hsame'⟩ := ih (k + 1) first
    refine ⟨rest, ?_, fun hk => (hsame' (by omega)).trans (hsame hk)⟩
    rw [List.replicate_succ, List.flatten_cons, List.foldl_append, hfirst, hrest]
    congr 2
    omega

lemma relax_idle {i j origin k : ℕ} (ho : origin ≠ i ∧ origin ≠ j) {idle : List ℕ}
    (hidle : ∀ v ∈ idle, v ≠ i ∧ v ≠ j) (changed : Bool) :
    (idle.map fun v => (⟨origin, v, 0, 0⟩ : ProofDifferenceEdge)).foldl relaxProofEdge
      (counted i j k, changed) = (counted i j k, changed) := by
  have hzero {v : ℕ} (hv : v ≠ i ∧ v ≠ j) : counted i j k v = (0, 0) := by
    rw [counted, if_neg hv.1, if_neg hv.2]
  induction idle with
  | nil => rfl
  | cons v rest ih =>
    obtain ⟨hv, hrest⟩ := List.forall_mem_cons.1 hidle
    have hsame : relaxProofEdge (counted i j k, changed) ⟨origin, v, 0, 0⟩ =
        (counted i j k, changed) := by
      simp [relaxProofEdge, hzero ho, hzero hv, saturatingAdd]
    rw [List.map_cons, List.foldl_cons, hsame, ih hrest]

/-- The passes stop without a change as soon as the counters are saturated. -/
lemma passes_saturatingEdges {i j origin : ℕ} (hne : i ≠ j) (ho : origin ≠ i ∧ origin ≠ j)
    {idle : List ℕ} (hidle : ∀ v ∈ idle, v ≠ i ∧ v ≠ j) (iterations k : ℕ)
    (h : 2 ^ 63 < 2 * (k + (iterations - 1) * pairs)) :
    proofDifferencePasses (saturatingEdges i j origin pairs idle) iterations (counted i j k) =
      false := by
  induction iterations generalizing k with
  | zero => rfl
  | succ iterations ih =>
    obtain ⟨changed, hpass, hsame⟩ := relax_repeated hne pairs k false
    have hall : (saturatingEdges i j origin pairs idle).foldl relaxProofEdge (counted i j k, false) =
        (counted i j (k + pairs), changed) := by
      rw [saturatingEdges, List.foldl_append, hpass, relax_idle ho hidle]
    rw [proofDifferencePasses, hall]
    dsimp only
    cases changed with
    | false => rfl
    | true =>
      have hsmall : ¬ 2 ^ 63 ≤ 2 * k - 1 := fun hk => absurd (hsame hk) (by simp)
      cases iterations with
      | zero => omega
      | succ iterations =>
        refine ih (k + pairs) ?_
        have hsplit : (iterations + 1) * pairs = iterations * pairs + pairs := Nat.add_one_mul _ _
        simp only [Nat.add_sub_cancel, hsplit] at h ⊢
        omega

lemma proofDifferenceEdges_map {V : Type} [LinearOrder V] {sort : ProofSort} {index : V → ℕ}
    {origin : ℕ} {edgeOf : ProofLinearConstraint V → ProofDifferenceEdge}
    {constraints : List (ProofLinearConstraint V)} (h : ∀ c ∈ constraints,
      c.expression.coefficients ≠ [] ∧ proofDifferenceEdge c sort index origin = .ok (edgeOf c)) :
    proofDifferenceEdges sort index origin constraints = .ok (some (constraints.map edgeOf)) := by
  induction constraints with
  | nil => rfl
  | cons c rest ih =>
    obtain ⟨⟨hne, hc⟩, hrest⟩ := List.forall_mem_cons.1 h
    rw [proofDifferenceEdges, if_neg hne, hc, ih hrest]
    rfl

/-- The edge of one of the constraints. -/
def saturatingEdge (index : ℕ → ℕ) (origin : ℕ) (c : ProofLinearConstraint ℕ) : ProofDifferenceEdge :=
  match proofDifferenceEdge c .real index origin with
  | .ok edge => edge
  | .error _ => ⟨origin, origin, 0, 0⟩

lemma proofDifferenceEdge_saturating {index : ℕ → ℕ} {origin : ℕ} (h : c ∈ saturating pairs spare) :
    c.expression.coefficients ≠ [] ∧
      proofDifferenceEdge c .real index origin = .ok (saturatingEdge index origin c) := by
  have hone : ¬ (1 : ℚ) < 0 := by norm_num
  rcases mem_saturating h with h | ⟨i, -, rfl⟩
  · rcases List.mem_pair.1 h with rfl | rfl <;>
      simp [saturatingEdge, proofDifferenceEdge, differenceEnds, hone]
  · simp [saturatingEdge, proofDifferenceEdge, differenceEnds]

lemma proofDifferenceEdges_saturating (index : ℕ → ℕ) (origin : ℕ) :
    proofDifferenceEdges .real index origin (saturating pairs spare) =
      .ok (some (saturatingEdges (index 0) (index 1) origin pairs
        ((List.range spare).map fun i => index (i + 2)))) := by
  have hopposed : opposed.map (saturatingEdge index origin) =
      [⟨index 1, index 0, 0, -1⟩, ⟨index 0, index 1, 0, -1⟩] := by
    have hone : ¬ (1 : ℚ) < 0 := by norm_num
    simp [opposed, saturatingEdge, proofDifferenceEdge, differenceEnds, hone]
  have hidle (i : ℕ) : saturatingEdge index origin ⟨.real, ⟨0, [(i + 2, 1)]⟩, false⟩ =
      ⟨origin, index (i + 2), 0, 0⟩ := by
    simp [saturatingEdge, proofDifferenceEdge, differenceEnds]
  rw [proofDifferenceEdges_map fun c hc => proofDifferenceEdge_saturating hc, saturating,
    List.map_append, List.map_flatten, List.map_replicate, hopposed, List.map_map, saturatingEdges,
    List.map_map]
  simp only [Function.comp_def, hidle]

/-- **The real difference refutations are not exact** on lists so long that the counters of
infinitesimals saturate: opposed constraints are then found satisfiable. -/
lemma differenceConstraintsUnsat_saturating (hpairs : 0 < pairs)
    (hlong : 2 ^ 63 < 2 * (spare * pairs)) :
    differenceConstraintsUnsat (saturating pairs spare) .real = .ok false := by
  set vars := constraintVariables (saturating pairs spare) with hvars
  have hmem {v : ℕ} : v ∈ vars ↔ ∃ c ∈ saturating pairs spare, v ∈ c.vars :=
    mem_sortedSet.trans List.mem_flatMap
  have hopposed {c : ProofLinearConstraint ℕ} (hc : c ∈ opposed) : c ∈ saturating pairs spare :=
    List.mem_append_left _ (List.mem_flatten.2 ⟨opposed, List.mem_replicate.2 ⟨hpairs.ne', rfl⟩, hc⟩)
  have h0 : 0 ∈ vars := hmem.2 ⟨_, hopposed List.mem_cons_self, by simp [ProofLinearConstraint.vars]⟩
  have h1 : 1 ∈ vars := hmem.2 ⟨_, hopposed List.mem_cons_self, by simp [ProofLinearConstraint.vars]⟩
  have hspare : ∀ i < spare, i + 2 ∈ vars := fun i hi => hmem.2 ⟨_, List.mem_append_right _
    (List.mem_map.2 ⟨i, List.mem_range.2 hi, rfl⟩), by simp [ProofLinearConstraint.vars]⟩
  have hcount : spare ≤ vars.length := by
    have hsub : ((List.range spare).map (· + 2)) ⊆ vars := by
      intro v hv
      obtain ⟨i, hi, rfl⟩ := List.mem_map.1 hv
      exact hspare i (List.mem_range.1 hi)
    have hnodup : ((List.range spare).map (· + 2)).Nodup :=
      List.Nodup.map (fun a b h => by simpa using h) List.nodup_range
    simpa using (List.subperm_of_subset hnodup hsub).length_le
  have hinj {v w : ℕ} (hv : v ∈ vars) (hne : v ≠ w) : vars.idxOf v ≠ vars.idxOf w :=
    fun heq => hne (List.idxOf_inj hv |>.1 heq)
  have hlt {v : ℕ} (hv : v ∈ vars) : vars.length ≠ vars.idxOf v :=
    (List.idxOf_lt_length_iff.2 hv).ne'
  have hsort : ¬ (saturating pairs spare).any fun c => decide (c.sort ≠ .real) := by
    simp only [List.any_eq_true, decide_eq_true_eq, not_exists, not_and, not_not]
    exact fun c hc => sort_saturating hc
  rw [differenceConstraintsUnsat, if_neg hsort]
  dsimp only
  rw [← hvars, proofDifferenceEdges_saturating]
  refine congrArg Except.ok ?_
  have hstart : (fun _ => (0, 0) : ℕ → ℚ × ℤ) = counted (vars.idxOf 0) (vars.idxOf 1) 0 := by
    funext v
    simp [counted]
  rw [hstart]
  refine passes_saturatingEdges (hinj h0 Nat.zero_ne_one) ⟨hlt h0, hlt h1⟩ (fun v hv => ?_)
    (vars.length + 1) 0 ?_
  · obtain ⟨i, hi, rfl⟩ := List.mem_map.1 hv
    have hi := hspare i (List.mem_range.1 hi)
    exact ⟨hinj hi (by omega), hinj hi (by omega)⟩
  · rw [Nat.add_sub_cancel, Nat.zero_add]
    exact hlong.trans_le (Nat.mul_le_mul_left 2 (Nat.mul_le_mul_right pairs hcount))

/-- Some ten thousand million constraints, which the decider gets wrong. -/
theorem realDifference_saturates :
    CanonicalAll (saturating (2 ^ 30) (2 ^ 33)) ∧
      (∀ c ∈ saturating (2 ^ 30) (2 ^ 33), c.sort = .real) ∧
      differenceConstraintsUnsat (saturating (2 ^ 30) (2 ^ 33)) .real = .ok false ∧
      ∀ x, ¬ HoldAll (saturating (2 ^ 30) (2 ^ 33)) x :=
  ⟨canonicalAll_saturating, fun _ hc => sort_saturating hc,
    differenceConstraintsUnsat_saturating (by norm_num) (by norm_num),
    not_holdAll_saturating (by norm_num)⟩

end

end Satrap.Smt
