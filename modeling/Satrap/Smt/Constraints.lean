/-
# Integer constraints

Conjunctions of linear constraints over the integers are decided: by the relaxation of difference
constraints when all of them have that form, by the integer search otherwise.

The value of a variable is its distance less the distance of the origin, so that a constraint on
one variable is an edge from or to the origin and its weight is the bound rounded to an integer.
-/
import Satrap.Logic.Differences
import Satrap.Smt.IntegerSearch

namespace Satrap.Smt

open Logic LinearConstraint

variable {c : LinearConstraint} {constraints : List LinearConstraint} {edge : DifferenceEdge}
  {edges : List DifferenceEdge} {d : ℕ → ℤ} {origin : ℕ}

/-- The variables of a constraint. -/
def LinearConstraint.vars (c : LinearConstraint) : List ℕ := c.expression.coefficients.map Prod.fst

/-- The constraints hold of integers. -/
def IntegersSatisfy (constraints : List LinearConstraint) (x : ℕ → ℤ) : Prop :=
  ∀ c ∈ constraints, c.Holds fun v => x v

/-- The result is a decision over the integers: the values of a model are integers that satisfy
the constraints, and constraints with a solution are not refuted. -/
def ArithmeticSolve.DecidesIntegers (constraints : List LinearConstraint) : ArithmeticSolve → Prop
  | .sat model => ∃ x : ℕ → ℤ, (∀ v, model.values v = x v) ∧ IntegersSatisfy constraints x
  | .unsat => ∀ x, ¬IntegersSatisfy constraints x
  | .incomplete => False

/-! ### The passes over the edges -/

lemma solves_cons {e : Difference ℕ ℤ} {rest : List (Difference ℕ ℤ)} :
    Difference.Solves (e :: rest) d ↔ e.Met d ∧ Difference.Solves rest d := List.forall_mem_cons

/-- The constraint on the distances that an edge stands for. -/
def DifferenceEdge.difference (edge : DifferenceEdge) : Difference ℕ ℤ :=
  ⟨edge.source, edge.target, edge.weight⟩

/-- An edge is relaxed, and a change means that it was not met. -/
lemma relaxEdge_spec (changed : Bool) :
    (relaxEdge (d, changed) edge).1 = Difference.relax d edge.difference ∧
      ((relaxEdge (d, changed) edge).2 = false ↔ changed = false ∧ edge.difference.Met d) := by
  rw [relaxEdge]
  by_cases hlt : d edge.source + edge.weight < d edge.target
  · have hmet : ¬edge.difference.Met d := not_le.2 hlt
    have hrelax : Difference.relax d edge.difference =
        Function.update d edge.target (d edge.source + edge.weight) := if_pos hlt
    rw [hrelax, if_pos hlt]
    exact ⟨rfl, by simp [hmet]⟩
  · have hmet : edge.difference.Met d := not_lt.1 hlt
    rw [Difference.relax_of_met hmet, if_neg hlt]
    exact ⟨rfl, by simp [hmet]⟩

/-- A pass without a change means that all edges are met. -/
lemma foldl_relaxEdge (changed : Bool) :
    (edges.foldl relaxEdge (d, changed)).1 =
        Difference.pass (edges.map DifferenceEdge.difference) d ∧
      ((edges.foldl relaxEdge (d, changed)).2 = false ↔
        changed = false ∧ Difference.Solves (edges.map DifferenceEdge.difference) d) := by
  induction edges generalizing d changed with
  | nil => exact ⟨rfl, by simp [Difference.Solves]⟩
  | cons edge rest ih =>
    obtain ⟨hrelax, hflag⟩ : (relaxEdge (d, changed) edge).1 = _ ∧ _ := relaxEdge_spec changed
    obtain ⟨hpass, hend⟩ :=
      ih (d := (relaxEdge (d, changed) edge).1) (relaxEdge (d, changed) edge).2
    rw [List.foldl_cons]
    refine ⟨by rw [hpass, hrelax]; rfl, ?_⟩
    rw [hend, hflag, hrelax, and_assoc, List.map_cons, solves_cons]
    -- an edge that is met leaves the distances to the rest of the pass as they are
    refine and_congr_right fun _ => and_congr_right fun hmet => ?_
    rw [Difference.relax_of_met hmet]

/-- The passes end with distances that meet all edges, or none of them found all edges met. -/
lemma differencePasses_spec (n : ℕ) :
    match differencePasses edges n d with
    | some d' => 0 < n → Difference.Solves (edges.map DifferenceEdge.difference) d'
    | none => ∀ i < n, ¬Difference.Solves (edges.map DifferenceEdge.difference)
        ((Difference.pass (edges.map DifferenceEdge.difference))^[i] d) := by
  induction n generalizing d with
  | zero => exact fun h => absurd h (lt_irrefl 0)
  | succ n ih =>
    obtain ⟨hpass, hflag⟩ : (edges.foldl relaxEdge (d, false)).1 = _ ∧ _ := foldl_relaxEdge false
    have ih := ih (d := (edges.foldl relaxEdge (d, false)).1)
    rw [differencePasses]
    generalize edges.foldl relaxEdge (d, false) = result at *
    obtain ⟨d', changed⟩ := result
    dsimp only at *
    cases changed with
    | false =>
      have hsolves := (hflag.1 rfl).2
      rw [hpass, Difference.pass_of_solves hsolves]
      exact fun _ => hsolves
    | true =>
      have hunsolved : ¬Difference.Solves (edges.map DifferenceEdge.difference) d :=
        fun hs => by simpa using hflag.2 ⟨rfl, hs⟩
      simp only [Bool.not_true, Bool.false_eq_true, if_false]
      split_ifs with hn
      · intro i hi
        obtain rfl : i = 0 := by omega
        exact hunsolved
      · cases hrun : differencePasses edges n d' with
        | some d'' =>
          rw [hrun] at ih
          exact fun _ => ih (Nat.pos_of_ne_zero hn)
        | none =>
          rw [hrun] at ih
          intro i hi
          cases i with
          | zero => exact hunsolved
          | succ i =>
            rw [Function.iterate_succ_apply, ← hpass]
            exact ih i (by omega)

/-- **The passes decide the edges.**  As many passes as there are vertices find distances that
meet all edges, or there are none. -/
lemma differencePasses_decides
    (hends : ∀ edge ∈ edges, edge.source ≤ origin ∧ edge.target ≤ origin) :
    match differencePasses edges (origin + 1) fun _ => 0 with
    | some d => Difference.Solves (edges.map DifferenceEdge.difference) d
    | none => ∀ d, ¬Difference.Solves (edges.map DifferenceEdge.difference) d := by
  have hvertices : ∀ e ∈ edges.map DifferenceEdge.difference,
      e.source ∈ Finset.range (origin + 1) ∧ e.target ∈ Finset.range (origin + 1) := by
    intro e hm
    obtain ⟨edge, hedge, rfl⟩ := List.mem_map.1 hm
    obtain ⟨hsource, htarget⟩ := hends edge hedge
    exact ⟨Finset.mem_range_succ_iff.2 hsource, Finset.mem_range_succ_iff.2 htarget⟩
  have hspec := @differencePasses_spec edges (fun _ => 0) (origin + 1)
  cases hrun : differencePasses edges (origin + 1) fun _ => 0 with
  | some d =>
    rw [hrun] at hspec
    exact hspec (Nat.succ_pos _)
  | none =>
    rw [hrun] at hspec
    intro d hd
    have hlast := (Difference.exists_solves_iff (fun e hm => (hvertices e hm).1)
      fun e hm => (hvertices e hm).2).1 ⟨d, hd⟩
    rw [Finset.card_range] at hlast
    exact hspec origin (Nat.lt_succ_self _) hlast

/-! ### Constraints as edges -/

/-- The bound on a difference that a constraint sets, in terms of its ends. -/
lemma differenceEdge_some (h : differenceEdge c origin = some edge) :
    ∃ scale : ℚ, 0 < scale ∧
      edge.weight = (if c.strict then ⌈-c.expression.constant / scale⌉ - 1
        else ⌊-c.expression.constant / scale⌋) ∧
      (edge.source = origin ∨ edge.source ∈ c.vars) ∧
        (edge.target = origin ∨ edge.target ∈ c.vars) ∧
      ∀ x f : ℕ → ℤ, (∀ v ∈ c.vars, x v = f v - f origin) →
        c.expression.evaluate (fun v => x v) =
          scale * (f edge.target - f edge.source) + c.expression.constant := by
  have hvalue (x : ℕ → ℚ) : c.expression.evaluate x =
      c.expression.constant + weightedSum x c.expression.coefficients :=
    LinearExpression.evaluate_eq
  obtain ⟨⟨positive, negative, scale⟩, hends, rfl⟩ := Option.map_eq_some_iff.1 h
  refine ⟨scale, ?_⟩
  split at hends
  · next v a hcoefficients =>
    have hv : v ∈ c.vars := by simp [LinearConstraint.vars, hcoefficients]
    split_ifs at hends with hpos hneg
    · cases hends
      refine ⟨hpos, rfl, .inl rfl, .inr hv, fun x f hf => ?_⟩
      rw [hvalue, hcoefficients, weightedSum_cons, weightedSum_nil, hf _ hv]
      push_cast
      ring
    · cases hends
      refine ⟨neg_pos.2 hneg, rfl, .inr hv, .inl rfl, fun x f hf => ?_⟩
      rw [hvalue, hcoefficients, weightedSum_cons, weightedSum_nil, hf _ hv]
      push_cast
      ring
  · next v a w b hcoefficients =>
    have hv : v ∈ c.vars := by simp [LinearConstraint.vars, hcoefficients]
    have hw : w ∈ c.vars := by simp [LinearConstraint.vars, hcoefficients]
    split_ifs at hends with ha hb
    · cases hends
      refine ⟨ha.1, rfl, .inr hw, .inr hv, fun x f hf => ?_⟩
      rw [hvalue, hcoefficients, weightedSum_cons, weightedSum_cons, weightedSum_nil, hf _ hv,
        hf _ hw, ha.2]
      push_cast
      ring
    · cases hends
      refine ⟨hb.1, rfl, .inr hv, .inr hw, fun x f hf => ?_⟩
      rw [hvalue, hcoefficients, weightedSum_cons, weightedSum_cons, weightedSum_nil, hf _ hv,
        hf _ hw, hb.2]
      push_cast
      ring
  · cases hends

/-- An edge says of the distances what its constraint says of the variables. -/
lemma differenceEdge_holds (h : differenceEdge c origin = some edge) {x f : ℕ → ℤ}
    (hf : ∀ v ∈ c.vars, x v = f v - f origin) :
    c.Holds (fun v => x v) ↔ edge.difference.Met f := by
  obtain ⟨scale, hscale, hweight, -, -, hvalue⟩ := differenceEdge_some h
  rw [holds_iff, hvalue x f hf, Difference.Met, DifferenceEdge.difference, hweight]
  split_ifs
  · calc scale * ((f edge.target : ℚ) - f edge.source) + c.expression.constant < 0
        ↔ ((f edge.target - f edge.source : ℤ) : ℚ) < -c.expression.constant / scale := by
          rw [lt_div_iff₀ hscale]
          push_cast
          constructor <;> intro h <;> linarith
      _ ↔ f edge.target ≤ f edge.source + (⌈-c.expression.constant / scale⌉ - 1) := by
          rw [← Int.lt_ceil]
          omega
  · calc scale * ((f edge.target : ℚ) - f edge.source) + c.expression.constant ≤ 0
        ↔ ((f edge.target - f edge.source : ℤ) : ℚ) ≤ -c.expression.constant / scale := by
          rw [le_div_iff₀ hscale]
          push_cast
          constructor <;> intro h <;> linarith
      _ ↔ f edge.target ≤ f edge.source + ⌊-c.expression.constant / scale⌋ := by
          rw [← Int.le_floor]
          omega

/-- Translated constraints have the meaning of their edges, and refuted ones no solution. -/
lemma differenceEdges_spec (hvars : ∀ c ∈ constraints, ∀ v ∈ c.vars, v < origin) :
    match differenceEdges origin constraints with
    | .edges all => (∀ edge ∈ all, edge.source ≤ origin ∧ edge.target ≤ origin) ∧
        ∀ x f : ℕ → ℤ, (∀ c ∈ constraints, ∀ v ∈ c.vars, x v = f v - f origin) →
          (IntegersSatisfy constraints x ↔
            Difference.Solves (all.map DifferenceEdge.difference) f)
    | .refuted => ∀ x, ¬IntegersSatisfy constraints x
    | .unsupported => True := by
  induction constraints with
  | nil => exact ⟨by simp, by simp [IntegersSatisfy, Difference.Solves]⟩
  | cons c rest ih =>
    have ih := ih fun d hd => hvars d (List.mem_cons_of_mem c hd)
    have hall (x : ℕ → ℤ) : IntegersSatisfy (c :: rest) x ↔
        c.Holds (fun v => x v) ∧ IntegersSatisfy rest x := List.forall_mem_cons
    have hbound {v : ℕ} (hv : v = origin ∨ v ∈ c.vars) : v ≤ origin := by
      rcases hv with rfl | hv
      · exact le_rfl
      · exact (hvars c List.mem_cons_self v hv).le
    rw [differenceEdges]
    split_ifs with hsort hconstant hadmits
    · trivial
    · have hfirst (x : ℕ → ℤ) : IntegersSatisfy (c :: rest) x ↔ IntegersSatisfy rest x := by
        rw [hall, holds_iff_of_constant hconstant]
        exact and_iff_right hadmits
      cases hrest : differenceEdges origin rest with
      | edges all =>
        rw [hrest] at ih
        refine ⟨ih.1, fun x f hf => ?_⟩
        rw [hfirst]
        exact ih.2 x f fun d hd => hf d (List.mem_cons_of_mem c hd)
      | refuted =>
        rw [hrest] at ih
        exact fun x hx => ih x ((hfirst x).1 hx)
      | unsupported => trivial
    · exact fun x hx => hadmits ((holds_iff_of_constant hconstant).1 ((hall x).1 hx).1)
    · cases hedge : differenceEdge c origin with
      | none => trivial
      | some edge =>
        obtain ⟨-, -, -, hsource, htarget, -⟩ := differenceEdge_some hedge
        cases hrest : differenceEdges origin rest with
        | edges all =>
          rw [hrest] at ih
          refine ⟨List.forall_mem_cons.2 ⟨⟨hbound hsource, hbound htarget⟩, ih.1⟩, fun x f hf => ?_⟩
          rw [hall, differenceEdge_holds hedge (hf c List.mem_cons_self),
            ih.2 x f fun d hd => hf d (List.mem_cons_of_mem c hd), List.map_cons, solves_cons]
        | refuted =>
          rw [hrest] at ih
          exact fun x hx => ih x ((hall x).1 hx).2
        | unsupported => trivial

/-- The values of the model are the distances from the origin. -/
lemma solveIntegerDifference_spec {variableSorts : List SmtSort}
    (hvars : ∀ c ∈ constraints, ∀ v ∈ c.vars, variableSorts[v]? = some .int) :
    solveIntegerDifference constraints variableSorts = .incomplete ∨
      (solveIntegerDifference constraints variableSorts).DecidesIntegers constraints := by
  have hbound : ∀ c ∈ constraints, ∀ v ∈ c.vars, v < variableSorts.length := fun c hc v hv =>
    (List.getElem?_eq_some_iff.1 (hvars c hc v hv)).1
  have hedges := differenceEdges_spec hbound
  rw [solveIntegerDifference]
  cases hall : differenceEdges variableSorts.length constraints with
  | unsupported => exact .inl rfl
  | refuted =>
    rw [hall] at hedges
    exact .inr hedges
  | edges all =>
    rw [hall] at hedges
    obtain ⟨hends, hmeaning⟩ := hedges
    have hpasses := differencePasses_decides hends
    dsimp only
    cases hrun : differencePasses all (variableSorts.length + 1) fun _ => 0 with
    | none =>
      rw [hrun] at hpasses
      refine .inr fun x hx => hpasses (fun v => if v < variableSorts.length then x v else 0) ?_
      refine (hmeaning x _ fun c hc v hv => ?_).1 hx
      simp [hbound c hc v hv]
    | some distance =>
      rw [hrun] at hpasses
      refine .inr ⟨fun v => if variableSorts[v]? = some .int then
        distance v - distance variableSorts.length else 0, fun v => ?_, ?_⟩
      · dsimp only
        split_ifs <;> simp
      · exact (hmeaning _ distance fun c hc v hv => if_pos (hvars c hc v hv)).2 hpasses

/-! ### The integer search -/

/-- What the linear solver over the integers is given: an expression in canonical form with integral
coefficients over variables of sort Int. -/
structure LinearConstraint.OverIntegers (variableSorts : List SmtSort) (c : LinearConstraint) :
    Prop where
  canonical : c.expression.Canonical
  constant : c.expression.constant.den = 1
  coefficients : ∀ entry ∈ c.expression.coefficients, entry.2.den = 1
  sort : c.sort = .int
  vars : ∀ v ∈ c.vars, variableSorts[v]? = some .int

namespace IntegerExpression

variable {e : LinearExpression} {e' : IntegerExpression}

lemma fromLinear_toProof (e : LinearExpression) :
    (fromLinear e).map toProof =
      ProofIntegerExpression.fromLinear ⟨e.constant, e.coefficients⟩ := by
  rw [fromLinear, ProofIntegerExpression.fromLinear]
  split_ifs <;> rfl

/-- The integer expression of a linear one has its value. -/
lemma evaluate_fromLinear (h : fromLinear e = some e') (x : ℕ → ℤ) :
    (e'.evaluate x : ℚ) = e.evaluate fun v => x v := by
  have hproof := fromLinear_toProof e
  rw [h] at hproof
  rw [← evaluate_toProof, ProofIntegerExpression.evaluate_fromLinear hproof.symm x,
    LinearExpression.evaluate_eq, ProofLinearExpression.evaluate]

lemma canonical_fromLinear (h : fromLinear e = some e') (he : e.Canonical) :
    e'.toProof.Canonical := by
  have hproof := fromLinear_toProof e
  rw [h] at hproof
  exact ProofIntegerExpression.canonical_fromLinear hproof.symm ⟨he.ordered, he.nonzero⟩

end IntegerExpression

variable {variableSorts : List SmtSort}

/-- The inequalities hold of the integers that satisfy the constraints. -/
lemma integerInequalities_some (h : ∀ c ∈ constraints, c.OverIntegers variableSorts) :
    ∃ inequalities, integerInequalities constraints = some inequalities ∧
      (∀ e ∈ inequalities, e.toProof.Canonical) ∧ ∀ x : ℕ → ℤ,
        (∀ e ∈ inequalities, e.evaluate x < 0) ↔ IntegersSatisfy constraints x := by
  induction constraints with
  | nil => exact ⟨[], rfl, by simp, by simp [IntegersSatisfy]⟩
  | cons c rest ih =>
    obtain ⟨hc, hrest⟩ := List.forall_mem_cons.1 h
    obtain ⟨inequalities, hinequalities, hcanonical, hholds⟩ := ih hrest
    obtain ⟨e, he⟩ : ∃ e, IntegerExpression.fromLinear c.expression = some e := by
      refine ⟨_, if_neg ?_⟩
      simpa [hc.constant] using hc.coefficients
    have hfirst := IntegerExpression.canonical_fromLinear he hc.canonical
    have hvalue (x : ℕ → ℤ) := IntegerExpression.evaluate_fromLinear he x
    refine ⟨_, by rw [integerInequalities, if_neg (not_not.2 hc.sort), he, hinequalities]; rfl,
      List.forall_mem_cons.2 ⟨?_, hcanonical⟩, fun x => ?_⟩
    · split
      · exact hfirst
      · exact ⟨hfirst.ordered, hfirst.nonzero⟩
    · rw [IntegersSatisfy, List.forall_mem_cons, List.forall_mem_cons, hholds x, holds_iff,
        ← hvalue x]
      refine and_congr ?_ Iff.rfl
      split
      · exact Int.cast_lt_zero.symm
      · -- an integer is at most zero when one less is below zero
        rw [Int.cast_nonpos, ← IntegerExpression.evaluate_toProof,
          ← IntegerExpression.evaluate_toProof]
        change e.constant - 1 + weightedSum x e.coefficients < 0 ↔
          e.constant + weightedSum x e.coefficients ≤ 0
        omega

lemma firstFound_mono {α β : Type} {attempt attempt' : α → Option (Option β)} {list : List α}
    {result : Option β} (h : ∀ a ∈ list, ∀ r, attempt a = some r → attempt' a = some r)
    (hfound : firstFound attempt list = some result) : firstFound attempt' list = some result := by
  induction list with
  | nil => exact hfound
  | cons a rest ih =>
    obtain ⟨ha, hrest⟩ := List.forall_mem_cons.1 h
    rw [firstFound] at hfound ⊢
    cases hattempt : attempt a with
    | none =>
      rw [hattempt] at hfound
      cases hfound
    | some r =>
      rw [hattempt] at hfound
      rw [ha r hattempt]
      cases r with
      | none => exact ih hrest hfound
      | some b => exact hfound

/-- More fuel does not change an answer. -/
lemma solveIntegerProblem_succ {n : ℕ} {p : IntegerProblem} {vars : List ℕ}
    {result : Option (ℕ → ℤ)} (h : solveIntegerProblem n p vars = some result) :
    solveIntegerProblem (n + 1) p vars = some result := by
  induction n generalizing p vars result with
  | zero => cases h
  | succ n ih =>
    have hmap {α : Type} {f : Option (ℕ → ℤ) → α} {q : IntegerProblem} {left : List ℕ} {a : α}
        (hq : (solveIntegerProblem n q left).map f = some a) :
        (solveIntegerProblem (n + 1) q left).map f = some a := by
      obtain ⟨r, hr, rfl⟩ := Option.map_eq_some_iff.1 hq
      rw [ih hr, Option.map_some]
    rw [solveIntegerProblem] at h ⊢
    cases hsimplify : p.simplify with
    | none =>
      rw [hsimplify] at h
      exact h
    | some q =>
      rw [hsimplify] at h
      dsimp only at h ⊢
      split_ifs at h ⊢ with hvars hrelaxation
      · exact h
      · -- branch and bound
        split at h
        · split at h
          · exact h
          · exact firstFound_mono (fun _ _ _ hr => ih hr) h
        · exact h
      · split at h
        · -- bounded enumeration
          exact firstFound_mono (fun _ _ _ hr => hmap hr) h
        · split at h
          · exact h
          · split_ifs at h ⊢ with hmentions
            · exact hmap h
            · -- Cooper's elimination
              exact firstFound_mono (fun _ _ _ hr => hmap hr) h

lemma solveIntegerProblem_mono {n m : ℕ} {p : IntegerProblem} {vars : List ℕ}
    {result : Option (ℕ → ℤ)} (h : solveIntegerProblem n p vars = some result) (hle : n ≤ m) :
    solveIntegerProblem m p vars = some result := by
  induction hle with
  | refl => exact h
  | step _ ih => exact solveIntegerProblem_succ ih

/-- The integer search decides constraints over the integers, and its model passes the replay. -/
lemma solveIntegerLinear_decides (h : ∀ c ∈ constraints, c.OverIntegers variableSorts) :
    ∃ fuel result, (∀ n ≥ fuel, solveIntegerLinear n constraints = some result) ∧
      result.DecidesIntegers constraints := by
  obtain ⟨inequalities, hinequalities, hcanonical, hholds⟩ := integerInequalities_some h
  set vars := sortedKeys (inequalities.map IntegerExpression.coefficients) with hvars
  set p : IntegerProblem := ⟨inequalities, []⟩ with hp
  have hsolution (x : ℕ → ℤ) : p.Holds x ↔ IntegersSatisfy constraints x := by
    rw [← hholds x, IntegerProblem.Holds]
    simp [hp]
  have hproper : p.Proper vars := by
    have hmem {e : ProofIntegerExpression ℕ} (he : e ∈ p.toProof.inequalities) :
        ∃ e' ∈ inequalities, e'.toProof = e := List.mem_map.1 he
    refine ⟨⟨fun e he => ?_, by simp [hp, IntegerProblem.toProof]⟩,
      ⟨fun e he entry hentry => ?_, by simp [hp, IntegerProblem.toProof]⟩,
      by simp [hp, IntegerProblem.toProof, ProofIntegerProblem.Positive]⟩
    · obtain ⟨e', he', rfl⟩ := hmem he
      exact hcanonical e' he'
    · obtain ⟨e', he', rfl⟩ := hmem he
      rw [hvars, sortedKeys, List.mem_insertionSort, List.mem_dedup, List.mem_flatMap]
      exact ⟨e'.coefficients, List.mem_map_of_mem he', List.mem_map_of_mem hentry⟩
  obtain ⟨fuel, hfuel⟩ := IntegerProblem.solveIntegerProblem_decides hproper
  obtain ⟨result, hresult, hanswers⟩ := hfuel fuel le_rfl
  have hrun (n : ℕ) (hn : n ≥ fuel) := solveIntegerProblem_mono hresult hn
  cases result with
  | none =>
    refine ⟨fuel, .unsat, fun n hn => ?_, fun x hx => hanswers.2 rfl x ((hsolution x).2 hx)⟩
    rw [solveIntegerLinear, hinequalities]
    dsimp only
    rw [hrun n hn]
  | some values =>
    have hsatisfied := (hsolution values).1 (hanswers.1 values rfl)
    refine ⟨fuel, .sat ⟨fun v => values v⟩, fun n hn => ?_, values, fun _ => rfl, hsatisfied⟩
    rw [solveIntegerLinear, hinequalities]
    dsimp only
    rw [hrun n hn]
    exact if_pos (List.all_eq_true.2 hsatisfied)

/-! ### The decision -/

/-- The values are integers at the variables of sort Int. -/
def IntegralAt (variableSorts : List SmtSort) (x : ℕ → ℚ) : Prop :=
  ∀ v, variableSorts[v]? = some .int → ∃ a : ℤ, x v = a

/-- What the solver is given: expressions in canonical form over declared variables, and under the
sort Int integral coefficients over variables of sort Int. -/
structure LinearConstraint.WellSorted (variableSorts : List SmtSort) (c : LinearConstraint) :
    Prop where
  canonical : c.expression.Canonical
  declared : ∀ v ∈ c.vars, variableSorts[v]? = some .int ∨ variableSorts[v]? = some .real
  sort : c.sort = .real ∨ c.OverIntegers variableSorts

/-- Some variable has a sort. -/
def Involves (variableSorts : List SmtSort) (constraints : List LinearConstraint) (sort : SmtSort) :
    Prop := ∃ v ∈ constraints.flatMap LinearConstraint.vars, variableSorts[v]? = some sort

/-- A variable of sort Int occurs together with a variable or a constraint of sort Real. -/
def Mixed (variableSorts : List SmtSort) (constraints : List LinearConstraint) : Prop :=
  Involves variableSorts constraints .int ∧
    (Involves variableSorts constraints .real ∨ ∃ c ∈ constraints, c.sort = .real)

/-- The result is a decision, or the constraints mix the sorts. -/
def ArithmeticSolve.Decides (variableSorts : List SmtSort) (constraints : List LinearConstraint) :
    ArithmeticSolve → Prop
  | .sat model => IntegralAt variableSorts model.values ∧ ∀ c ∈ constraints, c.Holds model.values
  | .unsat => ∀ x, IntegralAt variableSorts x → ¬∀ c ∈ constraints, c.Holds x
  | .incomplete => Mixed variableSorts constraints

/-- Constraints without variables are left to the solver of real arithmetic. -/
lemma solveRealLinear_decides (h : ∀ c ∈ constraints, c.expression.coefficients = []) :
    (solveRealLinear constraints).DecidesIntegers constraints := by
  have hcanonical : ∀ c ∈ constraints, c.expression.Canonical := fun c hc =>
    ⟨by rw [h c hc]; exact List.Pairwise.nil, by simp [h c hc]⟩
  cases hresult : solveRealLinear constraints with
  | sat model =>
    have hzero : ∀ v, model.values v = ((0 : ℤ) : ℚ) := fun v => by
      rw [IntegerProblem.values_eq_zero hresult fun c hc entry hentry =>
        absurd hentry (by simp [h c hc]), Int.cast_zero]
    refine ⟨fun _ => 0, hzero, fun c hc => ?_⟩
    have hholds := IntegerProblem.holds_of_solveRealLinear hcanonical hresult c hc
    rwa [funext hzero] at hholds
  | unsat =>
    intro x hx
    exact IntegerProblem.not_holds_of_solveRealLinear hcanonical
      (fun model hsat => by simp [hresult] at hsat) _ hx
  | incomplete =>
    rw [solveRealLinear_eq] at hresult
    split at hresult <;> cases hresult

lemma involves_iff {sort : SmtSort} :
    (constraints.flatMap LinearConstraint.vars).any
      (fun v => decide (variableSorts[v]? = some sort)) =
      true ↔ Involves variableSorts constraints sort := by
  simp only [List.any_eq_true, decide_eq_true_eq, Involves]

/-- Constraints of both sorts are not decided. -/
lemma solveConstraints_of_mixed (h : Mixed variableSorts constraints) (n : ℕ) :
    solveConstraints n constraints variableSorts = some .incomplete := by
  refine if_pos (Bool.and_eq_true_iff.2 ⟨involves_iff.2 h.1, Bool.or_eq_true_iff.2 (h.2.imp ?_ ?_)⟩)
  · exact involves_iff.2
  · rintro ⟨c, hc, hsort⟩
    exact List.any_eq_true.2 ⟨c, hc, decide_eq_true hsort⟩

lemma solveConstraints_of_integer (h : Involves variableSorts constraints .int)
    (hmixed : ¬Mixed variableSorts constraints) (n : ℕ) :
    solveConstraints n constraints variableSorts =
      match solveIntegerDifference constraints variableSorts with
      | .incomplete => solveIntegerLinear n constraints
      | result => some result := by
  refine (if_neg fun hcondition => hmixed ?_).trans (if_pos (involves_iff.2 h))
  obtain ⟨-, hreal⟩ := Bool.and_eq_true_iff.1 hcondition
  refine ⟨h, (Bool.or_eq_true_iff.1 hreal).imp involves_iff.1 fun hany => ?_⟩
  obtain ⟨c, hc, hsort⟩ := List.any_eq_true.1 hany
  exact ⟨c, hc, of_decide_eq_true hsort⟩

lemma solveConstraints_of_real (h : ¬Involves variableSorts constraints .int) (n : ℕ) :
    solveConstraints n constraints variableSorts = some (solveRealLinear constraints) := by
  have hfalse := mt involves_iff.1 h
  exact (if_neg fun hcondition => hfalse (Bool.and_eq_true_iff.1 hcondition).1).trans
    (if_neg hfalse)

/-- Constraints over the integers are decided. -/
lemma solveConstraints_integers (h : ∀ c ∈ constraints, c.OverIntegers variableSorts)
    (hinteger : Involves variableSorts constraints .int) :
    ∃ fuel result, (∀ n ≥ fuel, solveConstraints n constraints variableSorts = some result) ∧
      result.DecidesIntegers constraints := by
  have hmixed : ¬Mixed variableSorts constraints := by
    rintro ⟨-, ⟨v, hv, hreal⟩ | ⟨c, hc, hreal⟩⟩
    · obtain ⟨c, hc, hv⟩ := List.mem_flatMap.1 hv
      rw [(h c hc).vars v hv] at hreal
      cases hreal
    · rw [(h c hc).sort] at hreal
      cases hreal
  have hstep := solveConstraints_of_integer hinteger hmixed
  have hdifference := solveIntegerDifference_spec fun c hc => (h c hc).vars
  cases hrun : solveIntegerDifference constraints variableSorts with
  | incomplete =>
    obtain ⟨fuel, result, hlinear, hdecides⟩ := solveIntegerLinear_decides h
    refine ⟨fuel, result, fun n hn => ?_, hdecides⟩
    rw [hstep, hrun]
    exact hlinear n hn
  | sat model =>
    rw [hrun] at hdifference
    refine ⟨0, .sat model, fun n _ => ?_, hdifference.resolve_left (by simp)⟩
    rw [hstep, hrun]
  | unsat =>
    rw [hrun] at hdifference
    refine ⟨0, .unsat, fun n _ => ?_, hdifference.resolve_left (by simp)⟩
    rw [hstep, hrun]

lemma LinearConstraint.holds_congr_vars {x y : ℕ → ℚ} (h : ∀ v ∈ c.vars, x v = y v) :
    c.Holds x ↔ c.Holds y := by
  rw [holds_iff, holds_iff, LinearExpression.evaluate_eq, LinearExpression.evaluate_eq,
    weightedSum_congr fun entry he => h entry.1 (List.mem_map_of_mem he)]

/-- **The solver decides well sorted constraints** unless they mix the sorts: it finds values that
are integers where they have to be, or there are none. -/
lemma solveConstraints_outcome (h : ∀ c ∈ constraints, c.WellSorted variableSorts) :
    ∃ fuel result, (∀ n ≥ fuel, solveConstraints n constraints variableSorts = some result) ∧
      result.Decides variableSorts constraints := by
  by_cases hmixed : Mixed variableSorts constraints
  · exact ⟨0, .incomplete, fun n _ => solveConstraints_of_mixed hmixed n, hmixed⟩
  by_cases hinteger : Involves variableSorts constraints .int
  · have hover : ∀ c ∈ constraints, c.OverIntegers variableSorts := fun c hc =>
      (h c hc).sort.resolve_left fun hreal => hmixed ⟨hinteger, .inr ⟨c, hc, hreal⟩⟩
    obtain ⟨fuel, result, hrun, hdecides⟩ := solveConstraints_integers hover hinteger
    refine ⟨fuel, result, hrun, ?_⟩
    cases result with
    | incomplete => exact hdecides.elim
    | sat model =>
      obtain ⟨x, hx, hholds⟩ := hdecides
      exact ⟨fun v _ => ⟨x v, hx v⟩, fun c hc => (holds_congr_vars fun v _ => hx v).2 (hholds c hc)⟩
    | unsat =>
      intro x hintegral hx
      refine hdecides (fun v => ⌊x v⌋) fun c hc => (holds_congr_vars fun v hv => ?_).1 (hx c hc)
      obtain ⟨a, ha⟩ := hintegral v ((hover c hc).vars v hv)
      dsimp only
      rw [ha, Int.floor_intCast]
  · refine ⟨0, _, fun n _ => solveConstraints_of_real hinteger n, ?_⟩
    have hcanonical : ∀ c ∈ constraints, c.expression.Canonical := fun c hc => (h c hc).canonical
    cases hresult : solveRealLinear constraints with
    | sat model =>
      refine ⟨fun v hv => ⟨0, ?_⟩, IntegerProblem.holds_of_solveRealLinear hcanonical hresult⟩
      rw [IntegerProblem.values_eq_zero hresult fun c hc entry hentry heq => hinteger ⟨v, ?_, hv⟩,
        Int.cast_zero]
      exact List.mem_flatMap.2 ⟨c, hc, List.mem_map.2 ⟨entry, hentry, heq⟩⟩
    | unsat =>
      intro x _ hx
      exact IntegerProblem.not_holds_of_solveRealLinear hcanonical
        (fun model hsat => by simp [hresult] at hsat) x hx
    | incomplete =>
      rw [solveRealLinear_eq] at hresult
      split at hresult <;> cases hresult

/-- **Exact integer arithmetic is a decision procedure.**  On constraints with integral
coefficients over integer variables the solver ends, with an integral model that satisfies all of
them when there is one and with a refutation otherwise. -/
theorem solveConstraints_decides (constraints : List LinearConstraint)
    (variableSorts : List SmtSort) (h : ∀ c ∈ constraints, c.OverIntegers variableSorts) :
    ∃ fuel result, (∀ n ≥ fuel, solveConstraints n constraints variableSorts = some result) ∧
      result.DecidesIntegers constraints := by
  by_cases hinteger : Involves variableSorts constraints .int
  · exact solveConstraints_integers h hinteger
  refine ⟨0, _, fun n _ => solveConstraints_of_real hinteger n,
    solveRealLinear_decides fun c hc => ?_⟩
  by_contra hne
  obtain ⟨entry, hentry⟩ := List.exists_mem_of_ne_nil _ hne
  have hv : entry.1 ∈ c.vars := List.mem_map_of_mem hentry
  exact hinteger ⟨entry.1, List.mem_flatMap.2 ⟨c, hc, hv⟩, (h c hc).vars _ hv⟩

/-- Twice the sum of two variables is strictly between zero and two for rationals only. -/
theorem solveConstraints_decides_even :
    ∃ fuel result, (∀ n ≥ fuel, solveConstraints n
        [⟨⟨-2, [(0, 2), (1, 2)]⟩, true, .int⟩, ⟨⟨0, [(0, -2), (1, -2)]⟩, true, .int⟩]
        [.int, .int] = some result) ∧
      result.DecidesIntegers
        [⟨⟨-2, [(0, 2), (1, 2)]⟩, true, .int⟩, ⟨⟨0, [(0, -2), (1, -2)]⟩, true, .int⟩] := by
  refine solveConstraints_decides _ [.int, .int] fun c hc => ?_
  simp only [List.mem_cons, List.not_mem_nil, or_false] at hc
  rcases hc with rfl | rfl
  · exact ⟨⟨by simp [Ordered], by simp⟩, rfl, by decide, rfl, by decide⟩
  · exact ⟨⟨by simp [Ordered], by simp⟩, rfl, by decide, rfl, by decide⟩

end Satrap.Smt
