/-
# Exact linear arithmetic

The decision procedures of `arithmetic.rs` for conjunctions of linear constraints: elimination
over the rationals, difference constraints over the integers, and the integer search by bounded
enumeration, branch and bound and Cooper's elimination.  A hash map of values is a function that
is zero where the map has no entry, as every reader takes it.
-/
import Satrap.Smt.Term
import Mathlib.Data.Rat.Floor

namespace Satrap.Smt

/-! ### Constraints -/

/-- `LinearConstraint`: the expression is at most zero, and below zero when `strict` is set. -/
structure LinearConstraint where
  expression : LinearExpression
  strict : Bool
  sort : SmtSort
deriving DecidableEq

/-- `ArithmeticModel`. -/
structure ArithmeticModel where
  values : ℕ → ℚ

/-- `ArithmeticSolve`. -/
inductive ArithmeticSolve where
  | sat (model : ArithmeticModel)
  | unsat
  | incomplete

/-- The value of an expression meets the constraint. -/
def LinearConstraint.admits (c : LinearConstraint) (value : ℚ) : Bool :=
  if c.strict then decide (value < 0) else decide (value ≤ 0)

/-- The keys of a list of maps, each once, in order. -/
def sortedKeys {α : Type*} (maps : List (List (ℕ × α))) : List ℕ :=
  (maps.flatMap fun entries => entries.map Prod.fst).dedup.insertionSort (· ≤ ·)

/-! ### Real elimination -/

/-- The loop of `simplify_constraints`, after the constraints that have been kept. -/
def simplifyConstraintsFrom :
    List LinearConstraint → List LinearConstraint → Option (List LinearConstraint)
  | kept, [] => some kept
  | kept, c :: rest =>
    if c.expression.coefficients = [] then
      if c.admits c.expression.constant then simplifyConstraintsFrom kept rest else none
    else if c ∈ kept then simplifyConstraintsFrom kept rest
    else simplifyConstraintsFrom (kept ++ [c]) rest

/-- `simplify_constraints`: constraints without variables are decided, duplicates dropped. -/
def simplifyConstraints (constraints : List LinearConstraint) : Option (List LinearConstraint) :=
  simplifyConstraintsFrom [] constraints

/-- `EliminationStage`. -/
structure EliminationStage where
  pivot : ℕ
  bounds : List LinearConstraint

/-- The combination of an upper and a lower bound of a variable. -/
def combineBounds (v : ℕ) (upper lower : LinearConstraint) : LinearConstraint where
  expression :=
    let combined := (upper.expression.scaled (-coefficientOf lower.expression.coefficients v)).addScaled
      lower.expression (coefficientOf upper.expression.coefficients v)
    { combined with coefficients := removeEntry v combined.coefficients }
  strict := upper.strict || lower.strict
  sort := .real

/-- The constraints without the variable, with the combinations of its bounds. -/
def eliminateReal (v : ℕ) (constraints : List LinearConstraint) : List LinearConstraint :=
  let coefficient (c : LinearConstraint) : ℚ := coefficientOf c.expression.coefficients v
  let upper := constraints.filter fun c => decide (0 < coefficient c)
  let lower := constraints.filter fun c => decide (coefficient c < 0)
  (constraints.filter fun c => decide (coefficient c = 0)) ++
    upper.flatMap fun u => lower.map fun l => combineBounds v u l

/-- The elimination loop of `solve_real_linear`; none when the constraints are inconsistent. -/
def realStages : List ℕ → List LinearConstraint → Option (List EliminationStage)
  | [], _ => some []
  | v :: rest, constraints =>
    match simplifyConstraints (eliminateReal v constraints) with
    | none => none
    | some simplified =>
      (realStages rest simplified).map fun stages =>
        ⟨v, constraints.filter fun c =>
          decide (coefficientOf c.expression.coefficients v ≠ 0)⟩ :: stages

/-- `strengthen_lower`. -/
def strengthenLower (current : Option (ℚ × Bool)) (value : ℚ) (strict : Bool) :
    Option (ℚ × Bool) :=
  match current with
  | some (best, bestStrict) =>
    if value < best then current
    else if value = best then some (best, bestStrict || strict)
    else some (value, strict)
  | none => some (value, strict)

/-- `strengthen_upper`. -/
def strengthenUpper (current : Option (ℚ × Bool)) (value : ℚ) (strict : Bool) :
    Option (ℚ × Bool) :=
  match current with
  | some (best, bestStrict) =>
    if best < value then current
    else if value = best then some (best, bestStrict || strict)
    else some (value, strict)
  | none => some (value, strict)

/-- `choose_between`. -/
def chooseBetween : Option (ℚ × Bool) → Option (ℚ × Bool) → ℚ
  | some (lower, _), some (upper, _) => if lower = upper then lower else (lower + upper) / 2
  | some (lower, strict), none => if strict then lower + 1 else lower
  | none, some (upper, strict) => if strict then upper - 1 else upper
  | none, none => 0

/-- The bound that a constraint sets a variable, given the values of the others. -/
def boundOf (v : ℕ) (values : ℕ → ℚ) (c : LinearConstraint) : ℚ :=
  -((removeEntry v c.expression.coefficients).foldl
      (fun sum entry => sum + entry.2 * values entry.1) c.expression.constant) /
    coefficientOf c.expression.coefficients v

/-- One stage of the reconstruction of `solve_real_linear`. -/
def reconstructStage (values : ℕ → ℚ) (stage : EliminationStage) : ℕ → ℚ :=
  let bounds := stage.bounds.foldl
    (fun (p : Option (ℚ × Bool) × Option (ℚ × Bool)) c =>
      let bound := boundOf stage.pivot values c
      if 0 < coefficientOf c.expression.coefficients stage.pivot then
        (p.1, strengthenUpper p.2 bound c.strict)
      else (strengthenLower p.1 bound c.strict, p.2))
    (none, none)
  Function.update values stage.pivot (chooseBetween bounds.1 bounds.2)

/-- `solve_real_linear`. -/
def solveRealLinear (constraints : List LinearConstraint) : ArithmeticSolve :=
  match simplifyConstraints constraints with
  | none => .unsat
  | some simplified =>
    match realStages (sortedKeys (simplified.map fun c => c.expression.coefficients)) simplified with
    | none => .unsat
    | some stages => .sat ⟨stages.reverse.foldl reconstructStage fun _ => 0⟩

/-! ### Difference constraints -/

/-- `DifferenceEdge`: the target is at most the source plus the weight. -/
structure DifferenceEdge where
  source : ℕ
  target : ℕ
  weight : ℤ

/-- `difference_edge`. -/
def differenceEdge (c : LinearConstraint) (origin : ℕ) : Option DifferenceEdge :=
  let ends : Option (ℕ × ℕ × ℚ) :=
    match c.expression.coefficients with
    | [(v, a)] => if 0 < a then some (v, origin, a) else if a < 0 then some (origin, v, -a) else none
    | [(v, a), (w, b)] =>
      if 0 < a ∧ a = -b then some (v, w, a)
      else if 0 < b ∧ b = -a then some (w, v, b)
      else none
    | _ => none
  ends.map fun (positive, negative, scale) =>
    let bound := -c.expression.constant / scale
    ⟨negative, positive, if c.strict then ⌈bound⌉ - 1 else ⌊bound⌋⟩

/-- How the constraints translate to edges. -/
inductive DifferenceEdges where
  | edges (all : List DifferenceEdge)
  | refuted
  | unsupported

/-- The first loop of `solve_integer_difference`. -/
def differenceEdges (origin : ℕ) : List LinearConstraint → DifferenceEdges
  | [] => .edges []
  | c :: rest =>
    if c.sort ≠ .int then .unsupported
    else if c.expression.coefficients = [] then
      if c.admits c.expression.constant then differenceEdges origin rest else .refuted
    else
      match differenceEdge c origin with
      | none => .unsupported
      | some edge =>
        match differenceEdges origin rest with
        | .edges all => .edges (edge :: all)
        | other => other

/-- One edge of a pass over the distances. -/
def relaxEdge (p : (ℕ → ℤ) × Bool) (edge : DifferenceEdge) : (ℕ → ℤ) × Bool :=
  let candidate := p.1 edge.source + edge.weight
  if candidate < p.1 edge.target then (Function.update p.1 edge.target candidate, true) else p

/-- The passes of `solve_integer_difference`: none when the last one still changes a distance. -/
def differencePasses (edges : List DifferenceEdge) : ℕ → (ℕ → ℤ) → Option (ℕ → ℤ)
  | 0, distance => some distance
  | passes + 1, distance =>
    let (distance, changed) := edges.foldl relaxEdge (distance, false)
    if !changed then some distance
    else if passes = 0 then none
    else differencePasses edges passes distance

/-- `solve_integer_difference`. -/
def solveIntegerDifference (constraints : List LinearConstraint) (variableSorts : List SmtSort) :
    ArithmeticSolve :=
  let origin := variableSorts.length
  match differenceEdges origin constraints with
  | .unsupported => .incomplete
  | .refuted => .unsat
  | .edges edges =>
    match differencePasses edges (origin + 1) fun _ => 0 with
    | none => .unsat
    | some distance =>
      .sat ⟨fun v => if variableSorts[v]? = some .int then
        ((distance v - distance origin : ℤ) : ℚ) else 0⟩

/-! ### Integer expressions -/

/-- `IntegerExpression`. -/
structure IntegerExpression where
  constant : ℤ
  coefficients : List (ℕ × ℤ)
deriving DecidableEq

namespace IntegerExpression

/-- `IntegerExpression::from_linear`. -/
def fromLinear (e : LinearExpression) : Option IntegerExpression :=
  if e.constant.den ≠ 1 ∨ e.coefficients.any fun entry => decide (entry.2.den ≠ 1) then none
  else some ⟨e.constant.num, e.coefficients.map fun entry => (entry.1, entry.2.num)⟩

/-- A constant. -/
def ofConstant (value : ℤ) : IntegerExpression := ⟨value, []⟩

/-- `IntegerExpression::variable`. -/
def ofVariable (v : ℕ) : IntegerExpression := ⟨0, [(v, 1)]⟩

/-- `coefficient`. -/
def coefficient (e : IntegerExpression) (v : ℕ) : ℤ := coefficientOf e.coefficients v

/-- `without`. -/
def without (e : IntegerExpression) (v : ℕ) : IntegerExpression :=
  { e with coefficients := removeEntry v e.coefficients }

/-- `scaled`. -/
def scaled (e : IntegerExpression) (scale : ℤ) : IntegerExpression :=
  if scale = 0 then ⟨0, []⟩
  else ⟨e.constant * scale, e.coefficients.map fun entry => (entry.1, entry.2 * scale)⟩

/-- `negated`. -/
def negated (e : IntegerExpression) : IntegerExpression := e.scaled (-1)

/-- One entry of `add_scaled`. -/
def addEntry (scale : ℤ) (coefficients : List (ℕ × ℤ)) (entry : ℕ × ℤ) : List (ℕ × ℤ) :=
  let updated := coefficientOf coefficients entry.1 + entry.2 * scale
  if updated = 0 then removeEntry entry.1 coefficients
  else insertEntry entry.1 updated coefficients

/-- `add_scaled`. -/
def addScaled (e other : IntegerExpression) (scale : ℤ) : IntegerExpression where
  constant := e.constant + other.constant * scale
  coefficients := other.coefficients.foldl (addEntry scale) e.coefficients

/-- `substitute`. -/
def substitute (e : IntegerExpression) (v : ℕ) (value : IntegerExpression) : IntegerExpression :=
  (e.without v).addScaled value (e.coefficient v)

/-- `evaluate`. -/
def evaluate (e : IntegerExpression) (values : ℕ → ℤ) : ℤ :=
  e.coefficients.foldl (fun sum entry => sum + entry.2 * values entry.1) e.constant

/-- `as_linear`. -/
def asLinear (e : IntegerExpression) : LinearExpression :=
  ⟨e.constant, e.coefficients.map fun entry => (entry.1, (entry.2 : ℚ))⟩

/-- The expression with another constant. -/
def withConstant (e : IntegerExpression) (constant : ℤ) : IntegerExpression :=
  { e with constant := constant }

end IntegerExpression

/-- `integer_gcd`: what Euclid's loop on the absolute values computes. -/
def integerGcd (left right : ℤ) : ℤ := Int.gcd left right

/-- `integer_lcm`. -/
def integerLcm (left right : ℤ) : ℤ :=
  if left = 0 ∨ right = 0 then 0 else |(left.tdiv (integerGcd left right)) * right|

/-! ### Integer problems -/

/-- `DivisibilityConstraint`. -/
structure DivisibilityConstraint where
  modulus : ℤ
  expression : IntegerExpression
deriving DecidableEq

/-- `IntegerProblem`: the expressions of the inequalities are below zero. -/
structure IntegerProblem where
  inequalities : List IntegerExpression
  divisibilities : List DivisibilityConstraint

namespace IntegerProblem

/-- `substitute`. -/
def substitute (p : IntegerProblem) (v : ℕ) (value : IntegerExpression) : IntegerProblem where
  inequalities := p.inequalities.map fun e => e.substitute v value
  divisibilities := p.divisibilities.map fun d => { d with
    expression := d.expression.substitute v value }

/-- `mentions`. -/
def mentions (p : IntegerProblem) (v : ℕ) : Bool :=
  p.inequalities.any (fun e => decide (v ∈ e.coefficients.map Prod.fst)) ||
    p.divisibilities.any fun d => decide (v ∈ d.expression.coefficients.map Prod.fst)

/-- The problem with one more inequality. -/
def push (p : IntegerProblem) (e : IntegerExpression) : IntegerProblem :=
  { p with inequalities := p.inequalities ++ [e] }

/-- An inequality divided by the common divisor of its coefficients. -/
def tighten (e : IntegerExpression) : IntegerExpression :=
  let divisor := e.coefficients.foldl (fun result entry => integerGcd result entry.2) 0
  if 1 < divisor then
    ⟨⌊(e.constant : ℚ) / divisor⌋, e.coefficients.map fun entry => (entry.1, entry.2.tdiv divisor)⟩
  else e

/-- The inequalities of `simplify_integer_problem`, after those that have been kept. -/
def simplifyInequalities :
    List IntegerExpression → List IntegerExpression → Option (List IntegerExpression)
  | kept, [] => some kept
  | kept, e :: rest =>
    let e := tighten e
    if e.coefficients = [] then
      if e.constant < 0 then simplifyInequalities kept rest else none
    else if e ∈ kept then simplifyInequalities kept rest
    else simplifyInequalities (kept ++ [e]) rest

/-- A divisibility divided by the common divisor of its modulus and coefficients; none when
the divisor does not divide the constant. -/
def reduceDivisibility (d : DivisibilityConstraint) : Option DivisibilityConstraint :=
  let modulus := |d.modulus|
  if modulus = 0 then none
  else
    let divisor := d.expression.coefficients.foldl
      (fun result entry => integerGcd result entry.2) modulus
    if d.expression.constant.tmod divisor ≠ 0 then none
    else if 1 < divisor then
      some ⟨modulus.tdiv divisor, ⟨d.expression.constant.tdiv divisor,
        d.expression.coefficients.map fun entry => (entry.1, entry.2.tdiv divisor)⟩⟩
    else some { d with modulus := modulus }

/-- The divisibilities of `simplify_integer_problem`, after those that have been kept. -/
def simplifyDivisibilities :
    List DivisibilityConstraint → List DivisibilityConstraint → Option (List DivisibilityConstraint)
  | kept, [] => some kept
  | kept, d :: rest =>
    match reduceDivisibility d with
    | none => none
    | some d =>
      if d.modulus = 1 then simplifyDivisibilities kept rest
      else if d.expression.coefficients = [] then
        if d.expression.constant.tmod d.modulus ≠ 0 then none else simplifyDivisibilities kept rest
      else if d ∈ kept then simplifyDivisibilities kept rest
      else simplifyDivisibilities (kept ++ [d]) rest

/-- `simplify_integer_problem`. -/
def simplify (p : IntegerProblem) : Option IntegerProblem :=
  match simplifyInequalities [] p.inequalities with
  | none => none
  | some inequalities =>
    (simplifyDivisibilities [] p.divisibilities).map fun divisibilities =>
      ⟨inequalities, divisibilities⟩

/-! ### Bounds -/

/-- The loop of `integer_constant_bounds`. -/
def tightenBounds (v : ℕ) (bounds : Option ℤ × Option ℤ) (e : IntegerExpression) :
    Option ℤ × Option ℤ :=
  let coefficient := e.coefficient v
  if e.coefficients.length ≠ 1 ∨ coefficient = 0 then bounds
  else
    let boundary : ℚ := (-e.constant : ℚ) / coefficient
    if 0 < coefficient then
      let candidate := ⌈boundary⌉ - 1
      (bounds.1, some (bounds.2.elim candidate (min candidate)))
    else
      let candidate := ⌊boundary⌋ + 1
      (some (bounds.1.elim candidate (max candidate)), bounds.2)

/-- `integer_constant_bounds`. -/
def constantBounds (p : IntegerProblem) (v : ℕ) : Option (ℤ × ℤ) :=
  match p.inequalities.foldl (tightenBounds v) (none, none) with
  | (some lower, some upper) => some (lower, upper)
  | _ => none

/-- The first element of least key, as `min_by` finds it. -/
def leastBy {α : Type*} (less : α → α → Bool) : List α → Option α
  | [] => none
  | a :: rest => some (rest.foldl (fun best b => if less b best then b else best) a)

/-- `choose_bounded_integer_variable`. -/
def chooseBounded (p : IntegerProblem) (vars : List ℕ) : Option (ℕ × ℤ × ℤ) :=
  leastBy (fun left right =>
      decide (left.2.2 - left.2.1 < right.2.2 - right.2.1 ∨
        left.2.2 - left.2.1 = right.2.2 - right.2.1 ∧ left.1 < right.1))
    (vars.filterMap fun v => (p.constantBounds v).map fun bounds => (v, bounds))

/-! ### Cooper's elimination -/

/-- The coefficients of a variable that are not zero, inequalities first. -/
def coefficientsOf (p : IntegerProblem) (v : ℕ) : List ℤ :=
  (p.inequalities.map (fun e => e.coefficient v) ++
    p.divisibilities.map fun d => d.expression.coefficient v).filter fun a => decide (a ≠ 0)

/-- The least common multiple of the coefficients of a variable. -/
def scaleOf (p : IntegerProblem) (v : ℕ) : ℤ :=
  (p.coefficientsOf v).foldl (fun result a => integerLcm result |a|) 1

/-- `cooper_elimination_cost`. -/
def eliminationCost (p : IntegerProblem) (v : ℕ) : ℤ :=
  if p.coefficientsOf v = [] then 0
  else
    let scale := p.scaleOf v
    let period := p.divisibilities.foldl (fun period d =>
      let coefficient := d.expression.coefficient v
      if coefficient = 0 then period
      else integerLcm period (scale.tdiv |coefficient| * |d.modulus|)) scale
    let lowers := (p.inequalities.filter fun e => decide (e.coefficient v < 0)).length
    let uppers := (p.inequalities.filter fun e => decide (0 < e.coefficient v)).length
    period * (if lowers ≠ 0 then lowers else if uppers ≠ 0 then uppers else 1 : ℕ)

/-- `choose_elimination_variable`. -/
def chooseElimination (p : IntegerProblem) (vars : List ℕ) : Option ℕ :=
  leastBy (fun left right =>
    decide (p.eliminationCost left < p.eliminationCost right ∨
      p.eliminationCost left = p.eliminationCost right ∧ left < right)) vars

/-- An expression scaled so that the coefficient of the variable has absolute value `scale`,
which then becomes the unit of the variable. -/
def normalizeExpression (v : ℕ) (scale : ℤ) (e : IntegerExpression) : IntegerExpression :=
  let coefficient := e.coefficient v
  let expression := (e.without v).scaled (scale.tdiv |coefficient|)
  { expression with
    coefficients := insertEntry v (if 0 < coefficient then 1 else -1) expression.coefficients }

end IntegerProblem

/-- `CooperElimination`. -/
structure CooperElimination where
  normalized : IntegerProblem
  scale : ℤ
  period : ℤ
  lowerBases : List IntegerExpression
  upperBases : List IntegerExpression

namespace IntegerProblem

/-- `normalize_cooper_variable`. -/
def normalizeCooper (p : IntegerProblem) (v : ℕ) : CooperElimination :=
  let scale := p.scaleOf v
  let divisibilities := (p.divisibilities.map fun d =>
    if d.expression.coefficient v = 0 then d
    else ⟨d.modulus * scale.tdiv |d.expression.coefficient v|,
      normalizeExpression v scale d.expression⟩) ++ [⟨scale, .ofVariable v⟩]
  { normalized :=
      ⟨p.inequalities.map fun e =>
        if e.coefficient v = 0 then e else normalizeExpression v scale e, divisibilities⟩
    scale := scale
    period := divisibilities.foldl (fun result d => integerLcm result d.modulus) 1
    lowerBases := (p.inequalities.filter fun e => decide (e.coefficient v < 0)).map fun e =>
      (normalizeExpression v scale e).without v
    upperBases := (p.inequalities.filter fun e => decide (0 < e.coefficient v)).map fun e =>
      ((normalizeExpression v scale e).without v).negated }

end IntegerProblem

namespace CooperElimination

/-- The values that the loops of `solve_integer_problem` try for the scaled variable. -/
def candidates (elimination : CooperElimination) : List IntegerExpression :=
  let offsets := List.range elimination.period.toNat
  if elimination.lowerBases ≠ [] then
    elimination.lowerBases.flatMap fun base => offsets.map fun (i : ℕ) =>
      base.withConstant (base.constant + (i + 1))
  else if elimination.upperBases ≠ [] then
    elimination.upperBases.flatMap fun base => offsets.map fun (i : ℕ) =>
      base.withConstant (base.constant - (i + 1))
  else offsets.map fun (i : ℕ) => .ofConstant i

end CooperElimination

/-! ### The search -/

/-- Try candidates in order until one gives a result; none when an attempt runs out of fuel. -/
def firstFound {α β : Type*} (attempt : α → Option (Option β)) : List α → Option (Option β)
  | [] => some none
  | a :: rest =>
    match attempt a with
    | none => none
    | some none => firstFound attempt rest
    | some (some b) => some (some b)

/-- The relaxation of `solve_bounded_integer_relaxation`. -/
def relaxation (p : IntegerProblem) : List LinearConstraint :=
  p.inequalities.map fun e =>
    ⟨{ e.asLinear with constant := e.asLinear.constant + 1 }, false, .real⟩

/-- The two branches on a variable whose value in the relaxation is not integral. -/
def branches (p : IntegerProblem) (v : ℕ) (value : ℚ) : List IntegerProblem :=
  [p.push ⟨-⌊value⌋ - 1, [(v, 1)]⟩, p.push ⟨⌈value⌉ - 1, [(v, -1)]⟩]

/-- `solve_integer_problem`, with the bodies of `solve_bounded_integer_relaxation` and
`solve_cooper_candidate` in the places of their calls: the values of a solution, if there is
one; none when the recursion goes deeper than the fuel. -/
def solveIntegerProblem : ℕ → IntegerProblem → List ℕ → Option (Option (ℕ → ℤ))
  | 0, _, _ => none
  | fuel + 1, p, vars =>
    match p.simplify with
    | none => some none
    | some p =>
      if vars = [] then some (some fun _ => 0)
      else if 5 ≤ vars.length ∧ p.divisibilities = [] ∧
          vars.all fun v => !p.mentions v || (p.constantBounds v).isSome then
        match solveRealLinear (relaxation p) with
        | .sat model =>
          match vars.find? fun v => decide ((model.values v).den ≠ 1) with
          | none => some (some fun v => if v ∈ vars then (model.values v).num else 0)
          | some v =>
            firstFound (fun branch => solveIntegerProblem fuel branch vars)
              (branches p v (model.values v))
        | _ => some none
      else
        match p.chooseBounded vars with
        | some (v, lower, upper) =>
          firstFound (fun value : ℤ =>
              (solveIntegerProblem fuel (p.substitute v (.ofConstant value))
                (vars.filter fun w => decide (w ≠ v))).map
                  (Option.map fun values => Function.update values v value))
            ((List.range (upper - lower + 1).toNat).map fun i => lower + i)
        | none =>
          match p.chooseElimination vars with
          | none => some none
          | some v =>
            let remaining := vars.filter fun w => decide (w ≠ v)
            if !p.mentions v then
              (solveIntegerProblem fuel p remaining).map
                (Option.map fun values => Function.update values v 0)
            else
              let elimination := p.normalizeCooper v
              firstFound (fun candidate =>
                  (solveIntegerProblem fuel (elimination.normalized.substitute v candidate)
                    remaining).map fun result => result.bind fun values =>
                      let scaled := candidate.evaluate values
                      if scaled.tmod elimination.scale ≠ 0 then none
                      else some (Function.update values v (scaled.tdiv elimination.scale)))
                elimination.candidates

/-- The inequalities of `solve_integer_linear`: an integer is at most zero when one less is
below zero. -/
def integerInequalities : List LinearConstraint → Option (List IntegerExpression)
  | [] => some []
  | c :: rest =>
    if c.sort ≠ .int then none
    else
      match IntegerExpression.fromLinear c.expression with
      | none => none
      | some e =>
        (integerInequalities rest).map fun inequalities =>
          (if c.strict then e else e.withConstant (e.constant - 1)) :: inequalities

/-- `solve_integer_linear`; none when the search runs out of fuel. -/
def solveIntegerLinear (fuel : ℕ) (constraints : List LinearConstraint) : Option ArithmeticSolve :=
  match integerInequalities constraints with
  | none => some .incomplete
  | some inequalities =>
    match solveIntegerProblem fuel ⟨inequalities, []⟩
        (sortedKeys (inequalities.map IntegerExpression.coefficients)) with
    | none => none
    | some none => some .unsat
    | some (some values) =>
      let model : ArithmeticModel := ⟨fun v => (values v : ℚ)⟩
      if constraints.all fun c => c.admits (c.expression.evaluate model.values) then
        some (.sat model)
      else some .incomplete

/-- `solve_constraints`; none when the integer search runs out of fuel. -/
def solveConstraints (fuel : ℕ) (constraints : List LinearConstraint)
    (variableSorts : List SmtSort) : Option ArithmeticSolve :=
  let involved := constraints.flatMap fun c => c.expression.coefficients.map Prod.fst
  let hasInteger := involved.any fun v => decide (variableSorts[v]? = some .int)
  let hasReal := involved.any fun v => decide (variableSorts[v]? = some .real)
  if hasInteger && (hasReal || constraints.any fun c => decide (c.sort = .real)) then
    some .incomplete
  else if hasInteger then
    match solveIntegerDifference constraints variableSorts with
    | .incomplete => solveIntegerLinear fuel constraints
    | result => some result
  else some (solveRealLinear constraints)

end Satrap.Smt
