/-
# Arithmetic in refutations

The deciders of `proof.rs` that certify a conflict of linear constraints: difference constraints
by relaxation, integer constraints by Cooper's elimination within a budget of steps, and real
constraints by Fourier–Motzkin elimination.  They work over any ordered type of variables.  A map
is the list of its entries in order, and a set the list of its members in order.
-/
import Mathlib.Data.List.Lex
import Mathlib.Data.List.MinMax
import Mathlib.Data.List.Sort
import Mathlib.Data.Prod.Lex
import Mathlib.Data.Rat.Floor
import Satrap.Smt.Linear

namespace Satrap.Smt

/-- `ProofError`. -/
structure ProofError where
  text : String
deriving DecidableEq

/-- The members of a set collected from a list, in the order of their keys. -/
def sortedSet {α β : Type*} [DecidableEq α] [LinearOrder β] (key : α → β) (items : List α) : List α :=
  items.dedup.insertionSort fun a b => key a ≤ key b

/-! ### Expressions and constraints -/

/-- `ProofSort`. -/
inductive ProofSort where
  | bool
  | bitVec (width : ℕ)
  | uninterpreted (name : String)
  | array (index element : ProofSort)
  | int
  | real
deriving DecidableEq

/-- `ProofLinearExpression`. -/
structure ProofLinearExpression (V : Type) where
  constant : ℚ
  coefficients : List (V × ℚ)
deriving DecidableEq

/-- `ProofLinearConstraint`: the expression is at most zero, and below zero when `strict` is set. -/
structure ProofLinearConstraint (V : Type) where
  sort : ProofSort
  expression : ProofLinearExpression V
  strict : Bool
deriving DecidableEq

variable {V : Type} [LinearOrder V]

namespace ProofLinearExpression

/-- `variable`. -/
def ofVariable (v : V) : ProofLinearExpression V := ⟨0, [(v, 1)]⟩

/-- `scaled`. -/
def scaled (e : ProofLinearExpression V) (scale : ℚ) : ProofLinearExpression V where
  constant := e.constant * scale
  coefficients := (e.coefficients.map fun entry => (entry.1, entry.2 * scale)).filter fun entry =>
    decide (entry.2 ≠ 0)

/-- `add_scaled`. -/
def addScaled (e other : ProofLinearExpression V) (scale : ℚ) : ProofLinearExpression V where
  constant := e.constant + other.constant * scale
  coefficients := other.coefficients.foldl (addMultiple scale) e.coefficients

/-- The coefficient of a variable, zero when it does not occur. -/
def coefficient (e : ProofLinearExpression V) (v : V) : ℚ := coefficientOf e.coefficients v

end ProofLinearExpression

namespace ProofLinearConstraint

/-- The constant of a constraint without variables meets it. -/
def satisfied (c : ProofLinearConstraint V) : Bool :=
  if c.strict then decide (c.expression.constant < 0) else decide (c.expression.constant ≤ 0)

/-- The constant, the entries and the strictness: what the order of constraints of one sort
compares. -/
def key (c : ProofLinearConstraint V) : ℚ ×ₗ List (V ×ₗ ℚ) ×ₗ Bool :=
  toLex (c.expression.constant, toLex (c.expression.coefficients.map toLex, c.strict))

end ProofLinearConstraint

/-! ### Real constraints -/

/-- The loop of `simplify_real_constraints`: none when a constraint without variables fails. -/
def keepRealConstraints :
    List (ProofLinearConstraint V) → Except ProofError (Option (List (ProofLinearConstraint V)))
  | [] => .ok (some [])
  | c :: rest =>
    if c.sort ≠ .real then .error ⟨"linear-real proof contains a constraint of the wrong sort"⟩
    else if c.expression.coefficients = [] then
      if c.satisfied then keepRealConstraints rest else .ok none
    else (keepRealConstraints rest).map (Option.map (c :: ·))

/-- `simplify_real_constraints`. -/
def simplifyRealConstraints (constraints : List (ProofLinearConstraint V)) :
    Except ProofError (Option (List (ProofLinearConstraint V))) :=
  (keepRealConstraints constraints).map (Option.map (sortedSet ProofLinearConstraint.key))

/-- The combination of an upper and a lower bound of a variable. -/
def combineRealBounds (v : V) (upper lower : ProofLinearConstraint V) : ProofLinearConstraint V where
  sort := .real
  expression :=
    let combined := (upper.expression.scaled (-lower.expression.coefficient v)).addScaled
      lower.expression (upper.expression.coefficient v)
    { combined with coefficients := removeEntry v combined.coefficients }
  strict := upper.strict || lower.strict

/-- The constraints without the variable, with the combinations of its bounds. -/
def eliminateRealVariable (v : V) (constraints : List (ProofLinearConstraint V)) :
    List (ProofLinearConstraint V) :=
  let upper := constraints.filter fun c => decide (0 < c.expression.coefficient v)
  let lower := constraints.filter fun c => decide (c.expression.coefficient v < 0)
  (constraints.filter fun c => decide (c.expression.coefficient v = 0)) ++
    upper.flatMap fun u => lower.map fun l => combineRealBounds v u l

/-- The elimination loop of `real_linear_constraints_unsat`. -/
def eliminateRealVariables :
    List V → List (ProofLinearConstraint V) → Except ProofError Bool
  | [], _ => .ok false
  | v :: rest, constraints =>
    if constraints.any fun c => decide (c.sort ≠ .real) then
      .error ⟨"linear-real proof contains a constraint of the wrong sort"⟩
    else
      match simplifyRealConstraints (eliminateRealVariable v constraints) with
      | .error e => .error e
      | .ok none => .ok true
      | .ok (some next) => eliminateRealVariables rest next

/-- The variables of the constraints, in order. -/
def constraintVariables (constraints : List (ProofLinearConstraint V)) : List V :=
  sortedSet id (constraints.flatMap fun c => c.expression.coefficients.map Prod.fst)

/-- `real_linear_constraints_unsat`. -/
def realLinearConstraintsUnsat (constraints : List (ProofLinearConstraint V)) :
    Except ProofError Bool :=
  match simplifyRealConstraints constraints with
  | .error e => .error e
  | .ok none => .ok true
  | .ok (some simplified) => eliminateRealVariables (constraintVariables simplified) simplified

/-! ### Difference constraints -/

/-- `DifferenceEdge` of `proof.rs`. -/
structure ProofDifferenceEdge where
  source : ℕ
  target : ℕ
  weight : ℚ
  epsilon : ℤ

/-- The positive and the negative vertex of `proof_difference_edge`, with the scale of the
coefficients, given the indices of the variables and that of the origin. -/
def differenceEnds (c : ProofLinearConstraint V) (index : V → ℕ) (origin : ℕ) :
    Except ProofError (ℕ × ℕ × ℚ) :=
  let outside := .error ⟨"proof predicate is outside the declared difference-logic fragment"⟩
  match c.expression.coefficients with
  | [(v, a)] =>
    if 0 < a then .ok (index v, origin, a) else if a < 0 then .ok (origin, index v, -a) else outside
  | [(v, a), (w, b)] =>
    if 0 < a ∧ a = -b then .ok (index v, index w, a)
    else if 0 < b ∧ b = -a then .ok (index w, index v, b)
    else outside
  | _ => outside

/-- `proof_difference_edge`. -/
def proofDifferenceEdge (c : ProofLinearConstraint V) (expectedSort : ProofSort) (index : V → ℕ)
    (origin : ℕ) : Except ProofError ProofDifferenceEdge :=
  match differenceEnds c index origin with
  | .error e => .error e
  | .ok (positive, negative, scale) =>
    let bound := -c.expression.constant / scale
    match expectedSort with
    | .int =>
      let integer : ℤ := if c.strict then ⌈bound⌉ - 1 else ⌊bound⌋
      .ok ⟨negative, positive, integer, 0⟩
    | .real => .ok ⟨negative, positive, bound, if c.strict then -1 else 0⟩
    | _ => .error ⟨"difference-logic proof selected a non-arithmetic sort"⟩

/-- The second loop of `difference_constraints_unsat`: none when a constraint without variables
fails. -/
def proofDifferenceEdges (expectedSort : ProofSort) (index : V → ℕ) (origin : ℕ) :
    List (ProofLinearConstraint V) → Except ProofError (Option (List ProofDifferenceEdge))
  | [] => .ok (some [])
  | c :: rest =>
    if c.expression.coefficients = [] then
      if c.satisfied then proofDifferenceEdges expectedSort index origin rest else .ok none
    else
      match proofDifferenceEdge c expectedSort index origin with
      | .error e => .error e
      | .ok edge => (proofDifferenceEdges expectedSort index origin rest).map (Option.map (edge :: ·))

/-- `i64::saturating_add`. -/
def saturatingAdd (a b : ℤ) : ℤ := max (-2 ^ 63) (min (2 ^ 63 - 1) (a + b))

/-- One edge of a pass over the distances. -/
def relaxProofEdge (p : (ℕ → ℚ × ℤ) × Bool) (edge : ProofDifferenceEdge) : (ℕ → ℚ × ℤ) × Bool :=
  let candidate := ((p.1 edge.source).1 + edge.weight,
    saturatingAdd (p.1 edge.source).2 edge.epsilon)
  let current := p.1 edge.target
  if candidate.1 < current.1 ∨ candidate.1 = current.1 ∧ candidate.2 < current.2 then
    (Function.update p.1 edge.target candidate, true)
  else p

/-- The iterations of `difference_constraints_unsat`: whether the last of them still changes a
distance. -/
def proofDifferencePasses (edges : List ProofDifferenceEdge) : ℕ → (ℕ → ℚ × ℤ) → Bool
  | 0, _ => false
  | iterations + 1, distances =>
    let (distances, changed) := edges.foldl relaxProofEdge (distances, false)
    if !changed then false
    else if iterations = 0 then true
    else proofDifferencePasses edges iterations distances

/-- `difference_constraints_unsat`. -/
def differenceConstraintsUnsat (constraints : List (ProofLinearConstraint V))
    (expectedSort : ProofSort) : Except ProofError Bool :=
  if constraints.any fun c => decide (c.sort ≠ expectedSort) then
    .error ⟨"difference-logic constraint has an inconsistent sort"⟩
  else
    let vars := constraintVariables constraints
    match proofDifferenceEdges expectedSort (vars.idxOf ·) vars.length constraints with
    | .error e => .error e
    | .ok none => .ok true
    | .ok (some edges) => .ok (proofDifferencePasses edges (vars.length + 1) fun _ => (0, 0))

/-! ### Integer expressions -/

/-- `ProofIntegerExpression`. -/
structure ProofIntegerExpression (V : Type) where
  constant : ℤ
  coefficients : List (V × ℤ)
deriving DecidableEq

namespace ProofIntegerExpression

/-- `ProofIntegerExpression::from_linear`. -/
def fromLinear (e : ProofLinearExpression V) : Option (ProofIntegerExpression V) :=
  if e.constant.den ≠ 1 ∨ e.coefficients.any fun entry => decide (entry.2.den ≠ 1) then none
  else some ⟨e.constant.num, e.coefficients.map fun entry => (entry.1, entry.2.num)⟩

/-- `ProofIntegerExpression::variable`. -/
def ofVariable (v : V) : ProofIntegerExpression V := ⟨0, [(v, 1)]⟩

/-- `coefficient`. -/
def coefficient (e : ProofIntegerExpression V) (v : V) : ℤ := coefficientOf e.coefficients v

/-- `without`. -/
def without (e : ProofIntegerExpression V) (v : V) : ProofIntegerExpression V :=
  { e with coefficients := removeEntry v e.coefficients }

/-- `scaled`. -/
def scaled (e : ProofIntegerExpression V) (scale : ℤ) : ProofIntegerExpression V :=
  if scale = 0 then ⟨0, []⟩
  else ⟨e.constant * scale, e.coefficients.map fun entry => (entry.1, entry.2 * scale)⟩

/-- `negated`. -/
def negated (e : ProofIntegerExpression V) : ProofIntegerExpression V := e.scaled (-1)

/-- `add_scaled`. -/
def addScaled (e other : ProofIntegerExpression V) (scale : ℤ) : ProofIntegerExpression V where
  constant := e.constant + other.constant * scale
  coefficients := other.coefficients.foldl (addMultiple scale) e.coefficients

/-- `substitute`. -/
def substitute (e : ProofIntegerExpression V) (v : V) (value : ProofIntegerExpression V) :
    ProofIntegerExpression V :=
  (e.without v).addScaled value (e.coefficient v)

/-- The expression with a number added to its constant. -/
def shifted (e : ProofIntegerExpression V) (offset : ℤ) : ProofIntegerExpression V :=
  { e with constant := e.constant + offset }

/-- The constant and the entries: what the order of expressions compares. -/
def key (e : ProofIntegerExpression V) : ℤ ×ₗ List (V ×ₗ ℤ) :=
  toLex (e.constant, e.coefficients.map toLex)

end ProofIntegerExpression

/-- `proof_integer_gcd`: what Euclid's loop on the absolute values computes. -/
def proofIntegerGcd (left right : ℤ) : ℤ := Int.gcd left right

/-- `proof_integer_lcm`. -/
def proofIntegerLcm (left right : ℤ) : ℤ :=
  if left = 0 ∨ right = 0 then 0 else |(left.tdiv (proofIntegerGcd left right)) * right|

/-! ### Integer problems -/

/-- `ProofDivisibilityConstraint`. -/
structure ProofDivisibilityConstraint (V : Type) where
  modulus : ℤ
  expression : ProofIntegerExpression V
deriving DecidableEq

/-- The modulus and the expression: what the order of divisibilities compares. -/
def ProofDivisibilityConstraint.key (d : ProofDivisibilityConstraint V) :
    ℤ ×ₗ ℤ ×ₗ List (V ×ₗ ℤ) :=
  toLex (d.modulus, d.expression.key)

/-- `ProofIntegerProblem`: the expressions of the inequalities are below zero. -/
structure ProofIntegerProblem (V : Type) where
  inequalities : List (ProofIntegerExpression V)
  divisibilities : List (ProofDivisibilityConstraint V)

/-- Steps that may be spent, and errors. -/
abbrev IntegerProof := StateT ℕ (Except ProofError)

/-- `MAX_INTEGER_PROOF_VARIABLES`. -/
def maxIntegerProofVariables : ℕ := 512

/-- `MAX_INTEGER_PROOF_WORK`. -/
def maxIntegerProofWork : ℕ := 1000000

/-- `IntegerProofBudget::spend`. -/
def spend (amount : ℕ) : IntegerProof Unit := fun remaining =>
  if amount ≤ remaining then .ok ((), remaining - amount)
  else .error ⟨"linear-integer proof exceeded its deterministic work limit of 1000000 steps"⟩

namespace ProofIntegerProblem

/-- `substitute`. -/
def substitute (p : ProofIntegerProblem V) (v : V) (value : ProofIntegerExpression V) :
    ProofIntegerProblem V where
  inequalities := p.inequalities.map fun e => e.substitute v value
  divisibilities := p.divisibilities.map fun d => { d with
    expression := d.expression.substitute v value }

/-- `mentions`. -/
def mentions (p : ProofIntegerProblem V) (v : V) : Bool :=
  p.inequalities.any (fun e => decide (v ∈ e.coefficients.map Prod.fst)) ||
    p.divisibilities.any fun d => decide (v ∈ d.expression.coefficients.map Prod.fst)

/-- An inequality divided by the common divisor of its coefficients. -/
def tighten (e : ProofIntegerExpression V) : ProofIntegerExpression V :=
  let divisor := e.coefficients.foldl (fun result entry => proofIntegerGcd result entry.2) 0
  if 1 < divisor then
    ⟨⌊(e.constant : ℚ) / divisor⌋, e.coefficients.map fun entry => (entry.1, entry.2.tdiv divisor)⟩
  else e

/-- The first loop of `simplify_proof_integer_problem`: none when an inequality without variables
fails. -/
def keepInequalities : List (ProofIntegerExpression V) → Option (List (ProofIntegerExpression V))
  | [] => some []
  | e :: rest =>
    let e := tighten e
    if e.coefficients = [] then
      if e.constant < 0 then keepInequalities rest else none
    else (keepInequalities rest).map (e :: ·)

/-- A divisibility divided by the common divisor of its modulus and coefficients; none when the
divisor does not divide the constant. -/
def reduceDivisibility (d : ProofDivisibilityConstraint V) :
    Except ProofError (Option (ProofDivisibilityConstraint V)) :=
  let modulus := |d.modulus|
  if modulus = 0 then .error ⟨"linear-integer proof produced a zero divisibility modulus"⟩
  else
    let divisor := d.expression.coefficients.foldl
      (fun result entry => proofIntegerGcd result entry.2) modulus
    if d.expression.constant.tmod divisor ≠ 0 then .ok none
    else if 1 < divisor then
      .ok (some ⟨modulus.tdiv divisor, ⟨d.expression.constant.tdiv divisor,
        d.expression.coefficients.map fun entry => (entry.1, entry.2.tdiv divisor)⟩⟩)
    else .ok (some { d with modulus := modulus })

/-- The second loop of `simplify_proof_integer_problem`. -/
def keepDivisibilities : List (ProofDivisibilityConstraint V) →
    Except ProofError (Option (List (ProofDivisibilityConstraint V)))
  | [] => .ok (some [])
  | d :: rest =>
    match reduceDivisibility d with
    | .error e => .error e
    | .ok none => .ok none
    | .ok (some d) =>
      if d.modulus = 1 then keepDivisibilities rest
      else if d.expression.coefficients = [] then
        if d.expression.constant.tmod d.modulus ≠ 0 then .ok none else keepDivisibilities rest
      else (keepDivisibilities rest).map (Option.map (d :: ·))

/-- `simplify_proof_integer_problem`. -/
def simplify (p : ProofIntegerProblem V) : IntegerProof (Option (ProofIntegerProblem V)) := do
  spend (p.inequalities.length + p.divisibilities.length)
  match keepInequalities p.inequalities with
  | none => return none
  | some inequalities =>
    return (← keepDivisibilities p.divisibilities).map fun divisibilities =>
      ⟨sortedSet ProofIntegerExpression.key inequalities,
        sortedSet ProofDivisibilityConstraint.key divisibilities⟩

/-! ### Cooper's elimination -/

/-- The coefficients of a variable that are not zero, inequalities first. -/
def coefficientsOf (p : ProofIntegerProblem V) (v : V) : List ℤ :=
  (p.inequalities.map (fun e => e.coefficient v) ++
    p.divisibilities.map fun d => d.expression.coefficient v).filter fun a => decide (a ≠ 0)

/-- The least common multiple of the coefficients of a variable. -/
def scaleOf (p : ProofIntegerProblem V) (v : V) : ℤ :=
  (p.coefficientsOf v).foldl (fun result a => proofIntegerLcm result |a|) 1

/-- `proof_cooper_elimination_cost`. -/
def eliminationCost (p : ProofIntegerProblem V) (v : V) : ℤ :=
  if p.coefficientsOf v = [] then 0
  else
    let scale := p.scaleOf v
    let period := p.divisibilities.foldl (fun period d =>
      let coefficient := d.expression.coefficient v
      if coefficient = 0 then period
      else proofIntegerLcm period (scale.tdiv |coefficient| * |d.modulus|)) scale
    let lowers := (p.inequalities.filter fun e => decide (e.coefficient v < 0)).length
    let uppers := (p.inequalities.filter fun e => decide (0 < e.coefficient v)).length
    period * (if lowers ≠ 0 then lowers else if uppers ≠ 0 then uppers else 1 : ℕ)

/-- `choose_proof_elimination_variable`. -/
def chooseElimination (p : ProofIntegerProblem V) (vars : List V) : Option V :=
  let order : LinearOrder (ℤ ×ₗ V) :=
    @Prod.Lex.instLinearOrder ℤ V Int.instLinearOrder inferInstance
  let _ : Preorder (ℤ ×ₗ V) := order.toPreorder
  vars.argmin fun v => (toLex (p.eliminationCost v, v) : ℤ ×ₗ V)

/-- An expression scaled so that the coefficient of the variable has absolute value `scale`,
which then becomes the unit of the variable. -/
def normalizeExpression (v : V) (scale : ℤ) (e : ProofIntegerExpression V) :
    ProofIntegerExpression V :=
  let expression := (e.without v).scaled (scale.tdiv |e.coefficient v|)
  { expression with
    coefficients := insertEntry v (if 0 < e.coefficient v then 1 else -1) expression.coefficients }

end ProofIntegerProblem

/-- `ProofCooperElimination`. -/
structure ProofCooperElimination (V : Type) where
  normalized : ProofIntegerProblem V
  period : ℤ
  lowerBases : List (ProofIntegerExpression V)
  upperBases : List (ProofIntegerExpression V)

namespace ProofIntegerProblem

/-- What `normalize_proof_cooper_variable` makes of a problem that mentions the variable. -/
def cooperElimination (p : ProofIntegerProblem V) (v : V) : ProofCooperElimination V :=
  let scale := p.scaleOf v
  let divisibilities := (p.divisibilities.map fun d =>
    if d.expression.coefficient v = 0 then d
    else ⟨d.modulus * scale.tdiv |d.expression.coefficient v|,
      normalizeExpression v scale d.expression⟩) ++ [⟨scale, .ofVariable v⟩]
  { normalized :=
      ⟨p.inequalities.map fun e =>
        if e.coefficient v = 0 then e else normalizeExpression v scale e, divisibilities⟩
    period := divisibilities.foldl (fun result d => proofIntegerLcm result d.modulus) 1
    lowerBases := (p.inequalities.filter fun e => decide (e.coefficient v < 0)).map fun e =>
      (normalizeExpression v scale e).without v
    upperBases := (p.inequalities.filter fun e => decide (0 < e.coefficient v)).map fun e =>
      ((normalizeExpression v scale e).without v).negated }

/-- `normalize_proof_cooper_variable`. -/
def normalizeCooper (p : ProofIntegerProblem V) (v : V) :
    IntegerProof (ProofCooperElimination V) := do
  spend (p.inequalities.length + p.divisibilities.length)
  if p.coefficientsOf v = [] then
    throw ⟨"linear-integer proof tried to eliminate an absent variable"⟩
  else return p.cooperElimination v

/-- The offsets from the first one on, until one of them is found to work. -/
def anyOffset (attempt : ℤ → IntegerProof Bool) : ℕ → ℤ → IntegerProof Bool
  | 0, _ => return false
  | count + 1, offset => do
    spend 1
    if ← attempt offset then return true
    else anyOffset attempt count (offset + 1)

/-- The candidates of an elimination, each of them tried with the rest of the search. -/
def anyCandidate (elimination : ProofCooperElimination V)
    (attempt : ProofIntegerExpression V → IntegerProof Bool) : IntegerProof Bool :=
  let count := elimination.period.toNat
  if elimination.lowerBases ≠ [] then
    elimination.lowerBases.anyM fun base =>
      anyOffset (fun offset => attempt (base.shifted offset)) count 1
  else if elimination.upperBases ≠ [] then
    elimination.upperBases.anyM fun base =>
      anyOffset (fun offset => attempt (base.shifted (-offset))) count 1
  else anyOffset (fun value => attempt ⟨value, []⟩) count 0

/-- `integer_problem_satisfiable`, for at most as many variables as the first number says. -/
def satisfiable : ℕ → ProofIntegerProblem V → List V → IntegerProof Bool
  | depth, p, vars => do
    spend 1
    let some p ← p.simplify | return false
    let some v := p.chooseElimination vars | return true
    match depth with
    | 0 => return true
    | depth + 1 =>
      let remaining := vars.filter fun w => decide (w ≠ v)
      if !p.mentions v then satisfiable depth p remaining
      else
        let elimination ← p.normalizeCooper v
        anyCandidate elimination fun candidate =>
          satisfiable depth (elimination.normalized.substitute v candidate) remaining

end ProofIntegerProblem

/-- The loop of `integer_linear_constraints_unsat`: an integer is at most zero when one less is
below zero. -/
def proofInequalities :
    List (ProofLinearConstraint V) → Except ProofError (List (ProofIntegerExpression V))
  | [] => .ok []
  | c :: rest =>
    if c.sort ≠ .int then
      .error ⟨"linear-integer proof contains a constraint of the wrong sort"⟩
    else
      match ProofIntegerExpression.fromLinear c.expression with
      | none => .error ⟨"linear-integer proof contains a non-integral affine expression"⟩
      | some e =>
        (proofInequalities rest).map ((if c.strict then e else e.shifted (-1)) :: ·)

/-- `integer_linear_constraints_unsat`. -/
def integerLinearConstraintsUnsat (constraints : List (ProofLinearConstraint V)) :
    Except ProofError Bool := do
  let inequalities ← proofInequalities constraints
  let vars := sortedSet id (inequalities.flatMap fun e => e.coefficients.map Prod.fst)
  if vars.length > maxIntegerProofVariables then
    throw ⟨s!"linear-integer proof has {vars.length} variables; " ++
      "the deterministic proof limit is 512"⟩
  let (satisfiable, _) ←
    (ProofIntegerProblem.satisfiable vars.length ⟨inequalities, []⟩ vars).run maxIntegerProofWork
  return !satisfiable

end Satrap.Smt
