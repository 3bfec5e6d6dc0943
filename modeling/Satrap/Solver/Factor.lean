/-
# Bounded variable addition

`factor_exact_neighborhoods` looks for a complete matrix of clauses, factors times quotients,
and replaces it by the clauses of a fresh variable that stands for "all factors hold" when it
is false and "all quotients hold" when it is true.
-/
import Satrap.Solver.Eliminate

namespace Satrap

open Logic

/-- `FactorCandidate`: an original clause under the root assignment. -/
structure FactorCandidate where
  reference : ClauseRef
  literals : List Lit

/-- `FactorNeighborhoodSummary`: an order-independent digest of the quotients of a literal. -/
structure FactorNeighborhoodSummary where
  count : ℕ := 0
  sum1 : UInt64 := 0
  sum2 : UInt64 := 0
  xor : UInt64 := 0
deriving DecidableEq

/-- `FactorPlan`. -/
structure FactorPlan where
  factors : List Lit
  quotients : List (List Lit)
  matrix : List ClauseRef
  reduction : ℕ

/-- `factor_hash`. -/
def factorHash (value : UInt64) : UInt64 :=
  let value := (value ^^^ (value >>> 30)) * 0xbf58476d1ce4e5b9
  let value := (value ^^^ (value >>> 27)) * 0x94d049bb133111eb
  value ^^^ (value >>> 31)

/-- `factor_quotient_hash`. -/
def factorQuotientHash (literals : List Lit) (removed : ℕ) (salt : UInt64) : UInt64 :=
  (literals.eraseIdx removed).foldl
    (fun hash l => factorHash (hash ^^^ (UInt64.ofNat (litIndex l) + salt)))
    (factorHash (salt ^^^ UInt64.ofNat (literals.length - 1)))

/-- `u64::rotate_left`. -/
def rotateLeft (value amount : UInt64) : UInt64 :=
  (value <<< amount) ||| (value >>> (64 - amount))

/-- One more quotient in the digest. -/
def FactorNeighborhoodSummary.add (summary : FactorNeighborhoodSummary) (literals : List Lit)
    (removed : ℕ) : FactorNeighborhoodSummary :=
  let hash1 := factorQuotientHash literals removed 0x243f6a8885a308d3
  let hash2 := factorQuotientHash literals removed 0x13198a2e03707344
  { count := summary.count + 1
    sum1 := summary.sum1 + hash1
    sum2 := summary.sum2 + hash2
    xor := summary.xor ^^^ rotateLeft hash1 (hash2 &&& 63) }

namespace Solver

/-- The literals of an original clause that are unassigned at the root, in index order,
when the clause is not satisfied and between 2 and 5 of them remain. -/
def factorLiterals (s : Solver) (c : ClauseRef) : Option (List Lit) :=
  let literals := (s.clause c).literals
  let unassigned := literals.filter fun l => decide (s.value l = none)
  if literals.any (fun l => decide (s.value l = some true)) ∨ unassigned.length < 2 ∨
      5 < unassigned.length then none
  else
    let sorted := (sortLiterals unassigned).dedup
    if sorted.length < 2 then none else some sorted

/-- The clauses of `factor_snapshot`. -/
def factorSnapshot (s : Solver) : List FactorCandidate :=
  (s.clauseReferences.filter s.isOriginal).filterMap fun c =>
    (s.factorLiterals c).map fun literals => ⟨c, literals⟩

/-- The literal touches of a snapshot. -/
def snapshotTouches (snapshot : List FactorCandidate) : ℕ :=
  (snapshot.map fun candidate => candidate.literals.length).sum

/-- The digest of a literal in a snapshot. -/
def factorSummary (snapshot : List FactorCandidate) (factor : Lit) :
    FactorNeighborhoodSummary :=
  snapshot.foldl (fun summary candidate =>
    if factor ∈ candidate.literals then
      summary.add candidate.literals (candidate.literals.idxOf factor)
    else summary) {}

/-- Order of quotients, as lists of packed literals. -/
def quotientLe (p q : List Lit × ClauseRef) : Bool :=
  match compare (p.1.map litIndex) (q.1.map litIndex) with
  | .lt => true
  | .eq => decide (packed p.2 ≤ packed q.2)
  | .gt => false

/-- `factor_neighborhood`: the distinct quotients of a literal in order, the clause each comes
from, and the touches. -/
def factorNeighborhood (snapshot : List FactorCandidate) (factor : Lit) :
    List (List Lit) × List ClauseRef × ℕ :=
  let occurring := snapshot.filter fun candidate => decide (factor ∈ candidate.literals)
  let entries := (occurring.map fun candidate =>
    (candidate.literals.filter fun l => decide (l ≠ factor), candidate.reference)).insertionSort
      fun p q => quotientLe p q = true
  let distinct := entries.destutter fun p q => p.1 ≠ q.1
  (distinct.map Prod.fst, distinct.map Prod.snd, snapshotTouches occurring)

/-- A literal with its neighborhood. -/
structure FactorMember where
  factor : Lit
  summary : FactorNeighborhoodSummary
  quotients : List (List Lit)
  references : List ClauseRef

/-- The literals whose digest another literal shares, in index order. -/
def factorCandidates (s : Solver) (snapshot : List FactorCandidate) : List Lit :=
  let literals := (List.range s.variableCount).flatMap fun v =>
    ([⟨v, true⟩, ⟨v, false⟩] : List Lit)
  let repeated := literals.filter fun l => decide (2 ≤ (factorSummary snapshot l).count)
  repeated.filter fun l =>
    repeated.any fun q => decide (q ≠ l ∧ factorSummary snapshot q = factorSummary snapshot l)

/-- The neighborhoods of the candidate factors, unless the budget is exceeded. -/
def factorMembers (snapshot : List FactorCandidate) (budget : ℕ) :
    List Lit → Solver → Option (List FactorMember) × Solver
  | [], s => (some [], s)
  | factor :: rest, s =>
    let (quotients, references, touches) := factorNeighborhood snapshot factor
    if budget < s.factorizationLiteralTouches + touches then (none, s)
    else
      let s := { s with factorizationLiteralTouches := s.factorizationLiteralTouches + touches }
      match factorMembers snapshot budget rest s with
      | (none, s) => (none, s)
      | (some members, s) =>
        if quotients.length < 2 then (some members, s)
        else (some (⟨factor, factorSummary snapshot factor, quotients, references⟩ :: members), s)

/-- The plan for the factors that share a digest and a list of quotients. -/
def factorPlan (macroOnly : Bool) (members : List FactorMember)
    (key : FactorNeighborhoodSummary × List (List Lit)) : Option FactorPlan :=
  let group := members.filter fun m => decide (m.summary = key.1 ∧ m.quotients = key.2)
  let factors := group.map FactorMember.factor
  let matrix := group.flatMap FactorMember.references
  let before := factors.length * key.2.length
  let after := factors.length + key.2.length
  if factors.length < 2 ∨ key.2.any (fun q => q.any fun l => decide (l ∈ factors)) ∨
      before - after = 0 ∨ (macroOnly ∧ before < after * 2) ∨ matrix.length ≠ before ∨
      ¬ matrix.Nodup then none
  else some ⟨factors, key.2, matrix, before - after⟩

/-- Greater reductions first, then by factors and quotients. -/
def planLe (p q : FactorPlan) : Bool :=
  decide (q.reduction < p.reduction) ||
    (decide (p.reduction = q.reduction) &&
      ((compare (p.factors.map litIndex) (q.factors.map litIndex)).then
        (compare (p.quotients.map (List.map litIndex))
          (q.quotients.map (List.map litIndex)))).isLE)

/-- `exact_factor_plans`. -/
def exactFactorPlans (snapshot : List FactorCandidate) (budget : ℕ) (s : Solver) :
    Option (List FactorPlan) × Solver :=
  match factorMembers snapshot budget (s.factorCandidates snapshot) s with
  | (none, s) => (none, s)
  | (some members, s) =>
    (some (((members.map fun m => (m.summary, m.quotients)).dedup.filterMap
      (factorPlan s.config.macroBoundedVariableAddition members)).insertionSort
        fun p q => planLe p q = true), s)

/-- `install_factored_clause`. -/
def installFactoredClause (pivot : Lit) (literals : List Lit) (s : Solver) : Solver :=
  let sorted := sortLiterals literals
  (s.proofAdd (pivot :: sorted.filter fun l => decide (l ≠ pivot))).addClauseToDb sorted false

/-- `apply_factor_plan`. -/
def applyFactorPlan (O : Oracle) (plan : FactorPlan) (s : Solver) : Bool × Solver :=
  if plan.matrix.any fun c => !s.isOriginal c then (false, s)
  else
    let fresh : Lit := ⟨s.variableCount, true⟩
    let s := s.growVariables O (s.variableCount + 1)
    let s := plan.factors.foldl (fun s factor => s.installFactoredClause fresh [fresh, factor]) s
    let s := plan.quotients.foldl (fun s q => s.installFactoredClause (-fresh) (-fresh :: q)) s
    (true, plan.matrix.foldl markClauseDeleted s)

/-- Apply the plans of a round, counting those that could be applied. -/
def applyFactorPlans (O : Oracle) (plans : List FactorPlan) (s : Solver) : ℕ × Solver :=
  plans.foldl (fun (p : ℕ × Solver) plan =>
    let (applied, s) := applyFactorPlan O plan p.2
    (if applied then p.1 + 1 else p.1, s)) (0, s)

/-- The rounds of `factor_exact_neighborhoods`. -/
def factorRounds (O : Oracle) (budget : ℕ) : ℕ → Solver → Solver
  | 0, s => s
  | rounds + 1, s =>
    let snapshot := s.factorSnapshot
    if snapshot.isEmpty ∨
        budget < s.factorizationLiteralTouches + snapshotTouches snapshot then s
    else
      let s := { s with
        factorizationLiteralTouches :=
          s.factorizationLiteralTouches + snapshotTouches snapshot }
      match exactFactorPlans snapshot budget s with
      | (none, s) => s
      | (some plans, s) =>
        let (applied, s) := applyFactorPlans O plans s
        if applied = 0 then s else factorRounds O budget rounds s

/-- `factor_exact_neighborhoods`. -/
def factorExactNeighborhoods (O : Oracle) (s : Solver) : Solver :=
  factorRounds O (min (max (snapshotTouches s.factorSnapshot * 16) 1000000) 100000000) 8 s

/-- `factorization_density_eligible`. -/
def factorizationDensityEligible (s : Solver) : Bool :=
  decide (0 < s.externalVariableCount) &&
    decide (s.externalVariableCount * 16 ≤ s.factorizationInputShortClauses)

end Solver

end Satrap
