/-
# Root passes: probing, vivification and subsumption

The optional passes that the first query runs at decision level zero and that keep the set of
models.  Each of them goes through a schedule that is fixed when the pass starts; `runPass`
is that loop, with an early answer where the source returns.  A pass answers `false` when it
has found the clauses inconsistent.
-/
import Mathlib.Algebra.GroupWithZero.Nat
import Satrap.Solver.Propagate

namespace Satrap

open Logic

/-- Run the steps of a schedule until one of them answers. -/
def runPass {α : Type} (step : α → Solver → Option Bool × Solver) :
    List α → Solver → Bool × Solver
  | [], s => (true, s)
  | a :: rest, s =>
    match step a s with
    | (some answer, s) => (answer, s)
    | (none, s) => runPass step rest s

namespace Solver

/-- Enqueue a unit that a pass has derived and propagate it. -/
def installUnit (propagate : Solver → Option ClauseRef × Solver) (l : Lit) (s : Solver) :
    Bool × Solver :=
  match s.enqueue l none with
  | (false, s) => (false, s)
  | (true, s) =>
    match propagate s with
    | (some _, s) => (false, s)
    | (none, s) => (true, s)

/-- Go on after an installation that succeeded, answer `false` after one that failed. -/
def proceed : Bool × Solver → Option Bool × Solver
  | (true, s) => (none, s)
  | (false, s) => (some false, s)

/-! ### Failed-literal probing -/

/-- `failed_literal_probe_budget`. -/
def failedLiteralProbeBudget (s : Solver) : ℕ := min (2 * s.variableCount) 100000

/-- One polarity of `probe_failed_literals`. -/
def probePolarity (O : Oracle) (budget startedAt v : ℕ) (positive : Bool) (s : Solver) :
    Option Bool × Solver :=
  if (s.assignments v).isSome then (none, s)
  else if budget ≤ s.probingPropagations - startedAt then (some true, s)
  else
    let assumption : Lit := ⟨v, positive⟩
    let (_, s) := s.newLevel.enqueueInternal false assumption none
    let (conflict, s) := s.propagateProbe O false
    let s := s.cancelUntil O 0
    if conflict.isNone then (none, s)
    else proceed (installUnit (propagateProbe O true) (-assumption) (s.proofAdd [-assumption]))

/-- The two polarities of a variable, the saved phase first. -/
def probeVariable (O : Oracle) (budget startedAt v : ℕ) (s : Solver) : Option Bool × Solver :=
  let savedPhase := s.phase v
  match probePolarity O budget startedAt v savedPhase s with
  | (some answer, s) => (some answer, s)
  | (none, s) => probePolarity O budget startedAt v (!savedPhase) s

/-- `probe_failed_literals`. -/
def probeFailedLiterals (O : Oracle) (s : Solver) : Bool × Solver :=
  runPass (probeVariable O s.failedLiteralProbeBudget s.probingPropagations)
    (List.range s.variableCount) s

/-! ### Vivification -/

/-- `vivification_budget`: the stored literals. -/
def vivificationBudget (s : Solver) : ℕ :=
  min (((List.range s.longCount).map fun i => (s.clause (.long i)).literals.length).sum
    + 2 * s.binaryCount) 1000000

/-- The number of literals of a clause. -/
def clauseLength (s : Solver) (c : ClauseRef) : ℕ := (s.clause c).literals.length

/-- `ClauseRef::packed`: a binary reference has the bit above every index set. -/
def packed : ClauseRef → ℕ
  | .long i => i
  | .binary i => 2 ^ 31 + i

/-- Shorter clauses first, then by reference. -/
def shorterFirst (s : Solver) (c d : ClauseRef) : Bool :=
  decide (s.clauseLength c < s.clauseLength d) ||
    (decide (s.clauseLength c = s.clauseLength d) && decide (packed c ≤ packed d))

/-- `vivification_schedule`. -/
def vivificationSchedule (s : Solver) : List ClauseRef :=
  ((((List.range s.longCount).map ClauseRef.long).filter fun c =>
    !(s.clause c).deleted && !(s.clause c).learned && decide (3 ≤ s.clauseLength c)).insertionSort
      fun c d => s.shorterFirst c d = true).take 5000

/-- The literals of a clause that are unassigned at the root, unless one is true. -/
def vivificationCandidate (s : Solver) (literals : List Lit) : Option (List Lit) :=
  if literals.any fun l => decide (s.value l = some true) then none
  else some (literals.filter fun l => decide (s.value l = none))

/-- A strengthening counts only when it is shorter. -/
def strengthening (originalLength : ℕ) (kept : List Lit) : Option (List Lit) :=
  if kept.length < originalLength then some kept else none

/-- The loop of `vivify_clause`: the negations of the kept literals are decided one by one. -/
def vivifyLiterals (O : Oracle) (clause : ClauseRef) (startedAt budget originalLength : ℕ) :
    List Lit → List Lit → Solver → Option (List Lit) × Solver
  | [], kept, s => (strengthening originalLength kept, s.cancelUntil O 0)
  | l :: rest, kept, s =>
    if budget ≤ s.vivificationPropagations - startedAt then (none, s.cancelUntil O 0)
    else
      match s.value l with
      | some true => (strengthening originalLength (kept ++ [l]), s.cancelUntil O 0)
      | some false => vivifyLiterals O clause startedAt budget originalLength rest kept s
      | none =>
        let (_, s) := s.newLevel.enqueueInternal false (-l) none
        let (conflict, s) := s.propagateVivification O false (some clause)
        if conflict.isSome then
          (strengthening originalLength (kept ++ [l]), s.cancelUntil O 0)
        else vivifyLiterals O clause startedAt budget originalLength rest (kept ++ [l]) s

/-- `vivify_clause`. -/
def vivifyClause (O : Oracle) (clause : ClauseRef) (startedAt budget : ℕ) (s : Solver) :
    Option (List Lit) × Solver :=
  match s.vivificationCandidate (s.clause clause).literals with
  | none => (none, s)
  | some candidate =>
    vivifyLiterals O clause startedAt budget (s.clauseLength clause) candidate [] s

/-- Replace a clause by a stronger one: `install_vivified_clause` and
`install_self_subsumed_clause`, which differ in how they propagate a unit. -/
def installStrengthened (propagate : Solver → Option ClauseRef × Solver) (original : ClauseRef)
    (strengthened : List Lit) (s : Solver) : Bool × Solver :=
  let s := (s.proofAdd strengthened).markClauseDeleted original
  match strengthened with
  | [unit] => installUnit propagate unit s
  | _ => (true, s.addClauseToDb strengthened false)

/-- One clause of `vivify_original_clauses`. -/
def vivifyScheduled (O : Oracle) (budget startedAt : ℕ) (clause : ClauseRef) (s : Solver) :
    Option Bool × Solver :=
  if budget ≤ s.vivificationPropagations - startedAt then (some true, s)
  else if (s.clause clause).deleted then (none, s)
  else
    match vivifyClause O clause startedAt budget s with
    | (none, s) => (none, s)
    | (some strengthened, s) =>
      proceed (installStrengthened (propagateVivification O true none) clause strengthened s)

/-- `vivify_original_clauses`. -/
def vivifyOriginalClauses (O : Oracle) (s : Solver) : Bool × Solver :=
  runPass (vivifyScheduled O s.vivificationBudget s.vivificationPropagations)
    s.vivificationSchedule s

/-! ### Subsumption -/

/-- The clause is stored, not deleted, and not learned. -/
def isOriginal (s : Solver) (c : ClauseRef) : Bool :=
  !(s.clause c).deleted && !(s.clause c).learned

/-- `subsumption_schedule`. -/
def subsumptionSchedule (s : Solver) : List ClauseRef :=
  ((s.clauseReferences.filter fun c =>
    s.isOriginal c && decide (2 ≤ s.clauseLength c) && decide (s.clauseLength c ≤ 8)).insertionSort
      fun c d => s.shorterFirst c d = true).take 5000

/-- `subsumption_literal_touch_budget`. -/
def subsumptionLiteralTouchBudget (s : Solver) : ℕ :=
  min ((s.clauseReferences.filter s.isOriginal).map s.clauseLength).sum 5000000

/-- The clauses that a subsumer with this literal is compared with. -/
def subsumptionOccurrences (s : Solver) (l : Lit) : List ClauseRef :=
  s.clauseReferences.filter fun c =>
    s.isOriginal c && decide (s.clauseLength c ≤ 64) && decide (l ∈ (s.clause c).literals)

/-- One target of a subsumer.  `visited` holds the targets the subsumer has met already. -/
def subsumeTarget (O : Oracle) (budget : ℕ) (subsumer : ClauseRef) (subsumerLiterals : List Lit)
    (target : ClauseRef) (visited : List ClauseRef) (s : Solver) :
    Option Bool × List ClauseRef × Solver :=
  if budget ≤ s.subsumptionLiteralTouches then (some true, visited, s)
  else if target = subsumer ∨ target ∈ visited then (none, visited, s)
  else if !s.isOriginal target || decide (s.clauseLength target < subsumerLiterals.length) then
    (none, target :: visited, s)
  else
    let targetLiterals := (s.clause target).literals
    let s := { s with
      subsumptionLiteralTouches :=
        s.subsumptionLiteralTouches + (subsumerLiterals.length + targetLiterals.length) }
    match subsumerLiterals.filter fun l => decide (l ∉ targetLiterals) with
    | [] => (none, target :: visited, s.markClauseDeleted target)
    | [pivot] =>
      if -pivot ∈ targetLiterals then
        let (answer, s) := proceed (installStrengthened (propagate O) target
          (targetLiterals.filter fun l => decide (l ≠ -pivot)) s)
        (answer, target :: visited, s)
      else (none, target :: visited, s)
    | _ => (none, target :: visited, s)

/-- All targets of a subsumer. -/
def subsumeTargets (O : Oracle) (budget : ℕ) (subsumer : ClauseRef)
    (subsumerLiterals : List Lit) :
    List ClauseRef → List ClauseRef → Solver → Option Bool × Solver
  | [], _, s => (none, s)
  | target :: rest, visited, s =>
    match subsumeTarget O budget subsumer subsumerLiterals target visited s with
    | (some answer, _, s) => (some answer, s)
    | (none, visited, s) => subsumeTargets O budget subsumer subsumerLiterals rest visited s

/-- One subsumer of `subsume_original_clauses`, its literals in the order of their occurrence
counts. -/
def subsumeScheduled (O : Oracle) (budget : ℕ) (occurrences : Lit → List ClauseRef)
    (subsumer : ClauseRef) (s : Solver) : Option Bool × Solver :=
  if (s.clause subsumer).deleted then (none, s)
  else
    let literals := (s.clause subsumer).literals
    let order := literals.insertionSort fun l q =>
      (occurrences l).length ≤ (occurrences q).length
    subsumeTargets O budget subsumer literals (order.flatMap occurrences) [] s

/-- `subsume_original_clauses`. -/
def subsumeOriginalClauses (O : Oracle) (s : Solver) : Bool × Solver :=
  runPass
    (subsumeScheduled O s.subsumptionLiteralTouchBudget s.subsumptionOccurrences)
    s.subsumptionSchedule s

end Solver

end Satrap
