/-
# The incremental interface

Adding clauses, opening and closing scopes, and answering queries under assumptions and
limits.  A scope is a fresh selector variable: the clauses of the scope carry its negation,
queries assume it, and closing the scope asserts the negation for good.
-/
import Satrap.Solver.Search
import Satrap.Solver.Factor

namespace Satrap

open Logic

namespace Solver

/-! ### Mutations -/

/-- The passes that cannot be undone have been enabled. -/
def irreversible (s : Solver) : Bool :=
  s.config.boundedVariableElimination || s.config.boundedVariableAddition

/-- `prepare_incremental_mutation`, when it does not refuse. -/
def prepareIncrementalMutation (O : Oracle) (s : Solver) : Solver :=
  { (if s.started then s.cancelUntil O 0 else s) with
    cachedResult := none
    cachedAssumptions := []
    failedAssumptions := [] }

/-- The variable count grows for all clients to see. -/
def growExternal (O : Oracle) (s : Solver) (count : ℕ) : Solver :=
  { s.growVariables O count with externalVariableCount := count }

/-- One more than the greatest variable of a clause. -/
def requiredVariables (literals : List Lit) : ℕ :=
  literals.foldl (fun n l => max n (l.var + 1)) 0

/-- The statistics and the proof input of a normalized clause. -/
def recordInput (kind : ProofClauseKind) (literals : List Lit) (s : Solver) : Solver :=
  { s with
    proofInput := s.proofInput.map fun input => input ++ [⟨kind, literals⟩]
    factorizationInputShortClauses :=
      if s.config.boundedVariableAddition ∧ 2 ≤ literals.length ∧ literals.length ≤ 5 then
        s.factorizationInputShortClauses + 1
      else s.factorizationInputShortClauses }

/-- A normalized clause enters a solver that has not started. -/
def addFresh (literals : List Lit) (s : Solver) : Solver :=
  match literals with
  | [] => { s with consistent := false }
  | [l] =>
    match s.enqueue l none with
    | (true, s) => s
    | (false, s) => { s with consistent := false }
  | _ => s.addClauseToDb literals false

/-- Store a clause whose unassigned literals come first, at least one, none being true. -/
def storeOpenClause (literals : List Lit) (unassigned : ℕ) (s : Solver) : Solver :=
  match literals with
  | [] => s
  | [l] => (s.enqueue l none).2
  | l :: _ =>
    let clause := s.nextReference literals
    let s := s.addClauseToDb literals false
    if unassigned = 1 then (s.enqueue l (some clause)).2 else s

/-- A normalized clause enters a solver that has started: `false` when the clauses have become
inconsistent. -/
def addStarted (O : Oracle) (literals : List Lit) (s : Solver) : Bool × Solver :=
  if !s.consistent then (false, s)
  else
    match s.propagate O with
    | (some _, s) => (false, { s with consistent := false })
    | (none, s) =>
      if literals.any fun l => decide (s.value l = some true) then (true, s)
      else
        let unassigned := literals.filter fun l => decide (s.value l = none)
        if unassigned.isEmpty then (false, { s with consistent := false })
        else
          let sorted := unassigned ++ literals.filter fun l => decide (s.value l ≠ none)
          match (s.storeOpenClause sorted unassigned.length).propagate O with
          | (some _, s) => (false, { s with consistent := false })
          | (none, s) => (s.consistent, s)

/-- The part of `add_clause_internal` after the variables have been introduced. -/
def addNormalized (O : Oracle) (kind : ProofClauseKind) (literals : List Lit) (s : Solver) :
    Bool × Solver :=
  match mergeSorted (sortLiterals literals) with
  | none => (s.consistent, s)
  | some literals =>
    let s := s.recordInput kind literals
    if s.started then s.addStarted O literals
    else
      let s := s.addFresh literals
      (s.consistent, s)

/-- `guard_with_scope`: the clause belongs to the innermost scope. -/
def guarded (s : Solver) (guardWithScope : Bool) (literals : List Lit) : List Lit :=
  match if guardWithScope then s.scopeSelectors.getLast? else none with
  | some selector => literals ++ [-selector]
  | none => literals

/-- `add_clause_internal`. -/
def addClauseInternal (O : Oracle) (literals : List Lit) (guardWithScope : Bool)
    (kind : ProofClauseKind) (s : Solver) : Except IncrementalError Bool × Solver :=
  if s.started && s.irreversible then (.error .irreversiblePreprocessing, s)
  else
    let s := s.prepareIncrementalMutation O
    let literals := s.guarded guardWithScope literals
    let required := requiredVariables literals
    if s.externalVariableCount < required ∧ maxVariables < required then
      (.error .variableLimit, s)
    else
      let s := if s.externalVariableCount < required then s.growExternal O required else s
      let (consistent, s) := s.addNormalized O kind literals
      (.ok consistent, s)

/-- `try_add_clause`. -/
def tryAddClause (O : Oracle) (literals : List Lit) (s : Solver) :
    Except IncrementalError Bool × Solver :=
  s.addClauseInternal O literals true .formula

/-- `add_encoding_clause`. -/
def addEncodingClause (O : Oracle) (literals : List Lit) (s : Solver) :
    Except IncrementalError Bool × Solver :=
  s.addClauseInternal O literals false .encoding

/-- `add_theory_clause`. -/
def addTheoryClause (O : Oracle) (literals : List Lit) (s : Solver) :
    Except IncrementalError Bool × Solver :=
  s.addClauseInternal O literals false .theory

/-- `try_reserve_variables`. -/
def tryReserveVariables (O : Oracle) (count : ℕ) (s : Solver) :
    Except IncrementalError Unit × Solver :=
  if count ≤ s.externalVariableCount then (.ok (), s)
  else if maxVariables < count then (.error .variableLimit, s)
  else if s.started && s.irreversible then (.error .irreversiblePreprocessing, s)
  else (.ok (), (s.prepareIncrementalMutation O).growExternal O count)

/-- `check_push_levels`. -/
def checkPushLevels (s : Solver) (levels : ℕ) : Except IncrementalError Unit :=
  if levels = 0 then .ok ()
  else if s.irreversible then .error .irreversiblePreprocessing
  else if maxVariables < s.externalVariableCount + levels then .error .variableLimit
  else .ok ()

/-- `push_levels`. -/
def pushLevels (O : Oracle) (levels : ℕ) (s : Solver) : Except IncrementalError Unit × Solver :=
  match s.checkPushLevels levels with
  | .error e => (.error e, s)
  | .ok () =>
    if levels = 0 then (.ok (), s)
    else
      let oldCount := s.externalVariableCount
      let s := (s.prepareIncrementalMutation O).growExternal O (oldCount + levels)
      (.ok (),
        { s with
          scopeSelectors := s.scopeSelectors ++
            (List.range' oldCount levels).map fun v => ⟨v, true⟩ })

/-- The loop of `pop`. -/
def popScopes (O : Oracle) : ℕ → Solver → Except IncrementalError Unit × Solver
  | 0, s => (.ok (), s)
  | levels + 1, s =>
    match s.scopeSelectors.getLast? with
    | none => (.error .scopeUnderflow, s)
    | some selector =>
      match ({ s with scopeSelectors := s.scopeSelectors.dropLast }).addClauseInternal O
          [-selector] false .administrative with
      | (.error e, s) => (.error e, s)
      | (.ok _, s) => popScopes O levels s

/-- `pop`. -/
def pop (O : Oracle) (levels : ℕ) (s : Solver) : Except IncrementalError Unit × Solver :=
  if s.scopeSelectors.length < levels then (.error .scopeUnderflow, s)
  else if levels = 0 then (.ok (), s)
  else if s.irreversible then (.error .irreversiblePreprocessing, s)
  else popScopes O levels (s.prepareIncrementalMutation O)

/-! ### Queries -/

/-- Run the next root pass if it is enabled and no conflict has been found. -/
def thenPass (enabled : Bool) (pass : Solver → Bool × Solver) : Bool × Solver → Bool × Solver
  | (true, s) => if enabled then pass s else (true, s)
  | (false, s) => (false, s)

/-- The optional root passes of the first query, in order. -/
def rootPasses (O : Oracle) (s : Solver) : Bool × Solver :=
  thenPass (s.config.boundedVariableAddition &&
      (!s.config.macroBoundedVariableAddition || s.factorizationDensityEligible))
    (fun s => (true, s.factorExactNeighborhoods O))
    (thenPass s.config.boundedVariableElimination (eliminateVariables O)
      (thenPass s.config.clauseSubsumption (subsumeOriginalClauses O)
        (thenPass s.config.clauseVivification (vivifyOriginalClauses O)
          (thenPass s.config.failedLiteralProbing (probeFailedLiterals O) (true, s)))))

/-- The root propagation of a query and, the first time, the root passes: `false` when the
permanent clauses turn out inconsistent. -/
def prepareQuery (O : Oracle) (s : Solver) : Bool × Solver :=
  let firstQuery := !s.started
  let s := { (if firstQuery then { s with started := true } else s.cancelUntil O 0) with
    failedAssumptions := [] }
  if !s.consistent then (false, s)
  else
    match s.propagate O with
    | (some _, s) => (false, s)
    | (none, s) => if firstQuery then rootPasses O s else (true, s)

/-- `begin_search_control`. -/
def beginSearchControl (limits : SolveLimits) (s : Solver) : Solver :=
  { s with
    searchLimits := limits
    searchStartConflicts := s.conflicts
    searchStartPropagations := s.propagations
    stopReason := none
    searchControlActive := true }

/-- The answer of a query after its preparation; at most `fuel` search iterations. -/
def answerQuery (O : Oracle) (fuel : ℕ) (query : List Lit) (limits : SolveLimits) :
    Bool × Solver → Option (SolveResult × Solver)
  | (false, s) => some (.unsat, { s with consistent := false })
  | (true, s) =>
    if O.interrupted s.clock then some (.unknown .interrupted, s.tick)
    else
      match (s.tick.beginSearchControl limits).search O query fuel with
      | none => none
      | some (result, s) => some (result, { s with searchControlActive := false })

/-- What `solve_assuming_with_limits` does with the answer: the trail of an answer that is
not a model is undone, the core is cut down to the assumptions, the answer is cached. -/
def finishQuery (O : Oracle) (assumptions query : List Lit) (result : SolveResult)
    (s : Solver) : Solver :=
  match result with
  | .sat m => { s with cachedAssumptions := query, cachedResult := some (.sat m) }
  | .unknown _ =>
    { s.cancelUntil O 0 with
      failedAssumptions := [], cachedAssumptions := [], cachedResult := none }
  | .unsat =>
    if s.consistent then
      { s.cancelUntil O 0 with
        failedAssumptions := s.failedAssumptions.filter fun l => decide (l ∈ assumptions)
        cachedAssumptions := query
        cachedResult := some .unsat }
    else
      { s.proofAdd [] with cachedAssumptions := query, cachedResult := some .unsat }

/-- `solve_assuming_with_limits`; `none` where the source panics or runs longer than `fuel`
iterations of the search loop. -/
def solveAssumingWithLimits (O : Oracle) (fuel : ℕ) (assumptions : List Lit)
    (limits : SolveLimits) (s : Solver) : Option (SolveResult × Solver) :=
  if assumptions.any fun l => decide (s.externalVariableCount ≤ l.var) then none
  else
    let query := s.scopeSelectors ++ assumptions
    match if s.cachedAssumptions = query then s.cachedResult else none with
    | some result => some (result, s)
    | none =>
      match answerQuery O fuel query limits (s.prepareQuery O) with
      | none => none
      | some (result, s) => some (result, finishQuery O assumptions query result s)

/-- `solve`. -/
def solve (O : Oracle) (fuel : ℕ) (s : Solver) : Option (SolveResult × Solver) :=
  s.solveAssumingWithLimits O fuel [] {}

end Solver

end Satrap
