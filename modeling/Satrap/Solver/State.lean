/-
# The solver state

The data of `solver.rs`: packed references to binary and long clauses, watches, the trail,
and the record that holds them together with the search control of a query.  Vectors that
are only read and written at an index are functions; `variableCount` is the length of the
per-variable vectors, `longCount` and `binaryCount` those of the two clause stores.

The search is steered by floating-point scores, moving averages and work counters, and it
can be interrupted from another thread.  All of this only selects among moves the solver may
make.  An `Oracle` supplies these selections: entry `n` of each of its fields is what the
heuristic in question answers at the `n`-th time one of them is asked (`clock`).
-/
import Satrap.Logic.Cnf
import Satrap.Solver.VarOrder
import Satrap.Solver.VmtfOrder

namespace Satrap

open Logic

abbrev Lit := Literal ℕ

instance : LawfulBEq Lit := inferInstance

/-- `Lit::index`: positive literals have an even index, negative ones an odd one. -/
def litIndex (l : Lit) : ℕ := 2 * l.var + if l.positive then 0 else 1

/-- `MAX_VARIABLES`. -/
def maxVariables : ℕ := 2 ^ 31

inductive ClauseRef where
  | long (index : ℕ)
  | binary (index : ℕ)
deriving DecidableEq, Repr

namespace ClauseRef

/-- `ClauseRef::is_binary`. -/
def isBinary : ClauseRef → Bool
  | long _ => false
  | binary _ => true

end ClauseRef

structure Clause where
  literals : List Lit
  learned : Bool
  deleted : Bool

instance : Inhabited Clause := ⟨⟨[], false, false⟩⟩

structure Watch where
  clause : ClauseRef
  blocker : Lit

/-! ### Configuration -/

inductive SearchStrategy where
  | evsids | lrb | transfer | chb | vmtf | focused | probeEvsids | probeVmtf | focusedStable
deriving DecidableEq

inductive RestartTrailReuse where
  | never | always | adaptive
deriving DecidableEq

/-- The switches of `SolverConfig` that change what the solver may do, not merely which of
several admissible moves it prefers.  `with_config` refuses shadow reactivation without root
restarts, so a configuration carries that fact. -/
structure SolverConfig where
  minimizeLearnedClauses : Bool := true
  binaryResolutionMinimization : Bool := false
  boundedVariableElimination : Bool := false
  boundedVariableAddition : Bool := false
  macroBoundedVariableAddition : Bool := false
  failedLiteralProbing : Bool := false
  clauseVivification : Bool := false
  clauseSubsumption : Bool := false
  binaryFastPath : Bool := true
  searchStrategy : SearchStrategy := .evsids
  shadowClauseReactivation : Bool := false
  chronologicalBacktracking : Bool := true
  systematicRephasing : Bool := false
  restartTrailReuse : RestartTrailReuse := .never
  shadow_never : shadowClauseReactivation = true → restartTrailReuse = .never := by simp

/-! ### Queries and their answers -/

inductive UnknownReason where
  | interrupted | conflictLimit | propagationLimit
deriving DecidableEq

structure SolveLimits where
  conflicts : Option ℕ := none
  propagations : Option ℕ := none
deriving DecidableEq

/-- A complete satisfying assignment. -/
structure Model where
  values : List Bool
deriving DecidableEq

namespace Model

/-- `Model::value`; variables outside the formula read as false. -/
def value (m : Model) (v : ℕ) : Bool := m.values.getD v false

end Model

inductive SolveResult where
  | sat (model : Model)
  | unsat
  | unknown (reason : UnknownReason)
deriving DecidableEq

inductive IncrementalError where
  | irreversiblePreprocessing | variableLimit | scopeUnderflow
deriving DecidableEq

inductive ProofClauseKind where
  | formula | encoding | theory | administrative
deriving DecidableEq

structure ProofInputClause where
  kind : ProofClauseKind
  literals : List Lit

/-- One line of the DRAT proof. -/
inductive DratStep where
  | add (literals : List Lit)
  | delete (literals : List Lit)

structure EliminationRecord where
  pivot : ℕ
  clauses : List (List Lit)

inductive ShadowState where
  | active | observing | triggered
deriving DecidableEq

/-- What the heuristics answer, and when the interruption flag is set. -/
structure Oracle where
  /-- `interrupt_flag.load`. -/
  interrupted : ℕ → Bool
  /-- The `total_cmp` keys of `activity`. -/
  activity : ℕ → ℕ → ℤ
  /-- The `total_cmp` keys of `transfer_lrb_activity`. -/
  transferActivity : ℕ → ℕ → ℤ
  /-- The variables whose activity the score rules have changed, with the old key. -/
  rescored : ℕ → List (ℕ × ℤ)
  transferRescored : ℕ → List (ℕ × ℤ)
  /-- `transfer.active == Lrb`. -/
  transferLrb : ℕ → Bool
  /-- Whether the database is reduced now, and which learned clauses the policy selects for
  deletion and for observation as shadows. -/
  reduction : ℕ → Option (List ℕ × List ℕ)
  /-- `should_rephase`, with the phases the schedule installs. -/
  rephased : ℕ → Option (ℕ → Bool)
  /-- `hybrid.should_switch`. -/
  switched : ℕ → Bool
  /-- `should_restart`. -/
  restarted : ℕ → Bool
  /-- Whether `adaptive_trail_reuse.choose` keeps the reusable levels. -/
  adaptiveReuse : ℕ → Bool
  /-- The phases that counterfactual votes suggest at a restart. -/
  votes : ℕ → List (ℕ × Bool)
  /-- Whether a shadow clause has been observed for its whole horizon. -/
  shadowExpired : ℕ → ℕ → Bool

/-- The oracle that never interrupts and under which nothing is ever due. -/
def Oracle.quiet : Oracle where
  interrupted _ := false
  activity _ _ := 0
  transferActivity _ _ := 0
  rescored _ := []
  transferRescored _ := []
  transferLrb _ := false
  reduction _ := none
  rephased _ := none
  switched _ := false
  restarted _ := false
  adaptiveReuse _ := false
  votes _ := []
  shadowExpired _ _ := false

/-! ### The state -/

/-- The partial assignment and the order in which it was made. -/
structure TrailState where
  assignments : ℕ → Option Bool
  levels : ℕ → ℕ
  reasons : ℕ → Option ClauseRef
  trail : List Lit
  trailLimits : List ℕ
  propagationHead : ℕ

/-- The stored clauses with their watches, and the learned clauses that are only observed. -/
structure ClauseDb where
  clause : ClauseRef → Clause
  longCount : ℕ
  binaryCount : ℕ
  watches : Lit → List Watch
  shadowStates : ℕ → ShadowState
  shadowClauses : List ℕ

/-- What the next decision is taken from. -/
structure Branching where
  phase : ℕ → Bool
  order : VarOrder
  transferOrder : VarOrder
  vmtf : VmtfOrder
  lrbCanceledAt : ℕ → ℕ
  probeFinished : Bool
  hybridStable : Bool

/-- The counters, the stop signal and the proof output of the running work. -/
structure Work where
  clock : ℕ
  seen : ℕ → Bool
  stopReason : Option UnknownReason
  shadowDeferredRootConflict : Option ClauseRef
  proof : List DratStep
  conflicts : ℕ
  propagations : ℕ
  probingPropagations : ℕ
  vivificationPropagations : ℕ
  subsumptionLiteralTouches : ℕ
  eliminationLiteralTouches : ℕ
  factorizationLiteralTouches : ℕ

/-- What only the operations of the interface and the root passes change. -/
structure Session where
  config : SolverConfig
  externalVariableCount : ℕ
  variableCount : ℕ
  consistent : Bool
  started : Bool
  scopeSelectors : List Lit
  searchLimits : SolveLimits
  searchStartConflicts : ℕ
  searchStartPropagations : ℕ
  searchControlActive : Bool
  cachedAssumptions : List Lit
  cachedResult : Option SolveResult
  failedAssumptions : List Lit
  proofInput : Option (List ProofInputClause)
  factorizationInputShortClauses : ℕ
  eliminationRecords : List EliminationRecord

structure Solver extends TrailState, ClauseDb, Branching, Work, Session

/-- `Solver::with_config`. -/
def Solver.withConfig (config : SolverConfig) : Solver where
  assignments := fun _ => none
  levels := fun _ => 0
  reasons := fun _ => none
  trail := []
  trailLimits := []
  propagationHead := 0
  clause := fun _ => default
  longCount := 0
  binaryCount := 0
  watches := fun _ => []
  shadowStates := fun _ => .active
  shadowClauses := []
  phase := fun _ => true
  order := .empty
  transferOrder := .empty
  vmtf := .empty
  lrbCanceledAt := fun _ => 0
  probeFinished := false
  hybridStable := false
  clock := 0
  seen := fun _ => false
  stopReason := none
  shadowDeferredRootConflict := none
  proof := []
  conflicts := 0
  propagations := 0
  probingPropagations := 0
  vivificationPropagations := 0
  subsumptionLiteralTouches := 0
  eliminationLiteralTouches := 0
  factorizationLiteralTouches := 0
  config := config
  externalVariableCount := 0
  variableCount := 0
  consistent := true
  started := false
  scopeSelectors := []
  searchLimits := {}
  searchStartConflicts := 0
  searchStartPropagations := 0
  searchControlActive := false
  cachedAssumptions := []
  cachedResult := none
  failedAssumptions := []
  proofInput := none
  factorizationInputShortClauses := 0
  eliminationRecords := []

/-! ### Reading the trail -/

namespace TrailState

/-- `literal_value`. -/
def value (t : TrailState) (l : Lit) : Option Bool :=
  (t.assignments l.var).map fun b => b == l.positive

/-- `decision_level`. -/
def decisionLevel (t : TrailState) : ℕ := t.trailLimits.length

/-- The assignment made by `enqueue_internal` for an unassigned literal. -/
def push (t : TrailState) (l : Lit) (reason : Option ClauseRef) : TrailState :=
  { t with
    assignments := Function.update t.assignments l.var (some l.positive)
    levels := Function.update t.levels l.var t.decisionLevel
    reasons := Function.update t.reasons l.var reason
    trail := t.trail ++ [l] }

/-- Open a decision level. -/
def newLevel (t : TrailState) : TrailState :=
  { t with trailLimits := t.trailLimits ++ [t.trail.length] }

/-- The effect of `cancel_until_internal` on the trail, for a level below the current one. -/
def shrink (t : TrailState) (level : ℕ) : TrailState :=
  let target := t.trailLimits.getD level 0
  let undone := (t.trail.drop target).map Literal.var
  { assignments := fun v => if v ∈ undone then none else t.assignments v
    levels := fun v => if v ∈ undone then 0 else t.levels v
    reasons := fun v => if v ∈ undone then none else t.reasons v
    trail := t.trail.take target
    trailLimits := t.trailLimits.take level
    propagationHead := min t.propagationHead target }

end TrailState

/-! ### Clauses -/

namespace ClauseDb

/-- The reference belongs to a stored clause. -/
def Allocated (db : ClauseDb) : ClauseRef → Prop
  | .long i => i < db.longCount
  | .binary i => i < db.binaryCount

instance (db : ClauseDb) (c : ClauseRef) : Decidable (db.Allocated c) := by
  cases c <;> exact inferInstanceAs (Decidable (_ < _))

/-- `clause_references`: long clauses first. -/
def clauseReferences (db : ClauseDb) : List ClauseRef :=
  (List.range db.longCount).map .long ++ (List.range db.binaryCount).map .binary

/-- The reference `allocate_clause` hands out next. -/
def nextReference (db : ClauseDb) (literals : List Lit) : ClauseRef :=
  if literals.length = 2 then .binary db.binaryCount else .long db.longCount

/-- `allocate_clause`. -/
def allocate (db : ClauseDb) (literals : List Lit) (learned : Bool) : ClauseDb :=
  { db with
    clause := Function.update db.clause (db.nextReference literals) ⟨literals, learned, false⟩
    longCount := if literals.length = 2 then db.longCount else db.longCount + 1
    binaryCount := if literals.length = 2 then db.binaryCount + 1 else db.binaryCount }

/-- Append a watch to a watch list. -/
def pushWatch (db : ClauseDb) (l : Lit) (w : Watch) : ClauseDb :=
  { db with watches := Function.update db.watches l (db.watches l ++ [w]) }

/-- Replace a watch list. -/
def setWatches (db : ClauseDb) (l : Lit) (ws : List Watch) : ClauseDb :=
  { db with watches := Function.update db.watches l ws }

/-- `attach_clause`: watch the first two literals. -/
def attach (db : ClauseDb) (c : ClauseRef) : ClauseDb :=
  match (db.clause c).literals with
  | first :: second :: _ => (db.pushWatch first ⟨c, second⟩).pushWatch second ⟨c, first⟩
  | _ => db

/-- Reorder the literals of a clause. -/
def setLiterals (db : ClauseDb) (c : ClauseRef) (literals : List Lit) : ClauseDb :=
  { db with clause := Function.update db.clause c { db.clause c with literals := literals } }

/-- Set the deletion flag of a clause. -/
def delete (db : ClauseDb) (c : ClauseRef) : ClauseDb :=
  { db with clause := Function.update db.clause c { db.clause c with deleted := true } }

end ClauseDb

namespace Solver

/-- Move on to the next answers of the oracle. -/
def tick (s : Solver) : Solver := { s with clock := s.clock + 1 }

/-- `uses_transfer_branching`. -/
def usesTransferBranching (s : Solver) : Bool :=
  decide (s.config.searchStrategy = .transfer)

/-- `uses_lrb_branching`. -/
def usesLrbBranching (s : Solver) : Bool := decide (s.config.searchStrategy = .lrb)

/-- `maintains_lrb_scores`. -/
def maintainsLrbScores (s : Solver) : Bool := s.usesLrbBranching || s.usesTransferBranching

/-- `uses_vmtf_branching`. -/
def usesVmtfBranching (s : Solver) : Bool :=
  match s.config.searchStrategy with
  | .evsids | .lrb | .transfer | .chb => false
  | .vmtf | .focused | .probeVmtf => true
  | .probeEvsids => !s.probeFinished
  | .focusedStable => !s.hybridStable

/-- `is_active_probe`. -/
def isActiveProbe (s : Solver) : Bool :=
  !s.probeFinished &&
    (decide (s.config.searchStrategy = .probeEvsids) ||
      decide (s.config.searchStrategy = .probeVmtf))

/-- `grow_variables`. -/
def growVariables (O : Oracle) (s : Solver) (count : ℕ) : Solver :=
  if count ≤ s.variableCount then s
  else
    { s.tick with
      variableCount := count
      order := s.order.grow (O.activity s.clock) s.variableCount count
      transferOrder :=
        if s.usesTransferBranching then
          s.transferOrder.grow (O.transferActivity s.clock) s.variableCount count
        else s.transferOrder
      vmtf := s.vmtf.grow s.variableCount count }

/-- Assign an unassigned literal. -/
def assign (s : Solver) (savePhase : Bool) (l : Lit) (reason : Option ClauseRef) : Solver :=
  { s with
    toTrailState := s.toTrailState.push l reason
    phase := if savePhase then Function.update s.phase l.var l.positive else s.phase }

/-- `enqueue_internal`: `false` when the literal is already false. -/
def enqueueInternal (s : Solver) (savePhase : Bool) (l : Lit) (reason : Option ClauseRef) :
    Bool × Solver :=
  match s.value l with
  | some true => (true, s)
  | some false => (false, s)
  | none => (true, s.assign savePhase l reason)

/-- `enqueue`. -/
def enqueue (s : Solver) (l : Lit) (reason : Option ClauseRef) : Bool × Solver :=
  s.enqueueInternal true l reason

/-- Open a decision level. -/
def newLevel (s : Solver) : Solver := { s with toTrailState := s.toTrailState.newLevel }

/-- The decision structures take back a variable that becomes unassigned. -/
def reinsert (O : Oracle) (s : Solver) (v : ℕ) : Solver :=
  { s.tick with
    order := s.order.insert (O.activity s.clock) v
    transferOrder :=
      if s.usesTransferBranching then s.transferOrder.insert (O.transferActivity s.clock) v
      else s.transferOrder
    vmtf := s.vmtf.unassign v
    lrbCanceledAt :=
      if s.maintainsLrbScores then Function.update s.lrbCanceledAt v s.conflicts
      else s.lrbCanceledAt }

/-- `cancel_until`. -/
def cancelUntil (O : Oracle) (s : Solver) (level : ℕ) : Solver :=
  if s.decisionLevel ≤ level then s
  else
    let undone := (s.trail.drop (s.trailLimits.getD level 0)).reverse.map Literal.var
    { undone.foldl (reinsert O) s with toTrailState := s.toTrailState.shrink level }

/-- Write a clause to the DRAT proof. -/
def proofAdd (s : Solver) (literals : List Lit) : Solver :=
  { s with proof := s.proof ++ [.add literals] }

/-- `mark_clause_deleted`. -/
def markClauseDeleted (s : Solver) (c : ClauseRef) : Solver :=
  { s with
    proof := s.proof ++ [.delete (s.clause c).literals]
    toClauseDb := s.toClauseDb.delete c }

/-- `allocate_clause` followed by `attach_clause`. -/
def addClauseToDb (s : Solver) (literals : List Lit) (learned : Bool) : Solver :=
  { s with
    toClauseDb :=
      (s.toClauseDb.allocate literals learned).attach (s.nextReference literals) }

/-- `clause_is_shadow`. -/
def clauseIsShadow (s : Solver) : ClauseRef → Bool
  | .long i => s.config.shadowClauseReactivation && decide (s.shadowStates i ≠ .active)
  | .binary _ => false

/-- `poll_search_stop`. -/
def pollSearchStop (O : Oracle) (s : Solver) : Option UnknownReason × Solver :=
  if !s.searchControlActive then (none, s)
  else
    match s.stopReason with
    | some reason => (some reason, s)
    | none =>
      let reason :=
        if O.interrupted s.clock then some .interrupted
        else if s.searchLimits.conflicts.any
            fun limit => decide (limit ≤ s.conflicts - s.searchStartConflicts) then
          some .conflictLimit
        else if s.searchLimits.propagations.any
            fun limit => decide (limit ≤ s.propagations - s.searchStartPropagations) then
          some .propagationLimit
        else none
      (reason, { s.tick with stopReason := reason })

end Solver

end Satrap
