/-
# The search loop

One iteration of `search` (`searchStep`) polls, propagates, and then either learns from a
conflict, places the next assumption, or takes a decision; a query runs it until it answers.
After a conflict the database may be reduced and the phases, the branching mode or the trail
reset.  When that happens, and which clauses are worth keeping, is up to the oracle; what
each of these actions does to the state is not.
-/
import Satrap.Solver.Analyze
import Satrap.Solver.Eliminate

namespace Satrap

open Logic

namespace Solver

/-! ### Decisions -/

/-- `lrb_decay_stale_score` for the variable on top of a heap, until that variable has a
current score; the first argument bounds the stale scores.  The result carries the heap, the
ages and the clock. -/
def lazyTop (keys : ℕ → ℕ → ℤ) (assignments : ℕ → Option Bool) (conflicts : ℕ) :
    ℕ → ℕ → VarOrder → (ℕ → ℕ) → Option ℕ × ℕ × VarOrder × (ℕ → ℕ)
  | 0, clock, order, canceledAt => (none, clock, order, canceledAt)
  | fuel + 1, clock, order, canceledAt =>
    match order.peekMax assignments (keys clock) (order.size + 1) with
    | (none, order) => (none, clock, order, canceledAt)
    | (some v, order) =>
      if canceledAt v < conflicts then
        lazyTop keys assignments conflicts fuel (clock + 1)
          (order.update (keys (clock + 1)) v (keys clock v))
          (Function.update canceledAt v conflicts)
      else (some v, clock, (order.popMax (keys clock)).2, canceledAt)

/-- The loop over `pop_max` until a variable is unassigned; the first argument bounds the
size of the heap. -/
def popUnassigned (keys : ℕ → ℤ) (assignments : ℕ → Option Bool) :
    ℕ → VarOrder → Option ℕ × VarOrder
  | 0, order => (none, order)
  | fuel + 1, order =>
    match order.popMax keys with
    | (none, order) => (none, order)
    | (some v, order) =>
      if (assignments v).isNone then (some v, order)
      else popUnassigned keys assignments fuel order

/-- The variable `pick_branch_literal` decides. -/
def pickBranchVariable (O : Oracle) (s : Solver) : Option ℕ × Solver :=
  if s.usesVmtfBranching then
    let (v, vmtf) := s.vmtf.pick s.assignments
    (v, { s with vmtf := vmtf })
  else if s.usesLrbBranching then
    let (v, clock, order, canceledAt) :=
      lazyTop O.activity s.assignments s.conflicts (s.variableCount + 1) s.clock s.order
        s.lrbCanceledAt
    (v, { s with clock := clock + 1, order := order, lrbCanceledAt := canceledAt })
  else if s.usesTransferBranching && O.transferLrb s.clock then
    let (v, clock, order, canceledAt) :=
      lazyTop O.transferActivity s.assignments s.conflicts (s.variableCount + 1) s.clock
        s.transferOrder s.lrbCanceledAt
    (v, { s with clock := clock + 1, transferOrder := order, lrbCanceledAt := canceledAt })
  else
    let (v, order) := popUnassigned (O.activity s.clock) s.assignments (s.order.size + 1) s.order
    (v, { s.tick with order := order })

/-- `pick_branch_literal`, after the score changes of the propagation round. -/
def pickBranchLiteral (O : Oracle) (s : Solver) : Option Lit × Solver :=
  let (v, s) := (s.rescore O).pickBranchVariable O
  (v.map fun v => ⟨v, s.phase v⟩, s)

/-! ### Database reduction -/

/-- Some variable has the clause as its reason. -/
def isLocked (s : Solver) (i : ℕ) : Bool :=
  (List.range s.variableCount).any fun v => decide (s.reasons v = some (.long i))

/-- The clauses every reduction policy chooses from: stored learned long clauses that are
active and not locked. -/
def isRemovable (s : Solver) (i : ℕ) : Bool :=
  decide (i < s.longCount) && (s.clause (.long i)).learned && !(s.clause (.long i)).deleted &&
    !s.isLocked i && !s.clauseIsShadow (.long i)

/-- `begin_shadow_observation`. -/
def beginShadowObservation (s : Solver) (i : ℕ) : Solver :=
  { s with
    shadowStates := Function.update s.shadowStates i .observing
    shadowClauses := s.shadowClauses ++ [i] }

/-- `reduce_database`: the policy deletes some of the removable clauses and, where shadow
reactivation is on, puts others under observation. -/
def reduceDatabase (O : Oracle) (s : Solver) : Solver :=
  match O.reduction s.clock with
  | none => s.tick
  | some (deletions, shadows) =>
    let deletions := deletions.dedup.filter s.isRemovable
    let shadows := shadows.dedup.filter fun i =>
      s.config.shadowClauseReactivation && s.isRemovable i && decide (i ∉ deletions)
    shadows.foldl beginShadowObservation
      ((deletions.map ClauseRef.long).foldl markClauseDeleted s.tick)

/-! ### Restarts -/

/-- `restart_reuse_candidate`: the levels whose decisions outrank the next one. -/
def restartReuseCandidate (O : Oracle) (s : Solver) : ℕ × Solver :=
  let (next, order) := s.order.peekMax s.assignments (O.activity s.clock) (s.order.size + 1)
  let s' := { s with order := order }
  match next with
  | none => (0, s')
  | some next =>
    (((s.trailLimits.filterMap fun i => s.trail[i]?).takeWhile fun decision =>
      !higherPriority (O.activity s.clock) next decision.var).length, s')

/-- `restart_reuse_level`. -/
def restartReuseLevel (O : Oracle) (s : Solver) : ℕ × Solver :=
  if s.config.searchStrategy ≠ .evsids ∨ s.config.restartTrailReuse = .never then (0, s)
  else
    let (reusable, s') := s.restartReuseCandidate O
    if s.config.restartTrailReuse = .always ∨ O.adaptiveReuse s.clock = true then
      (reusable, s'.tick)
    else (0, s'.tick)

/-- `apply_counterfactual_phase_votes_at_root`. -/
def applyVotes (O : Oracle) (s : Solver) : Solver :=
  { s.tick with
    phase := (O.votes s.clock).foldl
      (fun phase p => if (s.assignments p.1).isSome then phase else Function.update phase p.1 p.2)
      s.phase }

/-- The first loop of `finalize_shadow_clauses_at_root`: clauses observed for long enough
leave the list, reactivated when they were triggered and deleted otherwise. -/
def expireShadow (O : Oracle) (clock : ℕ) : List ℕ → Solver → List ℕ × List ℕ × Solver
  | [], s => ([], [], s)
  | i :: rest, s =>
    if !O.shadowExpired clock i then
      let (retained, reactivated, s) := expireShadow O clock rest s
      (i :: retained, reactivated, s)
    else
      let active := { s with shadowStates := Function.update s.shadowStates i .active }
      if s.shadowStates i = .triggered then
        let (retained, reactivated, s) := expireShadow O clock rest active
        (retained, i :: reactivated, s)
      else expireShadow O clock rest (active.markClauseDeleted (.long i))

/-- How a reactivated clause stands under the root assignment. -/
inductive RootStatus where
  | satisfied
  | open
  | unit (l : Lit)
  | false
deriving DecidableEq

/-- The classification of a reactivated clause. -/
def rootStatus (t : TrailState) (literals : List Lit) : RootStatus :=
  if literals.any fun l => decide (t.value l = some true) then .satisfied
  else
    match literals.filter fun l => decide (t.value l = none) with
    | [] => .false
    | [l] => .unit l
    | _ => .open

/-- `shadow_deferred_root_conflict.get_or_insert`. -/
def deferConflict (s : Solver) (c : ClauseRef) : Solver :=
  { s with
    shadowDeferredRootConflict := some (s.shadowDeferredRootConflict.getD c) }

/-- The classification loop of `finalize_shadow_clauses_at_root`. -/
def classifyReactivated : List ℕ → Solver → List (Lit × ClauseRef) × Solver
  | [], s => ([], s)
  | i :: rest, s =>
    match rootStatus s.toTrailState (s.clause (.long i)).literals with
    | .satisfied | .open => classifyReactivated rest s
    | .false => classifyReactivated rest (s.deferConflict (.long i))
    | .unit l =>
      let (units, s) := classifyReactivated rest s
      ((l, .long i) :: units, s)

/-- The last loop of `finalize_shadow_clauses_at_root`. -/
def enqueueReactivated (units : List (Lit × ClauseRef)) (s : Solver) : Solver :=
  units.foldl (fun s p =>
    match s.enqueue p.1 (some p.2) with
    | (true, s) => s
    | (false, s) => s.deferConflict p.2) s

/-- `finalize_shadow_clauses_at_root`. -/
def finalizeShadowClausesAtRoot (O : Oracle) (s : Solver) : Solver :=
  let (retained, reactivated, s') := expireShadow O s.clock s.shadowClauses s.tick
  let (units, s'') := classifyReactivated reactivated { s' with shadowClauses := retained }
  enqueueReactivated units s''

/-- `restart`. -/
def restart (O : Oracle) (s : Solver) : Solver :=
  let (level, s) := s.restartReuseLevel O
  let s := (s.cancelUntil O level).applyVotes O
  if s.config.shadowClauseReactivation then s.finalizeShadowClausesAtRoot O else s

/-! ### After a conflict -/

/-- `determine_backtrack_level`; `CHRONO_LEVEL_LIMIT` is 100. -/
def determineBacktrackLevel (s : Solver) (jumpLevel learnedLength : ℕ) : ℕ :=
  if !s.config.chronologicalBacktracking || decide (learnedLength = 1) then jumpLevel
  else if s.decisionLevel - 1 - jumpLevel ≤ 100 then jumpLevel
  else s.decisionLevel - 1

/-- Backtrack, store the learned clause and assert its first literal. -/
def learn (O : Oracle) (l : Learned) (s : Solver) : Solver :=
  let literals := l.asserting :: l.others
  let s := (s.proofAdd literals).cancelUntil O
    (s.determineBacktrackLevel l.backtrackLevel literals.length)
  if l.others.isEmpty then (s.enqueue l.asserting none).2
  else ((s.addClauseToDb literals true).enqueue l.asserting (some (s.nextReference literals))).2

/-- `rephase`. -/
def rephase (O : Oracle) (phases : ℕ → Bool) (s : Solver) : Solver :=
  { s.cancelUntil O 0 with phase := phases }

/-- Switch between focused and stable mode, end a probe, or restart. -/
def changeBranching (O : Oracle) (s : Solver) : Solver :=
  if s.config.searchStrategy = .focusedStable ∧ O.switched s.clock = true then
    { s.tick with
      hybridStable := !s.hybridStable
      vmtf := if s.hybridStable then s.vmtf.resetSearch s.assignments else s.vmtf }
  else if s.isActiveProbe = true ∧ 100 ≤ s.conflicts then { s.tick with probeFinished := true }
  else if O.restarted s.clock = true ∧ 0 < s.decisionLevel then s.tick.restart O
  else s.tick

/-- The mode changes at the end of a conflict. -/
def changeMode (O : Oracle) (s : Solver) : Solver :=
  match O.rephased s.clock with
  | some phases =>
    if s.config.systematicRephasing then s.tick.rephase O phases else s.tick.changeBranching O
  | none => s.tick.changeBranching O

/-! ### The loop -/

/-- What an iteration of `search` comes to. -/
inductive SearchOutcome where
  | continue (s : Solver)
  | answer (result : SolveResult) (s : Solver)

/-- The conflict branch; `none` where the source would panic. -/
def resolveConflict (O : Oracle) (conflict : ClauseRef) (s : Solver) : Option SearchOutcome :=
  let s := { s with conflicts := s.conflicts + 1 }
  if s.decisionLevel = 0 then some (.answer .unsat { s with consistent := false })
  else
    match s.analyze O conflict with
    | none => none
    | some (learned, s) =>
      some (.continue (((s.learn O learned).reduceDatabase O).changeMode O))

/-- The model of a complete assignment; `none` where `extend_model` would panic. -/
def buildModel (s : Solver) : Option Model :=
  match s.extendModel fun v => s.assignments v == some true with
  | none => none
  | some values => some ⟨(List.range s.externalVariableCount).map values⟩

/-- The branches without a conflict. -/
def extendTrail (O : Oracle) (assumptions : List Lit) (s : Solver) : Option SearchOutcome :=
  match assumptions[s.decisionLevel]? with
  | some assumption =>
    match s.value assumption with
    | some true => some (.continue s.newLevel)
    | some false =>
      let (core, s) := s.analyzeFailedAssumption assumption assumptions
      some (.answer .unsat { s with failedAssumptions := core })
    | none => some (.continue (s.newLevel.enqueueInternal false assumption none).2)
  | none =>
    match s.pickBranchLiteral O with
    | (some decision, s) => some (.continue (s.newLevel.enqueue decision none).2)
    | (none, s) => s.buildModel.map fun m => .answer (.sat m) s

/-- One iteration of the loop of `search`. -/
def searchStep (O : Oracle) (assumptions : List Lit) (s : Solver) : Option SearchOutcome :=
  match s.pollSearchStop O with
  | (some reason, s) => some (.answer (.unknown reason) s)
  | (none, s) =>
    let (conflict, s) := s.propagate O
    match s.pollSearchStop O with
    | (some reason, s) => some (.answer (.unknown reason) s)
    | (none, s) =>
      match conflict with
      | some conflict => s.resolveConflict O conflict
      | none => s.extendTrail O assumptions

/-- `search`, for at most the given number of iterations. -/
def search (O : Oracle) (assumptions : List Lit) : ℕ → Solver → Option (SolveResult × Solver)
  | 0, _ => none
  | fuel + 1, s =>
    match s.searchStep O assumptions with
    | none => none
    | some (.answer result s) => some (result, s)
    | some (.continue s) => search O assumptions fuel s

end Solver

end Satrap
