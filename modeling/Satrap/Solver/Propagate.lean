/-
# Unit propagation

`propagate_internal` with its three callers.  A literal of the trail is processed by scanning
the watch list of its negation; the list is taken out for the scan and rebuilt from the
watches that stay.  `visitWatch` is the body of that scan for one watch.
-/
import Satrap.Solver.State

namespace Satrap

open Logic

/-- The constant parameters of `propagate_internal`. -/
structure PropagationMode where
  savePhase : Bool := true
  probing : Bool := false
  vivification : Bool := false
  ignored : Option ClauseRef := none

/-- What becomes of a watch when its list is scanned. -/
inductive WatchOutcome where
  /-- The watch leaves the list. -/
  | drop
  /-- The watch stays, possibly with another blocker. -/
  | keep (watch : Watch)
  /-- The watch stays and its clause is false. -/
  | conflict (watch : Watch)

/-- Move the falsified watched literal to the second place. -/
def falsifiedSecond (falsified : Lit) : List Lit → List Lit
  | first :: second :: rest =>
    if first = falsified then second :: first :: rest else first :: second :: rest
  | literals => literals

namespace Solver

/-- `trigger_shadow_clause`. -/
def triggerShadowClause (s : Solver) : ClauseRef → Solver
  | .long i =>
    if s.shadowStates i = .observing then
      { s with shadowStates := Function.update s.shadowStates i .triggered }
    else s
  | .binary _ => s

/-- Store the literals of a clause in another order. -/
def reorder (s : Solver) (c : ClauseRef) (literals : List Lit) : Solver :=
  { s with toClauseDb := s.toClauseDb.setLiterals c literals }

/-- A clause whose watched literals are `first`, to be kept as blocker, and the falsified
second one, when neither the old blocker nor `first` is true. -/
def visitUnblocked (mode : PropagationMode) (c : ClauseRef) (first second : Lit)
    (rest : List Lit) (s : Solver) : WatchOutcome × Solver :=
  match rest.findIdx? fun l => s.value l ≠ some false with
  | some k =>
    let replacement := rest.getD k second
    (.drop,
      { s with
        toClauseDb := (s.toClauseDb.setLiterals c
          (first :: replacement :: rest.set k second)).pushWatch replacement ⟨c, first⟩ })
  | none =>
    if s.clauseIsShadow c then
      (.keep ⟨c, first⟩,
        if mode.probing || mode.vivification then s else s.triggerShadowClause c)
    else if s.value first = some false then (.conflict ⟨c, first⟩, s)
    else (.keep ⟨c, first⟩, (s.enqueueInternal mode.savePhase first (some c)).2)

/-- The body of the scan of a watch list. -/
def visitWatch (mode : PropagationMode) (falsified : Lit) (w : Watch) (s : Solver) :
    WatchOutcome × Solver :=
  if (s.clause w.clause).deleted then (.drop, s)
  else if mode.ignored = some w.clause then (.keep w, s)
  else if w.clause.isBinary && s.config.binaryFastPath then
    match s.value w.blocker with
    | some true => (.keep w, s)
    | some false => (.conflict w, s)
    | none => (.keep w, (s.enqueueInternal mode.savePhase w.blocker (some w.clause)).2)
  else if s.value w.blocker = some true then (.keep w, s)
  else
    match falsifiedSecond falsified (s.clause w.clause).literals with
    | first :: second :: rest =>
      let s := s.reorder w.clause (first :: second :: rest)
      if w.clause.isBinary then
        if s.value first = some false then (.conflict ⟨w.clause, first⟩, s)
        else (.keep ⟨w.clause, first⟩,
          (s.enqueueInternal mode.savePhase first (some w.clause)).2)
      else if s.value first = some true then (.keep ⟨w.clause, first⟩, s)
      else visitUnblocked mode w.clause first second rest s
    | _ => (.keep w, s)

/-- The scan: the conflicting clause, the watches that stay, and the state. -/
def scanWatches (mode : PropagationMode) (falsified : Lit) :
    List Watch → Solver → Option ClauseRef × List Watch × Solver
  | [], s => (none, [], s)
  | w :: pending, s =>
    match visitWatch mode falsified w s with
    | (.drop, s) => scanWatches mode falsified pending s
    | (.keep w, s) =>
      let (conflict, retained, s) := scanWatches mode falsified pending s
      (conflict, w :: retained, s)
    | (.conflict w, s) => (some w.clause, w :: pending, s)

/-- The literal at the propagation head is taken up: the head moves past it, it is counted,
and the watch list of its negation is taken out. -/
def beginScan (mode : PropagationMode) (falsified : Lit) (s : Solver) : Solver :=
  { s with
    propagationHead := s.propagationHead + 1
    propagations := s.propagations + 1
    probingPropagations := if mode.probing then s.probingPropagations + 1
      else s.probingPropagations
    vivificationPropagations := if mode.vivification then s.vivificationPropagations + 1
      else s.vivificationPropagations
    toClauseDb := s.toClauseDb.setWatches falsified [] }

/-- One round of the propagation loop. -/
def propagateLiteral (mode : PropagationMode) (propagated : Lit) (s : Solver) :
    Option ClauseRef × Solver :=
  let (conflict, retained, s') :=
    scanWatches mode (-propagated) (s.watches (-propagated)) (s.beginScan mode (-propagated))
  (conflict, { s' with toClauseDb := s'.toClauseDb.setWatches (-propagated) retained })

/-- `propagate_internal`.  The first argument bounds the number of literals still to be
processed. -/
def propagateLoop (O : Oracle) (mode : PropagationMode) :
    ℕ → Solver → Option ClauseRef × Solver
  | 0, s => (none, s)
  | fuel + 1, s =>
    match s.trail[s.propagationHead]? with
    | none => (none, s)
    | some propagated =>
      match s.pollSearchStop O with
      | (some _, s) => (none, s)
      | (none, s) =>
        match s.propagateLiteral mode propagated with
        | (some conflict, s) => (some conflict, s)
        | (none, s) => propagateLoop O mode fuel s

/-- `propagate_internal`: no more literals than variables can wait. -/
def propagateInternal (O : Oracle) (mode : PropagationMode) (s : Solver) :
    Option ClauseRef × Solver :=
  propagateLoop O mode (s.variableCount + 1) s

/-- `propagate`: a conflict left by a reactivated shadow clause comes first. -/
def propagate (O : Oracle) (s : Solver) : Option ClauseRef × Solver :=
  match s.shadowDeferredRootConflict with
  | some conflict => (some conflict, { s with shadowDeferredRootConflict := none })
  | none => s.propagateInternal O {}

/-- `propagate_probe`. -/
def propagateProbe (O : Oracle) (savePhase : Bool) (s : Solver) :
    Option ClauseRef × Solver :=
  s.propagateInternal O { savePhase := savePhase, probing := true }

/-- `propagate_vivification`. -/
def propagateVivification (O : Oracle) (savePhase : Bool) (ignored : Option ClauseRef)
    (s : Solver) : Option ClauseRef × Solver :=
  s.propagateInternal O { savePhase := savePhase, vivification := true, ignored := ignored }

end Solver

end Satrap
