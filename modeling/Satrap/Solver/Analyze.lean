/-
# Conflict analysis

`analyze` derives the first-UIP clause of a conflict, minimises it, and determines the level
to return to; `analyze_failed_assumption` derives a failed core.  Both walk the trail from
its end, so the loops of the source are recursions on the reversed trail.

The counters that only feed scores and statistics are left out; the score changes themselves
reach the decision heaps through `rescore`.
-/
import Satrap.Solver.Propagate

namespace Satrap

open Logic

/-- The working data of `analyze`: the marks, the variables marked so far, the literals of
lower levels met so far, and how many marked variables of the current level remain. -/
structure Analysis where
  seen : ℕ → Bool
  touched : List ℕ
  learned : List Lit
  pathCount : ℕ

namespace Solver

/-- The score rules change the priority of some variables, each of which moves in its heap. -/
def rescore (O : Oracle) (s : Solver) : Solver :=
  { s.tick with
    order := (O.rescored s.clock).foldl
      (fun o p => o.update (O.activity s.clock) p.1 p.2) s.order
    transferOrder := (O.transferRescored s.clock).foldl
      (fun o p => o.update (O.transferActivity s.clock) p.1 p.2) s.transferOrder }

/-- The literal is of the variable just resolved on. -/
def isResolved (resolved : Option Lit) (l : Lit) : Bool :=
  resolved.any fun r => decide (r.var = l.var)

/-- Mark one literal of the clause being resolved. -/
def absorbLiteral (t : TrailState) (resolved : Option Lit) (a : Analysis) (l : Lit) :
    Analysis :=
  if isResolved resolved l then a
  else if !a.seen l.var && decide (0 < t.levels l.var) then
    { seen := Function.update a.seen l.var true
      touched := a.touched ++ [l.var]
      learned := if t.levels l.var = t.decisionLevel then a.learned else a.learned ++ [l]
      pathCount := if t.levels l.var = t.decisionLevel then a.pathCount + 1
        else a.pathCount }
  else a

/-- Mark the literals of the clause being resolved. -/
def absorbClause (t : TrailState) (resolved : Option Lit) (literals : List Lit)
    (a : Analysis) : Analysis :=
  literals.foldl (absorbLiteral t resolved) a

/-- The resolution loop of `analyze`, along the rest of the trail in reverse: the negated
first unique implication point with the final working data, or `none` where the source
would panic. -/
def resolveTrail (s : Solver) : List Lit → Analysis → Option (Lit × Analysis)
  | [], _ => none
  | candidate :: trail, a =>
    if a.seen candidate.var then
      match a.pathCount with
      | 0 => none
      | pathCount + 1 =>
        let a := { a with
          seen := Function.update a.seen candidate.var false, pathCount := pathCount }
        if pathCount = 0 then some (-candidate, a)
        else
          match s.reasons candidate.var with
          | none => none
          | some reason =>
            resolveTrail s trail
              (absorbClause s.toTrailState (some candidate) (s.clause reason).literals a)
    else resolveTrail s trail a

/-- `abstract_level`. -/
def abstractLevel (level : ℕ) : ℕ := 2 ^ (level % 32)

/-- The marks `literal_redundant` has set in this call, and the literals it still has to
expand. -/
structure Redundancy where
  seen : ℕ → Bool
  added : List ℕ
  stack : List Lit

/-- Look at one antecedent of `candidate`; `none` when it blocks the minimisation. -/
def visitAntecedent (t : TrailState) (abstractLevels : ℕ) (candidate : Lit)
    (r : Redundancy) (antecedent : Lit) : Option Redundancy :=
  if antecedent.var = candidate.var then some r
  else if t.levels antecedent.var = 0 ∨ r.seen antecedent.var = true then some r
  else if (t.reasons antecedent.var).isSome ∧
      abstractLevels &&& abstractLevel (t.levels antecedent.var) ≠ 0 then
    some
      { seen := Function.update r.seen antecedent.var true
        added := r.added ++ [antecedent.var]
        stack := antecedent :: r.stack }
  else none

/-- The loop of `literal_redundant`: `some none` when an antecedent blocks the minimisation,
`none` where the source would panic.  The first argument bounds the literals still to be
expanded. -/
def redundantLoop (s : Solver) (abstractLevels : ℕ) : ℕ → Redundancy → Option (Option Redundancy)
  | 0, r => if r.stack.isEmpty then some (some r) else none
  | fuel + 1, r =>
    match r.stack with
    | [] => some (some r)
    | candidate :: stack =>
      match s.reasons candidate.var with
      | none => none
      | some reason =>
        match (s.clause reason).literals.foldlM
            (visitAntecedent s.toTrailState abstractLevels candidate)
            { r with stack := stack } with
        | none => some none
        | some r => redundantLoop s abstractLevels fuel r

/-- `literal_redundant`: the marks of a successful call stay, those of a failed one are taken
back. -/
def literalRedundant (s : Solver) (abstractLevels : ℕ) (l : Lit) (seen : ℕ → Bool) :
    Option (Option (List ℕ) × (ℕ → Bool)) :=
  match redundantLoop s abstractLevels (s.variableCount + 1) ⟨seen, [], [l]⟩ with
  | none => none
  | some none => some (none, seen)
  | some (some r) => some (some r.added, r.seen)

/-- The loop of `minimize_learned_clause` over the literals after the first: those that stay,
the marks, and the variables marked. -/
def minimizeLiterals (s : Solver) (abstractLevels : ℕ) :
    List Lit → (ℕ → Bool) → Option (List Lit × (ℕ → Bool) × List ℕ)
  | [], seen => some ([], seen, [])
  | l :: rest, seen =>
    if (s.reasons l.var).isSome then
      match literalRedundant s abstractLevels l seen with
      | none => none
      | some (some added, seen) =>
        (minimizeLiterals s abstractLevels rest seen).map fun r => (r.1, r.2.1, added ++ r.2.2)
      | some (none, seen) =>
        (minimizeLiterals s abstractLevels rest seen).map fun r => (l :: r.1, r.2)
    else (minimizeLiterals s abstractLevels rest seen).map fun r => (l :: r.1, r.2)

/-- `minimize_learned_clause`, given the literals after the asserting one. -/
def minimizeLearnedClause (s : Solver) (learned : List Lit) (seen : ℕ → Bool) :
    Option (List Lit × (ℕ → Bool) × List ℕ) :=
  minimizeLiterals s
    (learned.foldl (fun levels l => levels ||| abstractLevel (s.levels l.var)) 0) learned seen

/-- `literal_block_distance`. -/
def literalBlockDistance (t : TrailState) (literals : List Lit) : ℕ :=
  (literals.map fun l => t.levels l.var).dedup.length

/-- `eligible_for_binary_minimization`. -/
def eligibleForBinaryMinimization (length lbd : ℕ) : Bool :=
  decide (2 ≤ length) && decide (length ≤ 30) && decide (lbd ≤ 6)

/-- `binary_resolution_minimize`: drop the literals whose negation is the other literal of a
binary clause of the asserting literal. -/
def binaryResolutionMinimize (s : Solver) (asserting : Lit) (learned : List Lit) : List Lit :=
  learned.filter fun l => !(s.watches asserting).any fun w =>
    w.clause.isBinary && !(s.clause w.clause).deleted &&
      decide (w.blocker.var = l.var) && decide (s.value w.blocker = some true)

/-- Position of the first literal of highest level. -/
def highestLevel (t : TrailState) : List Lit → ℕ
  | [] => 0
  | l :: rest =>
    let k := highestLevel t rest
    if rest.any fun q => decide (t.levels l.var < t.levels q.var) then k + 1 else 0

/-- The swap that ends `analyze`: a literal of the highest level comes first. -/
def highestFirst (t : TrailState) (literals : List Lit) : List Lit :=
  match literals with
  | [] => []
  | l :: rest =>
    match highestLevel t (l :: rest) with
    | 0 => l :: rest
    | k + 1 => rest.getD k l :: rest.set k l

/-- The result of `analyze`. -/
structure Learned where
  asserting : Lit
  others : List Lit
  backtrackLevel : ℕ

/-- The minimisation `analyze` makes where it is enabled. -/
def minimized (s : Solver) (a : Analysis) : Option (List Lit × (ℕ → Bool) × List ℕ) :=
  if s.config.minimizeLearnedClauses && !a.learned.isEmpty then
    minimizeLearnedClause s a.learned a.seen
  else some (a.learned, a.seen, [])

/-- `analyze`; `none` where the source would panic. -/
def analyze (O : Oracle) (s : Solver) (conflict : ClauseRef) : Option (Learned × Solver) :=
  let a := absorbClause s.toTrailState none (s.clause conflict).literals ⟨s.seen, [], [], 0⟩
  match resolveTrail s s.trail.reverse a with
  | none => none
  | some (asserting, a) =>
    match s.minimized a with
    | none => none
    | some (others, seen, added) =>
      let others :=
        if s.config.binaryResolutionMinimization &&
            eligibleForBinaryMinimization (others.length + 1)
              (literalBlockDistance s.toTrailState (asserting :: others)) then
          binaryResolutionMinimize s asserting others
        else others
      let others := highestFirst s.toTrailState others
      let s := s.rescore O
      some
        (⟨asserting, others, (others.head?.map fun l => s.levels l.var).getD 0⟩,
          { s with
            seen := fun v => if v ∈ a.touched ∨ v ∈ added then false else seen v
            vmtf := if s.usesVmtfBranching then s.vmtf.bumpAnalyzed s.assignments a.touched
              else s.vmtf })

/-- Mark the antecedents of an implied literal of the core. -/
def markAntecedents (t : TrailState) (assigned : Lit) (literals : List Lit)
    (seen : ℕ → Bool) : ℕ → Bool :=
  literals.foldl (fun seen l =>
    if l.var ≠ assigned.var ∧ 0 < t.levels l.var then Function.update seen l.var true
    else seen) seen

/-- The loop of `analyze_failed_assumption` along the reversed trail: the marks and the
negated decisions that were met. -/
def coreLoop (s : Solver) : List Lit → (ℕ → Bool) → List Lit → (ℕ → Bool) × List Lit
  | [], seen, conflict => (seen, conflict)
  | assigned :: trail, seen, conflict =>
    if seen assigned.var then
      let seen := Function.update seen assigned.var false
      match s.reasons assigned.var with
      | some reason =>
        coreLoop s trail
          (markAntecedents s.toTrailState assigned (s.clause reason).literals seen) conflict
      | none => coreLoop s trail seen (conflict ++ [-assigned])
    else coreLoop s trail seen conflict

/-- `analyze_failed_assumption`. -/
def analyzeFailedAssumption (s : Solver) (failed : Lit) (assumptions : List Lit) :
    List Lit × Solver :=
  let (seen, conflict) :=
    if 0 < s.decisionLevel then
      coreLoop s (s.trail.drop (s.trailLimits.getD 0 0)).reverse
        (Function.update s.seen failed.var true) [-failed]
    else (s.seen, [-failed])
  (assumptions.foldl (fun core a =>
      if -a ∈ conflict ∧ a ∉ core then core ++ [a] else core) [],
    { s with seen := Function.update seen failed.var false })

end Solver

end Satrap
