/-
# Bounded variable elimination

`eliminate_variables` replaces the clauses of a variable by their resolvents and gives the
variable a permanent value off the trail; `extend_model` corrects that value in a model of
the remaining clauses.
-/
import Satrap.Solver.Preprocess

namespace Satrap

open Logic

namespace Solver

/-- `elimination_literal_touch_budget`. -/
def eliminationLiteralTouchBudget (s : Solver) : ℕ :=
  min ((s.clauseReferences.filter s.isOriginal).map s.clauseLength).sum 1000000

/-- Merge equal neighbours of a clause sorted by `litIndex`; `none` for a tautology. -/
def mergeSorted : List Lit → Option (List Lit)
  | [] => some []
  | [l] => some [l]
  | l :: q :: rest =>
    if l = q then mergeSorted (q :: rest)
    else if l.var = q.var then none
    else (mergeSorted (q :: rest)).map (l :: ·)

/-- `sort_unstable_by_key(|literal| literal.index())`. -/
def sortLiterals (literals : List Lit) : List Lit :=
  literals.insertionSort fun l q => litIndex l ≤ litIndex q

/-- `elimination_resolvent`. -/
def eliminationResolvent (s : Solver) (positive negative : ClauseRef) (v : ℕ) :
    Option (List Lit) :=
  let others := ((s.clause positive).literals ++ (s.clause negative).literals).filter
    fun l => decide (l.var ≠ v)
  if others.any fun l => decide (s.value l = some true) then none
  else mergeSorted (sortLiterals (others.filter fun l => decide (s.value l = none)))

/-- `active_elimination_occurrences`. -/
def activeEliminationOccurrences (s : Solver) (occurrences : Lit → List ClauseRef) (l : Lit) :
    List ClauseRef :=
  (occurrences l).filter s.isOriginal

/-- How the search for the resolvents of a variable ends. -/
inductive ResolventSearch where
  | exhausted
  | rejected
  | found (resolvents : List (List Lit))

/-- The pairs loop of `eliminate_variables`. -/
def collectResolvents (v budget removedCount : ℕ) :
    List (ClauseRef × ClauseRef) → List (List Lit) → Solver → ResolventSearch × Solver
  | [], resolvents, s => (.found resolvents, s)
  | (positive, negative) :: pairs, resolvents, s =>
    let touches := s.clauseLength positive + s.clauseLength negative
    if budget < s.eliminationLiteralTouches + touches then (.exhausted, s)
    else
      let s := { s with eliminationLiteralTouches := s.eliminationLiteralTouches + touches }
      match s.eliminationResolvent positive negative v with
      | none => collectResolvents v budget removedCount pairs resolvents s
      | some resolvent =>
        if 100 < resolvent.length then (.rejected, s)
        else if removedCount < (resolvents ++ [resolvent]).length then (.rejected, s)
        else collectResolvents v budget removedCount pairs (resolvents ++ [resolvent]) s

/-- The installation of the resolvents: the occurrence lists grow with the stored ones. -/
def installResolvents :
    List (List Lit) → (Lit → List ClauseRef) → Solver → (Lit → List ClauseRef) × Solver
  | [], occurrences, s => (occurrences, s)
  | resolvent :: rest, occurrences, s =>
    let s := s.proofAdd resolvent
    if resolvent.length < 2 then installResolvents rest occurrences s
    else
      installResolvents rest
        (fun l => if l ∈ resolvent then occurrences l ++ [s.nextReference resolvent]
          else occurrences l)
        (s.addClauseToDb resolvent false)

/-- `enqueue` each unit until one is false. -/
def enqueueUnits : List Lit → Solver → Bool × Solver
  | [], s => (true, s)
  | unit :: rest, s =>
    match s.enqueue unit none with
    | (false, s) => (false, s)
    | (true, s) => enqueueUnits rest s

/-- Delete the clauses of the eliminated variable, record them, and fix its value. -/
def removeVariable (v : ℕ) (removed : List ClauseRef) (clauses : List (List Lit))
    (s : Solver) : Solver :=
  let s := removed.foldl markClauseDeleted s
  { s with
    eliminationRecords := s.eliminationRecords ++ [⟨v, clauses⟩]
    assignments := Function.update s.assignments v (some (s.phase v))
    levels := Function.update s.levels v 0
    reasons := Function.update s.reasons v none }

/-- Enqueue and propagate the unit resolvents, after an elimination without empty one. -/
def installUnits (O : Oracle) (resolvents : List (List Lit)) (s : Solver) : Bool × Solver :=
  if resolvents.any List.isEmpty then (false, s)
  else
    match enqueueUnits (resolvents.filter fun r => decide (r.length = 1)).flatten s with
    | (false, s) => (false, s)
    | (true, s) =>
      match s.propagate O with
      | (some _, s) => (false, s)
      | (none, s) => (true, s)

/-- The commit of an elimination. -/
def commitElimination (O : Oracle) (v : ℕ) (removed : List ClauseRef)
    (resolvents : List (List Lit)) (occurrences : Lit → List ClauseRef) (s : Solver) :
    Bool × (Lit → List ClauseRef) × Solver :=
  let clauses := removed.map fun c => (s.clause c).literals
  let (occurrences, s) := installResolvents resolvents occurrences s
  let (consistent, s) := installUnits O resolvents (removeVariable v removed clauses s)
  (consistent, occurrences, s)

/-- The loop of `eliminate_variables` over its schedule. -/
def eliminateScheduled (O : Oracle) (budget : ℕ) :
    List ℕ → (Lit → List ClauseRef) → Solver → Bool × Solver
  | [], _, s => (true, s)
  | v :: rest, occurrences, s =>
    if budget ≤ s.eliminationLiteralTouches then (true, s)
    else if (s.assignments v).isSome then eliminateScheduled O budget rest occurrences s
    else
      let positive := s.activeEliminationOccurrences occurrences ⟨v, true⟩
      let negative := s.activeEliminationOccurrences occurrences ⟨v, false⟩
      let removedCount := positive.length + negative.length
      if removedCount = 0 ∨ positive ≠ [] ∧ negative ≠ [] ∧ 100 < removedCount then
        eliminateScheduled O budget rest occurrences s
      else
        match collectResolvents v budget removedCount
            (positive.flatMap fun p => negative.map fun n => (p, n)) [] s with
        | (.exhausted, s) => (true, s)
        | (.rejected, s) => eliminateScheduled O budget rest occurrences s
        | (.found resolvents, s) =>
          match commitElimination O v (positive ++ negative) resolvents occurrences s with
          | (false, _, s) => (false, s)
          | (true, occurrences, s) => eliminateScheduled O budget rest occurrences s

/-- The occurrences of a literal in original clauses when the pass starts. -/
def eliminationOccurrences (s : Solver) (l : Lit) : List ClauseRef :=
  s.clauseReferences.filter fun c => s.isOriginal c && decide (l ∈ (s.clause c).literals)

/-- The unassigned variables that occur, those with few occurrences first. -/
def eliminationSchedule (s : Solver) : List ℕ :=
  let count (v : ℕ) : ℕ := (s.eliminationOccurrences ⟨v, true⟩).length
    + (s.eliminationOccurrences ⟨v, false⟩).length
  ((List.range s.variableCount).filter fun v =>
    (s.assignments v).isNone && decide (0 < count v)).insertionSort
      fun v w => count v < count w ∨ count v = count w ∧ v ≤ w

/-- `eliminate_variables`. -/
def eliminateVariables (O : Oracle) (s : Solver) : Bool × Solver :=
  eliminateScheduled O s.eliminationLiteralTouchBudget s.eliminationSchedule
    s.eliminationOccurrences s

/-! ### Model extension -/

/-- The value the recorded clauses require, or `none` (outside) where the source would
panic: a clause without the variable, or two opposite requirements. -/
def requiredByAll (v : ℕ) (values : ℕ → Bool) : List (List Lit) → Option Bool →
    Option (Option Bool)
  | [], required => some required
  | clause :: rest, required =>
    if clause.any fun l => decide (l.var ≠ v) && (values l.var == l.positive) then
      requiredByAll v values rest required
    else
      match clause.reverse.find? fun l => decide (l.var = v) with
      | none => none
      | some pivot =>
        match required with
        | none => requiredByAll v values rest (some pivot.positive)
        | some previous =>
          if previous = pivot.positive then requiredByAll v values rest (some previous) else none

/-- `extend_model` for one record. -/
def extendRecord (values : ℕ → Bool) (r : EliminationRecord) : Option (ℕ → Bool) :=
  match requiredByAll r.pivot values r.clauses none with
  | none => none
  | some none => some values
  | some (some value) => some (Function.update values r.pivot value)

/-- `extend_model`: the last elimination is undone first. -/
def extendModel (s : Solver) (values : ℕ → Bool) : Option (ℕ → Bool) :=
  s.eliminationRecords.reverse.foldlM extendRecord values

end Solver

end Satrap
