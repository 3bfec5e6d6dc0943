/-
# The LBD-free reducers

The database of the long clauses with the arrays that lie alongside it, and the five reducers that
`reduce_database` chooses from under LBD-free clause management.  Each collects the learned clauses
that are the reason of no assignment, sorts them in its own order and removes the first ones, as
many as a fraction of those with usage score zero: all but the shadow reducer delete them, which
keeps some as shadows.  What is not found in its array is `none`.
-/
import Satrap.Solver.Arena
import Satrap.Solver.Ancestry
import Mathlib.Algebra.Order.Floor.Semiring
import Mathlib.Data.Rat.Floor

namespace Satrap

/-! ### The configuration -/

/-- The options that `reduce_database` depends on, as `with_config` admits them together with
LBD-free clause management. -/
structure ReductionConfig where
  scanDebtClauseManagement : Bool := false
  nonregularClauseRetention : Bool := false
  shadowClauseReactivation : Bool := false
  counterfactualPhaseVoting : Bool := false
  compactClauseArena : Bool := false
  nonregular_scanDebt : nonregularClauseRetention = true → scanDebtClauseManagement = false := by
    simp
  shadow_scanDebt : shadowClauseReactivation = true → scanDebtClauseManagement = false := by simp
  shadow_nonregular : shadowClauseReactivation = true → nonregularClauseRetention = false := by
    simp
  shadow_compact : shadowClauseReactivation = true → compactClauseArena = false := by simp
  counterfactual_scanDebt : counterfactualPhaseVoting = true →
    scanDebtClauseManagement = false := by simp
  counterfactual_nonregular : counterfactualPhaseVoting = true →
    nonregularClauseRetention = false := by simp
  counterfactual_shadow : counterfactualPhaseVoting = true →
    shadowClauseReactivation = false := by simp
  counterfactual_compact : counterfactualPhaseVoting = true → compactClauseArena = false := by
    simp

/-- How floating-point arithmetic rounds: monotonically, and exactly where an integer has its
place. -/
structure Rounding where
  round : ℚ → ℚ
  mono : Monotone round
  exact : ∀ n : ℕ, n ≤ 2 ^ 53 → round n = n

/-- `lbd_free_deletion_fraction`, a fraction for each reduction, with the arithmetic in which it is
applied. -/
structure DeletionPolicy where
  rounding : Rounding
  fraction : ℕ → ℚ
  nonneg : ∀ reduction, 0 ≤ fraction reduction
  lt_one : ∀ reduction, fraction reduction < 1

/-- `(lbd_free_deletion_fraction(reduction) * len as f64).floor() as usize`. -/
def DeletionPolicy.deletionCount (P : DeletionPolicy) (reduction length : ℕ) : ℕ :=
  ⌊P.rounding.round (P.fraction reduction * P.rounding.round length)⌋₊

/-! ### The database -/

/-- The statistics that the reducers and the operations between them keep. -/
inductive ReductionStat where
  | conflicts | reductions | deletedClauses
  | clauseUsageZeroCandidates | clauseUsagePositiveProtections
  | clauseUsageBcpIncrements | clauseUsageAnalysisIncrements
  | clauseUsageDecayPasses | clauseUsageScoresDecayed
  | clauseScanDebtLiteralChecks | clauseScanDebtPeak | clauseScanDebtNonzeroResets
  | clauseScanDebtSelectionDisplacements | clauseScanDebtPositiveDeletions
  | clauseScanDebtZeroRescues
  | regularityNonregularZeroCandidates | regularitySelectionDisplacements
  | regularityNonregularRescues | regularityNonregularDeletions
  | shadowClausesStarted | shadowEffectiveRemovals | shadowActivePeak | shadowCapacitySkips
  | shadowUnitTriggers | shadowConflictTriggers | shadowObservationConflicts
  | shadowReactivatedClauses | shadowExpiredClauses
  | counterfactualPhaseDeletionOffers | counterfactualPhaseSampleInsertions
  | counterfactualPhaseSampleReplacements | counterfactualPhaseSamplePeak
deriving DecidableEq

structure CounterfactualPhaseSample where
  rank : ℕ
  reduction : ℕ
  clause : ℕ

/-- The long clauses, the reasons of the variables, and what is kept for each long clause. -/
structure ClauseDatabase where
  config : ReductionConfig
  arena : Arena
  reasons : List (Option ClauseRef)
  clauseUsageScores : List ℕ
  clauseScanDebt : List ℕ
  regularityLongSamples : List (ℕ → ℕ)
  regularityLongStates : List (BitVec 8)
  shadowClauseStates : List ShadowState
  shadowClauseStartedAt : List ℕ
  shadowClauses : List ℕ
  counterfactualPhaseSamples : List CounterfactualPhaseSample
  activeLearnedClauses : ℕ
  stats : ReductionStat → ℕ

/-- `SHADOW_CAPACITY`. -/
def shadowCapacity : ℕ := 64

/-- `COUNTERFACTUAL_PHASE_CAPACITY`. -/
def counterfactualPhaseCapacity : ℕ := 64

/-- `SHADOW_OBSERVATION_CONFLICTS`. -/
def shadowObservationConflicts : ℕ := 256

/-- `shadow_clause_rank`. -/
def shadowClauseRank (reference reduction : ℕ) : ℕ :=
  let value := BitVec.ofNat 64 reference ^^^ (BitVec.ofNat 64 reduction <<< 32)
  let value := value + 0x9e3779b97f4a7c15#64
  let value := (value ^^^ (value >>> 30)) * 0xbf58476d1ce4e5b9#64
  let value := (value ^^^ (value >>> 27)) * 0x94d049bb133111eb#64
  (value ^^^ (value >>> 31)).toNat

/-- `sort_unstable_by`, with a comparison that leaves no ties. -/
def sortUnstableBy (compare : ℕ → ℕ → Ordering) (references : List ℕ) : List ℕ :=
  references.insertionSort fun left right => compare left right ≠ .gt

/-- One entry of a vector of flags is set. -/
def setFlag (flags : List Bool) (index : ℕ) : Option (List Bool) :=
  if index < flags.length then some (flags.set index true) else none

/-- Some entries of a vector of flags are set. -/
def setFlags (flags : List Bool) (indices : List ℕ) : Option (List Bool) :=
  indices.foldlM setFlag flags

namespace ClauseDatabase

/-- No clauses. -/
def new (config : ReductionConfig) : ClauseDatabase where
  config := config
  arena := .new config.compactClauseArena
  reasons := []
  clauseUsageScores := []
  clauseScanDebt := []
  regularityLongSamples := []
  regularityLongStates := []
  shadowClauseStates := []
  shadowClauseStartedAt := []
  shadowClauses := []
  counterfactualPhaseSamples := []
  activeLearnedClauses := 0
  stats := fun _ => 0

/-- A statistic is replaced. -/
def record (d : ClauseDatabase) (stat : ReductionStat) (value : ℕ) : ClauseDatabase :=
  { d with stats := Function.update d.stats stat value }

/-- A statistic is increased. -/
def tally (d : ClauseDatabase) (stat : ReductionStat) (amount : ℕ) : ClauseDatabase :=
  d.record stat (saturatingAdd (d.stats stat) amount)

/-- The length of a clause. -/
def clauseLen (d : ClauseDatabase) (reference : ℕ) : ℕ := (d.arena.clause reference).length

/-- `clause_usage_scores[reference]`. -/
def score (d : ClauseDatabase) (reference : ℕ) : ℕ := d.clauseUsageScores.getD reference 0

/-- `clause_scan_debt[reference]`. -/
def debt (d : ClauseDatabase) (reference : ℕ) : ℕ := d.clauseScanDebt.getD reference 0

/-- `clause_has_nonregular_derivation`. -/
def nonregular (d : ClauseDatabase) (reference : ℕ) : Bool :=
  (DerivationAncestry.mk (d.regularityLongSamples.getD reference fun _ => emptyPivotSampleSlot)
    (d.regularityLongStates.getD reference 0)).isNonregular

/-- `clause_is_shadow`, of a long clause. -/
def isShadow (d : ClauseDatabase) (reference : ℕ) : Bool :=
  d.config.shadowClauseReactivation &&
    decide (d.shadowClauseStates.getD reference .active ≠ .active)

/-! ### What the reducers share -/

/-- The long clause that is a reason is locked. -/
def lockReason (locked : List Bool) : Option ClauseRef → Option (List Bool)
  | some (.long clause) => setFlag locked clause
  | _ => some locked

/-- The clauses that are the reason of a variable. -/
def lockedClauses (d : ClauseDatabase) : Option (List Bool) :=
  d.reasons.foldlM lockReason (List.replicate d.arena.count false)

/-- The loop over the clauses, which visits the learned ones that are neither deleted nor
locked. -/
def visitClauses {σ : Type} (d : ClauseDatabase) (locked : List Bool)
    (visit : σ → ℕ → Option σ) (state : σ) : Option σ :=
  (List.range d.arena.count).foldlM (fun state reference =>
    if !(d.arena.clause reference).learned || (d.arena.clause reference).deleted then some state
    else
      match locked[reference]? with
      | none => none
      | some true => some state
      | some false => visit state reference) state

/-- A visited clause is a candidate when it is not skipped and its usage score is zero; with a
positive score it is counted as protected. -/
def visitZero (d : ClauseDatabase) (skip : ℕ → Option Bool) (state : List ℕ × ℕ) (reference : ℕ) :
    Option (List ℕ × ℕ) :=
  let (candidates, protections) := state
  match skip reference, d.clauseUsageScores[reference]? with
  | some true, _ => some (candidates, protections)
  | some false, some score =>
    if 0 < score then some (candidates, saturatingAdd protections 1)
    else some (candidates ++ [reference], protections)
  | _, _ => none

/-- The candidates with usage score zero. -/
def zeroCandidates (d : ClauseDatabase) (locked : List Bool) (skip : ℕ → Option Bool) :
    Option (List ℕ × ClauseDatabase) :=
  match d.visitClauses locked (d.visitZero skip) ([], d.stats .clauseUsagePositiveProtections) with
  | none => none
  | some (candidates, protections) =>
    some (candidates, (d.record .clauseUsagePositiveProtections protections).tally
      .clauseUsageZeroCandidates candidates.length)

/-- Descending length, then ascending reference. -/
def compareLength (d : ClauseDatabase) (left right : ℕ) : Ordering :=
  (compare (d.clauseLen right) (d.clauseLen left)).then (compare left right)

/-- Descending scan debt, ascending score, descending length, then ascending reference. -/
def compareScanDebt (d : ClauseDatabase) (left right : ℕ) : Ordering :=
  (compare (d.debt right) (d.debt left)).then <|
    (compare (d.score left) (d.score right)).then <|
      (compare (d.clauseLen right) (d.clauseLen left)).then (compare left right)

/-- Regular clauses first, then descending length, then ascending reference. -/
def compareNonregular (d : ClauseDatabase) (left right : ℕ) : Ordering :=
  (compare (d.nonregular left) (d.nonregular right)).then <|
    (compare (d.clauseLen right) (d.clauseLen left)).then (compare left right)

/-- Ascending rank, then ascending reference. -/
def compareRank (reduction left right : ℕ) : Ordering :=
  (compare (shadowClauseRank left reduction) (shadowClauseRank right reduction)).then
    (compare left right)

/-- A clause is deleted and counted. -/
def deleteClause (d : ClauseDatabase) (reference : ℕ) : Option ClauseDatabase :=
  match d.arena.markClauseDeleted (.long reference) with
  | none => none
  | some arena =>
    some { d.tally .deletedClauses 1 with
      arena := arena
      activeLearnedClauses := d.activeLearnedClauses - 1 }

/-- The end of a reducer. -/
def compactAfter (d : ClauseDatabase) : Option ClauseDatabase :=
  if d.config.compactClauseArena then d.arena.compact.map fun arena => { d with arena := arena }
  else some d

/-- The number of the reduction that begins. -/
def reduction (d : ClauseDatabase) : ℕ := saturatingAdd (d.stats .reductions) 1

/-! ### The reducers -/

/-- `reduce_database_lbd_free`. -/
def reduceDatabaseLbdFree (P : DeletionPolicy) (d : ClauseDatabase) : Option ClauseDatabase := do
  let locked ← d.lockedClauses
  let (candidates, d) ← d.zeroCandidates locked fun _ => some false
  let candidates := sortUnstableBy d.compareLength candidates
  let reduction := d.reduction
  let deletionCount := P.deletionCount reduction candidates.length
  let d ← (candidates.take deletionCount).foldlM deleteClause d
  (d.record .reductions reduction).compactAfter

/-- `offer_counterfactual_phase_sample`. -/
def offerCounterfactualPhaseSample (d : ClauseDatabase) (clause reduction : ℕ) : ClauseDatabase :=
  let d := d.tally .counterfactualPhaseDeletionOffers 1
  let sample : CounterfactualPhaseSample := ⟨shadowClauseRank clause reduction, reduction, clause⟩
  let before (s t : CounterfactualPhaseSample) : Bool :=
    ((compare s.rank t.rank).then <| (compare s.reduction t.reduction).then <|
      compare s.clause t.clause) = .lt
  let samples := d.counterfactualPhaseSamples
  let d :=
    if samples.length < counterfactualPhaseCapacity then
      { d with counterfactualPhaseSamples := samples ++ [sample] }.tally
        .counterfactualPhaseSampleInsertions 1
    else
      -- the last of the greatest samples, as `max_by_key` finds it
      let worst := (List.range samples.length).foldl (fun worst index =>
        match samples[worst]?, samples[index]? with
        | some s, some t => if before t s then worst else index
        | _, _ => worst) 0
      match samples[worst]? with
      | some s =>
        if before sample s then
          ({ d with counterfactualPhaseSamples := samples.set worst sample }.tally
            .counterfactualPhaseSampleInsertions 1).tally .counterfactualPhaseSampleReplacements 1
        else d
      | none => d
  d.record .counterfactualPhaseSamplePeak
    (max (d.stats .counterfactualPhaseSamplePeak) d.counterfactualPhaseSamples.length)

/-- A clause is deleted and offered as a sample. -/
def deleteAndOffer (reduction : ℕ) (d : ClauseDatabase) (reference : ℕ) : Option ClauseDatabase :=
  match d.deleteClause reference with
  | none => none
  | some d => some (d.offerCounterfactualPhaseSample reference reduction)

/-- `reduce_database_counterfactual_phase`. -/
def reduceDatabaseCounterfactualPhase (P : DeletionPolicy) (d : ClauseDatabase) :
    Option ClauseDatabase := do
  let locked ← d.lockedClauses
  let (candidates, d) ← d.zeroCandidates locked fun _ => some false
  let candidates := sortUnstableBy d.compareLength candidates
  let reduction := d.reduction
  let deletionCount := P.deletionCount reduction candidates.length
  let d ← (candidates.take deletionCount).foldlM (deleteAndOffer reduction) d
  some (d.record .reductions reduction)

/-- Every visited clause is a candidate; those with score zero are collected on their own, the
others counted. -/
def visitScored (d : ClauseDatabase) (state : List ℕ × List ℕ × ℕ) (reference : ℕ) :
    Option (List ℕ × List ℕ × ℕ) :=
  let (candidates, zero, positive) := state
  match d.clauseUsageScores[reference]? with
  | none => none
  | some score =>
    if score = 0 then some (candidates ++ [reference], zero ++ [reference], positive)
    else some (candidates ++ [reference], zero, saturatingAdd positive 1)

/-- A clause is deleted; it is counted when the plain reducer would have kept it, and when it has
the mark that is looked up. -/
def deleteCounted (baselineDeleted : List Bool) (marked : ℕ → Option Bool)
    (state : ClauseDatabase × ℕ × ℕ) (clause : ℕ) : Option (ClauseDatabase × ℕ × ℕ) :=
  let (d, displacements, deletions) := state
  match baselineDeleted[clause]?, marked clause, d.deleteClause clause with
  | some baseline, some mark, some d =>
    some (d, if baseline then displacements else saturatingAdd displacements 1,
      if mark then saturatingAdd deletions 1 else deletions)
  | _, _, _ => none

/-- `reduce_database_scan_debt`. -/
def reduceDatabaseScanDebt (P : DeletionPolicy) (d : ClauseDatabase) : Option ClauseDatabase := do
  let locked ← d.lockedClauses
  let (candidates, zero, positive) ← d.visitClauses locked d.visitScored ([], [], 0)
  let d := d.tally .clauseUsageZeroCandidates zero.length
  let reduction := d.reduction
  let deletionCount := P.deletionCount reduction zero.length
  let zero := sortUnstableBy d.compareLength zero
  let baselineDeleted ← setFlags (List.replicate d.arena.count false) (zero.take deletionCount)
  if !candidates.all fun reference => decide (reference < d.clauseScanDebt.length) then none
  else
    let candidates := sortUnstableBy d.compareScanDebt candidates
    let positiveScore (clause : ℕ) :=
      d.clauseUsageScores[clause]?.map fun score => decide (0 < score)
    let (d, displacements, positiveDeletions) ← (candidates.take deletionCount).foldlM
      (deleteCounted baselineDeleted positiveScore) (d, 0, 0)
    let d := d.tally .clauseScanDebtSelectionDisplacements displacements
    let d := d.tally .clauseScanDebtPositiveDeletions positiveDeletions
    let d := d.tally .clauseScanDebtZeroRescues displacements
    let d := d.tally .clauseUsagePositiveProtections (positive - positiveDeletions)
    (d.record .reductions reduction).compactAfter

/-- `reduce_database_nonregular`; the nonregular candidates are counted behind the loop. -/
def reduceDatabaseNonregular (P : DeletionPolicy) (d : ClauseDatabase) : Option ClauseDatabase := do
  let locked ← d.lockedClauses
  let (candidates, d) ← d.zeroCandidates locked fun _ => some false
  if !candidates.all fun reference => decide (reference < d.regularityLongSamples.length) &&
      decide (reference < d.regularityLongStates.length) then none
  else
    let d := d.tally .regularityNonregularZeroCandidates (candidates.countP d.nonregular)
    let reduction := d.reduction
    let deletionCount := P.deletionCount reduction candidates.length
    let baselineOrder := sortUnstableBy d.compareLength candidates
    let baselineDeleted ← setFlags (List.replicate d.arena.count false)
      (baselineOrder.take deletionCount)
    let deletions := (sortUnstableBy d.compareNonregular candidates).take deletionCount
    let treatmentDeleted ← setFlags (List.replicate d.arena.count false) deletions
    let nonregular := d.nonregular
    let (d, displacements, nonregularDeletions) ← deletions.foldlM
      (deleteCounted baselineDeleted fun clause => some (nonregular clause)) (d, 0, 0)
    if !(baselineOrder.take deletionCount).all fun reference =>
        decide (reference < treatmentDeleted.length) then none
    else
      let rescues := (baselineOrder.take deletionCount).countP fun reference =>
        !treatmentDeleted.getD reference false && nonregular reference
      let d := d.tally .regularitySelectionDisplacements displacements
      let d := d.tally .regularityNonregularRescues rescues
      let d := d.tally .regularityNonregularDeletions nonregularDeletions
      (d.record .reductions reduction).compactAfter

/-- `begin_shadow_observation`. -/
def beginShadowObservation (d : ClauseDatabase) (reference : ℕ) : Option ClauseDatabase :=
  if reference < d.shadowClauseStates.length ∧ reference < d.shadowClauseStartedAt.length then
    let d := { d with
      shadowClauseStates := d.shadowClauseStates.set reference .observing
      shadowClauseStartedAt := d.shadowClauseStartedAt.set reference (d.stats .conflicts)
      shadowClauses := d.shadowClauses ++ [reference]
      activeLearnedClauses := d.activeLearnedClauses - 1 }
    let d := d.tally .shadowClausesStarted 1
    let d := d.tally .shadowEffectiveRemovals 1
    some (d.record .shadowActivePeak (max (d.stats .shadowActivePeak) d.shadowClauses.length))
  else none

/-- A clause becomes a shadow when it is selected, and is deleted otherwise. -/
def removeShadowing (selected : List Bool) (d : ClauseDatabase) (reference : ℕ) :
    Option ClauseDatabase :=
  match selected[reference]? with
  | none => none
  | some true => d.beginShadowObservation reference
  | some false =>
    match d.deleteClause reference with
    | none => none
    | some d => some (d.tally .shadowEffectiveRemovals 1)

/-- A reason that is a shadow. -/
def shadowReason (d : ClauseDatabase) : Option ClauseRef → Bool
  | some (.long clause) => d.isShadow clause
  | _ => false

/-- `reduce_database_shadow_reactivation`; a reason that is a shadow fails its assertion. -/
def reduceDatabaseShadowReactivation (P : DeletionPolicy) (d : ClauseDatabase) :
    Option ClauseDatabase := do
  if d.reasons.any d.shadowReason then none
  else
    let locked ← d.lockedClauses
    let (candidates, d) ← d.zeroCandidates locked fun reference =>
      d.shadowClauseStates[reference]?.map fun state => decide (state ≠ .active)
    let candidates := sortUnstableBy d.compareLength candidates
    let reduction := d.reduction
    let deletionCount := P.deletionCount reduction candidates.length
    if candidates.length < deletionCount then none
    else
      let deletions := candidates.take deletionCount
      let available := shadowCapacity - d.shadowClauses.length
      let shadowCount := min available deletions.length
      let ranked := sortUnstableBy (compareRank reduction) deletions
      let selected ← setFlags (List.replicate d.arena.count false) (ranked.take shadowCount)
      let d ← deletions.foldlM (removeShadowing selected) d
      let d := d.tally .shadowCapacitySkips (deletions.length - shadowCount)
      some (d.record .reductions reduction)

/-- `reduce_database`, under LBD-free clause management. -/
def reduceDatabase (P : DeletionPolicy) (d : ClauseDatabase) : Option ClauseDatabase :=
  if d.config.scanDebtClauseManagement then d.reduceDatabaseScanDebt P
  else if d.config.nonregularClauseRetention then d.reduceDatabaseNonregular P
  else if d.config.shadowClauseReactivation then d.reduceDatabaseShadowReactivation P
  else if d.config.counterfactualPhaseVoting then d.reduceDatabaseCounterfactualPhase P
  else d.reduceDatabaseLbdFree P

end ClauseDatabase

end Satrap
