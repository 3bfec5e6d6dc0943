/-
# The clauses between two reductions

What happens to the database of the long clauses outside the reducers: clauses are stored and
deleted, become reasons, are used, scanned and decayed, and a shadow that has been observed for
long enough comes back or is deleted.  A shadow is learned, not deleted and the reason of no
variable, and the list of the shadows is complete; every operation and every reducer keeps this.
-/
import Satrap.Solver.Reductions

namespace Satrap.ClauseDatabase

/-! ### The operations -/

/-- One more entry, when the array is kept. -/
def pushWhen {α : Type} (enabled : Bool) (entries : List α) (entry : α) : List α :=
  if enabled then entries ++ [entry] else entries

/-- `allocate_clause`. -/
def allocateClause (d : ClauseDatabase) (literals : List Lit) (learned : Bool) :
    Option (ClauseRef × ClauseDatabase) :=
  match d.arena.allocateClause literals learned with
  | none => none
  | some (.binary clause, arena) => some (.binary clause, { d with arena := arena })
  | some (.long clause, arena) => some (.long clause, { d with
      arena := arena
      clauseUsageScores := d.clauseUsageScores ++ [if learned then 1 else 0]
      clauseScanDebt := pushWhen d.config.scanDebtClauseManagement d.clauseScanDebt 0
      regularityLongSamples := pushWhen d.config.nonregularClauseRetention d.regularityLongSamples
        fun _ => emptyPivotSampleSlot
      regularityLongStates := pushWhen d.config.nonregularClauseRetention d.regularityLongStates 0
      shadowClauseStates := pushWhen d.config.shadowClauseReactivation d.shadowClauseStates .active
      shadowClauseStartedAt :=
        pushWhen d.config.shadowClauseReactivation d.shadowClauseStartedAt 0 })

/-- The literals of a clause change places. -/
def swapLiterals (d : ClauseDatabase) (clause i j : ℕ) : Option ClauseDatabase :=
  (d.arena.swapLiterals clause i j).map fun arena => { d with arena := arena }

/-- `mark_clause_deleted`, as the passes call it, of a clause that is no shadow. -/
def markClauseDeleted (d : ClauseDatabase) (clause : ClauseRef) : Option ClauseDatabase :=
  if d.shadowReason (some clause) then none
  else (d.arena.markClauseDeleted clause).map fun arena => { d with arena := arena }

/-- The reasons of new variables. -/
def addVariables (d : ClauseDatabase) (count : ℕ) : ClauseDatabase :=
  { d with reasons := d.reasons ++ List.replicate count none }

/-- A variable is assigned, or its assignment undone; a clause that is the reason of an assignment
is there, not deleted and no shadow. -/
def setReason (d : ClauseDatabase) (v : ℕ) (reason : Option ClauseRef) :
    Option ClauseDatabase :=
  match reason with
  | some (.long clause) =>
    if clause < d.arena.count ∧ (d.arena.clause clause).deleted = false ∧
        d.isShadow clause = false then
      some { d with reasons := d.reasons.set v (some (.long clause)) }
    else none
  | reason => some { d with reasons := d.reasons.set v reason }

/-- A long clause that is learned and not deleted. -/
def isRetained (d : ClauseDatabase) (clause : ℕ) : Bool :=
  (d.arena.clause clause).learned && !(d.arena.clause clause).deleted

/-- `reset_clause_scan_debt`, of a long clause. -/
def resetClauseScanDebt (d : ClauseDatabase) (clause : ℕ) : Option ClauseDatabase :=
  if !d.config.scanDebtClauseManagement || !d.isRetained clause then some d
  else
    match d.clauseScanDebt[clause]? with
    | none => none
    | some debt =>
      if debt = 0 then some d
      else some ({ d with clauseScanDebt := d.clauseScanDebt.set clause 0 }.tally
        .clauseScanDebtNonzeroResets 1)

/-- `charge_clause_scan_debt`, of a long clause. -/
def chargeClauseScanDebt (d : ClauseDatabase) (clause literalChecks : ℕ) :
    Option ClauseDatabase :=
  if !d.config.scanDebtClauseManagement || literalChecks = 0 || !d.isRetained clause then some d
  else
    match d.clauseScanDebt[clause]? with
    | none => none
    | some debt =>
      let debt := saturatingAdd debt literalChecks
      let d := { d with clauseScanDebt := d.clauseScanDebt.set clause debt }
      let d := d.tally .clauseScanDebtLiteralChecks literalChecks
      some (d.record .clauseScanDebtPeak (max (d.stats .clauseScanDebtPeak) debt))

/-- `ClauseUsageUse`. -/
inductive ClauseUsageUse where
  | propagation | analysis

/-- The statistic that counts a use. -/
def ClauseUsageUse.stat : ClauseUsageUse → ReductionStat
  | .propagation => .clauseUsageBcpIncrements
  | .analysis => .clauseUsageAnalysisIncrements

/-- `bump_clause_usage`, of a long clause. -/
def bumpClauseUsage (d : ClauseDatabase) (clause : ℕ) (useKind : ClauseUsageUse) :
    Option ClauseDatabase :=
  if !d.isRetained clause then some d
  else
    match d.resetClauseScanDebt clause with
    | none => none
    | some d =>
      match d.clauseUsageScores[clause]? with
      | none => none
      | some score => some ({ d with
          clauseUsageScores := d.clauseUsageScores.set clause (min (score + 1) (2 ^ 32 - 1)) }.tally
            useKind.stat 1)

/-- The usage score of a retained clause that is no shadow goes down. -/
def decayClauseUsage (d : ClauseDatabase) (clause : ℕ) : Option ClauseDatabase :=
  if !d.isRetained clause || d.isShadow clause then some d
  else
    match d.clauseUsageScores[clause]? with
    | none => none
    | some score =>
      if 0 < score then
        some ({ d with clauseUsageScores := d.clauseUsageScores.set clause (score - 1) }.tally
          .clauseUsageScoresDecayed 1)
      else some d

/-- `decay_clause_usage_scores`. -/
def decayClauseUsageScores (d : ClauseDatabase) : Option ClauseDatabase :=
  (List.range d.arena.count).foldlM decayClauseUsage (d.tally .clauseUsageDecayPasses 1)

/-- `set_clause_derivation_ancestry`, of a long clause. -/
def setClauseDerivationAncestry (d : ClauseDatabase) (clause : ℕ) (ancestry : DerivationAncestry) :
    ClauseDatabase :=
  { d with
    regularityLongSamples := d.regularityLongSamples.set clause ancestry.sample
    regularityLongStates := d.regularityLongStates.set clause ancestry.state }

/-- `trigger_shadow_clause`. -/
def triggerShadowClause (d : ClauseDatabase) (clause : ℕ) (conflict : Bool) : ClauseDatabase :=
  if d.shadowClauseStates[clause]? = some .observing then
    { d with shadowClauseStates := d.shadowClauseStates.set clause .triggered }.tally
      (if conflict then .shadowConflictTriggers else .shadowUnitTriggers) 1
  else d

/-- One shadow at the root: it stays, comes back, or is deleted. -/
def finalizeShadowClause (state : ClauseDatabase × List ℕ) (clause : ℕ) :
    Option (ClauseDatabase × List ℕ) :=
  let (d, retained) := state
  match d.shadowClauseStartedAt[clause]?, d.shadowClauseStates[clause]? with
  | some startedAt, some shadow =>
    let age := d.stats .conflicts - startedAt
    if age < shadowObservationConflicts then some (d, retained ++ [clause])
    else
      let d := d.tally .shadowObservationConflicts age
      let d := { d with
        shadowClauseStartedAt := d.shadowClauseStartedAt.set clause 0
        shadowClauseStates := d.shadowClauseStates.set clause .active }
      if shadow = .triggered then
        if clause < d.clauseUsageScores.length then
          some ({ d with
            clauseUsageScores := d.clauseUsageScores.set clause 1
            activeLearnedClauses := saturatingAdd d.activeLearnedClauses 1 }.tally
              .shadowReactivatedClauses 1, retained)
        else none
      else
        match d.arena.markClauseDeleted (.long clause) with
        | none => none
        | some arena =>
          some (({ d with arena := arena }.tally .deletedClauses 1).tally
            .shadowExpiredClauses 1, retained)
  | _, _ => none

/-- `finalize_shadow_clauses_at_root`, up to the assignments that follow. -/
def finalizeShadowClausesAtRoot (d : ClauseDatabase) : Option ClauseDatabase :=
  match d.shadowClauses.foldlM finalizeShadowClause ({ d with shadowClauses := [] }, []) with
  | none => none
  | some (d, retained) => some { d with shadowClauses := retained }

/-- The databases that the operations and the reducers lead to. -/
inductive Reachable (config : ReductionConfig) : ClauseDatabase → Prop
  | new : Reachable config (new config)
  | allocate {d d' : ClauseDatabase} {literals : List Lit} {learned : Bool} {clause : ClauseRef}
      (h : Reachable config d) (he : d.allocateClause literals learned = some (clause, d')) :
      Reachable config d'
  | swap {d d' : ClauseDatabase} {clause i j : ℕ} (h : Reachable config d)
      (he : d.swapLiterals clause i j = some d') : Reachable config d'
  | delete {d d' : ClauseDatabase} {clause : ClauseRef} (h : Reachable config d)
      (he : d.markClauseDeleted clause = some d') : Reachable config d'
  | vars {d : ClauseDatabase} (h : Reachable config d) (count : ℕ) :
      Reachable config (d.addVariables count)
  | assign {d d' : ClauseDatabase} {v : ℕ} {reason : Option ClauseRef}
      (h : Reachable config d) (he : d.setReason v reason = some d') : Reachable config d'
  | charge {d d' : ClauseDatabase} {clause literalChecks : ℕ} (h : Reachable config d)
      (he : d.chargeClauseScanDebt clause literalChecks = some d') : Reachable config d'
  | reset {d d' : ClauseDatabase} {clause : ℕ} (h : Reachable config d)
      (he : d.resetClauseScanDebt clause = some d') : Reachable config d'
  | bump {d d' : ClauseDatabase} {clause : ℕ} {useKind : ClauseUsageUse} (h : Reachable config d)
      (he : d.bumpClauseUsage clause useKind = some d') : Reachable config d'
  | decay {d d' : ClauseDatabase} (h : Reachable config d)
      (he : d.decayClauseUsageScores = some d') : Reachable config d'
  | ancestry {d : ClauseDatabase} (h : Reachable config d) (clause : ℕ)
      (ancestry : DerivationAncestry) :
      Reachable config (d.setClauseDerivationAncestry clause ancestry)
  | trigger {d : ClauseDatabase} (h : Reachable config d) (clause : ℕ) (conflict : Bool) :
      Reachable config (d.triggerShadowClause clause conflict)
  | conflict {d : ClauseDatabase} (h : Reachable config d) :
      Reachable config (d.record .conflicts (d.stats .conflicts + 1))
  | learn {d : ClauseDatabase} (h : Reachable config d) :
      Reachable config { d with activeLearnedClauses := d.activeLearnedClauses + 1 }
  | finalize {d d' : ClauseDatabase} (h : Reachable config d)
      (he : d.finalizeShadowClausesAtRoot = some d') : Reachable config d'
  | sample {d : ClauseDatabase} (h : Reachable config d) :
      Reachable config { d with counterfactualPhaseSamples := [] }
  | reduce {d d' : ClauseDatabase} {P : DeletionPolicy} (h : Reachable config d)
      (he : d.reduceDatabase P = some d') : Reachable config d'

/-! ### The invariant -/

variable {config : ReductionConfig} {P : DeletionPolicy} {d d' d'' : ClauseDatabase} {r : ℕ}
  {S : List ℕ} {sel : ℕ → Bool}

/-- Every array that is kept has an entry for each long clause, and the shadows are those in the
list: learned clauses that are not deleted and the reason of no variable. -/
structure Ok (d : ClauseDatabase) : Prop extends d.Ready where
  debts : d.config.scanDebtClauseManagement = true → d.clauseScanDebt.length = d.arena.count
  samples : d.config.nonregularClauseRetention = true →
    d.regularityLongSamples.length = d.arena.count
  regularity : d.config.nonregularClauseRetention = true →
    d.regularityLongStates.length = d.arena.count
  states : d.config.shadowClauseReactivation = true → d.shadowClauseStates.length = d.arena.count
  started : d.config.shadowClauseReactivation = true →
    d.shadowClauseStartedAt.length = d.arena.count
  shadows : ∀ r, r ∈ d.shadowClauses ↔ d.isShadow r = true
  nodup : d.shadowClauses.Nodup
  live : ∀ r, d.isShadow r = true → d.arena.Live r ∧ (d.arena.clause r).learned = true
  unreasoned : ∀ r, d.isShadow r = true → some (.long r) ∉ d.reasons

/-- The second database has the clauses and the shadows of the first; no shadow is deleted, and
none becomes a reason. -/
structure Steady (d d' : ClauseDatabase) : Prop where
  config : d'.config = d.config
  arena : d'.arena.Ok
  flag : d'.arena.compactClauseArena = d.arena.compactClauseArena
  count : d'.arena.count = d.arena.count
  learned : ∀ r, (d'.arena.clause r).learned = (d.arena.clause r).learned
  deleted : ∀ r, d.isShadow r = true → (d'.arena.clause r).deleted = (d.arena.clause r).deleted
  reasons : ∀ r, some (.long r) ∈ d'.reasons →
    some (.long r) ∈ d.reasons ∨ r < d.arena.count ∧ d.isShadow r = false
  scores : d'.clauseUsageScores.length = d.clauseUsageScores.length
  debts : d'.clauseScanDebt.length = d.clauseScanDebt.length
  samples : d'.regularityLongSamples.length = d.regularityLongSamples.length
  regularity : d'.regularityLongStates.length = d.regularityLongStates.length
  states : d'.shadowClauseStates.length = d.shadowClauseStates.length
  started : d'.shadowClauseStartedAt.length = d.shadowClauseStartedAt.length
  shadow : ∀ r, d'.isShadow r = d.isShadow r
  shadows : d'.shadowClauses = d.shadowClauses

lemma Steady.refl (h : d.arena.Ok) : Steady d d :=
  ⟨rfl, h, rfl, rfl, fun _ => rfl, fun _ _ => rfl, fun _ => .inl, rfl, rfl, rfl, rfl, rfl, rfl,
    fun _ => rfl, rfl⟩

lemma Steady.trans (h : Steady d d') (h' : Steady d' d'') : Steady d d'' where
  config := h'.config.trans h.config
  arena := h'.arena
  flag := h'.flag.trans h.flag
  count := h'.count.trans h.count
  learned r := (h'.learned r).trans (h.learned r)
  deleted r hr := (h'.deleted r ((h.shadow r).trans hr)).trans (h.deleted r hr)
  reasons r hr := (h'.reasons r hr).elim (h.reasons r) fun ⟨h1, h2⟩ =>
    .inr ⟨h1.trans_eq h.count, (h.shadow r).symm.trans h2⟩
  scores := h'.scores.trans h.scores
  debts := h'.debts.trans h.debts
  samples := h'.samples.trans h.samples
  regularity := h'.regularity.trans h.regularity
  states := h'.states.trans h.states
  started := h'.started.trans h.started
  shadow r := (h'.shadow r).trans (h.shadow r)
  shadows := h'.shadows.trans h.shadows

lemma Steady.ok (h : Steady d d') (hok : d.Ok) : d'.Ok where
  arena := h.arena
  flag := by rw [h.flag, h.config, hok.flag]
  reasons r hr := by
    rw [h.count]
    exact (h.reasons r hr).elim (hok.reasons r) And.left
  scores := by rw [h.scores, h.count, hok.scores]
  debts hc := by rw [h.debts, h.count, hok.debts (h.config ▸ hc)]
  samples hc := by rw [h.samples, h.count, hok.samples (h.config ▸ hc)]
  regularity hc := by rw [h.regularity, h.count, hok.regularity (h.config ▸ hc)]
  states hc := by rw [h.states, h.count, hok.states (h.config ▸ hc)]
  started hc := by rw [h.started, h.count, hok.started (h.config ▸ hc)]
  shadows r := by rw [h.shadows, h.shadow, hok.shadows]
  nodup := by rw [h.shadows]; exact hok.nodup
  live r hr := by
    rw [h.shadow] at hr
    obtain ⟨⟨h1, h2⟩, h3⟩ := hok.live r hr
    exact ⟨⟨h1.trans_eq h.count.symm, (h.deleted r hr).trans h2⟩, (h.learned r).trans h3⟩
  unreasoned r hr hm := by
    rw [h.shadow] at hr
    obtain hm | ⟨-, hm⟩ := h.reasons r hm
    · exact hok.unreasoned r hr hm
    · exact Bool.false_ne_true (hm.symm.trans hr)

/-! ### The operations keep it -/

lemma Steady.record (h : Steady d d') (stat : ReductionStat) (value : ℕ) :
    Steady d (d'.record stat value) := { h with }

lemma Steady.tally (h : Steady d d') (stat : ReductionStat) (amount : ℕ) :
    Steady d (d'.tally stat amount) := h.record _ _

lemma steady_resetClauseScanDebt {clause : ℕ} (h : d.arena.Ok)
    (he : d.resetClauseScanDebt clause = some d') : Steady d d' := by
  rw [resetClauseScanDebt] at he
  split at he
  · exact Option.some.inj he ▸ Steady.refl h
  · split at he
    · simp at he
    · split at he
      · exact Option.some.inj he ▸ Steady.refl h
      · refine Option.some.inj he ▸ Steady.tally ?_ _ _
        exact { Steady.refl h with debts := List.length_set }

lemma steady_chargeClauseScanDebt {clause literalChecks : ℕ} (h : d.arena.Ok)
    (he : d.chargeClauseScanDebt clause literalChecks = some d') : Steady d d' := by
  rw [chargeClauseScanDebt] at he
  split at he
  · exact Option.some.inj he ▸ Steady.refl h
  · split at he
    · simp at he
    · refine Option.some.inj he ▸ (Steady.tally ?_ _ _).record _ _
      exact { Steady.refl h with debts := List.length_set }

lemma steady_bumpClauseUsage {clause : ℕ} {useKind : ClauseUsageUse} (h : d.arena.Ok)
    (he : d.bumpClauseUsage clause useKind = some d') : Steady d d' := by
  rw [bumpClauseUsage] at he
  split at he
  · exact Option.some.inj he ▸ Steady.refl h
  · split at he
    · simp at he
    · next d₁ he₁ =>
      have h₁ := steady_resetClauseScanDebt h he₁
      split at he
      · simp at he
      · refine Option.some.inj he ▸ h₁.trans (Steady.tally ?_ _ _)
        exact { Steady.refl h₁.arena with scores := List.length_set }

lemma steady_decayClauseUsage {clause : ℕ} (h : d.arena.Ok)
    (he : d.decayClauseUsage clause = some d') : Steady d d' := by
  rw [decayClauseUsage] at he
  split at he
  · exact Option.some.inj he ▸ Steady.refl h
  · split at he
    · simp at he
    · split at he
      · refine Option.some.inj he ▸ Steady.tally ?_ _ _
        exact { Steady.refl h with scores := List.length_set }
      · exact Option.some.inj he ▸ Steady.refl h

lemma steady_decayClauseUsageScores (h : d.arena.Ok)
    (he : d.decayClauseUsageScores = some d') : Steady d d' := by
  have hloop : ∀ (l : List ℕ) (d₁ : ClauseDatabase), d₁.arena.Ok →
      l.foldlM decayClauseUsage d₁ = some d' → Steady d₁ d' := by
    intro l
    induction l with
    | nil => exact fun d₁ h₁ he => Option.some.inj he ▸ Steady.refl h₁
    | cons r l ih =>
      intro d₁ h₁ he
      obtain ⟨d₂, he₂, he⟩ := Option.bind_eq_some_iff.1 he
      have h₂ := steady_decayClauseUsage h₁ he₂
      exact h₂.trans (ih d₂ h₂.arena he)
  exact ((Steady.refl h).tally _ _).trans (hloop _ _ h he)

lemma steady_setClauseDerivationAncestry (h : d.arena.Ok) (clause : ℕ)
    (ancestry : DerivationAncestry) :
    Steady d (d.setClauseDerivationAncestry clause ancestry) :=
  { Steady.refl h with samples := List.length_set, regularity := List.length_set }

lemma steady_swapLiterals {clause i j : ℕ} (h : d.arena.Ok)
    (he : d.swapLiterals clause i j = some d') : Steady d d' := by
  obtain ⟨arena, hswap, rfl⟩ := Option.map_eq_some_iff.1 he
  have hsame := Arena.sameClauses_swapLiterals hswap
  refine { Steady.refl h with
    arena := hsame.ok h, flag := hsame.config, count := hsame.count, learned := ?_, deleted := ?_ }
  · exact fun r => congrArg (fun c => (c r).learned) hsame.clause
  · exact fun r _ => congrArg (fun c => (c r).deleted) hsame.clause

/-- A deleted clause was no shadow. -/
lemma steady_markClauseDeleted {clause : ClauseRef} (h : d.arena.Ok)
    (he : d.markClauseDeleted clause = some d') : Steady d d' := by
  rw [markClauseDeleted] at he
  split at he
  · simp at he
  · next hshadow =>
    obtain ⟨arena, hmark, rfl⟩ := Option.map_eq_some_iff.1 he
    obtain ⟨b, -, hsame⟩ | ⟨i, rfl, hdeleted, hlearned⟩ := Arena.markClauseDeleted_cases hmark
    · refine { Steady.refl h with
        arena := hsame.ok h, flag := hsame.config, count := hsame.count, learned := ?_,
        deleted := ?_ }
      · exact fun r => congrArg (fun c => (c r).learned) hsame.clause
      · exact fun r _ => congrArg (fun c => (c r).deleted) hsame.clause
    · refine { Steady.refl h with
        arena := hdeleted.ok h, flag := hdeleted.config, count := hdeleted.count, learned := ?_,
        deleted := ?_ }
      · intro r
        by_cases hr : r = i
        · exact hr ▸ hlearned
        · exact congrArg LongClause.learned (hdeleted.others r hr)
      · intro r hr
        refine congrArg LongClause.deleted (hdeleted.others r ?_)
        rintro rfl
        exact hshadow hr

lemma steady_addVariables (h : d.arena.Ok) (count : ℕ) : Steady d (d.addVariables count) := by
  refine { Steady.refl h with reasons := fun r hr => .inl ?_ }
  obtain hr | hr := List.mem_append.1 hr
  · exact hr
  · simpa using List.eq_of_mem_replicate hr

lemma steady_setReason {v : ℕ} {reason : Option ClauseRef} (h : d.arena.Ok)
    (he : d.setReason v reason = some d') : Steady d d' := by
  rw [setReason.eq_def] at he
  split at he
  · next clause =>
    split at he
    · next hclause =>
      refine Option.some.inj he ▸ { Steady.refl h with reasons := fun r hr => ?_ }
      obtain hr | hr := List.mem_or_eq_of_mem_set hr
      · exact .inl hr
      · obtain rfl : r = clause := by simpa using hr
        exact .inr ⟨hclause.1, hclause.2.2⟩
    · simp at he
  · next hlong =>
    refine Option.some.inj he ▸ { Steady.refl h with reasons := fun r hr => .inl ?_ }
    exact (List.mem_or_eq_of_mem_set hr).resolve_right fun hr => hlong r hr.symm

/-- The state of one clause is changed. -/
lemma getD_set {states : List ShadowState} {i : ℕ} (hi : i < states.length) (state : ShadowState) :
    (states.set i state).getD r .active = if r = i then state else states.getD r .active := by
  rw [List.getD_eq_getElem?_getD, List.getD_eq_getElem?_getD, List.getElem?_set]
  by_cases h : i = r
  · subst h
    simp [hi]
  · rw [if_neg h, if_neg (Ne.symm h)]

lemma steady_triggerShadowClause (h : d.arena.Ok) (clause : ℕ) (conflict : Bool) :
    Steady d (d.triggerShadowClause clause conflict) := by
  rw [triggerShadowClause]
  split
  · next hstate =>
    obtain ⟨hlt, hobserving⟩ := List.getElem?_eq_some_iff.1 hstate
    refine Steady.tally ?_ _ _
    refine { Steady.refl h with states := List.length_set, shadow := fun r => ?_ }
    rw [isShadow, isShadow]
    dsimp only
    rw [getD_set hlt]
    split
    · next hr =>
      rw [hr, List.getD_eq_getElem?_getD, hstate]
      rfl
    · rfl
  · exact Steady.refl h

lemma ok_new (config : ReductionConfig) : (new config).Ok where
  arena := Arena.ok_new _
  flag := rfl
  reasons r hr := absurd hr (by simp [new])
  scores := rfl
  debts _ := rfl
  samples _ := rfl
  regularity _ := rfl
  states _ := rfl
  started _ := rfl
  shadows r := by simp [new, isShadow]
  nodup := List.nodup_nil
  live r hr := by simp [new, isShadow] at hr
  unreasoned r hr := by simp [new, isShadow] at hr

lemma length_pushWhen {α : Type} {enabled : Bool} {entries : List α} (h : enabled = true)
    (entry : α) : (pushWhen enabled entries entry).length = entries.length + 1 := by
  rw [pushWhen, if_pos h, List.length_append]
  rfl

/-- A new clause is no shadow. -/
lemma getD_pushWhen (enabled : Bool) (states : List ShadowState) (r : ℕ) :
    (pushWhen enabled states .active).getD r .active = states.getD r .active := by
  rw [pushWhen]
  split
  · rw [List.getD_eq_getElem?_getD, List.getD_eq_getElem?_getD, List.getElem?_append]
    split
    · rfl
    · next hr =>
      rw [List.getElem?_singleton, List.getElem?_eq_none (by omega)]
      split <;> rfl
  · rfl

lemma Ok.allocateClause {literals : List Lit} {learned : Bool} {clause : ClauseRef} (h : d.Ok)
    (he : d.allocateClause literals learned = some (clause, d')) : d'.Ok := by
  rw [ClauseDatabase.allocateClause] at he
  split at he
  · simp at he
  · next b arena harena =>
    obtain ⟨-, rfl⟩ := Prod.mk.inj (Option.some.inj he)
    obtain ⟨c, -, hsame⟩ | ⟨hlong, -⟩ := Arena.allocateClause_cases harena
    · refine Steady.ok (d := d) { Steady.refl h.arena with
        arena := hsame.ok h.arena, flag := hsame.config, count := hsame.count, learned := ?_,
        deleted := ?_ } h
      · exact fun r => congrArg (fun c => (c r).learned) hsame.clause
      · exact fun r _ => congrArg (fun c => (c r).deleted) hsame.clause
    · simp at hlong
  · next c arena harena =>
    obtain ⟨-, rfl⟩ := Prod.mk.inj (Option.some.inj he)
    obtain ⟨b, hb, -⟩ | ⟨-, hpushed, -⟩ := Arena.allocateClause_cases harena
    · simp at hb
    have hcount : arena.count = d.arena.count + 1 := hpushed.count
    have hshadow (r : ℕ) : (d.config.shadowClauseReactivation && decide ((pushWhen
        d.config.shadowClauseReactivation d.shadowClauseStates ShadowState.active).getD r .active ≠
          .active)) = d.isShadow r := by rw [getD_pushWhen, isShadow]
    exact {
      arena := hpushed.ok h.arena
      flag := hpushed.config.trans h.flag
      reasons := fun r hr => (h.reasons r hr).trans (by simp [hcount])
      scores := by simp [h.scores, hcount]
      debts := fun hc => by simp [length_pushWhen hc, h.debts hc, hcount]
      samples := fun hc => by simp [length_pushWhen hc, h.samples hc, hcount]
      regularity := fun hc => by simp [length_pushWhen hc, h.regularity hc, hcount]
      states := fun hc => by simp [length_pushWhen hc, h.states hc, hcount]
      started := fun hc => by simp [length_pushWhen hc, h.started hc, hcount]
      shadows := fun r => (h.shadows r).trans (by rw [← hshadow]; rfl)
      nodup := h.nodup
      live := fun r hr => by
        obtain ⟨⟨h1, h2⟩, h3⟩ := h.live r ((hshadow r).symm.trans hr)
        have hsame := hpushed.same r h1
        exact ⟨⟨h1.trans (by simp [hcount]), (congrArg LongClause.deleted hsame).trans h2⟩,
          (congrArg LongClause.learned hsame).trans h3⟩
      unreasoned := fun r hr => h.unreasoned r ((hshadow r).symm.trans hr) }

/-- The second database is the first with one shadow less, which is active or deleted. -/
structure Released (d d' : ClauseDatabase) (clause : ℕ) : Prop where
  config : d'.config = d.config
  arena : d'.arena.Ok
  flag : d'.arena.compactClauseArena = d.arena.compactClauseArena
  count : d'.arena.count = d.arena.count
  others : ∀ r, r ≠ clause → (d'.arena.clause r) = (d.arena.clause r)
  reasons : d'.reasons = d.reasons
  scores : d'.clauseUsageScores.length = d.clauseUsageScores.length
  debts : d'.clauseScanDebt = d.clauseScanDebt
  samples : d'.regularityLongSamples = d.regularityLongSamples
  regularity : d'.regularityLongStates = d.regularityLongStates
  states : d'.shadowClauseStates = d.shadowClauseStates.set clause .active
  started : d'.shadowClauseStartedAt.length = d.shadowClauseStartedAt.length
  shadows : d.shadowClauses.Perm (clause :: d'.shadowClauses)

lemma Released.ok (h : Released d d' r) (hok : d.Ok) : d'.Ok := by
  have hshadow : d.isShadow r = true := (hok.shadows r).1 (h.shadows.mem_iff.2 (by simp))
  have hconfig : d.config.shadowClauseReactivation = true := by
    rw [isShadow, Bool.and_eq_true] at hshadow
    exact hshadow.1
  have hlt : r < d.shadowClauseStates.length :=
    (hok.live r hshadow).1.1.trans_eq (hok.states hconfig).symm
  have hiff (k : ℕ) : d'.isShadow k = true ↔ d.isShadow k = true ∧ k ≠ r := by
    rw [isShadow, isShadow, h.config, h.states, getD_set hlt]
    by_cases hk : k = r <;> simp [hk]
  obtain ⟨hr, hnodup⟩ := List.nodup_cons.1 (h.shadows.nodup_iff.1 hok.nodup)
  exact {
    arena := h.arena
    flag := by rw [h.flag, h.config, hok.flag]
    reasons := fun k hk => by
      rw [h.reasons] at hk
      rw [h.count]
      exact hok.reasons k hk
    scores := by rw [h.scores, h.count, hok.scores]
    debts := fun hc => by rw [h.debts, h.count, hok.debts (h.config ▸ hc)]
    samples := fun hc => by rw [h.samples, h.count, hok.samples (h.config ▸ hc)]
    regularity := fun hc => by rw [h.regularity, h.count, hok.regularity (h.config ▸ hc)]
    states := fun hc => by rw [h.states, List.length_set, h.count, hok.states (h.config ▸ hc)]
    started := fun hc => by rw [h.started, h.count, hok.started (h.config ▸ hc)]
    shadows := fun k => by
      rw [hiff, ← hok.shadows, h.shadows.mem_iff, List.mem_cons]
      constructor
      · exact fun hk => ⟨.inr hk, fun hkr => hr (hkr ▸ hk)⟩
      · exact fun hk => hk.1.resolve_left hk.2
    nodup := hnodup
    live := fun k hk => by
      obtain ⟨hk, hkr⟩ := (hiff k).1 hk
      rw [Arena.Live, h.count, h.others k hkr]
      exact hok.live k hk
    unreasoned := fun k hk => by
      rw [h.reasons]
      exact hok.unreasoned k ((hiff k).1 hk).1 }

/-- The loop over the shadows, with those that stay and those that are still to come. -/
lemma Ok.finalizeShadowClause {retained retained' rest : List ℕ} {clause : ℕ}
    (h : Ok { d with shadowClauses := retained ++ clause :: rest })
    (he : finalizeShadowClause (d, retained) clause = some (d', retained')) :
    Ok { d' with shadowClauses := retained' ++ rest } := by
  have hperm : (retained ++ clause :: rest).Perm (clause :: (retained ++ rest)) :=
    List.perm_middle
  rw [ClauseDatabase.finalizeShadowClause] at he
  dsimp only at he
  split at he
  · split at he
    · obtain ⟨rfl, rfl⟩ := Prod.mk.inj (Option.some.inj he)
      rwa [List.append_assoc, List.singleton_append]
    · split at he
      · split at he
        · obtain ⟨rfl, rfl⟩ := Prod.mk.inj (Option.some.inj he)
          refine Released.ok (r := clause) ?_ h
          exact ⟨rfl, h.arena, rfl, rfl, fun _ _ => rfl, rfl, List.length_set, rfl, rfl, rfl, rfl,
            List.length_set, hperm⟩
        · simp at he
      · split at he
        · simp at he
        · next arena harena =>
          obtain ⟨rfl, rfl⟩ := Prod.mk.inj (Option.some.inj he)
          obtain ⟨b, hb, -⟩ | ⟨i, hi, hdeleted, -⟩ := Arena.markClauseDeleted_cases harena
          · simp at hb
          · obtain rfl := ClauseRef.long.inj hi
            refine Released.ok (r := clause) ?_ h
            exact ⟨rfl, hdeleted.ok h.arena, hdeleted.config, hdeleted.count,
              fun k hk => hdeleted.others k hk, rfl, rfl, rfl, rfl, rfl, rfl, List.length_set,
              hperm⟩
  · simp at he

lemma Ok.finalizeShadowClausesAtRoot (h : d.Ok)
    (he : d.finalizeShadowClausesAtRoot = some d') : d'.Ok := by
  have hloop : ∀ (rest retained : List ℕ) (d₁ : ClauseDatabase) (s : ClauseDatabase × List ℕ),
      Ok { d₁ with shadowClauses := retained ++ rest } →
      rest.foldlM ClauseDatabase.finalizeShadowClause (d₁, retained) = some s →
      Ok { s.1 with shadowClauses := s.2 } := by
    intro rest
    induction rest with
    | nil =>
      intro retained d₁ s h₁ he
      obtain rfl := Option.some.inj he
      rwa [List.append_nil] at h₁
    | cons clause rest ih =>
      intro retained d₁ s h₁ he
      obtain ⟨⟨d₂, retained'⟩, he₂, he⟩ := Option.bind_eq_some_iff.1 he
      exact ih retained' d₂ s (h₁.finalizeShadowClause he₂) he
  rw [ClauseDatabase.finalizeShadowClausesAtRoot] at he
  split at he
  · simp at he
  · next d₁ retained he₁ =>
    obtain rfl := Option.some.inj he
    exact hloop d.shadowClauses [] { d with shadowClauses := [] } (d₁, retained) h he₁

/-! ### The reducers keep it -/

/-- The state of a clause after some have become shadows. -/
lemma getD_foldl_set {states : List ShadowState} (hS : ∀ i ∈ S, i < states.length) (r : ℕ) :
    (S.foldl (fun states i => states.set i .observing) states).getD r .active =
      if r ∈ S then .observing else states.getD r .active := by
  induction S generalizing states with
  | nil => simp
  | cons i S ih =>
    obtain ⟨hi, hS⟩ := List.forall_mem_cons.1 hS
    rw [List.foldl_cons, ih fun j hj => (hS j hj).trans_eq List.length_set.symm, getD_set hi]
    by_cases h₁ : r ∈ S
    · simp [h₁]
    · by_cases h₂ : r = i <;> simp [h₁, h₂]

/-- Only under shadow reactivation are clauses selected. -/
def Selects (sel : ℕ → Bool) (d : ClauseDatabase) : Prop :=
  d.config.shadowClauseReactivation = false → ∀ r, sel r = false

lemma Removes.isShadow (h : Removes sel d d' S) (hok : d.Ok) (hsel : Selects sel d)
    (hS : ∀ r ∈ S, r < d.arena.count) (r : ℕ) :
    d'.isShadow r = (d.isShadow r || decide (r ∈ S) && sel r) := by
  rw [ClauseDatabase.isShadow, ClauseDatabase.isShadow, h.config]
  cases hc : d.config.shadowClauseReactivation with
  | false => simp [hsel hc]
  | true =>
    have hlt : ∀ i ∈ S.filter sel, i < d.shadowClauseStates.length := fun i hi =>
      (hS i (List.mem_filter.1 hi).1).trans_eq (hok.states hc).symm
    rw [h.states, getD_foldl_set hlt, Bool.true_and, Bool.true_and]
    by_cases hr : r ∈ S
    · cases hs : sel r <;> simp [hr, hs]
    · simp [hr]

/-- The removal of clauses that are in use. -/
lemma Ok.removes (hok : d.Ok) (h : Removes sel d d' S) (hsel : Selects sel d)
    (hS : ∀ r ∈ S, r ∈ d.unlocked ∧ d.isShadow r = false) (hnodup : S.Nodup) : d'.Ok := by
  have hshadow := h.isShadow hok hsel fun r hr => (mem_unlocked.1 (hS r hr).1).1
  have hcases (r : ℕ) (hr : d'.isShadow r = true) :
      d.isShadow r = true ∧ r ∉ S ∨ r ∈ S ∧ sel r = true := by
    rw [hshadow, Bool.or_eq_true, Bool.and_eq_true, decide_eq_true_iff] at hr
    refine hr.imp (fun h => ⟨h, fun hm => ?_⟩) id
    exact Bool.false_ne_true ((hS r hm).2.symm.trans h)
  exact {
    arena := h.arena
    flag := by rw [h.flag, h.config, hok.flag]
    reasons := fun r hr => by
      rw [h.reasons] at hr
      rw [h.count]
      exact hok.reasons r hr
    scores := by rw [h.scores, h.count, hok.scores]
    debts := fun hc => by rw [h.debts, h.count, hok.debts (h.config ▸ hc)]
    samples := fun hc => by rw [h.samples, h.count, hok.samples (h.config ▸ hc)]
    regularity := fun hc => by rw [h.regularity, h.count, hok.regularity (h.config ▸ hc)]
    states := fun hc => by rw [h.length_states, h.count, hok.states (h.config ▸ hc)]
    started := fun hc => by rw [h.started, h.count, hok.started (h.config ▸ hc)]
    shadows := fun r => by
      rw [h.shadows, hshadow, List.mem_append, hok.shadows]
      simp
    nodup := by
      rw [h.shadows, List.nodup_append]
      refine ⟨hok.nodup, hnodup.filter _, fun r hr k hk => ?_⟩
      rintro rfl
      have hr' := (hok.shadows r).1 hr
      exact Bool.false_ne_true ((hS r (List.mem_filter.1 hk).1).2.symm.trans hr')
    live := fun r hr => by
      rw [Arena.Live, h.count, h.deleted, h.learned]
      obtain ⟨hr, hm⟩ | ⟨hm, hs⟩ := hcases r hr
      · obtain ⟨⟨h1, h2⟩, h3⟩ := hok.live r hr
        exact ⟨⟨h1, by simp [h2, hm]⟩, h3⟩
      · obtain ⟨h1, h2, h3, -⟩ := mem_unlocked.1 (hS r hm).1
        exact ⟨⟨h1, by simp [h3, hs]⟩, h2⟩
    unreasoned := fun r hr => by
      rw [h.reasons]
      obtain ⟨hr, -⟩ | ⟨hm, -⟩ := hcases r hr
      · exact hok.unreasoned r hr
      · obtain ⟨-, -, -, h4⟩ := mem_unlocked.1 (hS r hm).1
        simpa [isLocked] using h4 }

end Satrap.ClauseDatabase
