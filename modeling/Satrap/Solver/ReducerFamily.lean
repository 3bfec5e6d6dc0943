/-
# The family of reducers

In every reachable database the reducer that the configuration chooses removes as many clauses from
propagation as the plain reducer, and the same ones wherever its own signal is silent.  The plain
reducer knows no shadows: it is compared on the database in which they have been deleted, as on the
database itself it counts them among its candidates and removes some of them once more.
-/
import Satrap.Solver.Upkeep

namespace Satrap.ClauseDatabase

variable {config : ReductionConfig} {P : DeletionPolicy} {d d' c : ClauseDatabase} {r : ℕ}
  {S : List ℕ} {sel : ℕ → Bool}

/-! ### The configured reducer -/

/-- The order of the configured reducer. -/
def order (d : ClauseDatabase) : ℕ → ℕ → Ordering :=
  if d.config.scanDebtClauseManagement then d.compareScanDebt
  else if d.config.nonregularClauseRetention then d.compareNonregular
  else d.compareLength

/-- The candidates of the configured reducer. -/
def candidates (d : ClauseDatabase) : List ℕ :=
  if d.config.scanDebtClauseManagement then d.unlocked else d.pool d.isShadow

/-- The clauses that the configured reducer removes. -/
def choice (P : DeletionPolicy) (d : ClauseDatabase) : List ℕ :=
  chosen P d d.isShadow d.order d.candidates

lemma isShadow_of_config (h : d.config.shadowClauseReactivation = false) :
    d.isShadow = fun _ => false := by
  funext r
  rw [isShadow, h, Bool.false_and]

lemma not_shadow_of_scanDebt (h : d.config.scanDebtClauseManagement = true) :
    d.isShadow = fun _ => false :=
  isShadow_of_config (Bool.eq_false_iff.2 fun h' =>
    Bool.false_ne_true ((d.config.shadow_scanDebt h').symm.trans h))

lemma not_shadow_of_nonregular (h : d.config.nonregularClauseRetention = true) :
    d.isShadow = fun _ => false :=
  isShadow_of_config (Bool.eq_false_iff.2 fun h' =>
    Bool.false_ne_true ((d.config.shadow_nonregular h').symm.trans h))

lemma pool_subset {skip : ℕ → Bool} (hr : r ∈ d.pool skip) : r ∈ d.unlocked := (mem_pool.1 hr).1

/-- Every candidate can be removed. -/
lemma mem_candidates (hr : r ∈ d.candidates) : r ∈ d.unlocked ∧ d.isShadow r = false := by
  rw [candidates] at hr
  split at hr
  · next hc => exact ⟨hr, congrFun (not_shadow_of_scanDebt hc) r⟩
  · exact ⟨pool_subset hr, (mem_pool.1 hr).2.1⟩

lemma nodup_candidates (d : ClauseDatabase) : d.candidates.Nodup := by
  rw [candidates]
  split
  · exact d.nodup_unlocked
  · exact d.nodup_pool _

/-- There are at least as many candidates as the fraction is taken of. -/
lemma length_pool_le_candidates (d : ClauseDatabase) :
    (d.pool d.isShadow).length ≤ d.candidates.length := by
  rw [candidates]
  split
  · exact List.length_filter_le _ _
  · exact le_rfl

/-- The configured reducer returns, and removes its choice. -/
lemma reduceDatabase_spec (P : DeletionPolicy) (h : d.Ok) : ∃ sel d',
    d.reduceDatabase P = some d' ∧ Selects sel d ∧ Removes sel d d' (choice P d) := by
  rw [reduceDatabase, choice, order, candidates]
  cases hs : d.config.scanDebtClauseManagement with
  | true =>
    obtain ⟨d', he, h'⟩ := reduceDatabaseScanDebt_spec P h.toReady (h.debts hs)
    rw [not_shadow_of_scanDebt hs]
    exact ⟨_, d', he, fun _ _ => rfl, h'⟩
  | false =>
    cases hn : d.config.nonregularClauseRetention with
    | true =>
      obtain ⟨d', he, h'⟩ := reduceDatabaseNonregular_spec P h.toReady (h.samples hn)
        (h.regularity hn)
      rw [not_shadow_of_nonregular hn]
      exact ⟨_, d', he, fun _ _ => rfl, h'⟩
    | false =>
      cases hc : d.config.shadowClauseReactivation with
      | true =>
        obtain ⟨sel, d', he, h'⟩ := reduceDatabaseShadowReactivation_spec P h.toReady hc
          (h.states hc) (h.started hc) fun r hr =>
            Bool.eq_false_iff.2 fun hshadow => h.unreasoned r hshadow hr
        exact ⟨sel, d', he, fun hc' => absurd (hc.symm.trans hc') (by simp), h'⟩
      | false =>
        rw [isShadow_of_config hc]
        cases hp : d.config.counterfactualPhaseVoting with
        | true =>
          obtain ⟨d', he, h'⟩ := reduceDatabaseCounterfactualPhase_spec P h.toReady
          exact ⟨_, d', he, fun _ _ => rfl, h'⟩
        | false =>
          obtain ⟨d', he, h'⟩ := reduceDatabaseLbdFree_spec P h.toReady
          exact ⟨_, d', he, fun _ _ => rfl, h'⟩

lemma nodup_choice (P : DeletionPolicy) (d : ClauseDatabase) : (choice P d).Nodup :=
  nodup_chosen d.nodup_candidates

lemma mem_choice (hr : r ∈ choice P d) : r ∈ d.unlocked ∧ d.isShadow r = false :=
  mem_candidates (chosen_subset hr)

/-- The operations and the reducers keep the invariant. -/
lemma Reachable.ok (h : Reachable config d) : d.Ok := by
  induction h with
  | new => exact ok_new config
  | allocate _ he ih => exact ih.allocateClause he
  | swap _ he ih => exact (steady_swapLiterals ih.arena he).ok ih
  | delete _ he ih => exact (steady_markClauseDeleted ih.arena he).ok ih
  | vars _ count ih => exact (steady_addVariables ih.arena count).ok ih
  | assign _ he ih => exact (steady_setReason ih.arena he).ok ih
  | charge _ he ih => exact (steady_chargeClauseScanDebt ih.arena he).ok ih
  | reset _ he ih => exact (steady_resetClauseScanDebt ih.arena he).ok ih
  | bump _ he ih => exact (steady_bumpClauseUsage ih.arena he).ok ih
  | decay _ he ih => exact (steady_decayClauseUsageScores ih.arena he).ok ih
  | ancestry _ clause ancestry ih =>
    exact (steady_setClauseDerivationAncestry ih.arena clause ancestry).ok ih
  | trigger _ clause conflict ih =>
    exact (steady_triggerShadowClause ih.arena clause conflict).ok ih
  | conflict _ ih => exact ((Steady.refl ih.arena).record _ _).ok ih
  | learn _ ih => exact Steady.ok { Steady.refl ih.arena with } ih
  | finalize _ he ih => exact ih.finalizeShadowClausesAtRoot he
  | sample _ ih => exact Steady.ok { Steady.refl ih.arena with } ih
  | reduce _ he ih =>
    obtain ⟨sel, d', he', hsel, h'⟩ := reduceDatabase_spec _ ih
    obtain rfl := Option.some.inj (he.symm.trans he')
    exact ih.removes h' hsel (fun r hr => mem_choice hr) (nodup_choice _ _)

/-! ### Propagation -/

/-- A clause takes part in propagation: it is not deleted and no shadow. -/
def inPropagation (d : ClauseDatabase) (r : ℕ) : Bool :=
  decide (r < d.arena.count) && !(d.arena.clause r).deleted && !d.isShadow r

/-- The clauses that a reducer removes from propagation. -/
def removed (d d' : ClauseDatabase) : Finset ℕ :=
  (Finset.range d.arena.count).filter fun r => d.inPropagation r && !d'.inPropagation r

/-- The database in which the shadows are deleted. -/
def withoutShadows (d : ClauseDatabase) : Option ClauseDatabase :=
  (d.shadowClauses.foldlM (fun (arena : Arena) r => arena.markClauseDeleted (.long r)) d.arena).map
    fun arena => { d with arena := arena }

lemma inPropagation_iff : d.inPropagation r = true ↔
    r < d.arena.count ∧ (d.arena.clause r).deleted = false ∧ d.isShadow r = false := by
  simp [inPropagation, and_assoc]

/-- The clauses of the list are removed from propagation, and no others. -/
lemma Removes.removed_eq (h : Removes sel d d' S) (hS : ∀ r ∈ S, d.inPropagation r = true)
    (hshadow : ∀ r, d'.isShadow r = (d.isShadow r || decide (r ∈ S) && sel r)) :
    removed d d' = S.toFinset := by
  ext r
  rw [removed, Finset.mem_filter, Finset.mem_range, List.mem_toFinset, inPropagation,
    inPropagation, h.count, h.deleted, hshadow]
  by_cases hr : r ∈ S
  · obtain ⟨h1, h2, h3⟩ := inPropagation_iff.1 (hS r hr)
    cases sel r <;> simp [hr, h1, h2, h3]
  · simp [hr]

lemma inPropagation_of_unlocked (hr : r ∈ d.unlocked) (hshadow : d.isShadow r = false) :
    d.inPropagation r = true :=
  inPropagation_iff.2 ⟨(live_of_unlocked hr).1, (live_of_unlocked hr).2, hshadow⟩

/-- Where nothing is selected, the shadows stay the same. -/
lemma Removes.isShadow_eq (h : Removes (fun _ => false) d d' S) : d'.isShadow = d.isShadow := by
  have hnone : S.filter (fun _ => false) = [] := by simp
  funext r
  rw [ClauseDatabase.isShadow, ClauseDatabase.isShadow, h.config, h.states, hnone]
  rfl

lemma exists_withoutShadows (h : d.Ok) : ∃ c, d.withoutShadows = some c ∧
    Removes (fun _ => false) d c d.shadowClauses ∧ c.reduction = d.reduction := by
  obtain ⟨arena, he, h'⟩ := exists_foldlM (fun _ => false) (fun arena => { d with arena := arena })
    (fun (arena : Arena) r => arena.markClauseDeleted (.long r)) (s := d.arena)
    (fun T arena r hs hr _ => exists_markClauseDeleted hs.arena hr rfl) h.arena h.nodup
    fun r hr => (h.live r ((h.shadows r).1 hr)).1
  exact ⟨_, by rw [withoutShadows, he]; rfl, h', rfl⟩

/-- Without the shadows, the candidates are those that are no shadows. -/
lemma pool_withoutShadows (h : d.Ok) (h' : Removes (fun _ => false) d c d.shadowClauses) :
    c.pool (fun _ => false) = d.pool d.isShadow := by
  rw [pool, pool, unlocked, unlocked, List.filter_filter, List.filter_filter, h'.count]
  refine List.filter_congr fun r _ => ?_
  have hdeleted : (c.arena.clause r).deleted =
      ((d.arena.clause r).deleted || d.isShadow r) := by
    rw [h'.deleted, Bool.not_false, Bool.and_true]
    congr 1
    rw [Bool.eq_iff_iff, decide_eq_true_iff, h.shadows]
  rw [hdeleted, h'.learned, isLocked, isLocked, h'.reasons, score, score, h'.scores]
  cases (d.arena.clause r).deleted <;> cases d.isShadow r <;> simp

lemma Removes.ready (h : Removes sel d d' S) (hready : d.Ready) : d'.Ready where
  arena := h.arena
  flag := by rw [h.flag, h.config, hready.flag]
  reasons r hr := by
    rw [h.reasons] at hr
    rw [h.count]
    exact hready.reasons r hr
  scores := by rw [h.scores, h.count, hready.scores]

lemma Removes.compareLength_eq (h : Removes sel d d' S) :
    d'.compareLength = d.compareLength := by
  funext left right
  rw [ClauseDatabase.compareLength, ClauseDatabase.compareLength, h.length, h.length]

/-- What the plain reducer removes from the database without the shadows. -/
lemma baseline_spec (P : DeletionPolicy) (h : d.Ok) : ∃ c d₀, d.withoutShadows = some c ∧
    (∀ r, c.inPropagation r = d.inPropagation r) ∧ c.reduceDatabaseLbdFree P = some d₀ ∧
    removed c d₀ =
      (chosen P d d.isShadow d.compareLength (d.pool d.isShadow)).toFinset := by
  obtain ⟨c, hc, h', hreduction⟩ := exists_withoutShadows h
  obtain ⟨d₀, he, h₀⟩ := reduceDatabaseLbdFree_spec P (h'.ready h.toReady)
  have hpool := pool_withoutShadows h h'
  have hpropagation (r : ℕ) : c.inPropagation r = d.inPropagation r := by
    rw [inPropagation, inPropagation, h'.count, h'.deleted, h'.isShadow_eq]
    by_cases hr : r ∈ d.shadowClauses
    · simp [(h.shadows r).1 hr]
    · simp [hr]
  have hchosen : chosen P c (fun _ => false) c.compareLength (c.pool fun _ => false) =
      chosen P d d.isShadow d.compareLength (d.pool d.isShadow) := by
    rw [chosen, chosen, hpool, hreduction, h'.compareLength_eq]
  rw [hchosen] at h₀
  refine ⟨c, d₀, hc, hpropagation, he, h₀.removed_eq (fun r hr => ?_) fun r => ?_⟩
  · rw [hpropagation]
    obtain ⟨hr, hshadow, -⟩ := mem_pool.1 (chosen_subset hr)
    exact inPropagation_of_unlocked hr hshadow
  · rw [h₀.isShadow_eq, Bool.and_false, Bool.or_false]

/-! ### The agreement -/

/-- What the configured reducer and the plain reducer have in common: how many clauses they remove
from propagation, that these are learned and no reasons, and which ones they are when the signal of
the configured reducer is silent. -/
structure Agree (d c d₀ d₁ : ClauseDatabase) : Prop where
  card : (removed d d₁).card = (removed c d₀).card
  learned : ∀ r, r ∈ removed d d₁ ∨ r ∈ removed c d₀ →
    (d.arena.clause r).learned = true ∧ some (.long r) ∉ d.reasons
  plain : d.config.scanDebtClauseManagement = false → d.config.nonregularClauseRetention = false →
    removed d d₁ = removed c d₀
  scanDebt : d.config.scanDebtClauseManagement = true →
    (∀ r, d.inPropagation r = true → (d.arena.clause r).learned = true → d.debt r = 0) →
    removed d d₁ = removed c d₀
  nonregular : d.config.nonregularClauseRetention = true →
    (∀ r, d.inPropagation r = true → (d.arena.clause r).learned = true → d.nonregular r = false) →
    removed d d₁ = removed c d₀

lemma learned_of_unlocked (hr : r ∈ d.unlocked) :
    (d.arena.clause r).learned = true ∧ some (.long r) ∉ d.reasons := by
  obtain ⟨-, h1, -, h2⟩ := mem_unlocked.1 hr
  exact ⟨h1, by simpa [isLocked] using h2⟩

/-- With all debts zero, the scan-debt reducer makes the choice of the plain reducer. -/
lemma choice_scanDebt (P : DeletionPolicy) (h : d.Ready)
    (hconfig : d.config.scanDebtClauseManagement = true)
    (hdebt : ∀ r ∈ d.unlocked, d.debt r = 0) :
    choice P d = chosen P d d.isShadow d.compareLength (d.pool d.isShadow) := by
  have hpool : d.pool d.isShadow = d.unlocked.filter fun r => decide (d.score r = 0) := by
    rw [not_shadow_of_scanDebt hconfig, pool]
    simp
  have hcount : P.deletionCount d.reduction (d.pool d.isShadow).length ≤
      (d.pool d.isShadow).length := P.deletionCount_le _ (length_pool_le h _)
  rw [choice, chosen, chosen, order, candidates, if_pos hconfig, if_pos hconfig]
  rw [hpool] at hcount ⊢
  exact take_compareScanDebt hdebt hcount

/-- Without nonregular clauses, the reducer that retains them makes the same choice. -/
lemma choice_nonregular (P : DeletionPolicy)
    (hconfig : d.config.nonregularClauseRetention = true)
    (hnonregular : ∀ r ∈ d.unlocked, d.nonregular r = false) :
    choice P d = chosen P d d.isShadow d.compareLength (d.pool d.isShadow) := by
  have hscanDebt := d.config.nonregular_scanDebt hconfig
  rw [choice, chosen, chosen, order, candidates, hscanDebt, hconfig]
  simp only [Bool.false_eq_true, if_false, if_true]
  rw [sort_compareNonregular fun r hr => hnonregular r (pool_subset hr)]

/-- **The reducers agree.**  From every reachable database and for every number of the reduction,
the configured reducer and the plain one return, the latter on the database in which the shadows
are deleted.  They remove the same number of clauses from propagation, all learned and none the
reason of a variable.  The counterfactual and the shadow reducer remove the clauses of the plain
one; so does the scan-debt reducer when all debts are zero, and the reducer that retains nonregular
clauses when there are none. -/
theorem reducers_agree (h : Reachable config d) (P : DeletionPolicy) (reductions : ℕ) :
    ∃ c d₀ d₁, (d.record .reductions reductions).withoutShadows = some c ∧
      c.reduceDatabaseLbdFree P = some d₀ ∧
      (d.record .reductions reductions).reduceDatabase P = some d₁ ∧
      Agree (d.record .reductions reductions) c d₀ d₁ := by
  have hok : (d.record .reductions reductions).Ok :=
    ((Steady.refl h.ok.arena).record _ _).ok h.ok
  generalize d.record .reductions reductions = e at hok ⊢
  obtain ⟨c, d₀, hc, hpropagation, he₀, hremoved₀⟩ := baseline_spec P hok
  obtain ⟨sel, d₁, he₁, hsel, h₁⟩ := reduceDatabase_spec P hok
  have hremoved₁ : removed e d₁ = (choice P e).toFinset := by
    refine h₁.removed_eq (fun r hr => ?_) (h₁.isShadow hok hsel fun r hr => ?_)
    · exact inPropagation_of_unlocked (mem_choice hr).1 (mem_choice hr).2
    · exact (live_of_unlocked (mem_choice hr).1).1
  -- where the choices are the same, so are the removed clauses
  have hsame (hchoice : choice P e = chosen P e e.isShadow e.compareLength (e.pool e.isShadow)) :
      removed e d₁ = removed c d₀ := by rw [hremoved₁, hremoved₀, hchoice]
  refine ⟨c, d₀, d₁, hc, he₀, he₁, ?_, fun r hr => ?_, fun hs hn => hsame ?_,
    fun hs hdebt => hsame ?_, fun hn hnonregular => hsame ?_⟩
  · rw [hremoved₁, hremoved₀, List.toFinset_card_of_nodup (nodup_choice P e),
      List.toFinset_card_of_nodup (nodup_chosen (e.nodup_pool _)),
      length_chosen hok.toReady _ le_rfl]
    exact length_chosen hok.toReady _ e.length_pool_le_candidates
  · rw [hremoved₁, hremoved₀, List.mem_toFinset, List.mem_toFinset] at hr
    obtain hr | hr := hr
    · exact learned_of_unlocked (mem_choice hr).1
    · exact learned_of_unlocked (pool_subset (chosen_subset hr))
  · rw [choice, order, candidates, hs, hn]
    rfl
  · refine choice_scanDebt P hok.toReady hs fun r hr => ?_
    exact hdebt r (inPropagation_of_unlocked hr (congrFun (not_shadow_of_scanDebt hs) r))
      (learned_of_unlocked hr).1
  · refine choice_nonregular P hn fun r hr => ?_
    exact hnonregular r (inPropagation_of_unlocked hr (congrFun (not_shadow_of_nonregular hn) r))
      (learned_of_unlocked hr).1

/-! ### A database with shadows -/

/-- Half of the candidates, in exact arithmetic. -/
def halfPolicy : DeletionPolicy where
  rounding := ⟨id, monotone_id, fun _ _ => rfl⟩
  fraction _ := 1 / 2
  nonneg _ := by norm_num
  lt_one _ := by norm_num

/-- The configuration with shadows. -/
def shadowConfig : ReductionConfig := { shadowClauseReactivation := true }

/-- A learned clause. -/
def learnClause (d : ClauseDatabase) : Option ClauseDatabase :=
  (d.allocateClause [⟨0, true⟩, ⟨1, true⟩, ⟨2, true⟩] true).map Prod.snd

/-- Four learned clauses, of which a reduction makes two shadows. -/
def halved : Option ClauseDatabase := do
  let d ← learnClause (new shadowConfig)
  let d ← d.learnClause
  let d ← d.learnClause
  let d ← d.learnClause
  let d ← d.decayClauseUsageScores
  d.reduceDatabase halfPolicy

lemma Reachable.learnClause (h : Reachable config d) (he : d.learnClause = some d') :
    Reachable config d' := by
  obtain ⟨⟨clause, d₁⟩, hallocate, rfl⟩ := Option.map_eq_some_iff.1 he
  exact h.allocate hallocate

lemma reachable_halved (he : halved = some d) : Reachable shadowConfig d := by
  rw [halved] at he
  obtain ⟨d₁, he₁, he⟩ := Option.bind_eq_some_iff.1 he
  obtain ⟨d₂, he₂, he⟩ := Option.bind_eq_some_iff.1 he
  obtain ⟨d₃, he₃, he⟩ := Option.bind_eq_some_iff.1 he
  obtain ⟨d₄, he₄, he⟩ := Option.bind_eq_some_iff.1 he
  obtain ⟨d₅, he₅, he⟩ := Option.bind_eq_some_iff.1 he
  have h₄ : Reachable shadowConfig d₄ :=
    (((Reachable.new.learnClause he₁).learnClause he₂).learnClause he₃).learnClause he₄
  exact (h₄.decay he₅).reduce he

/-- A database with two shadows among four learned clauses. -/
theorem reducers_agree_halved : ∃ d c d₀ d₁ : ClauseDatabase, d.shadowClauses = [0, 1] ∧
    (d.record .reductions 7).withoutShadows = some c ∧
      c.reduceDatabaseLbdFree halfPolicy = some d₀ ∧
      (d.record .reductions 7).reduceDatabase halfPolicy = some d₁ ∧
      Agree (d.record .reductions 7) c d₀ d₁ := by
  have hshadows : halved.map shadowClauses = some [0, 1] := by decide +kernel
  obtain ⟨d, he, hd⟩ := Option.map_eq_some_iff.1 hshadows
  obtain ⟨c, d₀, d₁, h⟩ := reducers_agree (reachable_halved he) halfPolicy 7
  exact ⟨d, c, d₀, d₁, hd, h⟩

/-- The plain reducer on the database with its shadows removes the two shadows, and none of the
clauses in propagation, where the shadow reducer removes one of these. -/
theorem reducers_differ_halved : ¬ ∀ (P : DeletionPolicy) (config : ReductionConfig)
    (d d₀ d₁ : ClauseDatabase), Reachable config d → d.reduceDatabaseLbdFree P = some d₀ →
      d.reduceDatabase P = some d₁ → (removed d d₁).card = (removed d d₀).card := by
  intro h
  have hrun : ∃ d ∈ halved, ∃ d₀ ∈ d.reduceDatabaseLbdFree halfPolicy,
      ∃ d₁ ∈ d.reduceDatabase halfPolicy, (removed d d₁).card ≠ (removed d d₀).card := by
    decide +kernel
  obtain ⟨d, hd, d₀, hd₀, d₁, hd₁, hne⟩ := hrun
  exact hne (h halfPolicy shadowConfig d d₀ d₁ (reachable_halved hd) hd₀ hd₁)

end Satrap.ClauseDatabase
