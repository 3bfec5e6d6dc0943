/-
# What the reducers remove

Every reducer removes the first clauses of its own order, as many as a fraction of the unlocked
learned clauses with usage score zero.  The orders of the plain, the counterfactual and the shadow
reducer are the same, and those of the other two start with the same clauses when their own signal
is silent.  Only a clause that is already a shadow makes a difference: the shadow reducer passes it
over, as one that has been removed.
-/
import Satrap.Logic.Selection
import Satrap.Solver.Reducers
import Mathlib.Data.Finset.Card
import Mathlib.Data.Finset.Filter
import Mathlib.Data.Finset.Range

namespace Satrap

open Logic

/-! ### The number of removed clauses -/

/-- No more clauses are removed than there are candidates. -/
lemma DeletionPolicy.deletionCount_le (P : DeletionPolicy) (reduction : ℕ) {length : ℕ}
    (hlen : length ≤ 2 ^ 53) : P.deletionCount reduction length ≤ length := by
  have hexact := P.rounding.exact length hlen
  have hle : P.rounding.round (P.fraction reduction * P.rounding.round length) ≤ length := by
    calc P.rounding.round (P.fraction reduction * P.rounding.round length)
        ≤ P.rounding.round length := by
          refine P.rounding.mono ?_
          rw [hexact]
          exact mul_le_of_le_one_left (Nat.cast_nonneg length) (P.lt_one reduction).le
      _ = length := hexact
  exact (Nat.floor_le_floor hle).trans_eq (Nat.floor_natCast length)

/-! ### The orders -/

section Orders

variable {d : ClauseDatabase} {left right : ℕ}

/-- Comparisons of numbers, one after another. -/
lemma compare_then_ne_gt (a b : ℕ) (o : Ordering) :
    (compare a b).then o ≠ .gt ↔ a < b ∨ a = b ∧ o ≠ .gt := by
  rcases Nat.lt_trichotomy a b with h | h | h
  · simp [Nat.compare_eq_lt.2 h, h]
  · simp [h]
  · have h1 : ¬ a < b := by omega
    have h2 : a ≠ b := by omega
    simp [Nat.compare_eq_gt.2 h, h1, h2]

lemma compare_ne_gt (a b : ℕ) : compare a b ≠ .gt ↔ a ≤ b := by
  rw [ne_eq, Nat.compare_eq_gt, not_lt]

lemma compareLength_ne_gt : d.compareLength left right ≠ .gt ↔
    d.clauseLen right < d.clauseLen left ∨
      d.clauseLen right = d.clauseLen left ∧ left ≤ right := by
  rw [ClauseDatabase.compareLength, compare_then_ne_gt, compare_ne_gt]

lemma compareScanDebt_ne_gt : d.compareScanDebt left right ≠ .gt ↔
    d.debt right < d.debt left ∨ d.debt right = d.debt left ∧
      (d.score left < d.score right ∨ d.score left = d.score right ∧
        d.compareLength left right ≠ .gt) := by
  rw [ClauseDatabase.compareScanDebt, compare_then_ne_gt, compare_then_ne_gt]
  rfl

instance : Std.Total fun left right => d.compareScanDebt left right ≠ .gt where
  total a b := by
    simp only [compareScanDebt_ne_gt, compareLength_ne_gt]
    omega

instance : IsTrans ℕ fun left right => d.compareScanDebt left right ≠ .gt where
  trans a b c := by
    simp only [compareScanDebt_ne_gt, compareLength_ne_gt]
    omega

instance : Std.Antisymm fun left right => d.compareScanDebt left right ≠ .gt where
  antisymm a b := by
    simp only [compareScanDebt_ne_gt, compareLength_ne_gt]
    omega

lemma sortUnstableBy_perm (compare : ℕ → ℕ → Ordering) (l : List ℕ) :
    (sortUnstableBy compare l).Perm l := List.perm_insertionSort _ l

lemma mem_sortUnstableBy {compare : ℕ → ℕ → Ordering} {l : List ℕ} {r : ℕ} :
    r ∈ sortUnstableBy compare l ↔ r ∈ l := (sortUnstableBy_perm compare l).mem_iff

lemma length_sortUnstableBy (compare : ℕ → ℕ → Ordering) (l : List ℕ) :
    (sortUnstableBy compare l).length = l.length := (sortUnstableBy_perm compare l).length_eq

/-- With all debts zero, the clauses with score zero come first, in the order of the plain
reducer. -/
lemma take_compareScanDebt {l : List ℕ} (hdebt : ∀ r ∈ l, d.debt r = 0) {k : ℕ}
    (hk : k ≤ (l.filter fun r => decide (d.score r = 0)).length) :
    (sortUnstableBy d.compareScanDebt l).take k =
      (sortUnstableBy d.compareLength (l.filter fun r => decide (d.score r = 0))).take k := by
  rw [sortUnstableBy, take_insertionSort (fun r => decide (d.score r = 0)) ?_ hk]
  · congr 1
    refine insertionSort_congr fun a ha b hb => ?_
    have ha' := of_decide_eq_true (List.mem_filter.1 ha).2
    have hb' := of_decide_eq_true (List.mem_filter.1 hb).2
    have hda := hdebt a (List.mem_filter.1 ha).1
    have hdb := hdebt b (List.mem_filter.1 hb).1
    rw [compareScanDebt_ne_gt]
    simp only [ha', hb', hda, hdb, lt_irrefl, false_or, true_and]
  · intro a ha b hb hpa hpb
    have hpa := of_decide_eq_true hpa
    have hpb := of_decide_eq_false hpb
    rw [compareScanDebt_ne_gt, hdebt a ha, hdebt b hb]
    exact .inr ⟨rfl, .inl (by omega)⟩

/-- Without nonregular clauses, the order is that of the plain reducer. -/
lemma sort_compareNonregular {l : List ℕ} (h : ∀ r ∈ l, d.nonregular r = false) :
    sortUnstableBy d.compareNonregular l = sortUnstableBy d.compareLength l := by
  refine insertionSort_congr fun a ha b hb => ?_
  rw [ClauseDatabase.compareNonregular, h a ha, h b hb]
  rfl

end Orders

namespace ClauseDatabase

variable {P : DeletionPolicy} {d d' d'' : ClauseDatabase} {r : ℕ} {S T : List ℕ} {sel : ℕ → Bool}

/-! ### Statistics -/

section Statistics

variable (d : ClauseDatabase) (stat : ReductionStat) (amount : ℕ)

@[simp] lemma tally_arena : (d.tally stat amount).arena = d.arena := rfl

@[simp] lemma tally_scores : (d.tally stat amount).clauseUsageScores = d.clauseUsageScores := rfl

@[simp] lemma tally_compareLength : (d.tally stat amount).compareLength = d.compareLength := rfl

@[simp] lemma tally_compareScanDebt :
    (d.tally stat amount).compareScanDebt = d.compareScanDebt := rfl

@[simp] lemma tally_compareNonregular :
    (d.tally stat amount).compareNonregular = d.compareNonregular := rfl

@[simp] lemma tally_nonregular : (d.tally stat amount).nonregular = d.nonregular := rfl

/-- Only the reducers count reductions. -/
lemma tally_reduction (h : stat ≠ .reductions) :
    (d.tally stat amount).reduction = d.reduction := by
  exact congrArg (saturatingAdd · 1) (Function.update_of_ne (Ne.symm h) _ _)

end Statistics

/-! ### The pools -/

/-- The clause is the reason of a variable. -/
def isLocked (d : ClauseDatabase) (r : ℕ) : Bool := decide (some (.long r) ∈ d.reasons)

/-- The learned clauses that are neither deleted nor locked. -/
def unlocked (d : ClauseDatabase) : List ℕ :=
  (List.range d.arena.count).filter fun r =>
    (d.arena.clause r).learned && !(d.arena.clause r).deleted && !d.isLocked r

/-- Those of them with usage score zero, without what is skipped. -/
def pool (d : ClauseDatabase) (skip : ℕ → Bool) : List ℕ :=
  d.unlocked.filter fun r => !skip r && decide (d.score r = 0)

/-- The arena and what every reducer reads beside it are in order. -/
structure Ready (d : ClauseDatabase) : Prop where
  arena : d.arena.Ok
  flag : d.arena.compactClauseArena = d.config.compactClauseArena
  reasons : ∀ r, some (.long r) ∈ d.reasons → r < d.arena.count
  scores : d.clauseUsageScores.length = d.arena.count

lemma mem_unlocked : r ∈ d.unlocked ↔ r < d.arena.count ∧ (d.arena.clause r).learned = true ∧
    (d.arena.clause r).deleted = false ∧ d.isLocked r = false := by
  simp [unlocked, and_assoc]

lemma mem_pool {skip : ℕ → Bool} :
    r ∈ d.pool skip ↔ r ∈ d.unlocked ∧ skip r = false ∧ d.score r = 0 := by
  simp [pool]

lemma nodup_unlocked (d : ClauseDatabase) : d.unlocked.Nodup := List.nodup_range.filter _

lemma nodup_pool (d : ClauseDatabase) (skip : ℕ → Bool) : (d.pool skip).Nodup :=
  d.nodup_unlocked.filter _

lemma length_pool_le (h : d.Ready) (skip : ℕ → Bool) : (d.pool skip).length ≤ 2 ^ 53 := by
  obtain ⟨held, hl, -⟩ := h.arena
  have h1 := (List.length_filter_le (fun r => !skip r && decide (d.score r = 0)) d.unlocked)
  have h2 : d.unlocked.length ≤ d.arena.count := by
    simpa [unlocked] using List.length_filter_le (fun r => (d.arena.clause r).learned &&
      !(d.arena.clause r).deleted && !d.isLocked r) (List.range d.arena.count)
  have h3 := hl.count
  rw [pool]
  omega

lemma setFlag_spec (flags : List Bool) {i : ℕ} (hi : i < flags.length) :
    ∃ flags', setFlag flags i = some flags' ∧ flags'.length = flags.length ∧
      ∀ r < flags.length, flags'[r]? = if r = i then some true else flags[r]? := by
  refine ⟨_, if_pos hi, List.length_set, fun r hr => ?_⟩
  rw [List.getElem?_set]
  by_cases h : i = r
  · subst h
    simp [hr]
  · rw [if_neg h, if_neg (Ne.symm h)]

lemma setFlags_spec (S : List ℕ) (flags : List Bool) (hS : ∀ i ∈ S, i < flags.length) :
    ∃ flags', setFlags flags S = some flags' ∧ flags'.length = flags.length ∧
      ∀ r < flags.length, flags'[r]? = if r ∈ S then some true else flags[r]? := by
  induction S generalizing flags with
  | nil => exact ⟨flags, rfl, rfl, fun r _ => by simp⟩
  | cons i S ih =>
    obtain ⟨flags₁, he₁, hlen₁, h₁⟩ := setFlag_spec flags (hS i (by simp))
    obtain ⟨flags₂, he₂, hlen₂, h₂⟩ := ih flags₁ fun j hj => by
      rw [hlen₁]
      exact hS j (by simp [hj])
    refine ⟨flags₂, ?_, hlen₂.trans hlen₁, fun r hr => ?_⟩
    · rw [setFlags, List.foldlM_cons, he₁]
      exact he₂
    · rw [h₂ r (hlen₁ ▸ hr), h₁ r hr]
      by_cases hri : r = i <;> simp [hri]

/-- The flags of a set of clauses. -/
lemma setFlags_replicate {n : ℕ} (hS : ∀ i ∈ S, i < n) :
    ∃ flags, setFlags (List.replicate n false) S = some flags ∧ flags.length = n ∧
      ∀ r < n, flags[r]? = some (decide (r ∈ S)) := by
  obtain ⟨flags, he, hlen, h⟩ := setFlags_spec S (List.replicate n false) (by simpa using hS)
  rw [List.length_replicate] at hlen
  refine ⟨flags, he, hlen, fun r hr => ?_⟩
  rw [h r (by simpa using hr), List.getElem?_replicate, if_pos hr]
  by_cases hr' : r ∈ S <;> simp [hr']

/-- The flags of the locked clauses. -/
lemma lockedClauses_spec (h : d.Ready) : ∃ locked, d.lockedClauses = some locked ∧
    ∀ r < d.arena.count, locked[r]? = some (d.isLocked r) := by
  have hloop : ∀ (reasons : List (Option ClauseRef)) (flags : List Bool),
      flags.length = d.arena.count → (∀ r, some (.long r) ∈ reasons → r < d.arena.count) →
      ∃ locked, reasons.foldlM lockReason flags = some locked ∧
        ∀ r < d.arena.count, locked[r]? =
          if some (.long r) ∈ reasons then some true else flags[r]? := by
    intro reasons
    induction reasons with
    | nil => exact fun flags _ _ => ⟨flags, rfl, fun r _ => by simp⟩
    | cons reason reasons ih =>
      intro flags hlen hbound
      have hrest : ∀ r, some (.long r) ∈ reasons → r < d.arena.count :=
        fun r hr => hbound r (by simp [hr])
      have hother (hne : ∀ clause, reason ≠ some (.long clause)) (r : ℕ) :
          (some (.long r) ∈ reason :: reasons) ↔ some (.long r) ∈ reasons := by
        rw [List.mem_cons, or_iff_right fun h => hne r h.symm]
      rw [List.foldlM_cons]
      match reason, hbound, hother with
      | none, _, hother =>
        obtain ⟨locked, he, hl⟩ := ih flags hlen hrest
        exact ⟨locked, he, fun r hr => by simp only [hl r hr, hother (by simp) r]⟩
      | some (.binary b), _, hother =>
        obtain ⟨locked, he, hl⟩ := ih flags hlen hrest
        exact ⟨locked, he, fun r hr => by simp only [hl r hr, hother (by simp) r]⟩
      | some (.long clause), hbound, _ =>
        obtain ⟨flags₁, he₁, hlen₁, h₁⟩ := setFlag_spec flags
          (hlen.symm ▸ hbound clause (by simp))
        obtain ⟨locked, he, hl⟩ := ih flags₁ (hlen₁.trans hlen) hrest
        refine ⟨locked, by rw [lockReason, he₁]; exact he, fun r hr => ?_⟩
        rw [hl r hr, h₁ r (hlen ▸ hr)]
        by_cases hrc : r = clause <;> simp [hrc]
  obtain ⟨locked, he, hl⟩ := hloop d.reasons (List.replicate d.arena.count false) (by simp)
    h.reasons
  refine ⟨locked, he, fun r hr => ?_⟩
  rw [hl r hr, List.getElem?_replicate, if_pos hr, isLocked]
  by_cases hm : some (.long r) ∈ d.reasons <;> simp [hm]

/-- The loop visits the unlocked learned clauses one after another. -/
lemma visitClauses_spec {σ : Type} {locked : List Bool}
    (hlocked : ∀ r < d.arena.count, locked[r]? = some (d.isLocked r)) {visit : σ → ℕ → Option σ}
    {f : σ → ℕ → σ} (hvisit : ∀ s, ∀ r ∈ d.unlocked, visit s r = some (f s r)) (s : σ) :
    d.visitClauses locked visit s = some (d.unlocked.foldl f s) := by
  have hrange : ∀ r ∈ List.range d.arena.count, r < d.arena.count := fun r => List.mem_range.1
  -- the induction is on what is left of the range
  rw [visitClauses, unlocked]
  generalize List.range d.arena.count = l at hrange
  induction l generalizing s with
  | nil => rfl
  | cons r l ih =>
    obtain ⟨hr, hl⟩ := List.forall_mem_cons.1 hrange
    replace ih := fun s => ih s hl
    rw [List.foldlM_cons]
    cases h1 : (d.arena.clause r).learned with
    | false => simpa [h1] using ih s
    | true =>
      cases h2 : (d.arena.clause r).deleted with
      | true => simpa [h1, h2] using ih s
      | false =>
        cases h3 : d.isLocked r with
        | true => simpa [h1, h2, h3, hlocked r hr] using ih s
        | false =>
          have hv := hvisit s r (mem_unlocked.2 ⟨hr, h1, h2, h3⟩)
          simpa [h1, h2, h3, hlocked r hr, hv] using ih (f s r)

lemma getElem?_scores (h : d.Ready) (hr : r < d.arena.count) :
    d.clauseUsageScores[r]? = some (d.score r) := by
  rw [score, List.getD_eq_getElem?_getD]
  rw [← h.scores] at hr
  rw [List.getElem?_eq_getElem hr]
  rfl

/-! ### What a removal leaves alone -/

/-- The second database is the first with the clauses of a list removed: those that are selected
have become shadows, the others are deleted. -/
structure Removes (sel : ℕ → Bool) (d d' : ClauseDatabase) (S : List ℕ) : Prop where
  config : d'.config = d.config
  reasons : d'.reasons = d.reasons
  scores : d'.clauseUsageScores = d.clauseUsageScores
  debts : d'.clauseScanDebt = d.clauseScanDebt
  samples : d'.regularityLongSamples = d.regularityLongSamples
  regularity : d'.regularityLongStates = d.regularityLongStates
  arena : d'.arena.Ok
  flag : d'.arena.compactClauseArena = d.arena.compactClauseArena
  count : d'.arena.count = d.arena.count
  learned : ∀ r, (d'.arena.clause r).learned = (d.arena.clause r).learned
  length : ∀ r, d'.clauseLen r = d.clauseLen r
  deleted : ∀ r, (d'.arena.clause r).deleted =
    ((d.arena.clause r).deleted || decide (r ∈ S) && !sel r)
  states : d'.shadowClauseStates =
    (S.filter sel).foldl (fun states r => states.set r .observing) d.shadowClauseStates
  started : d'.shadowClauseStartedAt.length = d.shadowClauseStartedAt.length
  shadows : d'.shadowClauses = d.shadowClauses ++ S.filter sel

/-- The second database is the first but for statistics, samples and where the clauses lie. -/
structure Alike (d d' : ClauseDatabase) : Prop where
  config : d'.config = d.config
  reasons : d'.reasons = d.reasons
  scores : d'.clauseUsageScores = d.clauseUsageScores
  debts : d'.clauseScanDebt = d.clauseScanDebt
  samples : d'.regularityLongSamples = d.regularityLongSamples
  regularity : d'.regularityLongStates = d.regularityLongStates
  arena : d'.arena.Ok
  flag : d'.arena.compactClauseArena = d.arena.compactClauseArena
  count : d'.arena.count = d.arena.count
  learned : ∀ r, (d'.arena.clause r).learned = (d.arena.clause r).learned
  length : ∀ r, d'.clauseLen r = d.clauseLen r
  deleted : ∀ r, (d'.arena.clause r).deleted = (d.arena.clause r).deleted
  states : d'.shadowClauseStates = d.shadowClauseStates
  started : d'.shadowClauseStartedAt = d.shadowClauseStartedAt
  shadows : d'.shadowClauses = d.shadowClauses

lemma Removes.refl (sel : ℕ → Bool) (h : d.arena.Ok) : Removes sel d d [] :=
  ⟨rfl, rfl, rfl, rfl, rfl, rfl, h, rfl, rfl, fun _ => rfl, fun _ => rfl, fun _ => by simp, rfl,
    rfl, by simp⟩

lemma Removes.trans (h : Removes sel d d' S) (h' : Removes sel d' d'' T) :
    Removes sel d d'' (S ++ T) := by
  refine ⟨h'.config.trans h.config, h'.reasons.trans h.reasons, h'.scores.trans h.scores,
    h'.debts.trans h.debts, h'.samples.trans h.samples, h'.regularity.trans h.regularity, h'.arena,
    h'.flag.trans h.flag, h'.count.trans h.count, fun r => (h'.learned r).trans (h.learned r),
    fun r => (h'.length r).trans (h.length r), fun r => ?_, ?_, h'.started.trans h.started, ?_⟩
  · rw [h'.deleted, h.deleted, Bool.or_assoc, ← Bool.and_or_distrib_right]
    simp
  · rw [h'.states, h.states, List.filter_append, List.foldl_append]
  · rw [h'.shadows, h.shadows, List.filter_append, List.append_assoc]

lemma Removes.alike (h : Removes sel d d' S) (h' : Alike d' d'') : Removes sel d d'' S := by
  refine ⟨h'.config.trans h.config, h'.reasons.trans h.reasons, h'.scores.trans h.scores,
    h'.debts.trans h.debts, h'.samples.trans h.samples, h'.regularity.trans h.regularity, h'.arena,
    h'.flag.trans h.flag, h'.count.trans h.count, fun r => (h'.learned r).trans (h.learned r),
    fun r => (h'.length r).trans (h.length r), fun r => ?_, h'.states.trans h.states, ?_,
    h'.shadows.trans h.shadows⟩
  · rw [h'.deleted, h.deleted]
  · rw [h'.started, h.started]

lemma Alike.refl (h : d.arena.Ok) : Alike d d :=
  ⟨rfl, rfl, rfl, rfl, rfl, rfl, h, rfl, rfl, fun _ => rfl, fun _ => rfl, fun _ => rfl, rfl, rfl,
    rfl⟩

lemma Alike.compareLength (h : Alike d d') : d'.compareLength = d.compareLength := by
  funext left right
  rw [ClauseDatabase.compareLength, ClauseDatabase.compareLength, h.length, h.length]

lemma Alike.removes (h : Alike d d') (h' : Removes sel d' d'' S) : Removes sel d d'' S := by
  refine ⟨h'.config.trans h.config, h'.reasons.trans h.reasons, h'.scores.trans h.scores,
    h'.debts.trans h.debts, h'.samples.trans h.samples, h'.regularity.trans h.regularity, h'.arena,
    h'.flag.trans h.flag, h'.count.trans h.count, fun r => (h'.learned r).trans (h.learned r),
    fun r => (h'.length r).trans (h.length r), fun r => ?_, ?_, ?_, ?_⟩
  · rw [h'.deleted, h.deleted]
  · rw [h'.states, h.states]
  · rw [h'.started, h.started]
  · rw [h'.shadows, h.shadows]

lemma Alike.live (h : Alike d d') : d'.arena.Live r ↔ d.arena.Live r := by
  rw [Arena.Live, Arena.Live, h.count, h.deleted]

lemma Alike.record (h : Alike d d') (stat : ReductionStat) (value : ℕ) :
    Alike d (d'.record stat value) :=
  ⟨h.config, h.reasons, h.scores, h.debts, h.samples, h.regularity, h.arena, h.flag, h.count,
    h.learned, h.length, h.deleted, h.states, h.started, h.shadows⟩

lemma Alike.tally (h : Alike d d') (stat : ReductionStat) (amount : ℕ) :
    Alike d (d'.tally stat amount) := h.record stat _

lemma Alike.sampled (h : Alike d d') (samples : List CounterfactualPhaseSample) :
    Alike d { d' with counterfactualPhaseSamples := samples } :=
  ⟨h.config, h.reasons, h.scores, h.debts, h.samples, h.regularity, h.arena, h.flag, h.count,
    h.learned, h.length, h.deleted, h.states, h.started, h.shadows⟩

lemma Alike.activated (h : Alike d d') (count : ℕ) :
    Alike d { d' with activeLearnedClauses := count } :=
  ⟨h.config, h.reasons, h.scores, h.debts, h.samples, h.regularity, h.arena, h.flag, h.count,
    h.learned, h.length, h.deleted, h.states, h.started, h.shadows⟩

lemma alike_offer (h : d.arena.Ok) (clause reduction : ℕ) :
    Alike d (d.offerCounterfactualPhaseSample clause reduction) := by
  have h₁ := (Alike.refl h).tally .counterfactualPhaseDeletionOffers 1
  rw [offerCounterfactualPhaseSample]
  dsimp only
  refine Alike.record ?_ _ _
  split
  · exact (h₁.sampled _).tally _ _
  · split
    · split
      · exact ((h₁.sampled _).tally _ _).tally _ _
      · exact h₁
    · exact h₁

/-- The compaction of the arena leaves the clauses alone. -/
lemma exists_compactAfter (h : d.arena.Ok) : ∃ d', d.compactAfter = some d' ∧ Alike d d' := by
  rw [compactAfter]
  cases hc : d.config.compactClauseArena with
  | false =>
    exact ⟨d, rfl, rfl, rfl, rfl, rfl, rfl, rfl, h, rfl, rfl, fun _ => rfl, fun _ => rfl,
      fun _ => rfl, rfl, rfl, rfl⟩
  | true =>
    obtain ⟨arena, he, hcompacted, hok⟩ := h.compact
    refine ⟨{ d with arena := arena }, by rw [if_pos rfl, he]; rfl, rfl, rfl, rfl, rfl, rfl, rfl,
      hok, hcompacted.config, hcompacted.count, hcompacted.learned, fun r => ?_,
      hcompacted.deleted, rfl, rfl, rfl⟩
    exact congrFun hcompacted.size r

/-- The candidates of the reducers that look at score zero only. -/
lemma zeroCandidates_spec (h : d.Ready) {locked : List Bool}
    (hlocked : ∀ r < d.arena.count, locked[r]? = some (d.isLocked r)) (skip : ℕ → Option Bool)
    (t : ℕ → Bool) (hskip : ∀ r < d.arena.count, skip r = some (t r)) :
    ∃ d₁, d.zeroCandidates locked skip = some (d.pool t, d₁) ∧ Alike d d₁ ∧
      d₁.reduction = d.reduction := by
  let f : List ℕ × ℕ → ℕ → List ℕ × ℕ := fun s r =>
    if t r then s else if 0 < d.score r then (s.1, saturatingAdd s.2 1) else (s.1 ++ [r], s.2)
  have hvisit := visitClauses_spec (f := f) hlocked
    (fun (s : List ℕ × ℕ) r hr => show d.visitZero skip s r = some (f s r) by
      have hr := (mem_unlocked.1 hr).1
      simp only [visitZero, hskip r hr, getElem?_scores h hr, f]
      cases t r with
      | true => rfl
      | false =>
        by_cases hs : 0 < d.score r
        · simp [hs]
        · simp [hs]) ([], d.stats .clauseUsagePositiveProtections)
  have hfirst : ∀ (l : List ℕ) (s : List ℕ × ℕ), (l.foldl f s).1 =
      s.1 ++ l.filter fun r => !t r && decide (d.score r = 0) := by
    intro l
    induction l with
    | nil => simp
    | cons r l ih =>
      intro s
      rw [List.foldl_cons, ih, List.filter_cons]
      cases ht : t r with
      | true => simp [f, ht]
      | false =>
        by_cases hs : 0 < d.score r
        · have hs' : d.score r ≠ 0 := by omega
          simp [f, ht, hs, hs']
        · have hs' : d.score r = 0 := by omega
          simp [f, ht, hs']
  rw [zeroCandidates, hvisit]
  have hpool := hfirst d.unlocked ([], d.stats .clauseUsagePositiveProtections)
  rw [List.nil_append] at hpool
  exact ⟨_, congrArg some (Prod.ext hpool rfl),
    ((Alike.refl h.arena).record _ _).tally _ _, rfl⟩

/-- A live clause is marked as deleted. -/
lemma exists_markClauseDeleted (h : d.arena.Ok) (hr : d.arena.Live r) (hsel : sel r = false) :
    ∃ a', d.arena.markClauseDeleted (.long r) = some a' ∧
      Removes sel d { d with arena := a' } [r] := by
  obtain ⟨a', he, hok, hflag, hcount, hclause⟩ := h.exists_delete hr
  have hnone : [r].filter sel = [] := by simp [hsel]
  refine ⟨a', he, rfl, rfl, rfl, rfl, rfl, rfl, hok, hflag, hcount, fun k => ?_, fun k => ?_,
    fun k => ?_, by rw [hnone]; rfl, rfl, by rw [hnone, List.append_nil]⟩
  · dsimp only
    rw [hclause, Function.update_apply]
    split
    · next hk => rw [hk]
    · rfl
  · show (a'.clause k).length = (d.arena.clause k).length
    rw [hclause, Function.update_apply]
    split
    · next hk => rw [hk]
    · rfl
  · dsimp only
    rw [hclause, Function.update_apply]
    split
    · next hk => simp [hk, hsel]
    · next hk => simp [hk]

/-- A live clause is deleted. -/
lemma exists_deleteClause (h : d.arena.Ok) (hr : d.arena.Live r) (hsel : sel r = false) :
    ∃ d', d.deleteClause r = some d' ∧ Removes sel d d' [r] := by
  obtain ⟨a', he, h'⟩ := exists_markClauseDeleted h hr hsel
  refine ⟨_, by rw [deleteClause, he], h'.alike ?_⟩
  exact ((Alike.refl h'.arena).tally .deletedClauses 1).activated _

/-- A selected clause becomes a shadow. -/
lemma exists_beginShadowObservation (h : d.arena.Ok) (hsel : sel r = true)
    (hr : r < d.shadowClauseStates.length) (hr' : r < d.shadowClauseStartedAt.length) :
    ∃ d', d.beginShadowObservation r = some d' ∧ Removes sel d d' [r] := by
  have hone : [r].filter sel = [r] := by simp [hsel]
  refine ⟨_, if_pos ⟨hr, hr'⟩, rfl, rfl, rfl, rfl, rfl, rfl, h, rfl, rfl, fun _ => rfl,
    fun _ => rfl, fun k => ?_, by rw [hone]; rfl, List.length_set, by rw [hone]; rfl⟩
  by_cases hk : k = r
  · simp [hk, hsel, ClauseDatabase.tally, ClauseDatabase.record]
  · simp [hk, ClauseDatabase.tally, ClauseDatabase.record]

/-- A loop that removes one clause after another removes them all. -/
lemma exists_foldlM {σ : Type} (sel : ℕ → Bool) (get : σ → ClauseDatabase)
    (step : σ → ℕ → Option σ) {s : σ}
    (hstep : ∀ T s' r, Removes sel (get s) (get s') T → (get s').arena.Live r → r ∈ S →
      ∃ s'', step s' r = some s'' ∧ Removes sel (get s') (get s'') [r])
    (h : (get s).arena.Ok) (hnodup : S.Nodup) (hlive : ∀ r ∈ S, (get s).arena.Live r) :
    ∃ s', S.foldlM step s = some s' ∧ Removes sel (get s) (get s') S := by
  have hloop : ∀ (l T : List ℕ) (s' : σ), T ++ l = S → Removes sel (get s) (get s') T →
      ∃ s'', l.foldlM step s' = some s'' ∧ Removes sel (get s) (get s'') (T ++ l) := by
    intro l
    induction l with
    | nil => exact fun T s' _ h' => ⟨s', rfl, by rwa [List.append_nil]⟩
    | cons r l ih =>
      intro T s' hTl h'
      have hrS : r ∈ S := hTl ▸ List.mem_append_right T (List.mem_cons_self ..)
      have hrT : r ∉ T := by
        rw [← hTl, List.nodup_append] at hnodup
        exact fun hm => hnodup.2.2 r hm r (by simp) rfl
      have hlive' : (get s').arena.Live r := by
        obtain ⟨h1, h2⟩ := hlive r hrS
        exact ⟨h'.count ▸ h1, by rw [h'.deleted, h2]; simp [hrT]⟩
      obtain ⟨s₁, he, h₁⟩ := hstep T s' r h' hlive' hrS
      obtain ⟨s₂, he₂, h₂⟩ := ih (T ++ [r]) s₁ (by rw [← hTl]; simp) (h'.trans h₁)
      refine ⟨s₂, by rw [List.foldlM_cons, he]; exact he₂, ?_⟩
      rwa [List.append_assoc, List.singleton_append] at h₂
  obtain ⟨s', he, h'⟩ := hloop S [] s rfl (Removes.refl sel h)
  exact ⟨s', he, h'⟩

/-! ### The reducers -/

/-- The first clauses in an order, as many as the fraction of the candidates. -/
def chosen (P : DeletionPolicy) (d : ClauseDatabase) (skip : ℕ → Bool)
    (compare : ℕ → ℕ → Ordering) (l : List ℕ) : List ℕ :=
  (sortUnstableBy compare l).take (P.deletionCount d.reduction (d.pool skip).length)

lemma chosen_subset {skip : ℕ → Bool} {compare : ℕ → ℕ → Ordering} {l : List ℕ}
    (hr : r ∈ chosen P d skip compare l) : r ∈ l :=
  mem_sortUnstableBy.1 (List.mem_of_mem_take hr)

lemma nodup_chosen {skip : ℕ → Bool} {compare : ℕ → ℕ → Ordering} {l : List ℕ} (hl : l.Nodup) :
    (chosen P d skip compare l).Nodup :=
  ((sortUnstableBy_perm compare l).nodup_iff.2 hl).sublist (List.take_sublist _ _)

/-- As many clauses are chosen as the fraction of the candidates says. -/
lemma length_chosen (h : d.Ready) {skip : ℕ → Bool} (compare : ℕ → ℕ → Ordering) {l : List ℕ}
    (hl : (d.pool skip).length ≤ l.length) : (chosen P d skip compare l).length =
      P.deletionCount d.reduction (d.pool skip).length := by
  rw [chosen, List.length_take, length_sortUnstableBy]
  have := P.deletionCount_le d.reduction (length_pool_le h skip)
  omega

lemma live_of_unlocked (hr : r ∈ d.unlocked) : d.arena.Live r :=
  ⟨(mem_unlocked.1 hr).1, (mem_unlocked.1 hr).2.2.1⟩

/-- `reduce_database_lbd_free` deletes the longest candidates. -/
lemma reduceDatabaseLbdFree_spec (P : DeletionPolicy) (h : d.Ready) :
    ∃ d', d.reduceDatabaseLbdFree P = some d' ∧ Removes (fun _ => false) d d'
      (chosen P d (fun _ => false) d.compareLength (d.pool fun _ => false)) := by
  obtain ⟨locked, he, hlocked⟩ := lockedClauses_spec h
  obtain ⟨d₁, he₁, h₁, hreduction⟩ := zeroCandidates_spec h hlocked (fun _ => some false)
    (fun _ => false) fun _ _ => rfl
  have hlive : ∀ r ∈ chosen P d (fun _ => false) d.compareLength (d.pool fun _ => false),
      d₁.arena.Live r := fun r hr =>
    h₁.live.2 (live_of_unlocked (mem_pool.1 (chosen_subset hr)).1)
  obtain ⟨d₂, he₂, h₂⟩ := exists_foldlM (fun _ => false) id deleteClause
    (fun T s' r hs hr _ => exists_deleteClause hs.arena hr rfl) h₁.arena
    (nodup_chosen (d.nodup_pool _)) hlive
  obtain ⟨d₃, he₃, h₃⟩ := exists_compactAfter (d := d₂.record .reductions d.reduction) h₂.arena
  refine ⟨d₃, ?_, h₁.removes ((h₂.alike ((Alike.refl h₂.arena).record _ _)).alike h₃)⟩
  rw [chosen, ← length_sortUnstableBy d.compareLength] at he₂
  simp only [reduceDatabaseLbdFree, he, he₁, Option.bind_eq_bind, Option.bind_some, hreduction,
    h₁.compareLength, he₂, he₃]

lemma exists_deleteAndOffer (h : d.arena.Ok) (hr : d.arena.Live r) (hsel : sel r = false)
    (reduction : ℕ) : ∃ d', d.deleteAndOffer reduction r = some d' ∧ Removes sel d d' [r] := by
  obtain ⟨d₁, he, h₁⟩ := exists_deleteClause h hr hsel
  exact ⟨_, by rw [deleteAndOffer, he], h₁.alike (alike_offer h₁.arena r reduction)⟩

/-- `reduce_database_counterfactual_phase` deletes the same clauses. -/
lemma reduceDatabaseCounterfactualPhase_spec (P : DeletionPolicy) (h : d.Ready) :
    ∃ d', d.reduceDatabaseCounterfactualPhase P = some d' ∧ Removes (fun _ => false) d d'
      (chosen P d (fun _ => false) d.compareLength (d.pool fun _ => false)) := by
  obtain ⟨locked, he, hlocked⟩ := lockedClauses_spec h
  obtain ⟨d₁, he₁, h₁, hreduction⟩ := zeroCandidates_spec h hlocked (fun _ => some false)
    (fun _ => false) fun _ _ => rfl
  have hlive : ∀ r ∈ chosen P d (fun _ => false) d.compareLength (d.pool fun _ => false),
      d₁.arena.Live r := fun r hr =>
    h₁.live.2 (live_of_unlocked (mem_pool.1 (chosen_subset hr)).1)
  obtain ⟨d₂, he₂, h₂⟩ := exists_foldlM (fun _ => false) id (deleteAndOffer d.reduction)
    (fun T s' r hs hr _ => exists_deleteAndOffer hs.arena hr rfl _) h₁.arena
    (nodup_chosen (d.nodup_pool _)) hlive
  refine ⟨_, ?_, h₁.removes (h₂.alike ((Alike.refl h₂.arena).record .reductions d.reduction))⟩
  rw [chosen, ← length_sortUnstableBy d.compareLength] at he₂
  simp only [reduceDatabaseCounterfactualPhase, he, he₁, Option.bind_eq_bind, Option.bind_some,
    hreduction, h₁.compareLength, he₂]
  rfl

/-- The candidates of the scan-debt reducer. -/
lemma visitScored_spec (h : d.Ready) {locked : List Bool}
    (hlocked : ∀ r < d.arena.count, locked[r]? = some (d.isLocked r)) :
    ∃ positive, d.visitClauses locked d.visitScored ([], [], 0) =
      some (d.unlocked, d.pool (fun _ => false), positive) := by
  let f : List ℕ × List ℕ × ℕ → ℕ → List ℕ × List ℕ × ℕ := fun s r =>
    if d.score r = 0 then (s.1 ++ [r], s.2.1 ++ [r], s.2.2)
    else (s.1 ++ [r], s.2.1, saturatingAdd s.2.2 1)
  have hvisit := visitClauses_spec (f := f) hlocked
    (fun (s : List ℕ × List ℕ × ℕ) r hr => show d.visitScored s r = some (f s r) by
      have hr := (mem_unlocked.1 hr).1
      simp only [visitScored, getElem?_scores h hr, f]
      split <;> rfl) ([], [], 0)
  have hloop : ∀ (l : List ℕ) (s : List ℕ × List ℕ × ℕ), (l.foldl f s).1 = s.1 ++ l ∧
      (l.foldl f s).2.1 = s.2.1 ++ l.filter fun r => !false && decide (d.score r = 0) := by
    intro l
    induction l with
    | nil => simp
    | cons r l ih =>
      intro s
      obtain ⟨ih₁, ih₂⟩ := ih (f s r)
      rw [List.foldl_cons, ih₁, ih₂, List.filter_cons]
      by_cases hs : d.score r = 0
      · simp [f, hs]
      · simp [f, hs]
  obtain ⟨h₁, h₂⟩ := hloop d.unlocked ([], [], 0)
  rw [List.nil_append] at h₁ h₂
  exact ⟨_, hvisit.trans (congrArg some (Prod.ext h₁ (Prod.ext h₂ rfl)))⟩

lemma exists_deleteCounted {baselineDeleted : List Bool} {marked : ℕ → Option Bool}
    {s : ClauseDatabase × ℕ × ℕ} (h : s.1.arena.Ok) (hr : s.1.arena.Live r) (hsel : sel r = false)
    (hbaseline : r < baselineDeleted.length) (hmarked : (marked r).isSome) :
    ∃ s', deleteCounted baselineDeleted marked s r = some s' ∧ Removes sel s.1 s'.1 [r] := by
  obtain ⟨d₁, he, h₁⟩ := exists_deleteClause h hr hsel
  obtain ⟨mark, hmark⟩ := Option.isSome_iff_exists.1 hmarked
  refine ⟨(d₁, if baselineDeleted[r] then s.2.1 else saturatingAdd s.2.1 1,
    if mark then saturatingAdd s.2.2 1 else s.2.2), ?_, h₁⟩
  simp only [deleteCounted, List.getElem?_eq_getElem hbaseline, hmark, he]

/-- `reduce_database_scan_debt` deletes as many clauses, from all that are unlocked. -/
lemma reduceDatabaseScanDebt_spec (P : DeletionPolicy) (h : d.Ready)
    (hdebts : d.clauseScanDebt.length = d.arena.count) :
    ∃ d', d.reduceDatabaseScanDebt P = some d' ∧ Removes (fun _ => false) d d'
      (chosen P d (fun _ => false) d.compareScanDebt d.unlocked) := by
  obtain ⟨locked, he, hlocked⟩ := lockedClauses_spec h
  obtain ⟨positive, he₁⟩ := visitScored_spec h hlocked
  let d₁ := d.tally .clauseUsageZeroCandidates (d.pool fun _ => false).length
  have h₁ : Alike d d₁ := (Alike.refl h.arena).tally _ _
  obtain ⟨flags, hflags, hlen, -⟩ := setFlags_replicate (n := d.arena.count)
    (S := chosen P d (fun _ => false) d.compareLength (d.pool fun _ => false)) fun r hr =>
      (mem_unlocked.1 (mem_pool.1 (chosen_subset hr)).1).1
  have hall : ∀ r ∈ d.unlocked, r < d₁.clauseScanDebt.length := fun r hr =>
    (mem_unlocked.1 hr).1.trans_eq hdebts.symm
  have hunlocked : ∀ r ∈ chosen P d (fun _ => false) d.compareScanDebt d.unlocked,
      r < d.arena.count := fun r hr => (mem_unlocked.1 (chosen_subset hr)).1
  obtain ⟨⟨d₂, displacements, positiveDeletions⟩, he₂, h₂⟩ := exists_foldlM (fun _ => false)
    Prod.fst (deleteCounted flags fun clause =>
      d.clauseUsageScores[clause]?.map fun score => decide (0 < score)) (s := (d₁, 0, 0))
    (fun T s' r hs hr hrS => exists_deleteCounted hs.arena hr rfl (hlen ▸ hunlocked r hrS)
      (by rw [getElem?_scores h (hunlocked r hrS)]; rfl)) h₁.arena
    (nodup_chosen (P := P) (d := d) d.nodup_unlocked)
    fun r hr => h₁.live.2 (live_of_unlocked (chosen_subset hr))
  let d₃ := ((((d₂.tally .clauseScanDebtSelectionDisplacements displacements).tally
    .clauseScanDebtPositiveDeletions positiveDeletions).tally
    .clauseScanDebtZeroRescues displacements).tally .clauseUsagePositiveProtections
      (positive - positiveDeletions)).record .reductions d.reduction
  have h₃ : Alike d₂ d₃ :=
    ((((Alike.refl h₂.arena).tally _ _).tally _ _).tally _ _).tally _ _ |>.record _ _
  obtain ⟨d₄, he₄, h₄⟩ := exists_compactAfter (d := d₃) h₃.arena
  refine ⟨d₄, ?_, h₁.removes ((h₂.alike h₃).alike h₄)⟩
  have hreduction : (d.tally .clauseUsageZeroCandidates (d.pool fun _ => false).length).reduction =
      d.reduction := tally_reduction d _ _ (by simp)
  simp only [reduceDatabaseScanDebt, he, he₁, Option.bind_eq_bind, Option.bind_some,
    tally_compareLength, tally_compareScanDebt, tally_arena, tally_scores]
  rw [chosen] at he₂ hflags
  rw [hreduction, hflags, Option.bind_some, if_neg (by simpa using hall), he₂, Option.bind_some]
  exact he₄

lemma Alike.nonregular (h : Alike d d') : d'.nonregular = d.nonregular := by
  funext r
  rw [ClauseDatabase.nonregular, ClauseDatabase.nonregular, h.samples, h.regularity]

lemma Alike.compareNonregular (h : Alike d d') : d'.compareNonregular = d.compareNonregular := by
  funext left right
  rw [ClauseDatabase.compareNonregular, ClauseDatabase.compareNonregular, h.nonregular, h.length,
    h.length]

/-- `reduce_database_nonregular` deletes as many of the candidates, the regular ones first. -/
lemma reduceDatabaseNonregular_spec (P : DeletionPolicy) (h : d.Ready)
    (hsamples : d.regularityLongSamples.length = d.arena.count)
    (hstates : d.regularityLongStates.length = d.arena.count) :
    ∃ d', d.reduceDatabaseNonregular P = some d' ∧ Removes (fun _ => false) d d'
      (chosen P d (fun _ => false) d.compareNonregular (d.pool fun _ => false)) := by
  obtain ⟨locked, he, hlocked⟩ := lockedClauses_spec h
  obtain ⟨d₁, he₁, h₁, hreduction₁⟩ := zeroCandidates_spec h hlocked (fun _ => some false)
    (fun _ => false) fun _ _ => rfl
  have hpool : ∀ {compare : ℕ → ℕ → Ordering}, ∀ r ∈ chosen P d (fun _ => false) compare
      (d.pool fun _ => false), r < d.arena.count := fun r hr =>
    (mem_unlocked.1 (mem_pool.1 (chosen_subset hr)).1).1
  obtain ⟨baseline, hbaseline, hlen, -⟩ := setFlags_replicate (n := d.arena.count)
    (S := chosen P d (fun _ => false) d.compareLength (d.pool fun _ => false)) hpool
  obtain ⟨treatment, htreatment, hlen', -⟩ := setFlags_replicate (n := d.arena.count)
    (S := chosen P d (fun _ => false) d.compareNonregular (d.pool fun _ => false)) hpool
  have hall : ∀ r ∈ d.pool fun _ => false,
      r < d₁.regularityLongSamples.length ∧ r < d₁.regularityLongStates.length := fun r hr => by
    rw [h₁.samples, h₁.regularity, hsamples, hstates]
    exact ⟨(mem_unlocked.1 (mem_pool.1 hr).1).1, (mem_unlocked.1 (mem_pool.1 hr).1).1⟩
  have hall' : ∀ r ∈ chosen P d (fun _ => false) d.compareLength (d.pool fun _ => false),
      r < treatment.length := fun r hr => (hpool r hr).trans_eq hlen'.symm
  obtain ⟨d₂, hd₂, h₂, hreduction⟩ : ∃ d₂, d₁.tally .regularityNonregularZeroCandidates
      ((d.pool fun _ => false).countP d.nonregular) = d₂ ∧ Alike d d₂ ∧
        d₂.reduction = d.reduction :=
    ⟨_, rfl, h₁.tally _ _, (tally_reduction d₁ _ _ (by simp)).trans hreduction₁⟩
  obtain ⟨⟨d₃, displacements, nonregularDeletions⟩, he₃, h₃⟩ := exists_foldlM (fun _ => false)
    Prod.fst (deleteCounted baseline fun clause => some (d.nonregular clause)) (s := (d₂, 0, 0))
    (fun T s' r hs hr hrS => exists_deleteCounted hs.arena hr rfl (hlen ▸ hpool r hrS) rfl)
    h₂.arena (nodup_chosen (P := P) (d := d) (d.nodup_pool _))
    fun r hr => h₂.live.2 (live_of_unlocked (mem_pool.1 (chosen_subset hr)).1)
  let rescues := (chosen P d (fun _ => false) d.compareLength (d.pool fun _ => false)).countP
    fun r => !treatment.getD r false && d.nonregular r
  let d₄ := (((d₃.tally .regularitySelectionDisplacements displacements).tally
    .regularityNonregularRescues rescues).tally
    .regularityNonregularDeletions nonregularDeletions).record .reductions d.reduction
  have h₄ : Alike d₃ d₄ :=
    (((Alike.refl h₃.arena).tally _ _).tally _ _).tally _ _ |>.record _ _
  obtain ⟨d₅, he₅, h₅⟩ := exists_compactAfter (d := d₄) h₄.arena
  refine ⟨d₅, ?_, h₂.removes ((h₃.alike h₄).alike h₅)⟩
  simp only [reduceDatabaseNonregular, he, he₁, Option.bind_eq_bind, Option.bind_some]
  rw [if_neg (by simpa using hall)]
  simp only [tally_compareLength, tally_compareNonregular, tally_arena, tally_nonregular,
    h₁.compareLength, h₁.compareNonregular, h₁.nonregular, h₁.count]
  rw [chosen] at he₃ hbaseline htreatment hall'
  rw [hd₂, hreduction, hbaseline, Option.bind_some, htreatment, Option.bind_some, he₃,
    Option.bind_some, if_neg (by simpa using hall')]
  exact he₅

lemma exists_removeShadowing {selected : List Bool} (h : d.arena.Ok) (hr : d.arena.Live r)
    (hselected : selected[r]? = some (sel r))
    (hstates : d.shadowClauseStates.length = d.arena.count)
    (hstarted : d.shadowClauseStartedAt.length = d.arena.count) :
    ∃ d', d.removeShadowing selected r = some d' ∧ Removes sel d d' [r] := by
  rw [removeShadowing, hselected]
  cases hsel : sel r with
  | true =>
    exact exists_beginShadowObservation h hsel (hr.1.trans_eq hstates.symm)
      (hr.1.trans_eq hstarted.symm)
  | false =>
    obtain ⟨d₁, he, h₁⟩ := exists_deleteClause h hr hsel
    exact ⟨_, by rw [he], h₁.alike ((Alike.refl h₁.arena).tally _ _)⟩

/-- The states of a list of clauses are changed in their places. -/
lemma length_foldl_set (S : List ℕ) (states : List ShadowState) :
    (S.foldl (fun states r => states.set r .observing) states).length = states.length := by
  induction S generalizing states with
  | nil => rfl
  | cons r S ih => rw [List.foldl_cons, ih, List.length_set]

lemma Removes.length_states (h : Removes sel d d' S) :
    d'.shadowClauseStates.length = d.shadowClauseStates.length := by
  rw [h.states, length_foldl_set]

lemma getElem?_states (hconfig : d.config.shadowClauseReactivation = true)
    (hr : r < d.shadowClauseStates.length) :
    d.shadowClauseStates[r]?.map (fun state : ShadowState => decide (state ≠ .active)) =
      some (d.isShadow r) := by
  rw [isShadow, hconfig, Bool.true_and, List.getD_eq_getElem?_getD, List.getElem?_eq_getElem hr]
  rfl

/-- `reduce_database_shadow_reactivation` removes the longest candidates that are no shadows. -/
lemma reduceDatabaseShadowReactivation_spec (P : DeletionPolicy) (h : d.Ready)
    (hconfig : d.config.shadowClauseReactivation = true)
    (hstates : d.shadowClauseStates.length = d.arena.count)
    (hstarted : d.shadowClauseStartedAt.length = d.arena.count)
    (hreasons : ∀ r, some (.long r) ∈ d.reasons → d.isShadow r = false) :
    ∃ sel d', d.reduceDatabaseShadowReactivation P = some d' ∧ Removes sel d d'
      (chosen P d d.isShadow d.compareLength (d.pool d.isShadow)) := by
  obtain ⟨locked, he, hlocked⟩ := lockedClauses_spec h
  obtain ⟨d₁, he₁, h₁, hreduction⟩ := zeroCandidates_spec h hlocked
    (fun r => d.shadowClauseStates[r]?.map fun state : ShadowState => decide (state ≠ .active))
    d.isShadow
    fun r hr => getElem?_states hconfig (hr.trans_eq hstates.symm)
  have hreason : d.reasons.any d.shadowReason = false := by
    rw [List.any_eq_false]
    intro reason hreason
    match reason with
    | none => exact Bool.false_ne_true
    | some (.binary b) => exact Bool.false_ne_true
    | some (.long r) => exact ne_true_of_eq_false (hreasons r hreason)
  let S := chosen P d d.isShadow d.compareLength (d.pool d.isShadow)
  have hS : ∀ r ∈ S, r ∈ d.unlocked := fun r hr => (mem_pool.1 (chosen_subset hr)).1
  have hlenS : S.length = P.deletionCount d.reduction (d.pool d.isShadow).length :=
    length_chosen h d.compareLength le_rfl
  have hcount : P.deletionCount d.reduction (d.pool d.isShadow).length ≤
      (d.pool d.isShadow).length := P.deletionCount_le _ (length_pool_le h _)
  let shadowCount := min (shadowCapacity - d.shadowClauses.length) S.length
  let first := (sortUnstableBy (compareRank d.reduction) S).take shadowCount
  have hstates₁ : d₁.shadowClauseStates.length = d₁.arena.count := by
    rw [h₁.states, hstates, h₁.count]
  have hstarted₁ : d₁.shadowClauseStartedAt.length = d₁.arena.count := by
    rw [h₁.started, hstarted, h₁.count]
  obtain ⟨selected, hselected, -, hsel⟩ := setFlags_replicate (n := d.arena.count) (S := first)
    fun r hr => (mem_unlocked.1 (hS r (mem_sortUnstableBy.1 (List.mem_of_mem_take hr)))).1
  obtain ⟨d₂, he₂, h₂⟩ := exists_foldlM (fun r => decide (r ∈ first)) id (removeShadowing selected)
    (fun T s' r hs hr hrS => exists_removeShadowing hs.arena hr
      (hsel r (mem_unlocked.1 (hS r hrS)).1)
      (hs.length_states.trans (hstates₁.trans hs.count.symm))
      (hs.started.trans (hstarted₁.trans hs.count.symm)))
    h₁.arena (nodup_chosen (P := P) (d := d) (d.nodup_pool _))
    fun r hr => h₁.live.2 (live_of_unlocked (hS r hr))
  refine ⟨_, _, ?_, h₁.removes (h₂.alike (((Alike.refl h₂.arena).tally .shadowCapacitySkips
    (S.length - shadowCount)).record .reductions d.reduction))⟩
  rw [reduceDatabaseShadowReactivation, if_neg (by rw [hreason]; simp)]
  simp only [he, he₁, Option.bind_eq_bind, Option.bind_some, h₁.compareLength, h₁.count,
    h₁.shadows, hreduction, length_sortUnstableBy]
  have htake : (sortUnstableBy d.compareLength (d.pool d.isShadow)).take
    (P.deletionCount d.reduction (d.pool d.isShadow).length) = S := rfl
  rw [if_neg (by omega), htake, hselected, Option.bind_some, he₂, Option.bind_some]
  rfl

end ClauseDatabase

end Satrap
