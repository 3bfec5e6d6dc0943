/-
# Decisions and reasons

Above the root a literal is the decision of its level or was implied by a clause that is still
in force.  So the resolution of conflict analysis never meets a decision before it has reached
the first unique implication point, minimisation only expands literals that have a reason, and
what is learned follows from the clauses in force and the root assignment.
-/
import Satrap.Solver.Run

namespace Satrap

open Logic

namespace Solver

variable {P : Prop}
variable {Γ : Set (List Lit)} {A : List Lit} {O : Oracle} {s s' : Solver} {c : ClauseRef}
  {l p q : Lit}

/-- Every literal above the root is the decision of its level, or a clause in force is its
reason. -/
structure Justified (s : Solver) : Prop where
  decision : ∀ (i : ℕ) (l : Lit), s.trail[i]? = some l → s.reasons l.var = none →
    0 < s.levels l.var → s.trailLimits[s.levels l.var - 1]? = some i
  reason : ∀ l ∈ s.trail, ∀ c, s.reasons l.var = some c → 0 < s.levels l.var →
    s.Active c ∧ s.clauseIsShadow c = false

/-- The clauses the solver reasons with: those stored and in force, and the literals that are
assigned at the root, which are kept as such and not as stored clauses. -/
def activeClauses (s : Solver) : Set (List Lit) :=
  {d | ∃ c, s.Active c ∧ s.clauseIsShadow c = false ∧ s.literals c = d} ∪
    {d | ∃ l ∈ s.trail, s.levels l.var = 0 ∧ d = [l]}

lemma entails_activeClauses (hc : s.Active c) (hs : s.clauseIsShadow c = false) :
    Entails s.activeClauses (s.literals c) :=
  fun _ hm => hm _ (.inl ⟨c, hc, hs, rfl⟩)

lemma entails_root (hl : l ∈ s.trail) (h0 : s.levels l.var = 0) :
    Entails s.activeClauses [l] :=
  fun _ hm => hm _ (.inr ⟨l, hl, h0, rfl⟩)

/-- Conflict analysis may be based on the clauses in force. -/
lemma Core.grounded_active (h : Core Γ s) (hj : Justified s) : Grounded s.activeClauses s where
  trail := h.trail
  db := h.db
  reason := h.reason
  known l hl c hr := by
    rcases Nat.eq_zero_or_pos (s.levels l.var) with h0 | h0
    · -- a root literal is entailed itself, whatever has become of its reason
      obtain ⟨i, hi⟩ := List.mem_iff_getElem?.1 hl
      exact (entails_root hl h0).weaken fun q hq => by
        rw [List.mem_singleton.1 hq]
        exact (h.reason i l c hi hr).2.1
    · obtain ⟨hc, hs⟩ := hj.reason l hl c hr h0
      exact entails_activeClauses hc hs
  binary c hc hb := entails_activeClauses hc (isShadow_binary hb)
  root _ := entails_root
  seen := h.seen

/-! ### Resolution ends -/

/-- A decision is the first literal of its level. -/
lemma Justified.decision_first (hj : Justified s)
    (ht : s.toTrailState.Ok s.variableCount s.eliminatedVariables) {i j : ℕ}
    (hp : s.trail[i]? = some p) (hr : s.reasons p.var = none) (h0 : 0 < s.decisionLevel)
    (hlev : s.levels p.var = s.decisionLevel) (hq : s.trail[j]? = some q)
    (hqlev : s.levels q.var = s.decisionLevel) : i ≤ j := by
  have hlimit := hj.decision i p hp hr (hlev ▸ h0)
  rw [hlev] at hlimit
  rw [ht.level j q hq] at hqlev
  have hall : ∀ k ∈ s.trailLimits, k ≤ j := by
    have := List.countP_eq_length.1 hqlev
    simpa using this
  exact hall i (List.mem_of_getElem? hlimit)

lemma pathCount_le_absorb (resolved : Option Lit) :
    ∀ (literals : List Lit) (a : Analysis),
      a.pathCount ≤ (absorbClause s.toTrailState resolved literals a).pathCount := by
  intro literals
  induction literals with
  | nil => exact fun a => le_rfl
  | cons q literals ih =>
    intro a
    refine le_trans ?_ (ih _)
    rw [absorbLiteral]
    split
    · exact le_rfl
    split
    · dsimp only
      split
      · exact Nat.le_succ _
      · exact le_rfl
    · exact le_rfl

/-- As long as a literal of the current level is marked, the loop goes on, and it ends at the
decision of the level at the latest. -/
lemma resolveTrail_isSome (h : Grounded Γ s) (hj : Justified s) (h0 : 0 < s.decisionLevel) :
    ∀ (rev : List Lit) (a : Analysis), rev.reverse <+: s.trail →
      AnalysisOk Γ s rev.reverse a → 0 < a.pathCount → (resolveTrail s rev a).isSome := by
  intro rev
  induction rev with
  | nil =>
    intro a _ ha hpos
    rw [ha.count] at hpos
    simp [markedCount] at hpos
  | cons p rev ih =>
    intro a hpre ha hpos
    rw [List.reverse_cons] at hpre ha
    have hpre' : rev.reverse <+: s.trail := (List.prefix_append _ _).trans hpre
    rw [resolveTrail]
    split
    swap
    · next hs => exact ih a hpre' (ha.skip hs) hpos
    next hs =>
    obtain ⟨k, hk⟩ := Nat.exists_eq_succ_of_ne_zero hpos.ne'
    rw [hk]
    dsimp only
    obtain ⟨hlev, ha'⟩ := h.unmark hpre ha hs hk
    split
    · rfl
    next hk0 =>
    have hp : s.trail[rev.reverse.length]? = some p := by
      obtain ⟨u, hu⟩ := hpre
      rw [← hu]
      simp
    cases hr : s.reasons p.var with
    | none =>
      -- another literal of the level is marked, so this one is not its decision
      exfalso
      have hpos' : 0 < markedCount s.toTrailState (unmarked a p.var k).seen rev.reverse :=
        ha'.count ▸ Nat.pos_of_ne_zero hk0
      obtain ⟨q, hq, hqs⟩ := List.countP_pos_iff.1 hpos'
      simp only [Bool.and_eq_true, decide_eq_true_eq] at hqs
      obtain ⟨j, hj', hqj⟩ := List.mem_iff_getElem.1 hq
      have hqt : s.trail[j]? = some q := by
        obtain ⟨u, hu⟩ := hpre'
        rw [← hu, List.getElem?_append_left hj', List.getElem?_eq_getElem hj', hqj]
      exact absurd (hj.decision_first h.trail hp hr h0 hlev hqt hqs.2) (Nat.not_le_of_lt hj')
    | some c =>
      obtain ⟨h1, -⟩ := h.absorb hpre' hp ha' hr
      refine ih _ hpre' h1 ((Nat.pos_of_ne_zero hk0).trans_le ?_)
      exact pathCount_le_absorb (some p) (s.literals c) (unmarked a p.var k)

/-! ### Minimisation ends -/

/-- The number of variables without a mark. -/
def freshCount (n : ℕ) (seen : ℕ → Bool) : ℕ :=
  ((Finset.range n).filter fun v => seen v = false).card

lemma freshCount_mark {n v : ℕ} {seen : ℕ → Bool} (hv : v < n) (hs : seen v = false) :
    freshCount n (Function.update seen v true) + 1 = freshCount n seen := by
  have herase : (Finset.range n).filter (fun w => Function.update seen v true w = false) =
      ((Finset.range n).filter fun w => seen w = false).erase v := by
    ext w
    by_cases hw : w = v
    · simp [hw]
    · simp [hw]
  rw [freshCount, herase, Finset.card_erase_add_one (by simp [hv, hs]), freshCount]

lemma freshCount_le (n : ℕ) (seen : ℕ → Bool) : freshCount n seen ≤ n := by
  have := Finset.card_filter_le (Finset.range n) fun v => seen v = false
  rwa [Finset.card_range] at this

section Redundant

variable {levels : ℕ} {candidate : Lit}

/-- The literals that wait for expansion were implied. -/
def Expandable (s : Solver) (r : Redundancy) : Prop :=
  ∀ q ∈ r.stack, -q ∈ s.trail ∧ (s.reasons q.var).isSome

/-- The work left to `literal_redundant`. -/
def remaining (s : Solver) (r : Redundancy) : ℕ :=
  r.stack.length + freshCount s.variableCount r.seen

lemma visitAntecedent_remaining {r r' : Redundancy} (hlt : q.var < s.variableCount)
    (hq : q.var ≠ candidate.var → -q ∈ s.trail) (hexp : s.Expandable r)
    (hr : visitAntecedent s.toTrailState levels candidate r q = some r') :
    s.Expandable r' ∧ s.remaining r' = s.remaining r := by
  rw [visitAntecedent] at hr
  split at hr
  · obtain rfl := Option.some.inj hr
    exact ⟨hexp, rfl⟩
  next hne =>
  split at hr
  · obtain rfl := Option.some.inj hr
    exact ⟨hexp, rfl⟩
  next hnew =>
  split at hr
  · next hcond =>
    obtain rfl := Option.some.inj hr
    constructor
    · intro p hp
      rcases List.mem_cons.1 hp with rfl | hp
      · exact ⟨hq hne, hcond.1⟩
      · exact hexp p hp
    · have hs : r.seen q.var = false := by simpa using (not_or.1 hnew).2
      simp only [remaining, List.length_cons, ← freshCount_mark hlt hs]
      omega
  · simp at hr

lemma visitAntecedents_remaining : ∀ (literals : List Lit) (r r' : Redundancy),
    (∀ q ∈ literals, q.var < s.variableCount ∧ (q.var ≠ candidate.var → -q ∈ s.trail)) →
    s.Expandable r →
    literals.foldlM (visitAntecedent s.toTrailState levels candidate) r = some r' →
    s.Expandable r' ∧ s.remaining r' = s.remaining r := by
  intro literals
  induction literals with
  | nil =>
    intro r r' _ hexp hr
    obtain rfl : r = r' := by simpa using hr
    exact ⟨hexp, rfl⟩
  | cons q literals ih =>
    intro r r' hq hexp hr
    rw [List.foldlM_cons] at hr
    obtain ⟨r₁, h1, h2⟩ := Option.bind_eq_some_iff.1 hr
    obtain ⟨hlt, hneg⟩ := hq q (by simp)
    obtain ⟨hexp₁, hrem₁⟩ := visitAntecedent_remaining hlt hneg hexp h1
    obtain ⟨hexp₂, hrem₂⟩ := ih r₁ r' (fun p hp => hq p (by simp [hp])) hexp₁ h2
    exact ⟨hexp₂, hrem₂.trans hrem₁⟩

/-- Every expansion takes a literal off the stack, and what it puts there loses its place
among the variables without a mark. -/
lemma redundantLoop_isSome (h : Grounded Γ s) : ∀ (fuel : ℕ) (r : Redundancy),
    s.Expandable r → s.remaining r ≤ fuel → (redundantLoop s levels fuel r).isSome := by
  intro fuel
  induction fuel with
  | zero =>
    intro r _ hrem
    have hnil : r.stack = [] := List.length_eq_zero_iff.1 (by rw [remaining] at hrem; omega)
    rw [redundantLoop, hnil]
    rfl
  | succ fuel ih =>
    intro r hexp hrem
    rw [redundantLoop]
    split
    · rfl
    next candidate stack hst =>
    obtain ⟨hneg, hreason⟩ := hexp candidate (by rw [hst]; simp)
    obtain ⟨c, hc⟩ := Option.isSome_iff_exists.1 hreason
    rw [hc]
    dsimp only
    cases hvisit : (s.clause c).literals.foldlM
        (visitAntecedent s.toTrailState levels candidate) { r with stack := stack } with
    | none => rfl
    | some r₁ =>
      obtain ⟨i, hi⟩ := List.mem_iff_getElem?.1 hneg
      obtain ⟨hall, -, hothers⟩ := h.reason i (-candidate) c hi hc
      have hexp' : s.Expandable { r with stack := stack } := fun q hq =>
        hexp q (by rw [hst]; exact List.mem_cons_of_mem _ hq)
      obtain ⟨hexp₁, hrem₁⟩ := visitAntecedents_remaining _ _ _ (fun q hq => by
        refine ⟨h.db.lt c hall q hq, fun hne => ?_⟩
        obtain ⟨j, -, hj⟩ := hothers q hq fun he => hne (by rw [he, Literal.var_neg])
        exact List.mem_of_getElem? hj) hexp' hvisit
      refine ih r₁ hexp₁ ?_
      rw [hrem₁]
      rw [remaining, hst, List.length_cons] at hrem
      simp only [remaining]
      omega

lemma minimizeLiterals_isSome (h : Grounded Γ s) : ∀ (literals : List Lit) (seen : ℕ → Bool),
    (∀ q ∈ literals, -q ∈ s.trail) → (minimizeLiterals s levels literals seen).isSome := by
  intro literals
  induction literals with
  | nil => exact fun _ _ => rfl
  | cons l literals ih =>
    intro seen hneg
    have hrest : ∀ seen, (minimizeLiterals s levels literals seen).isSome := fun seen =>
      ih seen fun q hq => hneg q (by simp [hq])
    rw [minimizeLiterals]
    split
    swap
    · simpa using hrest seen
    next hr =>
    have hloop : (redundantLoop s levels (s.variableCount + 1) ⟨seen, [], [l]⟩).isSome := by
      refine redundantLoop_isSome h _ _ (fun q hq => ?_) ?_
      · rw [List.mem_singleton.1 hq]
        exact ⟨hneg l (by simp), hr⟩
      · have := freshCount_le s.variableCount seen
        simp only [remaining, List.length_singleton]
        omega
    obtain ⟨answer, ha⟩ := Option.isSome_iff_exists.1 hloop
    rw [literalRedundant, ha]
    cases answer with
    | none => simpa using hrest seen
    | some r => simpa using hrest r.seen

end Redundant

/-! ### Analysis succeeds -/

/-- **Analysis succeeds** on a conflict with a literal of the current level. -/
theorem Grounded.analyze_isSome (O : Oracle) (h : Grounded Γ s) (hj : Justified s)
    (hc : s.Allocated c) (he : Entails Γ (s.literals c)) (hf : ∀ q ∈ s.literals c, -q ∈ s.trail)
    (h0 : 0 < s.decisionLevel) (hcur : ∃ q ∈ s.literals c, s.levels q.var = s.decisionLevel) :
    (s.analyze O c).isSome := by
  obtain ⟨hstart, href, hmarked⟩ := h.analysis_start hc he hf
  obtain ⟨q, hq, hqlev⟩ := hcur
  have hpos : 0 < (absorbClause s.toTrailState none (s.literals c)
      ⟨s.seen, [], [], 0⟩).pathCount := by
    rw [hstart.count]
    refine List.countP_pos_iff.2 ⟨-q, hf q hq, ?_⟩
    rw [Literal.var_neg, hmarked q hq (hqlev ▸ h0)]
    simpa using hqlev
  obtain ⟨⟨asserting, a⟩, hres⟩ := Option.isSome_iff_exists.1
    (resolveTrail_isSome h hj h0 s.trail.reverse _ (by simp) (by simpa using hstart) hpos)
  have ha : Resolved Γ s asserting a :=
    resolveTrail_spec h s.trail.reverse _ (by simp) (by simpa using hstart) href _ _ hres
  have hmin : (s.minimized a).isSome := by
    rw [Solver.minimized]
    split
    · exact minimizeLiterals_isSome h _ _ fun q hq => ((ha.learned q).1 hq).2
    · rfl
  obtain ⟨r, hr⟩ := Option.isSome_iff_exists.1 hmin
  have hres' : resolveTrail s s.trail.reverse (absorbClause s.toTrailState none
      (s.clause c).literals ⟨s.seen, [], [], 0⟩) = some (asserting, a) := hres
  rw [Solver.analyze]
  simp only [hres', hr, Option.isSome_some]

/-! ### What keeps the literals justified -/

namespace Justified

lemma of_root (ht : s.toTrailState.Ok s.variableCount s.eliminatedVariables)
    (h0 : s.decisionLevel = 0) : Justified s where
  decision i l hl _ hpos := by
    have := ht.level_le (List.mem_of_getElem? hl)
    omega
  reason l hl _ _ hpos := by
    have := ht.level_le hl
    omega

/-- The trail stays, and so do the clauses in force that are reasons. -/
lemma of_trail (h : Justified s) (ht : s'.toTrailState = s.toTrailState)
    (hc : ∀ l ∈ s.trail, ∀ c, s.reasons l.var = some c → s.Active c ∧ s.clauseIsShadow c = false →
      s'.Active c ∧ s'.clauseIsShadow c = false) : Justified s' where
  decision i l := by
    rw [ht]
    exact h.decision i l
  reason l hl c hr h0 := by
    rw [ht] at hl hr h0
    exact hc l hl c hr (h.reason l hl c hr h0)

lemma congr (h : Justified s) (ht : s'.toTrailState = s.toTrailState)
    (hdb : s'.toClauseDb = s.toClauseDb) (hconfig : s'.config = s.config) : Justified s' := by
  refine h.of_trail ht fun l _ c _ hc => ⟨by rw [hdb]; exact hc.1, ?_⟩
  cases c with
  | binary i => rfl
  | long i => simpa only [clauseIsShadow, hdb, hconfig] using hc.2

/-- What propagation assigns has a clause in force as reason. -/
lemma propagated (h : Justified s) (hp : Propagated s s')
    (ht : s.toTrailState.Ok s.variableCount s.eliminatedVariables)
    (ht' : s'.toTrailState.Ok s'.variableCount s'.eliminatedVariables) : Justified s' where
  decision i l hl hr h0 := by
    have hv : s'.assignments l.var ≠ none := by
      rw [ht'.assigned l (List.mem_of_getElem? hl)]
      simp
    have hne : s.assignments l.var ≠ none := by
      intro hn
      obtain ⟨c, hc, -⟩ := hp.implied l.var hn hv
      rw [hr] at hc
      simp at hc
    obtain ⟨h1, h2, h3⟩ := hp.trail.same l.var hne
    have hmem : l ∈ s.trail := by
      refine (ht.onTrail l ?_).resolve_right ?_
      · rw [← h1, ht'.assigned l (List.mem_of_getElem? hl)]
      · rw [← hp.eliminated]
        exact ht'.var_notMem (List.mem_of_getElem? hl)
    obtain ⟨j, hj⟩ := List.mem_iff_getElem?.1 hmem
    obtain rfl : j = i := ht'.getElem?_inj (hp.trail.getElem? hj) hl rfl
    rw [hp.trail.limits, h2]
    exact h.decision j l hj (h3.symm.trans hr) (h2 ▸ h0)
  reason l hl c hr h0 := by
    have hv : s'.assignments l.var ≠ none := by
      rw [ht'.assigned l hl]
      simp
    rw [hp.db.active, hp.isShadow]
    by_cases hn : s.assignments l.var = none
    · obtain ⟨d, hd, hact⟩ := hp.implied l.var hn hv
      obtain rfl : d = c := Option.some.inj (hd.symm.trans hr)
      exact hact
    · obtain ⟨h1, h2, h3⟩ := hp.trail.same l.var hn
      have hmem : l ∈ s.trail := by
        refine (ht.onTrail l ?_).resolve_right ?_
        · rw [← h1, ht'.assigned l hl]
        · rw [← hp.eliminated]
          exact ht'.var_notMem hl
      exact h.reason l hmem c (h3.symm.trans hr) (h2 ▸ h0)

lemma cancelUntil (h : Justified s) (hs : Core Γ s) (O : Oracle) (level : ℕ) :
    Justified (s.cancelUntil O level) := by
  rcases Nat.lt_or_ge level s.decisionLevel with hlevel | hlevel
  swap
  · rwa [cancelUntil_of_le O hlevel]
  have hc := cancelled_cancelUntil O s level
  have ht := cancelUntil_trail O hlevel
  have hshrunk := hs.trail.shrunk hlevel
  -- the literals that stay keep their position, their level and their reason
  have hold : ∀ (i : ℕ) (l : Lit), (s.cancelUntil O level).trail[i]? = some l → s.trail[i]? = some l ∧
      s.levels l.var ≤ level ∧ (s.cancelUntil O level).levels l.var = s.levels l.var ∧
      (s.cancelUntil O level).reasons l.var = s.reasons l.var := by
    intro i l hl
    rw [ht] at hl ⊢
    obtain ⟨h1, h2⟩ := (hs.trail.getElem?_shrink hlevel).1 hl
    obtain ⟨-, h3, h4⟩ := hshrunk.kept l (List.mem_of_getElem? h1) h2
    exact ⟨h1, h2, h3, h4⟩
  constructor
  · intro i l hl hr h0
    obtain ⟨h1, h2, h3, h4⟩ := hold i l hl
    rw [h3] at h0 ⊢
    have hlimits : (s.cancelUntil O level).trailLimits = s.trailLimits.take level := by
      rw [ht, hshrunk.limits]
    rw [hlimits, List.getElem?_take_of_lt (by omega)]
    exact h.decision i l h1 (h4.symm.trans hr) h0
  · intro l hl c hr h0
    obtain ⟨i, hi⟩ := List.mem_iff_getElem?.1 hl
    obtain ⟨h1, h2, h3, h4⟩ := hold i l hi
    rw [hc.db, hc.isShadow]
    exact h.reason l (List.mem_of_getElem? h1) c (h4.symm.trans hr) (h3 ▸ h0)

lemma newLevel (h : Justified s)
    (ht : s.toTrailState.Ok s.variableCount s.eliminatedVariables) : Justified s.newLevel where
  decision i l hl hr h0 := by
    have hle : s.levels l.var ≤ s.decisionLevel := ht.level_le (List.mem_of_getElem? hl)
    have h0' : 0 < s.levels l.var := h0
    show (s.trailLimits ++ [s.trail.length])[s.levels l.var - 1]? = some i
    rw [List.getElem?_append_left (by rw [TrailState.decisionLevel] at hle; omega)]
    exact h.decision i l hl hr h0
  reason := h.reason

/-- A literal is assigned with a clause in force as reason, or decided first thing on its
level. -/
lemma assign (h : Justified s)
    (ht : s.toTrailState.Ok s.variableCount s.eliminatedVariables) (savePhase : Bool)
    (hl : s.value l = none) (r : Option ClauseRef) (hr : ∀ c, r = some c → s.Active c ∧ s.clauseIsShadow c = false)
    (hnone : r = none → 0 < s.decisionLevel →
      s.trailLimits[s.decisionLevel - 1]? = some s.trail.length) :
    Justified (s.assign savePhase l r) := by
  have hold : ∀ q ∈ s.trail, (s.assign savePhase l r).levels q.var = s.levels q.var ∧
      (s.assign savePhase l r).reasons q.var = s.reasons q.var := fun q hq =>
    ((TrailState.grown_push hl r).same q.var (by rw [ht.assigned q hq]; simp)).2
  have hlev : (s.assign savePhase l r).levels l.var = s.decisionLevel := Function.update_self ..
  have hrea : (s.assign savePhase l r).reasons l.var = r := Function.update_self ..
  constructor
  · intro i q hq hqr h0
    rcases getElem?_push.1 hq with hq | ⟨rfl, rfl⟩
    · obtain ⟨h1, h2⟩ := hold q (List.mem_of_getElem? hq)
      rw [h1] at h0 ⊢
      exact h.decision i q hq (h2.symm.trans hqr) h0
    · rw [hlev] at h0 ⊢
      exact hnone (hrea.symm.trans hqr) h0
  · intro q hq c hqr h0
    obtain ⟨i, hi⟩ := List.mem_iff_getElem?.1 hq
    rcases getElem?_push.1 hi with hi | ⟨rfl, rfl⟩
    · have hmem := List.mem_of_getElem? hi
      obtain ⟨h1, h2⟩ := hold q hmem
      exact h.reason q hmem c (h2.symm.trans hqr) (h1 ▸ h0)
    · exact hr c (hrea.symm.trans hqr)

/-- A level is opened and a literal decided on it. -/
lemma decideOn (h : Justified s)
    (ht : s.toTrailState.Ok s.variableCount s.eliminatedVariables)
    (hhead : s.propagationHead = s.trail.length) (savePhase : Bool) (hl : s.value l = none) :
    Justified (s.newLevel.assign savePhase l none) := by
  refine (h.newLevel ht).assign (ht.newLevel hhead) savePhase hl none (by simp) fun _ _ => ?_
  simp [Solver.newLevel, TrailState.newLevel, TrailState.decisionLevel]

/-- Storing a clause leaves the others in force. -/
lemma addClauseToDb (h : Justified s) (literals : List Lit) (learned : Bool) :
    Justified (s.addClauseToDb literals learned) :=
  h.of_trail rfl fun _ _ _ _ hc =>
    ⟨ClauseDb.active_add.2 (.inl hc.1), isShadow_addClauseToDb.trans hc.2⟩

end Justified

/-! ### Reduction -/

/-- The reason of an assigned variable is locked. -/
lemma Core.isLocked (h : Core Γ s) {i : ℕ} (hl : l ∈ s.trail)
    (hr : s.reasons l.var = some (.long i)) : s.isLocked i = true := by
  have hlt : l.var < s.variableCount := h.trail.lt _ (by rw [h.trail.assigned l hl]; simp)
  exact List.any_eq_true.2 ⟨l.var, List.mem_range.2 hlt, by simpa using hr⟩

lemma foldl_markClauseDeleted_inForce : ∀ (cs : List ClauseRef) (s : Solver),
    (cs.foldl Solver.markClauseDeleted s).toTrailState = s.toTrailState ∧
      ∀ c, c ∉ cs → s.Active c ∧ s.clauseIsShadow c = false →
        (cs.foldl Solver.markClauseDeleted s).Active c ∧
          (cs.foldl Solver.markClauseDeleted s).clauseIsShadow c = false := by
  intro cs
  induction cs with
  | nil => exact fun s => ⟨rfl, fun _ _ hc => hc⟩
  | cons d cs ih =>
    intro s
    obtain ⟨h1, h2⟩ := ih (s.markClauseDeleted d)
    refine ⟨h1, fun c hc hact => h2 c (fun hm => hc (List.mem_cons_of_mem _ hm)) ⟨?_, ?_⟩⟩
    · exact ClauseDb.active_delete.2 ⟨hact.1, fun he => hc (by simp [he])⟩
    · rw [isShadow_markClauseDeleted]
      exact hact.2

lemma foldl_beginShadowObservation_inForce : ∀ (is : List ℕ) (s : Solver),
    (is.foldl Solver.beginShadowObservation s).toTrailState = s.toTrailState ∧
      ∀ c, (∀ i ∈ is, c ≠ .long i) → s.Active c ∧ s.clauseIsShadow c = false →
        (is.foldl Solver.beginShadowObservation s).Active c ∧
          (is.foldl Solver.beginShadowObservation s).clauseIsShadow c = false := by
  intro is
  induction is with
  | nil => exact fun s => ⟨rfl, fun _ _ hc => hc⟩
  | cons i is ih =>
    intro s
    obtain ⟨h1, h2⟩ := ih (s.beginShadowObservation i)
    refine ⟨h1, fun c hc hact => h2 c (fun j hj => hc j (by simp [hj])) ⟨hact.1, ?_⟩⟩
    exact (isShadow_setShadow (hc i (by simp))).trans hact.2

/-- Locked clauses are neither deleted nor put under observation. -/
lemma Justified.reduceDatabase (h : Justified s) (hs : Core Γ s) (O : Oracle) :
    Justified (s.reduceDatabase O) := by
  rw [Solver.reduceDatabase]
  split
  · exact h.congr rfl rfl rfl
  next deletions shadows _ =>
  dsimp only
  set ds := deletions.dedup.filter s.isRemovable with hds
  set os := shadows.dedup.filter fun i =>
    s.config.shadowClauseReactivation && s.isRemovable i && decide (i ∉ ds) with hos
  obtain ⟨h1, h2⟩ := foldl_markClauseDeleted_inForce (ds.map .long) s.tick
  obtain ⟨h3, h4⟩ := foldl_beginShadowObservation_inForce os
    ((ds.map .long).foldl Solver.markClauseDeleted s.tick)
  refine h.of_trail (h3.trans h1) fun l hl c hr hc => h4 c ?_ (h2 c ?_ hc)
  · rintro i hi rfl
    rw [hos, List.mem_filter] at hi
    simp [isRemovable, hs.isLocked hl hr] at hi
  · intro hm
    obtain ⟨i, hi, rfl⟩ := List.mem_map.1 hm
    rw [hds, List.mem_filter] at hi
    simp [isRemovable, hs.isLocked hl hr] at hi

/-! ### Learning -/

/-- The learned clause is in force, and the reason of its first literal. -/
lemma Justified.assert {L : Learned} (h : Justified s) (hu : Unitary P Γ A L s) :
    Justified (if L.others.isEmpty then (s.enqueue L.asserting none).2
      else ((s.addClauseToDb (L.asserting :: L.others) true).enqueue L.asserting
        (some (s.nextReference (L.asserting :: L.others)))).2) := by
  split
  · next hnil =>
    have h0 := hu.unit (by simpa using hnil)
    rw [enqueue, enqueueInternal_of_none true hu.unassigned]
    exact h.assign hu.core.trail true hu.unassigned none (by simp) fun _ hpos => by omega
  · next hnil =>
    have hun : (s.addClauseToDb (L.asserting :: L.others) true).value L.asserting = none :=
      hu.unassigned
    rw [enqueue, enqueueInternal_of_none true hun]
    refine (h.addClauseToDb _ true).assign (hu.stored (by simpa using hnil)).trail true hun _
      (fun c hc => ?_) (by simp)
    cases hc
    exact ⟨ClauseDb.active_add.2 (.inr rfl),
      isShadow_addClauseToDb.trans hu.core.not_isShadow_next⟩

/-- A step of the search after a conflict. -/
lemma Justified.learn {L : Learned} (h : Justified s) (hc : Conflict Γ (exempt P) c s)
    (hA : Aligned A s.toTrailState) (ha : Analyzed Γ s L s') : Justified (s'.learn O L) := by
  have hadd : Analyzed Γ s L (s'.proofAdd (L.asserting :: L.others)) :=
    { ha with core := ha.core.congr rfl rfl rfl rfl rfl ha.core.branching }
  have hj : Justified (s'.proofAdd (L.asserting :: L.others)) :=
    h.congr hadd.trail hadd.db (congrArg Session.config hadd.session)
  have hback : L.backtrackLevel < (s'.proofAdd (L.asserting :: L.others)).decisionLevel := by
    rw [hadd.trail]
    exact ha.backtrack
  obtain ⟨h1, h2, h3⟩ := determineBacktrackLevel_spec _ (L.asserting :: L.others).length hback
  rw [hadd.trail] at h2
  have hu := hc.unitary hA hadd O h2 h1 fun hnil => by
    rw [h3 (by simp [hnil])]
    exact ha.unit hnil
  exact (hj.cancelUntil hadd.core O _).assert hu

end Solver

end Satrap
