/-
# Learned clauses are entailed

Conflict analysis keeps a set of marked variables with the property that no model of the
given clauses agrees with the trail on all of them.  Resolving on the last marked literal
moves this set towards the start of the trail until it has one variable of the current level
left; the negations of the marked literals are then a clause that every model satisfies.
Minimisation drops literals that the rest implies.
-/
import Satrap.Solver.Analyze
import Satrap.Solver.Backtrack

namespace Satrap

open Logic

namespace Solver

variable {Γ : Set (List Lit)} {s : Solver} {c : ClauseRef} {l q p : Lit}

/-! ### What analysis relies on -/

/-- What conflict analysis uses of the solver invariant: the trail with its reasons, and that
`Γ` entails these reasons, the binary clauses in force and the root assignment. -/
structure Grounded (Γ : Set (List Lit)) (s : Solver) : Prop where
  trail : s.toTrailState.Ok s.variableCount s.eliminatedVariables
  db : s.toClauseDb.Ok s.variableCount s.eliminatedVariables
  reason : ∀ (i : ℕ) (l : Lit) (c : ClauseRef), s.trail[i]? = some l → s.reasons l.var = some c →
    s.Allocated c ∧ l ∈ s.literals c ∧
      ∀ q ∈ s.literals c, q ≠ l → ∃ j < i, s.trail[j]? = some (-q)
  known : ∀ l ∈ s.trail, ∀ c, s.reasons l.var = some c → Entails Γ (s.literals c)
  binary : ∀ c, s.Active c → c.isBinary = true → Entails Γ (s.literals c)
  root : ∀ l ∈ s.trail, s.levels l.var = 0 → Entails Γ [l]
  seen : ∀ v, s.seen v = false

lemma Core.grounded (h : Core Γ s) : Grounded Γ s where
  trail := h.trail
  db := h.db
  reason := h.reason
  known l hl c hr := by
    obtain ⟨i, hi⟩ := List.mem_iff_getElem?.1 hl
    exact h.entailed c (h.reason i l c hi hr).1
  binary c hc _ := h.entailed c hc.1
  root := h.root
  seen := h.seen

lemma Grounded.holds_root (h : Grounded Γ s) {m : ℕ → Bool} (hm : Models m Γ) (hl : l ∈ s.trail)
    (h0 : s.levels l.var = 0) : l.Holds m := by
  simpa using h.root l hl h0 m hm

/-! ### Marking -/

/-- The marked variables of the current level on a part of the trail. -/
def markedCount (t : TrailState) (seen : ℕ → Bool) (pre : List Lit) : ℕ :=
  pre.countP fun l => seen l.var && decide (t.levels l.var = t.decisionLevel)

lemma markedCount_mark {t : TrailState} {seen : ℕ → Bool} {pre : List Lit} {v : ℕ}
    (hnd : (pre.map Literal.var).Nodup) (hv : v ∈ pre.map Literal.var) (hs : seen v = false) :
    markedCount t (Function.update seen v true) pre =
      markedCount t seen pre + if t.levels v = t.decisionLevel then 1 else 0 := by
  induction pre with
  | nil => simp at hv
  | cons l pre ih =>
    simp only [List.map_cons, List.nodup_cons] at hnd
    simp only [markedCount, List.countP_cons]
    by_cases hl : l.var = v
    · have hrest : pre.countP (fun q => Function.update seen v true q.var &&
          decide (t.levels q.var = t.decisionLevel)) =
          pre.countP fun q => seen q.var && decide (t.levels q.var = t.decisionLevel) := by
        refine List.countP_congr fun q hq => ?_
        have hqv : q.var ≠ v := fun he => hnd.1 (hl ▸ he ▸ List.mem_map_of_mem hq)
        rw [Function.update_of_ne hqv]
      rw [hrest, hl, Function.update_self, hs]
      by_cases h0 : t.levels v = t.decisionLevel <;> simp [h0]
    · have hv' : v ∈ pre.map Literal.var := by
        rcases List.mem_cons.1 hv with he | hv
        · exact absurd he.symm hl
        · exact hv
      have := ih hnd.2 hv'
      rw [markedCount, markedCount] at this
      rw [this, Function.update_of_ne hl]
      omega

lemma markedCount_unmark {t : TrailState} {seen : ℕ → Bool} {pre : List Lit}
    (hl : p.var ∉ pre.map Literal.var) :
    markedCount t (Function.update seen p.var false) pre = markedCount t seen pre := by
  refine List.countP_congr fun q hq => ?_
  have hne : q.var ≠ p.var := fun he => hl (he ▸ List.mem_map_of_mem hq)
  rw [Function.update_of_ne hne]

/-- The working data of an analysis that has the part `pre` of the trail before it. -/
structure AnalysisOk (Γ : Set (List Lit)) (s : Solver) (pre : List Lit) (a : Analysis) :
    Prop where
  mem : ∀ v, a.seen v = true → ∃ l ∈ pre, l.var = v ∧ 0 < s.levels v
  learned : ∀ l, l ∈ a.learned ↔ a.seen l.var = true ∧ -l ∈ pre ∧
    s.levels l.var ≠ s.decisionLevel
  nodup : (a.learned.map Literal.var).Nodup
  count : a.pathCount = markedCount s.toTrailState a.seen pre
  touched : ∀ v, a.seen v = true → v ∈ a.touched
  touched_lt : ∀ v ∈ a.touched, v < s.variableCount

/-- No model of `Γ` agrees with the trail on all marked variables. -/
def Refuted (Γ : Set (List Lit)) (s : Solver) (seen : ℕ → Bool) : Prop :=
  ∀ m, Models m Γ → ∃ l ∈ s.trail, seen l.var = true ∧ ¬ l.Holds m

section Absorb

variable {pre : List Lit} {a : Analysis} {resolved : Option Lit}

/-- The literals of a clause that resolution marks. -/
def Marks (s : Solver) (resolved : Option Lit) (literals : List Lit) (v : ℕ) : Prop :=
  ∃ q ∈ literals, q.var = v ∧ isResolved resolved q = false ∧ 0 < s.levels q.var

lemma absorbLiteral_spec (hnd : (pre.map Literal.var).Nodup)
    (ha : AnalysisOk Γ s pre a) (hq : isResolved resolved q = false → -q ∈ pre)
    (hlt : q.var < s.variableCount) :
    AnalysisOk Γ s pre (absorbLiteral s.toTrailState resolved a q) ∧
      ∀ v, (absorbLiteral s.toTrailState resolved a q).seen v = true ↔
        a.seen v = true ∨ Marks s resolved [q] v := by
  rw [absorbLiteral]
  split
  · next hr => exact ⟨ha, fun v => by simp [Marks, hr]⟩
  next hr =>
  have hr : isResolved resolved q = false := by simpa using hr
  have hqpre := hq hr
  split
  · next hs =>
    simp only [Bool.and_eq_true, Bool.not_eq_true', decide_eq_true_eq] at hs
    obtain ⟨hs, h0⟩ := hs
    have hvpre : q.var ∈ pre.map Literal.var :=
      List.mem_map.2 ⟨-q, hqpre, rfl⟩
    have hqnot : q.var ∉ a.learned.map Literal.var := by
      intro hm
      obtain ⟨l, hl, hv⟩ := List.mem_map.1 hm
      have := ((ha.learned l).1 hl).1
      rw [hv, hs] at this
      simp at this
    have huniq : ∀ l, -l ∈ pre → l.var = q.var → l = q := by
      intro l hl hv
      exact neg_inj.1 (List.inj_on_of_nodup_map hnd hl hqpre hv)
    refine ⟨⟨?_, ?_, ?_, ?_, ?_, ?_⟩, ?_⟩
    · intro v hv
      by_cases hvq : v = q.var
      · exact ⟨-q, hqpre, hvq.symm, hvq ▸ h0⟩
      · exact ha.mem v (by simpa [Function.update_of_ne hvq] using hv)
    · intro l
      by_cases hlev : s.levels q.var = s.decisionLevel
      · simp only [if_pos hlev, ha.learned, Function.update_apply]
        by_cases hvq : l.var = q.var
        · simp [hvq, hs, hlev]
        · simp [hvq]
      · simp only [if_neg hlev, List.mem_append, List.mem_singleton, ha.learned,
          Function.update_apply]
        by_cases hvq : l.var = q.var
        · simp only [hvq, hs, Bool.false_eq_true, false_and, false_or, if_true, true_and]
          exact ⟨fun he => by rw [he]; exact ⟨hqpre, hlev⟩, fun h => huniq l h.1 hvq⟩
        · have hne : l ≠ q := fun he => hvq (he ▸ rfl)
          simp [hvq, hne]
    · by_cases hlev : s.levels q.var = s.decisionLevel
      · simpa [hlev] using ha.nodup
      · simp only [if_neg hlev, List.map_append, List.map_cons, List.map_nil]
        exact ha.nodup.append (by simp) (by simpa using hqnot)
    · simp only [markedCount_mark hnd hvpre hs]
      rw [← ha.count]
      split <;> rfl
    · intro v hv
      by_cases hvq : v = q.var
      · simp [hvq]
      · exact List.mem_append_left _ (ha.touched v (by simpa [Function.update_of_ne hvq] using hv))
    · intro v hv
      rcases List.mem_append.1 hv with hv | hv
      · exact ha.touched_lt v hv
      · rw [List.mem_singleton.1 hv]
        exact hlt
    · intro v
      by_cases hvq : v = q.var
      · simp only [hvq, Function.update_self, true_iff]
        exact .inr ⟨q, by simp, rfl, hr, h0⟩
      · simp only [Function.update_of_ne hvq, Marks, List.mem_singleton, exists_eq_left]
        exact ⟨.inl, fun h => h.resolve_right fun h' => hvq h'.1.symm⟩
  · next hs =>
    refine ⟨ha, fun v => ⟨.inl, fun h => h.elim id ?_⟩⟩
    rintro ⟨q', hq', rfl, -, h0⟩
    rw [List.mem_singleton.1 hq'] at h0 ⊢
    simp only [Bool.and_eq_true, Bool.not_eq_true', decide_eq_true_eq, not_and] at hs
    by_contra hse
    exact hs (by simpa using hse) h0

lemma absorbClause_spec (resolved : Option Lit) (hnd : (pre.map Literal.var).Nodup) :
    ∀ (literals : List Lit) (a : Analysis), AnalysisOk Γ s pre a →
      (∀ q ∈ literals, isResolved resolved q = false → -q ∈ pre) →
      (∀ q ∈ literals, q.var < s.variableCount) →
      AnalysisOk Γ s pre (absorbClause s.toTrailState resolved literals a) ∧
        ∀ v, (absorbClause s.toTrailState resolved literals a).seen v = true ↔
          a.seen v = true ∨ Marks s resolved literals v := by
  intro literals
  induction literals with
  | nil => exact fun a ha _ _ => ⟨ha, fun v => by simp [absorbClause, Marks]⟩
  | cons q literals ih =>
    intro a ha hq hlt
    obtain ⟨h1, h2⟩ := absorbLiteral_spec hnd ha (hq q (by simp)) (hlt q (by simp))
    obtain ⟨h3, h4⟩ := ih _ h1 (fun q' hq' => hq q' (by simp [hq']))
      (fun q' hq' => hlt q' (by simp [hq']))
    refine ⟨h3, fun v => (h4 v).trans ?_⟩
    rw [h2 v]
    simp only [Marks, List.mem_cons, exists_eq_or_imp, List.not_mem_nil, or_false,
      exists_eq_left, or_assoc]

end Absorb

/-! ### Resolution -/

/-- What the resolution loop has found when it ends at the first unique implication point. -/
structure Resolved (Γ : Set (List Lit)) (s : Solver) (asserting : Lit) (a : Analysis) : Prop where
  mem : -asserting ∈ s.trail
  level : s.levels asserting.var = s.decisionLevel
  unmarked : a.seen asserting.var = false
  learned : ∀ l, l ∈ a.learned ↔ a.seen l.var = true ∧ -l ∈ s.trail
  below : ∀ l ∈ a.learned, 0 < s.levels l.var ∧ s.levels l.var < s.decisionLevel
  nodup : (a.learned.map Literal.var).Nodup
  marked : ∀ v, a.seen v = true → ∃ l ∈ s.trail, l.var = v
  touched : ∀ v, a.seen v = true → v ∈ a.touched
  touched_lt : ∀ v ∈ a.touched, v < s.variableCount
  entailed : Entails Γ (asserting :: a.learned)

/-- Resolving with the reason of the last marked literal. -/
lemma Refuted.resolve (h : Grounded Γ s) {seen seen' : ℕ → Bool} (href : Refuted Γ s seen)
    {i : ℕ} (hp : s.trail[i]? = some p) (hr : s.reasons p.var = some c)
    (hseen : ∀ v, seen' v = true ↔
      (v ≠ p.var ∧ seen v = true) ∨ Marks s (some p) (s.literals c) v) :
    Refuted Γ s seen' := by
  intro m hm
  obtain ⟨l, hl, hs, hlm⟩ := href m hm
  by_cases hlp : l.var = p.var
  · obtain ⟨hc, hpc, hothers⟩ := h.reason i p c hp hr
    have hlp' : l = p := List.inj_on_of_nodup_map h.trail.nodup hl (List.mem_of_getElem? hp) hlp
    by_contra hall
    push Not at hall
    refine hlm (hlp' ▸ (h.known p (List.mem_of_getElem? hp) c hr m hm).holds_of_others
      fun q hq hqp => ?_)
    obtain ⟨j, -, hj⟩ := hothers q hq hqp
    have hqmem := List.mem_of_getElem? hj
    rcases Nat.eq_zero_or_pos (s.levels q.var) with h0 | h0
    · exact h.holds_root hm hqmem h0
    · refine hall (-q) hqmem ((hseen q.var).2 (.inr ⟨q, hq, rfl, ?_, h0⟩))
      have hv : p.var ≠ q.var := fun hv => hqp (h.db.var_inj hc hq hpc hv.symm)
      simp [isResolved, hv]
  · exact ⟨l, hl, (hseen l.var).2 (.inl ⟨hlp, hs⟩), hlm⟩

/-- Marked literals of the current level stand last on the trail. -/
lemma Grounded.level_eq_of_last (h : Grounded Γ s) {pre : List Lit}
    (hpre : pre ++ [p] <+: s.trail) {seen : ℕ → Bool}
    (hpos : 0 < markedCount s.toTrailState seen (pre ++ [p])) :
    s.levels p.var = s.decisionLevel := by
  obtain ⟨l, hl, hls⟩ := List.countP_pos_iff.1 hpos
  simp only [Bool.and_eq_true, decide_eq_true_eq] at hls
  obtain ⟨i, hi, hil⟩ := List.mem_iff_getElem.1 hl
  have hlen : i ≤ pre.length := by simpa using Nat.lt_succ_iff.1 (by simpa using hi)
  obtain ⟨u, hu⟩ := hpre
  have hp : s.trail[pre.length]? = some p := by
    rw [← hu]
    simp
  have hil' : s.trail[i]? = some l := by
    rw [← hu, List.getElem?_append_left hi, List.getElem?_eq_getElem hi, hil]
  refine le_antisymm (h.trail.level_le (List.mem_of_getElem? hp)) ?_
  rw [← hls.2, h.trail.level i l hil', h.trail.level _ p hp]
  exact TrailState.Ok.levelAt_mono hlen

section Walk

variable {pre rev : List Lit} {a : Analysis} {k : ℕ}

/-- A literal without a mark is passed over. -/
lemma AnalysisOk.skip (ha : AnalysisOk Γ s (pre ++ [p]) a) (hs : a.seen p.var ≠ true) :
    AnalysisOk Γ s pre a := by
  refine ⟨fun v hv => ?_, fun l => ?_, ha.nodup, ?_, ha.touched, ha.touched_lt⟩
  · obtain ⟨l, hl, hlv, h0⟩ := ha.mem v hv
    rcases List.mem_append.1 hl with hl | hl
    · exact ⟨l, hl, hlv, h0⟩
    · rw [List.mem_singleton.1 hl] at hlv
      exact absurd (hlv ▸ hv) hs
  · rw [ha.learned]
    refine and_congr_right fun hv => and_congr_left fun _ => ?_
    rw [List.mem_append, List.mem_singleton]
    refine ⟨fun hm => hm.resolve_right fun hlp => hs ?_, .inl⟩
    rw [← hlp]
    exact hv
  · rw [ha.count, markedCount, List.countP_append]
    simp [markedCount, hs]

/-- The state of the analysis once the literal at hand has lost its mark. -/
def unmarked (a : Analysis) (v k : ℕ) : Analysis :=
  { a with seen := Function.update a.seen v false, pathCount := k }

/-- The last marked literal is of the current level, and loses its mark. -/
lemma Grounded.unmark (h : Grounded Γ s) (hpre : pre ++ [p] <+: s.trail)
    (ha : AnalysisOk Γ s (pre ++ [p]) a) (hs : a.seen p.var = true) (hk : a.pathCount = k + 1) :
    s.levels p.var = s.decisionLevel ∧ AnalysisOk Γ s pre (unmarked a p.var k) := by
  have hnd : ((pre ++ [p]).map Literal.var).Nodup :=
    h.trail.nodup.sublist (hpre.sublist.map _)
  have hpnot : p.var ∉ pre.map Literal.var := by
    intro hm
    rw [List.map_append] at hnd
    exact (List.nodup_append.1 hnd).2.2 _ hm p.var (by simp) rfl
  have hlev : s.levels p.var = s.decisionLevel :=
    h.level_eq_of_last hpre (by rw [← ha.count, hk]; exact Nat.succ_pos _)
  have hcount : k = markedCount s.toTrailState (Function.update a.seen p.var false) pre := by
    rw [markedCount_unmark hpnot]
    have := ha.count
    rw [hk, markedCount, List.countP_append] at this
    simp only [List.countP_singleton, hs, hlev, decide_true, Bool.and_self, if_true] at this
    exact Nat.succ.inj this
  refine ⟨hlev, fun v hv => ?_, fun l => ?_, ha.nodup, hcount, fun v hv => ha.touched v ?_,
    ha.touched_lt⟩
  · rw [unmarked] at hv
    by_cases hvp : v = p.var
    · simp [hvp] at hv
    · obtain ⟨l, hl, hlv, h0⟩ := ha.mem v (by simpa [Function.update_of_ne hvp] using hv)
      rcases List.mem_append.1 hl with hl | hl
      · exact ⟨l, hl, hlv, h0⟩
      · rw [List.mem_singleton.1 hl] at hlv
        exact absurd hlv.symm hvp
  · simp only [unmarked, ha.learned]
    by_cases hlp : l.var = p.var
    · rw [hlp, Function.update_self]
      simp [hlev]
    · rw [Function.update_of_ne hlp]
      have hne : -l ≠ p := fun he => hlp (by rw [← he]; rfl)
      simp [hne]
  · rw [unmarked] at hv
    by_cases hvp : v = p.var
    · simp [hvp] at hv
    · simpa [Function.update_of_ne hvp] using hv

/-- Marking the reason of the literal at hand. -/
lemma Grounded.absorb (h : Grounded Γ s) (hpre : pre <+: s.trail)
    (hp : s.trail[pre.length]? = some p) (ha : AnalysisOk Γ s pre a)
    (hr : s.reasons p.var = some c) :
    AnalysisOk Γ s pre (absorbClause s.toTrailState (some p) (s.literals c) a) ∧
      ∀ v, (absorbClause s.toTrailState (some p) (s.literals c) a).seen v = true ↔
        a.seen v = true ∨ Marks s (some p) (s.literals c) v := by
  obtain ⟨hc, hpc, hothers⟩ := h.reason _ p c hp hr
  refine absorbClause_spec (some p) (h.trail.nodup.sublist (hpre.sublist.map _))
    (s.literals c) _ ha (fun q hq hqr => ?_) fun q hq => h.db.lt c hc q hq
  have hqp : q ≠ p := by rintro rfl; simp [isResolved] at hqr
  obtain ⟨j, hj, hjq⟩ := hothers q hq hqp
  obtain ⟨u, hu⟩ := hpre
  rw [← hu, List.getElem?_append_left hj] at hjq
  exact List.mem_of_getElem? hjq

/-- No marked literal of the current level is left: the first unique implication point. -/
lemma Grounded.resolved (h : Grounded Γ s) (hpre : pre ++ [p] <+: s.trail)
    (hlev : s.levels p.var = s.decisionLevel) (href : Refuted Γ s a.seen)
    (ha : AnalysisOk Γ s pre (unmarked a p.var 0)) :
    Resolved Γ s (-p) (unmarked a p.var 0) := by
  have hpre' : pre <+: s.trail := (List.prefix_append _ _).trans hpre
  have hpmem : p ∈ s.trail := hpre.subset (by simp)
  have hnone : ∀ l ∈ pre, (unmarked a p.var 0).seen l.var = true →
      s.levels l.var ≠ s.decisionLevel := by
    intro l hl hls hll
    have : 0 < markedCount s.toTrailState (unmarked a p.var 0).seen pre := by
      refine List.countP_pos_iff.2 ⟨l, hl, ?_⟩
      simp only [hls, Bool.true_and, decide_eq_true_eq]
      exact hll
    rw [← ha.count] at this
    exact absurd this (lt_irrefl _)
  have hlearned : ∀ l, l ∈ (unmarked a p.var 0).learned ↔
      (unmarked a p.var 0).seen l.var = true ∧ -l ∈ s.trail := by
    intro l
    rw [ha.learned]
    refine and_congr_right fun hls => ⟨fun hl => hpre'.subset hl.1, fun hl => ?_⟩
    obtain ⟨l', hl', hv, -⟩ := ha.mem l.var hls
    have : l' = -l := List.inj_on_of_nodup_map h.trail.nodup (hpre'.subset hl') hl hv
    rw [this] at hl'
    exact ⟨hl', hnone (-l) hl' hls⟩
  refine ⟨by rwa [neg_neg], hlev, ?_, hlearned, ?_, ha.nodup, fun v hv => ?_, ha.touched,
    ha.touched_lt, ?_⟩
  · simp [unmarked]
  · intro l hl
    obtain ⟨hls, hlp, hll⟩ := (ha.learned l).1 hl
    obtain ⟨-, -, -, hpos⟩ := ha.mem l.var hls
    have hle := h.trail.level_le (hpre'.subset hlp)
    rw [Literal.var_neg] at hle
    exact ⟨hpos, lt_of_le_of_ne hle hll⟩
  · obtain ⟨l, hl, hlv, -⟩ := ha.mem v hv
    exact ⟨l, hpre'.subset hl, hlv⟩
  · intro m hm
    obtain ⟨l, hl, hls, hlm⟩ := href m hm
    by_cases hlp : l.var = p.var
    · have : l = p := List.inj_on_of_nodup_map h.trail.nodup hl hpmem hlp
      exact ⟨-p, by simp, Literal.holds_neg.2 (this ▸ hlm)⟩
    · refine ⟨-l, List.mem_cons_of_mem _ ((hlearned (-l)).2 ?_), Literal.holds_neg.2 hlm⟩
      simp only [unmarked]
      rw [Literal.var_neg, Function.update_of_ne hlp, neg_neg]
      exact ⟨hls, hl⟩

lemma resolveTrail_spec (h : Grounded Γ s) :
    ∀ (rev : List Lit) (a : Analysis), rev.reverse <+: s.trail →
      AnalysisOk Γ s rev.reverse a → Refuted Γ s a.seen →
      ∀ asserting a', resolveTrail s rev a = some (asserting, a') →
        Resolved Γ s asserting a' := by
  intro rev
  induction rev with
  | nil => intro a _ _ _ asserting a' he; simp [resolveTrail] at he
  | cons p rev ih =>
    intro a hpre ha href asserting a' he
    rw [List.reverse_cons] at hpre ha
    have hpre' : rev.reverse <+: s.trail := (List.prefix_append _ _).trans hpre
    rw [resolveTrail] at he
    split at he
    swap
    · next hs => exact ih a hpre' (ha.skip hs) href asserting a' he
    next hs =>
    cases hcount : a.pathCount with
    | zero => rw [hcount] at he; simp at he
    | succ k =>
      rw [hcount] at he
      dsimp only at he
      obtain ⟨hlev, ha'⟩ := h.unmark hpre ha hs hcount
      split at he
      · next h0 =>
        subst h0
        obtain ⟨rfl, rfl⟩ := Prod.mk.inj (Option.some.inj he)
        exact h.resolved hpre hlev href ha'
      · cases hr : s.reasons p.var with
        | none => rw [hr] at he; simp at he
        | some c =>
          rw [hr] at he
          have hp : s.trail[rev.reverse.length]? = some p := by
            obtain ⟨u, hu⟩ := hpre
            rw [← hu]
            simp
          obtain ⟨h1, h2⟩ := h.absorb hpre' hp ha' hr
          refine ih _ hpre' h1 (href.resolve h hp hr fun v => (h2 v).trans ?_) asserting a' he
          refine or_congr_left ?_
          simp only [unmarked]
          by_cases hvp : v = p.var
          · simp [hvp]
          · simp [hvp]

end Walk

/-- The conflict clause starts the analysis. -/
lemma Grounded.analysis_start (h : Grounded Γ s) (hc : s.Allocated c)
    (he : Entails Γ (s.literals c)) (hf : ∀ q ∈ s.literals c, -q ∈ s.trail) :
    AnalysisOk Γ s s.trail (absorbClause s.toTrailState none (s.literals c) ⟨s.seen, [], [], 0⟩) ∧
      Refuted Γ s (absorbClause s.toTrailState none (s.literals c) ⟨s.seen, [], [], 0⟩).seen ∧
      ∀ q ∈ s.literals c, 0 < s.levels q.var →
        (absorbClause s.toTrailState none (s.literals c) ⟨s.seen, [], [], 0⟩).seen q.var =
          true := by
  have hstart : AnalysisOk Γ s s.trail ⟨s.seen, [], [], 0⟩ := by
    refine ⟨fun v hv => ?_, fun l => ?_, by simp, ?_, fun v hv => ?_, by simp⟩
    · simp [h.seen v] at hv
    · simp [h.seen l.var]
    · symm
      rw [markedCount, List.countP_eq_zero]
      intro l _
      simp [h.seen l.var]
    · simp [h.seen v] at hv
  obtain ⟨h1, h2⟩ := absorbClause_spec none h.trail.nodup (s.literals c) _ hstart
    (fun q hq _ => hf q hq) fun q hq => h.db.lt c hc q hq
  refine ⟨h1, fun m hm => ?_, fun q hq h0 => (h2 q.var).2 (.inr ⟨q, hq, rfl, rfl, h0⟩)⟩
  obtain ⟨q, hq, hqm⟩ := he m hm
  have hneg : ¬ (-q).Holds m := fun hn => Literal.holds_neg.1 hn hqm
  refine ⟨-q, hf q hq, (h2 q.var).2 (.inr ⟨q, hq, rfl, rfl, ?_⟩), hneg⟩
  by_contra h0
  exact hneg (h.holds_root hm (hf q hq) (Nat.le_zero.1 (Nat.le_of_not_lt h0)))

/-! ### Minimisation -/

/-- The assignment of the variable is implied by root assignments and marked variables. -/
def ImpliedBy (s : Solver) (seen : ℕ → Bool) (v : ℕ) : Prop :=
  ∃ c, s.reasons v = some c ∧
    ∀ q ∈ s.literals c, q.var ≠ v → s.levels q.var = 0 ∨ seen q.var = true

/-- Every marked variable is in the base `B` or implied. -/
def Closed (s : Solver) (seen : ℕ → Bool) (B : ℕ → Prop) : Prop :=
  ∀ v, seen v = true → B v ∨ s.ImpliedBy seen v

lemma ImpliedBy.mono {seen seen' : ℕ → Bool} {v : ℕ} (h : s.ImpliedBy seen v)
    (hsub : ∀ w, seen w = true → seen' w = true) : s.ImpliedBy seen' v := by
  obtain ⟨c, hr, hq⟩ := h
  exact ⟨c, hr, fun q hqc hqv => (hq q hqc hqv).imp_right (hsub q.var)⟩

lemma Closed.mono {seen : ℕ → Bool} {B B' : ℕ → Prop} (h : s.Closed seen B)
    (hB : ∀ v, B v → B' v) : s.Closed seen B' := fun v hv => (h v hv).imp_left (hB v)

/-- A model that agrees with the trail on the base agrees with it on all marked variables. -/
lemma Closed.holds (h : Grounded Γ s) {seen : ℕ → Bool} {B : ℕ → Prop} (hclosed : s.Closed seen B)
    {m : ℕ → Bool} (hm : Models m Γ) (hB : ∀ l ∈ s.trail, B l.var → l.Holds m) :
    ∀ l ∈ s.trail, seen l.var = true → l.Holds m := by
  -- by strong induction on the position on the trail
  have hind : ∀ (i : ℕ) (l : Lit), s.trail[i]? = some l → seen l.var = true → l.Holds m := by
    intro i
    induction i using Nat.strong_induction_on with
    | _ i ih =>
      intro l hl hs
      rcases hclosed l.var hs with hb | ⟨c, hr, hq⟩
      · exact hB l (List.mem_of_getElem? hl) hb
      · obtain ⟨hc, hlc, hothers⟩ := h.reason i l c hl hr
        refine (h.known l (List.mem_of_getElem? hl) c hr m hm).holds_of_others fun q hqc hql => ?_
        obtain ⟨j, hj, hjq⟩ := hothers q hqc hql
        have hqv : q.var ≠ l.var := fun hv => hql (h.db.var_inj hc hqc hlc hv)
        rcases hq q hqc hqv with h0 | hsq
        · exact h.holds_root hm (List.mem_of_getElem? hjq) h0
        · exact ih j hj (-q) hjq hsq
  intro l hl hs
  obtain ⟨i, hi⟩ := List.mem_iff_getElem?.1 hl
  exact hind i l hi hs

/-- Marks are only added, and recorded. -/
structure Redundancy.Extends (r r' : Redundancy) : Prop where
  sub : ∀ v, r.seen v = true → r'.seen v = true
  added : ∀ v, r'.seen v = true → r.seen v = true ∨ v ∈ r'.added
  keep : ∀ v ∈ r.added, v ∈ r'.added

lemma Redundancy.Extends.refl (r : Redundancy) : r.Extends r :=
  ⟨fun _ => id, fun _ => .inl, fun _ => id⟩

lemma Redundancy.Extends.trans {r r' r'' : Redundancy} (h : r.Extends r') (h' : r'.Extends r'') :
    r.Extends r'' where
  sub v hv := h'.sub v (h.sub v hv)
  added v hv := (h'.added v hv).elim (fun hv => (h.added v hv).imp_right (h'.keep v)) .inr
  keep v hv := h'.keep v (h.keep v hv)

section Redundant

variable {levels : ℕ} {candidate : Lit} {B : ℕ → Prop}

/-- Every marked variable is in the base, implied, or waits on the stack. -/
def StackClosed (s : Solver) (B : ℕ → Prop) (r : Redundancy) : Prop :=
  s.Closed r.seen fun v => B v ∨ ∃ q ∈ r.stack, q.var = v

lemma visitAntecedent_spec {r r' : Redundancy}
    (hr : visitAntecedent s.toTrailState levels candidate r q = some r')
    (hclosed : StackClosed s B r) :
    StackClosed s B r' ∧ r.Extends r' ∧
      (q.var ≠ candidate.var → s.levels q.var = 0 ∨ r'.seen q.var = true) := by
  rw [visitAntecedent] at hr
  split at hr
  · next he =>
    obtain rfl := Option.some.inj hr
    exact ⟨hclosed, .refl r, fun hne => absurd he hne⟩
  split at hr
  · next he =>
    obtain rfl := Option.some.inj hr
    exact ⟨hclosed, .refl r, fun _ => he⟩
  split at hr
  · obtain rfl := Option.some.inj hr
    have hsub : ∀ w, r.seen w = true → Function.update r.seen q.var true w = true := by
      intro w hw
      by_cases hwq : w = q.var
      · rw [hwq, Function.update_self]
      · rw [Function.update_of_ne hwq]
        exact hw
    refine ⟨fun v hv => ?_, ⟨hsub, fun v hv => ?_, fun v hv => List.mem_append_left _ hv⟩,
      fun _ => .inr (by simp)⟩
    · by_cases hvq : v = q.var
      · exact .inl (.inr ⟨q, by simp, hvq.symm⟩)
      · have hv : r.seen v = true := by simpa [Function.update_of_ne hvq] using hv
        rcases hclosed v hv with (hb | ⟨p, hp, hpv⟩) | hi
        · exact .inl (.inl hb)
        · exact .inl (.inr ⟨p, List.mem_cons_of_mem _ hp, hpv⟩)
        · exact .inr (hi.mono hsub)
    · by_cases hvq : v = q.var
      · exact .inr (by simp [hvq])
      · exact .inl (by simpa [Function.update_of_ne hvq] using hv)
  · simp at hr

lemma visitAntecedents_spec :
    ∀ (literals : List Lit) (r r' : Redundancy),
      literals.foldlM (visitAntecedent s.toTrailState levels candidate) r = some r' →
      StackClosed s B r →
      StackClosed s B r' ∧ r.Extends r' ∧
        ∀ q ∈ literals, q.var ≠ candidate.var → s.levels q.var = 0 ∨ r'.seen q.var = true := by
  intro literals
  induction literals with
  | nil =>
    intro r r' hr hclosed
    obtain rfl : r = r' := by simpa using hr
    exact ⟨hclosed, .refl r, by simp⟩
  | cons q literals ih =>
    intro r r' hr hclosed
    rw [List.foldlM_cons] at hr
    obtain ⟨r₁, h1, h2⟩ := Option.bind_eq_some_iff.1 hr
    obtain ⟨hc1, he1, hq1⟩ := visitAntecedent_spec h1 hclosed
    obtain ⟨hc2, he2, hq2⟩ := ih r₁ r' h2 hc1
    refine ⟨hc2, he1.trans he2, fun p hp hpc => ?_⟩
    rcases List.mem_cons.1 hp with rfl | hp
    · exact (hq1 hpc).imp_right (he2.sub _)
    · exact hq2 p hp hpc

lemma redundantLoop_spec :
    ∀ (fuel : ℕ) (r r' : Redundancy), redundantLoop s levels fuel r = some (some r') →
      StackClosed s B r → s.Closed r'.seen B ∧ r.Extends r' := by
  have hempty : ∀ r : Redundancy, r.stack = [] → StackClosed s B r → s.Closed r.seen B := by
    intro r hs hclosed
    refine hclosed.mono fun v hv => hv.resolve_right ?_
    simp [hs]
  intro fuel
  induction fuel with
  | zero =>
    intro r r' hr hclosed
    rw [redundantLoop] at hr
    split at hr
    · next hs =>
      obtain rfl := Option.some.inj (Option.some.inj hr)
      exact ⟨hempty r (by simpa using hs) hclosed, .refl r⟩
    · simp at hr
  | succ fuel ih =>
    intro r r' hr hclosed
    rw [redundantLoop] at hr
    split at hr
    · next hs =>
      obtain rfl := Option.some.inj (Option.some.inj hr)
      exact ⟨hempty r hs hclosed, .refl r⟩
    · next candidate stack hs =>
      split at hr
      · simp at hr
      next reason hreason =>
      split at hr
      · simp at hr
      next r₁ hr₁ =>
      -- the candidate stays in the base until its antecedents have been looked at
      have hstart : StackClosed s (fun v => B v ∨ v = candidate.var) { r with stack := stack } := by
        refine hclosed.mono fun v hv => ?_
        rcases hv with hb | ⟨q, hq, rfl⟩
        · exact .inl (.inl hb)
        · rw [hs] at hq
          rcases List.mem_cons.1 hq with rfl | hq
          · exact .inl (.inr rfl)
          · exact .inr ⟨q, hq, rfl⟩
      obtain ⟨hc1, he1, hq1⟩ := visitAntecedents_spec _ _ _ hr₁ hstart
      have hc1' : StackClosed s B r₁ := by
        intro v hv
        rcases hc1 v hv with ((hb | rfl) | hst) | hi
        · exact .inl (.inl hb)
        · exact .inr ⟨reason, hreason, hq1⟩
        · exact .inl (.inr hst)
        · exact .inr hi
      obtain ⟨hc2, he2⟩ := ih r₁ r' hr hc1'
      have he : r.Extends r₁ := ⟨he1.sub, he1.added, he1.keep⟩
      exact ⟨hc2, he.trans he2⟩

end Redundant

/-- What minimisation guarantees: `kept` are the literals that stay, and every other literal
is implied by them. -/
structure Minimized (s : Solver) (seen seen' : ℕ → Bool) (literals kept : List Lit)
    (added : List ℕ) : Prop where
  sublist : kept.Sublist literals
  sub : ∀ v, seen v = true → seen' v = true
  added : ∀ v, seen' v = true → seen v = true ∨ v ∈ added

lemma minimizeLiterals_spec (levels : ℕ) :
    ∀ (literals : List Lit) (seen : ℕ → Bool) (B : ℕ → Prop) (kept : List Lit)
      (seen' : ℕ → Bool) (added : List ℕ),
      minimizeLiterals s levels literals seen = some (kept, seen', added) →
      s.Closed seen (fun v => B v ∨ ∃ q ∈ literals, q.var = v) →
      Minimized s seen seen' literals kept added ∧
      s.Closed seen' (fun v => B v ∨ ∃ q ∈ kept, q.var = v) := by
  intro literals
  induction literals with
  | nil =>
    intro seen B kept seen' added he hclosed
    obtain ⟨rfl, rfl, rfl⟩ : [] = kept ∧ seen = seen' ∧ [] = added := by
      simpa [minimizeLiterals] using he
    exact ⟨⟨.slnil, fun _ => id, fun _ => .inl⟩, hclosed⟩
  | cons l literals ih =>
    intro seen B kept seen' added he hclosed
    -- the literal stays when it has no reason or an antecedent blocks it
    have hkeep : (minimizeLiterals s levels literals seen).map (fun r => (l :: r.1, r.2)) =
          some (kept, seen', added) →
        Minimized s seen seen' (l :: literals) kept added ∧
          s.Closed seen' (fun v => B v ∨ ∃ q ∈ kept, q.var = v) := by
      intro he
      obtain ⟨⟨kept', seen'', added'⟩, he', heq⟩ := Option.map_eq_some_iff.1 he
      obtain ⟨rfl, rfl, rfl⟩ : l :: kept' = kept ∧ seen'' = seen' ∧ added' = added := by
        simpa using heq
      obtain ⟨h1, h2⟩ := ih seen (fun v => B v ∨ l.var = v) _ _ _ he' (hclosed.mono fun v hv => by
        rcases hv with hb | ⟨q, hq, rfl⟩
        · exact .inl (.inl hb)
        · rcases List.mem_cons.1 hq with rfl | hq
          · exact .inl (.inr rfl)
          · exact .inr ⟨q, hq, rfl⟩)
      refine ⟨⟨h1.sublist.cons_cons l, h1.sub, h1.added⟩, h2.mono fun v hv => ?_⟩
      rcases hv with (hb | rfl) | ⟨q, hq, rfl⟩
      · exact .inl hb
      · exact .inr ⟨l, by simp, rfl⟩
      · exact .inr ⟨q, by simp [hq], rfl⟩
    rw [minimizeLiterals] at he
    split at he
    swap
    · exact hkeep he
    rw [literalRedundant] at he
    cases hred : redundantLoop s levels (s.variableCount + 1) ⟨seen, [], [l]⟩ with
    | none => rw [hred] at he; simp at he
    | some answer =>
      cases answer with
      | none => rw [hred] at he; exact hkeep he
      | some r =>
        rw [hred] at he
        obtain ⟨⟨kept', seen'', added'⟩, he', heq⟩ := Option.map_eq_some_iff.1 he
        obtain ⟨rfl, rfl, rfl⟩ : kept' = kept ∧ seen'' = seen' ∧ r.added ++ added' = added := by
          simpa using heq
        have hstart : StackClosed s (fun v => B v ∨ ∃ q ∈ literals, q.var = v)
            ⟨seen, [], [l]⟩ := by
          refine hclosed.mono fun v hv => ?_
          rcases hv with hb | ⟨q, hq, rfl⟩
          · exact .inl (.inl hb)
          · rcases List.mem_cons.1 hq with rfl | hq
            · exact .inr ⟨q, by simp, rfl⟩
            · exact .inl (.inr ⟨q, hq, rfl⟩)
        obtain ⟨hc, hext⟩ := redundantLoop_spec _ _ _ hred hstart
        obtain ⟨h1, h2⟩ := ih r.seen B _ _ _ he' hc
        refine ⟨⟨h1.sublist.cons l, fun v hv => h1.sub v (hext.sub v hv), fun v hv => ?_⟩, h2⟩
        rcases h1.added v hv with hv | hv
        · exact (hext.added v hv).imp_right fun hv => List.mem_append_left _ hv
        · exact .inr (List.mem_append_right _ hv)

/-- A clause stays entailed when literals are dropped that the kept ones imply. -/
lemma Closed.entails (h : Grounded Γ s) {seen : ℕ → Bool} {asserting : Lit}
    {learned kept : List Lit}
    (hclosed : s.Closed seen fun v => ∃ q ∈ kept, q.var = v)
    (hkept : ∀ q ∈ kept, -q ∈ s.trail) (hlearned : ∀ q ∈ learned, -q ∈ s.trail)
    (hseen : ∀ q ∈ learned, seen q.var = true) (he : Entails Γ (asserting :: learned)) :
    Entails Γ (asserting :: kept) := by
  intro m hm
  by_contra hnot
  have hfalse : ∀ q ∈ kept, (-q).Holds m := fun q hq =>
    Literal.holds_neg.2 fun hqm => hnot ⟨q, List.mem_cons_of_mem _ hq, hqm⟩
  have hall := hclosed.holds h hm fun l hl ⟨q, hq, hv⟩ => by
    have : -q = l := List.inj_on_of_nodup_map h.trail.nodup (hkept q hq) hl hv
    exact this ▸ hfalse q hq
  obtain ⟨q, hq, hqm⟩ := he m hm
  rcases List.mem_cons.1 hq with rfl | hq
  · exact hnot ⟨q, by simp, hqm⟩
  · exact Literal.holds_neg.1 (hall (-q) (hlearned q hq) (hseen q hq)) hqm

/-- Binary minimisation resolves with binary clauses of the asserting literal. -/
lemma Grounded.entails_binary (h : Grounded Γ s) {asserting : Lit} {learned : List Lit}
    (hlearned : ∀ q ∈ learned, -q ∈ s.trail) (he : Entails Γ (asserting :: learned)) :
    Entails Γ (asserting :: binaryResolutionMinimize s asserting learned) := by
  intro m hm
  obtain ⟨q, hq, hqm⟩ := he m hm
  rcases List.mem_cons.1 hq with rfl | hq
  · exact ⟨q, by simp, hqm⟩
  by_cases hkeep : q ∈ binaryResolutionMinimize s asserting learned
  · exact ⟨q, List.mem_cons_of_mem _ hkeep, hqm⟩
  -- the binary clause whose other literal is the negation of the dropped one
  rw [binaryResolutionMinimize, List.mem_filter, not_and] at hkeep
  have hw := hkeep hq
  simp only [Bool.not_eq_true', Bool.not_eq_false, List.any_eq_true, Bool.and_eq_true,
    decide_eq_true_eq] at hw
  obtain ⟨w, hw, ⟨⟨hb, hd⟩, hv⟩, ht⟩ := hw
  obtain ⟨hc, hsound⟩ := h.db.sound asserting w hw
  obtain ⟨hwatch, hbl, hne⟩ := hsound hd
  have hblocker : w.blocker = -q := by
    have hqf := h.trail.value_of_mem (hlearned q hq)
    rcases Literal.eq_or_eq_neg_of_var_eq hv with he | he
    · rw [he] at ht
      rw [TrailState.value_neg_eq_true_iff, ht] at hqf
      simp at hqf
    · exact he
  have hlen := (h.db.length w.clause hc).2.1 hb
  obtain ⟨a, b, hab⟩ := List.length_eq_two.1 hlen
  have hlits : s.literals w.clause = [a, b] := hab
  rw [ClauseDb.watched, hab] at hwatch
  rw [hab] at hbl
  obtain ⟨p, hp, hpm⟩ := h.binary w.clause ⟨hc, hd⟩ hb m hm
  have hpa : p = asserting ∨ p = w.blocker := by
    rw [hlits] at hp
    simp only [List.take_succ_cons, List.take_zero, List.mem_cons, List.not_mem_nil,
      or_false] at hwatch hbl hp
    grind
  rcases hpa with rfl | rfl
  · exact ⟨p, by simp, hpm⟩
  · rw [hblocker] at hpm
    exact absurd hqm (Literal.holds_neg.1 hpm)

/-! ### The literal of highest level -/

lemma highestLevel_spec (t : TrailState) : ∀ literals : List Lit, literals ≠ [] →
    ∃ q, literals[highestLevel t literals]? = some q ∧
      ∀ p ∈ literals, t.levels p.var ≤ t.levels q.var := by
  intro literals
  induction literals with
  | nil => exact fun hne => absurd rfl hne
  | cons l rest ih =>
    intro _
    rw [highestLevel]
    split
    · next hany =>
      simp only [List.any_eq_true, decide_eq_true_eq] at hany
      obtain ⟨q, hq, hlt⟩ := hany
      obtain ⟨r, hr, hmax⟩ := ih (List.ne_nil_of_mem hq)
      refine ⟨r, by simpa using hr, fun p hp => ?_⟩
      rcases List.mem_cons.1 hp with rfl | hp
      · exact hlt.le.trans (hmax q hq)
      · exact hmax p hp
    · next hany =>
      simp only [List.any_eq_true, decide_eq_true_eq, not_exists, not_and, Nat.not_lt] at hany
      refine ⟨l, by simp, fun p hp => ?_⟩
      rcases List.mem_cons.1 hp with rfl | hp
      · exact le_rfl
      · exact hany p hp

lemma highestFirst_spec (t : TrailState) (literals : List Lit) :
    (highestFirst t literals).Perm literals ∧
      ∀ q, (highestFirst t literals).head? = some q →
        ∀ p ∈ literals, t.levels p.var ≤ t.levels q.var := by
  match literals with
  | [] => exact ⟨.refl _, fun q hq => by simp [highestFirst] at hq⟩
  | l :: rest =>
    obtain ⟨r, hr, hmax⟩ := highestLevel_spec t (l :: rest) (by simp)
    rw [highestFirst]
    split
    · next h0 =>
      rw [h0] at hr
      obtain rfl : l = r := by simpa using hr
      exact ⟨.refl _, fun q hq => by simpa [← show l = q by simpa using hq] using hmax⟩
    · next k hk =>
      rw [hk, List.getElem?_cons_succ] at hr
      have hget : rest.getD k l = r := by rw [List.getD_eq_getElem?_getD, hr, Option.getD_some]
      rw [hget]
      exact ⟨ClauseDb.perm_cons_set l hr, fun q hq => by
        simpa [← show r = q by simpa using hq] using hmax⟩

/-! ### The decision structures -/

lemma branching_rescore (O : Oracle) (h : Core Γ s) :
    (s.rescore O).toBranching.Ok s.variableCount s.assignments s.usesTransferBranching :=
  h.branching.of_same (h.branching.order.same_foldl_update _)
    (fun ht => (h.branching.transferOrder ht).same_foldl_update _) ⟨h.branching.vmtf, rfl⟩

/-! ### The learned clause -/

/-- What `analyze` guarantees of the clause it returns. -/
structure Derived (Γ : Set (List Lit)) (s : Solver) (L : Learned) : Prop where
  entailed : Entails Γ (L.asserting :: L.others)
  nodup : ((L.asserting :: L.others).map Literal.var).Nodup
  mem : -L.asserting ∈ s.trail
  level : s.levels L.asserting.var = s.decisionLevel
  others : ∀ q ∈ L.others, -q ∈ s.trail ∧ 0 < s.levels q.var ∧
    s.levels q.var ≤ L.backtrackLevel
  backtrack : L.backtrackLevel < s.decisionLevel
  unit : L.others = [] → L.backtrackLevel = 0
  head : ∀ q, L.others.head? = some q → s.levels q.var = L.backtrackLevel

/-- What `analyze` guarantees. -/
structure Analyzed (Γ : Set (List Lit)) (s : Solver) (L : Learned) (s' : Solver) : Prop
    extends Derived Γ s L where
  core : Core Γ s'
  trail : s'.toTrailState = s.toTrailState
  db : s'.toClauseDb = s.toClauseDb
  session : s'.toSession = s.toSession
  deferred : s'.shadowDeferredRootConflict = s.shadowDeferredRootConflict

/-- Minimisation, whether or not it is enabled. -/
lemma Resolved.minimized (h : Grounded Γ s) {asserting : Lit} {a : Analysis}
    (ha : Resolved Γ s asserting a) {others : List Lit} {seen : ℕ → Bool} {added : List ℕ}
    (he : s.minimized a = some (others, seen, added)) :
    others.Sublist a.learned ∧ (∀ v, seen v = true → v ∈ a.touched ∨ v ∈ added) ∧
      Entails Γ (asserting :: others) := by
  have hneg : ∀ q ∈ a.learned, a.seen q.var = true ∧ -q ∈ s.trail := fun q hq =>
    (ha.learned q).1 hq
  rw [Solver.minimized] at he
  split at he
  · have hclosed : s.Closed a.seen fun v => False ∨ ∃ q ∈ a.learned, q.var = v := by
      intro v hv
      obtain ⟨l, hl, rfl⟩ := ha.marked v hv
      exact .inl (.inr ⟨-l, (ha.learned (-l)).2 ⟨hv, by simpa using hl⟩, rfl⟩)
    obtain ⟨h1, h2⟩ := minimizeLiterals_spec _ a.learned a.seen _ _ _ _ he hclosed
    refine ⟨h1.sublist, fun v hv => (h1.added v hv).imp_left (ha.touched v), ?_⟩
    refine (h2.mono fun v hv => hv.resolve_left id).entails h
      (fun q hq => (hneg q (h1.sublist.subset hq)).2) (fun q hq => (hneg q hq).2)
      (fun q hq => h1.sub _ (hneg q hq).1) ha.entailed
  · obtain ⟨rfl, rfl, rfl⟩ : a.learned = others ∧ a.seen = seen ∧ [] = added := by simpa using he
    exact ⟨.refl _, fun v hv => .inl (ha.touched v hv), ha.entailed⟩

/-- The state `analyze` leaves. -/
def analyzed (O : Oracle) (s : Solver) (touched : List ℕ) : Solver :=
  { s.rescore O with
    seen := fun _ => false
    vmtf := if s.usesVmtfBranching then s.vmtf.bumpAnalyzed s.assignments touched else s.vmtf }

theorem Grounded.analyze (O : Oracle) (h : Grounded Γ s) (hc : s.Allocated c)
    (hent : Entails Γ (s.literals c)) (hf : ∀ q ∈ s.literals c, -q ∈ s.trail)
    (h0 : 0 < s.decisionLevel) {L : Learned} (he : s.analyze O c = some (L, s')) :
    Derived Γ s L ∧ ∃ touched, (∀ v ∈ touched, v < s.variableCount) ∧
      s' = s.analyzed O touched := by
  obtain ⟨hstart, href, -⟩ := h.analysis_start hc hent hf
  rw [Solver.analyze] at he
  dsimp only at he
  split at he
  · simp at he
  next asserting a hres =>
  have ha : Resolved Γ s asserting a :=
    resolveTrail_spec h s.trail.reverse _ (by simp) (by simpa using hstart) href _ _ hres
  split at he
  · simp at he
  next others seen added hmin =>
  obtain ⟨hsub, hseen, hent⟩ := ha.minimized h hmin
  have hneg : ∀ q ∈ others, -q ∈ s.trail := fun q hq => ((ha.learned q).1 (hsub.subset hq)).2
  obtain ⟨kept, hkept⟩ : ∃ x, (if s.config.binaryResolutionMinimization &&
      eligibleForBinaryMinimization (others.length + 1)
        (literalBlockDistance s.toTrailState (asserting :: others)) then
      binaryResolutionMinimize s asserting others else others) = x := ⟨_, rfl⟩
  rw [hkept] at he
  have hkeptsub : kept.Sublist others ∧ Entails Γ (asserting :: kept) := by
    split at hkept
    · subst hkept
      exact ⟨List.filter_sublist, h.entails_binary hneg hent⟩
    · subst hkept
      exact ⟨.refl _, hent⟩
  obtain ⟨hperm, hmax⟩ := highestFirst_spec s.toTrailState kept
  obtain ⟨rfl, rfl⟩ := Prod.mk.inj (Option.some.inj he)
  have hmem : ∀ q ∈ highestFirst s.toTrailState kept, q ∈ kept := fun q hq => hperm.subset hq
  have hbelow : ∀ q ∈ kept, 0 < s.levels q.var ∧ s.levels q.var < s.decisionLevel := fun q hq =>
    ha.below q (hsub.subset (hkeptsub.1.subset hq))
  refine ⟨⟨?_, ?_, ha.mem, ha.level, fun q hq => ⟨?_, ?_, ?_⟩, ?_, ?_, ?_⟩, a.touched,
    ha.touched_lt, ?_⟩
  · exact hkeptsub.2.weaken fun q hq => by
      rcases List.mem_cons.1 hq with rfl | hq
      · simp
      · exact List.mem_cons_of_mem _ (hperm.mem_iff.2 hq)
  · have hnd : (kept.map Literal.var).Nodup :=
      ha.nodup.sublist ((hkeptsub.1.trans hsub).map _)
    simp only [List.map_cons, List.nodup_cons]
    refine ⟨fun hm => ?_, (hperm.map Literal.var).nodup_iff.2 hnd⟩
    obtain ⟨q, hq, hv⟩ := List.mem_map.1 hm
    have := (hbelow q (hmem q hq)).2
    rw [hv, ha.level] at this
    exact lt_irrefl _ this
  · exact hneg q (hkeptsub.1.subset (hmem q hq))
  · exact (hbelow q (hmem q hq)).1
  · dsimp only
    cases hhead : (highestFirst s.toTrailState kept).head? with
    | none => rw [List.head?_eq_none_iff.1 hhead] at hq; simp at hq
    | some r => exact hmax r hhead q (hmem q hq)
  · dsimp only
    cases hhead : (highestFirst s.toTrailState kept).head? with
    | none => simpa using h0
    | some r => exact (hbelow r (hmem r (List.mem_of_mem_head? hhead))).2
  · intro hnil
    dsimp only at hnil ⊢
    rw [hnil]
    rfl
  · intro q hq
    dsimp only at hq ⊢
    rw [hq]
    rfl
  · -- every variable that is marked is recorded as marked, and cleared
    have hclear : (fun v => if v ∈ a.touched ∨ v ∈ added then false else seen v) =
        fun _ => false := by
      funext v
      split
      · rfl
      · next hnot => exact Bool.eq_false_iff.2 fun hv => hnot (hseen v hv)
    rw [analyzed, hclear]
    rfl

theorem analyze_spec (O : Oracle) (h : Core Γ s) (hc : s.Allocated c)
    (hf : ∀ q ∈ s.literals c, -q ∈ s.trail) (h0 : 0 < s.decisionLevel) {L : Learned}
    (he : s.analyze O c = some (L, s')) : Analyzed Γ s L s' := by
  obtain ⟨hder, touched, hlt, rfl⟩ := h.grounded.analyze O hc (h.entailed c hc) hf h0 he
  refine { hder with
    core := ⟨h.trail, h.db, h.reason, h.entailed, h.root, h.deferred, ?_, fun _ => rfl⟩
    trail := rfl, db := rfl, session := rfl, deferred := rfl }
  have hb := branching_rescore O h
  refine hb.of_same (.refl hb.order) (fun ht => .refl (hb.transferOrder ht)) ?_
  rw [analyzed]
  dsimp only
  split
  · exact hb.vmtf.bumpAnalyzed fun v hv => by
      rw [hb.vmtf_size]
      exact hlt v hv
  · exact ⟨hb.vmtf, rfl⟩

end Solver

end Satrap
