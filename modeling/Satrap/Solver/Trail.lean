/-
# The trail invariant

`TrailState.Ok` says that the trail, the assignments, the levels and the decision limits
describe one sequence of assignments, and that nothing before the last decision waits for
propagation.  Each operation on the trail keeps it, and keeps every assignment that it does
not undo.  A literal is `Done` when its negation is on the trail and has been propagated.
-/
import Satrap.Solver.State

namespace Satrap

open Logic

/-! ### Counting in sorted lists -/

section Counting

variable {L : List ℕ}

lemma countP_take_of_lt (h : L.Pairwise (· ≤ ·)) {k i : ℕ} (hk : k < L.length)
    (hi : i < L[k]) : (L.take k).countP (· ≤ i) = L.countP (· ≤ i) := by
  conv_rhs => rw [← List.take_append_drop k L, List.countP_append]
  have hdrop : (L.drop k).countP (· ≤ i) = 0 := by
    rw [List.countP_eq_zero]
    intro x hx
    obtain ⟨j, hj, rfl⟩ := List.mem_drop_iff_getElem.1 hx
    have hle : L[k] ≤ L[k + j] := by
      rcases Nat.eq_zero_or_pos j with rfl | hpos
      · simp
      · exact List.pairwise_iff_getElem.1 h k (k + j) hk (by omega) (by omega)
    simp only [decide_eq_true_eq]
    omega
  omega

lemma lt_countP_of_le (h : L.Pairwise (· ≤ ·)) {k i : ℕ} (hk : k < L.length)
    (hi : L[k] ≤ i) : k < L.countP (· ≤ i) := by
  have htake : (L.take (k + 1)).countP (· ≤ i) = k + 1 := by
    have hall : (L.take (k + 1)).countP (· ≤ i) = (L.take (k + 1)).length := by
      rw [List.countP_eq_length]
      intro x hx
      obtain ⟨j, hj, rfl⟩ := List.mem_take_iff_getElem.1 hx
      have hle : L[j] ≤ L[k] := by
        rcases Nat.lt_or_ge j k with hlt | hge
        · exact List.pairwise_iff_getElem.1 h j k (by omega) hk hlt
        · obtain rfl : j = k := by omega
          exact le_rfl
      simp only [decide_eq_true_eq]
      omega
    rw [hall, List.length_take]
    omega
  have hsub : (L.take (k + 1)).countP (· ≤ i) ≤ L.countP (· ≤ i) :=
    (List.take_sublist (k + 1) L).countP_le
  omega

end Counting

namespace TrailState

variable {t : TrailState} {n : ℕ} {E : Set ℕ} {l : Lit}

/-- The decision level of the assignment at an index of the trail. -/
def levelAt (t : TrailState) (i : ℕ) : ℕ := t.trailLimits.countP (· ≤ i)

/-- The literal is false and its falsity has been propagated. -/
def Done (t : TrailState) (l : Lit) : Prop :=
  ∃ i, i < t.propagationHead ∧ t.trail[i]? = some (-l)

/-- The trail of a solver with `n` variables, of which those in `E` have been eliminated and
hold a value off the trail. -/
structure Ok (t : TrailState) (n : ℕ) (E : Set ℕ) : Prop where
  nodup : (t.trail.map Literal.var).Nodup
  assigned : ∀ l ∈ t.trail, t.assignments l.var = some l.positive
  onTrail : ∀ l : Lit, t.assignments l.var = some l.positive → l ∈ t.trail ∨ l.var ∈ E
  eliminated : ∀ v ∈ E, t.assignments v ≠ none ∧ v ∉ t.trail.map Literal.var
  lt : ∀ v, t.assignments v ≠ none → v < n
  sorted : t.trailLimits.Pairwise (· ≤ ·)
  limits_le : ∀ k ∈ t.trailLimits, k ≤ t.propagationHead
  head_le : t.propagationHead ≤ t.trail.length
  level : ∀ i l, t.trail[i]? = some l → t.levels l.var = t.levelAt i

/-! ### Values -/

lemma value_eq_true_iff : t.value l = some true ↔ t.assignments l.var = some l.positive := by
  rw [value]
  cases t.assignments l.var <;> simp

lemma value_eq_false_iff :
    t.value l = some false ↔ t.assignments l.var = some (-l).positive := by
  rw [value]
  cases t.assignments l.var with
  | none => simp
  | some b => cases b <;> cases h : l.positive <;> simp [h]

lemma value_eq_none_iff : t.value l = none ↔ t.assignments l.var = none := by
  rw [value]
  cases t.assignments l.var <;> simp

@[simp] lemma value_neg_eq_true_iff : t.value (-l) = some true ↔ t.value l = some false := by
  rw [value_eq_true_iff, value_eq_false_iff]
  rfl

@[simp] lemma value_neg_eq_false_iff : t.value (-l) = some false ↔ t.value l = some true := by
  rw [value_eq_false_iff, value_eq_true_iff, neg_neg]
  rfl

lemma value_congr {t' : TrailState} (h : t'.assignments l.var = t.assignments l.var) :
    t'.value l = t.value l := by rw [value, value, h]

/-! ### Consequences of the invariant -/

lemma Done.mem (hl : t.Done l) : -l ∈ t.trail := by
  obtain ⟨i, -, hi⟩ := hl
  exact List.mem_of_getElem? hi

namespace Ok

lemma mem_iff (h : t.Ok n E) (hl : l.var ∉ E) : l ∈ t.trail ↔ t.value l = some true := by
  rw [value_eq_true_iff]
  exact ⟨h.assigned l, fun hv => (h.onTrail l hv).resolve_right hl⟩

lemma value_of_mem (h : t.Ok n E) (hl : l ∈ t.trail) : t.value l = some true :=
  value_eq_true_iff.2 (h.assigned l hl)

lemma var_notMem (h : t.Ok n E) (hl : l ∈ t.trail) : l.var ∉ E :=
  fun hE => (h.eliminated _ hE).2 (List.mem_map_of_mem hl)

lemma neg_mem_iff (h : t.Ok n E) (hl : l.var ∉ E) :
    -l ∈ t.trail ↔ t.value l = some false := by
  rw [h.mem_iff (show (-l).var ∉ E from hl), value_neg_eq_true_iff]

lemma getElem?_inj (h : t.Ok n E) {i j : ℕ} {l q : Lit} (hi : t.trail[i]? = some l)
    (hj : t.trail[j]? = some q) (hv : l.var = q.var) : i = j := by
  obtain ⟨hi', rfl⟩ := List.getElem?_eq_some_iff.1 hi
  obtain ⟨hj', rfl⟩ := List.getElem?_eq_some_iff.1 hj
  have hmap : ∀ k (hk : k < t.trail.length), (t.trail.map Literal.var)[k]? =
      some (t.trail[k]).var := fun k hk => by simp [hk]
  have hlen : (t.trail.map Literal.var).length = t.trail.length := by simp
  refine (List.getElem?_inj (hlen ▸ hi') h.nodup).1 ?_
  rw [hmap i hi', hmap j hj', hv]

lemma levelAt_le (i : ℕ) : t.levelAt i ≤ t.decisionLevel := List.countP_le_length

lemma levelAt_mono {i j : ℕ} (hij : i ≤ j) : t.levelAt i ≤ t.levelAt j := by
  refine List.countP_mono_left fun x _ hx => ?_
  simp only [decide_eq_true_eq] at hx ⊢
  omega

/-- What waits for propagation belongs to the current level. -/
lemma levelAt_of_head_le (h : t.Ok n E) {i : ℕ} (hi : t.propagationHead ≤ i) :
    t.levelAt i = t.decisionLevel := by
  refine List.countP_eq_length.2 fun k hk => ?_
  have := h.limits_le k hk
  simp only [decide_eq_true_eq]
  omega

lemma level_le (h : t.Ok n E) (hl : l ∈ t.trail) : t.levels l.var ≤ t.decisionLevel := by
  obtain ⟨i, hi⟩ := List.mem_iff_getElem?.1 hl
  rw [h.level i l hi]
  exact levelAt_le i

lemma done_value (h : t.Ok n E) (hl : t.Done l) : t.value l = some false :=
  value_neg_eq_true_iff.1 (h.value_of_mem hl.mem)

lemma head_le_of_not_done {i : ℕ} (hi : t.trail[i]? = some (-l)) (hd : ¬ t.Done l) :
    t.propagationHead ≤ i :=
  Nat.le_of_not_lt fun hlt => hd ⟨i, hlt, hi⟩

/-- A false literal that has not been propagated is of the current level. -/
lemma level_of_not_done (h : t.Ok n E) (hl : -l ∈ t.trail) (hd : ¬ t.Done l) :
    t.levels l.var = t.decisionLevel := by
  obtain ⟨i, hi⟩ := List.mem_iff_getElem?.1 hl
  rw [show l.var = (-l).var from rfl, h.level i _ hi]
  exact h.levelAt_of_head_le (head_le_of_not_done hi hd)

end Ok

/-! ### Extension -/

/-- `t'` continues the trail of `t` at the same decision level. -/
structure Grown (t t' : TrailState) : Prop where
  trail : t.trail <+: t'.trail
  limits : t'.trailLimits = t.trailLimits
  head : t.propagationHead ≤ t'.propagationHead
  same : ∀ v, t.assignments v ≠ none → t'.assignments v = t.assignments v ∧
    t'.levels v = t.levels v ∧ t'.reasons v = t.reasons v

namespace Grown

lemma refl (t : TrailState) : Grown t t :=
  ⟨List.prefix_rfl, rfl, le_rfl, fun _ _ => ⟨rfl, rfl, rfl⟩⟩

lemma trans {t₁ t₂ t₃ : TrailState} (h : Grown t₁ t₂) (h' : Grown t₂ t₃) : Grown t₁ t₃ where
  trail := h.trail.trans h'.trail
  limits := h'.limits.trans h.limits
  head := h.head.trans h'.head
  same v hv := by
    obtain ⟨h1, h2, h3⟩ := h.same v hv
    obtain ⟨k1, k2, k3⟩ := h'.same v (h1 ▸ hv)
    exact ⟨k1.trans h1, k2.trans h2, k3.trans h3⟩

variable {t' : TrailState}

lemma decisionLevel (h : Grown t t') : t'.decisionLevel = t.decisionLevel :=
  congrArg List.length h.limits

lemma levelAt (h : Grown t t') (i : ℕ) : t'.levelAt i = t.levelAt i := by
  rw [TrailState.levelAt, h.limits, TrailState.levelAt]

lemma value (h : Grown t t') {b : Bool} (hl : t.value l = some b) : t'.value l = some b := by
  have hne : t.assignments l.var ≠ none := by
    rw [Ne, ← value_eq_none_iff, hl]
    simp
  rw [value_congr (h.same _ hne).1, hl]

lemma getElem? (h : Grown t t') {i : ℕ} {q : Lit} (hq : t.trail[i]? = some q) :
    t'.trail[i]? = some q := by
  obtain ⟨u, hu⟩ := h.trail
  rw [← hu]
  exact List.getElem?_append_left (List.getElem?_eq_some_iff.1 hq).1 ▸ hq

lemma mem (h : Grown t t') (hl : l ∈ t.trail) : l ∈ t'.trail := h.trail.subset hl

lemma done (h : Grown t t') (hl : t.Done l) : t'.Done l := by
  obtain ⟨i, hi, hq⟩ := hl
  exact ⟨i, hi.trans_le h.head, h.getElem? hq⟩

/-- While the head stays, nothing more is propagated. -/
lemma done_iff (h : Grown t t') (hhead : t'.propagationHead = t.propagationHead)
    (hle : t.propagationHead ≤ t.trail.length) : t'.Done l ↔ t.Done l := by
  refine ⟨fun ⟨i, hi, hq⟩ => ?_, h.done⟩
  rw [hhead] at hi
  obtain ⟨u, hu⟩ := h.trail
  rw [← hu, List.getElem?_append_left (hi.trans_le hle)] at hq
  exact ⟨i, hi, hq⟩

lemma levels (h : Grown t t') (hl : t.value l ≠ none) : t'.levels l.var = t.levels l.var :=
  (h.same _ fun hn => hl (value_eq_none_iff.2 hn)).2.1

end Grown

/-! ### Operations -/

/-- The literal at the propagation head has been propagated. -/
def advance (t : TrailState) : TrailState :=
  { t with propagationHead := t.propagationHead + 1 }

lemma grown_advance (t : TrailState) : Grown t t.advance :=
  ⟨List.prefix_rfl, rfl, Nat.le_succ _, fun _ _ => ⟨rfl, rfl, rfl⟩⟩

lemma done_advance {p : Lit} (hp : t.trail[t.propagationHead]? = some p) :
    t.advance.Done l ↔ t.Done l ∨ l = -p := by
  constructor
  · rintro ⟨i, hi, hq⟩
    rcases Nat.lt_succ_iff_lt_or_eq.1 hi with hlt | rfl
    · exact .inl ⟨i, hlt, hq⟩
    · refine .inr ?_
      have : p = -l := Option.some.inj (hp.symm.trans hq)
      rw [this, neg_neg]
  · rintro (h | rfl)
    · exact (grown_advance t).done h
    · exact ⟨t.propagationHead, Nat.lt_succ_self _, by rw [neg_neg]; exact hp⟩

namespace Ok

lemma advance (h : t.Ok n E) {p : Lit} (hp : t.trail[t.propagationHead]? = some p) :
    t.advance.Ok n E where
  nodup := h.nodup
  assigned := h.assigned
  onTrail := h.onTrail
  eliminated := h.eliminated
  lt := h.lt
  sorted := h.sorted
  limits_le k hk := (h.limits_le k hk).trans (Nat.le_succ _)
  head_le := (List.getElem?_eq_some_iff.1 hp).1
  level := h.level

lemma push (h : t.Ok n E) (hl : t.value l = none) (hn : l.var < n)
    (reason : Option ClauseRef) : (t.push l reason).Ok n E := by
  have hnone := value_eq_none_iff.1 hl
  have hfresh : l.var ∉ t.trail.map Literal.var := by
    rintro hm
    obtain ⟨q, hq, hv⟩ := List.mem_map.1 hm
    have := h.assigned q hq
    rw [hv, hnone] at this
    simp at this
  have hne : ∀ q ∈ t.trail, q.var ≠ l.var := fun q hq hv => hfresh (hv ▸ List.mem_map_of_mem hq)
  refine ⟨?_, ?_, ?_, ?_, ?_, h.sorted, h.limits_le, ?_, ?_⟩
  · simp only [TrailState.push, List.map_append, List.map_cons, List.map_nil]
    exact h.nodup.append (by simp) (by simpa using hfresh)
  · intro q hq
    simp only [TrailState.push, List.mem_append, List.mem_singleton] at hq ⊢
    rcases hq with hq | rfl
    · rw [Function.update_of_ne (hne q hq)]
      exact h.assigned q hq
    · rw [Function.update_self]
  · intro q hq
    simp only [TrailState.push, List.mem_append, List.mem_singleton] at hq ⊢
    by_cases hv : q.var = l.var
    · rw [hv, Function.update_self] at hq
      exact .inl (.inr (Literal.ext_iff'.2 ⟨hv, (Option.some.inj hq).symm⟩))
    · rw [Function.update_of_ne hv] at hq
      exact (h.onTrail q hq).imp_left .inl
  · intro v hv
    have hvl : v ≠ l.var := fun he => (h.eliminated v hv).1 (he ▸ hnone)
    simp only [TrailState.push, Function.update_of_ne hvl, List.map_append, List.map_cons,
      List.map_nil, List.mem_append, List.mem_singleton]
    exact ⟨(h.eliminated v hv).1, fun hm => hm.elim (h.eliminated v hv).2 hvl⟩
  · intro v hv
    by_cases hvl : v = l.var
    · exact hvl ▸ hn
    · simp only [TrailState.push, Function.update_of_ne hvl] at hv
      exact h.lt v hv
  · simp only [TrailState.push, List.length_append]
    exact h.head_le.trans (Nat.le_add_right _ _)
  · intro i q hq
    simp only [TrailState.push] at hq ⊢
    rcases Nat.lt_or_ge i t.trail.length with hi | hi
    · rw [List.getElem?_append_left hi] at hq
      rw [Function.update_of_ne (hne q (List.mem_of_getElem? hq))]
      exact h.level i q hq
    · rw [List.getElem?_append_right hi] at hq
      have hq' : q = l := by simpa using List.mem_of_getElem? hq
      rw [hq', Function.update_self]
      exact (h.levelAt_of_head_le (h.head_le.trans hi)).symm

end Ok

lemma grown_push (hl : t.value l = none) (reason : Option ClauseRef) :
    Grown t (t.push l reason) := by
  have hnone := value_eq_none_iff.1 hl
  refine ⟨List.prefix_append _ _, rfl, le_rfl, fun v hv => ?_⟩
  have hvl : v ≠ l.var := fun he => hv (he ▸ hnone)
  simp only [push, Function.update_of_ne hvl, and_self]

@[simp] lemma value_push_self (reason : Option ClauseRef) :
    (t.push l reason).value l = some true := by
  simp [value_eq_true_iff, push]

lemma done_push (h : t.Ok n E) {q : Lit} (reason : Option ClauseRef) :
    (t.push l reason).Done q ↔ t.Done q := by
  refine exists_congr fun i => and_congr_right fun hi => ?_
  rw [push, List.getElem?_append_left (hi.trans_le h.head_le)]

lemma Ok.newLevel (h : t.Ok n E) (hhead : t.propagationHead = t.trail.length) :
    t.newLevel.Ok n E := by
  have hlim : ∀ k ∈ t.trailLimits, k ≤ t.trail.length := fun k hk => hhead ▸ h.limits_le k hk
  refine ⟨h.nodup, h.assigned, h.onTrail, h.eliminated, h.lt, ?_, ?_, h.head_le, ?_⟩
  · refine List.pairwise_append.2 ⟨h.sorted, List.pairwise_singleton _ _, fun k hk j hj => ?_⟩
    rw [List.mem_singleton.1 hj]
    exact hlim k hk
  · intro k hk
    rcases List.mem_append.1 hk with hk | hk
    · exact h.limits_le k hk
    · exact (List.mem_singleton.1 hk).trans hhead.symm |>.le
  · intro i q hq
    have hi : i < t.trail.length := (List.getElem?_eq_some_iff.1 hq).1
    rw [levelAt, TrailState.newLevel, List.countP_append, List.countP_singleton,
      if_neg (by simp; omega), Nat.add_zero]
    exact h.level i q hq

/-! ### Backtracking -/

section Shrink

variable {level : ℕ}

/-- The trail length kept by a backtrack. -/
def target (t : TrailState) (level : ℕ) : ℕ := t.trailLimits.getD level 0

lemma target_eq (hlevel : level < t.trailLimits.length) :
    t.target level = t.trailLimits[level] := by
  rw [target, List.getD_eq_getElem?_getD, List.getElem?_eq_getElem hlevel, Option.getD_some]

lemma Ok.target_le_head (h : t.Ok n E) (hlevel : level < t.decisionLevel) :
    t.target level ≤ t.propagationHead := by
  rw [target_eq hlevel]
  exact h.limits_le _ (List.getElem_mem _)

/-- The levels kept by a backtrack are those of the kept part of the trail. -/
lemma Ok.levelAt_le_iff (h : t.Ok n E) (hlevel : level < t.decisionLevel) (i : ℕ) :
    t.levelAt i ≤ level ↔ i < t.target level := by
  rw [target_eq hlevel]
  constructor
  · intro hle
    by_contra hge
    have := lt_countP_of_le h.sorted hlevel (Nat.le_of_not_lt hge)
    rw [levelAt] at hle
    omega
  · intro hlt
    rw [levelAt, ← countP_take_of_lt h.sorted hlevel hlt]
    exact List.countP_le_length.trans (List.length_take_le _ _)

lemma Ok.mem_undone_iff (h : t.Ok n E) (hlevel : level < t.decisionLevel) {v : ℕ} :
    v ∈ (t.trail.drop (t.target level)).map Literal.var ↔
      (∃ l ∈ t.trail, l.var = v) ∧ level < t.levels v := by
  constructor
  · intro hv
    obtain ⟨l, hl, rfl⟩ := List.mem_map.1 hv
    obtain ⟨j, hj, rfl⟩ := List.mem_drop_iff_getElem.1 hl
    refine ⟨⟨_, List.getElem_mem _, rfl⟩, Nat.lt_of_not_le fun hle => ?_⟩
    rw [h.level (t.target level + j) _ (List.getElem?_eq_getElem _),
      h.levelAt_le_iff hlevel] at hle
    omega
  · rintro ⟨⟨l, hl, rfl⟩, hlt⟩
    obtain ⟨i, hi⟩ := List.mem_iff_getElem?.1 hl
    have hge : t.target level ≤ i := by
      by_contra hlt'
      have := (h.levelAt_le_iff hlevel i).2 (Nat.lt_of_not_le hlt')
      rw [← h.level i l hi] at this
      omega
    refine List.mem_map_of_mem (List.mem_iff_getElem?.2 ⟨i - t.target level, ?_⟩)
    rw [List.getElem?_drop, Nat.add_sub_cancel' hge, hi]

/-- What survives a backtrack: the assignments of the levels up to the new one. -/
structure Shrunk (t t' : TrailState) (level : ℕ) : Prop where
  trail : t'.trail = t.trail.take (t.target level)
  limits : t'.trailLimits = t.trailLimits.take level
  head : t'.propagationHead = t.target level
  kept : ∀ l ∈ t.trail, t.levels l.var ≤ level → l ∈ t'.trail ∧
    t'.levels l.var = t.levels l.var ∧ t'.reasons l.var = t.reasons l.var
  undone : ∀ l ∈ t.trail, level < t.levels l.var → t'.assignments l.var = none
  other : ∀ v, v ∉ t.trail.map Literal.var → t'.assignments v = t.assignments v

lemma Ok.shrunk (h : t.Ok n E) (hlevel : level < t.decisionLevel) :
    Shrunk t (t.shrink level) level := by
  have hundone := fun v => h.mem_undone_iff hlevel (v := v)
  refine ⟨rfl, rfl, min_eq_right (h.target_le_head hlevel), ?_, ?_, ?_⟩
  · intro l hl hle
    have hnot : l.var ∉ (t.trail.drop (t.target level)).map Literal.var := fun hm =>
      absurd ((hundone l.var).1 hm).2 (Nat.not_lt.2 hle)
    refine ⟨?_, if_neg hnot, if_neg hnot⟩
    obtain ⟨i, hi⟩ := List.mem_iff_getElem?.1 hl
    have hlt : i < t.target level := by
      rw [← h.levelAt_le_iff hlevel, ← h.level i l hi]
      exact hle
    refine List.mem_iff_getElem?.2 ⟨i, ?_⟩
    exact (List.getElem?_take_of_lt hlt).trans hi
  · intro l hl hlt
    exact if_pos ((hundone l.var).2 ⟨⟨l, hl, rfl⟩, hlt⟩)
  · intro v hv
    refine if_neg fun hm => hv ?_
    obtain ⟨⟨l, hl, rfl⟩, -⟩ := (hundone v).1 hm
    exact List.mem_map_of_mem hl

lemma Ok.mem_shrink (h : t.Ok n E) (hlevel : level < t.decisionLevel) :
    l ∈ (t.shrink level).trail ↔ l ∈ t.trail ∧ t.levels l.var ≤ level := by
  constructor
  · intro hl
    obtain ⟨i, hi, rfl⟩ := List.mem_take_iff_getElem.1 hl
    have hi' : i < t.trail.length := by omega
    refine ⟨List.getElem_mem _, ?_⟩
    rw [h.level i _ (List.getElem?_eq_getElem hi'), h.levelAt_le_iff hlevel]
    exact (Nat.lt_min.1 hi).1
  · rintro ⟨hl, hle⟩
    exact ((h.shrunk hlevel).kept l hl hle).1

/-- A value that survives a backtrack was there before, at a level that is kept. -/
lemma Ok.assignments_shrink (h : t.Ok n E) (hlevel : level < t.decisionLevel) {v : ℕ}
    (hv : (t.shrink level).assignments v ≠ none) :
    (t.shrink level).assignments v = t.assignments v ∧
      (t.shrink level).levels v = t.levels v ∧ (t.shrink level).reasons v = t.reasons v := by
  have hnot : v ∉ (t.trail.drop (t.target level)).map Literal.var := fun hm => hv (if_pos hm)
  exact ⟨if_neg hnot, if_neg hnot, if_neg hnot⟩

lemma Ok.shrink (h : t.Ok n E) (hlevel : level < t.decisionLevel) :
    (t.shrink level).Ok n E := by
  have hs := h.shrunk hlevel
  have htarget := h.target_le_head hlevel
  have hsub : (t.shrink level).trail.Sublist t.trail := List.take_sublist _ _
  refine ⟨h.nodup.sublist (hsub.map _), ?_, ?_, ?_, ?_, h.sorted.sublist (List.take_sublist _ _),
    ?_, ?_, ?_⟩
  · intro l hl
    have hmem := (h.mem_shrink hlevel).1 hl
    have hnot : l.var ∉ (t.trail.drop (t.target level)).map Literal.var := fun hm =>
      absurd ((h.mem_undone_iff hlevel).1 hm).2 (Nat.not_lt.2 hmem.2)
    exact (if_neg hnot).trans (h.assigned l hmem.1)
  · intro l hl
    obtain ⟨hsame, -⟩ := h.assignments_shrink hlevel (v := l.var) (by rw [hl]; simp)
    refine (h.onTrail l (hsame.symm.trans hl)).imp_left fun hmem => ?_
    refine (h.mem_shrink hlevel).2 ⟨hmem, Nat.le_of_not_lt fun hlt => ?_⟩
    rw [hs.undone l hmem hlt] at hl
    simp at hl
  · intro v hv
    obtain ⟨h1, h2⟩ := h.eliminated v hv
    rw [hs.other v h2]
    exact ⟨h1, fun hm => h2 ((hsub.map _).subset hm)⟩
  · intro v hv
    exact h.lt v ((h.assignments_shrink hlevel hv).1 ▸ hv)
  · intro k hk
    rw [hs.head, target_eq hlevel]
    obtain ⟨j, hj, rfl⟩ := List.mem_take_iff_getElem.1 hk
    exact List.pairwise_iff_getElem.1 h.sorted j level _ hlevel (Nat.lt_min.1 hj).1
  · rw [hs.head, hs.trail, List.length_take]
    exact le_min le_rfl (htarget.trans h.head_le)
  · intro i l hl
    have hi : i < t.target level := by
      have := (List.getElem?_eq_some_iff.1 hl).1
      rw [hs.trail, List.length_take] at this
      omega
    have hl' : t.trail[i]? = some l := by
      rw [← hl, hs.trail, List.getElem?_take_of_lt hi]
    have hmem := List.mem_of_getElem? hl'
    have hle : t.levels l.var ≤ level := by
      rw [h.level i l hl', h.levelAt_le_iff hlevel]
      exact hi
    rw [(hs.kept l hmem hle).2.1, h.level i l hl', levelAt, levelAt, hs.limits]
    rw [target_eq hlevel] at hi
    exact (countP_take_of_lt h.sorted hlevel hi).symm

lemma Ok.done_shrink (h : t.Ok n E) (hlevel : level < t.decisionLevel) :
    (t.shrink level).Done l ↔ t.Done l ∧ t.levels l.var ≤ level := by
  have hs := h.shrunk hlevel
  have htarget := h.target_le_head hlevel
  have hi : ∀ {i}, t.trail[i]? = some (-l) → (t.levels l.var ≤ level ↔ i < t.target level) :=
    fun {i} hq => by
      rw [show l.var = (-l).var from rfl, h.level i _ hq, h.levelAt_le_iff hlevel]
  constructor
  · rintro ⟨i, hlt, hq⟩
    rw [hs.head] at hlt
    rw [hs.trail, List.getElem?_take_of_lt hlt] at hq
    exact ⟨⟨i, hlt.trans_le htarget, hq⟩, (hi hq).2 hlt⟩
  · rintro ⟨⟨i, -, hq⟩, hle⟩
    have hlt := (hi hq).1 hle
    exact ⟨i, hs.head ▸ hlt, by rw [hs.trail, List.getElem?_take_of_lt hlt, hq]⟩

lemma Ok.value_shrink (h : t.Ok n E) (hlevel : level < t.decisionLevel) (hl : l ∈ t.trail)
    (hle : t.levels l.var ≤ level) : (t.shrink level).value l = some true :=
  (h.shrink hlevel).value_of_mem ((h.mem_shrink hlevel).2 ⟨hl, hle⟩)

/-- Index facts survive on the kept part. -/
lemma Ok.getElem?_shrink (h : t.Ok n E) (hlevel : level < t.decisionLevel) {i : ℕ} :
    (t.shrink level).trail[i]? = some l ↔
      t.trail[i]? = some l ∧ t.levels l.var ≤ level := by
  have hs := h.shrunk hlevel
  constructor
  · intro hl
    have hi : i < t.target level := by
      have := (List.getElem?_eq_some_iff.1 hl).1
      rw [hs.trail, List.length_take] at this
      omega
    rw [hs.trail, List.getElem?_take_of_lt hi] at hl
    exact ⟨hl, by rw [h.level i l hl, h.levelAt_le_iff hlevel]; exact hi⟩
  · rintro ⟨hl, hle⟩
    have hi : i < t.target level := by
      rw [← h.levelAt_le_iff hlevel, ← h.level i l hl]
      exact hle
    rw [hs.trail, List.getElem?_take_of_lt hi, hl]

end Shrink

end TrailState

end Satrap
