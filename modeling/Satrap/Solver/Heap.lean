/-
# Runs of the decision heap

Next to the positions, which `VarOrder.Ok` describes, the heap keeps its order: no variable
outranks its parent.  The operations are followed through whole runs, first on their own and then
together with the trail, where assigned variables may stay in the heap and backtracking brings
back those that have left it.
-/
import Satrap.Solver.Decision

namespace Satrap

variable {activity activity' : ℕ → ℤ} {u v w : ℕ}

/-! ### Priorities -/

lemma higherPriority_iff : higherPriority activity u v = true ↔
    activity v < activity u ∨ activity u = activity v ∧ u < v := by
  simp [higherPriority]

lemma not_higherPriority_self : ¬ higherPriority activity u u = true := by
  rw [higherPriority_iff]
  omega

lemma not_higherPriority_trans (h : ¬ higherPriority activity u v = true)
    (h' : ¬ higherPriority activity v w = true) : ¬ higherPriority activity u w = true := by
  rw [higherPriority_iff] at *
  omega

lemma not_higherPriority_of (h : higherPriority activity u v = true) :
    ¬ higherPriority activity v u = true := by
  rw [higherPriority_iff] at *
  omega

namespace VarOrder

variable {o : VarOrder} {position child p : ℕ}

/-! ### The order of the heap -/

/-- No variable outranks its parent. -/
def Heaped (activity : ℕ → ℤ) (o : VarOrder) : Prop :=
  ∀ p, 0 < p → p < o.size → ¬ higherPriority activity (o.heap p) (o.heap ((p - 1) / 2)) = true

/-- The heap is in order except that the variable at a position may outrank its parent. -/
structure HeapedBelow (activity : ℕ → ℤ) (o : VarOrder) (position : ℕ) : Prop where
  others : ∀ p, 0 < p → p < o.size → p ≠ position →
    ¬ higherPriority activity (o.heap p) (o.heap ((p - 1) / 2)) = true
  across : ∀ p, 0 < p → p < o.size → (p - 1) / 2 = position → 0 < position →
    ¬ higherPriority activity (o.heap p) (o.heap ((position - 1) / 2)) = true

/-- The heap is in order except that the variable at a position may be outranked by its
children. -/
structure HeapedAbove (activity : ℕ → ℤ) (o : VarOrder) (position : ℕ) : Prop where
  others : ∀ p, 0 < p → p < o.size → (p - 1) / 2 ≠ position →
    ¬ higherPriority activity (o.heap p) (o.heap ((p - 1) / 2)) = true
  across : ∀ p, 0 < p → p < o.size → (p - 1) / 2 = position → 0 < position →
    ¬ higherPriority activity (o.heap p) (o.heap ((position - 1) / 2)) = true

lemma swap_heap (p q r : ℕ) : (o.swap p q).heap r =
    if r = q then o.heap p else if r = p then o.heap q else o.heap r := by
  simp only [swap, Function.update_apply]

/-- The variable moves up one level. -/
lemma HeapedBelow.swap (h : HeapedBelow activity o position) (hpos : 0 < position)
    (hlt : position < o.size)
    (hup : higherPriority activity (o.heap position) (o.heap ((position - 1) / 2)) = true) :
    HeapedBelow activity (o.swap position ((position - 1) / 2)) ((position - 1) / 2) := by
  have hdown := not_higherPriority_of hup
  have hparent (hq : 0 < (position - 1) / 2) :=
    h.others ((position - 1) / 2) hq (by omega) (by omega)
  refine ⟨fun p hp hsize hne => ?_, fun p hp hsize hpar hq => ?_⟩
  · have hold := h.others p hp hsize
    have hacross := h.across p hp hsize
    rw [swap_heap, swap_heap, if_neg hne]
    by_cases hpp : p = position
    · -- the parent has come down below the variable
      rw [if_pos hpp, if_pos (by rw [hpp])]
      exact hdown
    rw [if_neg hpp]
    by_cases hq : (p - 1) / 2 = (position - 1) / 2
    · rw [if_pos hq]
      refine not_higherPriority_trans (hold hpp) ?_
      rw [hq]
      exact hdown
    · rw [if_neg hq]
      by_cases hchild : (p - 1) / 2 = position
      · rw [if_pos hchild]
        exact hacross hchild hpos
      · rw [if_neg hchild]
        exact hold hpp
  · have hne : (((position - 1) / 2) - 1) / 2 ≠ (position - 1) / 2 := by omega
    have hne' : (((position - 1) / 2) - 1) / 2 ≠ position := by omega
    rw [swap_heap, swap_heap, if_neg (by omega), if_neg hne, if_neg hne']
    by_cases hpp : p = position
    · rw [if_pos hpp]
      exact hparent hq
    · rw [if_neg hpp]
      refine not_higherPriority_trans (h.others p hp hsize hpp) ?_
      rw [hpar]
      exact hparent hq

/-- `sift_up` restores the order. -/
lemma HeapedBelow.siftUp (fuel : ℕ) {o : VarOrder} {position : ℕ}
    (h : HeapedBelow activity o position) (hlt : position < o.size) (hfuel : position ≤ fuel) :
    Heaped activity (siftUp activity fuel o position) := by
  induction fuel generalizing o position with
  | zero =>
    intro p hp hsize
    exact h.others p hp hsize (by omega)
  | succ fuel ih =>
    rw [VarOrder.siftUp]
    split
    · next hpos =>
      dsimp only
      split
      · next hup => exact ih (h.swap hpos hlt hup) (by rw [swap_size]; omega) (by omega)
      · next hup =>
        intro p hp hsize
        by_cases hpp : p = position
        · rw [hpp]
          exact hup
        · exact h.others p hp hsize hpp
    · next hpos =>
      intro p hp hsize
      exact h.others p hp hsize (by omega)

/-- The variable moves down one level, to the place of its greatest child. -/
lemma HeapedAbove.swap (h : HeapedAbove activity o position) (hchild : child < o.size)
    (hpos : 0 < child) (hpar : (child - 1) / 2 = position)
    (hbest : ∀ p, 0 < p → p < o.size → (p - 1) / 2 = position →
      ¬ higherPriority activity (o.heap p) (o.heap child) = true)
    (hdown : higherPriority activity (o.heap child) (o.heap position) = true) :
    HeapedAbove activity (o.swap position child) child := by
  refine ⟨fun p hp hsize hne => ?_, fun p hp hsize hpar' _ => ?_⟩
  · have hold := h.others p hp hsize
    rw [swap_heap, swap_heap, if_neg hne]
    by_cases hpc : p = child
    · rw [if_pos hpc, hpc, if_pos hpar]
      exact not_higherPriority_of hdown
    rw [if_neg hpc]
    by_cases hpp : p = position
    · rw [if_pos hpp, if_neg (by omega)]
      have hacross := h.across child hpos hchild hpar (by omega)
      rwa [hpp]
    rw [if_neg hpp]
    by_cases hq : (p - 1) / 2 = position
    · rw [if_pos hq]
      exact hbest p hp hsize hq
    · rw [if_neg hq]
      exact hold hq
  · have hold := h.others p hp hsize (by omega)
    rw [hpar'] at hold
    rwa [swap_heap, swap_heap, if_neg (by omega), if_neg (by omega), if_neg (by omega), if_pos hpar]

/-- `sift_down` restores the order. -/
lemma HeapedAbove.siftDown (fuel : ℕ) {o : VarOrder} {position : ℕ}
    (h : HeapedAbove activity o position) (hfuel : o.size ≤ fuel + position) :
    Heaped activity (siftDown activity fuel o position) := by
  induction fuel generalizing o position with
  | zero =>
    intro p hp hsize
    have hin : p < o.size := hsize
    exact h.others p hp hin (by omega)
  | succ fuel ih =>
    rw [VarOrder.siftDown]
    dsimp only
    split
    · next hleaf =>
      intro p hp hsize
      exact h.others p hp hsize (by omega)
    next hleft =>
    generalize hc : (if position * 2 + 1 + 1 < o.size ∧
        higherPriority activity (o.heap (position * 2 + 1 + 1)) (o.heap (position * 2 + 1)) = true
      then position * 2 + 1 + 1 else position * 2 + 1) = child
    have hchild : child < o.size ∧ 0 < child ∧ (child - 1) / 2 = position := by
      split at hc <;> omega
    -- the child chosen is outranked by none of the two
    have hbest (p : ℕ) (hp : 0 < p) (hsize : p < o.size) (hpar : (p - 1) / 2 = position) :
        ¬ higherPriority activity (o.heap p) (o.heap child) = true := by
      have hcases : p = position * 2 + 1 ∨ p = position * 2 + 1 + 1 := by omega
      split at hc
      · next hright =>
        subst hc
        rcases hcases with rfl | rfl
        · exact not_higherPriority_of hright.2
        · exact not_higherPriority_self
      · next hright =>
        subst hc
        rcases hcases with rfl | rfl
        · exact not_higherPriority_self
        · exact fun hup => hright ⟨hsize, hup⟩
    split
    · next hdown =>
      refine ih (h.swap hchild.1 hchild.2.1 hchild.2.2 hbest hdown) ?_
      rw [swap_size]
      omega
    · next hdown =>
      intro p hp hsize
      by_cases hpar : (p - 1) / 2 = position
      · rw [hpar]
        exact not_higherPriority_trans (hbest p hp hsize hpar) hdown
      · exact h.others p hp hsize hpar

/-- The top of the heap is outranked by no stored variable. -/
lemma Heaped.top (h : Heaped activity o) (hv : o.Mem v) :
    ¬ higherPriority activity v (o.heap 0) = true := by
  obtain ⟨p, hp, rfl⟩ := hv
  induction p using Nat.strong_induction_on with
  | _ p ih =>
    rcases Nat.eq_zero_or_pos p with rfl | hpos
    · exact not_higherPriority_self
    · exact not_higherPriority_trans (h p hpos hp) (ih ((p - 1) / 2) (by omega) (by omega))

/-! ### One activity changes -/

/-- The activities agree except at one variable. -/
def SameBut (v : ℕ) (activity activity' : ℕ → ℤ) : Prop := ∀ w, w ≠ v → activity' w = activity w

lemma sameBut_update (v : ℕ) (key : ℤ) (activity : ℕ → ℤ) :
    SameBut v activity (Function.update activity v key) := fun _ hw => Function.update_of_ne hw _ _

lemma SameBut.higherPriority (h : SameBut v activity activity') (hu : u ≠ v) (hw : w ≠ v) :
    higherPriority activity' u w = higherPriority activity u w := by
  rw [Satrap.higherPriority, Satrap.higherPriority, h u hu, h w hw]

/-- A variable that is not stored does not matter. -/
lemma Heaped.of_absent (h : Heaped activity o) (hsame : SameBut v activity activity')
    (hv : ¬ o.Mem v) : Heaped activity' o := by
  intro p hp hsize
  rw [hsame.higherPriority (fun he => hv ⟨p, hsize, he⟩) fun he => hv ⟨_, by omega, he⟩]
  exact h p hp hsize

lemma Ok.heap_ne (hok : o.Ok) (hp : position < o.size) {q : ℕ} (hq : q < o.size)
    (hne : q ≠ position) : o.heap q ≠ o.heap position :=
  fun he => hne (hok.heap_inj hq hp he)

/-- A variable whose activity rose may outrank its parent only. -/
lemma Heaped.below_of_risen (h : Heaped activity o) (hok : o.Ok) (hp : position < o.size)
    (hsame : SameBut (o.heap position) activity activity')
    (hrise : activity (o.heap position) ≤ activity' (o.heap position)) :
    HeapedBelow activity' o position := by
  refine ⟨fun p hpos hsize hne => ?_, fun p hpos hsize hpar hposition => ?_⟩
  · have hold := h p hpos hsize
    have hne' := hok.heap_ne hp hsize hne
    by_cases hpar : (p - 1) / 2 = position
    · rw [hpar, higherPriority_iff] at hold ⊢
      rw [hsame _ hne']
      omega
    · rwa [hsame.higherPriority hne' (hok.heap_ne hp (by omega) hpar)]
  · rw [hsame.higherPriority (hok.heap_ne hp hsize (by omega))
      (hok.heap_ne hp (by omega) (by omega))]
    have hold := h p hpos hsize
    rw [hpar] at hold
    exact not_higherPriority_trans hold (h position hposition hp)

/-- A variable whose activity fell may be outranked by its children only. -/
lemma Heaped.above_of_fallen (h : Heaped activity o) (hok : o.Ok) (hp : position < o.size)
    (hsame : SameBut (o.heap position) activity activity')
    (hfall : activity' (o.heap position) ≤ activity (o.heap position)) :
    HeapedAbove activity' o position := by
  refine ⟨fun p hpos hsize hne => ?_, fun p hpos hsize hpar hposition => ?_⟩
  · have hold := h p hpos hsize
    have hpar := hok.heap_ne hp (show (p - 1) / 2 < o.size by omega) hne
    by_cases hpp : p = position
    · subst hpp
      rw [higherPriority_iff] at hold ⊢
      rw [hsame _ hpar]
      omega
    · rwa [hsame.higherPriority (hok.heap_ne hp hsize hpp) hpar]
  · rw [hsame.higherPriority (hok.heap_ne hp hsize (by omega))
      (hok.heap_ne hp (by omega) (by omega))]
    have hold := h p hpos hsize
    rw [hpar] at hold
    exact not_higherPriority_trans hold (h position hposition hp)

lemma Heaped.increase (h : Heaped activity o) (hok : o.Ok) (hsame : SameBut v activity activity')
    (hrise : activity v ≤ activity' v) : Heaped activity' (o.increase activity' v) := by
  rw [VarOrder.increase]
  split
  · next hnone =>
    exact h.of_absent hsame fun hm => by simpa [hnone] using hok.isSome_iff.2 hm
  · next hposition =>
    obtain ⟨hp, rfl⟩ := (hok.inverse _ _).1 hposition
    exact (h.below_of_risen hok hp hsame hrise).siftUp _ hp le_rfl

lemma Heaped.update (h : Heaped activity o) (hok : o.Ok) (hsame : SameBut v activity activity') :
    Heaped activity' (o.update activity' v (activity v)) := by
  rw [VarOrder.update]
  split
  · next hnone =>
    exact h.of_absent hsame fun hm => by simpa [hnone] using hok.isSome_iff.2 hm
  · next position hposition =>
    obtain ⟨hp, rfl⟩ := (hok.inverse _ _).1 hposition
    split
    · next hrise => exact (h.below_of_risen hok hp hsame hrise.le).siftUp _ hp le_rfl
    split
    · next hfall =>
      exact (h.above_of_fallen hok hp hsame hfall.le).siftDown _ (Nat.le_add_right _ _)
    · next hge hle =>
      have heq : activity' = activity := by
        ext w
        by_cases hw : w = o.heap position
        · rw [hw]
          exact le_antisymm (not_lt.1 hge) (not_lt.1 hle)
        · exact hsame w hw
      rwa [heq]

/-! ### Variables enter and leave -/

lemma Heaped.insert (h : Heaped activity o) (v : ℕ) : Heaped activity (o.insert activity v) := by
  rw [VarOrder.insert]
  split
  · exact h
  refine HeapedBelow.siftUp _ ⟨fun p hp hsize hne => ?_, fun p hp hsize hpar _ => ?_⟩
    (Nat.lt_succ_self _) le_rfl
  · dsimp only at hsize ⊢
    rw [Function.update_of_ne hne, Function.update_of_ne (by omega)]
    exact h p hp (by omega)
  · dsimp only at hsize
    omega

lemma Heaped.foldl_insert (h : Heaped activity o) (vs : List ℕ) :
    Heaped activity (vs.foldl (VarOrder.insert activity) o) := by
  induction vs generalizing o with
  | nil => exact h
  | cons v rest ih => exact ih (h.insert v)

lemma Heaped.grow (h : Heaped activity o) (oldCount newCount : ℕ) :
    Heaped activity (o.grow activity oldCount newCount) := h.foldl_insert _

lemma Heaped.popMax (h : Heaped activity o) : Heaped activity (o.popMax activity).2 := by
  rw [VarOrder.popMax]
  split
  · exact h
  dsimp only
  split
  · next hempty =>
    intro p hp hsize
    dsimp only at hsize
    omega
  refine HeapedAbove.siftDown _ ⟨fun p hp hsize hne => ?_, fun p hp hsize _ hpos => ?_⟩ (by simp)
  · dsimp only at hsize ⊢
    rw [Function.update_of_ne hp.ne', Function.update_of_ne hne]
    exact h p hp (by omega)
  · exact absurd hpos (lt_irrefl 0)

lemma Heaped.peekMax (assignments : ℕ → Option Bool) (fuel : ℕ) {o : VarOrder}
    (h : Heaped activity o) : Heaped activity (o.peekMax assignments activity fuel).2 := by
  induction fuel generalizing o with
  | zero => exact h
  | succ fuel ih =>
    rw [VarOrder.peekMax]
    split
    · exact h
    split
    · exact h
    · exact ih h.popMax

/-- What the operations of the heap make of it, with the activities they read.  Every operation is
allowed at any time; a reported activity is the only one that may have changed. -/
inductive Reachable : VarOrder → (ℕ → ℤ) → Prop
  | start (activity : ℕ → ℤ) : Reachable empty activity
  | grow {o : VarOrder} {activity : ℕ → ℤ} (run : Reachable o activity) (oldCount newCount : ℕ) :
      Reachable (o.grow activity oldCount newCount) activity
  | insert {o : VarOrder} {activity : ℕ → ℤ} (run : Reachable o activity) (v : ℕ) :
      Reachable (o.insert activity v) activity
  | increase {o : VarOrder} {activity activity' : ℕ → ℤ} (run : Reachable o activity) {v : ℕ}
      (same : SameBut v activity activity') (rise : activity v ≤ activity' v) :
      Reachable (o.increase activity' v) activity'
  | update {o : VarOrder} {activity activity' : ℕ → ℤ} (run : Reachable o activity) {v : ℕ}
      (same : SameBut v activity activity') :
      Reachable (o.update activity' v (activity v)) activity'
  | peekMax {o : VarOrder} {activity : ℕ → ℤ} (run : Reachable o activity)
      (assignments : ℕ → Option Bool) :
      Reachable (o.peekMax assignments activity (o.size + 1)).2 activity
  | popMax {o : VarOrder} {activity : ℕ → ℤ} (run : Reachable o activity) :
      Reachable (o.popMax activity).2 activity

/-- Every run keeps the positions inverse to the array and the heap in order. -/
lemma Reachable.ok_and_heaped (h : Reachable o activity) : o.Ok ∧ Heaped activity o := by
  induction h with
  | start => exact ⟨empty_ok, fun p _ hsize => absurd hsize (Nat.not_lt_zero p)⟩
  | grow run oldCount newCount ih => exact ⟨ih.1.grow _ _, ih.2.grow _ _⟩
  | insert run v ih => exact ⟨ih.1.insert v, ih.2.insert v⟩
  | increase run same rise ih => exact ⟨(ih.1.same_increase _).ok, ih.2.increase ih.1 same rise⟩
  | update run same ih => exact ⟨(ih.1.same_update _ _).ok, ih.2.update ih.1 same⟩
  | @peekMax o activity run assignments ih =>
    exact ⟨(ih.1.peekMax_spec assignments _ (Nat.lt_succ_self _)).1, ih.2.peekMax _ _⟩
  | popMax run ih => exact ⟨(ih.1.popMax_spec _).1, ih.2.popMax⟩

end VarOrder

/-! ### The heap and the trail -/

/-- The heap with what its users read and write: the assigned variables in their order with the
decision levels, and for the learning-rate scores the conflict at which a score was last brought
up to date. -/
structure Steering where
  order : VarOrder
  activity : ℕ → ℤ
  assignments : ℕ → Option Bool
  variableCount : ℕ
  trail : List ℕ
  trailLimits : List ℕ
  canceledAt : ℕ → ℕ
  conflicts : ℕ

namespace Steering

/-- A solver without variables. -/
def empty : Steering := ⟨.empty, fun _ => 0, fun _ => none, 0, [], [], fun _ => 0, 0⟩

/-- `grow_variables`: new variables have no value and no activity. -/
def grow (s : Steering) (newCount : ℕ) : Steering :=
  let activity := fun v => if v < s.variableCount then s.activity v else 0
  { s with
    order := s.order.grow activity s.variableCount newCount
    activity := activity
    assignments := fun v => if v < s.variableCount then s.assignments v else none
    variableCount := newCount }

/-- The activity of a variable rises. -/
def bump (s : Steering) (v : ℕ) (key : ℤ) : Steering :=
  let activity := Function.update s.activity v key
  { s with activity := activity, order := s.order.increase activity v }

/-- The activity of a variable rises or falls. -/
def rescore (s : Steering) (v : ℕ) (key : ℤ) : Steering :=
  let activity := Function.update s.activity v key
  { s with activity := activity, order := s.order.update activity v (s.activity v) }

/-- `peek_max`. -/
def peek (s : Steering) : Option ℕ × Steering :=
  let (v, order) := s.order.peekMax s.assignments s.activity (s.order.size + 1)
  (v, { s with order := order })

/-- `enqueue` for a variable without a value. -/
def enqueue (s : Steering) (v : ℕ) (value : Bool) : Steering :=
  { s with
    assignments := Function.update s.assignments v (some value)
    trail := s.trail ++ [v] }

/-- One iteration of `cancel_until_internal`.  With learning-rate scores the variable may get a
new one first. -/
def unassign (scores : Option (ℕ → Option ℤ)) (s : Steering) (v : ℕ) : Steering :=
  let s := match scores with
    | none => s
    | some reward =>
      let s := match reward v with
        | none => s
        | some key => s.rescore v key
      { s with canceledAt := Function.update s.canceledAt v s.conflicts }
  { s with
    assignments := Function.update s.assignments v none
    order := s.order.insert s.activity v }

/-- `cancel_until_internal`. -/
def cancelUntil (scores : Option (ℕ → Option ℤ)) (level : ℕ) (s : Steering) : Steering :=
  if s.trailLimits.length ≤ level then s
  else
    let target := s.trailLimits.getD level 0
    let s := (s.trail.drop target).reverse.foldl (unassign scores) s
    { s with trail := s.trail.take target, trailLimits := s.trailLimits.take level }

/-- `lrb_decay_stale_score` of a variable with a stale score. -/
def decayStaleScore (decay : ℕ → ℤ → ℤ) (s : Steering) (v : ℕ) : Steering :=
  { s.rescore v (decay (s.conflicts - s.canceledAt v) (s.activity v)) with
    canceledAt := Function.update s.canceledAt v s.conflicts }

/-- The loop of `pick_branch_literal` with learning-rate scores; the second argument bounds the
stale scores. -/
def pickDecayed (decay : ℕ → ℤ → ℤ) : ℕ → Steering → Option ℕ × Steering
  | 0, s => (none, s)
  | fuel + 1, s =>
    match s.peek with
    | (none, s) => (none, s)
    | (some v, s) =>
      if s.canceledAt v < s.conflicts then pickDecayed decay fuel (s.decayStaleScore decay v)
      else (some v, { s with order := (s.order.popMax s.activity).2 })

/-- The variable `pick_branch_literal` takes from the heap, with or without learning-rate
scores. -/
def pick (decay : Option (ℕ → ℤ → ℤ)) (s : Steering) : Option ℕ × Steering :=
  match decay with
  | some decay => pickDecayed decay (s.variableCount + 1) s
  | none =>
    let (v, order) := Solver.popUnassigned s.activity s.assignments (s.order.size + 1) s.order
    (v, { s with order := order })

/-- A decision: the picked variable opens a level. -/
def decide (decay : Option (ℕ → ℤ → ℤ)) (value : Bool) (s : Steering) : Steering :=
  match s.pick decay with
  | (none, s) => s
  | (some v, s) => { s with trailLimits := s.trailLimits ++ [s.trail.length] }.enqueue v value

/-- The states of a run. -/
inductive Reachable : Steering → Prop
  | start : Reachable empty
  | grow {s : Steering} (run : Reachable s) {newCount : ℕ} (le : s.variableCount ≤ newCount) :
      Reachable (s.grow newCount)
  | insert {s : Steering} (run : Reachable s) {v : ℕ} (known : v < s.variableCount) :
      Reachable { s with order := s.order.insert s.activity v }
  | bump {s : Steering} (run : Reachable s) {v : ℕ} {key : ℤ} (rise : s.activity v ≤ key) :
      Reachable (s.bump v key)
  | rescore {s : Steering} (run : Reachable s) (v : ℕ) (key : ℤ) : Reachable (s.rescore v key)
  | decay {s : Steering} (run : Reachable s) (decay : ℕ → ℤ → ℤ) (v : ℕ) :
      Reachable (s.decayStaleScore decay v)
  | peek {s : Steering} (run : Reachable s) : Reachable s.peek.2
  | conflict {s : Steering} (run : Reachable s) (conflicts : ℕ) :
      Reachable { s with conflicts := conflicts }
  | enqueue {s : Steering} (run : Reachable s) {v : ℕ} (known : v < s.variableCount)
      (free : s.assignments v = none) (value : Bool) : Reachable (s.enqueue v value)
  | decide {s : Steering} (run : Reachable s) (decay : Option (ℕ → ℤ → ℤ)) (value : Bool) :
      Reachable (s.decide decay value)
  | cancelUntil {s : Steering} (run : Reachable s) (scores : Option (ℕ → Option ℤ)) (level : ℕ) :
      Reachable (s.cancelUntil scores level)

/-! ### What a run keeps -/

variable {s s' : Steering} {decay : ℕ → ℤ → ℤ}

/-- The heap is in order and stores every variable without a value, except those named. -/
structure Steered (s : Steering) (missing : ℕ → Prop) : Prop where
  ok : s.order.Ok
  heaped : VarOrder.Heaped s.activity s.order
  known : ∀ v, s.order.Mem v → v < s.variableCount
  stored : ∀ v < s.variableCount, s.assignments v = none → s.order.Mem v ∨ missing v
  trail : ∀ v ∈ s.trail, v < s.variableCount

lemma Steered.mono {missing missing' : ℕ → Prop} (h : s.Steered missing)
    (hsub : ∀ v, missing v → missing' v) : s.Steered missing' :=
  { h with stored := fun v hv hn => (h.stored v hv hn).imp_right (hsub v) }

lemma steered_empty : empty.Steered fun _ => False where
  ok := VarOrder.empty_ok
  heaped p _ hsize := absurd hsize (Nat.not_lt_zero p)
  known v := by rintro ⟨p, hp, -⟩; exact absurd hp (Nat.not_lt_zero p)
  stored v hv := absurd hv (Nat.not_lt_zero v)
  trail v hv := by cases hv

variable {missing : ℕ → Prop}

lemma Steered.rescore (h : s.Steered missing) (v : ℕ) (key : ℤ) :
    (s.rescore v key).Steered missing := by
  have hsame : VarOrder.Same s.order
      (s.order.update (Function.update s.activity v key) v (s.activity v)) :=
    h.ok.same_update v (s.activity v)
  exact ⟨hsame.ok, h.heaped.update h.ok (VarOrder.sameBut_update v key _),
    fun w hw => h.known w ((hsame.mem w).1 hw),
    fun w hw hn => (h.stored w hw hn).imp_left (hsame.mem w).2, h.trail⟩

lemma Steered.bump (h : s.Steered missing) {v : ℕ} {key : ℤ} (hrise : s.activity v ≤ key) :
    (s.bump v key).Steered missing := by
  have hsame : VarOrder.Same s.order (s.order.increase (Function.update s.activity v key) v) :=
    h.ok.same_increase v
  refine ⟨hsame.ok, h.heaped.increase h.ok (VarOrder.sameBut_update v key _) ?_,
    fun w hw => h.known w ((hsame.mem w).1 hw),
    fun w hw hn => (h.stored w hw hn).imp_left (hsame.mem w).2, h.trail⟩
  have hself : Function.update s.activity v key v = key := Function.update_self _ _ _
  exact hrise.trans_eq hself.symm

lemma Steered.decayStaleScore (h : s.Steered missing) (decay : ℕ → ℤ → ℤ) (v : ℕ) :
    (s.decayStaleScore decay v).Steered missing := by
  obtain ⟨hok, hheaped, hknown, hstored, htrail⟩ := h.rescore v
    (decay (s.conflicts - s.canceledAt v) (s.activity v))
  exact ⟨hok, hheaped, hknown, hstored, htrail⟩

lemma Steered.insert (h : s.Steered missing) {v : ℕ} (hv : v < s.variableCount) :
    Steered { s with order := s.order.insert s.activity v } missing where
  ok := h.ok.insert v
  heaped := h.heaped.insert v
  known w hw := by
    rcases (h.ok.mem_insert v w).1 hw with rfl | hw
    · exact hv
    · exact h.known w hw
  stored w hw hn := (h.stored w hw hn).imp_left fun hm => (h.ok.mem_insert v w).2 (.inr hm)
  trail := h.trail

lemma Steered.grow (h : s.Steered missing) {newCount : ℕ} (hle : s.variableCount ≤ newCount) :
    (s.grow newCount).Steered missing := by
  have hheaped : VarOrder.Heaped (fun v => if v < s.variableCount then s.activity v else 0)
      s.order := by
    intro p hp hsize
    have hchild := h.known _ ⟨p, hsize, rfl⟩
    have hparent := h.known _ ⟨(p - 1) / 2, by omega, rfl⟩
    rw [higherPriority, if_pos hchild, if_pos hparent]
    exact h.heaped p hp hsize
  refine ⟨h.ok.grow _ _, hheaped.grow _ _, fun v hv => ?_, fun v hv hn => ?_, fun v hv => ?_⟩
  · rcases (h.ok.mem_grow hle v).1 hv with hnew | hold
    · exact hnew.2
    · exact (h.known v hold).trans_le hle
  · dsimp only [Steering.grow] at hv hn ⊢
    rw [h.ok.mem_grow hle]
    by_cases hold : v < s.variableCount
    · rw [if_pos hold] at hn
      exact (h.stored v hold hn).imp_left .inr
    · exact .inl (.inl ⟨not_lt.1 hold, hv⟩)
  · exact (h.trail v hv).trans_le hle

lemma Steered.peek (h : s.Steered missing) : s.peek.2.Steered missing := by
  obtain ⟨hok, hsub, hkeep, -, -⟩ :=
    @VarOrder.Ok.peekMax_spec s.activity s.assignments _ _ h.ok (Nat.lt_succ_self s.order.size)
  have hheaped := h.heaped.peekMax s.assignments (s.order.size + 1)
  exact ⟨hok, hheaped, fun w hw => h.known w (hsub w hw),
    fun w hw hn => (h.stored w hw hn).imp_left (hkeep w hn), h.trail⟩

/-- A variable that gets a value need not be stored. -/
lemma Steered.enqueue (h : s.Steered missing) {v : ℕ} (hv : v < s.variableCount) (value : Bool) :
    (s.enqueue v value).Steered fun w => missing w ∧ w ≠ v := by
  refine ⟨h.ok, h.heaped, h.known, fun w hw hn => ?_, fun w hw => ?_⟩
  · dsimp only [Steering.enqueue] at hn
    by_cases hwv : w = v
    · rw [hwv, Function.update_self] at hn
      cases hn
    · rw [Function.update_of_ne hwv] at hn
      exact (h.stored w hw hn).imp_right fun hm => ⟨hm, hwv⟩
  · rcases List.mem_append.1 hw with hw | hw
    · exact h.trail w hw
    · rwa [List.mem_singleton.1 hw]

/-- A variable that loses its value comes back into the heap. -/
lemma Steered.unassign (h : s.Steered missing) (scores : Option (ℕ → Option ℤ)) {v : ℕ}
    (hv : v < s.variableCount) : (s.unassign scores v).Steered missing ∧
      (s.unassign scores v).variableCount = s.variableCount ∧
      (s.unassign scores v).trail = s.trail := by
  have hscored : ∃ s₁ : Steering, s₁.Steered missing ∧ s₁.variableCount = s.variableCount ∧
      s₁.trail = s.trail ∧ s.unassign scores v = { s₁ with
        assignments := Function.update s₁.assignments v none
        order := s₁.order.insert s₁.activity v } := by
    cases scores with
    | none => exact ⟨s, h, rfl, rfl, rfl⟩
    | some reward =>
      cases hr : reward v with
      | none =>
        refine ⟨{ s with canceledAt := Function.update s.canceledAt v s.conflicts },
          ⟨h.ok, h.heaped, h.known, h.stored, h.trail⟩, rfl, rfl, ?_⟩
        rw [Steering.unassign]
        dsimp only
        rw [hr]
      | some key =>
        obtain ⟨hok, hheaped, hknown, hstored, htrail⟩ := h.rescore v key
        refine ⟨{ s.rescore v key with
            canceledAt := Function.update s.canceledAt v s.conflicts },
          ⟨hok, hheaped, hknown, hstored, htrail⟩, rfl, rfl, ?_⟩
        rw [Steering.unassign]
        dsimp only
        rw [hr]
        rfl
  obtain ⟨s₁, h₁, hcount, htrail, heq⟩ := hscored
  rw [heq]
  obtain ⟨hok, hheaped, hknown, -, htrail'⟩ := h₁.insert (hcount ▸ hv)
  refine ⟨⟨hok, hheaped, hknown, fun w hw hn => ?_, htrail'⟩, hcount, htrail⟩
  dsimp only at hw hn ⊢
  rw [h₁.ok.mem_insert]
  by_cases hwv : w = v
  · exact .inl (.inl hwv)
  · rw [Function.update_of_ne hwv] at hn
    exact (h₁.stored w hw hn).imp_left .inr

lemma Steered.foldl_unassign (h : s.Steered missing) (scores : Option (ℕ → Option ℤ)) {vs : List ℕ}
    (hvs : ∀ v ∈ vs, v < s.variableCount) :
    (vs.foldl (Steering.unassign scores) s).Steered missing := by
  induction vs generalizing s with
  | nil => exact h
  | cons v rest ih =>
    obtain ⟨hv, hrest⟩ := List.forall_mem_cons.1 hvs
    obtain ⟨h₁, hcount, -⟩ := h.unassign scores hv
    exact ih h₁ (hcount ▸ hrest)

lemma Steered.cancelUntil (h : s.Steered missing) (scores : Option (ℕ → Option ℤ)) (level : ℕ) :
    (s.cancelUntil scores level).Steered missing := by
  rw [Steering.cancelUntil]
  split
  · exact h
  dsimp only
  have hpopped : ∀ v ∈ (s.trail.drop (s.trailLimits.getD level 0)).reverse, v < s.variableCount :=
    fun v hv => h.trail v (List.mem_of_mem_drop (List.mem_reverse.1 hv))
  obtain ⟨hok, hheaped, hknown, hstored, htrail⟩ := h.foldl_unassign scores hpopped
  exact ⟨hok, hheaped, hknown, hstored, fun v hv => htrail v (List.mem_of_mem_take hv)⟩

/-! ### Picking -/

/-- The variable picked has no value and is outranked by no other variable without one; nothing
is picked only if there is none. -/
structure PickedBest (s : Steering) (v : Option ℕ) (s' : Steering) : Prop where
  steered : s'.Steered fun w => v = some w
  assignments : s'.assignments = s.assignments
  variableCount : s'.variableCount = s.variableCount
  best : ∀ w, v = some w → w < s.variableCount ∧ s.assignments w = none ∧
    ∀ u < s.variableCount, s.assignments u = none → ¬ higherPriority s'.activity u w = true
  all : v = none → ∀ u < s.variableCount, s.assignments u ≠ none

/-- Popping assigned variables away leaves the greatest unassigned one. -/
lemma popUnassigned_best (assignments : ℕ → Option Bool) (fuel : ℕ) {o : VarOrder} (hok : o.Ok)
    (h : VarOrder.Heaped activity o) (hfuel : o.size < fuel) :
    VarOrder.Heaped activity (Solver.popUnassigned activity assignments fuel o).2 ∧
      ∀ v, (Solver.popUnassigned activity assignments fuel o).1 = some v →
        ∀ u, o.Mem u → assignments u = none → ¬ higherPriority activity u v = true := by
  induction fuel generalizing o with
  | zero => omega
  | succ fuel ih =>
    obtain ⟨hok', hcase⟩ := hok.popMax_spec activity
    have hheaped := h.popMax
    rw [Solver.popUnassigned]
    generalize o.popMax activity = r at hok' hcase hheaped
    obtain ⟨v, o'⟩ := r
    rcases hcase with ⟨rfl, -, -⟩ | ⟨v, rfl, rfl, -, hsize, hmem⟩
    · exact ⟨hheaped, by simp⟩
    dsimp only at hok' hsize hmem hheaped ⊢
    split
    · refine ⟨hheaped, ?_⟩
      rintro v ⟨⟩ u hu -
      exact h.top hu
    · next hsome =>
      obtain ⟨hrest, hbest⟩ := ih hok' hheaped (by omega)
      refine ⟨hrest, fun v hv u hu hn => hbest v hv u ((hmem u).2 ⟨?_, hu⟩) hn⟩
      rintro rfl
      exact hsome (by rw [hn]; rfl)

/-- The loop with learning-rate scores ends, since every stale score is decayed once. -/
lemma pickDecayed_best (decay : ℕ → ℤ → ℤ) (fuel : ℕ) {s : Steering}
    (h : s.Steered fun _ => False)
    (hfuel : (Solver.stale s.variableCount s.conflicts s.canceledAt).card < fuel) :
    s.PickedBest (pickDecayed decay fuel s).1 (pickDecayed decay fuel s).2 := by
  induction fuel generalizing s with
  | zero => omega
  | succ fuel ih =>
    have hpeek := h.peek
    obtain ⟨-, -, -, htop, hnone⟩ :=
      @VarOrder.Ok.peekMax_spec s.activity s.assignments _ _ h.ok (Nat.lt_succ_self s.order.size)
    rw [pickDecayed]
    have heq : s.peek = ((s.order.peekMax s.assignments s.activity (s.order.size + 1)).1,
      { s with order := (s.order.peekMax s.assignments s.activity (s.order.size + 1)).2 }) := rfl
    rw [heq] at hpeek ⊢
    generalize s.order.peekMax s.assignments s.activity (s.order.size + 1) = r at *
    obtain ⟨v, o⟩ := r
    cases v with
    | none =>
      refine ⟨hpeek.mono fun _ hf => hf.elim, rfl, rfl, by simp, fun _ u hu hn => ?_⟩
      exact hnone rfl u ((h.stored u hu hn).resolve_right id) hn
    | some v =>
      obtain ⟨hv, htop, hmem⟩ := htop v rfl
      dsimp only at hpeek htop hmem ⊢
      split
      · next hstale =>
        have hless := Solver.stale_update (hpeek.known v hmem) hstale
        have hpicked := ih (hpeek.decayStaleScore decay v) (by
          dsimp only [decayStaleScore, rescore]
          dsimp only at hless
          omega)
        exact ⟨hpicked.steered, hpicked.assignments, hpicked.variableCount, hpicked.best,
          hpicked.all⟩
      · obtain ⟨hok, hcase⟩ := hpeek.ok.popMax_spec s.activity
        rcases hcase with ⟨-, hsize, -⟩ | ⟨w, -, hw, -, -, hpop⟩
        · obtain ⟨p, hp, -⟩ := hmem
          exact absurd hp (by rw [hsize]; exact Nat.not_lt_zero p)
        obtain rfl : w = v := hw.trans htop
        refine ⟨⟨hok, hpeek.heaped.popMax, fun u hu => hpeek.known u ((hpop u).1 hu).2,
          fun u hu hn => ?_, hpeek.trail⟩, rfl, rfl, ?_, by simp⟩
        · by_cases huw : u = w
          · exact .inr (huw ▸ rfl)
          · exact .inl ((hpop u).2 ⟨huw, (hpeek.stored u hu hn).resolve_right id⟩)
        · rintro _ ⟨⟩
          refine ⟨hpeek.known w hmem, hv, fun u hu hn => ?_⟩
          have hbest := hpeek.heaped.top ((hpeek.stored u hu hn).resolve_right id)
          dsimp only at hbest
          rwa [← hw] at hbest

/-- `pick_branch_literal` takes the best variable. -/
lemma Steered.pick (h : s.Steered fun _ => False) (decay : Option (ℕ → ℤ → ℤ)) :
    s.PickedBest (s.pick decay).1 (s.pick decay).2 := by
  cases decay with
  | some decay =>
    refine pickDecayed_best decay _ h ?_
    have hcard := Finset.card_filter_le (Finset.range s.variableCount)
      fun v => s.canceledAt v < s.conflicts
    rw [Finset.card_range] at hcard
    exact Nat.lt_succ_of_le hcard
  | none =>
    have hpicked := Solver.popUnassigned_spec s.activity s.assignments _ s.order h.ok
      (Nat.lt_succ_self _)
    obtain ⟨hheaped, hbest⟩ := popUnassigned_best s.assignments _ h.ok h.heaped
      (Nat.lt_succ_self _)
    have hstored (u : ℕ) (hu : u < s.variableCount) (hn : s.assignments u = none) :
        s.order.Mem u := (h.stored u hu hn).resolve_right id
    refine ⟨⟨hpicked.ok, hheaped, fun u hu => h.known u (hpicked.sub u hu),
      fun u hu hn => hpicked.rest u hn (hstored u hu hn), h.trail⟩, rfl, rfl, fun w hw => ?_,
      fun hn u hu hnu => hpicked.all hn u (hstored u hu hnu) hnu⟩
    obtain ⟨hn, hm⟩ := hpicked.picked w hw
    exact ⟨h.known w hm, hn, fun u hu hnu => hbest w hw u (hstored u hu hnu) hnu⟩

/-- A decision gives the picked variable a value, so that none is lost. -/
lemma Steered.decide (h : s.Steered fun _ => False) (decay : Option (ℕ → ℤ → ℤ)) (value : Bool) :
    (s.decide decay value).Steered fun _ => False := by
  have hpicked := h.pick decay
  rw [Steering.decide]
  generalize s.pick decay = r at hpicked
  obtain ⟨v, s'⟩ := r
  cases v with
  | none => exact hpicked.steered.mono fun _ hw => by cases hw
  | some v =>
    obtain ⟨hok, hheaped, hknown, hstored, htrail⟩ := hpicked.steered
    have hv : v < s'.variableCount := hpicked.variableCount ▸ (hpicked.best v rfl).1
    have hopened : Steered { s' with trailLimits := s'.trailLimits ++ [s'.trail.length] }
        fun w => some v = some w := ⟨hok, hheaped, hknown, hstored, htrail⟩
    exact (hopened.enqueue hv value).mono fun w hw => hw.2 (Option.some.inj hw.1).symm

/-- Every step keeps the invariant. -/
lemma Reachable.steered (h : Reachable s) : s.Steered fun _ => False := by
  induction h with
  | start => exact steered_empty
  | grow run le ih => exact ih.grow le
  | insert run known ih => exact ih.insert known
  | bump run rise ih => exact ih.bump rise
  | rescore run v key ih => exact ih.rescore v key
  | decay run decay v ih => exact ih.decayStaleScore decay v
  | peek run ih => exact ih.peek
  | conflict run conflicts ih => exact ⟨ih.ok, ih.heaped, ih.known, ih.stored, ih.trail⟩
  | enqueue run known free value ih => exact (ih.enqueue known value).mono fun _ hw => hw.1
  | decide run decay value ih => exact ih.decide decay value
  | cancelUntil run scores level ih => exact ih.cancelUntil scores level

end Steering

/-- **The decision heap is sound.**  On its own it keeps, in every run, the positions inverse to
the array and no variable above one that outranks it.  Together with decisions, assignments and
backtracking in any order it stores every variable without a value, a decision takes one that no
other outranks, and finds none only if all variables have values. -/
theorem decision_heap_sound :
    (∀ o activity, VarOrder.Reachable o activity → o.Ok ∧ VarOrder.Heaped activity o) ∧
      ∀ s, Steering.Reachable s → s.order.Ok ∧ VarOrder.Heaped s.activity s.order ∧
        (∀ v < s.variableCount, s.assignments v = none → s.order.Mem v) ∧
        ∀ decay, s.PickedBest (s.pick decay).1 (s.pick decay).2 :=
  ⟨fun _ _ h => h.ok_and_heaped, fun _ h => ⟨h.steered.ok, h.steered.heaped,
    fun v hv hn => (h.steered.stored v hv hn).resolve_right id, h.steered.pick⟩⟩

end Satrap
