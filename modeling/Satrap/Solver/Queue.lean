/-
# Runs of the move-to-front queue

The operations of the queue in any order, together with the assignments they read: in every state
that a run reaches the links describe one list of all variables in the order of their stamps, all
variables behind the search pointer are assigned, and `pick` finds the unassigned variable with
the greatest stamp.
-/
import Satrap.Solver.State

namespace Satrap

namespace VmtfOrder

variable {o : VmtfOrder} {assignments : ℕ → Option Bool} {order before after : List ℕ} {v : ℕ}

/-! ### The list as a whole -/

/-- The links describe the list: it holds every variable once, its stamps increase, and every
variable is linked to its neighbours. -/
structure InOrder (o : VmtfOrder) (order : List ℕ) : Prop where
  perm : order.Perm (List.range o.size)
  stamps : order.Pairwise fun i j => (o.links i).stamp < (o.links j).stamp
  first : o.first = order.head?
  last : o.last = order.getLast?
  links : ∀ before i after, order = before ++ i :: after →
    (o.links i).previous = before.getLast? ∧ (o.links i).next = after.head?

/-- The variables in the order of their stamps. -/
def sorted (o : VmtfOrder) : List ℕ :=
  (List.range o.size).insertionSort fun i j => (o.links i).stamp ≤ (o.links j).stamp

lemma perm_sorted (o : VmtfOrder) : o.sorted.Perm (List.range o.size) :=
  List.perm_insertionSort _ _

lemma mem_sorted : v ∈ o.sorted ↔ v ∈ Finset.range o.size := by
  rw [(perm_sorted o).mem_iff, List.mem_range, Finset.mem_range]

lemma Linked.pairwise_sorted (h : o.Linked (Finset.range o.size)) :
    o.sorted.Pairwise fun i j => (o.links i).stamp < (o.links j).stamp := by
  have hnodup : o.sorted.Nodup := (perm_sorted o).nodup_iff.2 List.nodup_range
  have hle : o.sorted.Pairwise fun i j => (o.links i).stamp ≤ (o.links j).stamp :=
    List.pairwise_insertionSort _ _
  refine (hle.and hnodup).imp_of_mem fun {i j} hi hj hij => lt_of_le_of_ne hij.1 fun heq => ?_
  exact hij.2 (h.stamp_inj i (mem_sorted.1 hi) j (mem_sorted.1 hj) heq)

/-- In a list with increasing stamps the neighbour towards the front is the one that comes
before. -/
lemma isPrevious_iff {P : Finset ℕ} {i j : ℕ} (hmem : ∀ v, v ∈ before ++ i :: after ↔ v ∈ P)
    (hstamps : (before ++ i :: after).Pairwise fun i j => (o.links i).stamp < (o.links j).stamp) :
    o.IsPrevious P j i ↔ before.getLast? = some j := by
  obtain ⟨hbefore, hrest, hcross⟩ := List.pairwise_append.1 hstamps
  have hafter := (List.pairwise_cons.1 hrest).1
  -- what is in front of `i` is what has a smaller stamp
  have hfront (v : ℕ) (hv : v ∈ P) (hlt : (o.links v).stamp < (o.links i).stamp) : v ∈ before := by
    rcases List.mem_append.1 ((hmem v).2 hv) with hb | hr
    · exact hb
    · rcases List.mem_cons.1 hr with rfl | ha
      · exact absurd hlt (lt_irrefl _)
      · exact absurd hlt (hafter v ha).not_gt
  constructor
  · rintro ⟨hj, hlt, hmax⟩
    have hjb := hfront j hj hlt
    obtain ⟨start, k, rfl⟩ := (List.eq_nil_or_concat' before).resolve_left
      (List.ne_nil_of_mem hjb)
    have hk : k ∈ start ++ [k] := List.mem_concat_self
    have hmax' := hmax k ((hmem k).1 (List.mem_append_left _ hk))
      (hcross k hk i List.mem_cons_self)
    rw [List.getLast?_concat]
    rcases List.mem_append.1 hjb with hjs | hjk
    · have hjk := (List.pairwise_append.1 hbefore).2.2 j hjs k List.mem_cons_self
      exact absurd hmax' hjk.not_ge
    · rw [List.mem_singleton.1 hjk]
  · intro hlast
    obtain ⟨start, rfl⟩ := List.getLast?_eq_some_iff.1 hlast
    have hj : j ∈ start ++ [j] := List.mem_concat_self
    refine ⟨(hmem j).1 (List.mem_append_left _ hj), hcross j hj i List.mem_cons_self,
      fun k hk hlt => ?_⟩
    rcases List.mem_append.1 (hfront k hk hlt) with hks | hkj
    · exact ((List.pairwise_append.1 hbefore).2.2 k hks j List.mem_cons_self).le
    · rw [List.mem_singleton.1 hkj]

/-- The neighbour towards the back is the one that comes after. -/
lemma isNext_iff {P : Finset ℕ} {i j : ℕ} (hmem : ∀ v, v ∈ before ++ i :: after ↔ v ∈ P)
    (hstamps : (before ++ i :: after).Pairwise fun i j => (o.links i).stamp < (o.links j).stamp) :
    j ∈ P ∧ o.IsPrevious P i j ↔ after.head? = some j := by
  obtain ⟨-, hrest, hcross⟩ := List.pairwise_append.1 hstamps
  obtain ⟨hafter, hback⟩ := List.pairwise_cons.1 hrest
  constructor
  · rintro ⟨hj, -, hlt, hmax⟩
    have hja : j ∈ after := by
      rcases List.mem_append.1 ((hmem j).2 hj) with hb | hr
      · exact absurd hlt (hcross j hb i List.mem_cons_self).not_gt
      · rcases List.mem_cons.1 hr with rfl | ha
        · exact absurd hlt (lt_irrefl _)
        · exact ha
    obtain ⟨k, rest, rfl⟩ := List.exists_cons_of_ne_nil (List.ne_nil_of_mem hja)
    rcases List.mem_cons.1 hja with rfl | hjr
    · rfl
    · have hk : k ∈ P := (hmem k).1 (List.mem_append_right _ (List.mem_cons_of_mem _
        List.mem_cons_self))
      have hle := hmax k hk ((List.pairwise_cons.1 hback).1 j hjr)
      exact absurd (hafter k List.mem_cons_self) hle.not_gt
  · intro hhead
    obtain ⟨rest, rfl⟩ := List.head?_eq_some_iff.1 hhead
    have hj : j ∈ P := (hmem j).1 (List.mem_append_right _ (List.mem_cons_of_mem _
      List.mem_cons_self))
    have hi : i ∈ P := (hmem i).1 (List.mem_append_right _ List.mem_cons_self)
    refine ⟨hj, hi, hafter j List.mem_cons_self, fun k hk hlt => ?_⟩
    rcases List.mem_append.1 ((hmem k).2 hk) with hb | hr
    · exact (hcross k hb i List.mem_cons_self).le
    rcases List.mem_cons.1 hr with rfl | hr
    · exact le_rfl
    rcases List.mem_cons.1 hr with rfl | hr
    · exact absurd hlt (lt_irrefl _)
    · exact absurd hlt ((List.pairwise_cons.1 hback).1 k hr).not_gt

/-- Linked variables are one list. -/
lemma Linked.inOrder (h : o.Linked (Finset.range o.size)) : o.InOrder o.sorted := by
  have hstamps := h.pairwise_sorted
  refine ⟨perm_sorted o, hstamps, ?_, ?_, fun before i after horder => ?_⟩
  · ext f
    rw [h.first_iff]
    constructor
    · rintro ⟨hf, hmin⟩
      obtain ⟨k, rest, hsorted⟩ := List.exists_cons_of_ne_nil
        (List.ne_nil_of_mem (mem_sorted.2 hf))
      have hk : k ∈ Finset.range o.size := mem_sorted.1 (hsorted ▸ List.mem_cons_self)
      have hf' := mem_sorted.2 hf
      rw [hsorted] at hstamps hf' ⊢
      rcases List.mem_cons.1 hf' with rfl | hf'
      · rfl
      · exact absurd (hmin k hk) ((List.pairwise_cons.1 hstamps).1 f hf').not_ge
    · intro hhead
      obtain ⟨rest, hsorted⟩ := List.head?_eq_some_iff.1 hhead
      refine ⟨mem_sorted.1 (hsorted ▸ List.mem_cons_self), fun k hk => ?_⟩
      have hk' := mem_sorted.2 hk
      rw [hsorted] at hstamps hk'
      rcases List.mem_cons.1 hk' with rfl | hk'
      · exact le_rfl
      · exact ((List.pairwise_cons.1 hstamps).1 k hk').le
  · ext l
    rw [h.last_iff]
    constructor
    · rintro ⟨hl, hmax⟩
      obtain ⟨start, k, hsorted⟩ := (List.eq_nil_or_concat' o.sorted).resolve_left
        (List.ne_nil_of_mem (mem_sorted.2 hl))
      have hk : k ∈ Finset.range o.size := mem_sorted.1 (hsorted ▸ List.mem_concat_self)
      have hl' := mem_sorted.2 hl
      rw [hsorted] at hstamps hl' ⊢
      rw [List.getLast?_concat]
      rcases List.mem_append.1 hl' with hls | hlk
      · exact absurd (hmax k hk)
          ((List.pairwise_append.1 hstamps).2.2 l hls k List.mem_cons_self).not_ge
      · rw [List.mem_singleton.1 hlk]
    · intro hlast
      obtain ⟨start, hsorted⟩ := List.getLast?_eq_some_iff.1 hlast
      refine ⟨mem_sorted.1 (hsorted ▸ List.mem_concat_self), fun k hk => ?_⟩
      have hk' := mem_sorted.2 hk
      rw [hsorted] at hstamps hk'
      rcases List.mem_append.1 hk' with hks | hkl
      · exact ((List.pairwise_append.1 hstamps).2.2 k hks l List.mem_cons_self).le
      · rw [List.mem_singleton.1 hkl]
  · have hmem (v : ℕ) : v ∈ before ++ i :: after ↔ v ∈ Finset.range o.size := by
      rw [← horder, mem_sorted]
    have hi : i ∈ Finset.range o.size :=
      (hmem i).1 (List.mem_append_right _ List.mem_cons_self)
    rw [horder] at hstamps
    constructor
    · ext j
      rw [h.previous_iff i hi, isPrevious_iff hmem hstamps]
    · ext j
      rw [h.next_iff i hi, isNext_iff hmem hstamps]

/-! ### Stamps are machine integers -/

lemma renumber_stamp_le (fuel : ℕ) (current : Option ℕ) (o : VmtfOrder) :
    (renumber fuel current o).stamp ≤ o.stamp + fuel := by
  induction fuel generalizing current o with
  | zero => cases current <;> exact le_rfl
  | succ fuel ih =>
    cases current with
    | none => exact Nat.le_add_right _ _
    | some current =>
      rw [renumber]
      refine (ih _ _).trans ?_
      dsimp only
      omega

/-- The counter does not overflow: it is renumbered at its maximum. -/
lemma advanceStamp_stamp_le (hsize : o.size ≤ maxVariables) (h : o.stamp ≤ maxStamp) :
    o.advanceStamp.stamp ≤ maxStamp := by
  have hbound : maxVariables < maxStamp := by decide
  rw [advanceStamp]
  split
  · have hle := renumber_stamp_le o.size o.first { o with stamp := 0 }
    dsimp only at hle ⊢
    omega
  · next hne =>
    dsimp only
    omega

lemma moveToFront_stamp_le (hsize : o.size ≤ maxVariables) (h : o.stamp ≤ maxStamp) :
    (o.moveToFront assignments v).stamp ≤ maxStamp := by
  rw [moveToFront]
  split
  · split <;> exact h
  · have hunlinked (search : Option ℕ) :
        (({ o with search := search }.unlink v).advanceStamp.append v).stamp ≤ maxStamp := by
      rw [append_stamp]
      refine advanceStamp_stamp_le ?_ ?_
      · rwa [unlink_size]
      · rwa [unlink_stamp]
    dsimp only
    split <;> exact hunlinked _

lemma foldl_moveToFront_stamp_le (h : o.Ok assignments) (hsize : o.size ≤ maxVariables)
    (hstamp : o.stamp ≤ maxStamp) {vs : List ℕ} (hvs : ∀ v ∈ vs, v < o.size) :
    (vs.foldl (moveToFront assignments) o).stamp ≤ maxStamp := by
  induction vs generalizing o with
  | nil => exact hstamp
  | cons v rest ih =>
    obtain ⟨hv, hrest⟩ := List.forall_mem_cons.1 hvs
    obtain ⟨hok, hsame⟩ := h.moveToFront hv
    exact ih hok (hsame ▸ hsize) (moveToFront_stamp_le hsize hstamp) (hsame ▸ hrest)

lemma foldl_growOne_stamp_le (h : o.Ok assignments) (hstamp : o.stamp ≤ maxStamp) {vs : List ℕ}
    (hsize : o.size + vs.length ≤ maxVariables) :
    (vs.foldl (fun o _ => o.growOne) o).stamp ≤ maxStamp := by
  induction vs generalizing o with
  | nil => exact hstamp
  | cons v rest ih =>
    obtain ⟨hok, hsame⟩ := h.growOne
    rw [List.length_cons] at hsize
    have hgrown : o.growOne.stamp ≤ maxStamp := by
      rw [growOne]
      dsimp only
      rw [append_stamp]
      exact advanceStamp_stamp_le (by omega) hstamp
    have hsum : o.growOne.size + rest.length ≤ maxVariables := by omega
    exact ih hok hgrown hsum

lemma walk_stamp (fuel : ℕ) (o : VmtfOrder) : (walk assignments fuel o).stamp = o.stamp ∧
    (walk assignments fuel o).links = o.links ∧ (walk assignments fuel o).size = o.size := by
  obtain ⟨s, hs⟩ := walk_search_eq assignments fuel o
  rw [hs]
  exact ⟨rfl, rfl, rfl⟩

/-! ### Runs -/

/-- What the operations make of the queue and of the assignments: variables are added without a
value, and a variable that loses its value is reported to the queue. -/
inductive Reachable : VmtfOrder → (ℕ → Option Bool) → Prop
  | start : Reachable empty fun _ => none
  | grow {o : VmtfOrder} {assignments : ℕ → Option Bool} (run : Reachable o assignments)
      {newCount : ℕ} (le : o.size ≤ newCount) (limit : newCount ≤ maxVariables) :
      Reachable (o.grow o.size newCount) fun v => if v < o.size then assignments v else none
  | bump {o : VmtfOrder} {assignments : ℕ → Option Bool} (run : Reachable o assignments)
      {analyzed : List ℕ} (known : ∀ v ∈ analyzed, v < o.size) :
      Reachable (o.bumpAnalyzed assignments analyzed) assignments
  | reset {o : VmtfOrder} {assignments : ℕ → Option Bool} (run : Reachable o assignments) :
      Reachable (o.resetSearch assignments) assignments
  | pick {o : VmtfOrder} {assignments : ℕ → Option Bool} (run : Reachable o assignments) :
      Reachable (o.pick assignments).2 assignments
  | assign {o : VmtfOrder} {assignments : ℕ → Option Bool} (run : Reachable o assignments)
      {v : ℕ} (known : v < o.size) (value : Bool) :
      Reachable o (Function.update assignments v (some value))
  | unassign {o : VmtfOrder} {assignments : ℕ → Option Bool} (run : Reachable o assignments)
      {v : ℕ} (known : v < o.size) :
      Reachable (o.unassign v) (Function.update assignments v none)

/-- The invariant of a run. -/
structure Bounded (o : VmtfOrder) (assignments : ℕ → Option Bool) : Prop extends
    Ok o assignments where
  size_le : o.size ≤ maxVariables
  stamp_le : o.stamp ≤ maxStamp

/-- Every operation keeps the invariant. -/
lemma Reachable.bounded (h : Reachable o assignments) : Bounded o assignments := by
  induction h with
  | start => exact ⟨empty_ok, Nat.zero_le _, Nat.zero_le _⟩
  | @grow o assignments run newCount le limit ih =>
    have hok : o.Ok fun v => if v < o.size then assignments v else none :=
      ih.toOk.mono fun v hv hn => by rwa [if_pos hv] at hn
    obtain ⟨hok', hsize⟩ := hok.grow o.size newCount
    refine ⟨hok', by omega, foldl_growOne_stamp_le hok ih.stamp_le ?_⟩
    rw [List.length_range']
    omega
  | @bump o assignments run analyzed known ih =>
    obtain ⟨hok, hsize⟩ := ih.toOk.bumpAnalyzed known
    refine ⟨hok, hsize ▸ ih.size_le, foldl_moveToFront_stamp_le ih.toOk ih.size_le ih.stamp_le ?_⟩
    exact fun v hv => known v ((List.mem_insertionSort _).1 hv)
  | @reset o assignments run ih =>
    obtain ⟨hok, hsize⟩ := ih.toOk.resetSearch
    refine ⟨hok, hsize ▸ ih.size_le, ?_⟩
    rw [resetSearch, (walk_stamp _ _).1]
    exact ih.stamp_le
  | @pick o assignments run ih =>
    obtain ⟨hok, hsize, -, -⟩ := ih.toOk.pick_spec
    refine ⟨hok, hsize ▸ ih.size_le, ?_⟩
    rw [VmtfOrder.pick, (walk_stamp _ _).1]
    exact ih.stamp_le
  | @assign o assignments run v known value ih =>
    refine ⟨ih.toOk.mono fun w _ hn => ?_, ih.size_le, ih.stamp_le⟩
    by_cases hwv : w = v
    · rw [hwv, Function.update_self] at hn
      cases hn
    · rwa [Function.update_of_ne hwv] at hn
  | @unassign o assignments run v known ih =>
    refine ⟨ih.toOk.unassign known fun w _ hne hn => ?_, ?_, ?_⟩
    · rwa [Function.update_of_ne hne] at hn
    · rw [unassign_size]
      exact ih.size_le
    · rw [VmtfOrder.unassign]
      have hle := ih.stamp_le
      split
      · exact hle
      · split <;> exact hle

/-- What the search relies on. -/
structure Serves (o : VmtfOrder) (assignments : ℕ → Option Bool) : Prop where
  list : o.InOrder o.sorted
  stamp_le : o.stamp ≤ maxStamp
  disconnected : o.search = none → ∀ v < o.size, assignments v ≠ none
  connected : ∀ s, o.search = some s → s ∈ o.sorted
  behind : ∀ before s after, o.sorted = before ++ s :: after → o.search = some s →
    ∀ v ∈ after, assignments v ≠ none
  picked : ∀ v, (o.pick assignments).1 = some v → v < o.size ∧ assignments v = none ∧
    ∀ w < o.size, assignments w = none → (o.links w).stamp ≤ (o.links v).stamp
  exhausted : (o.pick assignments).1 = none ↔ ∀ v < o.size, assignments v ≠ none

/-- **The queue serves every run**: it stays one list of all variables with increasing stamps, no
unassigned variable lies behind the search pointer, and `pick` returns the unassigned variable
with the greatest stamp, or none when there is none. -/
theorem serves_of_reachable (h : Reachable o assignments) : Serves o assignments := by
  have hb := h.bounded
  have hl := hb.linked
  obtain ⟨hok, -, hpicked, hnone⟩ := hb.toOk.pick_spec
  have hlist := hl.inOrder
  refine ⟨hlist, hb.stamp_le, fun hs v hv hn => ?_, fun s hs => ?_,
    fun before s after horder hs v hv hn => ?_, fun v hv => ?_, hnone, fun hall => ?_⟩
  · obtain ⟨s, hs', -⟩ := hb.front v hv hn
    rw [hs] at hs'
    cases hs'
  · exact mem_sorted.2 (Finset.mem_range.2 (hb.search_lt s hs))
  · -- a variable behind the pointer has a greater stamp
    have hstamps := hlist.stamps
    rw [horder] at hstamps
    have hlt := (List.pairwise_cons.1 (List.pairwise_append.1 hstamps).2.1).1 v hv
    have hvs : v ∈ o.sorted :=
      horder ▸ List.mem_append_right _ (List.mem_cons_of_mem _ hv)
    obtain ⟨s', hs', hle⟩ := hb.front v (Finset.mem_range.1 (mem_sorted.1 hvs)) hn
    obtain rfl : s = s' := Option.some.inj (hs.symm.trans hs')
    exact absurd hlt hle.not_gt
  · obtain ⟨hlt, hn⟩ := hpicked v hv
    refine ⟨hlt, hn, fun w hw hwn => ?_⟩
    obtain ⟨-, hlinks, hsize⟩ := @walk_stamp assignments (o.size + 1) o
    obtain ⟨s, hs, hle⟩ := hok.front w (hsize.symm ▸ hw) hwn
    obtain rfl : v = s := Option.some.inj (hv.symm.trans hs)
    rwa [VmtfOrder.pick, hlinks] at hle
  · by_contra hne
    obtain ⟨v, hv⟩ := Option.ne_none_iff_exists'.1 hne
    exact hall v (hpicked v hv).1 (hpicked v hv).2

/-- Three variables, the last of which has a value: the second one is picked. -/
theorem serves_of_reachable_three :
    Serves (empty.grow 0 3) (Function.update (fun _ => none) 2 (some true)) ∧
      ((empty.grow 0 3).pick (Function.update (fun _ => none) 2 (some true))).1 = some 1 := by
  have hgrown : Reachable (empty.grow 0 3) _ := Reachable.start.grow (by decide) (by decide)
  refine ⟨serves_of_reachable ?_, by decide +kernel⟩
  have hassigned : Reachable (empty.grow 0 3) _ := hgrown.assign (v := 2) (by decide) true
  simpa using hassigned

end VmtfOrder

end Satrap
