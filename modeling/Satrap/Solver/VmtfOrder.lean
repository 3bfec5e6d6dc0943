/-
# The move-to-front queue

`VmtfOrder` is the doubly linked list from which the focused branching modes take their next
decision: variables are kept in the order of their last bump, and `search` points at a
variable behind which every variable is assigned.  The links are specified through the
stamps alone: `previous` and `next` are the neighbours in the order of the stamps.
-/
import Mathlib.Data.Finset.Max
import Mathlib.Data.List.Sort
import Mathlib.Order.Lattice
import Mathlib.Tactic.Common

namespace Satrap

structure VmtfLink where
  previous : Option ℕ
  next : Option ℕ
  stamp : ℕ

/-- The links of the variables `0..size`, the ends of the list, the search pointer and the
stamp counter. -/
structure VmtfOrder where
  size : ℕ
  links : ℕ → VmtfLink
  first : Option ℕ
  last : Option ℕ
  search : Option ℕ
  stamp : ℕ

namespace VmtfOrder

/-- `u64::MAX`, at which the stamps are renumbered. -/
def maxStamp : ℕ := 2 ^ 64 - 1

/-- The list of a solver without variables. -/
def empty : VmtfOrder := ⟨0, fun _ => ⟨none, none, 0⟩, none, none, none, 0⟩

def setPrevious (o : VmtfOrder) (i : ℕ) (previous : Option ℕ) : VmtfOrder :=
  { o with links := Function.update o.links i { o.links i with previous := previous } }

def setNext (o : VmtfOrder) (i : ℕ) (next : Option ℕ) : VmtfOrder :=
  { o with links := Function.update o.links i { o.links i with next := next } }

/-- The renumbering loop of `advance_stamp`, from `current` to the end of the list; the
first argument bounds the number of variables left. -/
def renumber : ℕ → Option ℕ → VmtfOrder → VmtfOrder
  | fuel + 1, some current, o =>
    renumber fuel (o.links current).next
      { o with
        stamp := o.stamp + 1
        links := Function.update o.links current
          { o.links current with stamp := o.stamp + 1 } }
  | _, _, o => o

/-- `advance_stamp`. -/
def advanceStamp (o : VmtfOrder) : VmtfOrder :=
  let o := if o.stamp = maxStamp then renumber o.size o.first { o with stamp := 0 } else o
  { o with stamp := o.stamp + 1 }

/-- Link `index` behind the last variable, with the current stamp. -/
def append (o : VmtfOrder) (index : ℕ) : VmtfOrder :=
  let linked := { o with
    links := Function.update o.links index ⟨o.last, none, o.stamp⟩, last := some index }
  match o.last with
  | none => { linked with first := some index }
  | some previous => linked.setNext previous (some index)

/-- `grow` for one new variable. -/
def growOne (o : VmtfOrder) : VmtfOrder :=
  let o := o.advanceStamp
  { o.append o.size with size := o.size + 1, search := some o.size }

/-- `grow`. -/
def grow (o : VmtfOrder) (oldCount newCount : ℕ) : VmtfOrder :=
  (List.range' oldCount (newCount - oldCount)).foldl (fun o _ => o.growOne) o

/-- Take `index` out of the list. -/
def unlink (o : VmtfOrder) (index : ℕ) : VmtfOrder :=
  let previous := (o.links index).previous
  let next := (o.links index).next
  let o := match previous with
    | none => { o with first := next }
    | some p => o.setNext p next
  match next with
  | none => o
  | some n => o.setPrevious n previous

/-- `move_to_front`. -/
def moveToFront (assignments : ℕ → Option Bool) (o : VmtfOrder) (index : ℕ) : VmtfOrder :=
  if o.last = some index then
    if (assignments index).isNone then { o with search := some index } else o
  else
    let previous := (o.links index).previous
    let search :=
      if o.search = some index ∧ (assignments index).isSome then
        if previous.isSome then previous else (o.links index).next
      else o.search
    let o := (({ o with search := search }.unlink index).advanceStamp).append index
    if (assignments index).isNone then { o with search := some index } else o

/-- `bump_analyzed`: the variables move to the front in the order of their stamps. -/
def bumpAnalyzed (assignments : ℕ → Option Bool) (o : VmtfOrder) (analyzed : List ℕ) :
    VmtfOrder :=
  (analyzed.insertionSort fun i j => (o.links i).stamp ≤ (o.links j).stamp).foldl
    (moveToFront assignments) o

/-- `unassign`. -/
def unassign (o : VmtfOrder) (index : ℕ) : VmtfOrder :=
  match o.search with
  | none => { o with search := some index }
  | some s =>
    if (o.links s).stamp < (o.links index).stamp then { o with search := some index } else o

/-- The walk of `reset_search` and `pick` towards the front; the first argument bounds the
number of variables it can pass. -/
def walk (assignments : ℕ → Option Bool) : ℕ → VmtfOrder → VmtfOrder
  | 0, o => o
  | fuel + 1, o =>
    match o.search with
    | none => o
    | some index =>
      if (assignments index).isNone then o
      else walk assignments fuel { o with search := (o.links index).previous }

/-- `reset_search`. -/
def resetSearch (assignments : ℕ → Option Bool) (o : VmtfOrder) : VmtfOrder :=
  walk assignments (o.size + 1) { o with search := o.last }

/-- `pick`. -/
def pick (assignments : ℕ → Option Bool) (o : VmtfOrder) : Option ℕ × VmtfOrder :=
  let o := walk assignments (o.size + 1) o
  (o.search, o)

/-! ### The list -/

/-- `j` is the neighbour of `i` towards the front among the variables `P`. -/
def IsPrevious (o : VmtfOrder) (P : Finset ℕ) (j i : ℕ) : Prop :=
  j ∈ P ∧ (o.links j).stamp < (o.links i).stamp ∧
    ∀ k ∈ P, (o.links k).stamp < (o.links i).stamp → (o.links k).stamp ≤ (o.links j).stamp

/-- The links describe the variables `P` in the order of their stamps. -/
structure Linked (o : VmtfOrder) (P : Finset ℕ) : Prop where
  stamp_inj : ∀ i ∈ P, ∀ j ∈ P, (o.links i).stamp = (o.links j).stamp → i = j
  stamp_le : ∀ i ∈ P, (o.links i).stamp ≤ o.stamp
  previous_iff : ∀ i ∈ P, ∀ j, (o.links i).previous = some j ↔ o.IsPrevious P j i
  next_iff : ∀ i ∈ P, ∀ j, (o.links i).next = some j ↔ j ∈ P ∧ o.IsPrevious P i j
  first_iff : ∀ f, o.first = some f ↔ f ∈ P ∧ ∀ k ∈ P, (o.links f).stamp ≤ (o.links k).stamp
  last_iff : ∀ l, o.last = some l ↔ l ∈ P ∧ ∀ k ∈ P, (o.links k).stamp ≤ (o.links l).stamp

variable {o : VmtfOrder} {P : Finset ℕ}

lemma exists_isPrevious {i k : ℕ} (hk : k ∈ P) (hlt : (o.links k).stamp < (o.links i).stamp) :
    ∃ j, o.IsPrevious P j i := by
  obtain ⟨j, hj, hmax⟩ := Finset.exists_max_image
    (P.filter fun k => (o.links k).stamp < (o.links i).stamp) (fun k => (o.links k).stamp)
    ⟨k, by simp [hk, hlt]⟩
  simp only [Finset.mem_filter] at hj hmax
  exact ⟨j, hj.1, hj.2, fun k hk hlt => hmax k ⟨hk, hlt⟩⟩

lemma unlink_stamp (o : VmtfOrder) (x : ℕ) : (o.unlink x).stamp = o.stamp := by
  rw [unlink]
  cases (o.links x).previous <;> cases (o.links x).next <;> rfl

lemma unlink_last (o : VmtfOrder) (x : ℕ) : (o.unlink x).last = o.last := by
  rw [unlink]
  cases (o.links x).previous <;> cases (o.links x).next <;> rfl

lemma unlink_size (o : VmtfOrder) (x : ℕ) : (o.unlink x).size = o.size := by
  rw [unlink]
  cases (o.links x).previous <;> cases (o.links x).next <;> rfl

lemma unlink_search (o : VmtfOrder) (x : ℕ) : (o.unlink x).search = o.search := by
  rw [unlink]
  cases (o.links x).previous <;> cases (o.links x).next <;> rfl

lemma unlink_first (o : VmtfOrder) (x : ℕ) :
    (o.unlink x).first = if (o.links x).previous = none then (o.links x).next else o.first := by
  rw [unlink]
  cases (o.links x).previous <;> cases (o.links x).next <;> rfl

lemma unlink_links (o : VmtfOrder) (x i : ℕ) :
    ((o.unlink x).links i).stamp = (o.links i).stamp ∧
    ((o.unlink x).links i).previous =
      (if (o.links x).next = some i then (o.links x).previous else (o.links i).previous) ∧
    ((o.unlink x).links i).next =
      (if (o.links x).previous = some i then (o.links x).next else (o.links i).next) := by
  rw [unlink]
  cases (o.links x).previous <;> cases (o.links x).next <;>
    simp only [setNext, setPrevious, Function.update_apply] <;> grind

/-- Taking a variable that is not the last out of the list leaves the others linked. -/
lemma Linked.unlink (h : o.Linked P) {x : ℕ} (hx : x ∈ P) (hlast : o.last ≠ some x) :
    (o.unlink x).Linked (P.erase x) := by
  have hstamp := fun i => (unlink_links o x i).1
  have hprev : ∀ i j, (o.unlink x).IsPrevious (P.erase x) j i ↔
      (j ≠ x ∧ j ∈ P ∧ (o.links j).stamp < (o.links i).stamp ∧ ∀ k ∈ P, k ≠ x →
        (o.links k).stamp < (o.links i).stamp → (o.links k).stamp ≤ (o.links j).stamp) := by
    intro i j
    simp only [IsPrevious, hstamp, Finset.mem_erase]
    grind
  refine ⟨?_, ?_, ?_, ?_, ?_, ?_⟩
  · intro i hi j hj
    rw [hstamp, hstamp]
    exact h.stamp_inj i (Finset.mem_of_mem_erase hi) j (Finset.mem_of_mem_erase hj)
  · intro i hi
    rw [hstamp, unlink_stamp]
    exact h.stamp_le i (Finset.mem_of_mem_erase hi)
  · intro i hi j
    obtain ⟨hix, hiP⟩ := Finset.mem_erase.1 hi
    rw [(unlink_links o x i).2.1, hprev]
    have hinj := h.stamp_inj
    have hnx := h.next_iff x hx i
    have hpx := h.previous_iff x hx j
    have hpi := h.previous_iff i hiP j
    simp only [IsPrevious] at hnx hpx hpi
    grind
  · intro i hi j
    obtain ⟨hix, hiP⟩ := Finset.mem_erase.1 hi
    rw [(unlink_links o x i).2.2, hprev, Finset.mem_erase]
    have hinj := h.stamp_inj
    have hnx := h.next_iff x hx j
    have hpx := h.previous_iff x hx i
    have hni := h.next_iff i hiP j
    simp only [IsPrevious] at hnx hpx hni
    grind
  · intro f
    rw [unlink_first, Finset.mem_erase]
    simp only [hstamp, Finset.mem_erase]
    have hinj := h.stamp_inj
    by_cases hp : (o.links x).previous = none
    · rw [if_pos hp, h.next_iff x hx f, IsPrevious]
      have hmin : ∀ k ∈ P, (o.links x).stamp ≤ (o.links k).stamp := by
        intro k hk
        by_contra hlt
        obtain ⟨j, hj⟩ := exists_isPrevious hk (not_le.1 hlt)
        rw [(h.previous_iff x hx j).2 hj] at hp
        cases hp
      grind
    · rw [if_neg hp, h.first_iff f]
      obtain ⟨j, hj⟩ := Option.ne_none_iff_exists'.1 hp
      have hjx := (h.previous_iff x hx j).1 hj
      simp only [IsPrevious] at hjx
      grind
  · intro l
    rw [unlink_last, Finset.mem_erase]
    simp only [hstamp, Finset.mem_erase]
    have hl := h.last_iff
    grind

lemma append_links (o : VmtfOrder) {x : ℕ} (hx : o.last ≠ some x) (i : ℕ) :
    (o.append x).links i =
      if i = x then ⟨o.last, none, o.stamp⟩
      else if o.last = some i then { o.links i with next := some x } else o.links i := by
  rw [append]
  cases ho : o.last <;> simp only [setNext, Function.update_apply] <;> grind

lemma append_last (o : VmtfOrder) (x : ℕ) : (o.append x).last = some x := by
  rw [append]; split <;> rfl

lemma append_first (o : VmtfOrder) (x : ℕ) :
    (o.append x).first = if o.last = none then some x else o.first := by
  rw [append]; cases o.last <;> rfl

lemma append_stamp (o : VmtfOrder) (x : ℕ) : (o.append x).stamp = o.stamp := by
  rw [append]; split <;> rfl

lemma append_size (o : VmtfOrder) (x : ℕ) : (o.append x).size = o.size := by
  rw [append]; split <;> rfl

lemma append_search (o : VmtfOrder) (x : ℕ) : (o.append x).search = o.search := by
  rw [append]; split <;> rfl

lemma Linked.last_eq_none (h : o.Linked P) (hlast : o.last = none) : P = ∅ := by
  by_contra hne
  obtain ⟨l, hl, hmax⟩ := Finset.exists_max_image P (fun i => (o.links i).stamp)
    (Finset.nonempty_iff_ne_empty.2 hne)
  rw [(h.last_iff l).2 ⟨hl, hmax⟩] at hlast
  cases hlast

/-- Linking a variable with a fresh greatest stamp behind the last one. -/
lemma Linked.append (h : o.Linked P) {x : ℕ} (hx : x ∉ P)
    (hfresh : ∀ i ∈ P, (o.links i).stamp < o.stamp) :
    (o.append x).Linked (insert x P) := by
  have hxl : o.last ≠ some x := fun hl => hx ((h.last_iff x).1 hl).1
  have hlinks := append_links o hxl
  have hself : ((o.append x).links x).stamp = o.stamp := by rw [hlinks]; simp
  have hstamp : ∀ i ∈ P, ((o.append x).links i).stamp = (o.links i).stamp := by
    intro i hi
    rw [hlinks]
    grind
  have hlast := h.last_iff
  have hnone := h.last_eq_none
  refine ⟨?_, ?_, ?_, ?_, ?_, ?_⟩
  · have hinj := h.stamp_inj
    intro i hi j hj
    rw [Finset.mem_insert] at hi hj
    grind
  · intro i hi
    rw [append_stamp]
    have hle := h.stamp_le
    rw [Finset.mem_insert] at hi
    grind
  · intro i hi j
    rw [Finset.mem_insert] at hi
    simp only [IsPrevious, Finset.mem_insert]
    rcases hi with rfl | hi
    · have : ((o.append i).links i).previous = o.last := by rw [hlinks]; simp
      rw [this, h.last_iff]
      grind
    · have : ((o.append x).links i).previous = (o.links i).previous := by rw [hlinks]; grind
      rw [this, h.previous_iff i hi, IsPrevious]
      have hf := hfresh i hi
      grind
  · intro i hi j
    rw [Finset.mem_insert] at hi
    simp only [IsPrevious, Finset.mem_insert]
    rcases hi with rfl | hi
    · have : ((o.append i).links i).next = none := by rw [hlinks]; simp
      rw [this]
      grind
    · have hn := h.next_iff i hi j
      have hix : i ≠ x := fun he => hx (he ▸ hi)
      simp only [IsPrevious] at hn
      by_cases hli : o.last = some i
      · have : ((o.append x).links i).next = some x := by rw [hlinks]; simp [hix, hli]
        rw [this]
        have hmax := (hlast i).1 hli
        have hinj := h.stamp_inj
        grind
      · have : ((o.append x).links i).next = (o.links i).next := by rw [hlinks]; simp [hix, hli]
        rw [this, hn]
        have hex : ∃ k ∈ P, (o.links i).stamp < (o.links k).stamp := by
          by_contra hall
          push Not at hall
          exact hli ((hlast i).2 ⟨hi, hall⟩)
        grind
  · intro f
    rw [append_first]
    have hf := h.first_iff f
    split
    · next hl =>
      have := hnone hl
      grind
    · next hl =>
      obtain ⟨l, hl⟩ := Option.ne_none_iff_exists'.1 hl
      have hlP := ((hlast l).1 hl).1
      rw [hf]
      simp only [Finset.mem_insert]
      grind
  · intro l
    rw [append_last]
    simp only [Finset.mem_insert]
    grind

/-! ### The stamp counter -/

/-- The stamps of `o'` order `P` as those of `o` do, and everything else is unchanged. -/
structure Restamped (o o' : VmtfOrder) (P : Finset ℕ) : Prop where
  size : o'.size = o.size
  first : o'.first = o.first
  last : o'.last = o.last
  search : o'.search = o.search
  previous : ∀ i, (o'.links i).previous = (o.links i).previous
  next : ∀ i, (o'.links i).next = (o.links i).next
  lt_iff : ∀ i ∈ P, ∀ j ∈ P,
    (o'.links i).stamp < (o'.links j).stamp ↔ (o.links i).stamp < (o.links j).stamp

lemma Linked.restamped {o' : VmtfOrder} (h : o.Linked P) (hr : Restamped o o' P)
    (hle : ∀ i ∈ P, (o'.links i).stamp ≤ o'.stamp) : o'.Linked P := by
  have hlt := hr.lt_iff
  have hinj := h.stamp_inj
  have hle' : ∀ i ∈ P, ∀ j ∈ P,
      (o'.links i).stamp ≤ (o'.links j).stamp ↔ (o.links i).stamp ≤ (o.links j).stamp := by
    intro i hi j hj
    simpa only [not_lt] using not_congr (hlt j hj i hi)
  have hprev : ∀ i ∈ P, ∀ j, o'.IsPrevious P j i ↔ o.IsPrevious P j i := by
    intro i hi j
    simp only [IsPrevious]
    grind
  refine ⟨?_, hle, ?_, ?_, ?_, ?_⟩
  · intro i hi j hj heq
    exact hinj i hi j hj (le_antisymm ((hle' i hi j hj).1 heq.le) ((hle' j hj i hi).1 heq.ge))
  · intro i hi j
    rw [hr.previous, h.previous_iff i hi, hprev i hi]
  · intro i hi j
    rw [hr.next, h.next_iff i hi]
    exact and_congr_right fun hj => (hprev j hj i).symm
  · intro f
    rw [hr.first, h.first_iff]
    exact and_congr_right fun hf => forall₂_congr fun k hk => (hle' f hf k hk).symm
  · intro l
    rw [hr.last, h.last_iff]
    exact and_congr_right fun hl => forall₂_congr fun k hk => (hle' k hk l hl).symm

/-- The renumbering loop, started in the middle: the variables `D` in front of `current`
already carry the stamps `1..|D|` in their old order. -/
lemma renumber_spec (h : o.Linked P) (fuel : ℕ) {current : Option ℕ} {D : Finset ℕ}
    {r : VmtfOrder} (hD : D ⊆ P)
    (hnone : current = none → D = P)
    (hsome : ∀ c, current = some c →
      c ∈ P ∧ ∀ i ∈ P, i ∈ D ↔ (o.links i).stamp < (o.links c).stamp)
    (hr : Restamped o r D) (hstamp : r.stamp = D.card)
    (hle : ∀ i ∈ D, (r.links i).stamp ≤ D.card) (hfuel : P.card ≤ fuel + D.card) :
    Restamped o (renumber fuel current r) P ∧
      ∀ i ∈ P, ((renumber fuel current r).links i).stamp ≤ (renumber fuel current r).stamp := by
  induction fuel generalizing current D r with
  | zero =>
    obtain rfl : D = P := Finset.eq_of_subset_of_card_le hD (by omega)
    exact ⟨hr, fun i hi => hstamp ▸ hle i hi⟩
  | succ fuel ih =>
    cases current with
    | none =>
      obtain rfl := hnone rfl
      exact ⟨hr, fun i hi => hstamp ▸ hle i hi⟩
    | some c =>
      obtain ⟨hc, hDiff⟩ := hsome c rfl
      have hcD : c ∉ D := fun hm => lt_irrefl _ ((hDiff c hc).1 hm)
      have hcard : (insert c D).card = D.card + 1 := Finset.card_insert_of_notMem hcD
      have hinj := h.stamp_inj
      rw [renumber]
      refine ih (D := insert c D) (Finset.insert_subset hc hD) ?_ ?_ ?_ ?_ ?_ ?_
      · intro hn
        rw [hr.next] at hn
        refine (Finset.insert_subset hc hD).antisymm fun i hi => ?_
        by_contra hmem
        have hlt : (o.links c).stamp < (o.links i).stamp := by
          rw [Finset.mem_insert, not_or, hDiff i hi, not_lt] at hmem
          exact lt_of_le_of_ne hmem.2 fun he => hmem.1 (hinj i hi c hc he.symm)
        obtain ⟨j, hj, hmin⟩ := Finset.exists_min_image
          (P.filter fun k => (o.links c).stamp < (o.links k).stamp)
          (fun k => (o.links k).stamp) ⟨i, by simp [hi, hlt]⟩
        simp only [Finset.mem_filter] at hj hmin
        have hnext : (o.links c).next = some j := by
          rw [h.next_iff c hc]
          refine ⟨hj.1, hc, hj.2, fun k hk hkj => ?_⟩
          by_contra hck
          exact absurd (hmin k ⟨hk, not_le.1 hck⟩) (not_le.2 hkj)
        rw [hn] at hnext
        cases hnext
      · intro d hd
        rw [hr.next, h.next_iff c hc] at hd
        obtain ⟨hdP, -, hlt, hmax⟩ := hd
        refine ⟨hdP, fun i hi => ?_⟩
        have := hDiff i hi
        rw [Finset.mem_insert]
        grind
      · have hlt := hr.lt_iff
        refine ⟨hr.size, hr.first, hr.last, hr.search, ?_, ?_, ?_⟩
        · intro i
          have := hr.previous i
          simp only [Function.update_apply]
          grind
        · intro i
          have := hr.next i
          simp only [Function.update_apply]
          grind
        · intro i hi j hj
          rw [Finset.mem_insert] at hi hj
          simp only [Function.update_apply]
          grind
      · exact hstamp ▸ hcard.symm
      · intro i hi
        rw [Finset.mem_insert] at hi
        simp only [Function.update_apply]
        grind
      · omega

/-- `advance_stamp` keeps the order and leaves a stamp greater than all linked ones. -/
lemma Linked.advanceStamp (h : o.Linked P) (hcard : P.card ≤ o.size) :
    o.advanceStamp.Linked P ∧ Restamped o o.advanceStamp P ∧
      ∀ i ∈ P, (o.advanceStamp.links i).stamp < o.advanceStamp.stamp := by
  have hspec : ∃ r, o.advanceStamp = { r with stamp := r.stamp + 1 } ∧ Restamped o r P ∧
      ∀ i ∈ P, (r.links i).stamp ≤ r.stamp := by
    refine ⟨_, rfl, ?_⟩
    split
    · have hmin := h.first_iff
      refine renumber_spec h (D := ∅) o.size (Finset.empty_subset P) ?_ ?_
        ⟨rfl, rfl, rfl, rfl, fun _ => rfl, fun _ => rfl, by simp⟩ rfl (by simp) (by simpa)
      · intro hnone
        by_contra hne
        obtain ⟨f, hf, hfmin⟩ := Finset.exists_min_image P (fun i => (o.links i).stamp)
          (Finset.nonempty_iff_ne_empty.2 (Ne.symm hne))
        rw [(hmin f).2 ⟨hf, hfmin⟩] at hnone
        cases hnone
      · intro c hc
        obtain ⟨hcP, hcmin⟩ := (hmin c).1 hc
        exact ⟨hcP, fun i hi => by simpa using hcmin i hi⟩
    · exact ⟨⟨rfl, rfl, rfl, rfl, fun _ => rfl, fun _ => rfl, fun _ _ _ _ => Iff.rfl⟩,
        h.stamp_le⟩
  obtain ⟨r, hr, hrest, hle⟩ := hspec
  have hrest' : Restamped o o.advanceStamp P := by
    rw [hr]
    exact ⟨hrest.size, hrest.first, hrest.last, hrest.search, hrest.previous, hrest.next,
      hrest.lt_iff⟩
  have hlt : ∀ i ∈ P, (o.advanceStamp.links i).stamp < o.advanceStamp.stamp := by
    intro i hi
    rw [hr]
    exact Nat.lt_succ_of_le (hle i hi)
  exact ⟨h.restamped hrest' fun i hi => (hlt i hi).le, hrest', hlt⟩

/-! ### The search pointer -/

/-- All variables are linked, and no unassigned variable lies behind the search pointer. -/
structure Ok (o : VmtfOrder) (assignments : ℕ → Option Bool) : Prop where
  linked : o.Linked (Finset.range o.size)
  search_lt : ∀ s, o.search = some s → s < o.size
  front : ∀ v < o.size, assignments v = none →
    ∃ s, o.search = some s ∧ (o.links v).stamp ≤ (o.links s).stamp

variable {assignments assignments' : ℕ → Option Bool}

lemma empty_ok : empty.Ok assignments :=
  ⟨⟨by simp [empty], by simp [empty], by simp [empty], by simp [empty], by simp [empty],
    by simp [empty]⟩, by simp [empty], by simp [empty]⟩

/-- Assigning more variables does not disturb the list. -/
lemma Ok.mono (h : o.Ok assignments)
    (hsub : ∀ v < o.size, assignments' v = none → assignments v = none) : o.Ok assignments' :=
  ⟨h.linked, h.search_lt, fun v hv hn => h.front v hv (hsub v hv hn)⟩

lemma unassign_size (o : VmtfOrder) (v : ℕ) : (o.unassign v).size = o.size := by
  rw [unassign]
  split
  · rfl
  · split <;> rfl

lemma Ok.unassign (h : o.Ok assignments) {v : ℕ} (hv : v < o.size)
    (hsub : ∀ w < o.size, w ≠ v → assignments' w = none → assignments w = none) :
    (o.unassign v).Ok assignments' := by
  have hset : ∀ s, s < o.size →
      (∀ w < o.size, w ≠ v → assignments w = none →
        (o.links w).stamp ≤ (o.links s).stamp) → (o.links v).stamp ≤ (o.links s).stamp →
      VmtfOrder.Ok { o with search := some s } assignments' := by
    intro s hs hfront hvs
    have hl := h.linked
    refine ⟨⟨hl.1, hl.2, hl.3, hl.4, hl.5, hl.6⟩, by simpa using hs, fun w hw hn => ?_⟩
    refine ⟨s, rfl, ?_⟩
    by_cases hwv : w = v
    · exact hwv ▸ hvs
    · exact hfront w hw hwv (hsub w hw hwv hn)
  rw [VmtfOrder.unassign]
  split
  · next hnone =>
    refine hset v hv (fun w hw _ hn => ?_) le_rfl
    obtain ⟨s, hs, -⟩ := h.front w hw hn
    rw [hnone] at hs
    cases hs
  · next s hs =>
    have hfront : ∀ w < o.size, assignments w = none →
        (o.links w).stamp ≤ (o.links s).stamp := by
      intro w hw hn
      obtain ⟨s', hs', hle⟩ := h.front w hw hn
      obtain rfl : s = s' := Option.some.inj (hs.symm.trans hs')
      exact hle
    split
    · next hlt => exact hset v hv (fun w hw _ hn => (hfront w hw hn).trans hlt.le) le_rfl
    · next hle =>
      have := hset s (h.search_lt s hs) (fun w hw _ hn => hfront w hw hn) (not_lt.1 hle)
      rwa [← hs] at this

lemma walk_search_eq (assignments : ℕ → Option Bool) (fuel : ℕ) (o : VmtfOrder) :
    ∃ s, walk assignments fuel o = { o with search := s } := by
  induction fuel generalizing o with
  | zero => exact ⟨o.search, rfl⟩
  | succ fuel ih =>
    rw [walk]
    split
    · exact ⟨_, rfl⟩
    · split
      · exact ⟨_, rfl⟩
      · exact ih _

/-- The walk stops at an unassigned variable, or falls off the front when there is none:
each step leaves an assigned variable behind, so the stamps in front of it bound the
steps still possible. -/
lemma Ok.walk (h : o.Ok assignments) (fuel : ℕ)
    (hfuel : ∀ s, o.search = some s →
      ((Finset.range o.size).filter fun i => (o.links i).stamp < (o.links s).stamp).card
        + 1 < fuel) (hpos : 0 < fuel) :
    (walk assignments fuel o).Ok assignments ∧
      (∀ v, (walk assignments fuel o).search = some v → v < o.size ∧ assignments v = none) ∧
      ((walk assignments fuel o).search = none → ∀ v < o.size, assignments v ≠ none) := by
  induction fuel generalizing o with
  | zero => omega
  | succ fuel ih =>
    rw [VmtfOrder.walk]
    split
    · next hs =>
      refine ⟨h, by simp [hs], fun _ v hv hn => ?_⟩
      obtain ⟨s, hs', -⟩ := h.front v hv hn
      rw [hs] at hs'
      cases hs'
    · next s hs =>
      have hslt := h.search_lt s hs
      split
      · next hn =>
        refine ⟨h, fun v hv => ?_, fun hn' => by rw [hs] at hn'; cases hn'⟩
        obtain rfl : s = v := Option.some.inj (hs.symm.trans hv)
        exact ⟨hslt, by simpa using hn⟩
      · next hn =>
        have hl := h.linked
        have hprev := hl.previous_iff s (Finset.mem_range.2 hslt)
        have hok : VmtfOrder.Ok { o with search := (o.links s).previous } assignments := by
          refine ⟨⟨hl.1, hl.2, hl.3, hl.4, hl.5, hl.6⟩, ?_, fun v hv hnv => ?_⟩
          · intro p hp
            exact Finset.mem_range.1 ((hprev p).1 hp).1
          · obtain ⟨s', hs', hle⟩ := h.front v hv hnv
            obtain rfl : s = s' := Option.some.inj (hs.symm.trans hs')
            have hne : v ≠ s := fun he => hn (by rw [← he, hnv]; rfl)
            have hlt : (o.links v).stamp < (o.links s).stamp :=
              lt_of_le_of_ne hle fun he => hne
                (hl.stamp_inj v (Finset.mem_range.2 hv) s (Finset.mem_range.2 hslt) he)
            obtain ⟨p, hp⟩ := exists_isPrevious (Finset.mem_range.2 hv) hlt
            exact ⟨p, (hprev p).2 hp, hp.2.2 v (Finset.mem_range.2 hv) hlt⟩
        refine ih hok (fun p hp => ?_) ?_
        · have hfs := hfuel s hs
          have hpp := (hprev p).1 hp
          have : ((Finset.range o.size).filter
              fun i => (o.links i).stamp < (o.links p).stamp).card <
              ((Finset.range o.size).filter
                fun i => (o.links i).stamp < (o.links s).stamp).card := by
            refine Finset.card_lt_card (Finset.ssubset_iff_of_subset ?_ |>.2 ⟨p, ?_, ?_⟩)
            · intro i hi
              simp only [Finset.mem_filter] at hi ⊢
              exact ⟨hi.1, hi.2.trans hpp.2.1⟩
            · simp only [Finset.mem_filter]
              exact ⟨hpp.1, hpp.2.1⟩
            · simp
          simp only
          omega
        · have := hfuel s hs
          omega

lemma Ok.fuel_le (o : VmtfOrder) (s : ℕ) (hs : s < o.size) :
    ((Finset.range o.size).filter fun i => (o.links i).stamp < (o.links s).stamp).card + 1
      < o.size + 1 := by
  have : ((Finset.range o.size).filter fun i => (o.links i).stamp < (o.links s).stamp).card
      < (Finset.range o.size).card := by
    refine Finset.card_lt_card (Finset.ssubset_iff_of_subset (Finset.filter_subset _ _) |>.2
      ⟨s, Finset.mem_range.2 hs, by simp⟩)
  rw [Finset.card_range] at this
  omega

/-- `pick` returns an unassigned variable, and `none` only when all are assigned. -/
lemma Ok.pick_spec (h : o.Ok assignments) :
    (o.pick assignments).2.Ok assignments ∧ (o.pick assignments).2.size = o.size ∧
      (∀ v, (o.pick assignments).1 = some v → v < o.size ∧ assignments v = none) ∧
      ((o.pick assignments).1 = none → ∀ v < o.size, assignments v ≠ none) := by
  obtain ⟨h1, h2, h3⟩ := h.walk (o.size + 1)
    (fun s hs => fuel_le o s (h.search_lt s hs)) (by omega)
  obtain ⟨s, hs⟩ := walk_search_eq assignments (o.size + 1) o
  exact ⟨h1, by simp [pick, hs], h2, h3⟩

lemma Ok.resetSearch (h : o.Ok assignments) :
    (o.resetSearch assignments).Ok assignments ∧
      (o.resetSearch assignments).size = o.size := by
  have hl := h.linked
  have hok : VmtfOrder.Ok { o with search := o.last } assignments := by
    refine ⟨⟨hl.1, hl.2, hl.3, hl.4, hl.5, hl.6⟩, ?_, fun v hv _ => ?_⟩
    · intro s hs
      exact Finset.mem_range.1 ((hl.last_iff s).1 hs).1
    · cases hlast : o.last with
      | none =>
        have := hl.last_eq_none hlast
        exact absurd (Finset.mem_range.2 hv) (by rw [this]; simp)
      | some l => exact ⟨l, rfl, ((hl.last_iff l).1 hlast).2 v (Finset.mem_range.2 hv)⟩
  obtain ⟨s, hs⟩ := walk_search_eq assignments (o.size + 1)
    { o with search := o.last }
  refine ⟨(hok.walk (o.size + 1) (fun s hs => fuel_le _ s (hok.search_lt s hs)) (by omega)).1,
    ?_⟩
  rw [VmtfOrder.resetSearch, hs]

/-- Moving a linked variable behind the last one. -/
lemma Ok.moveToFront (h : o.Ok assignments) {x : ℕ} (hx : x < o.size) :
    (o.moveToFront assignments x).Ok assignments ∧
      (o.moveToFront assignments x).size = o.size := by
  have hl := h.linked
  have hxP := Finset.mem_range.2 hx
  rw [VmtfOrder.moveToFront]
  split
  · next hlast =>
    have hmax := ((hl.last_iff x).1 hlast).2
    split
    · refine ⟨⟨⟨hl.1, hl.2, hl.3, hl.4, hl.5, hl.6⟩, by simpa using hx, fun v hv _ => ?_⟩, rfl⟩
      exact ⟨x, rfl, hmax v (Finset.mem_range.2 hv)⟩
    · exact ⟨h, rfl⟩
  · next hlast =>
    dsimp only
    generalize hsearch : (if o.search = some x ∧ (assignments x).isSome then
      if (o.links x).previous.isSome then (o.links x).previous else (o.links x).next
      else o.search) = search
    have hl' : VmtfOrder.Linked { o with search := search } (Finset.range o.size) :=
      ⟨hl.1, hl.2, hl.3, hl.4, hl.5, hl.6⟩
    have hunlink := hl'.unlink hxP hlast
    have hcard : ((Finset.range o.size).erase x).card ≤
        (VmtfOrder.unlink { o with search := search } x).size := by
      rw [unlink_size]
      exact (Finset.card_erase_le).trans_eq (Finset.card_range _)
    obtain ⟨hadv, hre, hlt⟩ := hunlink.advanceStamp hcard
    have happ := hadv.append (x := x) (by simp) hlt
    rw [Finset.insert_erase hxP] at happ
    generalize hu : VmtfOrder.unlink { o with search := search } x = u at hunlink hadv hre hlt happ
    have husize : u.size = o.size := by rw [← hu, unlink_size]
    have husearch : u.search = search := by rw [← hu, unlink_search]
    have hustamp : ∀ i, (u.links i).stamp = (o.links i).stamp := fun i => by
      rw [← hu]; exact (unlink_links _ x i).1
    set r := u.advanceStamp.append x with hr
    have hrsize : r.size = o.size := by rw [hr, append_size, hre.size, husize]
    have hrsearch : r.search = search := by rw [hr, append_search, hre.search, husearch]
    have hrlast : r.last = some x := by rw [hr, append_last]
    have hmax := ((happ.last_iff x).1 hrlast).2
    have hxlast : u.advanceStamp.last ≠ some x := by
      rw [hre.last, ← hu, unlink_last]
      exact hlast
    have hrstamp : ∀ i, i ≠ x → (r.links i).stamp = (u.advanceStamp.links i).stamp := by
      intro i hi
      rw [hr, append_links _ hxlast]
      grind
    rw [← hrsize] at happ
    split
    · refine ⟨⟨⟨happ.1, happ.2, happ.3, happ.4, happ.5, happ.6⟩, ?_, fun v hv _ => ?_⟩, hrsize⟩
      · rintro s ⟨⟩
        exact hrsize ▸ hx
      · refine ⟨x, rfl, hmax v (Finset.mem_range.2 ?_)⟩
        exact hrsize ▸ hv
    · next hassigned =>
      have hsome : (assignments x).isSome := by
        simpa [Option.isSome_iff_ne_none] using hassigned
      -- an unassigned variable lies in front of the new search pointer
      have hfront : ∀ v < o.size, assignments v = none →
          ∃ s, search = some s ∧ s ≠ x ∧ s < o.size ∧
            (o.links v).stamp ≤ (o.links s).stamp := by
        intro v hv hn
        have hvx : v ≠ x := by
          rintro rfl
          simp [hn] at hsome
        obtain ⟨s, hs, hle⟩ := h.front v hv hn
        have hslt := h.search_lt s hs
        by_cases hsx : s = x
        · subst hsx
          have hvs : (o.links v).stamp < (o.links s).stamp :=
            lt_of_le_of_ne hle fun he => hvx (hl.stamp_inj v (Finset.mem_range.2 hv) s hxP he)
          obtain ⟨p, hp⟩ := exists_isPrevious (Finset.mem_range.2 hv) hvs
          have hpp := (hl.previous_iff s hxP p).2 hp
          refine ⟨p, ?_, ?_, Finset.mem_range.1 hp.1, hp.2.2 v (Finset.mem_range.2 hv) hvs⟩
          · rw [← hsearch, if_pos ⟨hs, hsome⟩, hpp]
            rfl
          · rintro rfl
            exact lt_irrefl _ hp.2.1
        · refine ⟨s, ?_, hsx, hslt, hle⟩
          rw [← hsearch, if_neg fun hc => hsx (Option.some.inj (hs.symm.trans hc.1))]
          exact hs
      refine ⟨⟨happ, ?_, fun v hv hn => ?_⟩, hrsize⟩
      · intro s hs
        rw [hrsearch, ← hsearch] at hs
        rw [hrsize]
        split_ifs at hs with h1 h2
        · exact Finset.mem_range.1 ((hl.previous_iff x hxP s).1 hs).1
        · exact Finset.mem_range.1 ((hl.next_iff x hxP s).1 hs).1
        · exact h.search_lt s hs
      · rw [hrsize] at hv
        obtain ⟨s, hs, hsx, hslt, hle⟩ := hfront v hv hn
        have hvx : v ≠ x := by
          rintro rfl
          simp [hn] at hsome
        refine ⟨s, hrsearch.trans hs, ?_⟩
        rw [hrstamp v hvx, hrstamp s hsx]
        have := hre.lt_iff s (by simp [hsx, hslt]) v (by simp [hvx, hv])
        rw [hustamp, hustamp] at this
        exact not_lt.1 (mt this.1 (not_lt.2 hle))

lemma Ok.bumpAnalyzed (h : o.Ok assignments) {vs : List ℕ} (hvs : ∀ v ∈ vs, v < o.size) :
    (o.bumpAnalyzed assignments vs).Ok assignments ∧
      (o.bumpAnalyzed assignments vs).size = o.size := by
  rw [VmtfOrder.bumpAnalyzed]
  have hsorted : ∀ v ∈ vs.insertionSort fun i j => (o.links i).stamp ≤ (o.links j).stamp,
      v < o.size := fun v hv => hvs v ((List.mem_insertionSort _).1 hv)
  generalize vs.insertionSort (fun i j => (o.links i).stamp ≤ (o.links j).stamp) = ws at hsorted
  induction ws generalizing o with
  | nil => exact ⟨h, rfl⟩
  | cons v ws ih =>
    obtain ⟨h1, hsize⟩ := h.moveToFront (hsorted v (by simp))
    rw [List.foldl_cons]
    obtain ⟨h2, hsize'⟩ := ih h1 (by rw [hsize]; exact fun w hw => hvs w hw)
      (fun w hw => hsize ▸ hsorted w (by simp [hw]))
    exact ⟨h2, hsize'.trans hsize⟩

lemma Ok.growOne (h : o.Ok assignments) :
    o.growOne.Ok assignments ∧ o.growOne.size = o.size + 1 := by
  obtain ⟨hadv, hre, hlt⟩ := h.linked.advanceStamp (by simp)
  have happ := hadv.append (x := o.size) (by simp) hlt
  rw [← Finset.range_add_one] at happ
  have hmax := ((happ.last_iff o.size).1 (append_last _ _)).2
  have hsize : o.growOne.size = o.size + 1 := by
    simp [VmtfOrder.growOne, hre.size]
  refine ⟨⟨?_, ?_, fun v hv _ => ?_⟩, hsize⟩
  · rw [hsize, VmtfOrder.growOne, hre.size]
    exact ⟨happ.1, happ.2, happ.3, happ.4, happ.5, happ.6⟩
  · intro s hs
    simp only [VmtfOrder.growOne, hre.size] at hs
    cases hs
    rw [hsize]
    exact Nat.lt_succ_self _
  · refine ⟨o.size, by simp [VmtfOrder.growOne, hre.size], ?_⟩
    have := hmax v (Finset.mem_range.2 (hsize ▸ hv))
    simpa [VmtfOrder.growOne, hre.size] using this

lemma Ok.grow (h : o.Ok assignments) (oldCount newCount : ℕ) :
    (o.grow oldCount newCount).Ok assignments ∧
      (o.grow oldCount newCount).size = o.size + (newCount - oldCount) := by
  have hfold : ∀ (vs : List ℕ) {o : VmtfOrder}, o.Ok assignments →
      (vs.foldl (fun o _ => o.growOne) o).Ok assignments ∧
        (vs.foldl (fun o _ => o.growOne) o).size = o.size + vs.length := by
    intro vs
    induction vs with
    | nil => exact fun h => ⟨h, rfl⟩
    | cons v vs ih =>
      intro o h
      obtain ⟨h1, hsize⟩ := h.growOne
      obtain ⟨h2, hsize'⟩ := ih h1
      exact ⟨h2, by rw [List.foldl_cons, hsize', hsize, List.length_cons]; omega⟩
  have := hfold (List.range' oldCount (newCount - oldCount)) h
  rwa [List.length_range'] at this

end VmtfOrder

end Satrap
