/-
# Slices of a list

A list as a memory: the cells of a range, and the copy of a range onto another one of the same
memory.  A range that the copy does not write to keeps its cells.
-/
import Mathlib.Data.List.TakeDrop
import Mathlib.Tactic.Common

namespace Satrap.Logic

variable {α : Type} {l l' : List α} {start length source target : ℕ}

/-- The cells of a range. -/
def slice (l : List α) (start length : ℕ) : List α := (l.drop start).take length

/-- The memory with the range at `source` copied to `target`; `none` when a range leaves the
memory. -/
def copyWithin (l : List α) (source length target : ℕ) : Option (List α) :=
  if source + length ≤ l.length ∧ target + length ≤ l.length then
    some (l.take target ++ slice l source length ++ l.drop (target + length))
  else none

lemma getElem?_slice (l : List α) (start length i : ℕ) :
    (slice l start length)[i]? = if i < length then l[start + i]? else none := by
  rw [slice, List.getElem?_take, List.getElem?_drop]

lemma length_slice (h : start + length ≤ l.length) : (slice l start length).length = length := by
  rw [slice, List.length_take, List.length_drop]
  omega

/-- Two ranges hold the same when they do so cell by cell. -/
lemma slice_congr {start' : ℕ} (h : ∀ i < length, l[start + i]? = l'[start' + i]?) :
    slice l start length = slice l' start' length := by
  ext1 i
  rw [getElem?_slice, getElem?_slice]
  split
  · next hi => exact h i hi
  · rfl

lemma slice_append_left (h : start + length ≤ l.length) (l' : List α) :
    slice (l ++ l') start length = slice l start length :=
  slice_congr fun i hi => List.getElem?_append_left (by omega)

lemma slice_append_right (l l' : List α) : slice (l ++ l') l.length l'.length = l' := by
  rw [slice, List.drop_left, List.take_length]

lemma slice_take {count : ℕ} (h : start + length ≤ count) :
    slice (l.take count) start length = slice l start length := by
  refine slice_congr fun i hi => ?_
  rw [List.getElem?_take, if_pos (by omega)]

lemma slice_set {p : ℕ} (h : p < start ∨ start + length ≤ p) (a : α) :
    slice (l.set p a) start length = slice l start length := by
  refine slice_congr fun i hi => ?_
  rw [List.getElem?_set_ne (by omega)]

section Copy

variable (h : copyWithin l source length target = some l')

include h

lemma copyWithin_bounds : source + length ≤ l.length ∧ target + length ≤ l.length := by
  rw [copyWithin] at h
  split at h
  · assumption
  · simp at h

lemma getElem?_copyWithin (i : ℕ) : l'[i]? =
    if target ≤ i ∧ i < target + length then l[source + (i - target)]? else l[i]? := by
  obtain ⟨hs, ht⟩ := copyWithin_bounds h
  rw [copyWithin, if_pos ⟨hs, ht⟩] at h
  obtain rfl := Option.some.inj h
  have hslice := length_slice hs
  have htake : (l.take target).length = target := List.length_take_of_le (by omega)
  by_cases h1 : i < target
  · rw [if_neg (by omega), List.append_assoc, List.getElem?_append_left (by omega),
      List.getElem?_take, if_pos h1]
  · by_cases h2 : i < target + length
    · rw [if_pos ⟨by omega, h2⟩, List.append_assoc, List.getElem?_append_right (by omega),
        List.getElem?_append_left (by omega), htake, getElem?_slice, if_pos (by omega)]
    · rw [if_neg (by omega), List.getElem?_append_right (by rw [List.length_append]; omega),
        List.getElem?_drop, List.length_append, hslice, htake]
      congr 1
      omega

lemma length_copyWithin : l'.length = l.length := by
  obtain ⟨hs, ht⟩ := copyWithin_bounds h
  rw [copyWithin, if_pos ⟨hs, ht⟩] at h
  obtain rfl := Option.some.inj h
  rw [List.length_append, List.length_append, length_slice hs, List.length_take, List.length_drop]
  omega

/-- The target holds what the source held. -/
lemma slice_copyWithin : slice l' target length = slice l source length := by
  refine slice_congr fun i hi => ?_
  rw [getElem?_copyWithin h, if_pos (by omega)]
  congr 1
  omega

/-- What the copy does not write to stays. -/
lemma slice_copyWithin_of_disjoint {start count : ℕ}
    (hd : start + count ≤ target ∨ target + length ≤ start) :
    slice l' start count = slice l start count := by
  refine slice_congr fun i hi => ?_
  rw [getElem?_copyWithin h, if_neg (by omega)]

end Copy

/-- A copy inside the memory is made. -/
lemma exists_copyWithin (hs : source + length ≤ l.length) (ht : target + length ≤ l.length) :
    ∃ l', copyWithin l source length target = some l' := ⟨_, if_pos ⟨hs, ht⟩⟩

end Satrap.Logic
