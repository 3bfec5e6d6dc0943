/-
# The first members in an order

What a sorted list starts with.  Orders that agree on the members of a list sort it in the same
way, and where a part of the list goes before the rest, the list starts with that part.
-/
import Mathlib.Data.List.Sort

namespace Satrap.Logic

variable {α : Type} {r s : α → α → Prop} [DecidableRel r] [DecidableRel s] {l : List α} {k : ℕ}

/-- Two orders that agree on the members of a list sort it in the same way. -/
lemma insertionSort_congr (h : ∀ a ∈ l, ∀ b ∈ l, r a b ↔ s a b) :
    l.insertionSort r = l.insertionSort s := by
  simpa using List.map_insertionSort r s id l h

variable [Std.Total r] [IsTrans α r] [Std.Antisymm r] (p : α → Bool)

/-- A part that goes before the rest is sorted on its own. -/
lemma insertionSort_eq_append (h : ∀ a ∈ l, ∀ b ∈ l, p a = true → p b = false → r a b) :
    l.insertionSort r =
      (l.filter p).insertionSort r ++ (l.filter fun a => !p a).insertionSort r := by
  have hperm : (l.insertionSort r).Perm
      ((l.filter p).insertionSort r ++ (l.filter fun a => !p a).insertionSort r) := by
    refine (List.perm_insertionSort r l).trans ((List.filter_append_perm p l).symm.trans ?_)
    exact ((List.perm_insertionSort r _).symm).append (List.perm_insertionSort r _).symm
  refine hperm.eq_of_pairwise' (List.pairwise_insertionSort r l) ?_
  rw [List.pairwise_append]
  refine ⟨List.pairwise_insertionSort r _, List.pairwise_insertionSort r _, fun a ha b hb => ?_⟩
  rw [List.mem_insertionSort, List.mem_filter] at ha hb
  exact h a ha.1 b hb.1 ha.2 (by simpa using hb.2)

/-- The list starts with the first members of the part. -/
lemma take_insertionSort (h : ∀ a ∈ l, ∀ b ∈ l, p a = true → p b = false → r a b)
    (hk : k ≤ (l.filter p).length) :
    (l.insertionSort r).take k = ((l.filter p).insertionSort r).take k := by
  rw [insertionSort_eq_append p h, List.take_append_of_le_length]
  rwa [List.length_insertionSort]

end Satrap.Logic
