/-
# The smallest members of a set

A sketch keeps the `k` smallest members of a set in a strict total order.  It can be maintained
while members arrive one by one, and the sketch of a union is found from the sketches of its
parts: what one of them has dropped is never needed again.
-/
import Mathlib.Data.List.InsertIdx
import Mathlib.Data.List.Nodup
import Mathlib.Data.List.Sort
import Mathlib.Data.Set.Insert
import Mathlib.Order.RelClasses

namespace Satrap.Logic

variable {β : Type*} {r : β → β → Prop} {k : ℕ} {S T : Set β} {l m l' : List β} {a b : β}

/-- The list holds, in order, the `k` smallest members of the set, or all of them when there are
not that many. -/
structure Smallest (r : β → β → Prop) (k : ℕ) (S : Set β) (l : List β) : Prop where
  sorted : l.Pairwise r
  mem : ∀ a ∈ l, a ∈ S
  short : l.length ≤ k
  rest : ∀ b ∈ S, b ∉ l → l.length = k ∧ ∀ a ∈ l, r a b

/-- The sketch after one more member. -/
def insertSmallest (r : β → β → Prop) [DecidableRel r] [DecidableEq β] (k : ℕ) (l : List β)
    (a : β) : List β :=
  if a ∈ l then l else (l.insertIdx (l.findIdx fun b => decide (r a b)) a).take k

namespace Smallest

lemma nil : Smallest r k ∅ [] := ⟨.nil, by simp, Nat.zero_le k, by simp⟩

/-- Below a member that the sketch lacks there are `k` members. -/
lemma full (h : Smallest r k S l) (hb : b ∈ S) (hl : ∃ a ∈ l, ¬ r a b) : b ∈ l := by
  by_contra hnot
  obtain ⟨a, ha, hab⟩ := hl
  exact hab ((h.rest b hb hnot).2 a ha)

variable [IsStrictTotalOrder β r]

lemma nodup (h : Smallest r k S l) : l.Nodup := by
  refine h.sorted.imp fun {a b} hr he => ?_
  subst he
  exact irrefl_of r a hr

/-- **Members dropped by a part are not needed**: the sketch of a set with the sketch of another
one is the sketch of their union. -/
lemma union (hm : Smallest r k T m) (h : Smallest r k (S ∪ {a | a ∈ m}) l) :
    Smallest r k (S ∪ T) l where
  sorted := h.sorted
  mem a ha := by
    rcases h.mem a ha with hS | hT
    · exact .inl hS
    · exact .inr (hm.mem a hT)
  short := h.short
  rest b hb hbl := by
    by_cases hsub : b ∈ S ∨ b ∈ m
    · exact h.rest b hsub hbl
    have hbT : b ∈ T := hb.resolve_left fun hS => hsub (.inl hS)
    obtain ⟨hfull, hbelow⟩ := hm.rest b hbT fun hbm => hsub (.inr hbm)
    -- all of `m` cannot be in the sketch together with anything else
    have hcount (extra : List β) (he : (extra ++ m).Nodup) (hin : extra ++ m ⊆ l) :
        extra.length + k ≤ l.length := by
      have hle := (List.subperm_of_subset he hin).length_le
      rwa [List.length_append, hfull] at hle
    have hlength : l.length = k := by
      by_contra hne
      have hin : m ⊆ l := fun c hc => by
        by_contra hcl
        exact hne (h.rest c (.inr hc) hcl).1
      have hle := hcount [] hm.nodup hin
      exact hne (le_antisymm h.short (by simpa using hle))
    refine ⟨hlength, fun a ha => ?_⟩
    by_contra hab
    have hlow (c : β) (hc : c ∈ m) : r c a := by
      rcases trichotomous_of r a b with hlt | rfl | hgt
      · exact absurd hlt hab
      · exact hbelow c hc
      · exact trans_of r (hbelow c hc) hgt
    have hin : m ⊆ l := fun c hc => h.full (.inr hc) ⟨a, ha, fun hac =>
      irrefl_of r c (trans_of r (hlow c hc) hac)⟩
    have ham : a ∉ m := fun hc => irrefl_of r a (hlow a hc)
    have hle := hcount [a] (List.nodup_cons.2 ⟨ham, hm.nodup⟩) (List.cons_subset.2 ⟨ha, hin⟩)
    rw [hlength, List.length_singleton] at hle
    omega

variable [DecidableRel r]

lemma pairwise_orderedInsert (h : l.Pairwise r) (ha : a ∉ l) :
    (l.orderedInsert r a).Pairwise r := by
  induction l with
  | nil => exact List.pairwise_singleton r a
  | cons b rest ih =>
    obtain ⟨hb, hrest⟩ := List.pairwise_cons.1 h
    rw [List.mem_cons, not_or] at ha
    rw [List.orderedInsert_cons]
    split
    · next hab =>
      refine List.pairwise_cons.2 ⟨List.forall_mem_cons.2 ⟨hab, fun c hc => ?_⟩, h⟩
      exact trans_of r hab (hb c hc)
    · next hab =>
      have hba : r b a := ((trichotomous_of r a b).resolve_left hab).resolve_left ha.1
      refine List.pairwise_cons.2 ⟨fun c hc => ?_, ih hrest ha.2⟩
      rcases (List.mem_orderedInsert r).1 hc with rfl | hc
      · exact hba
      · exact hb c hc

variable [DecidableEq β]

omit [IsStrictTotalOrder β r] [DecidableEq β] in
lemma orderedInsert_eq_insertIdx (l : List β) (a : β) :
    l.orderedInsert r a = l.insertIdx (l.findIdx fun b => decide (r a b)) a := by
  induction l with
  | nil => rfl
  | cons b rest ih =>
    rw [List.orderedInsert_cons, List.findIdx_cons]
    by_cases hab : r a b
    · rw [if_pos hab, decide_eq_true hab, cond_true, List.insertIdx_zero]
    · rw [if_neg hab, decide_eq_false hab, cond_false, List.insertIdx_succ_cons, ih]

/-- One more member. -/
lemma insert (h : Smallest r k S l) (a : β) :
    Smallest r k (insert a S) (insertSmallest r k l a) := by
  rw [insertSmallest]
  split
  · next ha =>
    rw [Set.insert_eq_of_mem (h.mem a ha)]
    exact h
  next ha =>
  rw [← orderedInsert_eq_insertIdx]
  have hsorted := pairwise_orderedInsert h.sorted ha
  have hlength := List.orderedInsert_length r l a
  have hsplit := List.take_append_drop k (l.orderedInsert r a)
  -- what is kept comes before what is dropped
  have hbefore (c : β) (hc : c ∈ (l.orderedInsert r a).take k) (d : β)
      (hd : d ∈ (l.orderedInsert r a).drop k) : r c d := by
    rw [← hsplit] at hsorted
    exact (List.pairwise_append.1 hsorted).2.2 c hc d hd
  refine ⟨hsorted.sublist (List.take_sublist _ _), fun c hc => ?_, List.length_take_le _ _,
    fun b hb hbl => ?_⟩
  · rcases (List.mem_orderedInsert r).1 (List.mem_of_mem_take hc) with rfl | hc
    · exact Set.mem_insert c S
    · exact Set.mem_insert_of_mem a (h.mem c hc)
  by_cases hbo : b ∈ l.orderedInsert r a
  · have hbd : b ∈ (l.orderedInsert r a).drop k := by
      rw [← hsplit] at hbo
      exact (List.mem_append.1 hbo).resolve_left hbl
    have hpos := List.length_pos_of_mem hbd
    rw [List.length_drop] at hpos
    exact ⟨by rw [List.length_take]; omega, fun c hc => hbefore c hc b hbd⟩
  rw [List.mem_orderedInsert, not_or] at hbo
  obtain ⟨hfull, hbelow⟩ := h.rest b (hb.resolve_left hbo.1) hbo.2
  refine ⟨by rw [List.length_take]; omega, fun c hc => ?_⟩
  rcases (List.mem_orderedInsert r).1 (List.mem_of_mem_take hc) with rfl | hcl
  · -- the new member has pushed out one that is below `b`
    obtain ⟨d, hd⟩ := List.exists_mem_of_length_pos (l := (l.orderedInsert r c).drop k)
      (by rw [List.length_drop]; omega)
    have hcd := hbefore c hc d hd
    rcases (List.mem_orderedInsert r).1 (List.mem_of_mem_drop hd) with rfl | hdl
    · exact absurd hcd (irrefl_of r d)
    · exact trans_of r hcd (hbelow d hdl)
  · exact hbelow c hcl

/-- Several more members, one after the other. -/
lemma foldl_insert (h : Smallest r k S l) (m : List β) :
    Smallest r k (S ∪ {a | a ∈ m}) (m.foldl (insertSmallest r k) l) := by
  induction m generalizing S l with
  | nil => simpa using h
  | cons a rest ih =>
    have hset : S ∪ {b | b ∈ a :: rest} = Insert.insert a S ∪ {b | b ∈ rest} := by
      ext b
      simp only [Set.mem_union, Set.mem_ofPred_eq, List.mem_cons, Set.mem_insert_iff]
      tauto
    rw [hset, List.foldl_cons]
    exact ih (h.insert a)

/-- The sketch of a union, found from the sketches of its parts. -/
lemma merge (h : Smallest r k S l) (hm : Smallest r k T m) :
    Smallest r k (S ∪ T) (m.foldl (insertSmallest r k) l) :=
  hm.union (h.foldl_insert m)

end Smallest

end Satrap.Logic
