/-
# Tables with an index

A table of entries with distinct keys and a map from the keys to the values, kept in step with
the table: pushing an entry updates the map, popping the last entry removes its key.  Cutting
the table back to an earlier length this way restores the map exactly.
-/
import Mathlib.Logic.Function.Basic
import Mathlib.Data.List.Nodup
import Mathlib.Data.List.Induction
import Mathlib.Tactic.Common

namespace Satrap.Logic

variable {κ ν α : Type*}

/-! ### Positions -/

/-- The entries of a table that is indexed by position. -/
def positions (table : List κ) : List (κ × ℕ) := table.zipIdx

lemma positions_append (table : List κ) (a : κ) :
    positions (table ++ [a]) = positions table ++ [(a, table.length)] := by
  simp [positions, List.zipIdx_append]

lemma mem_positions {table : List κ} {a : κ} {i : ℕ} :
    (a, i) ∈ positions table ↔ table[i]? = some a := by
  rw [positions, List.mem_zipIdx_iff_getElem?]

lemma map_fst_positions (table : List κ) : (positions table).map Prod.fst = table := by
  simp [positions]

/-! ### Maps and their entries -/

variable [DecidableEq κ]

/-- The map of a list of entries. -/
def indexOf (entries : List (κ × ν)) : κ → Option ν :=
  entries.foldl (fun index entry => Function.update index entry.1 (some entry.2)) fun _ => none

/-- The map is the one of the entries, whose keys are distinct. -/
structure Indexes (index : κ → Option ν) (entries : List (κ × ν)) : Prop where
  nodup : (entries.map Prod.fst).Nodup
  eq : index = indexOf entries

lemma indexOf_append_singleton (entries : List (κ × ν)) (entry : κ × ν) :
    indexOf (entries ++ [entry]) = Function.update (indexOf entries) entry.1 (some entry.2) := by
  rw [indexOf, List.foldl_append, List.foldl_cons, List.foldl_nil, ← indexOf]

lemma indexOf_eq_none_iff {entries : List (κ × ν)} {key : κ} :
    indexOf entries key = none ↔ key ∉ entries.map Prod.fst := by
  induction entries using List.reverseRecOn with
  | nil => simp [indexOf]
  | append_singleton entries entry ih =>
    rw [indexOf_append_singleton, List.map_append, List.mem_append, not_or]
    by_cases hk : key = entry.1
    · subst hk
      simp
    · rw [Function.update_of_ne hk, ih]
      simp [hk]

namespace Indexes

variable {index : κ → Option ν} {entries : List (κ × ν)} {key : κ} {value : ν}

lemma nil : Indexes (fun _ => none : κ → Option ν) [] := ⟨by simp, rfl⟩

lemma eq_none_iff (h : Indexes index entries) : index key = none ↔ key ∉ entries.map Prod.fst := by
  rw [h.eq, indexOf_eq_none_iff]

/-- An entry with a new key is pushed. -/
lemma push (h : Indexes index entries) (hkey : index key = none) (value : ν) :
    Indexes (Function.update index key (some value)) (entries ++ [(key, value)]) where
  nodup := by
    rw [List.map_append]
    refine List.nodup_append'.2 ⟨h.nodup, List.nodup_singleton _, ?_⟩
    simpa using h.eq_none_iff.1 hkey
  eq := by rw [indexOf_append_singleton, h.eq]

/-- The last entry is popped. -/
lemma pop {entry : κ × ν} (h : Indexes index (entries ++ [entry])) :
    Indexes (Function.update index entry.1 none) entries ∧ index entry.1 = some entry.2 := by
  obtain ⟨hnodup, rfl⟩ := h
  rw [List.map_append, List.nodup_append'] at hnodup
  have hnotMem : entry.1 ∉ entries.map Prod.fst := fun hm => hnodup.2.2 hm (by simp)
  rw [indexOf_append_singleton]
  refine ⟨⟨hnodup.1, ?_⟩, Function.update_self ..⟩
  rw [Function.update_idem]
  funext key
  by_cases hk : key = entry.1
  · subst hk
    rw [Function.update_self, indexOf_eq_none_iff.2 hnotMem]
  · rw [Function.update_of_ne hk]

lemma eq_some_iff (h : Indexes index entries) : index key = some value ↔ (key, value) ∈ entries := by
  induction entries using List.reverseRecOn generalizing index with
  | nil =>
    obtain ⟨-, rfl⟩ := h
    simp [indexOf]
  | append_singleton entries entry ih =>
    obtain ⟨h1, h2⟩ := h.pop
    rw [List.mem_append, List.mem_singleton, ← ih h1]
    by_cases hk : key = entry.1
    · subst hk
      rw [h2, Function.update_self]
      constructor
      · rintro ⟨⟩
        exact .inr rfl
      · rintro (⟨⟨⟩⟩ | he)
        rw [← he]
    · rw [Function.update_of_ne hk, or_iff_left]
      rintro rfl
      exact hk rfl

lemma congr {entries' : List (κ × ν)} (h : Indexes index entries) (he : entries = entries') :
    Indexes index entries' := he ▸ h

end Indexes

namespace Indexes

variable {index : κ → Option ℕ} {table : List κ} {a : κ} {i : ℕ}

lemma position (h : Indexes index (positions table)) : index a = some i ↔ table[i]? = some a := by
  rw [h.eq_some_iff, mem_positions]

lemma notMem_iff (h : Indexes index (positions table)) : index a = none ↔ a ∉ table := by
  rw [h.eq_none_iff, map_fst_positions]

lemma nilPositions (κ : Type*) [DecidableEq κ] :
    Indexes (fun _ => none) (positions ([] : List κ)) := nil

lemma pushPosition (h : Indexes index (positions table)) (ha : index a = none) :
    Indexes (Function.update index a (some table.length)) (positions (table ++ [a])) := by
  rw [positions_append]
  exact h.push ha _

end Indexes

/-! ### Removing and adding several keys -/

namespace Indexes

variable {index : κ → Option ν} {entries entries' : List (κ × ν)}

/-- A map is determined by the entries. -/
lemma of_mem (hnodup : (entries.map Prod.fst).Nodup)
    (h : ∀ key value, index key = some value ↔ (key, value) ∈ entries) : Indexes index entries where
  nodup := hnodup
  eq := by
    funext key
    refine Option.ext fun value => ?_
    rw [h key value, (⟨hnodup, rfl⟩ : Indexes (indexOf entries) entries).eq_some_iff]

/-- An entry in the middle is removed. -/
lemma remove {entry : κ × ν} (h : Indexes index (entries ++ entry :: entries')) :
    index entry.1 = some entry.2 ∧
      Indexes (Function.update index entry.1 none) (entries ++ entries') := by
  have hnodup := h.nodup
  rw [List.map_append, List.map_cons, List.nodup_middle, List.nodup_cons, ← List.map_append]
    at hnodup
  refine ⟨h.eq_some_iff.2 (by simp), of_mem hnodup.2 fun key value => ?_⟩
  by_cases hk : key = entry.1
  · subst hk
    rw [Function.update_self]
    refine iff_of_false (by simp) fun hm => hnodup.1 ?_
    exact List.mem_map.2 ⟨_, hm, rfl⟩
  · rw [Function.update_of_ne hk, h.eq_some_iff, List.mem_append, List.mem_cons, List.mem_append,
      or_congr_right (or_iff_right _)]
    rintro rfl
    exact hk rfl

/-- Several entries with new keys are pushed. -/
lemma pushAll (h : Indexes index entries) : ∀ new : List (κ × ν), (new.map Prod.fst).Nodup →
    (∀ entry ∈ new, index entry.1 = none) →
    Indexes (new.foldl (fun index entry => Function.update index entry.1 (some entry.2)) index)
      (entries ++ new) := by
  intro new
  induction new generalizing index entries with
  | nil => exact fun _ _ => by simpa using h
  | cons entry new ih =>
    intro hnodup hnew
    rw [List.map_cons, List.nodup_cons] at hnodup
    have hpush := h.push (hnew entry (by simp)) entry.2
    rw [List.foldl_cons, List.append_cons]
    refine ih hpush hnodup.2 fun e he => ?_
    rw [Function.update_of_ne]
    · exact hnew e (by simp [he])
    · rintro heq
      exact hnodup.1 (List.mem_map.2 ⟨e, he, heq⟩)

end Indexes

/-! ### Cutting back -/

/-- Popping entry after entry, from the end, with an operation that may fail. -/
lemma foldlM_reverse_pop {σ : Type*} (undo : σ → α → Option σ) (Inv : List α → σ → Prop)
    (hpop : ∀ table a index, Inv (table ++ [a]) index → ∃ index', undo index a = some index' ∧
      Inv table index') (table : List α) : ∀ (suffix : List α) (index : σ),
    Inv (table ++ suffix) index → ∃ index', suffix.reverse.foldlM undo index = some index' ∧
      Inv table index' := by
  intro suffix
  induction suffix using List.reverseRecOn with
  | nil =>
    intro index h
    exact ⟨index, rfl, by simpa using h⟩
  | append_singleton suffix a ih =>
    intro index h
    rw [← List.append_assoc] at h
    obtain ⟨index', h1, h2⟩ := hpop _ a index h
    obtain ⟨index'', h3, h4⟩ := ih index' h2
    refine ⟨index'', ?_, h4⟩
    rw [List.reverse_append, List.reverse_singleton, List.singleton_append, List.foldlM_cons, h1]
    exact h3

end Satrap.Logic
