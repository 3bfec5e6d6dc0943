/-
# Affine expressions

The canonical affine expressions of `arithmetic.rs`: a rational constant and a map from
variables to nonzero rational coefficients.  The map is a list of entries in the order of the
variables, as a `BTreeMap` keeps them.  The operations on expressions keep the maps in order, and
the value of their result is that of the operation.
-/
import Mathlib.Algebra.BigOperators.Group.List.Basic
import Mathlib.Algebra.Field.Rat
import Mathlib.Algebra.Notation.Pi.Basic
import Mathlib.Tactic.Ring

namespace Satrap.Smt

/-! ### Ordered maps -/

/-- The map with another value at a key. -/
def insertEntry {κ α : Type*} [LinearOrder κ] (key : κ) (value : α) : List (κ × α) → List (κ × α)
  | [] => [(key, value)]
  | entry :: rest =>
    if key < entry.1 then (key, value) :: entry :: rest
    else if key = entry.1 then (key, value) :: rest
    else entry :: insertEntry key value rest

/-- The map without a key. -/
def removeEntry {κ α : Type*} [DecidableEq κ] (key : κ) (entries : List (κ × α)) : List (κ × α) :=
  entries.filter fun entry => decide (entry.1 ≠ key)

/-- The value at a key, zero where there is none. -/
def coefficientOf {κ α : Type*} [DecidableEq κ] [Zero α] (entries : List (κ × α)) (key : κ) : α :=
  (entries.lookup key).getD 0

/-! ### The sum of a map -/

/-- The keys of the entries increase. -/
def Ordered {κ α : Type*} [LT κ] (entries : List (κ × α)) : Prop := entries.Pairwise fun a b => a.1 < b.1

/-- The sum of the coefficients times the values of their variables. -/
def weightedSum {κ α : Type*} [CommRing α] (value : κ → α) (entries : List (κ × α)) : α :=
  (entries.map fun entry => entry.2 * value entry.1).sum

section

variable {κ α : Type*} [LinearOrder κ] {key : κ} {value : α} {entry : κ × α} {entries : List (κ × α)}

lemma mem_insertEntry (h : entry ∈ insertEntry key value entries) :
    entry = (key, value) ∨ entry ∈ entries := by
  induction entries with
  | nil =>
    rw [insertEntry, List.mem_singleton] at h
    exact .inl h
  | cons first rest ih =>
    rw [insertEntry] at h
    split at h
    · rcases List.mem_cons.1 h with rfl | h
      · exact .inl rfl
      · exact .inr h
    split at h
    · rcases List.mem_cons.1 h with rfl | h
      · exact .inl rfl
      · exact .inr (List.mem_cons_of_mem _ h)
    · rcases List.mem_cons.1 h with rfl | h
      · exact .inr (by simp)
      · exact (ih h).imp id (List.mem_cons_of_mem _)

lemma Ordered.insertEntry (h : Ordered entries) : Ordered (insertEntry key value entries) := by
  induction entries with
  | nil => exact List.pairwise_singleton _ _
  | cons first rest ih =>
    obtain ⟨hfirst, hrest⟩ := List.pairwise_cons.1 h
    rw [Smt.insertEntry]
    split
    · next hlt =>
      refine List.pairwise_cons.2 ⟨fun e he => ?_, h⟩
      rcases List.mem_cons.1 he with rfl | he
      · exact hlt
      · exact hlt.trans (hfirst e he)
    split
    · next heq =>
      exact List.pairwise_cons.2 ⟨fun e he => heq ▸ hfirst e he, hrest⟩
    · next hlt hne =>
      refine List.pairwise_cons.2 ⟨fun e he => ?_, ih hrest⟩
      rcases mem_insertEntry he with rfl | he
      · exact (not_lt.1 hlt).lt_of_ne (Ne.symm hne)
      · exact hfirst e he

lemma Ordered.removeEntry (h : Ordered entries) : Ordered (removeEntry key entries) :=
  List.Pairwise.filter _ h

variable [CommRing α] {x : κ → α}

omit [LinearOrder κ] in
@[simp] lemma weightedSum_nil : weightedSum x [] = 0 := rfl

omit [LinearOrder κ] in
@[simp] lemma weightedSum_cons :
    weightedSum x (entry :: entries) = entry.2 * x entry.1 + weightedSum x entries := rfl

lemma coefficientOf_cons : coefficientOf (entry :: entries) key =
    if key = entry.1 then entry.2 else coefficientOf entries key := by
  obtain ⟨k, a⟩ := entry
  rw [coefficientOf, coefficientOf, List.lookup_cons]
  split
  · next heq => rw [if_pos (by simpa using heq), Option.getD_some]
  · next hne => rw [if_neg (by simpa using hne)]

/-- A key that is not there has no coefficient. -/
lemma coefficientOf_of_notMem (h : ∀ entry ∈ entries, entry.1 ≠ key) :
    coefficientOf entries key = 0 := by
  induction entries with
  | nil => rfl
  | cons first rest ih =>
    rw [coefficientOf_cons, if_neg fun hk => h first (by simp) hk.symm]
    exact ih fun entry he => h entry (by simp [he])

lemma coefficientOf_of_mem (h : Ordered entries) (he : entry ∈ entries) :
    coefficientOf entries entry.1 = entry.2 := by
  induction entries with
  | nil => cases he
  | cons first rest ih =>
    obtain ⟨hfirst, hrest⟩ := List.pairwise_cons.1 h
    rw [coefficientOf_cons]
    rcases List.mem_cons.1 he with rfl | he
    · rw [if_pos rfl]
    · rw [if_neg (hfirst entry he).ne', ih hrest he]

lemma weightedSum_insertEntry (h : Ordered entries) : weightedSum x (insertEntry key value entries) =
    weightedSum x entries + (value - coefficientOf entries key) * x key := by
  induction entries with
  | nil =>
    simp only [insertEntry, weightedSum_cons, weightedSum_nil, coefficientOf, List.lookup_nil,
      Option.getD_none]
    ring
  | cons first rest ih =>
    obtain ⟨hfirst, hrest⟩ := List.pairwise_cons.1 h
    rw [insertEntry]
    split
    · next hlt =>
      have hnone : coefficientOf (first :: rest) key = 0 := by
        refine coefficientOf_of_notMem fun entry he => ?_
        rcases List.mem_cons.1 he with rfl | he
        · exact hlt.ne'
        · exact (hlt.trans (hfirst entry he)).ne'
      rw [hnone, weightedSum_cons]
      ring
    split
    · next heq =>
      rw [coefficientOf_cons, if_pos heq, weightedSum_cons, weightedSum_cons, heq]
      ring
    · next hne =>
      rw [coefficientOf_cons, if_neg hne, weightedSum_cons, weightedSum_cons, ih hrest]
      ring

lemma weightedSum_removeEntry (h : Ordered entries) : weightedSum x (removeEntry key entries) =
    weightedSum x entries - coefficientOf entries key * x key := by
  induction entries with
  | nil => simp [removeEntry, coefficientOf]
  | cons first rest ih =>
    obtain ⟨hfirst, hrest⟩ := List.pairwise_cons.1 h
    rw [removeEntry, List.filter_cons, ← removeEntry]
    by_cases hk : key = first.1
    · have hnone : coefficientOf rest key = 0 :=
        coefficientOf_of_notMem fun entry he => (hk ▸ hfirst entry he).ne'
      rw [if_neg (by simp [hk]), coefficientOf_cons, if_pos hk, weightedSum_cons, ih hrest, hnone, hk]
      ring
    · rw [if_pos (by simpa using fun he => hk he.symm), coefficientOf_cons, if_neg hk,
        weightedSum_cons, weightedSum_cons, ih hrest]
      ring

omit [LinearOrder κ] in
lemma weightedSum_scaled (scale : α) :
    weightedSum x (entries.map fun entry => (entry.1, entry.2 * scale)) =
      weightedSum x entries * scale := by
  induction entries with
  | nil => simp
  | cons first rest ih =>
    rw [List.map_cons, weightedSum_cons, weightedSum_cons, ih]
    ring

omit [LinearOrder κ] in
lemma weightedSum_congr {y : κ → α} (h : ∀ entry ∈ entries, x entry.1 = y entry.1) :
    weightedSum x entries = weightedSum y entries := by
  rw [weightedSum, weightedSum, List.map_congr_left fun entry he => by rw [h entry he]]

/-- A coefficient is the sum where only its variable counts. -/
lemma coefficientOf_eq (h : Ordered entries) :
    coefficientOf entries key = weightedSum (Pi.single key 1) entries := by
  induction entries with
  | nil => rfl
  | cons first rest ih =>
    obtain ⟨hfirst, hrest⟩ := List.pairwise_cons.1 h
    rw [coefficientOf_cons, weightedSum_cons]
    split
    · next heq =>
      have hnone : weightedSum (Pi.single key 1) rest = (0 : α) := by
        rw [← ih hrest]
        exact coefficientOf_of_notMem fun entry he => (heq ▸ hfirst entry he).ne'
      rw [hnone, heq, Pi.single_eq_same, mul_one, add_zero]
    · next hne => rw [Pi.single_eq_of_ne (Ne.symm hne), mul_zero, zero_add, ih hrest]

omit [LinearOrder κ] in
lemma foldl_weightedSum (start : α) :
    entries.foldl (fun sum entry => sum + entry.2 * x entry.1) start =
      start + weightedSum x entries := by
  induction entries generalizing start with
  | nil => simp
  | cons first rest ih =>
    rw [List.foldl_cons, ih, weightedSum_cons]
    ring

end

/-! ### Sums of maps -/

/-- The map once a multiple of an entry has been added to it. -/
def addMultiple {κ α : Type*} [LinearOrder κ] [CommRing α] [DecidableEq α] (scale : α)
    (entries : List (κ × α)) (entry : κ × α) : List (κ × α) :=
  let updated := coefficientOf entries entry.1 + entry.2 * scale
  if updated = 0 then removeEntry entry.1 entries else insertEntry entry.1 updated entries

section

variable {κ α : Type*} [LinearOrder κ] [CommRing α] [DecidableEq α] {scale : α}
  {entry item : κ × α} {entries added : List (κ × α)} {x : κ → α}

lemma mem_addMultiple (h : item ∈ addMultiple scale entries entry) :
    item.1 = entry.1 ∧ item.2 ≠ 0 ∨ item ∈ entries := by
  rw [addMultiple] at h
  split at h
  · exact .inr (List.mem_filter.1 h).1
  · next hne =>
    rcases mem_insertEntry h with rfl | h
    · exact .inl ⟨rfl, hne⟩
    · exact .inr h

lemma Ordered.addMultiple (h : Ordered entries) (scale : α) (entry : κ × α) :
    Ordered (addMultiple scale entries entry) := by
  rw [Smt.addMultiple]
  split
  · exact h.removeEntry
  · exact h.insertEntry

lemma weightedSum_addMultiple (h : Ordered entries) (scale : α) (entry : κ × α) :
    weightedSum x (addMultiple scale entries entry) =
      weightedSum x entries + entry.2 * x entry.1 * scale := by
  rw [addMultiple]
  split
  · next hz =>
    rw [weightedSum_removeEntry h, eq_neg_of_add_eq_zero_left hz]
    ring
  · rw [weightedSum_insertEntry h]
    ring

lemma mem_foldl_addMultiple (h : item ∈ added.foldl (addMultiple scale) entries) :
    (∃ entry ∈ added, item.1 = entry.1 ∧ item.2 ≠ 0) ∨ item ∈ entries := by
  induction added generalizing entries with
  | nil => exact .inr h
  | cons entry rest ih =>
    rcases ih h with ⟨entry', hm, he⟩ | h
    · exact .inl ⟨entry', List.mem_cons_of_mem _ hm, he⟩
    · exact (mem_addMultiple h).imp_left fun he => ⟨entry, List.mem_cons_self, he⟩

lemma Ordered.foldl_addMultiple (h : Ordered entries) :
    Ordered (added.foldl (Smt.addMultiple scale) entries) := by
  induction added generalizing entries with
  | nil => exact h
  | cons entry rest ih => exact ih (h.addMultiple scale entry)

lemma weightedSum_foldl_addMultiple (h : Ordered entries) :
    weightedSum x (added.foldl (addMultiple scale) entries) =
      weightedSum x entries + weightedSum x added * scale := by
  induction added generalizing entries with
  | nil => simp
  | cons entry rest ih =>
    rw [List.foldl_cons, ih (h.addMultiple scale entry), weightedSum_addMultiple h, weightedSum_cons]
    ring

end

/-! ### Expressions -/

/-- `LinearExpression`. -/
structure LinearExpression where
  constant : ℚ
  coefficients : List (ℕ × ℚ)
deriving DecidableEq

namespace LinearExpression

/-- `LinearExpression::zero`. -/
def zero : LinearExpression := ⟨0, []⟩

/-- `LinearExpression::constant`. -/
def ofConstant (value : ℚ) : LinearExpression := ⟨value, []⟩

/-- `LinearExpression::variable`. -/
def ofVariable (v : ℕ) : LinearExpression := ⟨0, [(v, 1)]⟩

/-- `LinearExpression::is_constant`. -/
def isConstant (e : LinearExpression) : Bool := e.coefficients.isEmpty

/-- One entry of `add_scaled`. -/
def addEntry (scale : ℚ) (coefficients : List (ℕ × ℚ)) (entry : ℕ × ℚ) : List (ℕ × ℚ) :=
  let updated := coefficientOf coefficients entry.1 + entry.2 * scale
  if updated = 0 then removeEntry entry.1 coefficients
  else insertEntry entry.1 updated coefficients

/-- `LinearExpression::add_scaled`. -/
def addScaled (e other : LinearExpression) (scale : ℚ) : LinearExpression where
  constant := e.constant + other.constant * scale
  coefficients := other.coefficients.foldl (addEntry scale) e.coefficients

/-- `LinearExpression::sum`. -/
def sum (expressions : List LinearExpression) : LinearExpression :=
  expressions.foldl (fun result e => result.addScaled e 1) zero

/-- `LinearExpression::scaled`. -/
def scaled (e : LinearExpression) (scale : ℚ) : LinearExpression :=
  if scale = 0 then zero
  else ⟨e.constant * scale, e.coefficients.map fun entry => (entry.1, entry.2 * scale)⟩

/-- `LinearExpression::evaluate`. -/
def evaluate (e : LinearExpression) (value : ℕ → ℚ) : ℚ :=
  e.coefficients.foldl (fun sum entry => sum + entry.2 * value entry.1) e.constant

/-! ### The variables of an expression -/

/-- All variables are below a number. -/
def BoundedBy (n : ℕ) (e : LinearExpression) : Prop := ∀ entry ∈ e.coefficients, entry.1 < n

/-- The entries are those of an ordered map of nonzero coefficients. -/
structure Canonical (e : LinearExpression) : Prop where
  ordered : Ordered e.coefficients
  nonzero : ∀ entry ∈ e.coefficients, entry.2 ≠ 0

/-- What holds of the expressions over the first `n` variables. -/
structure WellFormed (n : ℕ) (e : LinearExpression) : Prop extends Canonical e where
  bounded : e.BoundedBy n

variable {n : ℕ} {e e' : LinearExpression} {value : ℕ → ℚ} {entries : List (ℕ × ℚ)}

lemma canonical_zero : zero.Canonical := ⟨List.Pairwise.nil, by simp [zero]⟩

lemma Canonical.addScaled (h : e.Canonical) (e' : LinearExpression) (scale : ℚ) :
    (e.addScaled e' scale).Canonical where
  ordered := Ordered.foldl_addMultiple h.ordered
  nonzero item hm := by
    rcases mem_foldl_addMultiple hm with ⟨-, -, -, hne⟩ | hm
    · exact hne
    · exact h.nonzero item hm

lemma Canonical.scaled (h : e.Canonical) (scale : ℚ) : (e.scaled scale).Canonical := by
  rw [LinearExpression.scaled]
  split
  · exact canonical_zero
  · next hne =>
    refine ⟨List.pairwise_map.2 h.ordered, fun entry hm => ?_⟩
    obtain ⟨entry', hm', rfl⟩ := List.mem_map.1 hm
    exact mul_ne_zero (h.nonzero entry' hm') hne

/-- The variables of a sum are those of its parts. -/
lemma mem_addScaled {scale : ℚ} {item : ℕ × ℚ} (h : item ∈ (e.addScaled e' scale).coefficients) :
    (∃ entry ∈ e'.coefficients, item.1 = entry.1) ∨ ∃ entry ∈ e.coefficients, item.1 = entry.1 :=
  (mem_foldl_addMultiple h).imp (fun ⟨entry, hm, he, _⟩ => ⟨entry, hm, he⟩) fun hm => ⟨item, hm, rfl⟩

lemma mem_scaled {scale : ℚ} {item : ℕ × ℚ} (h : item ∈ (e.scaled scale).coefficients) :
    ∃ entry ∈ e.coefficients, item.1 = entry.1 := by
  rw [LinearExpression.scaled] at h
  split at h
  · simp [zero] at h
  · obtain ⟨entry, hm, rfl⟩ := List.mem_map.1 h
    exact ⟨entry, hm, rfl⟩

lemma wellFormed_constant (n : ℕ) (value : ℚ) : (ofConstant value).WellFormed n :=
  ⟨⟨List.Pairwise.nil, by simp [ofConstant]⟩, by simp [BoundedBy, ofConstant]⟩

lemma wellFormed_variable {n v : ℕ} (hv : v < n) : (ofVariable v).WellFormed n :=
  ⟨⟨List.pairwise_singleton _ _, by simp [ofVariable]⟩, by simpa [BoundedBy, ofVariable] using hv⟩

lemma WellFormed.mono {m : ℕ} (h : e.WellFormed n) (hle : n ≤ m) : e.WellFormed m :=
  ⟨h.toCanonical, fun entry hm => (h.bounded entry hm).trans_le hle⟩

lemma WellFormed.addScaled (h : e.WellFormed n) (h' : e'.WellFormed n) (scale : ℚ) :
    (e.addScaled e' scale).WellFormed n := by
  refine ⟨h.toCanonical.addScaled e' scale, fun item hm => ?_⟩
  rcases mem_addScaled hm with ⟨entry, hm, he⟩ | ⟨entry, hm, he⟩
  · exact he ▸ h'.bounded entry hm
  · exact he ▸ h.bounded entry hm

lemma WellFormed.sum {expressions : List LinearExpression}
    (h : ∀ e ∈ expressions, e.WellFormed n) : (sum expressions).WellFormed n := by
  have hfold : ∀ (expressions : List LinearExpression) (start : LinearExpression),
      start.WellFormed n → (∀ e ∈ expressions, e.WellFormed n) →
      (expressions.foldl (fun result e => result.addScaled e 1) start).WellFormed n := by
    intro expressions
    induction expressions with
    | nil => exact fun start hs _ => hs
    | cons e rest ih =>
      intro start hs he
      exact ih _ (hs.addScaled (he e (by simp)) 1) fun e' hm => he e' (by simp [hm])
  exact hfold expressions zero (wellFormed_constant n 0) h

lemma WellFormed.scaled (h : e.WellFormed n) (scale : ℚ) : (e.scaled scale).WellFormed n := by
  refine ⟨h.toCanonical.scaled scale, fun item hm => ?_⟩
  obtain ⟨entry, hm, he⟩ := mem_scaled hm
  exact he ▸ h.bounded entry hm

/-! ### The value of an expression -/

lemma evaluate_eq : e.evaluate value = e.constant + weightedSum value e.coefficients :=
  foldl_weightedSum e.constant

@[simp] lemma evaluate_ofConstant (c : ℚ) : (ofConstant c).evaluate value = c := rfl

@[simp] lemma evaluate_ofVariable (v : ℕ) : (ofVariable v).evaluate value = value v := by
  simp [evaluate_eq, ofVariable]

lemma evaluate_of_isConstant (h : e.isConstant = true) : e.evaluate value = e.constant := by
  rw [isConstant, List.isEmpty_iff] at h
  rw [evaluate_eq, h, weightedSum_nil, add_zero]

lemma weightedSum_addScaled (h : e.Canonical) (scale : ℚ) :
    weightedSum value (e.addScaled e' scale).coefficients =
      weightedSum value e.coefficients + weightedSum value e'.coefficients * scale :=
  weightedSum_foldl_addMultiple h.ordered

/-- Adding a multiple of an expression adds the multiple of its value. -/
lemma evaluate_addScaled (h : e.Canonical) (scale : ℚ) :
    (e.addScaled e' scale).evaluate value = e.evaluate value + e'.evaluate value * scale := by
  rw [evaluate_eq, evaluate_eq, evaluate_eq, weightedSum_addScaled h, addScaled]
  ring

lemma weightedSum_scaled (scale : ℚ) : weightedSum value (e.scaled scale).coefficients =
    weightedSum value e.coefficients * scale := by
  rw [scaled]
  split
  · next hz => rw [hz, mul_zero]; rfl
  · exact Smt.weightedSum_scaled scale

lemma evaluate_scaled (scale : ℚ) : (e.scaled scale).evaluate value = e.evaluate value * scale := by
  rw [evaluate_eq, evaluate_eq, weightedSum_scaled, scaled]
  split
  · next hz =>
    rw [hz]
    simp [zero]
  · ring

end LinearExpression

end Satrap.Smt
