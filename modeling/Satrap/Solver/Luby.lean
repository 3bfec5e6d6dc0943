/-
# The restart schedule

`luby` computes a term of the Luby sequence in two loops: the first looks for a complete block of
length `2 ^ (s + 1) - 1` that contains the index, the second halves the block until the index is
its last one.  Subtractions and divisions that would fail, and an addition that would leave the
machine integers, are modelled as having no result.
-/
import Mathlib.Data.Nat.Log
import Mathlib.Tactic.Ring

namespace Satrap

/-! ### The function -/

/-- `u64::MAX`. -/
def maxU64 : ℕ := 2 ^ 64 - 1

/-- The first loop of `luby`, for at most as many steps as the second argument says. -/
def lubyGrow (index : ℕ) : ℕ → ℕ → ℕ → Option (ℕ × ℕ)
  | 0, _, _ => none
  | fuel + 1, size, sequence =>
    if maxU64 < index + 1 then none
    else if size < index + 1 then
      -- `size.saturating_mul(2).saturating_add(1)`
      lubyGrow index fuel (min maxU64 (min maxU64 (size * 2) + 1)) (sequence + 1)
    else some (size, sequence)

/-- The second loop of `luby`. -/
def lubyShrink : ℕ → ℕ → ℕ → ℕ → Option ℕ
  | 0, _, _, _ => none
  | fuel + 1, size, sequence, index =>
    if size - 1 = index then some sequence
    else if size = 0 ∨ sequence = 0 ∨ (size - 1) / 2 = 0 then none
    else lubyShrink fuel ((size - 1) / 2) (sequence - 1) (index % ((size - 1) / 2))

/-- `luby`. -/
def luby (fuel index : ℕ) : Option ℕ :=
  match lubyGrow index fuel 1 0 with
  | none => none
  | some (size, sequence) =>
    match lubyShrink fuel size sequence index with
    | none => none
    | some sequence => if sequence < 64 then some (2 ^ sequence) else none

/-! ### The sequence -/

lemma two_pow_log_le (index : ℕ) : 2 ^ Nat.log 2 (index + 1) ≤ index + 1 :=
  Nat.pow_log_le_self 2 (Nat.succ_ne_zero index)

/-- The Luby sequence: a block of `2 ^ (k + 1) - 1` terms consists of two blocks of
`2 ^ k - 1` terms and the term `2 ^ k`. -/
def lubySequence (index : ℕ) : ℕ :=
  if index + 2 = 2 ^ (Nat.log 2 (index + 1) + 1) then 2 ^ Nat.log 2 (index + 1)
  else lubySequence (index - (2 ^ Nat.log 2 (index + 1) - 1))
termination_by index
decreasing_by
  rename_i h
  have hle := two_pow_log_le index
  have hlt := Nat.lt_pow_succ_log_self one_lt_two (index + 1)
  rw [pow_succ] at h hlt
  omega

/-- The exponent of a block is found from any index in its second half. -/
lemma log_of_block {k index : ℕ} (h : 2 ^ k - 1 ≤ index) (h' : index + 1 < 2 ^ (k + 1)) :
    Nat.log 2 (index + 1) = k :=
  Nat.log_eq_of_pow_le_of_lt_pow (by omega) h'

lemma lubySequence_last (k : ℕ) : lubySequence (2 ^ (k + 1) - 2) = 2 ^ k := by
  have hpos := Nat.one_le_two_pow (n := k)
  have hsucc := pow_succ 2 k
  have hlog : Nat.log 2 (2 ^ (k + 1) - 2 + 1) = k := log_of_block (by omega) (by omega)
  rw [lubySequence, hlog, if_pos (by omega)]

lemma lubySequence_earlier {k index : ℕ} (h : 2 ^ k - 1 ≤ index) (h' : index < 2 ^ (k + 1) - 2) :
    lubySequence index = lubySequence (index - (2 ^ k - 1)) := by
  have hlog : Nat.log 2 (index + 1) = k := log_of_block h (by omega)
  rw [lubySequence, hlog, if_neg (by omega)]

/-! ### The loops -/

/-- The first loop ends at a complete block that contains the index. -/
lemma lubyGrow_spec {index : ℕ} (hi : index < maxU64) :
    ∀ (fuel s : ℕ), s ≤ 63 → 64 ≤ fuel + s → ∃ t ≤ 63, index + 2 ≤ 2 ^ (t + 1) ∧
      lubyGrow index fuel (2 ^ (s + 1) - 1) s = some (2 ^ (t + 1) - 1, t) := by
  intro fuel
  induction fuel with
  | zero => omega
  | succ fuel ih =>
    intro s hs hfuel
    have hpos := Nat.one_le_two_pow (n := s + 1)
    rw [lubyGrow, if_neg (by omega)]
    split
    · next hlt =>
      -- a block that is too small has fewer terms than there are machine integers
      have hs' : s ≠ 63 := by
        rintro rfl
        rw [maxU64] at hi
        omega
      have hbound : 2 ^ (s + 1 + 1) ≤ 2 ^ 64 := Nat.pow_le_pow_right two_pos (by omega)
      have hsucc := pow_succ 2 (s + 1)
      have hdouble : min maxU64 (min maxU64 ((2 ^ (s + 1) - 1) * 2) + 1) =
          2 ^ (s + 1 + 1) - 1 := by
        rw [maxU64]
        omega
      rw [hdouble]
      exact ih (s + 1) (by omega) (by omega)
    · next hge => exact ⟨s, hs, by omega, rfl⟩

/-- The second loop follows the recursion of the sequence: the block is complete, the index lies
in it, and no step changes the term. -/
lemma lubyShrink_spec : ∀ (s fuel index : ℕ), s < fuel → index + 2 ≤ 2 ^ (s + 1) →
    ∃ t ≤ s, lubyShrink fuel (2 ^ (s + 1) - 1) s index = some t ∧ 2 ^ t = lubySequence index := by
  intro s
  induction s with
  | zero =>
    intro fuel index hfuel hindex
    obtain ⟨fuel, rfl⟩ := Nat.exists_eq_add_of_lt hfuel
    obtain rfl : index = 0 := by omega
    exact ⟨0, le_rfl, rfl, (lubySequence_last 0).symm⟩
  | succ s ih =>
    intro fuel index hfuel hindex
    obtain ⟨fuel, rfl⟩ : ∃ n, fuel = n + 1 := ⟨fuel - 1, by omega⟩
    have hpos := Nat.one_le_two_pow (n := s)
    have hsucc := pow_succ 2 s
    have hsucc' := pow_succ 2 (s + 1)
    rw [lubyShrink]
    split
    · next hlast =>
      refine ⟨s + 1, le_rfl, rfl, ?_⟩
      rw [show index = 2 ^ (s + 1 + 1) - 2 by omega, lubySequence_last]
    · next hlast =>
      have hhalf : (2 ^ (s + 1 + 1) - 1 - 1) / 2 = 2 ^ (s + 1) - 1 := by omega
      rw [hhalf, if_neg (by omega), Nat.add_sub_cancel]
      have hmod : index % (2 ^ (s + 1) - 1) + 2 ≤ 2 ^ (s + 1) := by
        have hlt := Nat.mod_lt index (show 2 ^ (s + 1) - 1 > 0 by omega)
        omega
      obtain ⟨t, ht, hshrink, hvalue⟩ := ih fuel _ (by omega) hmod
      refine ⟨t, by omega, hshrink, hvalue.trans ?_⟩
      by_cases hhigh : index < 2 ^ (s + 1) - 1
      · rw [Nat.mod_eq_of_lt hhigh]
      · -- the second of the two smaller blocks repeats the first
        have hmod' : index % (2 ^ (s + 1) - 1) = index - (2 ^ (s + 1) - 1) := by
          rw [Nat.mod_eq_sub_mod (not_lt.1 hhigh), Nat.mod_eq_of_lt (by omega)]
        have hearlier : lubySequence index = lubySequence (index - (2 ^ (s + 1) - 1)) :=
          lubySequence_earlier (not_lt.1 hhigh) (by omega)
        rw [hmod', hearlier]

/-- **The restart schedule is the Luby sequence.**  At every index for which the machine can count
one further, so at every 32-bit one, the loops end after at most 64 steps each, no operation in
them fails, and the result is the term of the sequence that the recursion defines. -/
theorem luby_eq_lubySequence :
    (∀ index < maxU64, ∀ fuel ≥ 64, luby fuel index = some (lubySequence index)) ∧
      (∀ k ≥ 1, lubySequence (2 ^ k - 2) = 2 ^ (k - 1)) ∧
      ∀ k ≥ 1, ∀ index, 2 ^ (k - 1) - 1 ≤ index → index < 2 ^ k - 2 →
        lubySequence index = lubySequence (index - (2 ^ (k - 1) - 1)) := by
  refine ⟨fun index hi fuel hfuel => ?_, fun k hk => ?_, fun k hk index h h' => ?_⟩
  · obtain ⟨s, hs, hindex, hgrow⟩ := lubyGrow_spec hi fuel 0 (by omega) hfuel
    obtain ⟨t, ht, hshrink, hvalue⟩ := lubyShrink_spec s fuel index (by omega) hindex
    have hstart : lubyGrow index fuel 1 0 = some (2 ^ (s + 1) - 1, s) := hgrow
    rw [luby, hstart]
    dsimp only
    rw [hshrink]
    dsimp only
    rw [if_pos (by omega), hvalue]
  · obtain ⟨k, rfl⟩ := Nat.exists_eq_add_of_le' hk
    exact lubySequence_last k
  · obtain ⟨k, rfl⟩ := Nat.exists_eq_add_of_le' hk
    exact lubySequence_earlier h h'

/-- The schedule of the test. -/
example : (List.range 15).map (luby 64) =
    [1, 1, 2, 1, 1, 2, 4, 1, 1, 2, 1, 1, 2, 4, 8].map some := by decide +kernel

end Satrap
