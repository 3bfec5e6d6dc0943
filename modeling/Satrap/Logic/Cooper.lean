/-
# Integers between bounds, with a period

An integer that lies between finitely many strict bounds and has a periodic property can be sought
close to one of the lower bounds, or close to one of the upper bounds, or within one period when it
has no bound on one side.
-/
import Mathlib.Data.Finset.Max
import Mathlib.Tactic.Ring

namespace Satrap.Logic

variable {lower upper : List ℤ} {P : ℤ → Prop} {D x : ℤ}

/-- The number lies strictly between the bounds. -/
def Between (lower upper : List ℤ) (x : ℤ) : Prop := (∀ l ∈ lower, l < x) ∧ ∀ u ∈ upper, x < u

/-- The property is shared by numbers that differ by a multiple of the period. -/
def Repeats (P : ℤ → Prop) (D : ℤ) : Prop := ∀ x y, D ∣ x - y → P x → P y

lemma exists_greatest (h : lower ≠ []) : ∃ b ∈ lower, ∀ l ∈ lower, l ≤ b := by
  obtain ⟨b, hb, hmax⟩ := lower.toFinset.exists_max_image id
    ((List.toFinset_nonempty_iff lower).2 h)
  exact ⟨b, List.mem_toFinset.1 hb, fun l hl => hmax l (List.mem_toFinset.2 hl)⟩

lemma exists_least (h : upper ≠ []) : ∃ b ∈ upper, ∀ u ∈ upper, b ≤ u := by
  obtain ⟨b, hb, hmin⟩ := upper.toFinset.exists_min_image id
    ((List.toFinset_nonempty_iff upper).2 h)
  exact ⟨b, List.mem_toFinset.1 hb, fun u hu => hmin u (List.mem_toFinset.2 hu)⟩

/-- A property that repeats holds within one period. -/
theorem Repeats.exists_small (hP : Repeats P D) (hD : 0 < D) (hx : P x) :
    ∃ j, 0 ≤ j ∧ j < D ∧ P j :=
  ⟨x % D, Int.emod_nonneg x hD.ne', Int.emod_lt_of_pos x hD,
    hP x (x % D) (Int.dvd_self_sub_emod) hx⟩

/-- A solution can be moved down until it is within one period of a lower bound. -/
theorem Between.near_lower (hP : Repeats P D) (hD : 0 < D) (hne : lower ≠ [])
    (hx : Between lower upper x) (hPx : P x) :
    ∃ b ∈ lower, ∃ j, 1 ≤ j ∧ j ≤ D ∧ Between lower upper (b + j) ∧ P (b + j) := by
  obtain ⟨b, hb, hmax⟩ := exists_greatest hne
  have hbx := hx.1 b hb
  have hnonneg := Int.emod_nonneg (x - b - 1) hD.ne'
  have hlt := Int.emod_lt_of_pos (x - b - 1) hD
  have hquot := Int.mul_nonneg hD.le (Int.ediv_nonneg (show 0 ≤ x - b - 1 by omega) hD.le)
  have hsplit := Int.emod_add_mul_ediv (x - b - 1) D
  refine ⟨b, hb, (x - b - 1) % D + 1, by omega, by omega, ⟨fun l hl => ?_, fun u hu => ?_⟩,
    hP x _ ⟨(x - b - 1) / D, by omega⟩ hPx⟩
  · have := hmax l hl
    omega
  · have := hx.2 u hu
    omega

/-- A solution can be moved up until it is within one period of an upper bound. -/
theorem Between.near_upper (hP : Repeats P D) (hD : 0 < D) (hne : upper ≠ [])
    (hx : Between lower upper x) (hPx : P x) :
    ∃ b ∈ upper, ∃ j, 1 ≤ j ∧ j ≤ D ∧ Between lower upper (b - j) ∧ P (b - j) := by
  obtain ⟨b, hb, hmin⟩ := exists_least hne
  have hbx := hx.2 b hb
  have hnonneg := Int.emod_nonneg (b - x - 1) hD.ne'
  have hlt := Int.emod_lt_of_pos (b - x - 1) hD
  have hquot := Int.mul_nonneg hD.le (Int.ediv_nonneg (show 0 ≤ b - x - 1 by omega) hD.le)
  have hsplit := Int.emod_add_mul_ediv (b - x - 1) D
  refine ⟨b, hb, (b - x - 1) % D + 1, by omega, by omega, ⟨fun l hl => ?_, fun u hu => ?_⟩,
    hP x _ ⟨-((b - x - 1) / D), ?_⟩ hPx⟩
  · have := hx.1 l hl
    omega
  · have := hmin u hu
    omega
  · rw [mul_neg]
    omega

end Satrap.Logic
