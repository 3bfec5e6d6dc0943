/-
# Bounds of a number

Lower and upper bounds in a linearly ordered field, each of them either attained or not.  A lower
and an upper bound are compatible when there is a number between them.
-/
import Mathlib.Algebra.Order.Field.Basic
import Mathlib.Data.List.Induction
import Mathlib.Tactic.Linarith

namespace Satrap.Logic

variable {K : Type*}

section

variable [LinearOrder K] {b lower upper : K × Bool} {x : K}

/-- The number is above the lower bound, which is excluded when the flag is set. -/
def Above (b : K × Bool) (x : K) : Prop := if b.2 then b.1 < x else b.1 ≤ x

/-- The number is below the upper bound. -/
def Below (b : K × Bool) (x : K) : Prop := if b.2 then x < b.1 else x ≤ b.1

/-- There is room between the bounds. -/
def Compatible (lower upper : K × Bool) : Prop :=
  lower.1 < upper.1 ∨ lower.1 = upper.1 ∧ lower.2 = false ∧ upper.2 = false

lemma Above.le (h : Above b x) : b.1 ≤ x := by
  rw [Above] at h
  split at h
  · exact h.le
  · exact h

lemma Below.le (h : Below b x) : x ≤ b.1 := by
  rw [Below] at h
  split at h
  · exact h.le
  · exact h

lemma Above.of_lt (h : b.1 < x) : Above b x := by
  rw [Above]
  split
  · exact h
  · exact h.le

lemma Below.of_lt (h : x < b.1) : Below b x := by
  rw [Below]
  split
  · exact h
  · exact h.le

/-- A number between two bounds shows that they are compatible. -/
lemma Compatible.of_between (hl : Above lower x) (hu : Below upper x) : Compatible lower upper := by
  rcases (hl.le.trans hu.le).lt_or_eq with hlt | heq
  · exact .inl hlt
  · refine .inr ⟨heq, ?_, ?_⟩
    · by_contra hs
      rw [Above, if_pos (by simpa using hs)] at hl
      exact absurd (hl.trans_le hu.le) heq.not_lt
    · by_contra hs
      rw [Below, if_pos (by simpa using hs)] at hu
      exact absurd (hl.le.trans_lt hu) heq.not_lt

end

section

variable [Field K] [LinearOrder K] [IsStrictOrderedRing K] {lower upper : K × Bool}

/-- Compatible bounds have a number between them: the bound itself where they meet, and the
middle otherwise. -/
lemma Compatible.middle (h : Compatible lower upper) :
    Above lower (if lower.1 = upper.1 then lower.1 else (lower.1 + upper.1) / 2) ∧
      Below upper (if lower.1 = upper.1 then lower.1 else (lower.1 + upper.1) / 2) := by
  rcases h with hlt | ⟨heq, hl, hu⟩
  · rw [if_neg hlt.ne]
    exact ⟨.of_lt (by linarith), .of_lt (by linarith)⟩
  · rw [if_pos heq, Above, Below, hl, hu]
    exact ⟨by simp, by simp [heq]⟩

/-- An affine inequality with a positive coefficient is an upper bound. -/
lemma below_iff {a r y : K} {strict : Bool} (ha : 0 < a) :
    Below (-r / a, strict) y ↔ if strict then a * y + r < 0 else a * y + r ≤ 0 := by
  rw [Below]
  split
  · rw [lt_div_iff₀ ha]
    constructor <;> intro h <;> linarith
  · rw [le_div_iff₀ ha]
    constructor <;> intro h <;> linarith

/-- An affine inequality with a negative coefficient is a lower bound. -/
lemma above_iff {a r y : K} {strict : Bool} (ha : a < 0) :
    Above (-r / a, strict) y ↔ if strict then a * y + r < 0 else a * y + r ≤ 0 := by
  rw [Above]
  split
  · rw [div_lt_iff_of_neg ha]
    constructor <;> intro h <;> linarith
  · rw [div_le_iff_of_neg ha]
    constructor <;> intro h <;> linarith

/-- The combination of an upper and a lower bound that cancels the variable says that they are
compatible. -/
lemma compatible_iff_combined {a b r s : K} {su sl : Bool} (ha : 0 < a) (hb : b < 0) :
    Compatible (-s / b, sl) (-r / a, su) ↔
      if su || sl then r * -b + s * a < 0 else r * -b + s * a ≤ 0 := by
  have hlower : -s / b = s / -b := by rw [div_neg, neg_div]
  have hb : 0 < -b := neg_pos.2 hb
  rw [Compatible, hlower, div_lt_div_iff₀ hb ha, div_eq_div_iff hb.ne' ha.ne']
  cases su <;> cases sl <;> simp only [Bool.or_self, Bool.or_true, Bool.true_or, if_true,
    Bool.false_eq_true, if_false, and_true, and_false, or_false, reduceCtorEq]
  · constructor
    · rintro (h | h) <;> linarith
    · intro h
      exact lt_or_eq_of_le (by linarith)
  all_goals constructor <;> intro h <;> linarith

lemma compatible_iff_exists : Compatible lower upper ↔ ∃ x, Above lower x ∧ Below upper x :=
  ⟨fun h => ⟨_, h.middle⟩, fun ⟨_, hl, hu⟩ => .of_between hl hu⟩

end

/-! ### The strongest of several bounds -/

variable {b b' : K × Bool} {seen : List (K × Bool)} {x : K} {meets : K × Bool → K → Prop}

/-- The bound is one of those seen, and no other one says more. -/
def Strongest (meets : K × Bool → K → Prop) (current : Option (K × Bool))
    (seen : List (K × Bool)) : Prop :=
  match current with
  | none => seen = []
  | some b => b ∈ seen ∧ ∀ b' ∈ seen, ∀ x, meets b x → meets b' x

lemma Strongest.meets_all {current : Option (K × Bool)} (h : Strongest meets current seen)
    (hx : ∀ b, current = some b → meets b x) : ∀ b ∈ seen, meets b x := by
  intro b hb
  cases current with
  | none =>
    rw [Strongest] at h
    simp [h] at hb
  | some b' => exact h.2 b hb x (hx b' rfl)

lemma Strongest.first : Strongest meets (some b) [b] := ⟨List.mem_singleton_self b, by simp⟩

/-- A bound that says no more than the strongest one changes nothing. -/
lemma Strongest.keep (h : Strongest meets (some b) seen) (hb : ∀ x, meets b x → meets b' x) :
    Strongest meets (some b) (seen ++ [b']) := by
  refine ⟨List.mem_append_left _ h.1, fun b'' hm x hx => ?_⟩
  rcases List.mem_append.1 hm with hm | hm
  · exact h.2 b'' hm x hx
  · rw [List.mem_singleton.1 hm]
    exact hb x hx

/-- A bound that says at least as much as the strongest one takes its place. -/
lemma Strongest.replace (h : Strongest meets (some b) seen) (hb : ∀ x, meets b' x → meets b x) :
    Strongest meets (some b') (seen ++ [b']) := by
  refine ⟨by simp, fun b'' hm x hx => ?_⟩
  rcases List.mem_append.1 hm with hm | hm
  · exact h.2 b'' hm x (hb x hx)
  · rw [List.mem_singleton.1 hm]
    exact hx

/-! ### Room between many bounds -/

section

variable {K : Type*}

lemma above_total [LinearOrder K] (b b' : K × Bool) :
    (∀ x, Above b x → Above b' x) ∨ ∀ x, Above b' x → Above b x := by
  rcases lt_trichotomy b.1 b'.1 with hlt | heq | hlt
  · exact .inr fun x hx => .of_lt (hlt.trans_le hx.le)
  · obtain ⟨a, s⟩ := b
    obtain ⟨a', s'⟩ := b'
    obtain rfl : a = a' := heq
    cases s
    · exact .inr fun x hx => hx.le
    · exact .inl fun x hx => .of_lt hx
  · exact .inl fun x hx => .of_lt (hlt.trans_le hx.le)

lemma below_total [LinearOrder K] (b b' : K × Bool) :
    (∀ x, Below b x → Below b' x) ∨ ∀ x, Below b' x → Below b x := by
  rcases lt_trichotomy b.1 b'.1 with hlt | heq | hlt
  · exact .inl fun x hx => .of_lt (hx.le.trans_lt hlt)
  · obtain ⟨a, s⟩ := b
    obtain ⟨a', s'⟩ := b'
    obtain rfl : a = a' := heq
    cases s
    · exact .inr fun x hx => hx.le
    · exact .inl fun x hx => .of_lt hx
  · exact .inr fun x hx => .of_lt (hx.le.trans_lt hlt)

/-- Among bounds of one kind there is a strongest one. -/
lemma exists_strongest {meets : K × Bool → K → Prop}
    (htotal : ∀ b b', (∀ x, meets b x → meets b' x) ∨ ∀ x, meets b' x → meets b x)
    (bounds : List (K × Bool)) : ∃ current, Strongest meets current bounds := by
  induction bounds using List.reverseRecOn with
  | nil => exact ⟨none, rfl⟩
  | append_singleton seen b' ih =>
    obtain ⟨current, h⟩ := ih
    cases current with
    | none =>
      rw [Strongest] at h
      rw [h]
      exact ⟨some b', Strongest.first⟩
    | some b =>
      rcases htotal b b' with hb | hb
      · exact ⟨some b, h.keep hb⟩
      · exact ⟨some b', h.replace hb⟩

end

/-- There is a number between all lower and all upper bounds when every two of them are
compatible. -/
theorem exists_between_iff {K : Type*} [Field K] [LinearOrder K] [IsStrictOrderedRing K]
    {lowers uppers : List (K × Bool)} :
    (∃ x, (∀ l ∈ lowers, Above l x) ∧ ∀ u ∈ uppers, Below u x) ↔
      ∀ l ∈ lowers, ∀ u ∈ uppers, Compatible l u := by
  refine ⟨fun ⟨x, hl, hu⟩ l hlm u hum => .of_between (hl l hlm) (hu u hum), fun h => ?_⟩
  obtain ⟨lower, hlower⟩ := exists_strongest above_total lowers
  obtain ⟨upper, hupper⟩ := exists_strongest below_total uppers
  obtain ⟨x, hl, hu⟩ : ∃ x, (∀ b, lower = some b → Above b x) ∧ ∀ b, upper = some b → Below b x := by
    cases lower with
    | none =>
      cases upper with
      | none => exact ⟨0, by simp, by simp⟩
      | some u => exact ⟨u.1 - 1, by simp, fun b hb => Option.some.inj hb ▸ .of_lt (by linarith)⟩
    | some l =>
      cases upper with
      | none => exact ⟨l.1 + 1, fun b hb => Option.some.inj hb ▸ .of_lt (by linarith), by simp⟩
      | some u =>
        obtain ⟨x, hl, hu⟩ := compatible_iff_exists.1 (h l hlower.1 u hupper.1)
        exact ⟨x, fun b hb => Option.some.inj hb ▸ hl, fun b hb => Option.some.inj hb ▸ hu⟩
  exact ⟨x, hlower.meets_all hl, hupper.meets_all hu⟩

end Satrap.Logic
