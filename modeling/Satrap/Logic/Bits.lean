/-
# Words as lists of bits

The number that a list of bits denotes, least significant bit first, and its relation to
`BitVec`.
-/
import Mathlib.Data.Nat.Digits.Defs
import Mathlib.Tactic.Common
import Mathlib.Tactic.Ring

namespace Satrap.Logic.Bits

/-- The number of a list of bits. -/
def value (bits : List Bool) : ℕ := Nat.ofDigits 2 (bits.map Bool.toNat)

@[simp] lemma value_nil : value [] = 0 := rfl

@[simp] lemma value_cons (b : Bool) (bits : List Bool) :
    value (b :: bits) = b.toNat + 2 * value bits := by
  simp [value, Nat.ofDigits_cons]

lemma value_append (low high : List Bool) :
    value (low ++ high) = value low + 2 ^ low.length * value high := by
  simp [value, Nat.ofDigits_append]

lemma value_lt (bits : List Bool) : value bits < 2 ^ bits.length := by
  have hdigit : ∀ x ∈ bits.map Bool.toNat, x < 2 := by
    rintro x hx
    obtain ⟨b, -, rfl⟩ := List.mem_map.1 hx
    exact Bool.toNat_lt b
  simpa [value] using Nat.ofDigits_lt_base_pow_length (by omega) hdigit

@[simp] lemma value_replicate_false (n : ℕ) : value (List.replicate n false) = 0 := by
  simp [value]

lemma value_replicate_true (n : ℕ) : value (List.replicate n true) = 2 ^ n - 1 := by
  induction n with
  | zero => rfl
  | succ n ih =>
    have hpos : 0 < 2 ^ n := by positivity
    rw [List.replicate_succ, value_cons, ih, pow_succ, Bool.toNat_true]
    omega

lemma value_inj {bits bits' : List Bool} (hl : bits.length = bits'.length)
    (hv : value bits = value bits') : bits = bits' := by
  induction bits generalizing bits' with
  | nil => exact (List.length_eq_zero_iff.1 hl.symm).symm
  | cons b bits ih =>
    cases bits' with
    | nil => cases hl
    | cons b' bits' =>
      rw [value_cons, value_cons] at hv
      have hb : b = b' := by
        cases b <;> cases b' <;> simp only [Bool.toNat_true, Bool.toNat_false] at hv <;>
          first | rfl | omega
      subst hb
      rw [ih (by simpa using hl) (by omega)]

/-- Two words are equal when their bits are, pair by pair. -/
lemma all_zipWith_beq : ∀ {xs ys : List Bool}, xs.length = ys.length →
    (List.zipWith (fun a b => a == b) xs ys).all id = decide (xs = ys)
  | [], [], _ => rfl
  | x :: xs, y :: ys, hl => by
    rw [List.zipWith_cons_cons, List.all_cons, all_zipWith_beq (by simpa using hl)]
    cases x <;> cases y <;> simp

lemma value_eq_zero_iff {bits : List Bool} : value bits = 0 ↔ ∀ b ∈ bits, b = false := by
  induction bits with
  | nil => simp
  | cons b bits ih => cases b <;> simp [ih]

lemma value_take_add_drop (bits : List Bool) {n : ℕ} (hn : n ≤ bits.length) :
    value (bits.take n) + 2 ^ n * value (bits.drop n) = value bits := by
  rw [← List.take_append_drop n bits, value_append, List.take_append_drop, List.length_take,
    min_eq_left hn]

lemma value_take (bits : List Bool) (n : ℕ) : value (bits.take n) = value bits % 2 ^ n := by
  rcases le_or_gt n bits.length with hn | hn
  · have hlt := value_lt (bits.take n)
    rw [List.length_take, min_eq_left hn] at hlt
    rw [← value_take_add_drop bits hn, Nat.add_mul_mod_self_left, Nat.mod_eq_of_lt hlt]
  · rw [List.take_of_length_le hn.le, Nat.mod_eq_of_lt]
    exact (value_lt bits).trans_le (Nat.pow_le_pow_right (by omega) hn.le)

lemma value_drop (bits : List Bool) (n : ℕ) : value (bits.drop n) = value bits / 2 ^ n := by
  rcases le_or_gt n bits.length with hn | hn
  · have hlt := value_lt (bits.take n)
    rw [List.length_take, min_eq_left hn] at hlt
    rw [← value_take_add_drop bits hn, Nat.add_mul_div_left _ _ (by positivity),
      Nat.div_eq_of_lt hlt, zero_add]
  · rw [List.drop_of_length_le hn.le, Nat.div_eq_of_lt, value_nil]
    exact (value_lt bits).trans_le (Nat.pow_le_pow_right (by omega) hn.le)

lemma testBit_value (bits : List Bool) (i : ℕ) : (value bits).testBit i = bits.getD i false := by
  induction bits generalizing i with
  | nil => simp
  | cons b bits ih =>
    rw [value_cons]
    cases i with
    | zero => cases b <;> simp [Nat.testBit_zero]
    | succ i =>
      rw [List.getD_cons_succ, ← ih, Nat.testBit_succ]
      congr 1
      cases b <;> simp only [Bool.toNat_true, Bool.toNat_false] <;> omega

/-- The low bits of a number. -/
lemma value_range_testBit (n k : ℕ) : value ((List.range n).map fun i => k.testBit i) = k % 2 ^ n := by
  refine Nat.eq_of_testBit_eq fun i => ?_
  rw [testBit_value, Nat.testBit_mod_two_pow, List.getD_eq_getElem?_getD, List.getElem?_map]
  rcases lt_or_ge i n with hi | hi
  · rw [List.getElem?_range hi, Option.map_some, Option.getD_some, decide_eq_true hi,
      Bool.true_and]
  · rw [List.getElem?_eq_none (by simpa using hi), Option.map_none, Option.getD_none,
      decide_eq_false (not_lt.2 hi), Bool.false_and]

/-- The bit of highest weight. -/
lemma value_concat (bits : List Bool) (b : Bool) :
    value (bits ++ [b]) = value bits + 2 ^ bits.length * b.toNat := by
  rw [value_append, value_cons, value_nil, Nat.mul_zero, Nat.add_zero]

/-- The complement. -/
lemma value_map_not (bits : List Bool) :
    value (bits.map not) + value bits + 1 = 2 ^ bits.length := by
  induction bits with
  | nil => rfl
  | cons b bits ih =>
    rw [List.map_cons, value_cons, value_cons, List.length_cons, pow_succ, ← ih]
    cases b <;> simp only [Bool.not_true, Bool.not_false, Bool.toNat_true, Bool.toNat_false] <;>
      ring

/-- The sum and the carry of a full adder. -/
lemma fullAdder (a b c : Bool) :
    ((a ^^ b) ^^ c).toNat + 2 * ((a && b) || ((a ^^ b) && c)).toNat =
      a.toNat + b.toNat + c.toNat := by
  cases a <;> cases b <;> cases c <;> rfl

/-- The sum modulo a power of two. -/
lemma value_of_carry {bits : List Bool} {c : Bool} {n : ℕ}
    (hv : value bits + 2 ^ bits.length * c.toNat = n) : value bits = n % 2 ^ bits.length := by
  rw [← hv, Nat.add_mul_mod_self_left, Nat.mod_eq_of_lt (value_lt bits)]

/-- Numbers are compared from the highest bit. -/
lemma decide_value_concat_lt {xs ys : List Bool} (hlen : xs.length = ys.length) (x y : Bool) :
    decide (value (xs ++ [x]) < value (ys ++ [y])) =
      ((!x && y) || ((x == y) && decide (value xs < value ys))) := by
  have hx := value_lt xs
  have hy := value_lt ys
  rw [value_concat, value_concat, hlen]
  rw [hlen] at hx
  cases x <;> cases y <;> simp <;> omega

/-! ### Restoring division -/

/-- The quotient and the remainder of a number of at most as many bits as the quotient has. -/
structure Divided (divisor number : ℕ) (qs rs : List Bool) : Prop where
  lt : number < 2 ^ qs.length
  remainder : value rs = number % divisor
  quotient : value qs = if divisor = 0 then 2 ^ qs.length - 1 else number / divisor

lemma Divided.start (divisor n : ℕ) : Divided divisor 0 [] (List.replicate n false) where
  lt := Nat.one_pos
  remainder := by rw [value_replicate_false, Nat.zero_mod]
  quotient := by simp

/-- One step: a bit is shifted into the remainder and the divisor subtracted where it fits. -/
lemma Divided.step {ds qs rs zs : List Bool} {number : ℕ} {x : Bool}
    (h : Divided (value ds) number qs rs) (hlr : rs.length = ds.length + 1)
    (hvz : value zs = (value (x :: rs.dropLast) + (2 ^ (x :: rs.dropLast).length -
      value (ds ++ [false]))) % 2 ^ (x :: rs.dropLast).length)
    (hlq : qs.length < ds.length) :
    Divided (value ds) (2 * number + x.toNat)
      ((!decide (value (x :: rs.dropLast) < value (ds ++ [false]))) :: qs)
      (if !decide (value (x :: rs.dropLast) < value (ds ++ [false])) then zs
        else x :: rs.dropLast) := by
  have hx : x.toNat < 2 := Bool.toNat_lt x
  have hd : value (ds ++ [false]) = value ds := by simp [value_concat]
  have hdlt := value_lt ds
  have hrem : value rs < 2 ^ ds.length := by
    rw [h.remainder]
    rcases Nat.eq_zero_or_pos (value ds) with hz | hpos
    · rw [hz, Nat.mod_zero]
      exact h.lt.trans (Nat.pow_lt_pow_right (by omega) hlq)
    · exact (Nat.mod_lt _ hpos).trans hdlt
  have hshift : value (x :: rs.dropLast) = x.toNat + 2 * (number % value ds) := by
    rw [value_cons, List.dropLast_eq_take, hlr, Nat.add_sub_cancel, value_take,
      Nat.mod_eq_of_lt hrem, h.remainder]
  have hlen : (x :: rs.dropLast).length = ds.length + 1 := by simp [hlr]
  have hlt : 2 * number + x.toNat < 2 ^ (qs.length + 1) := by
    have := h.lt
    rw [pow_succ]
    omega
  rw [hlen, hd] at hvz
  rw [hd]
  have hdiv := Nat.div_add_mod number (value ds)
  by_cases hless : value (x :: rs.dropLast) < value ds
  · -- the divisor does not fit
    rw [decide_eq_true hless, Bool.not_true, if_neg Bool.false_ne_true]
    rw [hshift] at hless
    have hpos : value ds ≠ 0 := by omega
    have hnumber : 2 * number + x.toNat =
        x.toNat + 2 * (number % value ds) + value ds * (2 * (number / value ds)) := by
      rw [Nat.mul_left_comm]
      omega
    refine ⟨hlt, ?_, ?_⟩
    · rw [hshift, hnumber, Nat.add_mul_mod_self_left, Nat.mod_eq_of_lt hless]
    · rw [value_cons, h.quotient, if_neg hpos, if_neg hpos, hnumber,
        Nat.add_mul_div_left _ _ (Nat.pos_of_ne_zero hpos), Nat.div_eq_of_lt hless]
      simp
  · -- the divisor is subtracted
    rw [decide_eq_false hless, Bool.not_false, if_pos rfl]
    rw [hshift, not_lt] at hless
    rw [hshift] at hvz
    have hbound : x.toNat + 2 * (number % value ds) < 2 ^ (ds.length + 1) := by
      rw [h.remainder] at hrem
      rw [pow_succ]
      omega
    have hzs : value zs = x.toNat + 2 * (number % value ds) - value ds := by
      have hsub : x.toNat + 2 * (number % value ds) + (2 ^ (ds.length + 1) - value ds) =
          x.toNat + 2 * (number % value ds) - value ds + 2 ^ (ds.length + 1) := by omega
      rw [hvz, hsub, Nat.add_mod_right, Nat.mod_eq_of_lt (by omega)]
    rcases Nat.eq_zero_or_pos (value ds) with hz | hpos
    · refine ⟨hlt, ?_, ?_⟩
      · rw [hzs, hz, Nat.mod_zero, Nat.mod_zero, Nat.sub_zero, Nat.add_comm]
      · have hk : 0 < 2 ^ qs.length := by positivity
        rw [value_cons, h.quotient, if_pos hz, if_pos hz, List.length_cons, pow_succ,
          Bool.toNat_true]
        omega
    · have hsmall := Nat.mod_lt number hpos
      have hless' : x.toNat + 2 * (number % value ds) - value ds < value ds := by omega
      have hnumber : 2 * number + x.toNat =
          x.toNat + 2 * (number % value ds) - value ds +
            value ds * (2 * (number / value ds) + 1) := by
        rw [Nat.mul_add, Nat.mul_left_comm]
        omega
      refine ⟨hlt, ?_, ?_⟩
      · rw [hzs, hnumber, Nat.add_mul_mod_self_left, Nat.mod_eq_of_lt hless']
      · rw [value_cons, h.quotient, if_neg hpos.ne', if_neg hpos.ne', hnumber,
          Nat.add_mul_div_left _ _ hpos, Nat.div_eq_of_lt hless', Bool.toNat_true]
        omega

/-! ### Bit vectors -/

/-- The bit vector of a list of bits. -/
def word (w : ℕ) (bits : List Bool) : BitVec w := (BitVec.ofBoolListLE bits).setWidth w

lemma toNat_ofBoolListLE (bits : List Bool) : (BitVec.ofBoolListLE bits).toNat = value bits := by
  refine Nat.eq_of_testBit_eq fun i => ?_
  rw [BitVec.testBit_toNat, BitVec.getLsbD_ofBoolListLE, testBit_value]

lemma toNat_word {w : ℕ} (bits : List Bool) : (word w bits).toNat = value bits % 2 ^ w := by
  rw [word, BitVec.toNat_setWidth, toNat_ofBoolListLE]

lemma toNat_word_length {w : ℕ} {bits : List Bool} (hl : bits.length = w) :
    (word w bits).toNat = value bits := by
  rw [toNat_word, Nat.mod_eq_of_lt (hl ▸ value_lt bits)]

lemma getLsbD_word {w : ℕ} (bits : List Bool) (i : ℕ) :
    (word w bits).getLsbD i = (decide (i < w) && bits.getD i false) := by
  rw [word, BitVec.getLsbD_setWidth, BitVec.getLsbD_ofBoolListLE]

/-- The list has the bits of the vector. -/
lemma getD_eq_getLsbD {w : ℕ} {bits : List Bool} {v : BitVec w} (hv : value bits = v.toNat)
    (i : ℕ) : bits.getD i false = v.getLsbD i := by
  rw [← testBit_value, hv, BitVec.testBit_toNat]

lemma value_eq_toNat {w : ℕ} {bits : List Bool} {v : BitVec w} (hl : bits.length = w)
    (hb : ∀ i < w, bits.getD i false = v.getLsbD i) : value bits = v.toNat := by
  refine Nat.eq_of_testBit_eq fun i => ?_
  rw [testBit_value, BitVec.testBit_toNat]
  rcases lt_or_ge i w with hi | hi
  · exact hb i hi
  · rw [BitVec.getLsbD_of_ge _ _ hi, List.getD_eq_getElem?_getD,
      List.getElem?_eq_none (hl ▸ hi), Option.getD_none]

/-- A number that fits in a width is its own residue. -/
lemma bmod_two_pow {n : ℤ} {w : ℕ} (hw : 0 < w) (hlo : -2 ^ (w - 1) ≤ n) (hhi : n < 2 ^ (w - 1)) :
    n.bmod (2 ^ w) = n := by
  have hpow : ((2 ^ w : ℕ) : ℤ) = 2 * 2 ^ (w - 1) := by
    obtain ⟨k, rfl⟩ := Nat.exists_eq_succ_of_ne_zero hw.ne'
    push_cast
    rw [pow_succ, mul_comm]
  exact Int.bmod_eq_of_le_mul_two (by omega) (by omega)

/-- The bits above a width repeat the sign bit exactly when the number fits in the width. -/
lemma high_bits_iff {m w : ℕ} (p : BitVec m) (hw : 0 < w) (hm : w ≤ m) :
    (∀ i, w ≤ i → i < m → p.getLsbD i = p.getLsbD (w - 1)) ↔
      -2 ^ (w - 1) ≤ p.toInt ∧ p.toInt < 2 ^ (w - 1) := by
  have hext : (∀ i, w ≤ i → i < m → p.getLsbD i = p.getLsbD (w - 1)) ↔
      (p.setWidth w).signExtend m = p := by
    constructor
    · intro h
      refine BitVec.eq_of_getLsbD_eq fun i hi => ?_
      rw [BitVec.getLsbD_signExtend, BitVec.msb_setWidth, BitVec.getLsbD_setWidth]
      by_cases hiw : i < w
      · simp [hi, hiw]
      · rw [if_neg hiw, decide_eq_true hi, decide_eq_true hw, Bool.true_and, Bool.true_and,
          h i (not_lt.1 hiw) hi]
    · intro h i hi him
      have hbit : ((p.setWidth w).signExtend m).getLsbD i = p.getLsbD (w - 1) := by
        rw [BitVec.getLsbD_signExtend, BitVec.msb_setWidth]
        simp [him, not_lt.2 hi, hw]
      rw [← hbit, h]
  rw [hext, ← BitVec.toInt_inj, BitVec.toInt_signExtend, min_eq_right hm]
  constructor
  · intro h
    rw [← h, BitVec.toInt_bmod_cancel]
    exact ⟨BitVec.le_toInt _, BitVec.toInt_lt⟩
  · rintro ⟨hlo, hhi⟩
    have hdvd : 2 ^ w ∣ 2 ^ m := Nat.pow_dvd_pow 2 hm
    rw [BitVec.toInt_setWidth, Int.bmod_bmod, ← Int.bmod_bmod_of_dvd hdvd,
      ← BitVec.toInt_eq_toNat_bmod]
    exact bmod_two_pow hw hlo hhi

/-- The product of sign extensions to twice the width is the product of the numbers. -/
lemma toInt_signExtend_mul {w : ℕ} (x y : BitVec w) (hw : 0 < w) :
    (x.signExtend (w * 2) * y.signExtend (w * 2)).toInt = x.toInt * y.toInt := by
  rw [BitVec.signExtend, BitVec.signExtend, ← BitVec.ofInt_mul, BitVec.toInt_ofInt]
  have hle := BitVec.toInt_mul_toInt_le (x := x) (y := y)
  have hge := BitVec.le_toInt_mul_toInt (x := x) (y := y)
  have hpow : (2 : ℤ) ^ (w * 2 - 1) = 2 * 2 ^ (w * 2 - 2) := by
    obtain ⟨k, rfl⟩ := Nat.exists_eq_succ_of_ne_zero hw.ne'
    have hexp : k.succ * 2 - 1 = (k.succ * 2 - 2) + 1 := by omega
    rw [hexp, pow_succ, mul_comm]
  have hpos : (0 : ℤ) < 2 ^ (w * 2 - 2) := by positivity
  exact bmod_two_pow (by omega) (by omega) (by omega)
end Satrap.Logic.Bits
