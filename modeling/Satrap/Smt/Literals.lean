/-
# Literals

Binary, hexadecimal and decimal literals denote their numbers; a decimal literal is rejected
exactly when its number does not fit.
-/
import Satrap.Smt.Structural

namespace Satrap.Smt

open Logic TermStore TermM Bits

variable {s : TermStore} {ρ : SymbolId → Bool} {w : ℕ}

/-- The number that digits denote, most significant first. -/
def numeral (base : ℕ) (digit : Char → ℕ) (digits : List Char) : ℕ :=
  digits.foldl (fun n c => base * n + digit c) 0

/-! ### Positional notation -/

/-- A number in a base that is a power of two, written with the bits of its digits. -/
lemma value_flatMap_reverse (block : Char → List Bool) (digit : Char → ℕ) (k : ℕ)
    (digits : List Char) (hlen : ∀ c ∈ digits, (block c).length = k)
    (hvalue : ∀ c ∈ digits, value (block c) = digit c) :
    value (digits.reverse.flatMap block) = numeral (2 ^ k) digit digits := by
  induction digits using List.reverseRecOn with
  | nil => rfl
  | append_singleton digits c ih =>
    have ih' := ih (fun d hd => hlen d (by simp [hd])) fun d hd => hvalue d (by simp [hd])
    rw [List.reverse_append, List.reverse_singleton, List.singleton_append, List.flatMap_cons,
      value_append, hlen c (by simp), hvalue c (by simp), ih', numeral, numeral, List.foldl_append,
      Nat.add_comm]
    rfl

/-- A list of constants. -/
lemma constants_reads (h : s.Ok) (bits : List Bool) :
    s.Reads ρ (bits.map boolConstant) bits := by
  induction bits with
  | nil => exact .nil
  | cons b bits ih => exact .cons (.constant h b) ih

lemma makeBitvec_constants (h : s.Ok) {bits : List Bool} {number : ℕ} (hlen : bits.length = w)
    (hvalue : value bits = number) (hroom : Room s w) :
    Spec True (makeBitvec (bits.map boolConstant)) s fun r s' =>
      s'.Denotes ρ r (BitVec.ofNat w number) := by
  refine makeBitvec_denotes h ⟨bits, constants_reads h bits, hlen, ?_⟩ hroom
  rw [BitVec.toNat_ofNat, ← hvalue, Nat.mod_eq_of_lt (hlen ▸ value_lt bits)]

section

variable (h : s.Ok) (hroom : s.sorts.length < maxIndex)
include h hroom

/-! ### Binary and hexadecimal literals -/

lemma bitvecFromBinary_spec {digits : List Char} (hne : digits ≠ [])
    (hdigits : ∀ c ∈ digits, c = '0' ∨ c = '1') (hmax : digits.length ≤ maxBitvectorWidth) :
    Spec True (bitvecFromBinary ('#' :: 'b' :: digits)) s fun r s' =>
      s'.Denotes ρ r (BitVec.ofNat digits.length
        (numeral 2 (fun c => if c = '1' then 1 else 0) digits)) := by
  have hpos := List.length_pos_iff.2 hne
  have hcheck : ¬ (digits.isEmpty || !digits.all fun c => c = '0' || c = '1') = true := by
    simpa [hne, or_iff_not_imp_left] using hdigits
  rw [bitvecFromBinary, if_neg hcheck]
  refine checkNewWidth h hpos hmax ?_
  have hvalue := value_flatMap_reverse (fun c => [decide (c = '1')])
    (fun c => if c = '1' then 1 else 0) 1 digits (by simp) fun c _ => by
      by_cases hc : c = '1' <;> simp [hc]
  have hmap : digits.reverse.map (fun c => boolConstant (c = '1')) =
      (digits.reverse.flatMap fun c => [decide (c = '1')]).map boolConstant := by
    rw [← List.map_eq_flatMap, List.map_map]
    rfl
  rw [hmap]
  exact makeBitvec_constants h (by simp) hvalue (.of_room hpos hmax hroom)

omit h hroom in
lemma hexDigitValue_lt {c : Char} (hc : isHexDigit c = true) : hexDigitValue c < 16 := by
  rw [isHexDigit, Bool.or_eq_true, Bool.or_eq_true, Bool.and_eq_true, Bool.and_eq_true,
    decide_eq_true_eq, decide_eq_true_eq, decide_eq_true_eq, decide_eq_true_eq] at hc
  rw [hexDigitValue]
  split
  · next hd =>
    rw [Char.isDigit, Bool.and_eq_true, decide_eq_true_eq, decide_eq_true_eq] at hd
    have h1 : c.toNat ≤ '9'.toNat := hd.2
    have h2 : '9'.toNat = 57 := rfl
    have h3 : '0'.toNat = 48 := rfl
    omega
  · next hd =>
    have hle : ∀ a b : Char, a ≤ b ↔ a.toNat ≤ b.toNat := fun _ _ => Iff.rfl
    simp only [hle] at hc ⊢
    have h1 : 'a'.toNat = 97 := rfl
    have h2 : 'f'.toNat = 102 := rfl
    have h3 : 'A'.toNat = 65 := rfl
    have h4 : 'F'.toNat = 70 := rfl
    rw [or_assoc] at hc
    have hc := hc.resolve_left hd
    split <;> omega

lemma bitvecFromHexadecimal_spec {digits : List Char} (hne : digits ≠ [])
    (hdigits : ∀ c ∈ digits, isHexDigit c = true) (hmax : digits.length * 4 ≤ maxBitvectorWidth) :
    Spec True (bitvecFromHexadecimal ('#' :: 'x' :: digits)) s fun r s' =>
      s'.Denotes ρ r (BitVec.ofNat (digits.length * 4) (numeral 16 hexDigitValue digits)) := by
  have hpos := List.length_pos_iff.2 hne
  have hcheck : ¬ (digits.isEmpty || !digits.all isHexDigit) = true := by
    simpa [hne] using hdigits
  rw [bitvecFromHexadecimal, if_neg hcheck]
  refine checkNewWidth h (by omega) hmax ?_
  have hvalue := value_flatMap_reverse
    (fun c => (List.range 4).map fun index => (hexDigitValue c).testBit index)
    hexDigitValue 4 digits (by simp) fun c hc => by
      exact (value_range_testBit _ _).trans (Nat.mod_eq_of_lt (hexDigitValue_lt (hdigits c hc)))
  have hmap : (digits.reverse.flatMap fun c =>
        (List.range 4).map fun index => boolConstant ((hexDigitValue c).testBit index)) =
      (digits.reverse.flatMap fun c =>
        (List.range 4).map fun index => (hexDigitValue c).testBit index).map boolConstant := by
    simp only [List.map_flatMap, List.map_map]
    rfl
  rw [hmap]
  refine makeBitvec_constants h ?_ hvalue (.of_room (by omega) hmax hroom)
  simp [List.length_flatMap]

/-! ### Decimal literals -/

omit h hroom

/-- Leading digits count for more. -/
lemma foldl_decimal (digits : List ℕ) (start : ℕ) :
    digits.foldl (fun value digit => 10 * value + digit) start =
      start * 10 ^ digits.length + decimalValue digits := by
  induction digits generalizing start with
  | nil => simp [decimalValue]
  | cons digit digits ih =>
    have hcons : decimalValue (digit :: digits) =
        (10 * 0 + digit) * 10 ^ digits.length + decimalValue digits := by
      rw [decimalValue, List.foldl_cons, ih]
    rw [List.foldl_cons, ih, hcons, List.length_cons, pow_succ]
    ring

lemma decimalValue_cons (digit : ℕ) (digits : List ℕ) :
    decimalValue (digit :: digits) = digit * 10 ^ digits.length + decimalValue digits := by
  rw [decimalValue, List.foldl_cons, foldl_decimal, Nat.mul_zero, Nat.zero_add]

lemma decimalValue_lt {digits : List ℕ} (hd : ∀ d ∈ digits, d ≤ 9) :
    decimalValue digits < 10 ^ digits.length := by
  induction digits with
  | nil => simp [decimalValue]
  | cons digit digits ih =>
    have hlt := ih fun d hd' => hd d (by simp [hd'])
    have hdigit : digit * 10 ^ digits.length ≤ 9 * 10 ^ digits.length :=
      Nat.mul_le_mul_right _ (hd digit (by simp))
    rw [decimalValue_cons, List.length_cons, pow_succ]
    omega

/-- Halving digit by digit. -/
lemma halveDigits_spec : ∀ (digits : List ℕ) (carry : ℕ), carry ≤ 1 → (∀ d ∈ digits, d ≤ 9) →
    (halveDigits carry digits).1.length = digits.length ∧
      (∀ d ∈ (halveDigits carry digits).1, d ≤ 9) ∧ (halveDigits carry digits).2 ≤ 1 ∧
      carry * 10 ^ digits.length + decimalValue digits =
        2 * decimalValue (halveDigits carry digits).1 + (halveDigits carry digits).2
  | [], carry, hc, _ => by simp [halveDigits, decimalValue, hc]
  | digit :: rest, carry, hc, hd => by
    have hdigit := hd digit (by simp)
    obtain ⟨h1, h2, h3, h4⟩ := halveDigits_spec rest ((carry * 10 + digit) % 2) (by omega)
      fun d hd' => hd d (by simp [hd'])
    rw [halveDigits]
    refine ⟨by simpa using h1, ?_, h3, ?_⟩
    · simp only [List.forall_mem_cons]
      exact ⟨by omega, h2⟩
    · rw [decimalValue_cons, decimalValue_cons, h1, List.length_cons, pow_succ]
      have hsplit : carry * 10 + digit =
          2 * ((carry * 10 + digit) / 2) + (carry * 10 + digit) % 2 := by omega
      calc carry * (10 ^ rest.length * 10) + (digit * 10 ^ rest.length + decimalValue rest)
          = (carry * 10 + digit) * 10 ^ rest.length + decimalValue rest := by ring
        _ = (2 * ((carry * 10 + digit) / 2) + (carry * 10 + digit) % 2) * 10 ^ rest.length +
              decimalValue rest := by rw [← hsplit]
        _ = 2 * ((carry * 10 + digit) / 2 * 10 ^ rest.length) +
              ((carry * 10 + digit) % 2 * 10 ^ rest.length + decimalValue rest) := by ring
        _ = _ := by rw [h4]; ring

/-- Leading zeros do not count. -/
lemma decimalValue_dropWhile (digits : List ℕ) :
    decimalValue (digits.dropWhile fun digit => decide (digit = 0)) = decimalValue digits := by
  induction digits with
  | nil => rfl
  | cons digit digits ih =>
    by_cases hz : digit = 0
    · rw [List.dropWhile_cons_of_pos (by simpa using hz), ih, decimalValue_cons, hz, Nat.zero_mul,
        Nat.zero_add]
    · rw [List.dropWhile_cons_of_neg (by simpa using hz)]

lemma decimalValue_eq_zero_iff {digits : List ℕ} :
    decimalValue digits = 0 ↔ ∀ d ∈ digits, d = 0 := by
  induction digits with
  | nil => simp [decimalValue]
  | cons digit digits ih => simp [decimalValue_cons, ih]

/-- The bits of a decimal number, without leading zeros. -/
lemma decimalBits_spec : ∀ (rounds : ℕ) (digits : List ℕ), (∀ d ∈ digits, d ≤ 9) →
    decimalValue digits < 2 ^ rounds →
    value (decimalBits rounds digits) = decimalValue digits ∧
      (decimalBits rounds digits = [] ∨
        2 ^ ((decimalBits rounds digits).length - 1) ≤ decimalValue digits)
  | 0, digits, _, hlt => by
    rw [pow_zero, Nat.lt_one_iff] at hlt
    simp [decimalBits, hlt]
  | rounds + 1, digits, hd, hlt => by
    rw [decimalBits]
    by_cases hz : decimalValue digits = 0
    · have hall := decimalValue_eq_zero_iff.1 hz
      rw [if_neg (by simpa using hall)]
      simp [hz]
    · have hany : (digits.any fun digit => decide (digit ≠ 0)) = true := by
        rw [decimalValue_eq_zero_iff] at hz
        simpa using hz
      obtain ⟨-, h2, h3, h4⟩ := halveDigits_spec digits 0 (by omega) hd
      rw [if_pos hany]
      generalize halveDigits 0 digits = r at h2 h3 h4
      obtain ⟨halved, carry⟩ := r
      dsimp only at h2 h3 h4 ⊢
      rw [Nat.zero_mul, Nat.zero_add] at h4
      obtain ⟨hv, hbits⟩ := decimalBits_spec rounds
        (halved.dropWhile fun digit => decide (digit = 0))
        (fun d hm => h2 d (List.dropWhile_subset _ hm)) (by
          rw [decimalValue_dropWhile]
          rw [pow_succ] at hlt
          omega)
      rw [decimalValue_dropWhile] at hv hbits
      have hcarry : (decide (carry ≠ 0)).toNat = carry := by
        rcases Nat.le_one_iff_eq_zero_or_eq_one.1 h3 with rfl | rfl <;> rfl
      rw [value_cons, hv, hcarry, List.length_cons, Nat.add_sub_cancel]
      refine ⟨by omega, .inr ?_⟩
      rcases hbits with hnil | hge
      · rw [hnil, List.length_nil, pow_zero]
        omega
      · rcases Nat.eq_zero_or_pos (decimalBits rounds
            (halved.dropWhile fun digit => decide (digit = 0))).length with hlen | hlen
        · rw [hlen, pow_zero]
          omega
        · obtain ⟨k, hk⟩ := Nat.exists_eq_succ_of_ne_zero hlen.ne'
          rw [hk] at hge ⊢
          rw [Nat.succ_sub_one] at hge
          rw [pow_succ]
          omega

/-- A numeral: decimal digits without a superfluous zero in front. -/
structure IsNumeral (decimal : List Char) : Prop where
  nonempty : decimal ≠ []
  digits : ∀ c ∈ decimal, c.isDigit = true
  leading : decimal.length ≤ 1 ∨ decimal.head? ≠ some '0'

/-- The value of a decimal digit. -/
def decimalDigit (c : Char) : ℕ := c.toNat - '0'.toNat

lemma decimalValue_map (decimal : List Char) :
    decimalValue (decimal.map fun c => c.toNat - '0'.toNat) = numeral 10 decimalDigit decimal := by
  rw [decimalValue, List.foldl_map]
  rfl

variable {decimal : List Char} (hd : IsNumeral decimal)
include hd

/-- The bits of a numeral, and whether they fit. -/
lemma decimalBits_numeral (width : ℕ) :
    value (decimalBits (4 * decimal.length) (decimal.map fun c => c.toNat - '0'.toNat)) =
      numeral 10 decimalDigit decimal ∧
    (width < (decimalBits (4 * decimal.length)
        (decimal.map fun c => c.toNat - '0'.toNat)).length ↔
      2 ^ width ≤ numeral 10 decimalDigit decimal) := by
  have hle : ∀ d ∈ decimal.map (fun c => c.toNat - '0'.toNat), d ≤ 9 := by
    intro d hm
    obtain ⟨c, hc, rfl⟩ := List.mem_map.1 hm
    have hdigit := hd.digits c hc
    rw [Char.isDigit, Bool.and_eq_true, decide_eq_true_eq, decide_eq_true_eq] at hdigit
    have h1 : c.toNat ≤ '9'.toNat := hdigit.2
    have h2 : '9'.toNat = 57 := rfl
    have h3 : '0'.toNat = 48 := rfl
    omega
  have hlt : decimalValue (decimal.map fun c => c.toNat - '0'.toNat) < 2 ^ (4 * decimal.length) := by
    refine (decimalValue_lt hle).trans_le ?_
    rw [List.length_map, pow_mul]
    exact Nat.pow_le_pow_left (by omega) _
  obtain ⟨hv, hbits⟩ := decimalBits_spec _ _ hle hlt
  have hsmall := value_lt (decimalBits (4 * decimal.length)
    (decimal.map fun c => c.toNat - '0'.toNat))
  rw [decimalValue_map] at hv hbits
  generalize decimalBits (4 * decimal.length) (decimal.map fun c => c.toNat - '0'.toNat) = bits
    at hv hbits hsmall
  rw [hv] at hsmall
  refine ⟨hv, fun hwidth => ?_, fun hge => ?_⟩
  · refine (Nat.pow_le_pow_right Nat.two_pos ?_).trans (hbits.resolve_left ?_)
    · omega
    · rintro rfl
      cases hwidth
  · exact (Nat.pow_lt_pow_iff_right (by omega)).1 (hge.trans_lt hsmall)

variable (hpos : 0 < w) (hmax : w ≤ maxBitvectorWidth)
include hpos hmax

/-- The checks that a numeral passes. -/
lemma bitvecFromDecimal_eq (s : TermStore) : bitvecFromDecimal decimal w s =
    (if w < (decimalBits (4 * decimal.length)
        (decimal.map fun c => c.toNat - '0'.toNat)).length then
      fail s!"decimal value does not fit in a {w}-bit vector"
    else makeBitvec (resize ((decimalBits (4 * decimal.length)
      (decimal.map fun c => c.toNat - '0'.toNat)).map boolConstant) w falseTerm)) s := by
  have hcheck : ¬ (decimal.isEmpty || !decimal.all Char.isDigit) = true := by
    simpa [hd.nonempty] using hd.digits
  have hlead : ¬ (1 < decimal.length ∧ decimal.head? = some '0') := fun hl =>
    hd.leading.elim (not_le.2 hl.1) fun hne => hne hl.2
  have hwidth : checkWidth w s = (.ok (), s) := by
    rw [checkWidth, if_neg hpos.ne', if_neg (not_lt.2 hmax)]
    rfl
  rw [bitvecFromDecimal, bind_ok hwidth, if_neg hcheck, if_neg hlead]

lemma bitvecFromDecimal_spec (h : s.Ok) (hroom : s.sorts.length < maxIndex)
    (hfit : numeral 10 decimalDigit decimal < 2 ^ w) :
    Spec True (bitvecFromDecimal decimal w) s fun r s' =>
      s'.Denotes ρ r (BitVec.ofNat w (numeral 10 decimalDigit decimal)) := by
  obtain ⟨hv, hiff⟩ := decimalBits_numeral hd w
  refine .congr (bitvecFromDecimal_eq hd hpos hmax s) ?_
  rw [if_neg fun hlt => absurd (hiff.1 hlt) (not_le.2 hfit)]
  have hle := not_lt.1 fun hlt => absurd (hiff.1 hlt) (not_le.2 hfit)
  generalize decimalBits (4 * decimal.length) (decimal.map fun c => c.toNat - '0'.toNat) = bits
    at hv hle ⊢
  have hresize : resize (bits.map boolConstant) w falseTerm =
      (bits ++ List.replicate (w - bits.length) false).map boolConstant := by
    rw [resize, List.length_map, List.map_append, List.map_replicate,
      List.take_of_length_le (by simp; omega)]
    rfl
  rw [hresize]
  refine makeBitvec_constants h (by simp; omega) ?_ (.of_room hpos hmax hroom)
  rw [value_append, value_replicate_false, Nat.mul_zero, Nat.add_zero, hv]

/-- A decimal literal that does not fit is rejected. -/
lemma bitvecFromDecimal_rejected (hfit : 2 ^ w ≤ numeral 10 decimalDigit decimal)
    (s : TermStore) : (bitvecFromDecimal decimal w s).1 =
      .error ⟨s!"decimal value does not fit in a {w}-bit vector"⟩ := by
  rw [bitvecFromDecimal_eq hd hpos hmax s, if_pos ((decimalBits_numeral hd w).2.2 hfit)]
  rfl

end

end Satrap.Smt
