/-
# Shifts

The barrel shifter: each bit of the amount selects between the word and the word shifted by a
power of two, which is filled completely once the power reaches the width.
-/
import Satrap.Smt.Word

namespace Satrap.Smt

open Logic TermStore TermM Bits

variable {s : TermStore} {fill x y : TermId} {ρ : SymbolId → Bool} {w : ℕ} {v v' : BitVec w}
  {bits : List TermId}

/-! ### Words given by their bits -/

lemma TermStore.Reads.range {g : ℕ → TermId} {f : ℕ → Bool} (n : ℕ)
    (h : ∀ i < n, s.Means ρ (g i) (f i)) :
    s.Reads ρ ((List.range n).map g) ((List.range n).map f) := by
  rw [TermStore.Reads, List.forall₂_map_left_iff, List.forall₂_map_right_iff]
  refine List.forall₂_same.2 fun i hi => h i (List.mem_range.1 hi)

lemma TermStore.Holds.range {g : ℕ → TermId} (h : ∀ i < w, s.Means ρ (g i) (v.getLsbD i)) :
    s.Holds ρ ((List.range w).map g) v := by
  refine .of_bits (.range w h) (by simp) fun i hi => ?_
  rw [List.getD_eq_getElem?_getD, List.getElem?_map, List.getElem?_range hi, Option.map_some,
    Option.getD_some]

lemma TermStore.Holds.getD (h : s.Holds ρ bits v) (hs : s.Ok) (i : ℕ) :
    s.Means ρ (bits.getD i falseTerm) (v.getLsbD i) := by
  obtain ⟨xs, hxs, -, hb⟩ := h.bits
  rw [← hb]
  exact hxs.getD (.constant hs false) i

lemma TermStore.Holds.of_getD (hl : bits.length = w)
    (h : ∀ i < w, s.Means ρ (bits.getD i falseTerm) (v.getLsbD i)) : s.Holds ρ bits v := by
  have he : bits = (List.range w).map fun i => bits.getD i falseTerm := by
    refine List.ext_getElem (by simpa using hl) fun i hi hi' => ?_
    rw [List.getElem_map, List.getElem_range, List.getD_eq_getElem?_getD,
      List.getElem?_eq_getElem hi, Option.getD_some]
  rw [he]
  exact .range h

/-! ### Shifting by a power of two -/

namespace Shift

/-- The operation on words. -/
def onWord : Shift → BitVec w → ℕ → BitVec w
  | left, v, n => v <<< n
  | logicalRight, v, n => v >>> n
  | arithmeticRight, v, n => v.sshiftRight n

/-- The bit that is shifted in. -/
def fillOf : Shift → BitVec w → Bool
  | arithmeticRight, v => v.msb
  | _, _ => false

lemma onWord_zero (direction : Shift) (v : BitVec w) : direction.onWord v 0 = v := by
  cases direction with
  | left => exact BitVec.shiftLeft_zero v
  | logicalRight => exact BitVec.ushiftRight_zero v
  | arithmeticRight => exact BitVec.sshiftRight_zero

lemma onWord_add (direction : Shift) (v : BitVec w) (n m : ℕ) :
    direction.onWord v (n + m) = direction.onWord (direction.onWord v n) m := by
  cases direction with
  | left => exact BitVec.shiftLeft_add v n m
  | logicalRight => exact BitVec.shiftRight_add v n m
  | arithmeticRight => exact BitVec.sshiftRight_add

lemma fillOf_onWord (direction : Shift) (v : BitVec w) (n : ℕ) :
    direction.fillOf (direction.onWord v n) = direction.fillOf v := by
  cases direction with
  | left | logicalRight => rfl
  | arithmeticRight => exact BitVec.msb_sshiftRight

/-- The bits of a shifted word. -/
lemma getLsbD_onWord (direction : Shift) (v : BitVec w) (n : ℕ) {i : ℕ} (hi : i < w) :
    (direction.onWord v n).getLsbD i = match direction with
      | left => if i < n then false else v.getLsbD (i - n)
      | _ => if i + n < w then v.getLsbD (i + n) else direction.fillOf v := by
  cases direction with
  | left =>
    rw [onWord, BitVec.getLsbD_shiftLeft, decide_eq_true hi, Bool.true_and]
    by_cases hn : i < n <;> simp [hn]
  | logicalRight =>
    rw [onWord, BitVec.getLsbD_ushiftRight, Nat.add_comm]
    dsimp only
    split
    · rfl
    · next hge => exact BitVec.getLsbD_of_ge _ _ (not_lt.1 hge)
  | arithmeticRight =>
    rw [onWord, BitVec.getLsbD_sshiftRight, decide_eq_false (not_le.2 hi), Bool.not_false,
      Bool.true_and, Nat.add_comm]
    rfl

end Shift

section

variable (h : s.Ok)
include h

lemma shiftCandidate_holds (direction : Shift) (hw : w < maxIndex) (hb : s.Holds ρ bits v)
    (hf : s.Means ρ fill (direction.fillOf v)) (index : ℕ) :
    s.Holds ρ (shiftCandidate direction fill w index bits) (direction.onWord v (2 ^ index)) := by
  rw [shiftCandidate]
  by_cases hlt : 2 ^ index < w
  · -- the power is representable
    have hindex : index < 64 := by
      by_contra hge
      have hpow := Nat.pow_le_pow_right Nat.two_pos (not_lt.1 hge)
      rw [maxIndex] at hw
      omega
    rw [checkedShl, if_pos hindex, Option.filter_some, if_pos (decide_eq_true hlt)]
    refine .range fun i hi => ?_
    rw [direction.getLsbD_onWord v _ hi]
    cases direction with
    | left =>
      dsimp only
      split
      · exact .constant h false
      · exact hb.getD h _
    | logicalRight | arithmeticRight =>
      dsimp only
      split
      · exact hb.getD h _
      · exact hf
  · -- every bit is shifted out
    have hnone : ((checkedShl index).filter fun shift => decide (shift < w)) = none := by
      rw [checkedShl]
      split
      · rw [Option.filter_some, if_neg (by simpa using hlt)]
      · rfl
    rw [hnone]
    refine .of_bits (.replicate hf w) (by simp) fun i hi => ?_
    rw [direction.getLsbD_onWord v _ hi, List.getD_eq_getElem?_getD,
      List.getElem?_replicate_of_lt hi, Option.getD_some]
    cases direction with
    | left =>
      dsimp only
      rw [if_pos (by omega)]
      rfl
    | logicalRight | arithmeticRight =>
      dsimp only
      rw [if_neg (by omega)]

/-! ### The barrel shifter -/

lemma variableShift_spec (direction : Shift) (hx : s.Denotes ρ x v) (hy : s.Denotes ρ y v') :
    Spec True (variableShift x y direction) s fun r s' =>
      s'.Denotes ρ r (direction.onWord v v'.toNat) := by
  refine .bind (requireSameBvWidth_denotes h hx hy) ?_
  rintro width _ - - ⟨rfl, rfl⟩
  refine .bind (bitvecBits_denotes h hy) ?_
  rintro selectors _ - - ⟨rfl, -, hselectors⟩
  refine .bind (bitvecBits_denotes h hx) ?_
  rintro bits _ - - ⟨rfl, hne, hbits⟩
  have hfill : s.Means ρ (if direction = .arithmeticRight then signOf bits else falseTerm)
      (direction.fillOf v) := by
    cases direction with
    | left | logicalRight => exact .constant h false
    | arithmeticRight => exact signOf_means h hne hbits
  generalize (if direction = .arithmeticRight then signOf bits else falseTerm) = fill at hfill ⊢
  obtain ⟨ys, hys, hly, hvy⟩ := hselectors
  have hw := (Room.of_denotes h hx).2.1
  have hloop := Spec.loop (T := True) (f := fun result entry =>
      selectBits entry.1 (shiftCandidate direction fill width entry.2 result) result)
    (I := fun result rest s' => ∃ i, rest = selectors.zipIdx.drop i ∧ s.Later s' ∧
      s'.Holds ρ result (direction.onWord v (value (ys.take i))))
    selectors.zipIdx bits s h
    ⟨0, rfl, ⟨h, h, .refl s⟩, by simpa [direction.onWord_zero] using hbits⟩ ?_
  · refine .bind hloop ?_
    rintro result s₁ he₁ h₁ ⟨i, hrest, -, hres⟩
    have hi : ys.length ≤ i := by
      rw [← hys.length]
      simpa [List.drop_eq_nil_iff] using hrest.symm
    rw [List.take_of_length_le hi, hvy] at hres
    exact makeBitvec_same h₁ (hx.later ⟨h, h₁, he₁⟩) hres
  · rintro result entry rest s₁ - h₁ ⟨i, hrest, hs₁, hres⟩
    have hget : selectors.zipIdx[i]? = some entry := by
      rw [← List.head?_drop, ← hrest, List.head?_cons]
    rw [List.getElem?_zipIdx, Option.map_eq_some_iff] at hget
    obtain ⟨u, hu, rfl⟩ := hget
    obtain ⟨b, hb, hmeans⟩ := hys.getElem? hu
    have hcand := shiftCandidate_holds h₁ direction hw hres
      (by simpa [direction.fillOf_onWord] using hfill.later hs₁) i
    rw [← direction.onWord_add] at hcand
    rw [Nat.zero_add]
    refine (selectBits_holds h₁ (hmeans.later hs₁) hcand hres).weaken fun r s₂ he₂ h₂ hr => ?_
    refine ⟨i + 1, ?_, hs₁.trans ⟨h₁, h₂, he₂⟩, ?_⟩
    · rw [← List.drop_drop, ← hrest, List.drop_one, List.tail_cons]
    · have hlen : (ys.take i).length = i := by
        rw [List.length_take, min_eq_left (List.getElem?_eq_some_iff.1 hb).1.le]
      rw [List.take_add_one, hb, Option.toList_some, value_concat, hlen]
      cases b with
      | true => simpa using hr
      | false => simpa using hr

end

end Satrap.Smt
