/-
# Words under an assignment

The bit vector that a word denotes under an assignment of the atoms, and the specifications of
the circuits in terms of the operations of `BitVec`.
-/
import Satrap.Smt.Circuit

namespace Satrap.Smt

open Logic TermStore TermM Bits

variable {s s' : TermStore} {t u x y : TermId} {ρ : SymbolId → Bool} {b c : Bool} {w : ℕ}
  {left right terms : List TermId} {xs ys : List Bool} {v v' : BitVec w}

namespace TermStore

/-- The value of a word: its bits under the assignment. -/
def wordOf (s : TermStore) (ρ : SymbolId → Bool) (t : TermId) (w : ℕ) : BitVec w :=
  word w (((s.bits? t).getD []).map (s.evaluate ρ))

/-- The term is a word of the width and has the value. -/
def Denotes (s : TermStore) (ρ : SymbolId → Bool) (t : TermId) {w : ℕ} (v : BitVec w) : Prop :=
  s.sort? t = some (.bitVec w) ∧ s.wordOf ρ t w = v

/-- The terms have the bits of the word as their values. -/
def Holds (s : TermStore) (ρ : SymbolId → Bool) (terms : List TermId) {w : ℕ} (v : BitVec w) :
    Prop :=
  ∃ bits, s.Reads ρ terms bits ∧ bits.length = w ∧ value bits = v.toNat

namespace Holds

lemma later (h : s.Holds ρ terms v) (hl : s.Later s') : s'.Holds ρ terms v := by
  obtain ⟨bits, hr, hb⟩ := h
  exact ⟨bits, hr.later hl, hb⟩

lemma length (h : s.Holds ρ terms v) : terms.length = w := by
  obtain ⟨bits, hr, hw, -⟩ := h
  exact hr.length.trans hw

/-- The bits of a value are determined by it. -/
lemma reads (h : s.Holds ρ terms v) {bits : List Bool} (hw : bits.length = w)
    (hv : value bits = v.toNat) : s.Reads ρ terms bits := by
  obtain ⟨bits', hr, hw', hv'⟩ := h
  rwa [value_inj (hw.trans hw'.symm) (hv.trans hv'.symm)]

lemma of_reads (h : s.Reads ρ terms xs) (hw : xs.length = w) : s.Holds ρ terms (word w xs) :=
  ⟨xs, h, hw, (toNat_word_length hw).symm⟩

/-- Bit by bit. -/
lemma of_bits (h : s.Reads ρ terms xs) (hl : xs.length = w)
    (hb : ∀ i < w, xs.getD i false = v.getLsbD i) : s.Holds ρ terms v :=
  ⟨xs, h, hl, value_eq_toNat hl hb⟩

lemma bits (h : s.Holds ρ terms v) : ∃ xs, s.Reads ρ terms xs ∧ xs.length = w ∧
    ∀ i, xs.getD i false = v.getLsbD i := by
  obtain ⟨xs, hr, hl, hv⟩ := h
  exact ⟨xs, hr, hl, fun i => getD_eq_getLsbD hv i⟩

lemma eq (h : s.Holds ρ terms v) (hv : v.toNat = v'.toNat) : s.Holds ρ terms v' :=
  BitVec.eq_of_toNat_eq hv ▸ h

end Holds

/-- The bits of a word with a value. -/
lemma Denotes.holds (h : s.Ok) (hd : s.Denotes ρ t v) :
    ∃ bits, s.bits? t = some bits ∧ bits ≠ [] ∧ s.Holds ρ bits v := by
  obtain ⟨hs, hv⟩ := hd
  obtain ⟨bits, hb, hw, hne, hbool⟩ := bits_of_sort h hs
  rw [wordOf, hb, Option.getD_some] at hv
  exact ⟨bits, hb, hne, hv ▸ .of_reads (.of_isBool hbool) (by simpa using hw)⟩

lemma Denotes.of_holds (h : s.Ok) {bits : List TermId} (hb : s.bits? t = some bits)
    (hv : s.Holds ρ bits v) : s.Denotes ρ t v := by
  have hlen := hv.length
  obtain ⟨xs, hr, hw, hx⟩ := hv
  refine ⟨by rw [(sort_of_bits h hb).1, hlen], BitVec.eq_of_toNat_eq ?_⟩
  rw [wordOf, hb, Option.getD_some, hr.eq_map, toNat_word_length hw, hx]

lemma Denotes.wordOf (hs : s.sort? t = some (.bitVec w)) : s.Denotes ρ t (s.wordOf ρ t w) :=
  ⟨hs, rfl⟩

lemma Denotes.later (hd : s.Denotes ρ t v) (hl : s.Later s') : s'.Denotes ρ t v := by
  obtain ⟨bits, hb, -, hv⟩ := hd.holds hl.before
  refine .of_holds hl.after ?_ (hv.later hl)
  obtain ⟨node, hn, hk⟩ := bits?_eq_some_iff.1 hb
  exact bits?_eq_some_iff.2 ⟨node, hl.grown.node hn, hk⟩

/-- The operation returns a word that has the value under every assignment. -/
def Computes (s : TermStore) (operation : TermM TermId) {w : ℕ}
    (f : (SymbolId → Bool) → BitVec w) : Prop :=
  ∃ r, (operation s).1 = .ok r ∧ ∀ ρ, (operation s).2.Denotes ρ r (f ρ)

/-- The operation returns a Boolean term that has the value under every assignment. -/
def Decides (s : TermStore) (operation : TermM TermId) (f : (SymbolId → Bool) → Bool) : Prop :=
  ∃ r, (operation s).1 = .ok r ∧ ∀ ρ, (operation s).2.Means ρ r (f ρ)

lemma computes_of_spec {operation : TermM TermId} {f : (SymbolId → Bool) → BitVec w}
    (hspec : ∀ ρ, Spec True operation s fun r s' => s'.Denotes ρ r (f ρ)) :
    s.Computes operation f := by
  obtain ⟨r, hr, -⟩ := (hspec fun _ => false).result
  refine ⟨r, hr, fun ρ => ?_⟩
  obtain ⟨r', hr', hd⟩ := (hspec ρ).result
  rw [hr, Except.ok.injEq] at hr'
  exact hr' ▸ hd

lemma decides_of_spec {operation : TermM TermId} {f : (SymbolId → Bool) → Bool}
    (hspec : ∀ ρ, Spec True operation s fun r s' => s'.Means ρ r (f ρ)) :
    s.Decides operation f := by
  obtain ⟨r, hr, -⟩ := (hspec fun _ => false).result
  refine ⟨r, hr, fun ρ => ?_⟩
  obtain ⟨r', hr', hd⟩ := (hspec ρ).result
  rw [hr, Except.ok.injEq] at hr'
  exact hr' ▸ hd

end TermStore

/-! ### Operands and results -/

section

variable (h : s.Ok)
include h

/-- The bits of an operand. -/
lemma bitvecBits_denotes (hd : s.Denotes ρ t v) :
    Spec True (bitvecBits t) s fun bits s' => s = s' ∧ bits ≠ [] ∧ s.Holds ρ bits v := by
  obtain ⟨bits, hb, hne, hv⟩ := hd.holds h
  refine (bitvecBits_spec h fun _ => ⟨bits, hb⟩).weaken ?_
  rintro bits' _ - - ⟨rfl, hb'⟩
  rw [hb, Option.some.injEq] at hb'
  exact ⟨rfl, hb' ▸ hne, hb' ▸ hv⟩

lemma requireSameBvWidth_denotes {operation : String} {v v' : BitVec w} (hx : s.Denotes ρ x v)
    (hy : s.Denotes ρ y v') :
    Spec True (requireSameBvWidth x y operation) s fun width s' => s = s' ∧ width = w := by
  refine .bind (bitvecWidth_spec h fun _ => ⟨w, hx.1⟩) ?_
  rintro wx _ - - ⟨rfl, hwx⟩
  refine .bind (bitvecWidth_spec h fun _ => ⟨w, hy.1⟩) ?_
  rintro wy _ - - ⟨rfl, hwy⟩
  rw [hx.1, Option.some.injEq, SmtSort.bitVec.injEq] at hwx
  rw [hy.1, Option.some.injEq, SmtSort.bitVec.injEq] at hwy
  rw [if_pos (hwx.symm.trans hwy)]
  exact .pure h ⟨rfl, hwx.symm⟩

/-- The sort of the width is in the store, or there is room for it. -/
def Room (s : TermStore) (w : ℕ) : Prop :=
  0 < w ∧ w < maxIndex ∧ ((∃ i : ℕ, s.sorts[i]? = some (.bitVec w)) ∨ s.sorts.length < maxIndex)

lemma Room.of_denotes (hd : s.Denotes ρ t v) : Room s w := by
  obtain ⟨bits, hb, hlen, -, -⟩ := bits_of_sort h hd.1
  obtain ⟨node, hn, hk⟩ := bits?_eq_some_iff.1 hb
  obtain ⟨hne, hlt, hsort⟩ := (h.nodes t node hn).word bits hk
  rw [hlen] at hsort hlt
  exact ⟨hlen ▸ List.length_pos_iff.2 hne, hlt, .inl ⟨_, hsort⟩⟩

lemma makeBitvec_denotes {bits : List TermId} (hv : s.Holds ρ bits v) (hroom : Room s w) :
    Spec True (makeBitvec bits) s fun r s' => s'.Denotes ρ r v := by
  have hlen := hv.length
  obtain ⟨hpos, hlt, hsort⟩ := hroom
  have hbool : ∀ m ∈ bits, s.IsBool m := by
    obtain ⟨xs, hr, -⟩ := hv
    exact hr.isBool
  refine (makeBitvec_spec h fun _ => ⟨?_, hbool, hlen ▸ hlt, hlen ▸ hsort⟩).weaken ?_
  · rintro rfl
    rw [List.length_nil] at hlen
    omega
  · rintro r s' he h' ⟨hb, -⟩
    exact .of_holds h' hb (hv.later ⟨h, h', he⟩)

lemma checkWidth_spec {T : Prop} {width : ℕ}
    (hT : T → 0 < width ∧ width ≤ maxBitvectorWidth) :
    Spec T (checkWidth width) s fun _ s' => s = s' ∧ 0 < width ∧ width ≤ maxBitvectorWidth := by
  rw [checkWidth]
  split
  · next hz => exact .fail h fun ht => (hT ht).1.ne' hz
  split
  · next hlt => exact .fail h fun ht => absurd (hT ht).2 (not_le.2 hlt)
  · next hz hge => exact .pure h ⟨rfl, Nat.pos_of_ne_zero hz, not_lt.1 hge⟩

omit h in
/-- A word is widened with copies of a bit. -/
lemma resize_reads {fill : TermId} {width : ℕ} (hr : s.Reads ρ terms xs)
    (hf : s.Means ρ fill b) (hle : xs.length ≤ width) :
    s.Reads ρ (resize terms width fill) (xs ++ List.replicate (width - xs.length) b) := by
  rw [resize, List.take_of_length_le (by simp [hr.length]; omega), hr.length]
  exact hr.append (.replicate hf _)

/-- The result has the sort of an operand. -/
lemma makeBitvec_same {bits : List TermId} {u : BitVec w} (hd : s.Denotes ρ t u)
    (hv : s.Holds ρ bits v) : Spec True (makeBitvec bits) s fun r s' => s'.Denotes ρ r v :=
  makeBitvec_denotes h hv (.of_denotes h hd)

/-! ### Circuits on words -/

lemma addBits_holds (hl : s.Holds ρ left v) (hr : s.Holds ρ right v') :
    Spec True (addBits left right) s fun r s' => s'.Holds ρ r.1 (v + v') ∧
      s'.Means ρ r.2 (v.uaddOverflow v') := by
  obtain ⟨xs, hxs, hlx, hvx⟩ := hl
  obtain ⟨ys, hys, hly, hvy⟩ := hr
  refine (addBits_spec h hxs hys (hlx.trans hly.symm)).weaken ?_
  rintro r s' - - ⟨zs, c, hzs, hc, hlz, hv⟩
  rw [← hlz] at hv
  have hw : zs.length = w := hlz.trans hlx
  refine ⟨⟨zs, hzs, hw, ?_⟩, ?_⟩
  · rw [value_of_carry hv, BitVec.toNat_add, hw, hvx, hvy]
  · have hlt := value_lt zs
    rw [hw] at hlt hv
    have he : c = v.uaddOverflow v' := by
      rw [BitVec.uaddOverflow, ← hvx, ← hvy, ← hv]
      cases c <;> simp [hlt]
    exact he ▸ hc

lemma negateBits_holds (hw : 0 < w) (hv : s.Holds ρ terms v) :
    Spec True (negateBits terms) s fun r s' => s'.Holds ρ r (-v) := by
  obtain ⟨xs, hxs, hlx, hvx⟩ := hv
  have hne : xs ≠ [] := List.length_pos_iff.1 (hlx ▸ hw)
  refine (negateBits_spec h hxs hne).weaken ?_
  rintro r s' - - ⟨zs, hzs, hlz, hv⟩
  exact ⟨zs, hzs, hlz.trans hlx, by rw [hv, BitVec.toNat_neg, hlx, hvx]⟩

lemma subtractBits_holds (hw : 0 < w) (hl : s.Holds ρ left v) (hr : s.Holds ρ right v') :
    Spec True (subtractBits left right) s fun r s' => s'.Holds ρ r (v - v') := by
  obtain ⟨xs, hxs, hlx, hvx⟩ := hl
  obtain ⟨ys, hys, hly, hvy⟩ := hr
  have hne : xs ≠ [] := List.length_pos_iff.1 (hlx ▸ hw)
  refine (subtractBits_spec h hxs hys (hlx.trans hly.symm) hne).weaken ?_
  rintro r s' - - ⟨zs, hzs, hlz, hv⟩
  refine ⟨zs, hzs, hlz.trans hlx, ?_⟩
  rw [hv, BitVec.toNat_sub, hlx, hvx, hvy, Nat.add_comm]

lemma multiplyBits_holds (hl : s.Holds ρ left v) (hr : s.Holds ρ right v') :
    Spec True (multiplyBits left right w) s fun r s' => s'.Holds ρ r (v * v') := by
  obtain ⟨xs, hxs, hlx, hvx⟩ := hl
  obtain ⟨ys, hys, hly, hvy⟩ := hr
  refine (multiplyBits_spec h hxs hys w).weaken ?_
  rintro r s' - - ⟨zs, hzs, hlz, hv⟩
  exact ⟨zs, hzs, hlz, by rw [hv, BitVec.toNat_mul, hvx, hvy]⟩

lemma selectBits_holds {condition : TermId} (hc : s.Means ρ condition c)
    (hl : s.Holds ρ left v) (hr : s.Holds ρ right v') :
    Spec True (selectBits condition left right) s fun r s' =>
      s'.Holds ρ r (if c then v else v') := by
  obtain ⟨xs, hxs, hlx, hvx⟩ := hl
  obtain ⟨ys, hys, hly, hvy⟩ := hr
  refine (selectBits_spec h hc hxs hys (hlx.trans hly.symm)).weaken ?_
  rintro r s' - - hr
  cases c with
  | true => exact ⟨xs, hr, hlx, hvx⟩
  | false => exact ⟨ys, hr, hly, hvy⟩

lemma isZeroBits_holds (hv : s.Holds ρ terms v) :
    Spec True (isZeroBits terms) s fun r s' => s'.Means ρ r (decide (v = 0)) := by
  obtain ⟨xs, hxs, hlx, hvx⟩ := hv
  have he : decide (v = 0) = decide (value xs = 0) := by
    rw [hvx, decide_eq_decide, ← BitVec.toNat_inj, BitVec.ofNat_eq_ofNat, BitVec.toNat_zero]
  exact he ▸ isZeroBits_spec h hxs

lemma unsignedLessThanBits_holds (hl : s.Holds ρ left v) (hr : s.Holds ρ right v') :
    Spec True (unsignedLessThanBits left right) s fun r s' => s'.Means ρ r (v.ult v') := by
  obtain ⟨xs, hxs, hlx, hvx⟩ := hl
  obtain ⟨ys, hys, hly, hvy⟩ := hr
  rw [BitVec.ult, ← hvx, ← hvy]
  exact unsignedLessThanBits_spec h hxs hys (hlx.trans hly.symm)

/-- The highest bit is the sign. -/
lemma signOf_means (hne : terms ≠ []) (hv : s.Holds ρ terms v) :
    s.Means ρ (signOf terms) v.msb := by
  obtain ⟨xs, hxs, hlx, hvx⟩ := hv
  have hlen := hxs.length
  have hpos := List.length_pos_iff.2 hne
  obtain ⟨t, ht⟩ : ∃ t, terms[terms.length - 1]? = some t :=
    ⟨_, List.getElem?_eq_getElem (Nat.sub_lt hpos Nat.one_pos)⟩
  obtain ⟨b, hb, hm⟩ := hxs.getElem? ht
  have hsign : signOf terms = t := by
    rw [signOf, List.getLastD_eq_getLast?, List.getLast?_eq_getElem?, ht, Option.getD_some]
  have hmsb : v.msb = b := by
    rw [BitVec.msb_eq_getLsbD_last, ← BitVec.testBit_toNat, ← hvx, testBit_value,
      List.getD_eq_getElem?_getD, ← hlx, ← hlen, hb, Option.getD_some]
  rw [hsign, hmsb]
  exact hm

lemma absoluteBits_holds (hne : terms ≠ []) (hv : s.Holds ρ terms v) :
    Spec True (absoluteBits terms (signOf terms)) s fun r s' =>
      s'.Holds ρ r (if v.msb then -v else v) := by
  have hw : 0 < w := hv.length ▸ List.length_pos_iff.2 hne
  refine .bind (negateBits_holds h hw hv) fun negated s₁ he₁ h₁ hn => ?_
  have hs₁ : s.Later s₁ := ⟨h, h₁, he₁⟩
  exact selectBits_holds h₁ ((signOf_means h hne hv).later hs₁) hn (hv.later hs₁)

lemma unsignedDivideBits_holds (hlimit : w * w ≤ maxQuadraticLoweringWork)
    (hl : s.Holds ρ left v) (hr : s.Holds ρ right v') :
    Spec True (unsignedDivideBits left right) s fun r s' =>
      s'.Holds ρ r.1 (v.smtUDiv v') ∧ s'.Holds ρ r.2 (v.umod v') := by
  obtain ⟨xs, hxs, hlx, hvx⟩ := hl
  obtain ⟨ys, hys, hly, hvy⟩ := hr
  refine (unsignedDivideBits_spec h hxs hys (hlx.trans hly.symm) (hlx ▸ hlimit)).weaken ?_
  rintro r s' - - ⟨qs, rs, hqs, hrs, hlq, hlr, hvr, hvq⟩
  refine ⟨⟨qs, hqs, hlq.trans hlx, ?_⟩, ⟨rs, hrs, hlr.trans hlx, ?_⟩⟩
  · rw [hvq, BitVec.smtUDiv, hvx, hvy, hlx]
    by_cases hz : v' = 0
    · rw [if_pos (by rw [hz]; rfl), if_pos hz, BitVec.toNat_allOnes]
    · have hz' : v'.toNat ≠ 0 := fun h0 => hz (BitVec.eq_of_toNat_eq h0)
      rw [if_neg hz', if_neg hz, BitVec.udiv_eq, BitVec.toNat_udiv]
  · rw [hvr, hvx, hvy]
    rfl

end

end Satrap.Smt
