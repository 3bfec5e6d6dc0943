/-
# Arithmetic, comparisons and overflow

The arithmetic operators compute modulo a power of two, and the predicates compare the numbers
that the words denote and detect the results that do not fit.
-/
import Satrap.Smt.Word
import Mathlib.Data.List.GetD

namespace Satrap.Smt

open Logic TermStore TermM Bits

variable {s : TermStore} {t x y : TermId} {ρ : SymbolId → Bool} {w : ℕ} {v v' : BitVec w}

/-! ### Operators on several words -/

section

variable (h : s.Ok)
include h

/-- The loop of an operator that takes any number of words. -/
lemma foldWords (circuit : List TermId → List TermId → TermM (List TermId))
    {op : BitVec w → BitVec w → BitVec w} {message : String}
    (hc : ∀ s' left right v v', s.Later s' → s'.Holds ρ left v → s'.Holds ρ right v' →
      Spec True (circuit left right) s' fun r s'' => s''.Holds ρ r (op v v'))
    (terms : List TermId) (hterms : ∀ t ∈ terms, s.sort? t = some (.bitVec w))
    {bits : List TermId} (hb : s.Holds ρ bits v) :
    Spec True (loop (fun result term => do
      if (← bitvecWidth term) ≠ w then fail message
      else
        let right ← bitvecBits term
        circuit result right) bits terms) s
      fun r s' => s'.Holds ρ r ((terms.map fun t => s.wordOf ρ t w).foldl op v) := by
  refine (Spec.loop (I := fun result rest s' => s.Later s' ∧
    (∀ t ∈ rest, s.sort? t = some (.bitVec w)) ∧ ∃ acc, s'.Holds ρ result acc ∧
      (rest.map fun t => s.wordOf ρ t w).foldl op acc =
        (terms.map fun t => s.wordOf ρ t w).foldl op v)
    terms bits s h ⟨⟨h, h, .refl s⟩, hterms, v, hb, rfl⟩ ?_).weaken ?_
  · rintro result term rest s₁ - h₁ ⟨hs₁, hrest, acc, hacc, hfold⟩
    have hterm : s.Denotes ρ term (s.wordOf ρ term w) := .wordOf (hrest term (by simp))
    have hterm₁ := hterm.later hs₁
    refine .bind (bitvecWidth_spec h₁ fun _ => ⟨w, hterm₁.1⟩) ?_
    rintro width _ - - ⟨rfl, hwidth⟩
    rw [hterm₁.1, Option.some.injEq, SmtSort.bitVec.injEq] at hwidth
    rw [if_neg (not_not.2 hwidth.symm)]
    refine .bind (bitvecBits_denotes h₁ hterm₁) ?_
    rintro right _ - - ⟨rfl, -, hright⟩
    refine (hc s₁ result right acc _ hs₁ hacc hright).weaken fun r s₂ he₂ h₂ hr => ?_
    exact ⟨hs₁.trans ⟨h₁, h₂, he₂⟩, fun u hu => hrest u (by simp [hu]), _, hr, hfold⟩
  · rintro r s' - - ⟨-, -, acc, hacc, hfold⟩
    exact hfold ▸ hacc

/-! ### Arithmetic operators -/

variable (hx : s.Denotes ρ x v)
include hx

lemma bvneg_spec : Spec True (bvneg x) s fun r s' => s'.Denotes ρ r (-v) := by
  refine .bind (bitvecBits_denotes h hx) ?_
  rintro bits _ - - ⟨rfl, hne, hbits⟩
  refine .bind (negateBits_holds h (hbits.length ▸ List.length_pos_iff.2 hne) hbits)
    fun negated s₁ he₁ h₁ hn => ?_
  exact makeBitvec_same h₁ (hx.later ⟨h, h₁, he₁⟩) hn

lemma bvadd_spec {terms : List TermId} (hne : terms ≠ [])
    (hterms : ∀ t ∈ terms, s.sort? t = some (.bitVec w)) :
    Spec True (bvadd (x :: terms)) s fun r s' =>
      s'.Denotes ρ r ((terms.map fun t => s.wordOf ρ t w).foldl (· + ·) v) := by
  obtain ⟨y, rest, rfl⟩ := List.exists_cons_of_ne_nil hne
  refine .bind (bitvecWidth_spec h fun _ => ⟨w, hx.1⟩) ?_
  rintro width _ - - ⟨rfl, hwidth⟩
  rw [hx.1, Option.some.injEq, SmtSort.bitVec.injEq] at hwidth
  subst hwidth
  refine .bind (bitvecBits_denotes h hx) ?_
  rintro bits _ - - ⟨rfl, -, hbits⟩
  refine .bind (foldWords h (fun l r => do pure (← addBits l r).1) ?_ (y :: rest) hterms
    hbits) fun result s₁ he₁ h₁ hr => makeBitvec_same h₁ (hx.later ⟨h, h₁, he₁⟩) hr
  intro s' left right v v' hs' hl hr
  refine .bind (addBits_holds hs'.after hl hr) ?_
  rintro ⟨sums, out⟩ s₂ - h₂ ⟨hsum, -⟩
  exact .pure h₂ hsum

lemma bvmul_spec {terms : List TermId} (hne : terms ≠ [])
    (hterms : ∀ t ∈ terms, s.sort? t = some (.bitVec w))
    (hlimit : w * w ≤ maxQuadraticLoweringWork) :
    Spec True (bvmul (x :: terms)) s fun r s' =>
      s'.Denotes ρ r ((terms.map fun t => s.wordOf ρ t w).foldl (· * ·) v) := by
  obtain ⟨y, rest, rfl⟩ := List.exists_cons_of_ne_nil hne
  refine .bind (bitvecWidth_spec h fun _ => ⟨w, hx.1⟩) ?_
  rintro width _ - - ⟨rfl, hwidth⟩
  rw [hx.1, Option.some.injEq, SmtSort.bitVec.injEq] at hwidth
  subst hwidth
  refine .bind (checkQuadratic_spec h fun _ => hlimit) ?_
  rintro _ _ - - ⟨rfl, -⟩
  refine .bind (bitvecBits_denotes h hx) ?_
  rintro bits _ - - ⟨rfl, -, hbits⟩
  refine .bind (foldWords h (fun l r => multiplyBits l r w) ?_ (y :: rest) hterms
    hbits) fun result s₁ he₁ h₁ hr => makeBitvec_same h₁ (hx.later ⟨h, h₁, he₁⟩) hr
  exact fun s' left right v v' hs' hl hr => multiplyBits_holds hs'.after hl hr

variable (hy : s.Denotes ρ y v')
include hy

lemma bvsub_spec : Spec True (bvsub x y) s fun r s' => s'.Denotes ρ r (v - v') := by
  refine .bind (requireSameBvWidth_denotes h hx hy) ?_
  rintro _ _ - - ⟨rfl, -⟩
  refine .bind (bitvecBits_denotes h hx) ?_
  rintro left _ - - ⟨rfl, hne, hl⟩
  refine .bind (bitvecBits_denotes h hy) ?_
  rintro right _ - - ⟨rfl, -, hr⟩
  refine .bind (subtractBits_holds h (hl.length ▸ List.length_pos_iff.2 hne) hl hr)
    fun difference s₁ he₁ h₁ hd => ?_
  exact makeBitvec_same h₁ (hx.later ⟨h, h₁, he₁⟩) hd

/-! ### Comparisons -/

lemma bvult_spec : Spec True (bvult x y) s fun r s' => s'.Means ρ r (v.ult v') := by
  refine .bind (requireSameBvWidth_denotes h hx hy) ?_
  rintro _ _ - - ⟨rfl, -⟩
  refine .bind (bitvecBits_denotes h hx) ?_
  rintro left _ - - ⟨rfl, -, hl⟩
  refine .bind (bitvecBits_denotes h hy) ?_
  rintro right _ - - ⟨rfl, -, hr⟩
  exact unsignedLessThanBits_holds h hl hr

lemma bvule_spec : Spec True (bvule x y) s fun r s' => s'.Means ρ r (v.ule v') := by
  refine .bind (bvult_spec h hy hx) fun less s₁ he₁ h₁ hless => ?_
  rw [BitVec.ule_eq_not_ult]
  exact mkNot_means h₁ hless

omit h hx hy in
/-- Words of different signs are compared by their signs. -/
lemma slt_eq_ite : v.slt v' = if v.msb ^^ v'.msb then v.msb else v.ult v' := by
  by_cases hm : v.msb = v'.msb
  · rw [BitVec.slt_eq_ult_of_msb_eq hm, hm, Bool.xor_self, if_neg Bool.false_ne_true]
  · rw [BitVec.slt_eq_not_ult_of_msb_neq hm, BitVec.ult_eq_msb_of_msb_neq hm,
      if_pos (by simpa using hm), ← Bool.eq_not_of_ne hm]

lemma bvslt_spec : Spec True (bvslt x y) s fun r s' => s'.Means ρ r (v.slt v') := by
  refine .bind (requireSameBvWidth_denotes h hx hy) ?_
  rintro _ _ - - ⟨rfl, -⟩
  refine .bind (bitvecBits_denotes h hx) ?_
  rintro left _ - - ⟨rfl, hne, hl⟩
  refine .bind (bitvecBits_denotes h hy) ?_
  rintro right _ - - ⟨rfl, hne', hr⟩
  have hsl := signOf_means h hne hl
  refine .bind (mkXor_means h hsl (signOf_means h hne' hr)) fun signsDiffer s₁ he₁ h₁ hd => ?_
  have hs₁ : s.Later s₁ := ⟨h, h₁, he₁⟩
  refine .bind (unsignedLessThanBits_holds h₁ (hl.later hs₁) (hr.later hs₁))
    fun unsigned s₂ he₂ h₂ hu => ?_
  have hs₂ : s₁.Later s₂ := ⟨h₁, h₂, he₂⟩
  rw [slt_eq_ite]
  exact mkIte_means h₂ (hd.later hs₂) (hsl.later (hs₁.trans hs₂)) hu

lemma bvsle_spec : Spec True (bvsle x y) s fun r s' => s'.Means ρ r (v.sle v') := by
  refine .bind (bvslt_spec h hy hx) fun less s₁ he₁ h₁ hless => ?_
  rw [BitVec.sle_eq_not_slt]
  exact mkNot_means h₁ hless

/-! ### Overflow of sums and differences -/

lemma bvuaddo_spec : Spec True (bvuaddo x y) s fun r s' => s'.Means ρ r (v.uaddOverflow v') := by
  refine .bind (requireSameBvWidth_denotes h hx hy) ?_
  rintro _ _ - - ⟨rfl, -⟩
  refine .bind (bitvecBits_denotes h hx) ?_
  rintro left _ - - ⟨rfl, -, hl⟩
  refine .bind (bitvecBits_denotes h hy) ?_
  rintro right _ - - ⟨rfl, -, hr⟩
  refine .bind (addBits_holds h hl hr) ?_
  rintro ⟨sums, carry⟩ s₁ - h₁ ⟨-, hc⟩
  exact .pure h₁ hc

lemma bvusubo_spec : Spec True (bvusubo x y) s fun r s' => s'.Means ρ r (v.usubOverflow v') :=
  bvult_spec h hx hy

lemma bvsaddo_spec : Spec True (bvsaddo x y) s fun r s' => s'.Means ρ r (v.saddOverflow v') := by
  refine .bind (requireSameBvWidth_denotes h hx hy) ?_
  rintro _ _ - - ⟨rfl, -⟩
  refine .bind (bitvecBits_denotes h hx) ?_
  rintro left _ - - ⟨rfl, hne, hl⟩
  refine .bind (bitvecBits_denotes h hy) ?_
  rintro right _ - - ⟨rfl, hne', hr⟩
  refine .bind (addBits_holds h hl hr) ?_
  rintro ⟨result, out⟩ s₁ he₁ h₁ ⟨hsum, -⟩
  have hs₁ : s.Later s₁ := ⟨h, h₁, he₁⟩
  have hsl := (signOf_means h hne hl).later hs₁
  have hsr := (signOf_means h hne' hr).later hs₁
  have hne'' : result ≠ [] := by
    rw [← List.length_pos_iff, hsum.length, ← hl.length]
    exact List.length_pos_iff.2 hne
  refine .bind (mkIff_means h₁ hsl hsr) fun sameInputs s₂ he₂ h₂ hsame => ?_
  have hs₂ : s₁.Later s₂ := ⟨h₁, h₂, he₂⟩
  refine .bind (mkXor_means h₂ (hsl.later hs₂) ((signOf_means h₁ hne'' hsum).later hs₂))
    fun changedSign s₃ he₃ h₃ hchanged => ?_
  have he : v.saddOverflow v' = ((v.msb == v'.msb) && (v.msb ^^ (v + v').msb)) := by
    rw [BitVec.saddOverflow_eq]
    cases v.msb <;> cases v'.msb <;> cases (v + v').msb <;> rfl
  rw [he]
  exact mkAnd_pair h₃ (hsame.later ⟨h₂, h₃, he₃⟩) hchanged

lemma bvssubo_spec : Spec True (bvssubo x y) s fun r s' => s'.Means ρ r (v.ssubOverflow v') := by
  refine .bind (requireSameBvWidth_denotes h hx hy) ?_
  rintro _ _ - - ⟨rfl, -⟩
  refine .bind (bitvecBits_denotes h hx) ?_
  rintro left _ - - ⟨rfl, hne, hl⟩
  refine .bind (bitvecBits_denotes h hy) ?_
  rintro right _ - - ⟨rfl, hne', hr⟩
  have hw : 0 < w := hl.length ▸ List.length_pos_iff.2 hne
  refine .bind (subtractBits_holds h hw hl hr) fun result s₁ he₁ h₁ hsub => ?_
  have hs₁ : s.Later s₁ := ⟨h, h₁, he₁⟩
  have hsl := (signOf_means h hne hl).later hs₁
  have hsr := (signOf_means h hne' hr).later hs₁
  have hne'' : result ≠ [] := by
    rw [← List.length_pos_iff, hsub.length]
    exact hw
  refine .bind (mkXor_means h₁ hsl hsr) fun differentInputs s₂ he₂ h₂ hdiff => ?_
  have hs₂ : s₁.Later s₂ := ⟨h₁, h₂, he₂⟩
  refine .bind (mkXor_means h₂ (hsl.later hs₂) ((signOf_means h₁ hne'' hsub).later hs₂))
    fun changedSign s₃ he₃ h₃ hchanged => ?_
  have he : v.ssubOverflow v' = ((v.msb ^^ v'.msb) && (v.msb ^^ (v - v').msb)) := by
    rw [BitVec.ssubOverflow_eq]
    cases v.msb <;> cases v'.msb <;> cases (v - v').msb <;> rfl
  rw [he]
  exact mkAnd_pair h₃ (hdiff.later ⟨h₂, h₃, he₃⟩) hchanged

/-! ### The minimum -/

omit hy in
lemma bvnego_spec : Spec True (bvnego x) s fun r s' => s'.Means ρ r v.negOverflow := by
  refine .bind (bitvecBits_denotes h hx) ?_
  rintro bits _ - - ⟨rfl, hne, hb⟩
  have hsign := signOf_means h hne hb
  obtain ⟨xs, hxs, hlx, hvx⟩ := hb
  have hw : 0 < w := by
    rw [← hlx, ← hxs.length]
    exact List.length_pos_iff.2 hne
  refine .bind (isZeroBits_spec h hxs.dropLast) fun lowZero s₁ he₁ h₁ hlow => ?_
  have he : v.negOverflow = (v.msb && decide (value xs.dropLast = 0)) := by
    have hlow : value xs.dropLast = v.toNat % 2 ^ (w - 1) := by
      rw [List.dropLast_eq_take, value_take, hvx, hlx]
    have hlt := v.isLt
    obtain ⟨n, rfl⟩ := Nat.exists_eq_succ_of_ne_zero hw.ne'
    rw [BitVec.negOverflow_eq, decide_eq_true hw, Bool.true_and, BitVec.msb_eq_decide, hlow,
      Bool.eq_iff_iff, beq_iff_eq, ← BitVec.toNat_inj, BitVec.toNat_intMin, Bool.and_eq_true,
      decide_eq_true_eq, decide_eq_true_eq]
    rw [pow_succ] at hlt ⊢
    have hpos : 0 < 2 ^ n := by positivity
    have hmod : 2 ^ n % (2 ^ n * 2) = 2 ^ n := Nat.mod_eq_of_lt (by omega)
    rw [Nat.succ_sub_one, hmod]
    constructor
    · intro heq
      rw [heq]
      exact ⟨le_refl _, Nat.mod_self _⟩
    · rintro ⟨hge, hmod0⟩
      obtain ⟨k, hk⟩ := Nat.dvd_of_mod_eq_zero hmod0
      rw [hk] at hlt hge ⊢
      have hk2 : k < 2 := Nat.lt_of_mul_lt_mul_left hlt
      have hk1 : 0 < k := by
        rcases Nat.eq_zero_or_pos k with rfl | hpos'
        · omega
        · exact hpos'
      obtain rfl : k = 1 := by omega
      omega
  rw [he]
  exact mkAnd_pair h₁ (hsign.later ⟨h, h₁, he₁⟩) hlow

lemma bvsdivo_spec : Spec True (bvsdivo x y) s fun r s' => s'.Means ρ r (v.sdivOverflow v') := by
  refine .bind (requireSameBvWidth_denotes h hx hy) ?_
  rintro _ _ - - ⟨rfl, -⟩
  refine .bind (bvnego_spec h hx) fun minimum s₁ he₁ h₁ hmin => ?_
  have hs₁ : s.Later s₁ := ⟨h, h₁, he₁⟩
  refine .bind (bitvecBits_denotes h₁ (hy.later hs₁)) ?_
  rintro right _ - - ⟨rfl, hne, hr⟩
  have hw : 0 < w := hr.length ▸ List.length_pos_iff.2 hne
  obtain ⟨ys, hys, hly, hvy⟩ := hr.bits
  have hones : Spec True (collect (fun bit => mkIff bit (boolConstant true)) right) s₁
      fun r s' => s'.Reads ρ r ys := by
    rw [← hys.eq_map]
    refine collect_reads h₁ right fun bit hbit s' hl => ?_
    have hm : s'.Means ρ bit (s₁.evaluate ρ bit) := .later (.of_isBool (hys.isBool bit hbit)) hl
    simpa using mkIff_means hl.after hm (.constant hl.after true)
  refine .bind hones fun allOnes s₂ he₂ h₂ hall => ?_
  have hs₂ : s₁.Later s₂ := ⟨h₁, h₂, he₂⟩
  refine .bind (mkAnd_means h₂ hall) fun negativeOne s₃ he₃ h₃ hneg => ?_
  have he : v.sdivOverflow v' = (v.negOverflow && ys.all id) := by
    rw [BitVec.sdivOverflow_eq, BitVec.negOverflow_eq, Bool.eq_iff_iff]
    simp only [Bool.and_eq_true, decide_eq_true_eq, beq_iff_eq, List.all_eq_true, id_eq]
    refine and_congr Iff.rfl ⟨?_, fun hall => ?_⟩
    · rintro rfl b hb
      obtain ⟨i, hi, rfl⟩ := List.getElem_of_mem hb
      have := hvy i
      rw [BitVec.getLsbD_allOnes, decide_eq_true (hly ▸ hi), List.getD_eq_getElem?_getD,
        List.getElem?_eq_getElem hi, Option.getD_some] at this
      exact this
    · refine BitVec.eq_of_getLsbD_eq fun i hi => ?_
      have hi' : i < ys.length := hly.symm ▸ hi
      rw [BitVec.getLsbD_allOnes, decide_eq_true hi, ← hvy i, List.getD_eq_getElem?_getD,
        List.getElem?_eq_getElem hi', Option.getD_some]
      exact hall _ (List.getElem_mem hi')
  rw [he]
  exact mkAnd_pair h₃ (hmin.later (hs₂.trans ⟨h₂, h₃, he₃⟩)) hneg

/-! ### Overflow of products -/

section

variable (hlimit : w * w ≤ maxQuadraticLoweringWork)
include hlimit

omit h hx hy in
/-- Twice a width within the work limit is allowed. -/
lemma double_width_le : w * 2 ≤ maxBitvectorWidth ∧ w * 2 < maxIndex := by
  have hle : w ≤ 4000 := by
    by_contra hgt
    have hmul := Nat.mul_le_mul (not_le.1 hgt) (not_le.1 hgt)
    rw [maxQuadraticLoweringWork] at hlimit
    omega
  rw [maxBitvectorWidth, maxIndex]
  omega

lemma bvumulo_spec : Spec True (bvumulo x y) s fun r s' => s'.Means ρ r (v.umulOverflow v') := by
  obtain ⟨hmax, hindex⟩ := double_width_le hlimit
  refine .bind (requireSameBvWidth_denotes h hx hy) ?_
  rintro width _ - - ⟨rfl, rfl⟩
  refine .bind (checkQuadratic_spec h fun _ => hlimit) ?_
  rintro _ _ - - ⟨rfl, -⟩
  refine .bind (checkIndex_spec h fun _ => hindex) ?_
  rintro _ _ - - ⟨rfl, -⟩
  refine .bind (checkWidth_spec h fun _ => ⟨Nat.mul_pos (Room.of_denotes h hx).1 Nat.two_pos, hmax⟩) ?_
  rintro _ _ - - ⟨rfl, -⟩
  refine .bind (bitvecBits_denotes h hx) ?_
  rintro left _ - - ⟨rfl, hne, hl⟩
  refine .bind (bitvecBits_denotes h hy) ?_
  rintro right _ - - ⟨rfl, -, hr⟩
  obtain ⟨xs, hxs, hlx, hvx⟩ := hl
  obtain ⟨ys, hys, hly, hvy⟩ := hr
  refine .bind (multiplyBits_spec h (resize_reads hxs (.constant h false) (by omega))
    (resize_reads hys (.constant h false) (by omega)) (width * 2)) ?_
  rintro product s₁ he₁ h₁ ⟨zs, hzs, hlz, hvz⟩
  rw [value_append, value_append, value_replicate_false, value_replicate_false, Nat.mul_zero,
    Nat.mul_zero, Nat.add_zero, Nat.add_zero, hvx, hvy,
    Nat.mod_eq_of_lt BitVec.toNat_mul_toNat_lt] at hvz
  refine .bind (isZeroBits_spec h₁ (hzs.drop width)) fun isZero s₂ he₂ h₂ hzero => ?_
  have he : v.umulOverflow v' = !decide (value (zs.drop width) = 0) := by
    rw [BitVec.umulOverflow, value_drop, hvz, ← decide_not, decide_eq_decide,
      Nat.div_eq_zero_iff, not_or, not_lt]
    exact ⟨fun hge => ⟨by positivity, hge⟩, And.right⟩
  rw [he]
  exact mkNot_means h₂ hzero

omit h hx hy hlimit in
/-- A word widened with copies of its sign. -/
lemma holds_signExtend {terms : List TermId} (hne : terms ≠ []) (hv : s.Holds ρ terms v)
    (h : s.Ok) {width : ℕ} (hle : w ≤ width) :
    s.Holds ρ (resize terms width (signOf terms)) (v.signExtend width) := by
  have hsign := signOf_means h hne hv
  obtain ⟨xs, hxs, hlx, hbits⟩ := hv.bits
  refine .of_bits (resize_reads hxs hsign (hlx.trans_le hle)) (by simp; omega) fun i hi => ?_
  rw [BitVec.getLsbD_signExtend, decide_eq_true hi, Bool.true_and]
  split
  · next hlt =>
    rw [← hbits, List.getD_append _ _ _ _ (hlx ▸ hlt)]
  · next hge =>
    rw [List.getD_append_right _ _ _ _ (by omega), List.getD_replicate]
    omega

lemma bvsmulo_spec : Spec True (bvsmulo x y) s fun r s' => s'.Means ρ r (v.smulOverflow v') := by
  obtain ⟨hmax, hindex⟩ := double_width_le hlimit
  refine .bind (requireSameBvWidth_denotes h hx hy) ?_
  rintro width _ - - ⟨rfl, rfl⟩
  refine .bind (checkQuadratic_spec h fun _ => hlimit) ?_
  rintro _ _ - - ⟨rfl, -⟩
  refine .bind (checkIndex_spec h fun _ => hindex) ?_
  rintro _ _ - - ⟨rfl, -⟩
  have hw := (Room.of_denotes h hx).1
  refine .bind (checkWidth_spec h fun _ => ⟨Nat.mul_pos hw Nat.two_pos, hmax⟩) ?_
  rintro _ _ - - ⟨rfl, -⟩
  refine .bind (bitvecBits_denotes h hx) ?_
  rintro left _ - - ⟨rfl, hne, hl⟩
  refine .bind (bitvecBits_denotes h hy) ?_
  rintro right _ - - ⟨rfl, hne', hr⟩
  refine .bind (multiplyBits_holds h (holds_signExtend hne hl h (by omega))
    (holds_signExtend hne' hr h (by omega))) fun product s₁ he₁ h₁ hproduct => ?_
  set p := v.signExtend (width * 2) * v'.signExtend (width * 2) with hp
  obtain ⟨zs, hzs, hlz, hbits⟩ := hproduct.bits
  have hsign : s₁.Means ρ (product.getD (width - 1) falseTerm) (p.getLsbD (width - 1)) := by
    rw [← hbits]
    exact hzs.getD (.constant h₁ false) _
  have hmatch : Spec True (collect (fun bit => mkIff bit (product.getD (width - 1) falseTerm))
      (product.drop width)) s₁ fun r s' =>
        s'.Reads ρ r ((zs.drop width).map fun b => b == p.getLsbD (width - 1)) := by
    have hdrop := hzs.drop width
    rw [← hdrop.eq_map, List.map_map]
    refine collect_reads h₁ _ fun bit hbit s' hl => ?_
    exact mkIff_means hl.after (.later (.of_isBool (hdrop.isBool bit hbit)) hl) (hsign.later hl)
  refine .bind hmatch fun highMatches s₂ he₂ h₂ hhigh => ?_
  refine .bind (mkAnd_means h₂ hhigh) fun all s₃ he₃ h₃ hall => ?_
  have hiff : (((zs.drop width).map fun b => b == p.getLsbD (width - 1)).all id = true) ↔
      ∀ i, width ≤ i → i < width * 2 → p.getLsbD i = p.getLsbD (width - 1) := by
    simp only [List.all_map, List.all_eq_true, Function.comp_apply, id_eq, beq_iff_eq]
    constructor
    · intro hmem i hi hlt
      have hi' : i < zs.length := hlz.symm ▸ hlt
      rw [← hbits i, List.getD_eq_getElem?_getD, List.getElem?_eq_getElem hi', Option.getD_some]
      refine hmem _ (List.mem_iff_getElem?.2 ⟨i - width, ?_⟩)
      rw [List.getElem?_drop, Nat.add_sub_cancel' hi, List.getElem?_eq_getElem hi']
    · intro heq b hb
      obtain ⟨j, hj⟩ := List.mem_iff_getElem?.1 hb
      rw [List.getElem?_drop] at hj
      have hlt := (List.getElem?_eq_some_iff.1 hj).1
      rw [← heq (width + j) (by omega) (by omega), ← hbits, List.getD_eq_getElem?_getD, hj,
        Option.getD_some]
  have he : v.smulOverflow v' =
      !((zs.drop width).map fun b => b == p.getLsbD (width - 1)).all id := by
    rw [Bool.eq_iff_iff, Bool.not_eq_true', ← Bool.not_eq_true, hiff,
      high_bits_iff p hw (by omega), hp, toInt_signExtend_mul v v' hw, BitVec.smulOverflow]
    simp only [Bool.or_eq_true, decide_eq_true_eq, not_and_or, not_le, not_lt, ge_iff_le]
    exact or_comm
  rw [he]
  exact mkNot_means h₃ hall

end

end

end Satrap.Smt
