/-
# Division

The division operators return the words that SMT-LIB prescribes, for zero divisors and for all
signs of the operands.
-/
import Satrap.Smt.Word

namespace Satrap.Smt

open Logic TermStore TermM Bits

variable {s : TermStore} {x y : TermId} {ρ : SymbolId → Bool} {w : ℕ} {v v' : BitVec w}

/-! ### Unsigned division -/

section

variable (h : s.Ok) (hx : s.Denotes ρ x v) (hy : s.Denotes ρ y v')
  (hlimit : w * w ≤ maxQuadraticLoweringWork)
include h hx hy hlimit

lemma bvudiv_spec : Spec True (bvudiv x y) s fun r s' => s'.Denotes ρ r (v.smtUDiv v') := by
  refine .bind (requireSameBvWidth_denotes h hx hy) ?_
  rintro _ _ - - ⟨rfl, -⟩
  refine .bind (bitvecBits_denotes h hx) ?_
  rintro dividend _ - - ⟨rfl, -, hdividend⟩
  refine .bind (bitvecBits_denotes h hy) ?_
  rintro divisor _ - - ⟨rfl, -, hdivisor⟩
  refine .bind (unsignedDivideBits_holds h hlimit hdividend hdivisor) ?_
  rintro ⟨quotient, remainder⟩ s₁ he₁ h₁ ⟨hq, -⟩
  exact makeBitvec_same h₁ (hx.later ⟨h, h₁, he₁⟩) hq

lemma bvurem_spec : Spec True (bvurem x y) s fun r s' => s'.Denotes ρ r (v.umod v') := by
  refine .bind (requireSameBvWidth_denotes h hx hy) ?_
  rintro _ _ - - ⟨rfl, -⟩
  refine .bind (bitvecBits_denotes h hx) ?_
  rintro dividend _ - - ⟨rfl, -, hdividend⟩
  refine .bind (bitvecBits_denotes h hy) ?_
  rintro divisor _ - - ⟨rfl, -, hdivisor⟩
  refine .bind (unsignedDivideBits_holds h hlimit hdividend hdivisor) ?_
  rintro ⟨quotient, remainder⟩ s₁ he₁ h₁ ⟨-, hr⟩
  exact makeBitvec_same h₁ (hx.later ⟨h, h₁, he₁⟩) hr

/-! ### Signed division -/

omit hx hy in
/-- The signed operators divide the absolute values. -/
lemma divideAbsolute {dividend divisor : List TermId} (hne : dividend ≠ []) (hne' : divisor ≠ [])
    (hdividend : s.Holds ρ dividend v) (hdivisor : s.Holds ρ divisor v')
    {f : List TermId × List TermId → TermM TermId} {z : BitVec w}
    (hf : ∀ r s', s.Later s' →
      s'.Holds ρ r.1 ((if v.msb then -v else v).smtUDiv (if v'.msb then -v' else v')) →
      s'.Holds ρ r.2 ((if v.msb then -v else v).umod (if v'.msb then -v' else v')) →
      Spec True (f r) s' fun t s'' => s''.Denotes ρ t z) :
    Spec True (do
      let absDividend ← absoluteBits dividend (signOf dividend)
      let absDivisor ← absoluteBits divisor (signOf divisor)
      let r ← unsignedDivideBits absDividend absDivisor
      f r) s fun t s' => s'.Denotes ρ t z := by
  refine .bind (absoluteBits_holds h hne hdividend) fun absDividend s₁ he₁ h₁ ha => ?_
  have hs₁ : s.Later s₁ := ⟨h, h₁, he₁⟩
  refine .bind (absoluteBits_holds h₁ hne' (hdivisor.later hs₁)) fun absDivisor s₂ he₂ h₂ hb => ?_
  have hs₂ : s₁.Later s₂ := ⟨h₁, h₂, he₂⟩
  refine .bind (unsignedDivideBits_holds h₂ hlimit (ha.later hs₂) hb) ?_
  rintro r s₃ he₃ h₃ ⟨hq, hr⟩
  exact hf r s₃ (hs₁.trans (hs₂.trans ⟨h₂, h₃, he₃⟩)) hq hr

lemma bvsdiv_spec : Spec True (bvsdiv x y) s fun r s' => s'.Denotes ρ r (v.smtSDiv v') := by
  refine .bind (requireSameBvWidth_denotes h hx hy) ?_
  rintro _ _ - - ⟨rfl, -⟩
  refine .bind (bitvecBits_denotes h hx) ?_
  rintro dividend _ - - ⟨rfl, hne, hdividend⟩
  refine .bind (bitvecBits_denotes h hy) ?_
  rintro divisor _ - - ⟨rfl, hne', hdivisor⟩
  refine divideAbsolute h hlimit hne hne' hdividend hdivisor ?_
  rintro ⟨quotient, remainder⟩ s₁ hs₁ hq -
  have hw : 0 < w := hdividend.length ▸ List.length_pos_iff.2 hne
  refine .bind (mkXor_means hs₁.after ((signOf_means h hne hdividend).later hs₁)
    ((signOf_means h hne' hdivisor).later hs₁)) fun negative s₂ he₂ h₂ hneg => ?_
  have hs₂ : s₁.Later s₂ := ⟨hs₁.after, h₂, he₂⟩
  refine .bind (negateBits_holds h₂ hw (hq.later hs₂)) fun negated s₃ he₃ h₃ hnegated => ?_
  have hs₃ : s₂.Later s₃ := ⟨h₂, h₃, he₃⟩
  refine .bind (selectBits_holds h₃ (hneg.later hs₃) hnegated (hq.later (hs₂.trans hs₃)))
    fun result s₄ he₄ h₄ hresult => ?_
  have hs₄ := hs₁.trans (hs₂.trans (hs₃.trans ⟨h₃, h₄, he₄⟩))
  rw [BitVec.smtSDiv_eq]
  refine makeBitvec_same h₄ (hx.later hs₄) ?_
  convert hresult using 1
  cases v.msb <;> cases v'.msb <;> rfl

lemma bvsrem_spec : Spec True (bvsrem x y) s fun r s' => s'.Denotes ρ r (v.srem v') := by
  refine .bind (requireSameBvWidth_denotes h hx hy) ?_
  rintro _ _ - - ⟨rfl, -⟩
  refine .bind (bitvecBits_denotes h hx) ?_
  rintro dividend _ - - ⟨rfl, hne, hdividend⟩
  refine .bind (bitvecBits_denotes h hy) ?_
  rintro divisor _ - - ⟨rfl, hne', hdivisor⟩
  refine divideAbsolute h hlimit hne hne' hdividend hdivisor ?_
  rintro ⟨quotient, remainder⟩ s₁ hs₁ - hr
  have hw : 0 < w := hdividend.length ▸ List.length_pos_iff.2 hne
  refine .bind (negateBits_holds hs₁.after hw hr) fun negated s₂ he₂ h₂ hnegated => ?_
  have hs₂ : s₁.Later s₂ := ⟨hs₁.after, h₂, he₂⟩
  refine .bind (selectBits_holds h₂ ((signOf_means h hne hdividend).later (hs₁.trans hs₂)) hnegated
    (hr.later hs₂)) fun result s₃ he₃ h₃ hresult => ?_
  rw [BitVec.srem_eq]
  refine makeBitvec_same h₃ (hx.later (hs₁.trans (hs₂.trans ⟨h₂, h₃, he₃⟩))) ?_
  convert hresult using 1
  cases v.msb <;> cases v'.msb <;> rfl

omit h hx hy hlimit in
/-- The choice between the four combinations of signs. -/
lemma smod_eq_select : v.smod v' =
    if ((if v.msb then -v else v).umod (if v'.msb then -v' else v')) = 0 then
      (if v.msb then -v else v).umod (if v'.msb then -v' else v')
    else if !v.msb && !v'.msb then (if v.msb then -v else v).umod (if v'.msb then -v' else v')
    else if v.msb && !v'.msb then
      -(if v.msb then -v else v).umod (if v'.msb then -v' else v') + v'
    else if !v.msb && v'.msb then
      (if v.msb then -v else v).umod (if v'.msb then -v' else v') + v'
    else -(if v.msb then -v else v).umod (if v'.msb then -v' else v') := by
  rw [BitVec.smod_eq]
  cases v.msb <;> cases v'.msb <;> simp [BitVec.sub_eq_add_neg, BitVec.add_comm]
  intro hz
  rw [hz, BitVec.neg_zero]

lemma bvsmod_spec : Spec True (bvsmod x y) s fun r s' => s'.Denotes ρ r (v.smod v') := by
  refine .bind (requireSameBvWidth_denotes h hx hy) ?_
  rintro _ _ - - ⟨rfl, -⟩
  refine .bind (bitvecBits_denotes h hx) ?_
  rintro dividend _ - - ⟨rfl, hne, hdividend⟩
  refine .bind (bitvecBits_denotes h hy) ?_
  rintro divisor _ - - ⟨rfl, hne', hdivisor⟩
  refine divideAbsolute h hlimit hne hne' hdividend hdivisor ?_
  rintro ⟨quotient, remainder⟩ s₁ hs₁ - hr
  have hw : 0 < w := hdividend.length ▸ List.length_pos_iff.2 hne
  have hsx := (signOf_means h hne hdividend).later hs₁
  have hsy := (signOf_means h hne' hdivisor).later hs₁
  replace hdivisor := hdivisor.later hs₁
  replace hx := hx.later hs₁
  rw [smod_eq_select]
  generalize ((if v.msb then -v else v).umod (if v'.msb then -v' else v')) = u at hr ⊢
  -- the two candidates
  refine .bind (isZeroBits_holds hs₁.after hr) fun isZero s₂ he₂ h₂ hzero => ?_
  have hs₂ : s₁.Later s₂ := ⟨hs₁.after, h₂, he₂⟩
  replace hr := hr.later hs₂
  refine .bind (negateBits_holds h₂ hw hr) fun negated s₃ he₃ h₃ hneg => ?_
  have hs₃ : s₂.Later s₃ := ⟨h₂, h₃, he₃⟩
  replace hr := hr.later hs₃
  replace hdivisor := hdivisor.later (hs₂.trans hs₃)
  refine .bind (addBits_holds h₃ hneg hdivisor) ?_
  rintro ⟨negativePositive, out⟩ s₄ he₄ h₄ ⟨hnp, -⟩
  have hs₄ : s₃.Later s₄ := ⟨h₃, h₄, he₄⟩
  replace hr := hr.later hs₄
  refine .bind (addBits_holds h₄ hr (hdivisor.later hs₄)) ?_
  rintro ⟨positiveNegative, out'⟩ s₅ he₅ h₅ ⟨hpn, -⟩
  have hs₅ : s₄.Later s₅ := ⟨h₄, h₅, he₅⟩
  replace hr := hr.later hs₅
  replace hnp := hnp.later hs₅
  replace hneg := hneg.later (hs₄.trans hs₅)
  have hs₁₅ := hs₂.trans (hs₃.trans (hs₄.trans hs₅))
  replace hsx := hsx.later hs₁₅
  replace hsy := hsy.later hs₁₅
  replace hzero := hzero.later (hs₃.trans (hs₄.trans hs₅))
  -- the combinations of signs
  refine .bind (mkNot_means h₅ hsx) fun notX s₆ he₆ h₆ hnx => ?_
  have hs₆ : s₅.Later s₆ := ⟨h₅, h₆, he₆⟩
  refine .bind (mkNot_means h₆ (hsy.later hs₆)) fun notY s₇ he₇ h₇ hny => ?_
  have hs₇ : s₆.Later s₇ := ⟨h₆, h₇, he₇⟩
  replace hnx := hnx.later hs₇
  refine .bind (mkAnd_pair h₇ hnx hny) fun bothPositive s₈ he₈ h₈ hboth => ?_
  have hs₈ : s₇.Later s₈ := ⟨h₇, h₈, he₈⟩
  have hs₅₈ := hs₆.trans (hs₇.trans hs₈)
  refine .bind (mkAnd_pair h₈ (hsx.later hs₅₈) (hny.later hs₈))
    fun dividendNegative s₉ he₉ h₉ hdn => ?_
  have hs₉ : s₈.Later s₉ := ⟨h₈, h₉, he₉⟩
  refine .bind (mkAnd_pair h₉ (hnx.later (hs₈.trans hs₉)) (hsy.later (hs₅₈.trans hs₉)))
    fun dividendPositive s₁₀ he₁₀ h₁₀ hdp => ?_
  have hs₁₀ : s₉.Later s₁₀ := ⟨h₉, h₁₀, he₁₀⟩
  have hs₅₁₀ := hs₅₈.trans (hs₉.trans hs₁₀)
  -- the selection
  refine .bind (selectBits_holds h₁₀ hdp (hpn.later hs₅₁₀) (hneg.later hs₅₁₀))
    fun result₁ s₁₁ he₁₁ h₁₁ hres₁ => ?_
  have hs₁₁ : s₁₀.Later s₁₁ := ⟨h₁₀, h₁₁, he₁₁⟩
  refine .bind (selectBits_holds h₁₁ (hdn.later (hs₁₀.trans hs₁₁))
    (hnp.later (hs₅₁₀.trans hs₁₁)) hres₁) fun result₂ s₁₂ he₁₂ h₁₂ hres₂ => ?_
  have hs₁₂ : s₁₁.Later s₁₂ := ⟨h₁₁, h₁₂, he₁₂⟩
  have hs₅₁₂ := hs₅₁₀.trans (hs₁₁.trans hs₁₂)
  refine .bind (selectBits_holds h₁₂ (hboth.later (hs₉.trans (hs₁₀.trans (hs₁₁.trans hs₁₂))))
    (hr.later hs₅₁₂) hres₂) fun result₃ s₁₃ he₁₃ h₁₃ hres₃ => ?_
  have hs₁₃ : s₁₂.Later s₁₃ := ⟨h₁₂, h₁₃, he₁₃⟩
  have hs₅₁₃ := hs₅₁₂.trans hs₁₃
  refine .bind (selectBits_holds h₁₃ (hzero.later hs₅₁₃) (hr.later hs₅₁₃) hres₃)
    fun result₄ s₁₄ he₁₄ h₁₄ hres₄ => ?_
  refine makeBitvec_same h₁₄ (hx.later (hs₁₅.trans (hs₅₁₃.trans ⟨h₁₃, h₁₄, he₁₄⟩))) ?_
  simpa only [decide_eq_true_eq] using hres₄

end

end Satrap.Smt
