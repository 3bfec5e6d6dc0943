/-
# Circuits

What the circuits of `bitvec.rs` compute, over the numbers that lists of Boolean terms denote
under an assignment: the ripple adder, the shift-and-add multiplier, the comparison from the most
significant bit and restoring division.
-/
import Satrap.Logic.Bits
import Satrap.Smt.Evaluation

namespace Satrap.Smt

open Logic TermStore TermM Bits

variable {s s' : TermStore} {t u carry : TermId} {ρ : SymbolId → Bool} {a b c : Bool}
  {left right terms : List TermId} {xs ys : List Bool}

/-! ### Lists of terms -/

namespace TermStore

lemma Means.later (h : s.Means ρ t b) (hl : s.Later s') : s'.Means ρ t b :=
  h.mono hl.before hl.after hl.grown

/-- The terms have the values. -/
def Reads (s : TermStore) (ρ : SymbolId → Bool) (terms : List TermId) (bits : List Bool) : Prop :=
  List.Forall₂ (s.Means ρ) terms bits

namespace Reads

lemma nil : s.Reads ρ [] [] := List.Forall₂.nil

lemma cons (h : s.Means ρ t b) (hs : s.Reads ρ terms xs) : s.Reads ρ (t :: terms) (b :: xs) :=
  List.Forall₂.cons h hs

lemma uncons {x : Bool} (h : s.Reads ρ terms (x :: xs)) :
    ∃ t rest, terms = t :: rest ∧ s.Means ρ t x ∧ s.Reads ρ rest xs := by
  obtain _ | ⟨hm, hs⟩ := h
  exact ⟨_, _, rfl, hm, hs⟩

lemma later (h : s.Reads ρ terms xs) (hl : s.Later s') : s'.Reads ρ terms xs :=
  List.Forall₂.imp (fun _ _ hm => hm.later hl) h

lemma length (h : s.Reads ρ terms xs) : terms.length = xs.length := List.Forall₂.length_eq h

lemma append (h : s.Reads ρ left xs) (h' : s.Reads ρ right ys) :
    s.Reads ρ (left ++ right) (xs ++ ys) := List.rel_append h h'

lemma take (h : s.Reads ρ terms xs) (n : ℕ) : s.Reads ρ (terms.take n) (xs.take n) :=
  List.forall₂_take n h

lemma drop (h : s.Reads ρ terms xs) (n : ℕ) : s.Reads ρ (terms.drop n) (xs.drop n) :=
  List.forall₂_drop n h

lemma dropLast (h : s.Reads ρ terms xs) : s.Reads ρ terms.dropLast xs.dropLast := by
  rw [List.dropLast_eq_take, List.dropLast_eq_take, ← h.length]
  exact h.take _

lemma reverse (h : s.Reads ρ terms xs) : s.Reads ρ terms.reverse xs.reverse :=
  List.rel_reverse h

lemma replicate (h : s.Means ρ t b) (n : ℕ) :
    s.Reads ρ (List.replicate n t) (List.replicate n b) := by
  induction n with
  | zero => exact .nil
  | succ n ih => exact .cons h ih

lemma getD (h : s.Reads ρ terms xs) (ht : s.Means ρ t b) (i : ℕ) :
    s.Means ρ (terms.getD i t) (xs.getD i b) := by
  induction h generalizing i with
  | nil => exact ht
  | cons hm _ ih =>
    cases i with
    | zero => exact hm
    | succ i => exact ih i

lemma getElem? (h : s.Reads ρ terms xs) {i : ℕ} (ht : terms[i]? = some t) :
    ∃ x, xs[i]? = some x ∧ s.Means ρ t x := by
  induction h generalizing i with
  | nil => cases ht
  | cons hm _ ih =>
    cases i with
    | zero =>
      cases ht
      exact ⟨_, rfl, hm⟩
    | succ i => exact ih (by simpa using ht)

lemma set (h : s.Reads ρ terms xs) (ht : s.Means ρ t b) (i : ℕ) :
    s.Reads ρ (terms.set i t) (xs.set i b) := by
  induction h generalizing i with
  | nil => exact .nil
  | cons hm hs ih =>
    cases i with
    | zero => exact .cons ht hs
    | succ i => exact .cons hm (ih i)

lemma isBool (h : s.Reads ρ terms xs) : ∀ t ∈ terms, s.IsBool t := by
  induction h with
  | nil => simp
  | cons hm _ ih => simpa using ⟨hm.1, ih⟩

lemma eq_map (h : s.Reads ρ terms xs) : terms.map (s.evaluate ρ) = xs := by
  induction h with
  | nil => rfl
  | cons hm _ ih => rw [List.map_cons, ih, hm.eq]

lemma of_isBool (h : ∀ t ∈ terms, s.IsBool t) : s.Reads ρ terms (terms.map (s.evaluate ρ)) := by
  induction terms with
  | nil => exact .nil
  | cons t terms ih => exact .cons (.of_isBool (h t (by simp))) (ih fun u hu => h u (by simp [hu]))

end Reads

end TermStore

/-! ### Connectives of terms with known values -/

section

variable (h : s.Ok)
include h

lemma mkNot_means (ht : s.Means ρ t b) :
    Spec True (mkNot t) s fun r s' => s'.Means ρ r (!b) :=
  ht.eq ▸ mkNot_spec h fun _ => ht.1

lemma mkAnd_means (ht : s.Reads ρ terms xs) :
    Spec True (mkAnd terms) s fun r s' => s'.Means ρ r (xs.all id) := by
  refine (mkAnd_spec (ρ := ρ) h fun _ => ht.isBool).weaken ?_
  rintro r s' - - hr
  rwa [← ht.eq_map, List.all_map]

lemma mkAnd_pair (ht : s.Means ρ t a) (hu : s.Means ρ u b) :
    Spec True (mkAnd [t, u]) s fun r s' => s'.Means ρ r (a && b) := by
  refine (mkAnd_means h (.cons ht (.cons hu .nil))).weaken ?_
  rintro r s' - - hr
  simpa using hr

lemma mkOr_pair (ht : s.Means ρ t a) (hu : s.Means ρ u b) :
    Spec True (mkOr [t, u]) s fun r s' => s'.Means ρ r (a || b) := by
  have hb : ∀ m ∈ [t, u], s.IsBool m := by simpa using ⟨ht.1, hu.1⟩
  refine (mkOr_spec (ρ := ρ) h fun _ => hb).weaken ?_
  rintro r s' - - hr
  simpa [ht.eq, hu.eq] using hr

lemma mkXor_means (ht : s.Means ρ t a) (hu : s.Means ρ u b) :
    Spec True (mkXor t u) s fun r s' => s'.Means ρ r (a ^^ b) :=
  ht.eq ▸ hu.eq ▸ mkXor_spec h (fun _ => ht.1) fun _ => hu.1

lemma mkIff_means (ht : s.Means ρ t a) (hu : s.Means ρ u b) :
    Spec True (mkIff t u) s fun r s' => s'.Means ρ r (a == b) :=
  ht.eq ▸ hu.eq ▸ mkIff_spec h (fun _ => ht.1) fun _ => hu.1

lemma mkIte_means {cond : TermId} (hc : s.Means ρ cond c) (ht : s.Means ρ t a)
    (hu : s.Means ρ u b) :
    Spec True (mkIte cond t u) s fun r s' => s'.Means ρ r (if c then a else b) :=
  hc.eq ▸ ht.eq ▸ hu.eq ▸ mkIte_spec h hc.1 ht.1 hu.1

/-- Bit by bit. -/
lemma collect_reads {α : Type} {f : α → TermM TermId} {g : α → Bool} (list : List α)
    (hf : ∀ a ∈ list, ∀ s', s.Later s' → Spec True (f a) s' fun r s'' => s''.Means ρ r (g a)) :
    Spec True (collect f list) s fun r s' => s'.Reads ρ r (list.map g) := by
  refine (Spec.collect (P := fun a r s' => s'.Means ρ r (g a)) ?_ list s h ?_).weaken ?_
  · exact fun a r s₁ s₂ hl hm => hm.later hl
  · exact fun a ha s' he hok => hf a ha s' ⟨h, hok, he⟩
  · exact fun r s' _ _ hr => List.forall₂_map_right_iff.2 hr.flip

lemma collect_mkNot (ht : s.Reads ρ terms xs) :
    Spec True (collect mkNot terms) s fun r s' => s'.Reads ρ r (xs.map not) := by
  rw [← ht.eq_map, List.map_map]
  refine collect_reads h terms fun t htm s' hl => ?_
  exact mkNot_means hl.after (.later (.of_isBool (ht.isBool t htm)) hl)

lemma collect_pairs {f : TermId → TermId → TermM TermId} {g : Bool → Bool → Bool}
    (hl : s.Reads ρ left xs) (hr : s.Reads ρ right ys)
    (hf : ∀ s' t u a b, s.Later s' → s'.Means ρ t a → s'.Means ρ u b →
      Spec True (f t u) s' fun r s'' => s''.Means ρ r (g a b)) :
    Spec True (collect (fun pair => f pair.1 pair.2) (left.zip right)) s
      fun r s' => s'.Reads ρ r (List.zipWith g xs ys) := by
  have he : List.zipWith g xs ys =
      (left.zip right).map fun pair => g (s.evaluate ρ pair.1) (s.evaluate ρ pair.2) := by
    rw [← hl.eq_map, ← hr.eq_map, List.zipWith_map, List.zip, List.map_zipWith]
  rw [he]
  refine collect_reads h _ fun pair hpair s' hs' => ?_
  obtain ⟨h1, h2⟩ := List.of_mem_zip hpair
  exact hf s' _ _ _ _ hs' (.later (.of_isBool (hl.isBool _ h1)) hs')
    (.later (.of_isBool (hr.isBool _ h2)) hs')

/-! ### Addition -/

omit h in
lemma addBitsFrom_spec : ∀ (left right : List TermId) (xs ys : List Bool) (carry : TermId)
    (c : Bool) (s : TermStore), s.Ok → s.Reads ρ left xs → s.Reads ρ right ys →
    xs.length = ys.length → s.Means ρ carry c →
    Spec True (addBitsFrom carry left right) s fun r s' => ∃ zs c', s'.Reads ρ r.1 zs ∧
      s'.Means ρ r.2 c' ∧ zs.length = xs.length ∧
      value zs + 2 ^ xs.length * c'.toNat = value xs + value ys + c.toNat
  | left, right, [], ys, carry, c, s, h, hl, hr, hlen, hc => by
    have hys : ys = [] := List.length_eq_zero_iff.1 hlen.symm
    subst hys
    cases hl
    exact .pure h ⟨[], c, .nil, hc, rfl, by simp⟩
  | left, right, x :: xs, [], carry, c, s, h, hl, hr, hlen, hc => by cases hlen
  | left, right, x :: xs, y :: ys, carry, c, s, h, hl, hr, hlen, hc => by
    obtain ⟨l, left, rfl, hx, hl⟩ := hl.uncons
    obtain ⟨r, right, rfl, hy, hr⟩ := hr.uncons
    refine .bind (mkXor_means h hx hy) fun pairSum s₁ he₁ h₁ hp => ?_
    have hs₁ : s.Later s₁ := ⟨h, h₁, he₁⟩
    refine .bind (mkXor_means h₁ hp (hc.later hs₁)) fun sum s₂ he₂ h₂ hsum => ?_
    have hs₂ : s₁.Later s₂ := ⟨h₁, h₂, he₂⟩
    refine .bind (mkAnd_pair h₂ (hx.later (hs₁.trans hs₂)) (hy.later (hs₁.trans hs₂)))
      fun pairCarry s₃ he₃ h₃ hpc => ?_
    have hs₃ : s₂.Later s₃ := ⟨h₂, h₃, he₃⟩
    refine .bind (mkAnd_pair h₃ (hp.later (hs₂.trans hs₃))
      (hc.later (hs₁.trans (hs₂.trans hs₃)))) fun propagated s₄ he₄ h₄ hprop => ?_
    have hs₄ : s₃.Later s₄ := ⟨h₃, h₄, he₄⟩
    refine .bind (mkOr_pair h₄ (hpc.later hs₄) hprop) fun carry' s₅ he₅ h₅ hcarry => ?_
    have hs₅ : s₄.Later s₅ := ⟨h₄, h₅, he₅⟩
    have hs₃₅ := hs₃.trans (hs₄.trans hs₅)
    have hs₁₅ := hs₁.trans (hs₂.trans hs₃₅)
    refine .bind (addBitsFrom_spec _ _ xs ys carry' _ s₅ h₅ (hl.later hs₁₅) (hr.later hs₁₅)
      (by simpa using hlen) hcarry) ?_
    rintro ⟨sums, out⟩ s₆ he₆ h₆ ⟨zs, c', hzs, hc', hlz, hv⟩
    have hs₆ : s₅.Later s₆ := ⟨h₅, h₆, he₆⟩
    refine .pure h₆ ⟨_ :: zs, c', .cons (hsum.later (hs₃₅.trans hs₆)) hzs, hc', by simp [hlz], ?_⟩
    have hadd := fullAdder x y c
    rw [value_cons, value_cons, value_cons, List.length_cons, pow_succ]
    calc ((x ^^ y) ^^ c).toNat + 2 * value zs + 2 ^ xs.length * 2 * c'.toNat
        = ((x ^^ y) ^^ c).toNat + 2 * (value zs + 2 ^ xs.length * c'.toNat) := by ring
      _ = x.toNat + 2 * value xs + (y.toNat + 2 * value ys) + c.toNat := by rw [hv]; omega

/-- `add_bits`: the sum, and the carry out of the highest bit. -/
lemma addBits_spec (hl : s.Reads ρ left xs) (hr : s.Reads ρ right ys)
    (hlen : xs.length = ys.length) :
    Spec True (addBits left right) s fun r s' => ∃ zs c, s'.Reads ρ r.1 zs ∧ s'.Means ρ r.2 c ∧
      zs.length = xs.length ∧ value zs + 2 ^ xs.length * c.toNat = value xs + value ys := by
  refine (addBitsFrom_spec left right xs ys _ false s h hl hr hlen (.constant h false)).weaken ?_
  rintro r s' - - ⟨zs, c, hzs, hc, hlz, hv⟩
  exact ⟨zs, c, hzs, hc, hlz, by simpa using hv⟩

/-! ### Negation and subtraction -/

lemma negateBits_spec (ht : s.Reads ρ terms xs) (hne : xs ≠ []) :
    Spec True (negateBits terms) s fun r s' => ∃ zs, s'.Reads ρ r zs ∧ zs.length = xs.length ∧
      value zs = (2 ^ xs.length - value xs) % 2 ^ xs.length := by
  refine .bind (collect_mkNot h ht) fun inverted s₁ he₁ h₁ hinv => ?_
  have hone : s₁.Reads ρ ((List.replicate terms.length (boolConstant false)).set 0
      (boolConstant true)) ((List.replicate xs.length false).set 0 true) := by
    rw [ht.length]
    exact (Reads.replicate (.constant h₁ false) _).set (.constant h₁ true) 0
  have hvalue : value ((List.replicate xs.length false).set 0 true) = 1 := by
    cases xs with
    | nil => exact absurd rfl hne
    | cons x xs => simp [List.replicate_succ]
  refine .bind (addBits_spec h₁ hinv hone (by simp)) ?_
  rintro ⟨sums, out⟩ s₂ he₂ h₂ ⟨zs, c, hzs, -, hlz, hv⟩
  rw [List.length_map] at hlz hv
  refine .pure h₂ ⟨zs, hzs, hlz, ?_⟩
  rw [hvalue, ← hlz] at hv
  rw [value_of_carry hv, hlz, ← value_map_not xs]
  congr 1
  omega

lemma subtractBits_spec (hl : s.Reads ρ left xs) (hr : s.Reads ρ right ys)
    (hlen : xs.length = ys.length) (hne : xs ≠ []) :
    Spec True (subtractBits left right) s fun r s' => ∃ zs, s'.Reads ρ r zs ∧
      zs.length = xs.length ∧
      value zs = (value xs + (2 ^ xs.length - value ys)) % 2 ^ xs.length := by
  have hne' : ys ≠ [] := by
    rintro rfl
    exact hne (List.length_eq_zero_iff.1 hlen)
  refine .bind (negateBits_spec h hr hne') ?_
  rintro negated s₁ he₁ h₁ ⟨ns, hns, hln, hvn⟩
  refine .bind (addBits_spec h₁ (hl.later ⟨h, h₁, he₁⟩) hns (hlen.trans hln.symm)) ?_
  rintro ⟨sums, out⟩ s₂ he₂ h₂ ⟨zs, c, hzs, -, hlz, hv⟩
  refine .pure h₂ ⟨zs, hzs, hlz, ?_⟩
  rw [← hlz] at hv
  rw [value_of_carry hv, hvn, ← hlen, hlz, Nat.add_mod_mod]

/-! ### Selection and comparison -/

omit h in
lemma zipWith_ite (hlen : xs.length = ys.length) :
    List.zipWith (fun a b => if c then a else b) xs ys = if c then xs else ys := by
  cases c with
  | true => exact List.map_zip_eq_zipWith.symm.trans (List.map_fst_zip hlen.le)
  | false => exact List.map_zip_eq_zipWith.symm.trans (List.map_snd_zip hlen.ge)

lemma selectBits_spec {condition : TermId} (hc : s.Means ρ condition c)
    (hl : s.Reads ρ left xs) (hr : s.Reads ρ right ys) (hlen : xs.length = ys.length) :
    Spec True (selectBits condition left right) s fun r s' =>
      s'.Reads ρ r (if c then xs else ys) := by
  rw [← zipWith_ite hlen]
  exact collect_pairs h hl hr fun s' t u a b hs' hta hub =>
    mkIte_means hs'.after (hc.later hs') hta hub

lemma isZeroBits_spec (ht : s.Reads ρ terms xs) :
    Spec True (isZeroBits terms) s fun r s' => s'.Means ρ r (decide (value xs = 0)) := by
  refine .bind (collect_mkNot h ht) fun zeroBits s₁ he₁ h₁ hz => ?_
  have he : decide (value xs = 0) = (xs.map not).all id := by
    rw [Bool.eq_iff_iff, decide_eq_true_eq, value_eq_zero_iff]
    simp
  rw [he]
  exact mkAnd_means h₁ hz

omit h in
/-- The comparison, after the bits above have been compared. -/
lemma lessThanFrom_spec : ∀ (xs ys : List Bool) (left right : List TermId) (less equal : TermId)
    (l e : Bool) (s : TermStore), s.Ok → s.Reads ρ left xs → s.Reads ρ right ys →
    xs.length = ys.length → s.Means ρ less l → s.Means ρ equal e →
    Spec True (lessThanFrom less equal (left.zip right)) s fun r s' =>
      s'.Means ρ r (l || (e && decide (value xs.reverse < value ys.reverse)))
  | [], ys, left, right, less, equal, l, e, s, h, hl, hr, hlen, hless, hequal => by
    cases hl
    exact .pure h (by simpa [List.length_eq_zero_iff.1 hlen.symm] using hless)
  | x :: xs, [], left, right, less, equal, l, e, s, h, hl, hr, hlen, hless, hequal => by cases hlen
  | x :: xs, y :: ys, left, right, less, equal, l, e, s, h, hl, hr, hlen, hless, hequal => by
    obtain ⟨t, left, rfl, hx, hl⟩ := hl.uncons
    obtain ⟨u, right, rfl, hy, hr⟩ := hr.uncons
    refine .bind (mkNot_means h hx) fun notLeft s₁ he₁ h₁ hn => ?_
    have hs₁ : s.Later s₁ := ⟨h, h₁, he₁⟩
    refine .bind (mkAnd_pair h₁ hn (hy.later hs₁)) fun leftLess s₂ he₂ h₂ hll => ?_
    have hs₂ : s.Later s₂ := hs₁.trans ⟨h₁, h₂, he₂⟩
    refine .bind (mkAnd_pair h₂ (hequal.later hs₂) hll) fun decisive s₃ he₃ h₃ hd => ?_
    have hs₃ : s.Later s₃ := hs₂.trans ⟨h₂, h₃, he₃⟩
    refine .bind (mkOr_pair h₃ (hless.later hs₃) hd) fun less' s₄ he₄ h₄ hless' => ?_
    have hs₄ : s.Later s₄ := hs₃.trans ⟨h₃, h₄, he₄⟩
    refine .bind (mkIff_means h₄ (hx.later hs₄) (hy.later hs₄)) fun bitEqual s₅ he₅ h₅ hb => ?_
    have hs₅ : s.Later s₅ := hs₄.trans ⟨h₄, h₅, he₅⟩
    refine .bind (mkAnd_pair h₅ (hequal.later hs₅) hb) fun equal' s₆ he₆ h₆ hequal' => ?_
    have hs₆ : s₅.Later s₆ := ⟨h₅, h₆, he₆⟩
    refine (lessThanFrom_spec xs ys left right less' equal' _ _ s₆ h₆ (hl.later (hs₅.trans hs₆))
      (hr.later (hs₅.trans hs₆)) (by simpa using hlen)
      (hless'.later (Later.trans ⟨h₄, h₅, he₅⟩ hs₆)) hequal').weaken ?_
    rintro r s₇ - - hmeans
    rw [List.reverse_cons, List.reverse_cons, decide_value_concat_lt (by simpa using hlen)]
    convert hmeans using 1
    cases l <;> cases e <;> cases x <;> cases y <;> simp

lemma unsignedLessThanBits_spec (hl : s.Reads ρ left xs) (hr : s.Reads ρ right ys)
    (hlen : xs.length = ys.length) :
    Spec True (unsignedLessThanBits left right) s fun r s' =>
      s'.Means ρ r (decide (value xs < value ys)) := by
  have hterms : left.length = right.length := hl.length.trans (hlen.trans hr.length.symm)
  rw [unsignedLessThanBits, List.zip, List.reverse_zipWith hterms, ← List.zip_eq_zipWith]
  simpa using lessThanFrom_spec xs.reverse ys.reverse left.reverse right.reverse _ _ false true s h
    hl.reverse hr.reverse (by simpa using hlen) (.constant h false) (.constant h true)

/-! ### Multiplication -/

omit h in
/-- A partial product: the bits below `prior.length` are in place. -/
lemma partialProduct_spec {rightBit : TermId} {y : Bool} (rightIndex width : ℕ) :
    ∀ (xs : List Bool) (left products : List TermId) (prior : List Bool) (start : ℕ)
    (s : TermStore), s.Ok → s.Means ρ rightBit y → s.Reads ρ left xs → prior.length ≤ width →
    prior.length = start + rightIndex →
    s.Reads ρ products (prior ++ List.replicate (width - prior.length) false) →
    Spec True (partialProduct rightBit rightIndex width (left.zipIdx start) products) s
      fun r s' => ∃ zs, s'.Reads ρ r zs ∧ zs.length = width ∧
        value zs = (value prior + 2 ^ prior.length * (y.toNat * value xs)) % 2 ^ width
  | [], left, products, prior, start, s, h, hy, hl, hle, hstart, hp => by
    cases hl
    refine .pure h ⟨_, hp, by simp; omega, ?_⟩
    have hlt := (value_lt prior).trans_le (Nat.pow_le_pow_right Nat.zero_lt_two hle)
    rw [value_append, value_replicate_false, value_nil, Nat.mul_zero, Nat.mul_zero, Nat.mul_zero,
      Nat.add_zero, Nat.mod_eq_of_lt hlt]
  | x :: xs, left, products, prior, start, s, h, hy, hl, hle, hstart, hp => by
    obtain ⟨t, left, rfl, hx, hl⟩ := hl.uncons
    rw [List.zipIdx_cons, partialProduct]
    split
    · next hge =>
      have hlen : prior.length = width := by omega
      refine .pure h ⟨_, hp, by simp; omega, ?_⟩
      have hlt := value_lt prior
      rw [hlen] at hlt ⊢
      rw [Nat.add_mul_mod_self_left, Nat.mod_eq_of_lt hlt, Nat.sub_self, List.replicate_zero,
        List.append_nil]
    · next hlt =>
      refine .bind (mkAnd_pair h hx hy) fun product s₁ he₁ h₁ hprod => ?_
      have hs₁ : s.Later s₁ := ⟨h, h₁, he₁⟩
      obtain ⟨k, hk⟩ : ∃ k, width - prior.length = k + 1 := ⟨width - prior.length - 1, by omega⟩
      have hset := (hp.later hs₁).set hprod (start + rightIndex)
      rw [← hstart, hk, List.replicate_succ, List.set_append_right _ _ (le_refl _), Nat.sub_self,
        List.set_cons_zero, List.append_cons] at hset
      have hprior : (prior ++ [x && y]).length = prior.length + 1 := by simp
      rw [hstart] at hset
      refine (partialProduct_spec rightIndex width xs left _ (prior ++ [x && y]) (start + 1) s₁ h₁
        (hy.later hs₁) (hl.later hs₁) (by omega) (by omega) ?_).weaken ?_
      · convert hset using 3
        omega
      · rintro r s₂ - - ⟨zs, hzs, hlz, hv⟩
        refine ⟨zs, hzs, hlz, ?_⟩
        rw [hv, value_concat, hprior, value_cons, pow_succ]
        congr 1
        cases x <;> cases y <;> simp <;> ring

/-- `multiply_bits`: the product modulo the width of the output. -/
lemma multiplyBits_spec (hl : s.Reads ρ left xs) (hr : s.Reads ρ right ys) (width : ℕ) :
    Spec True (multiplyBits left right width) s fun r s' => ∃ zs, s'.Reads ρ r zs ∧
      zs.length = width ∧ value zs = (value xs * value ys) % 2 ^ width := by
  have hloop := Spec.loop (T := True) (f := fun result entry => do
      let products ← partialProduct entry.1 entry.2 width left.zipIdx
        (List.replicate width falseTerm)
      pure (← addBits result products).1)
    (I := fun result rest s' => ∃ i zs, rest = (right.zipIdx.take width).drop i ∧
      s.Later s' ∧ s'.Reads ρ result zs ∧ zs.length = width ∧
      value zs = (value xs * value (ys.take i)) % 2 ^ width)
    (right.zipIdx.take width) (List.replicate width falseTerm) s h
    ⟨0, _, rfl, ⟨h, h, .refl s⟩, .replicate (.constant h false) width, by simp, by simp⟩ ?_
  · refine hloop.weaken ?_
    rintro r s' - - ⟨i, zs, hrest, -, hzs, hlz, hv⟩
    refine ⟨zs, hzs, hlz, ?_⟩
    have hi : min width right.length ≤ i := by
      simpa [List.drop_eq_nil_iff] using hrest.symm
    rw [hv, value_take]
    rcases le_or_gt ys.length i with hle | hgt
    · rw [Nat.mod_eq_of_lt ((value_lt ys).trans_le (Nat.pow_le_pow_right Nat.zero_lt_two hle))]
    · have hw : width ≤ i := by
        rw [hr.length] at hi
        omega
      rw [Nat.mul_mod, Nat.mod_mod_of_dvd _ (Nat.pow_dvd_pow 2 hw), ← Nat.mul_mod]
  · rintro result entry rest s₁ - h₁ ⟨i, zs, hrest, hs₁, hzs, hlz, hv⟩
    have hget : (right.zipIdx.take width)[i]? = some entry := by
      rw [← List.head?_drop, ← hrest, List.head?_cons]
    have hlt : i < width ∧ i < right.length := by
      have := (List.getElem?_eq_some_iff.1 hget).1
      rw [List.length_take, List.length_zipIdx] at this
      omega
    obtain ⟨u, hu⟩ : ∃ u, right[i]? = some u := ⟨_, List.getElem?_eq_getElem hlt.2⟩
    have hentry : entry = (u, i) := by
      rw [List.getElem?_take_of_lt hlt.1, List.getElem?_zipIdx, hu] at hget
      simpa using hget.symm
    subst hentry
    obtain ⟨y, hy, hmeans⟩ := hr.getElem? hu
    have hzero : s₁.Reads ρ (List.replicate width falseTerm) (List.replicate i false ++
        List.replicate (width - (List.replicate i false).length) false) := by
      rw [List.length_replicate, List.replicate_append_replicate, Nat.add_sub_cancel' hlt.1.le]
      exact .replicate (.constant h₁ false) width
    refine .bind (partialProduct_spec i width xs left _ (List.replicate i false) 0 s₁ h₁
      (hmeans.later hs₁) (hl.later hs₁) (by simpa using hlt.1.le) (by simp) hzero) ?_
    rintro products s₂ he₂ h₂ ⟨ps, hps, hlp, hvp⟩
    have hs₂ : s₁.Later s₂ := ⟨h₁, h₂, he₂⟩
    refine .bind (addBits_spec h₂ (hzs.later hs₂) hps (hlz.trans hlp.symm)) ?_
    rintro ⟨sums, out⟩ s₃ he₃ h₃ ⟨zs', c, hzs', -, hlz', hv'⟩
    refine .pure h₃ ⟨i + 1, zs', ?_, hs₁.trans (hs₂.trans ⟨h₂, h₃, he₃⟩), hzs', hlz'.trans hlz, ?_⟩
    · rw [← List.drop_drop, ← hrest, List.drop_one, List.tail_cons]
    · rw [← hlz'] at hv'
      have htake : ys.take (i + 1) = ys.take i ++ [y] := by
        rw [List.take_add_one, hy, Option.toList_some]
      have hi : (ys.take i).length = i := by
        rw [List.length_take, min_eq_left (List.getElem?_eq_some_iff.1 hy).1.le]
      rw [value_of_carry hv', hlz', hlz, hv, hvp, htake, value_concat, hi, value_replicate_false,
        List.length_replicate, Nat.zero_add, ← Nat.add_mod]
      congr 1
      ring

/-! ### Restoring division -/

omit h in
/-- The loop of the division: the bits still to come are `xs`, the number read so far is
`number`. -/
lemma divideFrom_spec {divisor : List TermId} {ds : List Bool} :
    ∀ (xs : List Bool) (bits quotient remainder : List TermId) (qs rs : List Bool) (number : ℕ)
    (s : TermStore), s.Ok → s.Reads ρ divisor (ds ++ [false]) → s.Reads ρ bits xs →
    s.Reads ρ quotient qs → s.Reads ρ remainder rs → rs.length = ds.length + 1 →
    qs.length + xs.length = ds.length → Divided (value ds) number qs rs →
    Spec True (divideFrom divisor bits quotient remainder) s fun r s' => ∃ qs' rs',
      s'.Reads ρ r.1 qs' ∧ s'.Reads ρ r.2 rs' ∧ qs'.length = ds.length ∧
      rs'.length = ds.length + 1 ∧
      Divided (value ds) (number * 2 ^ xs.length + value xs.reverse) qs' rs'
  | [], bits, quotient, remainder, qs, rs, number, s, h, hd, hb, hq, hr, hlr, hlq, hinv => by
    cases hb
    exact .pure h ⟨qs, rs, hq, hr, by simpa using hlq, hlr, by simpa using hinv⟩
  | x :: xs, bits, quotient, remainder, qs, rs, number, s, h, hd, hb, hq, hr, hlr, hlq, hinv => by
    obtain ⟨bit, bits, rfl, hx, hb⟩ := hb.uncons
    rw [List.length_cons] at hlq
    have hshift : s.Reads ρ (bit :: remainder.dropLast) (x :: rs.dropLast) := .cons hx hr.dropLast
    have hlen : (x :: rs.dropLast).length = (ds ++ [false]).length := by simp [hlr]
    refine .bind (unsignedLessThanBits_spec h hshift hd hlen) fun less s₁ he₁ h₁ hless => ?_
    have hs₁ : s.Later s₁ := ⟨h, h₁, he₁⟩
    refine .bind (mkNot_means h₁ hless) fun ge s₂ he₂ h₂ hge => ?_
    have hs₂ : s.Later s₂ := hs₁.trans ⟨h₁, h₂, he₂⟩
    refine .bind (subtractBits_spec h₂ (hshift.later hs₂) (hd.later hs₂) hlen (by simp)) ?_
    rintro subtracted s₃ he₃ h₃ ⟨zs, hzs, hlz, hvz⟩
    have hs₃ : s₂.Later s₃ := ⟨h₂, h₃, he₃⟩
    refine .bind (selectBits_spec h₃ (hge.later hs₃) hzs (hshift.later (hs₂.trans hs₃)) hlz)
      fun remainder' s₄ he₄ h₄ hrem => ?_
    have hs₄ : s₃.Later s₄ := ⟨h₃, h₄, he₄⟩
    have hs₂₄ := hs₃.trans hs₄
    have hs := hs₂.trans hs₂₄
    have hstep := hinv.step hlr hvz (by omega)
    refine (divideFrom_spec xs bits _ remainder' _ _ (2 * number + x.toNat) s₄ h₄ (hd.later hs)
      (hb.later hs) (.cons (hge.later hs₂₄) (hq.later hs)) hrem ?_ ?_ hstep).weaken ?_
    · split
      · exact hlz.trans (hlen.trans (by simp))
      · exact hlen.trans (by simp)
    · rw [List.length_cons]
      omega
    · rintro r s₅ - - ⟨qs', rs', hq', hr', hlq', hlr', hinv'⟩
      refine ⟨qs', rs', hq', hr', hlq', hlr', ?_⟩
      convert hinv' using 1
      rw [List.reverse_cons, value_concat, List.length_reverse, List.length_cons, pow_succ]
      ring

lemma checkQuadratic_spec {T : Prop} {width : ℕ} {operation : String}
    (hw : T → width * width ≤ maxQuadraticLoweringWork) :
    Spec T (checkQuadratic width operation) s fun _ s' => s = s' ∧
      width * width ≤ maxQuadraticLoweringWork := by
  rw [checkQuadratic]
  split
  · next hlt => exact .fail h fun hT => absurd (hw hT) (not_le.2 hlt)
  · next hge => exact .pure h ⟨rfl, not_lt.1 hge⟩

/-- `unsigned_divide_bits`. -/
lemma unsignedDivideBits_spec (hl : s.Reads ρ left xs) (hr : s.Reads ρ right ys)
    (hlen : xs.length = ys.length) (hlimit : xs.length * xs.length ≤ maxQuadraticLoweringWork) :
    Spec True (unsignedDivideBits left right) s fun r s' => ∃ qs rs, s'.Reads ρ r.1 qs ∧
      s'.Reads ρ r.2 rs ∧ qs.length = xs.length ∧ rs.length = xs.length ∧
      value rs = value xs % value ys ∧
      value qs = if value ys = 0 then 2 ^ xs.length - 1 else value xs / value ys := by
  have hsmall : xs.length < maxIndex := by
    by_contra hge
    have hmul := Nat.mul_le_mul (not_lt.1 hge) (not_lt.1 hge)
    rw [maxIndex] at hmul
    rw [maxQuadraticLoweringWork] at hlimit
    omega
  refine .bind (checkIndex_spec h fun _ => hl.length ▸ hsmall) ?_
  rintro _ _ - - ⟨rfl, -⟩
  refine .bind (checkQuadratic_spec h fun _ => hl.length ▸ hlimit) ?_
  rintro _ _ - - ⟨rfl, -⟩
  refine .bind (divideFrom_spec xs.reverse _ _ _ [] (List.replicate (ys.length + 1) false) 0 s h
    (hr.append (.cons (.constant h false) .nil)) hl.reverse .nil ?_ (by simp) (by simp [hlen])
    (.start _ _)) ?_
  · rw [hl.length, hlen]
    exact .replicate (.constant h false) _
  · rintro ⟨quotient, remainder⟩ s₁ he₁ h₁ ⟨qs, rs, hq, hrem, hlq, hlr, hdiv⟩
    rw [Nat.zero_mul, Nat.zero_add, List.reverse_reverse] at hdiv
    have hrs : rs.dropLast.length = ys.length := by simp [hlr]
    refine .pure h₁ ⟨qs, rs.dropLast, hq, hrem.dropLast, hlq.trans hlen.symm, hrs.trans hlen.symm,
      ?_, ?_⟩
    · have hlt : value xs % value ys < 2 ^ ys.length :=
        (Nat.mod_le _ _).trans_lt (hlen ▸ value_lt xs)
      rw [List.dropLast_eq_take, hlr, Nat.add_sub_cancel, value_take, hdiv.remainder,
        Nat.mod_eq_of_lt hlt]
    · rw [hdiv.quotient, hlq, hlen]

end

end Satrap.Smt
