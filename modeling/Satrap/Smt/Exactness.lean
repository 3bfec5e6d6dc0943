/-
# Exact bit-vector operators

In every store that can be built, every bit-vector operator returns a term whose value, under
every assignment of the atoms, is the operation of `BitVec` on the values of the operands.
-/
import Satrap.Smt.Division
import Satrap.Smt.Literals
import Satrap.Smt.History

namespace Satrap.Smt

open Logic TermStore TermM Bits

variable {s : TermStore} {x y : TermId} {ρ : SymbolId → Bool} {w : ℕ} {v v' : BitVec w}

/-! ### The sorts are left alone -/

instance (sort : SortId) (kind : TermKind) : Frames TermStore.sorts (intern sort kind) := by
  unfold intern
  refine .of_bind fun s => ?_
  split
  · infer_instance
  · have : Frames TermStore.sorts (modify fun s : TermStore => { s with
        nodes := s.nodes ++ [⟨sort, kind⟩]
        interned := Function.update s.interned ⟨sort, kind⟩ (some s.nodes.length) }) :=
      ⟨fun _ => rfl⟩
    infer_instance

instance (term : TermId) : Frames TermStore.sorts (mkNot term) := by
  unfold mkNot
  refine .of_bind fun _ => .of_bind fun s => ?_
  split <;> infer_instance

lemma frames_flattenAll (identity conjunction : Bool) (terms flattened : List TermId) :
    Frames TermStore.sorts (flattenAll identity conjunction terms flattened) := by
  induction terms generalizing flattened with
  | nil => exact .pure _ _
  | cons term rest ih =>
    unfold flattenAll
    refine .of_bind fun _ => .of_bind fun s => ?_
    split
    · exact ih _
    · infer_instance

instance (terms : List TermId) : Frames TermStore.sorts (mkAnd terms) := by
  unfold mkAnd junction
  have := frames_flattenAll true true terms []
  refine .of_bind fun result => ?_
  split
  · infer_instance
  · refine .of_bind fun s => @Frames.ite _ _ _ _ _ _ _ inferInstance ?_
    split <;> infer_instance

instance (left right : TermId) : Frames TermStore.sorts (mkIff left right) := by
  unfold mkIff
  refine .of_bind fun _ => .of_bind fun _ => .of_bind fun s =>
    @Frames.ite _ _ _ _ _ _ _ inferInstance (@Frames.ite _ _ _ _ _ _ _ inferInstance ?_)
  split <;> infer_instance

/-! ### Equality of words -/

section

variable (h : s.Ok) (hx : s.Denotes ρ x v) (hy : s.Denotes ρ y v')
include h hx hy

/-- The equality of two words. -/
lemma equivalentWith_words (theoryEquality : TermId → TermId → TermM TermId) :
    Spec True (equivalentWith theoryEquality x y) s fun r s' =>
      s'.Means ρ r (v == v') ∧ s'.sorts = s.sorts := by
  refine .bind (sortOf_spec h fun _ => lt_of_sort? hx.1) ?_
  rintro _ _ - - ⟨rfl, hsx⟩
  rw [hx.1, Option.some.injEq] at hsx
  subst hsx
  refine .bind (sortOf_spec h fun _ => lt_of_sort? hy.1) ?_
  rintro _ _ - - ⟨rfl, hsy⟩
  rw [hy.1, Option.some.injEq] at hsy
  subst hsy
  rw [if_neg (by simp [SmtSort.isArithmetic]), if_neg (by simp)]
  refine .bind (bitvecBits_denotes h hx) ?_
  rintro left _ - - ⟨rfl, -, xs, hxs, hlx, hvx⟩
  refine .bind (bitvecBits_denotes h hy) ?_
  rintro right _ - - ⟨rfl, -, ys, hys, hly, hvy⟩
  have hpairs := collect_pairs (g := fun a b => a == b) h hxs hys
    fun s' t u a b hl ht hu => mkIff_means hl.after ht hu
  refine .bind (hpairs.framed TermStore.sorts) ?_
  rintro bits s₁ - h₁ ⟨hbits, hsorts₁⟩
  refine ((mkAnd_means h₁ hbits).framed TermStore.sorts).weaken ?_
  rintro r s₂ - - ⟨hr, hsorts₂⟩
  have heq : decide (xs = ys) = (v == v') := by
    rw [Bool.eq_iff_iff, decide_eq_true_eq, beq_iff_eq, ← BitVec.toNat_inj, ← hvx, ← hvy]
    exact ⟨fun he => he ▸ rfl, value_inj (hlx.trans hly.symm)⟩
  rw [all_zipWith_beq (hlx.trans hly.symm), heq] at hr
  exact ⟨hr, hsorts₂.trans hsorts₁⟩

lemma equal_words (depth : ℕ) : Spec True (equal depth [x, y]) s fun r s' =>
    s'.Means ρ r (v == v') ∧ s'.sorts = s.sorts := by
  have hcheck : Spec True (checkSameSort "=" x [y]) s fun _ s' => s = s' := by
    refine .bind (sortOf_spec h fun _ => lt_of_sort? hx.1) ?_
    rintro sort _ - - ⟨rfl, hs⟩
    rw [hx.1, Option.some.injEq] at hs
    subst hs
    refine .get (.bind (Q := fun _ s' => s = s') ?_ fun _ s' _ h' he => .pure h' he)
    refine .bind (sortOf_spec h fun _ => lt_of_sort? hy.1) ?_
    rintro sort _ - - ⟨rfl, hs⟩
    rw [hy.1, Option.some.injEq] at hs
    subst hs
    rw [if_neg (by simp)]
    exact .pure h rfl
  have hlist : Spec True (collect (equivalent depth x) [y]) s fun rs s' =>
      s'.Reads ρ rs [v == v'] ∧ s'.sorts = s.sorts := by
    refine .bind (equivalentWith_words h hx hy _) ?_
    rintro r s₁ - h₁ ⟨hr, hsorts⟩
    exact .pure h₁ ⟨.cons hr .nil, hsorts⟩
  refine .bind hcheck ?_
  rintro _ _ - - rfl
  refine .bind hlist ?_
  rintro rs s₁ - h₁ ⟨hrs, hsorts₁⟩
  refine ((mkAnd_means h₁ hrs).framed TermStore.sorts).weaken ?_
  rintro r s₂ - - ⟨hr, hsorts₂⟩
  exact ⟨by simpa using hr, hsorts₂.trans hsorts₁⟩

lemma bvcomp_spec (hroom : s.sorts.length < maxIndex) (depth : ℕ) :
    Spec True (bvcomp depth x y) s fun r s' => s'.Denotes ρ r (BitVec.ofBool (v == v')) := by
  refine .bind (equal_words h hx hy depth) ?_
  rintro r s₁ - h₁ ⟨hr, hsorts⟩
  refine makeBitvec_denotes h₁ (.of_bits (.cons hr .nil) rfl fun i hi => ?_)
    ⟨Nat.zero_lt_one, by decide, .inr (hsorts ▸ hroom)⟩
  obtain rfl : i = 0 := by omega
  simp

end

/-! ### Statements of exactness -/

namespace TermStore

/-- The term is a word of the width. -/
def IsWord (s : TermStore) (t : TermId) (w : ℕ) : Prop := s.sort? t = some (.bitVec w)

/-- An operator on one word, for every width. -/
def ComputesUnary (s : TermStore) (operator : TermId → TermM TermId)
    (f : ∀ w, BitVec w → BitVec w) : Prop :=
  ∀ x w, s.IsWord x w → s.Computes (operator x) fun ρ => f w (s.wordOf ρ x w)

/-- An operator on two words of one width. -/
def ComputesBinary (s : TermStore) (operator : TermId → TermId → TermM TermId)
    (f : ∀ w, BitVec w → BitVec w → BitVec w) : Prop :=
  ∀ x y w, s.IsWord x w → s.IsWord y w →
    s.Computes (operator x y) fun ρ => f w (s.wordOf ρ x w) (s.wordOf ρ y w)

/-- An operator on two or more words of one width, from the left. -/
def ComputesFold (s : TermStore) (operator : List TermId → TermM TermId)
    (f : ∀ w, BitVec w → BitVec w → BitVec w) (w : ℕ) : Prop :=
  ∀ x terms, terms ≠ [] → s.IsWord x w → (∀ t ∈ terms, s.IsWord t w) →
    s.Computes (operator (x :: terms)) fun ρ =>
      (terms.map fun t => s.wordOf ρ t w).foldl (f w) (s.wordOf ρ x w)

/-- A predicate on two words of one width. -/
def DecidesBinary (s : TermStore) (operator : TermId → TermId → TermM TermId)
    (f : ∀ w, BitVec w → BitVec w → Bool) (w : ℕ) : Prop :=
  ∀ x y, s.IsWord x w → s.IsWord y w →
    s.Decides (operator x y) fun ρ => f w (s.wordOf ρ x w) (s.wordOf ρ y w)

end TermStore

/-- The bitwise and arithmetic operators and the shifts. -/
structure WordsExact (s : TermStore) : Prop where
  not : s.ComputesUnary bvnot fun _ v => ~~~v
  and : ∀ w, s.ComputesFold bvand (fun _ v v' => v &&& v') w
  or : ∀ w, s.ComputesFold bvor (fun _ v v' => v ||| v') w
  xor : ∀ w, s.ComputesFold bvxor (fun _ v v' => v ^^^ v') w
  nand : s.ComputesBinary bvnand fun _ v v' => ~~~(v &&& v')
  nor : s.ComputesBinary bvnor fun _ v v' => ~~~(v ||| v')
  xnor : s.ComputesBinary bvxnor fun _ v v' => ~~~(v ^^^ v')
  neg : s.ComputesUnary bvneg fun _ v => -v
  add : ∀ w, s.ComputesFold bvadd (fun _ v v' => v + v') w
  sub : s.ComputesBinary bvsub fun _ v v' => v - v'
  mul : ∀ w, w * w ≤ maxQuadraticLoweringWork → s.ComputesFold bvmul (fun _ v v' => v * v') w
  shl : s.ComputesBinary bvshl fun _ v v' => v <<< v'.toNat
  lshr : s.ComputesBinary bvlshr fun _ v v' => v >>> v'.toNat
  ashr : s.ComputesBinary bvashr fun _ v v' => v.sshiftRight v'.toNat
  rotateLeft : ∀ amount, s.ComputesUnary (rotateLeft · amount) fun _ v => v.rotateLeft amount
  rotateRight : ∀ amount, s.ComputesUnary (rotateRight · amount) fun _ v => v.rotateRight amount

/-- The comparisons and the overflow predicates. -/
structure PredicatesExact (s : TermStore) : Prop where
  ult : ∀ w, s.DecidesBinary bvult (fun _ v v' => v.ult v') w
  ule : ∀ w, s.DecidesBinary bvule (fun _ v v' => v.ule v') w
  ugt : ∀ w, s.DecidesBinary bvugt (fun _ v v' => v'.ult v) w
  uge : ∀ w, s.DecidesBinary bvuge (fun _ v v' => v'.ule v) w
  slt : ∀ w, s.DecidesBinary bvslt (fun _ v v' => v.slt v') w
  sle : ∀ w, s.DecidesBinary bvsle (fun _ v v' => v.sle v') w
  sgt : ∀ w, s.DecidesBinary bvsgt (fun _ v v' => v'.slt v) w
  sge : ∀ w, s.DecidesBinary bvsge (fun _ v v' => v'.sle v) w
  nego : ∀ x w, s.IsWord x w → s.Decides (bvnego x) fun ρ => (s.wordOf ρ x w).negOverflow
  uaddo : ∀ w, s.DecidesBinary bvuaddo (fun _ v v' => v.uaddOverflow v') w
  saddo : ∀ w, s.DecidesBinary bvsaddo (fun _ v v' => v.saddOverflow v') w
  usubo : ∀ w, s.DecidesBinary bvusubo (fun _ v v' => v.usubOverflow v') w
  ssubo : ∀ w, s.DecidesBinary bvssubo (fun _ v v' => v.ssubOverflow v') w
  sdivo : ∀ w, s.DecidesBinary bvsdivo (fun _ v v' => v.sdivOverflow v') w
  umulo : ∀ w, w * w ≤ maxQuadraticLoweringWork →
    s.DecidesBinary bvumulo (fun _ v v' => v.umulOverflow v') w
  smulo : ∀ w, w * w ≤ maxQuadraticLoweringWork →
    s.DecidesBinary bvsmulo (fun _ v v' => v.smulOverflow v') w

/-- The operators that change the width, for widths up to the limit. -/
structure StructureExact (s : TermStore) : Prop where
  concat : ∀ x y m n, s.IsWord x m → s.IsWord y n → m + n ≤ maxBitvectorWidth →
    s.Computes (concat x y) fun ρ => s.wordOf ρ x m ++ s.wordOf ρ y n
  extract : ∀ x w high low, s.IsWord x w → low ≤ high → high < w →
    s.Computes (extract x high low) fun ρ => (s.wordOf ρ x w).extractLsb high low
  repeatWord : ∀ x w count, s.IsWord x w → 0 < count → w * count ≤ maxBitvectorWidth →
    s.Computes (repeatWord x count) fun ρ => (s.wordOf ρ x w).replicate count
  zeroExtend : ∀ x w amount, s.IsWord x w → w + amount ≤ maxBitvectorWidth →
    s.Computes (zeroExtend x amount) fun ρ => (s.wordOf ρ x w).setWidth (w + amount)
  signExtend : ∀ x w amount, s.IsWord x w → w + amount ≤ maxBitvectorWidth →
    s.Computes (signExtend x amount) fun ρ => (s.wordOf ρ x w).signExtend (w + amount)
  comp : ∀ x y w depth, s.IsWord x w → s.IsWord y w →
    s.Computes (bvcomp depth x y) fun ρ => BitVec.ofBool (s.wordOf ρ x w == s.wordOf ρ y w)

/-- The literals. -/
structure LiteralsExact (s : TermStore) : Prop where
  binary : ∀ digits : List Char, digits ≠ [] → (∀ c ∈ digits, c = '0' ∨ c = '1') →
    digits.length ≤ maxBitvectorWidth → s.Computes (bitvecFromBinary ('#' :: 'b' :: digits)) fun _ =>
      BitVec.ofNat digits.length (numeral 2 (fun c => if c = '1' then 1 else 0) digits)
  hexadecimal : ∀ digits : List Char, digits ≠ [] → (∀ c ∈ digits, isHexDigit c = true) →
    digits.length * 4 ≤ maxBitvectorWidth →
      s.Computes (bitvecFromHexadecimal ('#' :: 'x' :: digits)) fun _ =>
        BitVec.ofNat (digits.length * 4) (numeral 16 hexDigitValue digits)
  decimal : ∀ digits w, IsNumeral digits → 0 < w → w ≤ maxBitvectorWidth →
    numeral 10 decimalDigit digits < 2 ^ w → s.Computes (bitvecFromDecimal digits w) fun _ =>
      BitVec.ofNat w (numeral 10 decimalDigit digits)
  rejected : ∀ digits w, IsNumeral digits → 0 < w → w ≤ maxBitvectorWidth →
    2 ^ w ≤ numeral 10 decimalDigit digits → (bitvecFromDecimal digits w s).1 =
      .error ⟨s!"decimal value does not fit in a {w}-bit vector"⟩

/-! ### Exactness -/

section

variable (hs : Reachable s)
include hs

/-- Division is exact: `bvudiv` and `bvurem` by zero, and the signed operators for every
combination of signs. -/
theorem division_exact {x y : TermId} {w : ℕ} (hx : s.IsWord x w) (hy : s.IsWord y w)
    (hlimit : w * w ≤ maxQuadraticLoweringWork) :
    (s.Computes (bvudiv x y) fun ρ => (s.wordOf ρ x w).smtUDiv (s.wordOf ρ y w)) ∧
    (s.Computes (bvurem x y) fun ρ => (s.wordOf ρ x w).umod (s.wordOf ρ y w)) ∧
    (s.Computes (bvsdiv x y) fun ρ => (s.wordOf ρ x w).smtSDiv (s.wordOf ρ y w)) ∧
    (s.Computes (bvsrem x y) fun ρ => (s.wordOf ρ x w).srem (s.wordOf ρ y w)) ∧
    s.Computes (bvsmod x y) fun ρ => (s.wordOf ρ x w).smod (s.wordOf ρ y w) := by
  have h := hs.ok
  refine ⟨computes_of_spec fun ρ => ?_, computes_of_spec fun ρ => ?_, computes_of_spec fun ρ => ?_,
    computes_of_spec fun ρ => ?_, computes_of_spec fun ρ => ?_⟩
  · exact bvudiv_spec h (.wordOf hx) (.wordOf hy) hlimit
  · exact bvurem_spec h (.wordOf hx) (.wordOf hy) hlimit
  · exact bvsdiv_spec h (.wordOf hx) (.wordOf hy) hlimit
  · exact bvsrem_spec h (.wordOf hx) (.wordOf hy) hlimit
  · exact bvsmod_spec h (.wordOf hx) (.wordOf hy) hlimit

lemma words_exact : WordsExact s := by
  have h := hs.ok
  constructor
  case not => exact fun x w hx => computes_of_spec fun ρ => bvnot_spec h (.wordOf hx)
  case neg => exact fun x w hx => computes_of_spec fun ρ => bvneg_spec h (.wordOf hx)
  case and =>
    exact fun w x terms hne hx ht => computes_of_spec fun ρ =>
      foldBitwise_spec h .and (.wordOf hx) hne ht
  case or =>
    exact fun w x terms hne hx ht => computes_of_spec fun ρ =>
      foldBitwise_spec h .or (.wordOf hx) hne ht
  case xor =>
    exact fun w x terms hne hx ht => computes_of_spec fun ρ =>
      foldBitwise_spec h .xor (.wordOf hx) hne ht
  case nand =>
    exact fun x y w hx hy => computes_of_spec fun ρ =>
      not_foldBitwise_spec h .and (.wordOf hx) (.wordOf hy)
  case nor =>
    exact fun x y w hx hy => computes_of_spec fun ρ =>
      not_foldBitwise_spec h .or (.wordOf hx) (.wordOf hy)
  case xnor =>
    exact fun x y w hx hy => computes_of_spec fun ρ =>
      not_foldBitwise_spec h .xor (.wordOf hx) (.wordOf hy)
  case add =>
    exact fun w x terms hne hx ht => computes_of_spec fun ρ => bvadd_spec h (.wordOf hx) hne ht
  case sub =>
    exact fun x y w hx hy => computes_of_spec fun ρ => bvsub_spec h (.wordOf hx) (.wordOf hy)
  case mul =>
    exact fun w hlimit x terms hne hx ht => computes_of_spec fun ρ =>
      bvmul_spec h (.wordOf hx) hne ht hlimit
  case shl =>
    exact fun x y w hx hy => computes_of_spec fun ρ =>
      variableShift_spec h .left (.wordOf hx) (.wordOf hy)
  case lshr =>
    exact fun x y w hx hy => computes_of_spec fun ρ =>
      variableShift_spec h .logicalRight (.wordOf hx) (.wordOf hy)
  case ashr =>
    exact fun x y w hx hy => computes_of_spec fun ρ =>
      variableShift_spec h .arithmeticRight (.wordOf hx) (.wordOf hy)
  case rotateLeft =>
    exact fun amount x w hx => computes_of_spec fun ρ => rotateLeft_spec h (.wordOf hx) amount
  case rotateRight =>
    exact fun amount x w hx => computes_of_spec fun ρ => rotateRight_spec h (.wordOf hx) amount

lemma predicates_exact : PredicatesExact s := by
  have h := hs.ok
  constructor
  case ult => exact fun w x y hx hy => decides_of_spec fun ρ => bvult_spec h (.wordOf hx) (.wordOf hy)
  case ule => exact fun w x y hx hy => decides_of_spec fun ρ => bvule_spec h (.wordOf hx) (.wordOf hy)
  case ugt => exact fun w x y hx hy => decides_of_spec fun ρ => bvult_spec h (.wordOf hy) (.wordOf hx)
  case uge => exact fun w x y hx hy => decides_of_spec fun ρ => bvule_spec h (.wordOf hy) (.wordOf hx)
  case slt => exact fun w x y hx hy => decides_of_spec fun ρ => bvslt_spec h (.wordOf hx) (.wordOf hy)
  case sle => exact fun w x y hx hy => decides_of_spec fun ρ => bvsle_spec h (.wordOf hx) (.wordOf hy)
  case sgt => exact fun w x y hx hy => decides_of_spec fun ρ => bvslt_spec h (.wordOf hy) (.wordOf hx)
  case sge => exact fun w x y hx hy => decides_of_spec fun ρ => bvsle_spec h (.wordOf hy) (.wordOf hx)
  case nego => exact fun x w hx => decides_of_spec fun ρ => bvnego_spec h (.wordOf hx)
  case uaddo =>
    exact fun w x y hx hy => decides_of_spec fun ρ => bvuaddo_spec h (.wordOf hx) (.wordOf hy)
  case saddo =>
    exact fun w x y hx hy => decides_of_spec fun ρ => bvsaddo_spec h (.wordOf hx) (.wordOf hy)
  case usubo =>
    exact fun w x y hx hy => decides_of_spec fun ρ => bvusubo_spec h (.wordOf hx) (.wordOf hy)
  case ssubo =>
    exact fun w x y hx hy => decides_of_spec fun ρ => bvssubo_spec h (.wordOf hx) (.wordOf hy)
  case sdivo =>
    exact fun w x y hx hy => decides_of_spec fun ρ => bvsdivo_spec h (.wordOf hx) (.wordOf hy)
  case umulo =>
    exact fun w hlimit x y hx hy => decides_of_spec fun ρ =>
      bvumulo_spec h (.wordOf hx) (.wordOf hy) hlimit
  case smulo =>
    exact fun w hlimit x y hx hy => decides_of_spec fun ρ =>
      bvsmulo_spec h (.wordOf hx) (.wordOf hy) hlimit

variable (hroom : s.sorts.length < maxIndex)
include hroom

lemma structure_exact : StructureExact s := by
  have h := hs.ok
  constructor
  case concat =>
    exact fun x y m n hx hy hmax => computes_of_spec fun ρ =>
      concat_spec h hroom (.wordOf hx) (.wordOf hy) hmax
  case extract =>
    exact fun x w high low hx hle hlt => computes_of_spec fun ρ =>
      extract_spec h hroom (.wordOf hx) hle hlt
  case repeatWord =>
    exact fun x w count hx hpos hmax => computes_of_spec fun ρ =>
      repeatWord_spec h hroom (.wordOf hx) hpos hmax
  case zeroExtend =>
    exact fun x w amount hx hmax => computes_of_spec fun ρ =>
      zeroExtend_spec h hroom (.wordOf hx) hmax
  case signExtend =>
    exact fun x w amount hx hmax => computes_of_spec fun ρ =>
      signExtend_spec h hroom (.wordOf hx) hmax
  case comp =>
    exact fun x y w depth hx hy => computes_of_spec fun ρ =>
      bvcomp_spec h (.wordOf hx) (.wordOf hy) hroom depth

lemma literals_exact : LiteralsExact s := by
  have h := hs.ok
  constructor
  case binary =>
    exact fun digits hne hd hmax => computes_of_spec fun ρ =>
      bitvecFromBinary_spec h hroom hne hd hmax
  case hexadecimal =>
    exact fun digits hne hd hmax => computes_of_spec fun ρ =>
      bitvecFromHexadecimal_spec h hroom hne hd hmax
  case decimal =>
    exact fun digits w hd hpos hmax hfit => computes_of_spec fun ρ =>
      bitvecFromDecimal_spec hd hpos hmax h hroom hfit
  case rejected =>
    exact fun digits w hd hpos hmax hfit => bitvecFromDecimal_rejected hd hpos hmax hfit s

omit hroom in
/-- Every other operator is exact.  An operator whose result has a new width needs room for its
sort, and multiplication is limited in its work. -/
theorem operators_exact : WordsExact s ∧ PredicatesExact s ∧
    (s.sorts.length < maxIndex → StructureExact s ∧ LiteralsExact s) :=
  ⟨words_exact hs, predicates_exact hs, fun hroom =>
    ⟨structure_exact hs hroom, literals_exact hs hroom⟩⟩

end

/-- Two words of width one. -/
def twoBits : TermStore :=
  ((Operation.freshTerm (.bitVec 1)).run 0 ((Operation.freshTerm (.bitVec 1)).run 0 .new).2).2

lemma reachable_twoBits : Reachable twoBits := .step _ _ (.step _ _ (.refl _))

lemma isWord_twoBits : twoBits.IsWord 3 1 ∧ twoBits.IsWord 5 1 := by
  unfold TermStore.IsWord
  decide

theorem division_exact_twoBits :
    twoBits.Computes (bvsmod 3 5) fun ρ => (twoBits.wordOf ρ 3 1).smod (twoBits.wordOf ρ 5 1) :=
  (division_exact reachable_twoBits isWord_twoBits.1 isWord_twoBits.2 (by decide)).2.2.2.2

theorem operators_exact_twoBits :
    (twoBits.Decides (bvslt 3 5) fun ρ => (twoBits.wordOf ρ 3 1).slt (twoBits.wordOf ρ 5 1)) ∧
      twoBits.Computes (concat 3 5) fun ρ => twoBits.wordOf ρ 3 1 ++ twoBits.wordOf ρ 5 1 := by
  obtain ⟨-, hpredicates, hnew⟩ := operators_exact reachable_twoBits
  obtain ⟨hx, hy⟩ := isWord_twoBits
  exact ⟨hpredicates.slt 1 3 5 hx hy, (hnew (by decide)).1.concat 3 5 1 1 hx hy (by decide)⟩

end Satrap.Smt
