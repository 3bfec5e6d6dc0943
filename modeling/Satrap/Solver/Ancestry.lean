/-
# Derivation ancestries

A learned clause carries a sample of the pivots its derivation resolves on, and one bit that says
that a pivot has been met again.  The sample has four slots, ordered by a mixed rank of the
variable; it is shown to hold the four smallest pivots of the whole derivation, whatever the shape
of the derivation is.
-/
import Mathlib.Data.Fintype.Prod
import Satrap.Logic.Sketch

namespace Satrap

open Logic

/-! ### Ranks -/

/-- `pivot_rank`. -/
def pivotRank (pivot : ℕ) : BitVec 64 :=
  let value := BitVec.ofNat 64 pivot + 0x9e3779b97f4a7c15#64
  let value := (value ^^^ (value >>> 30)) * 0xbf58476d1ce4e5b9#64
  let value := (value ^^^ (value >>> 27)) * 0x94d049bb133111eb#64
  value ^^^ (value >>> 31)

/-- `compare_pivot_rank`. -/
def comparePivotRank (left right : ℕ) : Ordering :=
  (compare (pivotRank left).toNat (pivotRank right).toNat).then (compare left right)

/-- The first pivot comes before the second one in the order of the ranks. -/
def Precedes (left right : ℕ) : Prop := comparePivotRank left right = .lt

instance : DecidableRel Precedes := fun _ _ => inferInstanceAs (Decidable (_ = _))

lemma precedes_iff {a b : ℕ} : Precedes a b ↔ (pivotRank a).toNat < (pivotRank b).toNat ∨
    (pivotRank a).toNat = (pivotRank b).toNat ∧ a < b := by
  rw [Precedes, comparePivotRank, Ordering.then_eq_lt, Nat.compare_eq_lt, Nat.compare_eq_eq,
    Nat.compare_eq_lt]

instance : IsStrictTotalOrder ℕ Precedes where
  trichotomous a b hab hba := by
    rw [precedes_iff] at hab hba
    omega
  irrefl a h := by
    rw [precedes_iff] at h
    omega
  trans a b c hab hbc := by
    rw [precedes_iff] at hab hbc ⊢
    omega

/-! ### The sample -/

/-- `PIVOT_SAMPLE_CAPACITY`. -/
def pivotSampleCapacity : ℕ := 4

/-- `EMPTY_PIVOT_SAMPLE_SLOT`. -/
def emptyPivotSampleSlot : ℕ := 2 ^ 32 - 1

/-- `PIVOT_SAMPLE_COUNT_MASK`. -/
def pivotSampleCountMask : BitVec 8 := 0x07#8

/-- `NONREGULAR_DERIVATION_BIT`. -/
def nonregularDerivationBit : BitVec 8 := 0x80#8

/-- `DerivationAncestry`: the slots of the sample, and in one byte the number of those in use and
the mark of a repeated pivot. -/
structure DerivationAncestry where
  sample : ℕ → ℕ
  state : BitVec 8

namespace DerivationAncestry

/-- `empty`. -/
def empty : DerivationAncestry := ⟨fun _ => emptyPivotSampleSlot, 0⟩

/-- `sample_len`. -/
def sampleLen (a : DerivationAncestry) : ℕ := (a.state &&& pivotSampleCountMask).toNat

/-- `is_nonregular`. -/
def isNonregular (a : DerivationAncestry) : Bool := a.state &&& nonregularDerivationBit != 0

/-- `set_nonregular`. -/
def setNonregular (a : DerivationAncestry) : DerivationAncestry :=
  { a with state := a.state ||| nonregularDerivationBit }

/-- `set_sample_len`. -/
def setSampleLen (a : DerivationAncestry) (length : ℕ) : DerivationAncestry :=
  { a with state := (a.state &&& ~~~pivotSampleCountMask) ||| BitVec.ofNat 8 length }

/-- The slots in use: `sample[..sample_len]`. -/
def sampled (a : DerivationAncestry) : List ℕ := (List.range a.sampleLen).map a.sample

/-- `contains`. -/
def contains (a : DerivationAncestry) (pivot : ℕ) : Bool := decide (pivot ∈ a.sampled)

/-- The loop that moves the slots from `insertion` on one further. -/
def shift (insertion newLength : ℕ) (sample : ℕ → ℕ) : ℕ → ℕ :=
  (List.range' (insertion + 1) (newLength - (insertion + 1))).reverse.foldl
    (fun sample index => Function.update sample index (sample (index - 1))) sample

/-- `insert`. -/
def insert (a : DerivationAncestry) (pivot : ℕ) : DerivationAncestry :=
  if a.contains pivot then a
  else
    let insertion := a.sampled.findIdx fun sampled => decide (comparePivotRank pivot sampled = .lt)
    if insertion = pivotSampleCapacity then a
    else
      let newLength := min (a.sampleLen + 1) pivotSampleCapacity
      { a with sample := Function.update (shift insertion newLength a.sample) insertion pivot
        }.setSampleLen newLength

/-- `merge`. -/
def merge (a other : DerivationAncestry) : DerivationAncestry := other.sampled.foldl insert a

/-- `resolve_with`: whether the pivot is found to be repeated, and the ancestry of the
resolvent. -/
def resolveWith (a : DerivationAncestry) (pivot : ℕ) (parent : DerivationAncestry) :
    Bool × DerivationAncestry :=
  let repeated := a.contains pivot || parent.contains pivot
  let a := if parent.isNonregular || repeated then a.setNonregular else a
  (repeated, (a.merge parent).insert pivot)

/-! ### The state byte -/

variable {a parent : DerivationAncestry} {pivot : ℕ}

lemma sampleLen_setSampleLen {length : ℕ} (h : length ≤ pivotSampleCapacity) :
    (a.setSampleLen length).sampleLen = length := by
  have hmask (state : BitVec 8) : ∀ n < 5,
      (((state &&& ~~~pivotSampleCountMask) ||| BitVec.ofNat 8 n) &&& pivotSampleCountMask).toNat =
        n := by
    revert state
    decide +kernel
  exact hmask a.state length (Nat.lt_succ_of_le h)

lemma isNonregular_setSampleLen {length : ℕ} (h : length ≤ pivotSampleCapacity) :
    (a.setSampleLen length).isNonregular = a.isNonregular := by
  have hmask (state : BitVec 8) : ∀ n < 5,
      (((state &&& ~~~pivotSampleCountMask) ||| BitVec.ofNat 8 n) &&& nonregularDerivationBit != 0) =
        (state &&& nonregularDerivationBit != 0) := by
    revert state
    decide +kernel
  exact hmask a.state length (Nat.lt_succ_of_le h)

@[simp] lemma sampled_setNonregular (a : DerivationAncestry) :
    a.setNonregular.sampled = a.sampled := by
  have hmask (state : BitVec 8) : (state ||| nonregularDerivationBit) &&& pivotSampleCountMask =
      state &&& pivotSampleCountMask := by
    revert state
    decide +kernel
  rw [sampled, sampleLen, setNonregular, hmask]
  rfl

/-! ### Insertion -/

lemma shift_foldl (lo count : ℕ) (sample : ℕ → ℕ) (hlo : 0 < lo) (i : ℕ) :
    (List.range' lo count).reverse.foldl
      (fun sample index => Function.update sample index (sample (index - 1))) sample i =
      if lo ≤ i ∧ i < lo + count then sample (i - 1) else sample i := by
  induction count generalizing sample with
  | zero => rw [if_neg (by omega)]; rfl
  | succ count ih =>
    rw [List.range'_concat, List.reverse_append, List.reverse_singleton, List.singleton_append,
      List.foldl_cons, ih, one_mul]
    by_cases hi : i = lo + count
    · rw [if_neg (by omega), if_pos (by omega), hi, Function.update_self]
    · rw [Function.update_of_ne hi]
      split
      · next hin => rw [if_pos (by omega), Function.update_of_ne (by omega)]
      · next hout => rw [if_neg (by omega)]

/-- The loop moves a slot only within the slots in use. -/
lemma shift_apply (insertion newLength : ℕ) (sample : ℕ → ℕ) (i : ℕ) :
    shift insertion newLength sample i =
      if insertion < i ∧ i < newLength then sample (i - 1) else sample i := by
  rw [shift, shift_foldl _ _ _ (Nat.succ_pos insertion)]
  by_cases hi : insertion < i ∧ i < newLength
  · rw [if_pos hi, if_pos (by omega)]
  · rw [if_neg hi, if_neg (by omega)]

lemma length_sampled : a.sampled.length = a.sampleLen := by
  rw [sampled, List.length_map, List.length_range]

lemma getElem?_sampled (a : DerivationAncestry) (i : ℕ) :
    a.sampled[i]? = if i < a.sampleLen then some (a.sample i) else none := by
  rw [sampled, List.getElem?_map]
  by_cases hi : i < a.sampleLen
  · rw [List.getElem?_range hi, if_pos hi]
    rfl
  · rw [List.getElem?_eq_none (by simpa using hi), if_neg hi]
    rfl

/-- The slots that are not in use are empty, and there are no more than four of them in use. -/
structure Ok (a : DerivationAncestry) : Prop where
  short : a.sampleLen ≤ pivotSampleCapacity
  free : ∀ i ≥ a.sampleLen, a.sample i = emptyPivotSampleSlot

lemma Ok.empty : empty.Ok := ⟨by decide, fun _ _ => rfl⟩

/-- `insert` keeps the four smallest of the pivots in use and the new one. -/
lemma Ok.insert (h : a.Ok) (pivot : ℕ) : (a.insert pivot).Ok ∧
    (a.insert pivot).sampled = insertSmallest Precedes pivotSampleCapacity a.sampled pivot ∧
      (a.insert pivot).isNonregular = a.isNonregular := by
  have hcontains : a.contains pivot = true ↔ pivot ∈ a.sampled := decide_eq_true_iff
  rw [DerivationAncestry.insert, insertSmallest]
  by_cases hmem : pivot ∈ a.sampled
  · rw [if_pos (hcontains.2 hmem), if_pos hmem]
    exact ⟨h, rfl, rfl⟩
  rw [if_neg (mt hcontains.1 hmem), if_neg hmem]
  have hle : (a.sampled.findIdx fun sampled => decide (comparePivotRank pivot sampled = .lt)) ≤
      a.sampled.length := List.findIdx_le_length
  have hsame : (a.sampled.findIdx fun sampled => decide (Precedes pivot sampled)) =
      a.sampled.findIdx fun sampled => decide (comparePivotRank pivot sampled = .lt) := rfl
  rw [hsame]
  dsimp only
  generalize a.sampled.findIdx (fun sampled => decide (comparePivotRank pivot sampled = .lt)) =
    insertion at hle
  rw [length_sampled] at hle
  have hshort := h.short
  split
  · -- every slot is in use, for a pivot that precedes the new one
    next hfull =>
    refine ⟨h, ?_, rfl⟩
    ext1 i
    rw [getElem?_sampled, List.getElem?_take, List.getElem?_insertIdx, getElem?_sampled]
    by_cases hi : i < pivotSampleCapacity
    · have hlt : i < insertion := by omega
      rw [if_pos hi, if_pos hlt]
    · rw [if_neg hi, if_neg (by omega)]
  next hroom =>
  have hlength : min (a.sampleLen + 1) pivotSampleCapacity ≤ pivotSampleCapacity :=
    Nat.min_le_right _ _
  have hnew : insertion < min (a.sampleLen + 1) pivotSampleCapacity := by omega
  refine ⟨⟨?_, fun i hi => ?_⟩, ?_, isNonregular_setSampleLen hlength⟩
  · rw [sampleLen_setSampleLen hlength]
    exact hlength
  · rw [sampleLen_setSampleLen hlength] at hi
    rw [setSampleLen]
    dsimp only
    rw [Function.update_of_ne (by omega), shift_apply, if_neg (by omega)]
    exact h.free i (by omega)
  · ext1 i
    rw [getElem?_sampled, sampleLen_setSampleLen hlength, List.getElem?_take,
      List.getElem?_insertIdx, getElem?_sampled, getElem?_sampled, length_sampled, setSampleLen]
    dsimp only
    rw [Function.update_apply, shift_apply]
    by_cases hi : i < min (a.sampleLen + 1) pivotSampleCapacity
    · have hcapacity : i < pivotSampleCapacity := by omega
      rcases lt_trichotomy i insertion with hlt | heq | hgt
      · -- before the new pivot nothing moves
        have hin : i < a.sampleLen := by omega
        simp [hi, hcapacity, hlt, hlt.ne, hlt.not_gt, hin]
      · subst heq
        simp [hi, hcapacity, hle]
      · have hin : i - 1 < a.sampleLen := by omega
        simp [hi, hcapacity, hgt, hgt.ne', hgt.not_gt, hin]
    · rw [if_neg hi]
      split
      · next hcapacity =>
        have hout : ¬ i - 1 < a.sampleLen := by omega
        rw [if_neg (by omega), if_neg (by omega), if_neg hout]
      · rfl

/-! ### Merging -/

lemma Ok.foldl_insert (h : a.Ok) (pivots : List ℕ) : (pivots.foldl DerivationAncestry.insert a).Ok ∧
    (pivots.foldl DerivationAncestry.insert a).sampled =
        pivots.foldl (insertSmallest Precedes pivotSampleCapacity) a.sampled ∧
      (pivots.foldl DerivationAncestry.insert a).isNonregular = a.isNonregular := by
  induction pivots generalizing a with
  | nil => exact ⟨h, rfl, rfl⟩
  | cons pivot rest ih =>
    obtain ⟨hok, hsampled, hsame⟩ := h.insert pivot
    rw [List.foldl_cons, List.foldl_cons, ← hsampled, ← hsame]
    exact ih hok

lemma Ok.setNonregular (h : a.Ok) : a.setNonregular.Ok := by
  have hlength : a.setNonregular.sampleLen = a.sampleLen := by
    rw [← length_sampled, sampled_setNonregular, length_sampled]
  exact ⟨hlength ▸ h.short, fun i hi => h.free i (hlength ▸ hi)⟩

end DerivationAncestry

/-! ### Derivations -/

/-- What is recorded of a derivation: a pivot, another derivation, or a resolution step with the
derivation of the other premise. -/
inductive Derivation where
  | empty
  | insert (derivation : Derivation) (pivot : ℕ)
  | merge (derivation other : Derivation)
  | resolve (derivation : Derivation) (pivot : ℕ) (parent : Derivation)

namespace Derivation

/-- The ancestry that the operations record. -/
def ancestry : Derivation → DerivationAncestry
  | empty => .empty
  | insert derivation pivot => derivation.ancestry.insert pivot
  | merge derivation other => derivation.ancestry.merge other.ancestry
  | resolve derivation pivot parent => (derivation.ancestry.resolveWith pivot parent.ancestry).2

/-- All pivots of a derivation. -/
def pivots : Derivation → Set ℕ
  | empty => ∅
  | insert derivation pivot => Insert.insert pivot derivation.pivots
  | merge derivation other => derivation.pivots ∪ other.pivots
  | resolve derivation pivot parent => Insert.insert pivot (derivation.pivots ∪ parent.pivots)

/-- A step of the derivation resolves on a pivot of one of its two premises. -/
def Repeats : Derivation → Prop
  | empty => False
  | insert derivation _ => derivation.Repeats
  | merge derivation other => derivation.Repeats ∨ other.Repeats
  | resolve derivation pivot parent =>
    (pivot ∈ derivation.pivots ∨ pivot ∈ parent.pivots) ∨ derivation.Repeats ∨ parent.Repeats

/-- What holds of the ancestry of a derivation. -/
structure Recorded (derivation : Derivation) (a : DerivationAncestry) : Prop where
  ok : a.Ok
  sample : Smallest Precedes pivotSampleCapacity derivation.pivots a.sampled
  regular : a.isNonregular = true → derivation.Repeats

variable {derivation other parent : Derivation} {a b : DerivationAncestry}

lemma Recorded.insert (h : derivation.Recorded a) (pivot : ℕ) :
    (derivation.insert pivot).Recorded (a.insert pivot) := by
  obtain ⟨hok, hsampled, hsame⟩ := h.ok.insert pivot
  refine ⟨hok, ?_, fun hn => h.regular (hsame ▸ hn)⟩
  rw [hsampled]
  exact h.sample.insert pivot

lemma Recorded.merge (h : derivation.Recorded a) (h' : other.Recorded b) :
    (derivation.merge other).Recorded (a.merge b) := by
  obtain ⟨hok, hsampled, hsame⟩ := h.ok.foldl_insert b.sampled
  refine ⟨hok, ?_, fun hn => .inl (h.regular (hsame ▸ hn))⟩
  rw [DerivationAncestry.merge, hsampled]
  exact h.sample.merge h'.sample

/-- The mark is set only for a pivot that is still in one of the samples, or for a parent that
carries it. -/
lemma Recorded.resolve (h : derivation.Recorded a) (h' : parent.Recorded b) (pivot : ℕ) :
    (derivation.resolve pivot parent).Recorded (a.resolveWith pivot b).2 := by
  rw [DerivationAncestry.resolveWith]
  dsimp only
  split
  · next hmark =>
    have hrepeats : (derivation.resolve pivot parent).Repeats := by
      rcases Bool.or_eq_true_iff.1 hmark with hparent | hrepeated
      · exact .inr (.inr (h'.regular hparent))
      · rcases Bool.or_eq_true_iff.1 hrepeated with hin | hin
        · exact .inl (.inl (h.sample.mem pivot (of_decide_eq_true hin)))
        · exact .inl (.inr (h'.sample.mem pivot (of_decide_eq_true hin)))
    obtain ⟨hok, hsampled, -⟩ := h.ok.setNonregular.foldl_insert b.sampled
    obtain ⟨hok', hsampled', -⟩ := hok.insert pivot
    refine ⟨hok', ?_, fun _ => hrepeats⟩
    rw [DerivationAncestry.merge, hsampled', hsampled, DerivationAncestry.sampled_setNonregular]
    exact (h.sample.merge h'.sample).insert pivot
  · next hunmarked =>
    obtain ⟨hok, hsampled, hregular⟩ := (h.merge h').insert pivot
    refine ⟨hok, hsampled, fun hn => ?_⟩
    rcases hregular hn with hrepeats | hrepeats
    · exact .inr (.inl hrepeats)
    · exact .inr (.inr hrepeats)

/-- **The sample is exact.**  Whatever the shape of a derivation, the sample holds the smallest of
all its pivots, up to four of them in order, the other slots are empty, and the mark is set only
if some step resolves on a pivot of one of its premises. -/
theorem recorded_ancestry (derivation : Derivation) : derivation.Recorded derivation.ancestry := by
  induction derivation with
  | empty =>
    have hregular : DerivationAncestry.empty.isNonregular = false := by decide
    exact ⟨.empty, .nil, fun hn => absurd (hregular ▸ hn) Bool.false_ne_true⟩
  | insert derivation pivot ih => exact ih.insert pivot
  | merge derivation other ih ih' => exact ih.merge ih'
  | resolve derivation pivot parent ih ih' => exact ih.resolve ih' pivot

/-- The sample of eight pivots. -/
example : ((List.range 8).foldl DerivationAncestry.insert .empty).sampled = [3, 5, 7, 4] := by
  decide +kernel

end Derivation

end Satrap
