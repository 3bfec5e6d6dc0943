/-
# Bitwise and structural operators

The operators that combine words bit by bit, and those that cut, join, widen and rotate them.
-/
import Satrap.Smt.Modular
import Satrap.Smt.Shifting
import Mathlib.Data.Nat.ModEq

namespace Satrap.Smt

open Logic TermStore TermM Bits

variable {s : TermStore} {x y : TermId} {ρ : SymbolId → Bool} {w m n : ℕ} {v v' : BitVec w}
  {bits : List TermId}

/-! ### Bitwise operators -/

namespace Bitwise

/-- The operation on words. -/
def onWord : Bitwise → BitVec w → BitVec w → BitVec w
  | and, v, v' => v &&& v'
  | or, v, v' => v ||| v'
  | xor, v, v' => v ^^^ v'

/-- The operation on truth values. -/
def onBool : Bitwise → Bool → Bool → Bool
  | and, a, b => a && b
  | or, a, b => a || b
  | xor, a, b => a ^^ b

lemma getLsbD_onWord (operation : Bitwise) (v v' : BitVec w) (i : ℕ) :
    (operation.onWord v v').getLsbD i = operation.onBool (v.getLsbD i) (v'.getLsbD i) := by
  cases operation with
  | and => exact BitVec.getLsbD_and
  | or => exact BitVec.getLsbD_or
  | xor => exact BitVec.getLsbD_xor

end Bitwise

section

variable (h : s.Ok)
include h

lemma onBits_spec (operation : Bitwise) {t u : TermId} {a b : Bool} (ht : s.Means ρ t a)
    (hu : s.Means ρ u b) :
    Spec True (operation.onBits t u) s fun r s' => s'.Means ρ r (operation.onBool a b) := by
  cases operation with
  | and => exact mkAnd_pair h ht hu
  | or => exact mkOr_pair h ht hu
  | xor => exact mkXor_means h ht hu

lemma bvnot_spec (hx : s.Denotes ρ x v) :
    Spec True (bvnot x) s fun r s' => s'.Denotes ρ r (~~~v) := by
  refine .bind (bitvecBits_denotes h hx) ?_
  rintro bits _ - - ⟨rfl, -, hbits⟩
  obtain ⟨xs, hxs, hlx, hb⟩ := hbits.bits
  refine .bind (collect_mkNot h hxs) fun inverted s₁ he₁ h₁ hinv => ?_
  refine makeBitvec_same h₁ (hx.later ⟨h, h₁, he₁⟩) (.of_bits hinv (by simpa using hlx) ?_)
  intro i hi
  have hi' : i < xs.length := hlx.symm ▸ hi
  have hbit := hb i
  rw [List.getD_eq_getElem?_getD, List.getElem?_eq_getElem hi', Option.getD_some] at hbit
  rw [BitVec.getLsbD_not, decide_eq_true hi, Bool.true_and, ← hbit, List.getD_eq_getElem?_getD,
    List.getElem?_map, List.getElem?_eq_getElem hi', Option.map_some, Option.getD_some]

/-- `bvand`, `bvor` and `bvxor`. -/
lemma foldBitwise_spec (operation : Bitwise) (hx : s.Denotes ρ x v) {terms : List TermId}
    (hne : terms ≠ []) (hterms : ∀ t ∈ terms, s.sort? t = some (.bitVec w)) :
    Spec True (foldBitwise (x :: terms) operation) s fun r s' =>
      s'.Denotes ρ r ((terms.map fun t => s.wordOf ρ t w).foldl operation.onWord v) := by
  obtain ⟨y, rest, rfl⟩ := List.exists_cons_of_ne_nil hne
  refine .bind (bitvecWidth_spec h fun _ => ⟨w, hx.1⟩) ?_
  rintro width _ - - ⟨rfl, hwidth⟩
  rw [hx.1, Option.some.injEq, SmtSort.bitVec.injEq] at hwidth
  subst hwidth
  refine .bind (bitvecBits_denotes h hx) ?_
  rintro bits _ - - ⟨rfl, -, hbits⟩
  refine .bind (foldWords h
    (fun l r => collect (fun pair => operation.onBits pair.1 pair.2) (l.zip r)) ?_ (y :: rest)
    hterms hbits) fun result s₁ he₁ h₁ hr => makeBitvec_same h₁ (hx.later ⟨h, h₁, he₁⟩) hr
  intro s' left right v v' hs' hl hr
  obtain ⟨xs, hxs, hlx, hbx⟩ := hl.bits
  obtain ⟨ys, hys, hly, hby⟩ := hr.bits
  refine (collect_pairs hs'.after hxs hys fun s'' t u a b hs'' ha hb =>
    onBits_spec hs''.after operation ha hb).weaken fun r s'' _ _ hr => ?_
  refine .of_bits hr (by simp [hlx, hly]) fun i hi => ?_
  have hix : i < xs.length := hlx.symm ▸ hi
  have hiy : i < ys.length := hly.symm ▸ hi
  rw [operation.getLsbD_onWord, ← hbx, ← hby, List.getD_eq_getElem?_getD, List.getElem?_zipWith,
    List.getD_eq_getElem?_getD, List.getD_eq_getElem?_getD, List.getElem?_eq_getElem hix,
    List.getElem?_eq_getElem hiy]
  rfl

/-- `bvnand`, `bvnor` and `bvxnor`. -/
lemma not_foldBitwise_spec (operation : Bitwise) (hx : s.Denotes ρ x v)
    (hy : s.Denotes ρ y v') :
    Spec True (do bvnot (← foldBitwise [x, y] operation)) s fun r s' =>
      s'.Denotes ρ r (~~~operation.onWord v v') := by
  refine .bind (foldBitwise_spec h operation hx (by simp) (by simpa using hy.1))
    fun r s₁ he₁ h₁ hr => ?_
  have hr' : s₁.Denotes ρ r (operation.onWord v v') := by
    simpa [hy.2] using hr
  exact bvnot_spec h₁ hr'

/-! ### Joining and cutting -/

omit h in
/-- A repeated list, read cyclically. -/
lemma getD_flatten_replicate {xs : List Bool} : ∀ (count i : ℕ), i < xs.length * count →
    (List.replicate count xs).flatten.getD i false = xs.getD (i % xs.length) false
  | 0, i, hi => by omega
  | count + 1, i, hi => by
    rw [List.replicate_succ, List.flatten_cons]
    rcases lt_or_ge i xs.length with hlt | hge
    · rw [List.getD_append _ _ _ _ hlt, Nat.mod_eq_of_lt hlt]
    · rw [List.getD_append_right _ _ _ _ hge, getD_flatten_replicate count (i - xs.length),
        ← Nat.mod_eq_sub_mod hge]
      rw [Nat.mul_succ] at hi
      omega

omit h in
/-- There is room for a word of an allowed width. -/
lemma Room.of_room (hpos : 0 < w) (hmax : w ≤ maxBitvectorWidth)
    (hroom : s.sorts.length < maxIndex) : Room s w := by
  refine ⟨hpos, hmax.trans_lt ?_, .inr hroom⟩
  rw [maxBitvectorWidth, maxIndex]
  omega

/-- The checks before a word of a new width. -/
lemma checkNewWidth {α : Type} {f : TermM α} {Q : α → TermStore → Prop} {width : ℕ}
    {message : String} (hpos : 0 < width) (hmax : width ≤ maxBitvectorWidth)
    (hf : Spec True f s Q) :
    Spec True (do
      checkIndex width message
      checkWidth width
      f) s Q := by
  have hindex : width < maxIndex := hmax.trans_lt (by rw [maxBitvectorWidth, maxIndex]; omega)
  refine .bind (checkIndex_spec h fun _ => hindex) ?_
  rintro _ _ - - ⟨rfl, -⟩
  refine .bind (checkWidth_spec h fun _ => ⟨hpos, hmax⟩) ?_
  rintro _ _ - - ⟨rfl, -⟩
  exact hf

lemma bitvecWidth_denotes (hx : s.Denotes ρ x v) :
    Spec True (bitvecWidth x) s fun width s' => s = s' ∧ width = w := by
  refine (bitvecWidth_spec h fun _ => ⟨w, hx.1⟩).weaken ?_
  rintro width _ - - ⟨rfl, hwidth⟩
  rw [hx.1, Option.some.injEq, SmtSort.bitVec.injEq] at hwidth
  exact ⟨rfl, hwidth.symm⟩

variable (hroom : s.sorts.length < maxIndex)
include hroom

lemma concat_spec {v : BitVec m} {v' : BitVec n} (hx : s.Denotes ρ x v) (hy : s.Denotes ρ y v')
    (hmax : m + n ≤ maxBitvectorWidth) :
    Spec True (concat x y) s fun r s' => s'.Denotes ρ r (v ++ v') := by
  have hpos := (Room.of_denotes h hx).1
  refine .bind (bitvecWidth_denotes h hx) ?_
  rintro _ _ - - ⟨rfl, rfl⟩
  refine .bind (bitvecWidth_denotes h hy) ?_
  rintro _ _ - - ⟨rfl, rfl⟩
  refine checkNewWidth h (by omega) hmax ?_
  refine .bind (bitvecBits_denotes h hy) ?_
  rintro low _ - - ⟨rfl, -, hlow⟩
  refine .bind (bitvecBits_denotes h hx) ?_
  rintro high _ - - ⟨rfl, -, hhigh⟩
  obtain ⟨xs, hxs, hlx, hbx⟩ := hhigh.bits
  obtain ⟨ys, hys, hly, hby⟩ := hlow.bits
  refine makeBitvec_denotes h (.of_bits (hys.append hxs) (by simp [hlx, hly, Nat.add_comm]) ?_)
    (.of_room (by omega) hmax hroom)
  intro i hi
  rw [BitVec.getLsbD_append]
  split
  · next hlt => rw [List.getD_append _ _ _ _ (hly ▸ hlt), hby]
  · next hge => rw [List.getD_append_right _ _ _ _ (by omega), hly, hbx]

lemma extract_spec (hx : s.Denotes ρ x v) {high low : ℕ} (hle : low ≤ high) (hlt : high < w) :
    Spec True (extract x high low) s fun r s' => s'.Denotes ρ r (v.extractLsb high low) := by
  refine .bind (bitvecWidth_denotes h hx) ?_
  rintro _ _ - - ⟨rfl, rfl⟩
  rw [if_neg (by omega)]
  refine .bind (bitvecBits_denotes h hx) ?_
  rintro bits _ - - ⟨rfl, -, hbits⟩
  obtain ⟨xs, hxs, hlx, hbx⟩ := hbits.bits
  have hwidth := (Room.of_denotes h hx).2.1
  refine makeBitvec_denotes h (.of_bits ((hxs.take (high + 1)).drop low) ?_ ?_)
    ⟨by omega, by omega, .inr hroom⟩
  · rw [List.length_drop, List.length_take, min_eq_left (by omega)]
    omega
  · intro i hi
    rw [BitVec.getLsbD_extractLsb, decide_eq_true hi, Bool.true_and, ← hbx,
      List.getD_eq_getElem?_getD, List.getElem?_drop, List.getElem?_take_of_lt (by omega),
      List.getD_eq_getElem?_getD]

lemma repeatWord_spec (hx : s.Denotes ρ x v) {count : ℕ} (hpos : 0 < count)
    (hmax : w * count ≤ maxBitvectorWidth) :
    Spec True (repeatWord x count) s fun r s' => s'.Denotes ρ r (v.replicate count) := by
  have hw := (Room.of_denotes h hx).1
  rw [repeatWord, if_neg hpos.ne']
  refine .bind (bitvecWidth_denotes h hx) ?_
  rintro _ _ - - ⟨rfl, rfl⟩
  refine checkNewWidth h (Nat.mul_pos hw hpos) hmax ?_
  refine .bind (bitvecBits_denotes h hx) ?_
  rintro bits _ - - ⟨rfl, -, hbits⟩
  obtain ⟨xs, hxs, hlx, hbx⟩ := hbits.bits
  have hread : ∀ k, s.Reads ρ (List.replicate k bits).flatten (List.replicate k xs).flatten := by
    intro k
    induction k with
    | zero => exact .nil
    | succ k ih =>
      rw [List.replicate_succ, List.replicate_succ, List.flatten_cons, List.flatten_cons]
      exact hxs.append ih
  refine makeBitvec_denotes h (.of_bits (hread count) (by simp [hlx, Nat.mul_comm]) ?_)
    (.of_room (Nat.mul_pos hw hpos) hmax hroom)
  intro i hi
  rw [BitVec.getLsbD_replicate, decide_eq_true hi, Bool.true_and, ← hbx, ← hlx]
  exact getD_flatten_replicate count i (hlx.symm ▸ hi)

lemma zeroExtend_spec (hx : s.Denotes ρ x v) {amount : ℕ}
    (hmax : w + amount ≤ maxBitvectorWidth) :
    Spec True (zeroExtend x amount) s fun r s' => s'.Denotes ρ r (v.setWidth (w + amount)) := by
  have hw := (Room.of_denotes h hx).1
  refine .bind (bitvecWidth_denotes h hx) ?_
  rintro _ _ - - ⟨rfl, rfl⟩
  refine checkNewWidth h (by omega) hmax ?_
  refine .bind (bitvecBits_denotes h hx) ?_
  rintro bits _ - - ⟨rfl, -, hbits⟩
  obtain ⟨xs, hxs, hlx, hbx⟩ := hbits.bits
  refine makeBitvec_denotes h (.of_bits (resize_reads hxs (.constant h false) (by omega))
    (by simp; omega) ?_) (.of_room (by omega) hmax hroom)
  intro i hi
  rw [BitVec.getLsbD_setWidth, decide_eq_true hi, Bool.true_and]
  rcases lt_or_ge i xs.length with hlt | hge
  · rw [List.getD_append _ _ _ _ hlt, hbx]
  · rw [List.getD_append_right _ _ _ _ hge, List.getD_replicate _ (by omega),
      BitVec.getLsbD_of_ge _ _ (by omega)]

lemma signExtend_spec (hx : s.Denotes ρ x v) {amount : ℕ}
    (hmax : w + amount ≤ maxBitvectorWidth) :
    Spec True (signExtend x amount) s fun r s' => s'.Denotes ρ r (v.signExtend (w + amount)) := by
  have hw := (Room.of_denotes h hx).1
  refine .bind (bitvecWidth_denotes h hx) ?_
  rintro width _ - - ⟨rfl, rfl⟩
  refine checkNewWidth h (by omega) hmax ?_
  refine .bind (bitvecBits_denotes h hx) ?_
  rintro bits _ - - ⟨rfl, hne, hbits⟩
  have hsign : bits.getD (width - 1) falseTerm = signOf bits := by
    rw [signOf, List.getLastD_eq_getLast?, List.getLast?_eq_getElem?, hbits.length,
      List.getD_eq_getElem?_getD]
  rw [hsign]
  exact makeBitvec_denotes h (holds_signExtend hne hbits h (by omega))
    (.of_room (by omega) hmax hroom)

/-! ### Rotations -/

omit h hroom

/-- Writing the entries of a list at distinct places. -/
lemma foldl_set_getElem? {α : Type} (f : ℕ → ℕ) {a : α} {i : ℕ} : ∀ (entries : List (α × ℕ))
    (init : List α), (entries.map fun e => f e.2).Nodup → (a, i) ∈ entries → f i < init.length →
    (entries.foldl (fun list e => list.set (f e.2) e.1) init)[f i]? = some a
  | [], _, _, hm, _ => by cases hm
  | e :: rest, init, hnodup, hm, hlt => by
    rw [List.map_cons, List.nodup_cons] at hnodup
    rw [List.foldl_cons]
    rcases List.mem_cons.1 hm with rfl | hm
    · -- the later entries leave the place alone
      have hkeep : ∀ (rest : List (α × ℕ)) (list : List α), f i ∉ rest.map (fun e => f e.2) →
          (rest.foldl (fun list e => list.set (f e.2) e.1) list)[f i]? = list[f i]? := by
        intro rest
        induction rest with
        | nil => exact fun _ _ => rfl
        | cons e rest ih =>
          intro list hnot
          rw [List.map_cons, List.mem_cons, not_or] at hnot
          rw [List.foldl_cons, ih _ hnot.2, List.getElem?_set_ne (Ne.symm hnot.1)]
      rw [hkeep rest _ hnodup.1, List.getElem?_set_self hlt]
    · exact foldl_set_getElem? f rest _ hnodup.2 hm (by simpa using hlt)

lemma length_foldl_set {α : Type} (f : ℕ → ℕ) : ∀ (entries : List (α × ℕ)) (init : List α),
    (entries.foldl (fun list e => list.set (f e.2) e.1) init).length = init.length
  | [], _ => rfl
  | e :: rest, init => by rw [List.foldl_cons, length_foldl_set f rest, List.length_set]

/-- The word rotated up by an amount. -/
lemma rotated_holds (h : s.Ok) (hb : s.Holds ρ bits v) {v' : BitVec w} (amount : ℕ)
    (hv : ∀ i < w, v'.getLsbD ((i + amount) % w) = v.getLsbD i) :
    s.Holds ρ (rotated bits w fun index => index + amount) v' := by
  have hlen := hb.length
  have hnodup : (bits.zipIdx.map fun e => (e.2 + amount) % w).Nodup := by
    have he : (bits.zipIdx.map fun e => (e.2 + amount) % w) =
        (List.range w).map fun i => (i + amount) % w := by
      rw [← hlen, List.range_eq_range', ← List.zipIdx_map_snd 0 bits, List.map_map]
      rfl
    rw [he]
    refine List.Nodup.map_on (fun i hi j hj heq => ?_) List.nodup_range
    have hmod : Nat.ModEq w i j := Nat.ModEq.add_right_cancel' amount heq
    exact Nat.ModEq.eq_of_lt_of_lt hmod (List.mem_range.1 hi) (List.mem_range.1 hj)
  have hlen' : (rotated bits w fun index => index + amount).length = w :=
    (length_foldl_set (fun index => (index + amount) % w) _ _).trans List.length_replicate
  refine .of_getD hlen' fun j hj => ?_
  -- the place is that of an entry
  obtain ⟨i, hi, rfl⟩ : ∃ i, i < w ∧ (i + amount) % w = j := by
    refine ⟨(j + (w - amount % w)) % w, Nat.mod_lt _ (by omega), ?_⟩
    have hr : amount % w < w := Nat.mod_lt _ (by omega)
    have hsum : j + (w - amount % w) + amount = j + w * (amount / w + 1) := by
      have := Nat.div_add_mod amount w
      rw [Nat.mul_succ]
      omega
    rw [Nat.mod_add_mod, hsum, Nat.add_mul_mod_self_left, Nat.mod_eq_of_lt hj]
  have hget : bits[i]? = some (bits.getD i falseTerm) := by
    have hi' : i < bits.length := hlen.symm ▸ hi
    rw [List.getD_eq_getElem?_getD, List.getElem?_eq_getElem hi', Option.getD_some]
  have hplace := foldl_set_getElem? (fun index => (index + amount) % w) bits.zipIdx
    (List.replicate w (boolConstant false)) hnodup (List.mem_zipIdx_iff_getElem?.2 hget)
    (by simpa using hj)
  rw [hv i hi, List.getD_eq_getElem?_getD]
  change s.Means ρ ((rotated bits w fun index => index + amount)[(i + amount) % w]?.getD falseTerm) _
  rw [rotated, hplace, Option.getD_some]
  exact hb.getD h i

lemma rotateLeft_spec (h : s.Ok) (hx : s.Denotes ρ x v) (amount : ℕ) :
    Spec True (rotateLeft x amount) s fun r s' => s'.Denotes ρ r (v.rotateLeft amount) := by
  have hw := (Room.of_denotes h hx).1
  refine .bind (bitvecWidth_denotes h hx) ?_
  rintro width _ - - ⟨rfl, rfl⟩
  refine .bind (bitvecBits_denotes h hx) ?_
  rintro bits _ - - ⟨rfl, -, hbits⟩
  refine makeBitvec_same h hx (rotated_holds h hbits _ fun i hi => ?_)
  have hr := Nat.mod_lt amount hw
  rw [BitVec.getLsbD_rotateLeft]
  rcases lt_or_ge (i + amount % width) width with hlt | hge
  · rw [Nat.mod_eq_of_lt hlt, decide_eq_false (by omega), decide_eq_true hlt, Nat.add_sub_cancel]
    rfl
  · have hmod : (i + amount % width) % width = i + amount % width - width := by
      rw [Nat.mod_eq_sub_mod hge, Nat.mod_eq_of_lt (by omega)]
    have hindex : width - amount % width + (i + amount % width - width) = i := by omega
    rw [hmod, decide_eq_true (by omega), cond_true, hindex]

lemma rotateRight_spec (h : s.Ok) (hx : s.Denotes ρ x v) (amount : ℕ) :
    Spec True (rotateRight x amount) s fun r s' => s'.Denotes ρ r (v.rotateRight amount) := by
  have hw := (Room.of_denotes h hx).1
  refine .bind (bitvecWidth_denotes h hx) ?_
  rintro width _ - - ⟨rfl, rfl⟩
  refine .bind (bitvecBits_denotes h hx) ?_
  rintro bits _ - - ⟨rfl, -, hbits⟩
  have hr := Nat.mod_lt amount hw
  have hplace : (fun index => index + width - amount % width) =
      fun index => index + (width - amount % width) := by
    funext index
    omega
  rw [hplace]
  refine makeBitvec_same h hx (rotated_holds h hbits _ fun i hi => ?_)
  rw [BitVec.getLsbD_rotateRight]
  rcases lt_or_ge i (amount % width) with hlt | hge
  · rw [Nat.mod_eq_of_lt (by omega), decide_eq_false (by omega), decide_eq_true (by omega),
      Nat.add_sub_cancel]
    rfl
  · have hmod : (i + (width - amount % width)) % width = i - amount % width := by
      rw [Nat.mod_eq_sub_mod (by omega), Nat.mod_eq_of_lt (by omega)]
      omega
    rw [hmod, decide_eq_true (by omega), cond_true, Nat.add_sub_cancel' hge]

end

end Satrap.Smt
