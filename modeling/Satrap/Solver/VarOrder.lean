/-
# The decision heap

`VarOrder` is the binary heap from which the activity-based branching modes take their next
decision.  The activities are floating-point numbers that the solver only ever compares with
`total_cmp`; a heap operation therefore takes them as a function into `ℤ`, the keys of that
total order.  What a query relies on is that the heap never loses a variable: it is stated
as `Ok`, positions and array being inverse to each other, and every operation is shown to
keep it and to change the stored variables exactly as intended.
-/
import Mathlib.Data.Int.Order.Basic
import Mathlib.Logic.Function.Basic
import Mathlib.Tactic.Common

namespace Satrap

/-- `higher_priority`: greater activity first, the smaller variable on a tie. -/
def higherPriority (activity : ℕ → ℤ) (left right : ℕ) : Bool :=
  decide (activity right < activity left) ||
    (decide (activity left = activity right) && decide (left < right))

/-- The heap array `heap[0..size]` and, for every variable, its position in it. -/
structure VarOrder where
  size : ℕ
  heap : ℕ → ℕ
  positions : ℕ → Option ℕ

namespace VarOrder

/-- The empty heap of a solver without variables. -/
def empty : VarOrder := ⟨0, fun _ => 0, fun _ => none⟩

/-- Exchange two array entries and record their new positions. -/
def swap (o : VarOrder) (p q : ℕ) : VarOrder :=
  { o with
    heap := Function.update (Function.update o.heap p (o.heap q)) q (o.heap p)
    positions := Function.update (Function.update o.positions (o.heap q) (some p))
      (o.heap p) (some q) }

/-- `sift_up`; the first argument bounds the number of levels still to climb. -/
def siftUp (activity : ℕ → ℤ) : ℕ → VarOrder → ℕ → VarOrder
  | 0, o, _ => o
  | fuel + 1, o, position =>
    if 0 < position then
      let parent := (position - 1) / 2
      if higherPriority activity (o.heap position) (o.heap parent) then
        siftUp activity fuel (o.swap position parent) parent
      else o
    else o

/-- `sift_down`; the first argument bounds the number of levels still to descend. -/
def siftDown (activity : ℕ → ℤ) : ℕ → VarOrder → ℕ → VarOrder
  | 0, o, _ => o
  | fuel + 1, o, position =>
    let left := position * 2 + 1
    if o.size ≤ left then o
    else
      let right := left + 1
      let child :=
        if right < o.size ∧ higherPriority activity (o.heap right) (o.heap left) then right
        else left
      if higherPriority activity (o.heap child) (o.heap position) then
        siftDown activity fuel (o.swap position child) child
      else o

/-- `insert`: a variable already present is left where it is. -/
def insert (activity : ℕ → ℤ) (o : VarOrder) (v : ℕ) : VarOrder :=
  if (o.positions v).isSome then o
  else
    siftUp activity o.size
      { size := o.size + 1
        heap := Function.update o.heap o.size v
        positions := Function.update o.positions v (some o.size) } o.size

/-- `grow`: the variables `oldCount..newCount` enter the heap. -/
def grow (activity : ℕ → ℤ) (o : VarOrder) (oldCount newCount : ℕ) : VarOrder :=
  (List.range' oldCount (newCount - oldCount)).foldl (insert activity) o

/-- `increase`: the activity of `v` rose. -/
def increase (activity : ℕ → ℤ) (o : VarOrder) (v : ℕ) : VarOrder :=
  match o.positions v with
  | none => o
  | some position => siftUp activity position o position

/-- `update`: the activity of `v` changed from `oldActivity`. -/
def update (activity : ℕ → ℤ) (o : VarOrder) (v : ℕ) (oldActivity : ℤ) : VarOrder :=
  match o.positions v with
  | none => o
  | some position =>
    if oldActivity < activity v then siftUp activity position o position
    else if activity v < oldActivity then siftDown activity o.size o position
    else o

/-- `pop_max`. -/
def popMax (activity : ℕ → ℤ) (o : VarOrder) : Option ℕ × VarOrder :=
  if o.size = 0 then (none, o)
  else
    let maximum := o.heap 0
    let last := o.heap (o.size - 1)
    let rest := { o with
      size := o.size - 1, positions := Function.update o.positions maximum none }
    if rest.size = 0 then (some maximum, rest)
    else
      (some maximum, siftDown activity rest.size
        { rest with
          heap := Function.update rest.heap 0 last
          positions := Function.update rest.positions last (some 0) } 0)

/-- `peek_max`: drop assigned variables from the top until the top is unassigned.  The
first argument bounds the number of variables that can be dropped. -/
def peekMax (assignments : ℕ → Option Bool) (activity : ℕ → ℤ) :
    ℕ → VarOrder → Option ℕ × VarOrder
  | 0, o => (none, o)
  | fuel + 1, o =>
    if o.size = 0 then (none, o)
    else if (assignments (o.heap 0)).isNone then (some (o.heap 0), o)
    else peekMax assignments activity fuel (o.popMax activity).2

/-! ### The stored variables -/

/-- The array holds no variable twice and `positions` is its inverse. -/
structure Ok (o : VarOrder) : Prop where
  inverse : ∀ v p, o.positions v = some p ↔ p < o.size ∧ o.heap p = v

/-- The variable is stored in the heap. -/
def Mem (o : VarOrder) (v : ℕ) : Prop := ∃ p, p < o.size ∧ o.heap p = v

variable {activity : ℕ → ℤ} {o : VarOrder}

lemma Ok.isSome_iff (h : o.Ok) {v : ℕ} : (o.positions v).isSome ↔ o.Mem v := by
  simp only [Option.isSome_iff_exists, h.inverse, Mem]

lemma Ok.heap_inj (h : o.Ok) {p q : ℕ} (hp : p < o.size) (hq : q < o.size)
    (heq : o.heap p = o.heap q) : p = q := by
  have h1 := (h.inverse (o.heap q) p).2 ⟨hp, heq⟩
  have h2 := (h.inverse (o.heap q) q).2 ⟨hq, rfl⟩
  exact Option.some.inj (h1.symm.trans h2)

lemma empty_ok : empty.Ok := ⟨fun v p => by simp [empty]⟩

@[simp] lemma swap_size (p q : ℕ) : (o.swap p q).size = o.size := rfl

lemma Ok.swap (h : o.Ok) {p q : ℕ} (hp : p < o.size) (hq : q < o.size) : (o.swap p q).Ok := by
  refine ⟨fun v r => ?_⟩
  have hinj := fun r hr => h.heap_inj (p := r) (q := p) hr hp
  have hinj' := fun r hr => h.heap_inj (p := r) (q := q) hr hq
  have hv := h.inverse v
  simp only [VarOrder.swap, Function.update_apply]
  grind

lemma mem_swap {p q : ℕ} (hp : p < o.size) (hq : q < o.size) (v : ℕ) :
    (o.swap p q).Mem v ↔ o.Mem v := by
  simp only [Mem, VarOrder.swap, Function.update_apply]
  constructor
  · rintro ⟨r, hr, rfl⟩
    split_ifs with h1 h2
    · exact ⟨p, hp, rfl⟩
    · exact ⟨q, hq, rfl⟩
    · exact ⟨r, hr, rfl⟩
  · rintro ⟨r, hr, rfl⟩
    by_cases h1 : r = p
    · exact ⟨q, hq, by simp [h1]⟩
    by_cases h2 : r = q
    · exact ⟨p, hp, by subst h2; by_cases h3 : p = r <;> simp [h3]⟩
    exact ⟨r, hr, by simp [h1, h2]⟩

/-- Two heaps that store the same variables, both well formed. -/
structure Same (o o' : VarOrder) : Prop where
  ok : o'.Ok
  size : o'.size = o.size
  mem : ∀ v, o'.Mem v ↔ o.Mem v

lemma Same.refl (h : o.Ok) : Same o o := ⟨h, rfl, fun _ => Iff.rfl⟩

lemma Same.trans {o' o'' : VarOrder} (h : Same o o') (h' : Same o' o'') : Same o o'' :=
  ⟨h'.ok, h'.size.trans h.size, fun v => (h'.mem v).trans (h.mem v)⟩

lemma Ok.same_swap (h : o.Ok) {p q : ℕ} (hp : p < o.size) (hq : q < o.size) :
    Same o (o.swap p q) := ⟨h.swap hp hq, rfl, mem_swap hp hq⟩

lemma Ok.same_siftUp (activity : ℕ → ℤ) (fuel : ℕ) {o : VarOrder} (h : o.Ok) {position : ℕ}
    (hp : position < o.size) : Same o (siftUp activity fuel o position) := by
  induction fuel generalizing o position with
  | zero => exact .refl h
  | succ fuel ih =>
    have hparent : (position - 1) / 2 < o.size := by omega
    have hs := h.same_swap hp hparent
    rw [siftUp]
    split
    · dsimp only
      split
      · exact hs.trans (ih hs.ok hparent)
      · exact .refl h
    · exact .refl h

lemma Ok.same_siftDown (activity : ℕ → ℤ) (fuel : ℕ) {o : VarOrder} (h : o.Ok) {position : ℕ}
    (hp : position < o.size) : Same o (siftDown activity fuel o position) := by
  induction fuel generalizing o position with
  | zero => exact .refl h
  | succ fuel ih =>
    rw [siftDown]
    split
    · exact .refl h
    · dsimp only
      have hstep : ∀ child, child < o.size →
          Same o (if higherPriority activity (o.heap child) (o.heap position) then
            siftDown activity fuel (o.swap position child) child else o) := by
        intro child hchild
        have hs := h.same_swap hp hchild
        split
        · exact hs.trans (ih hs.ok hchild)
        · exact .refl h
      refine hstep _ ?_
      split
      · next hright => exact hright.1
      · omega

/-- The array with `v` appended at its end. -/
lemma Ok.push (h : o.Ok) {v : ℕ} (hv : ¬ o.Mem v) :
    VarOrder.Ok ⟨o.size + 1, Function.update o.heap o.size v,
      Function.update o.positions v (some o.size)⟩ := by
  refine ⟨fun w p => ?_⟩
  have hw := h.inverse w
  have hnot : ∀ p, p < o.size → o.heap p ≠ v := fun p hp he => hv ⟨p, hp, he⟩
  simp only [Function.update_apply]
  grind

lemma Ok.insert (h : o.Ok) (v : ℕ) : (o.insert activity v).Ok := by
  rw [VarOrder.insert]
  split
  · exact h
  · next hv => exact ((h.push fun hm => hv (h.isSome_iff.2 hm)).same_siftUp _ _ (by simp)).ok

lemma Ok.mem_insert (h : o.Ok) (v w : ℕ) :
    (o.insert activity v).Mem w ↔ w = v ∨ o.Mem w := by
  rw [VarOrder.insert]
  split
  · next hv =>
    exact ⟨Or.inr, fun hw => hw.elim (fun he => he ▸ h.isSome_iff.1 hv) id⟩
  · next hv =>
    have hpush := h.push fun hm => hv (h.isSome_iff.2 hm)
    rw [(hpush.same_siftUp activity o.size (by simp)).mem w]
    simp only [Mem, Function.update_apply]
    constructor
    · rintro ⟨p, hp, rfl⟩
      split_ifs with hps
      · exact .inl rfl
      · exact .inr ⟨p, by omega, rfl⟩
    · rintro (rfl | ⟨p, hp, rfl⟩)
      · exact ⟨o.size, by simp, by simp⟩
      · exact ⟨p, by omega, if_neg (by omega)⟩

lemma Ok.grow (h : o.Ok) (oldCount newCount : ℕ) : (o.grow activity oldCount newCount).Ok := by
  rw [VarOrder.grow]
  generalize List.range' oldCount (newCount - oldCount) = vs
  induction vs generalizing o with
  | nil => exact h
  | cons v vs ih => exact ih (h.insert v)

lemma Ok.mem_grow (h : o.Ok) {oldCount newCount : ℕ} (hle : oldCount ≤ newCount) (w : ℕ) :
    (o.grow activity oldCount newCount).Mem w ↔ (oldCount ≤ w ∧ w < newCount) ∨ o.Mem w := by
  have hmem : ∀ (vs : List ℕ) {o : VarOrder}, o.Ok →
      ((vs.foldl (VarOrder.insert activity) o).Mem w ↔ w ∈ vs ∨ o.Mem w) := by
    intro vs
    induction vs with
    | nil => intro o _; simp
    | cons v vs ih =>
      intro o h
      rw [List.foldl_cons, ih (h.insert v), h.mem_insert, List.mem_cons]
      tauto
  rw [VarOrder.grow, hmem _ h, List.mem_range'_1]
  have : oldCount + (newCount - oldCount) = newCount := by omega
  rw [this]

lemma Ok.same_increase (h : o.Ok) (v : ℕ) : Same o (o.increase activity v) := by
  rw [VarOrder.increase]
  split
  · exact .refl h
  · next hv => exact h.same_siftUp _ _ ((h.inverse _ _).1 hv).1

lemma Ok.same_update (h : o.Ok) (v : ℕ) (oldActivity : ℤ) :
    Same o (o.update activity v oldActivity) := by
  rw [VarOrder.update]
  split
  · exact .refl h
  · next hv =>
    have hp := ((h.inverse _ _).1 hv).1
    split_ifs
    · exact h.same_siftUp _ _ hp
    · exact h.same_siftDown _ _ hp
    · exact .refl h

lemma Ok.same_foldl_update (ps : List (ℕ × ℤ)) {o : VarOrder} (h : o.Ok) :
    Same o (ps.foldl (fun o p => o.update activity p.1 p.2) o) := by
  induction ps generalizing o with
  | nil => exact .refl h
  | cons p ps ih =>
    have hstep : Same o (o.update activity p.1 p.2) := h.same_update p.1 p.2
    exact hstep.trans (ih hstep.ok)

/-- What `pop_max` does: on a nonempty heap it removes exactly the variable it returns. -/
lemma Ok.popMax_spec (h : o.Ok) (activity : ℕ → ℤ) :
    (o.popMax activity).2.Ok ∧
      ((o.popMax activity).1 = none ∧ o.size = 0 ∧ (o.popMax activity).2 = o ∨
        ∃ v, (o.popMax activity).1 = some v ∧ v = o.heap 0 ∧ o.Mem v ∧
          (o.popMax activity).2.size + 1 = o.size ∧
          ∀ w, (o.popMax activity).2.Mem w ↔ w ≠ v ∧ o.Mem w) := by
  rw [VarOrder.popMax]
  split
  · next h0 => exact ⟨h, .inl ⟨rfl, h0, rfl⟩⟩
  · next h0 =>
    have hmem : o.Mem (o.heap 0) := ⟨0, by omega, rfl⟩
    dsimp only
    split
    · next h1 =>
      have hsize : o.size = 1 := by omega
      have hall : ∀ w, o.Mem w → w = o.heap 0 := by
        rintro w ⟨p, hp, rfl⟩
        obtain rfl : p = 0 := by omega
        rfl
      refine ⟨⟨fun v p => ?_⟩, .inr ⟨_, rfl, rfl, hmem, by simp; omega, fun w => ?_⟩⟩
      · have hv := h.inverse v p
        simp only [Function.update_apply, hsize]
        grind
      · constructor
        · rintro ⟨p, hp, -⟩
          simp only [hsize] at hp
          omega
        · rintro ⟨hne, hw⟩
          exact absurd (hall w hw) hne
    · next h1 =>
      have hok : VarOrder.Ok ⟨o.size - 1, Function.update o.heap 0 (o.heap (o.size - 1)),
          Function.update (Function.update o.positions (o.heap 0) none)
            (o.heap (o.size - 1)) (some 0)⟩ := by
        refine ⟨fun v p => ?_⟩
        have hv := h.inverse v
        have hinj := fun p hp => h.heap_inj (p := p) (q := o.size - 1) hp (by omega)
        have hinj0 := fun p hp => h.heap_inj (p := p) (q := 0) hp (by omega)
        have hinv := h.inverse
        simp only [Function.update_apply]
        grind
      have hs := hok.same_siftDown activity (o.size - 1) (show 0 < o.size - 1 by omega)
      refine ⟨hs.ok, .inr ⟨_, rfl, rfl, hmem, ?_, fun w => ?_⟩⟩
      · show VarOrder.size (siftDown _ _ _ _) + 1 = o.size
        rw [hs.size]
        show o.size - 1 + 1 = o.size
        omega
      · refine (hs.mem w).trans ?_
        simp only [Mem, Function.update_apply]
        have hinj := fun p hp => h.heap_inj (p := p) (q := 0) hp (by omega)
        constructor
        · rintro ⟨p, hp, rfl⟩
          split_ifs with hp0
          · exact ⟨fun he => absurd (hinj _ (by omega) he) (by omega), _, by omega, rfl⟩
          · exact ⟨fun he => hp0 (hinj _ (by omega) he), _, by omega, rfl⟩
        · rintro ⟨hne, p, hp, rfl⟩
          by_cases hpl : p = o.size - 1
          · exact ⟨0, by omega, by simp [hpl]⟩
          · refine ⟨p, by omega, if_neg ?_⟩
            rintro rfl
            exact hne rfl

/-- What `peek_max` does: assigned variables leave the heap, and the answer is `none` only
if no unassigned variable was stored. -/
lemma Ok.peekMax_spec (assignments : ℕ → Option Bool) (fuel : ℕ) {o : VarOrder} (h : o.Ok)
    (hfuel : o.size < fuel) :
    (o.peekMax assignments activity fuel).2.Ok ∧
      (∀ w, (o.peekMax assignments activity fuel).2.Mem w → o.Mem w) ∧
      (∀ w, assignments w = none → o.Mem w → (o.peekMax assignments activity fuel).2.Mem w) ∧
      (∀ v, (o.peekMax assignments activity fuel).1 = some v →
        assignments v = none ∧ (o.peekMax assignments activity fuel).2.heap 0 = v ∧
          (o.peekMax assignments activity fuel).2.Mem v) ∧
      ((o.peekMax assignments activity fuel).1 = none →
        ∀ w, o.Mem w → assignments w ≠ none) := by
  induction fuel generalizing o with
  | zero => omega
  | succ fuel ih =>
    rw [peekMax]
    split
    · next h0 =>
      refine ⟨h, fun _ => id, fun _ _ => id, by simp, ?_⟩
      rintro - w ⟨p, hp, -⟩
      omega
    · next h0 =>
      split
      · next hnone =>
        refine ⟨h, fun _ => id, fun _ _ => id, ?_, by simp⟩
        rintro v ⟨⟩
        exact ⟨by simpa using hnone, rfl, 0, Nat.pos_of_ne_zero h0, rfl⟩
      · next hsome =>
        obtain ⟨hok, ⟨-, hz, -⟩ | ⟨v, -, hv, -, hsize, hmem⟩⟩ := h.popMax_spec activity
        · exact absurd hz h0
        · obtain ⟨h1, h2, h3, h4, h5⟩ := ih hok (by omega)
          have hassigned : assignments v ≠ none := by
            rw [hv]
            simpa using hsome
          refine ⟨h1, fun w hw => ((hmem w).1 (h2 w hw)).2, fun w hw hm => ?_, h4,
            fun hn w hw => ?_⟩
          · exact h3 w hw ((hmem w).2 ⟨fun he => hassigned (he ▸ hw), hm⟩)
          · by_cases hwv : w = v
            · exact hwv ▸ hassigned
            · exact h5 hn w ((hmem w).2 ⟨hwv, hw⟩)

end VarOrder

end Satrap
