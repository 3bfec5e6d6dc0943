/-
# Decisions

Whatever structure a decision is taken from, the variable picked is unassigned, the other
unassigned variables stay available, and no variable is picked only if all are assigned.
-/
import Satrap.Solver.Learning
import Satrap.Solver.Search

namespace Satrap

open Logic

namespace Solver

variable {Γ : Set (List Lit)} {O : Oracle} {s s' : Solver} {assignments : ℕ → Option Bool}

/-- A heap `o'` with the unassigned variables of `o` except the one that has been picked. -/
structure HeapPicked (assignments : ℕ → Option Bool) (o : VarOrder) (v : Option ℕ)
    (o' : VarOrder) : Prop where
  ok : o'.Ok
  sub : ∀ w, o'.Mem w → o.Mem w
  rest : ∀ w, assignments w = none → o.Mem w → o'.Mem w ∨ v = some w
  picked : ∀ w, v = some w → assignments w = none ∧ o.Mem w
  all : v = none → ∀ w, o.Mem w → assignments w ≠ none

/-- Before the pick the heap may have been put in order. -/
lemma HeapPicked.of_same {o o₁ o' : VarOrder} {v : Option ℕ}
    (h : HeapPicked assignments o₁ v o') (hsub : ∀ w, o₁.Mem w → o.Mem w)
    (hkeep : ∀ w, assignments w = none → o.Mem w → o₁.Mem w) :
    HeapPicked assignments o v o' where
  ok := h.ok
  sub w hw := hsub w (h.sub w hw)
  rest w hn hw := h.rest w hn (hkeep w hn hw)
  picked w hv := ⟨(h.picked w hv).1, hsub w (h.picked w hv).2⟩
  all hv w hw hn := h.all hv w (hkeep w hn hw) hn

lemma popUnassigned_spec (keys : ℕ → ℤ) (assignments : ℕ → Option Bool) :
    ∀ (fuel : ℕ) (o : VarOrder), o.Ok → o.size < fuel →
      HeapPicked assignments o (popUnassigned keys assignments fuel o).1
        (popUnassigned keys assignments fuel o).2 := by
  intro fuel
  induction fuel with
  | zero => intro o _ hfuel; omega
  | succ fuel ih =>
    intro o h hfuel
    obtain ⟨hok, hcase⟩ := h.popMax_spec keys
    rw [popUnassigned]
    generalize o.popMax keys = r at hok hcase
    obtain ⟨v, o₁⟩ := r
    rcases hcase with ⟨rfl, h0, rfl⟩ | ⟨v, rfl, -, hv, hsize, hmem⟩
    · refine ⟨h, fun _ => id, fun _ _ => .inl, by simp, ?_⟩
      rintro - w ⟨p, hp, -⟩
      omega
    dsimp only at hok hsize hmem ⊢
    split
    · next hn =>
      have hn' : assignments v = none := by simpa using hn
      refine ⟨hok, fun w hw => ((hmem w).1 hw).2, fun w _ hw => ?_, fun w hw => ?_, by simp⟩
      · by_cases hwv : w = v
        · exact .inr (hwv ▸ rfl)
        · exact .inl ((hmem w).2 ⟨hwv, hw⟩)
      · obtain rfl : v = w := by simpa using hw
        exact ⟨hn', hv⟩
    · next hn =>
      refine (ih o₁ hok (by omega)).of_same (fun w hw => ((hmem w).1 hw).2) fun w hw hm => ?_
      refine (hmem w).2 ⟨?_, hm⟩
      rintro rfl
      exact hn (by simp [hw])

/-- The variables whose scores have not been brought up to date. -/
def stale (n conflicts : ℕ) (canceledAt : ℕ → ℕ) : Finset ℕ :=
  (Finset.range n).filter fun v => canceledAt v < conflicts

lemma stale_update {n conflicts v : ℕ} {canceledAt : ℕ → ℕ} (hv : v < n)
    (hs : canceledAt v < conflicts) :
    (stale n conflicts (Function.update canceledAt v conflicts)).card <
      (stale n conflicts canceledAt).card := by
  have hmem : v ∈ stale n conflicts canceledAt := by simp [stale, hv, hs]
  refine lt_of_le_of_lt (Finset.card_le_card fun w hw => ?_) (Finset.card_erase_lt_of_mem hmem)
  simp only [stale, Finset.mem_filter, Finset.mem_range, Finset.mem_erase] at hw ⊢
  have hne : w ≠ v := by
    rintro rfl
    simp at hw
  rw [Function.update_of_ne hne] at hw
  exact ⟨hne, hw⟩

lemma lazyTop_spec (keys : ℕ → ℕ → ℤ) (assignments : ℕ → Option Bool) (n conflicts : ℕ) :
    ∀ (fuel clock : ℕ) (o : VarOrder) (canceledAt : ℕ → ℕ), o.Ok → (∀ v, o.Mem v → v < n) →
      (stale n conflicts canceledAt).card < fuel →
      HeapPicked assignments o (lazyTop keys assignments conflicts fuel clock o canceledAt).1
        (lazyTop keys assignments conflicts fuel clock o canceledAt).2.2.1 := by
  intro fuel
  induction fuel with
  | zero => intro _ _ _ _ _ hfuel; omega
  | succ fuel ih =>
    intro clock o canceledAt h hn hfuel
    obtain ⟨h1, h2, h3, h4, h5⟩ := h.peekMax_spec assignments (o.size + 1)
      (Nat.lt_succ_self _)
    rw [lazyTop]
    generalize o.peekMax assignments (keys clock) (o.size + 1) = r at h1 h2 h3 h4 h5
    obtain ⟨v, o₁⟩ := r
    cases v with
    | none => exact ⟨h1, h2, fun w hw hm => .inl (h3 w hw hm), by simp, h5⟩
    | some v =>
      obtain ⟨hv, hheap, hmem⟩ := h4 v rfl
      dsimp only at h1 h2 h3 hheap hmem ⊢
      split
      · next hs =>
        have hsame : VarOrder.Same o₁ (o₁.update (keys (clock + 1)) v (keys clock v)) :=
          h1.same_update v (keys clock v)
        refine (ih (clock + 1) _ (Function.update canceledAt v conflicts) hsame.ok
          (fun w hw => hn w (h2 w ((hsame.mem w).1 hw))) ?_).of_same
          (fun w hw => h2 w ((hsame.mem w).1 hw)) fun w hw hm => (hsame.mem w).2 (h3 w hw hm)
        have := stale_update (hn v (h2 v hmem)) hs
        omega
      · obtain ⟨hok, hcase⟩ := h1.popMax_spec (keys clock)
        rcases hcase with ⟨-, h0, -⟩ | ⟨w, -, hw, -, -, hpop⟩
        · obtain ⟨p, hp, -⟩ := hmem
          omega
        obtain rfl : w = v := hw.trans hheap
        refine ⟨hok, fun u hu => h2 u ((hpop u).1 hu).2, fun u hu hm => ?_, fun u hu => ?_, by simp⟩
        · by_cases huw : u = w
          · exact .inr (huw ▸ rfl)
          · exact .inl ((hpop u).2 ⟨huw, h3 u hu hm⟩)
        · obtain rfl : w = u := by simpa using hu
          exact ⟨hv, h2 w hmem⟩

/-! ### The decision -/

/-- What `pick_branch_literal` changes, and what it may answer. -/
structure Picked (s : Solver) (v : Option ℕ) (s' : Solver) : Prop where
  trail : s'.toTrailState = s.toTrailState
  db : s'.toClauseDb = s.toClauseDb
  session : s'.toSession = s.toSession
  deferred : s'.shadowDeferredRootConflict = s.shadowDeferredRootConflict
  seen : s'.seen = s.seen
  branching : s'.toBranching.Ok s.variableCount
    (fun w => if v = some w then some true else s.assignments w) s.usesTransferBranching
  picked : ∀ w, v = some w → w < s.variableCount ∧ s.assignments w = none
  all : v = none → ∀ w < s.variableCount, s.assignments w ≠ none

lemma pickBranchVariable_spec (O : Oracle)
    (hb : s.toBranching.Ok s.variableCount s.assignments s.usesTransferBranching) :
    Picked s (s.pickBranchVariable O).1 (s.pickBranchVariable O).2 := by
  have hmono : ∀ v : Option ℕ, s.toBranching.Ok s.variableCount
      (fun w => if v = some w then some true else s.assignments w) s.usesTransferBranching := by
    refine fun v => hb.mono fun w hw => ?_
    by_cases hv : v = some w
    · simp [hv] at hw
    · simpa [hv] using hw
  -- a pick from the main heap
  have hmain : ∀ (v : Option ℕ) (order : VarOrder), HeapPicked s.assignments s.order v order →
      ∀ (clock : ℕ) (canceledAt : ℕ → ℕ), Picked s v
        { s with clock := clock, order := order, lrbCanceledAt := canceledAt } := by
    intro v order h clock canceledAt
    have hm := hmono v
    refine ⟨rfl, rfl, rfl, rfl, rfl, ⟨h.ok, fun w hw hn => ?_, fun w hw => hb.order_lt w (h.sub w hw),
      hm.transferOrder, hm.transfer_mem, hm.transfer_lt, hm.vmtf, hm.vmtf_size⟩, fun w hw => ?_,
      fun hv w hw hn => h.all hv w (hb.order_mem w hw hn) hn⟩
    · by_cases hv : v = some w
      · simp [hv] at hn
      · have hn' : s.assignments w = none := by simpa [hv] using hn
        exact (h.rest w hn' (hb.order_mem w hw hn')).resolve_right hv
    · exact ⟨hb.order_lt w (h.picked w hw).2, (h.picked w hw).1⟩
  rw [pickBranchVariable]
  split
  · obtain ⟨h1, h2, h3, h4⟩ := hb.vmtf.pick_spec
    have hm := hmono (s.vmtf.pick s.assignments).1
    refine ⟨rfl, rfl, rfl, rfl, rfl, ⟨hm.order, hm.order_mem, hm.order_lt, hm.transferOrder,
      hm.transfer_mem, hm.transfer_lt, h1.mono fun w _ hw => ?_, h2.trans hb.vmtf_size⟩,
      fun w hw => ?_, fun hv w hw => ?_⟩
    · by_cases hv : (s.vmtf.pick s.assignments).1 = some w
      · simp [hv] at hw
      · simpa [hv] using hw
    · obtain ⟨h5, h6⟩ := h3 w hw
      exact ⟨hb.vmtf_size ▸ h5, h6⟩
    · exact h4 hv w (hb.vmtf_size ▸ hw)
  split
  · have h := lazyTop_spec O.activity s.assignments s.variableCount s.conflicts
      (s.variableCount + 1) s.clock s.order s.lrbCanceledAt hb.order hb.order_lt
      (by
        refine Nat.lt_succ_of_le ((Finset.card_filter_le _ _).trans ?_)
        rw [Finset.card_range])
    exact hmain _ _ h _ _
  split
  · next htr =>
    have ht : s.usesTransferBranching = true := by
      simp only [Bool.and_eq_true] at htr
      exact htr.1
    have h := lazyTop_spec O.transferActivity s.assignments s.variableCount s.conflicts
      (s.variableCount + 1) s.clock s.transferOrder s.lrbCanceledAt (hb.transferOrder ht)
      (hb.transfer_lt ht) (by
        refine Nat.lt_succ_of_le ((Finset.card_filter_le _ _).trans ?_)
        rw [Finset.card_range])
    generalize lazyTop O.transferActivity s.assignments s.conflicts (s.variableCount + 1) s.clock
      s.transferOrder s.lrbCanceledAt = r at h
    obtain ⟨v, clock, order, canceledAt⟩ := r
    have hm := hmono v
    refine ⟨rfl, rfl, rfl, rfl, rfl, ⟨hm.order, hm.order_mem, hm.order_lt, fun _ => h.ok,
      fun _ w hw hn => ?_, fun _ w hw => hb.transfer_lt ht w (h.sub w hw), hm.vmtf, hm.vmtf_size⟩,
      fun w hw => ?_, fun hv w hw hn => h.all hv w (hb.transfer_mem ht w hw hn) hn⟩
    · dsimp only at h
      by_cases hv : v = some w
      · simp [hv] at hn
      · have hn' : s.assignments w = none := by simpa [hv] using hn
        exact (h.rest w hn' (hb.transfer_mem ht w hw hn')).resolve_right hv
    · exact ⟨hb.transfer_lt ht w (h.picked w hw).2, (h.picked w hw).1⟩
  · have h := popUnassigned_spec (O.activity s.clock) s.assignments (s.order.size + 1) s.order
      hb.order (Nat.lt_succ_self _)
    exact hmain _ _ h _ _

lemma pickBranchLiteral_spec (O : Oracle) (h : Core Γ s) :
    Picked s ((s.pickBranchLiteral O).1.map Literal.var) (s.pickBranchLiteral O).2 := by
  have hp := pickBranchVariable_spec O (s := s.rescore O) (branching_rescore O h)
  rw [pickBranchLiteral]
  generalize (s.rescore O).pickBranchVariable O = r at hp
  obtain ⟨v, s'⟩ := r
  have hv : (v.map fun v => (⟨v, s'.phase v⟩ : Lit)).map Literal.var = v := by cases v <;> rfl
  dsimp only
  rw [hv]
  exact ⟨hp.trail, hp.db, hp.session, hp.deferred, hp.seen, hp.branching, hp.picked, hp.all⟩

end Solver

end Satrap
