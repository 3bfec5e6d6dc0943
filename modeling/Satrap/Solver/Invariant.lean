/-
# The solver invariant

`Core Γ s` is what holds of the solver state `s` at all times, for the set `Γ` of clauses
that have been given to it: trail and database are in order, every assignment that has a
reason follows from earlier ones, every stored clause and every root assignment is entailed
by `Γ`, and no unassigned variable is lost to the decision structures.

`Settled s D X` is the watch invariant.  `D` is the set of false literals whose falsity has
been propagated, and `X` the clauses and watched literals that are exempt.  A watched
literal in `D` is harmless: an original clause has a true literal of no higher level, so
that backtracking cannot unassign that literal and keep the false one.  At the root the same
holds of every active clause, except for a clause both of whose watches were propagated while
it was observed as a shadow and which was reactivated when it was already false.
-/
import Satrap.Solver.Trail
import Satrap.Solver.Database

namespace Satrap

open Logic

/-- The decision structures hold every unassigned variable. -/
structure Branching.Ok (b : Branching) (n : ℕ) (assignments : ℕ → Option Bool)
    (transfer : Bool) : Prop where
  order : b.order.Ok
  order_mem : ∀ v < n, assignments v = none → b.order.Mem v
  order_lt : ∀ v, b.order.Mem v → v < n
  transferOrder : transfer = true → b.transferOrder.Ok
  transfer_mem : transfer = true → ∀ v < n, assignments v = none → b.transferOrder.Mem v
  transfer_lt : transfer = true → ∀ v, b.transferOrder.Mem v → v < n
  vmtf : b.vmtf.Ok assignments
  vmtf_size : b.vmtf.size = n

/-- Fewer unassigned variables are as well provided for. -/
lemma Branching.Ok.mono {b : Branching} {n : ℕ} {assignments assignments' : ℕ → Option Bool}
    {transfer : Bool} (h : b.Ok n assignments transfer)
    (hsub : ∀ v, assignments' v = none → assignments v = none) :
    b.Ok n assignments' transfer where
  order := h.order
  order_mem v hv hn := h.order_mem v hv (hsub v hn)
  order_lt := h.order_lt
  transferOrder := h.transferOrder
  transfer_mem ht v hv hn := h.transfer_mem ht v hv (hsub v hn)
  transfer_lt := h.transfer_lt
  vmtf := h.vmtf.mono fun v _ hn => hsub v hn
  vmtf_size := h.vmtf_size

/-- Reordering the heaps keeps the decision structures in order. -/
lemma Branching.Ok.of_same {b b' : Branching} {n : ℕ} {assignments : ℕ → Option Bool}
    {transfer : Bool} (h : b.Ok n assignments transfer) (ho : VarOrder.Same b.order b'.order)
    (ht : transfer = true → VarOrder.Same b.transferOrder b'.transferOrder)
    (hv : b'.vmtf.Ok assignments ∧ b'.vmtf.size = b.vmtf.size) : b'.Ok n assignments transfer where
  order := ho.ok
  order_mem v hv hn := (ho.mem v).2 (h.order_mem v hv hn)
  order_lt v hv := h.order_lt v ((ho.mem v).1 hv)
  transferOrder htr := (ht htr).ok
  transfer_mem htr v hv hn := ((ht htr).mem v).2 (h.transfer_mem htr v hv hn)
  transfer_lt htr v hv := h.transfer_lt htr v (((ht htr).mem v).1 hv)
  vmtf := hv.1
  vmtf_size := hv.2.trans h.vmtf_size

namespace Solver

variable {Γ : Set (List Lit)} {s s' : Solver} {c d : ClauseRef} {l q : Lit}

/-- The variables that elimination has removed. -/
def eliminatedVariables (s : Solver) : Set ℕ := {v | ∃ r ∈ s.eliminationRecords, r.pivot = v}

/-- The literals of a stored clause. -/
def literals (s : Solver) (c : ClauseRef) : List Lit := (s.clause c).literals

/-- The literal is false since the root. -/
def RootFalse (s : Solver) (l : Lit) : Prop := s.value l = some false ∧ s.levels l.var = 0

/-- Some literal of the clause is true since the root. -/
def RootTrue (s : Solver) (c : ClauseRef) : Prop :=
  ∃ q ∈ s.literals c, s.value q = some true ∧ s.levels q.var = 0

/-- The invariant of the solver for the given clauses `Γ`. -/
structure Core (Γ : Set (List Lit)) (s : Solver) : Prop where
  trail : s.toTrailState.Ok s.variableCount s.eliminatedVariables
  db : s.toClauseDb.Ok s.variableCount s.eliminatedVariables
  reason : ∀ (i : ℕ) (l : Lit) (c : ClauseRef), s.trail[i]? = some l → s.reasons l.var = some c →
    s.Allocated c ∧ l ∈ s.literals c ∧
      ∀ q ∈ s.literals c, q ≠ l → ∃ j < i, s.trail[j]? = some (-q)
  entailed : ∀ c, s.Allocated c → Entails Γ (s.literals c)
  root : ∀ l ∈ s.trail, s.levels l.var = 0 → Entails Γ [l]
  deferred : ∀ c, s.shadowDeferredRootConflict = some c →
    s.Allocated c ∧ (s.clause c).learned = true ∧ ∀ q ∈ s.literals c, s.RootFalse q
  branching : s.toBranching.Ok s.variableCount s.assignments s.usesTransferBranching
  seen : ∀ v, s.seen v = false

/-! ### Consequences -/

namespace Core

variable (h : Core Γ s)
include h

lemma active_var (hc : s.Active c) (hl : l ∈ s.literals c) : l.var ∉ s.eliminatedVariables :=
  h.db.avoid c hc.1 (.inl hc.2) l hl

lemma rootFalse_mem (hc : s.Active c) (hl : l ∈ s.literals c) (hf : s.RootFalse l) :
    -l ∈ s.trail := (h.trail.neg_mem_iff (h.active_var hc hl)).2 hf.1

/-- A deferred conflict refutes the given clauses. -/
lemma deferred_mem (hc : s.shadowDeferredRootConflict = some c) (hl : l ∈ s.literals c) :
    -l ∈ s.trail ∧ s.levels l.var = 0 := by
  obtain ⟨h1, hle, h2⟩ := h.deferred c hc
  obtain ⟨hv, h0⟩ := h2 l hl
  exact ⟨(h.trail.neg_mem_iff (h.db.avoid c h1 (.inr hle) l hl)).2 hv, h0⟩

/-- A model of the given clauses agrees with the root assignment. -/
lemma holds_root {m : ℕ → Bool} (hm : Models m Γ) (hl : l ∈ s.trail)
    (h0 : s.levels l.var = 0) : l.Holds m := by
  simpa using h.root l hl h0 m hm

/-- A stored clause that is false at the root refutes the given clauses. -/
lemma unsat_of_rootFalse (hc : s.Allocated c) (hf : ∀ l ∈ s.literals c, -l ∈ s.trail ∧
    s.levels l.var = 0) : Unsat Γ :=
  (h.entailed c hc).unsat_of_refuted fun l hl => h.root (-l) (hf l hl).1 (hf l hl).2

end Core

/-! ### The steps every loop is made of -/

/-- The state with other clauses or watches. -/
def withDb (s : Solver) (db : ClauseDb) : Solver := { s with toClauseDb := db }

/-- The literals are the same up to their order, and nothing else has changed but the
watches. -/
lemma Core.withDb (h : Core Γ s) {db : ClauseDb} (hs : ClauseDb.Same s.toClauseDb db)
    (hdb : db.Ok s.variableCount s.eliminatedVariables) : Core Γ (s.withDb db) where
  trail := h.trail
  db := hdb
  reason i l c hl hr := by
    obtain ⟨h1, h2, h3⟩ := h.reason i l c hl hr
    exact ⟨hs.allocated.2 h1, hs.mem.2 h2, fun q hq => h3 q (hs.mem.1 hq)⟩
  entailed c hc m hm := by
    obtain ⟨q, hq, hqm⟩ := h.entailed c (hs.allocated.1 hc) m hm
    exact ⟨q, hs.mem.2 hq, hqm⟩
  root := h.root
  deferred c hc := by
    obtain ⟨h1, hle, h2⟩ := h.deferred c hc
    exact ⟨hs.allocated.2 h1, (hs.learned c).trans hle, fun q hq => h2 q (hs.mem.1 hq)⟩
  branching := h.branching
  seen := h.seen

/-- All literals of the clause but `l` are false. -/
def Forces (s : Solver) (c : ClauseRef) (l : Lit) : Prop :=
  s.Allocated c ∧ l ∈ s.literals c ∧ ∀ q ∈ s.literals c, q ≠ l → -q ∈ s.trail

lemma Core.entails_of_forces (h : Core Γ s) (hf : s.Forces c l) (h0 : s.decisionLevel = 0) :
    Entails Γ [l] := by
  obtain ⟨hc, -, hothers⟩ := hf
  intro m hm
  simp only [sat_cons, not_sat_nil, or_false]
  refine (h.entailed c hc m hm).holds_of_others fun q hq hql => ?_
  have hmem := hothers q hq hql
  exact h.holds_root hm hmem (Nat.le_zero.1 (h0 ▸ h.trail.level_le hmem))

lemma getElem?_push {t : TrailState} {r : Option ClauseRef} {i : ℕ} :
    (t.push l r).trail[i]? = some q ↔
      t.trail[i]? = some q ∨ (i = t.trail.length ∧ q = l) := by
  rw [TrailState.push, List.getElem?_append]
  split
  · next hi =>
    exact ⟨.inl, fun h => h.resolve_right fun h' => absurd h'.1 (Nat.ne_of_lt hi)⟩
  · next hi =>
    rw [List.getElem?_eq_none (Nat.le_of_not_lt hi)]
    rcases Nat.eq_or_lt_of_le (Nat.le_of_not_lt hi) with he | hlt
    · simp [he, eq_comm]
    · rw [List.getElem?_eq_none (by simp; omega)]
      simp only [reduceCtorEq, false_or, false_iff, not_and]
      omega

/-- An assignment with a proper reason keeps the invariant. -/
lemma Core.assign (h : Core Γ s) (savePhase : Bool) (hl : s.value l = none)
    (hn : l.var < s.variableCount) {r : Option ClauseRef}
    (hr : ∀ c, r = some c → s.Forces c l)
    (hroot : r = none → s.decisionLevel = 0 → Entails Γ [l]) :
    Core Γ (s.assign savePhase l r) := by
  have hg := TrailState.grown_push hl r
  have hnone := TrailState.value_eq_none_iff.1 hl
  have hfresh : ∀ q ∈ s.trail, q.var ≠ l.var := by
    intro q hq hv
    have := h.trail.assigned q hq
    rw [hv, hnone] at this
    simp at this
  have hroot' : s.decisionLevel = 0 → Entails Γ [l] := by
    intro h0
    cases r with
    | none => exact hroot rfl h0
    | some c => exact h.entails_of_forces (hr c rfl) h0
  refine ⟨h.trail.push hl hn r, h.db, ?_, h.entailed, ?_, ?_, ?_, h.seen⟩
  · intro i q c hq hc
    rcases getElem?_push.1 hq with hq | ⟨rfl, rfl⟩
    · have hc' : s.reasons q.var = some c := by
        have : Function.update s.reasons l.var r q.var = some c := hc
        rwa [Function.update_of_ne (hfresh q (List.mem_of_getElem? hq))] at this
      obtain ⟨h1, h2, h3⟩ := h.reason i q c hq hc'
      refine ⟨h1, h2, fun p hp hpq => ?_⟩
      obtain ⟨j, hj, hjp⟩ := h3 p hp hpq
      exact ⟨j, hj, hg.getElem? hjp⟩
    · have hc' : r = some c := by
        have : Function.update s.reasons q.var r q.var = some c := hc
        rwa [Function.update_self] at this
      obtain ⟨h1, h2, h3⟩ := hr c hc'
      refine ⟨h1, h2, fun p hp hpq => ?_⟩
      obtain ⟨j, hj⟩ := List.mem_iff_getElem?.1 (h3 p hp hpq)
      exact ⟨j, (List.getElem?_eq_some_iff.1 hj).1, hg.getElem? hj⟩
  · intro q hq h0
    obtain ⟨i, hi⟩ := List.mem_iff_getElem?.1 hq
    rcases getElem?_push.1 hi with hi | ⟨rfl, rfl⟩
    · have hmem := List.mem_of_getElem? hi
      have hq0 : Function.update s.levels l.var s.decisionLevel q.var = 0 := h0
      rw [Function.update_of_ne (hfresh q hmem)] at hq0
      exact h.root q hmem hq0
    · have hq0 : Function.update s.levels q.var s.decisionLevel q.var = 0 := h0
      rw [Function.update_self] at hq0
      exact hroot' hq0
  · intro c hc
    obtain ⟨h1, hle, h2⟩ := h.deferred c hc
    refine ⟨h1, hle, fun q hq => ?_⟩
    obtain ⟨hv, h0⟩ := h2 q hq
    exact ⟨hg.value hv, (hg.levels (by rw [hv]; simp)).trans h0⟩
  · refine Branching.Ok.mono ⟨h.branching.1, h.branching.2, h.branching.3, h.branching.4,
      h.branching.5, h.branching.6, h.branching.7, h.branching.8⟩ fun v hv => ?_
    have hv' : Function.update s.assignments l.var (some l.positive) v = none := hv
    by_cases hvl : v = l.var
    · rw [hvl, Function.update_self] at hv'
      simp at hv'
    · rwa [Function.update_of_ne hvl] at hv'

/-- The propagation head moves past the literal it is at. -/
lemma Core.advance (h : Core Γ s) {p : Lit} (hp : s.trail[s.propagationHead]? = some p) :
    Core Γ { s with toTrailState := s.toTrailState.advance } where
  trail := h.trail.advance hp
  db := h.db
  reason := h.reason
  entailed := h.entailed
  root := h.root
  deferred := h.deferred
  branching := h.branching
  seen := h.seen

/-! ### The watch invariant -/

/-- What it takes for a propagated watched literal to be harmless. -/
structure SettledAt (s : Solver) (D : Lit → Prop) (c : ClauseRef) (l : Lit) : Prop where
  original : (s.clause c).learned = false →
    ∃ q ∈ s.literals c, s.value q = some true ∧ s.levels q.var ≤ s.levels l.var
  active : s.clauseIsShadow c = false → s.levels l.var = 0 →
    s.RootTrue c ∨ (∀ q ∈ s.watched c, D q) ∧ ∀ q ∈ s.literals c, s.RootFalse q
  shadow : s.clauseIsShadow c = true → s.levels l.var = 0 →
    s.RootTrue c ∨ ∀ q ∈ (s.literals c).drop 2, s.RootFalse q

/-- Every propagated watched literal is harmless. -/
def Settled (s : Solver) (D : Lit → Prop) (X : ClauseRef → Lit → Prop) : Prop :=
  ∀ c, s.Active c → ∀ l ∈ s.watched c, ¬ X c l → D l → s.SettledAt D c l

/-- No clause is exempt where `P` holds, every clause where it does not.  Without the watch
invariant a conflict may be missed, but what is derived is still sound. -/
def exempt (P : Prop) : ClauseRef → Lit → Prop := fun _ _ => ¬ P

lemma Settled.of_not {P : Prop} (hP : ¬ P) (s : Solver) (D : Lit → Prop) :
    s.Settled D (exempt P) := fun _ _ _ _ hX => absurd hP hX

lemma Settled.mono {D : Lit → Prop} {X Y : ClauseRef → Lit → Prop} (h : s.Settled D X)
    (hXY : ∀ c l, X c l → Y c l) : s.Settled D Y :=
  fun c hc l hl hY => h c hc l hl fun hX => hY (hXY c l hX)

/-- With everything propagated, an original clause that is not exempt has a true literal or
an unassigned watched one. -/
lemma Settled.exists_true {X : ClauseRef → Lit → Prop} (hset : s.Settled s.Done X)
    (h : Core Γ s) (hhead : s.propagationHead = s.trail.length) (hc : s.Original c)
    (hl : l ∈ s.watched c) (hX : ¬ X c l) (hv : s.value l ≠ none) :
    ∃ q ∈ s.literals c, s.value q = some true := by
  have hmem : l ∈ s.literals c := List.mem_of_mem_take hl
  cases hval : s.value l with
  | none => exact absurd hval hv
  | some b =>
    cases b with
    | true => exact ⟨l, hmem, hval⟩
    | false =>
      have hneg := (h.trail.neg_mem_iff (h.active_var hc.1 hmem)).2 hval
      obtain ⟨i, hi⟩ := List.mem_iff_getElem?.1 hneg
      have hdone : s.Done l :=
        ⟨i, by rw [hhead]; exact (List.getElem?_eq_some_iff.1 hi).1, hi⟩
      obtain ⟨q, hq, hqt, -⟩ := (hset c hc.1 l hl hX hdone).original hc.2
      exact ⟨q, hq, hqt⟩

/-- Some active clause is false at the root, and this has yet to be noticed: one of its
watches waits for propagation. -/
def Pending (s : Solver) : Prop :=
  ∃ c, s.Active c ∧ s.clauseIsShadow c = false ∧ (∀ q ∈ s.literals c, s.RootFalse q) ∧
    ∃ l ∈ s.watched c, ¬ s.Done l

end Solver

end Satrap
