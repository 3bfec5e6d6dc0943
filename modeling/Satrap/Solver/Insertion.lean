/-
# Clauses are added between queries

A clause is normalized and then stored, asserted or found to be satisfied or refuted.  Before
the first query nothing has been propagated, so any watches will do.  Afterwards the root
assignment is first brought to a fixpoint; unassigned literals come first, so that a clause
never watches a literal whose falsity has been propagated unless another one is true.
-/
import Satrap.Solver.Run
import Satrap.Solver.Incremental

namespace Satrap

open Logic

namespace Solver

variable {P : Prop}
variable {Γ Δ : Set (List Lit)} {O : Oracle} {s s' : Solver} {c d : ClauseRef} {l q : Lit}
  {A literals : List Lit} {D : Lit → Prop} {X Y : ClauseRef → Lit → Prop}

/-! ### Normalization -/

lemma litIndex_le (l q : Lit) (h : litIndex l ≤ litIndex q) : l.var ≤ q.var := by
  simp only [litIndex] at h
  split at h <;> split at h <;> omega

lemma var_lt_of_litIndex {l q : Lit} (h : litIndex l ≤ litIndex q) (hv : l.var ≠ q.var) :
    l.var < q.var := lt_of_le_of_ne (litIndex_le l q h) hv

/-- What merging a sorted clause comes to. -/
lemma mergeSorted_spec : ∀ literals : List Lit,
    literals.Pairwise (fun l q => litIndex l ≤ litIndex q) →
    (mergeSorted literals = none → ∃ l ∈ literals, -l ∈ literals) ∧
      ∀ merged, mergeSorted literals = some merged →
        (∀ l, l ∈ merged ↔ l ∈ literals) ∧ (merged.map Literal.var).Nodup
  | [], _ => ⟨by simp [mergeSorted], fun merged h => by
      obtain rfl : [] = merged := by simpa [mergeSorted] using h
      simp⟩
  | [l], _ => ⟨by simp [mergeSorted], fun merged h => by
      obtain rfl : [l] = merged := by simpa [mergeSorted] using h
      simp⟩
  | l :: q :: rest, hs => by
    obtain ⟨hl, hs'⟩ := List.pairwise_cons.1 hs
    obtain ⟨h1, h2⟩ := mergeSorted_spec (q :: rest) hs'
    rw [mergeSorted]
    split
    · next he =>
      subst he
      refine ⟨fun hn => ?_, fun merged hm => ?_⟩
      · obtain ⟨p, hp, hp'⟩ := h1 hn
        exact ⟨p, List.mem_cons_of_mem _ hp, List.mem_cons_of_mem _ hp'⟩
      · obtain ⟨h3, h4⟩ := h2 merged hm
        exact ⟨fun p => (h3 p).trans (by simp), h4⟩
    · next hne =>
      split
      · next hv =>
        refine ⟨fun _ => ⟨l, by simp, ?_⟩, by simp⟩
        have : q = -l := (Literal.eq_or_eq_neg_of_var_eq hv.symm).resolve_left fun h => hne h.symm
        simp [this]
      · next hv =>
        refine ⟨fun hn => ?_, fun merged hm => ?_⟩
        · obtain ⟨p, hp, hp'⟩ := h1 (by simpa using hn)
          exact ⟨p, List.mem_cons_of_mem _ hp, List.mem_cons_of_mem _ hp'⟩
        · obtain ⟨merged', hm', rfl⟩ := Option.map_eq_some_iff.1 hm
          obtain ⟨h3, h4⟩ := h2 merged' hm'
          refine ⟨fun p => by simp [h3 p], ?_⟩
          rw [List.map_cons, List.nodup_cons]
          refine ⟨fun hm => ?_, h4⟩
          obtain ⟨p, hp, hpv⟩ := List.mem_map.1 hm
          -- all later variables are greater
          have hlt := var_lt_of_litIndex (hl q (by simp)) hv
          rcases List.mem_cons.1 ((h3 p).1 hp) with rfl | hp
          · exact hv hpv.symm
          · have := litIndex_le q p ((List.pairwise_cons.1 hs').1 p hp)
            omega

lemma sortLiterals_spec (literals : List Lit) :
    (sortLiterals literals).Pairwise (fun l q => litIndex l ≤ litIndex q) ∧
      (sortLiterals literals).Perm literals := by
  have htotal : Std.Total fun l q : Lit => litIndex l ≤ litIndex q := ⟨fun l q => Nat.le_total _ _⟩
  have htrans : IsTrans Lit fun l q : Lit => litIndex l ≤ litIndex q := ⟨fun _ _ _ => Nat.le_trans⟩
  exact ⟨List.pairwise_insertionSort _ _, List.perm_insertionSort _ _⟩

/-- A normalized clause: the same literals, each variable once. -/
structure Normalized (literals normalized : List Lit) : Prop where
  mem : ∀ l, l ∈ normalized ↔ l ∈ literals
  nodup : (normalized.map Literal.var).Nodup

lemma normalize_some {normalized : List Lit}
    (h : mergeSorted (sortLiterals literals) = some normalized) : Normalized literals normalized := by
  obtain ⟨hs, hp⟩ := sortLiterals_spec literals
  obtain ⟨h1, h2⟩ := (mergeSorted_spec _ hs).2 normalized h
  exact ⟨fun l => (h1 l).trans hp.mem_iff, h2⟩

lemma normalize_none (h : mergeSorted (sortLiterals literals) = none) (m : ℕ → Bool) :
    Sat m literals := by
  obtain ⟨hs, hp⟩ := sortLiterals_spec literals
  obtain ⟨l, hl, hl'⟩ := (mergeSorted_spec _ hs).1 h
  by_cases hm : l.Holds m
  · exact ⟨l, hp.mem_iff.1 hl, hm⟩
  · exact ⟨-l, hp.mem_iff.1 hl', Literal.holds_neg.2 hm⟩

lemma Normalized.sat {normalized : List Lit} (h : Normalized literals normalized) {m : ℕ → Bool} :
    Sat m normalized ↔ Sat m literals := by
  simp only [Sat, h.mem]

/-! ### More variables -/

lemma growVariables_eq (O : Oracle) (s : Solver) (count : ℕ) : ∃ n b v,
    s.growVariables O count = { s with clock := n, toBranching := b, variableCount := v } ∧
      s.variableCount ≤ v ∧ count ≤ v := by
  rw [growVariables]
  split
  · next h => exact ⟨s.clock, s.toBranching, s.variableCount, rfl, le_rfl, h⟩
  · next h => exact ⟨_, _, count, rfl, Nat.le_of_not_le h, le_rfl⟩

lemma branching_grow (hb : s.toBranching.Ok s.variableCount s.assignments
    s.usesTransferBranching) {count : ℕ}
    (hle : s.variableCount ≤ count) (O : Oracle) :
    Branching.Ok { s.toBranching with
      order := s.order.grow (O.activity s.clock) s.variableCount count
      transferOrder :=
        if s.usesTransferBranching then
          s.transferOrder.grow (O.transferActivity s.clock) s.variableCount count
        else s.transferOrder
      vmtf := s.vmtf.grow s.variableCount count } count s.assignments s.usesTransferBranching := by
  obtain ⟨h1, h2⟩ := hb.vmtf.grow s.variableCount count
  refine ⟨hb.order.grow _ _, fun v hv hn => ?_, fun v hv => ?_, fun htr => ?_,
    fun htr v hv hn => ?_, fun htr v hv => ?_, h1, ?_⟩
  · refine (hb.order.mem_grow hle v).2 ?_
    rcases Nat.lt_or_ge v s.variableCount with hlt | hge
    · exact .inr (hb.order_mem v hlt hn)
    · exact .inl ⟨hge, hv⟩
  · rcases (hb.order.mem_grow hle v).1 hv with ⟨-, hlt⟩ | hm
    · exact hlt
    · exact (hb.order_lt v hm).trans_le hle
  · simp only [htr, if_true]
    exact (hb.transferOrder htr).grow _ _
  · simp only [htr, if_true]
    refine ((hb.transferOrder htr).mem_grow hle v).2 ?_
    rcases Nat.lt_or_ge v s.variableCount with hlt | hge
    · exact .inr (hb.transfer_mem htr v hlt hn)
    · exact .inl ⟨hge, hv⟩
  · simp only [htr, if_true] at hv
    rcases ((hb.transferOrder htr).mem_grow hle v).1 hv with ⟨-, hlt⟩ | hm
    · exact hlt
    · exact (hb.transfer_lt htr v hm).trans_le hle
  · rw [h2, hb.vmtf_size]
    omega

lemma Core.growVariables (h : Core Γ s) (O : Oracle) (count : ℕ) :
    Core Γ (s.growVariables O count) := by
  rw [Solver.growVariables]
  split
  · exact h
  next hlt =>
  have hle : s.variableCount ≤ count := Nat.le_of_not_le hlt
  refine ⟨?_, h.db.mono hle, h.reason, h.entailed, h.root, h.deferred,
    branching_grow h.branching hle O, h.seen⟩
  exact ⟨h.trail.nodup, h.trail.assigned, h.trail.onTrail, h.trail.eliminated,
    fun v hv => (h.trail.lt v hv).trans_le hle, h.trail.sorted, h.trail.limits_le, h.trail.head_le,
    h.trail.level⟩

lemma Resting.growVariables (h : Resting P Γ s) (O : Oracle) (count : ℕ) :
    Resting P Γ (s.growVariables O count) := by
  have hcore := h.core.growVariables O count
  obtain ⟨n, b, v, he, -, -⟩ := growVariables_eq O s count
  rw [he] at hcore ⊢
  exact ⟨hcore, h.settled.imp (fun hs => hs.congr_done rfl rfl rfl) id⟩

/-! ### Root propagation -/

/-- At the root, with the watch invariant. -/
structure AtRoot (P : Prop) (Γ : Set (List Lit)) (s : Solver) : Prop where
  core : Core Γ s
  settled : s.Settled s.Done (exempt P)
  root : s.decisionLevel = 0

lemma AtRoot.resting (h : AtRoot P Γ s) : Resting P Γ s := ⟨h.core, .inl h.settled⟩

lemma AtRoot.mono (h : AtRoot P Γ s) (hsub : Γ ⊆ Δ) : AtRoot P Δ s :=
  ⟨h.core.mono hsub, h.settled, h.root⟩

/-- **A root propagation that nothing stops** refutes the clauses or reaches a fixpoint; a
conflict that had been dropped is among the things it finds. -/
lemma Resting.propagate (h : Resting P Γ s) (O : Oracle) (h0 : s.decisionLevel = 0)
    (hctl : s.searchControlActive = false) :
    match s.propagate O with
    | (some _, s') => Unsat Γ ∧ s'.toSession = s.toSession
    | (none, s') => AtRoot P Γ s' ∧ s'.propagationHead = s'.trail.length ∧
        s'.shadowDeferredRootConflict = none ∧ Kept s s' ∧
        ClauseDb.Same s.toClauseDb s'.toClauseDb := by
  rw [Solver.propagate]
  cases hd : s.shadowDeferredRootConflict with
  | some c =>
    obtain ⟨h1, -, -⟩ := h.core.deferred c hd
    exact ⟨h.core.unsat_of_rootFalse h1 fun l hl => h.core.deferred_mem hd hl, rfl⟩
  | none =>
    dsimp only
    have hign : ∀ X : ClauseRef → Lit → Prop, ∀ (c : ClauseRef) (l : Lit),
        PropagationMode.ignored {} = some c → ¬ s.Done l → X c l := fun _ _ _ hc => by simp at hc
    by_cases hpend : s.Pending
    · -- with every clause exempt the watch invariant says nothing
      have hset : s.Settled s.Done fun _ _ => True := fun _ _ _ _ hX => absurd trivial hX
      obtain ⟨hp, hok⟩ := propagateInternal_spec O h.core hset (hign _)
      have hsome := propagateInternal_pending O h.core hset hctl hpend
        (show PropagationMode.ignored {} = none from rfl)
      generalize s.propagateInternal O {} = r at hp hok hsome
      obtain ⟨conflict, s'⟩ := r
      cases conflict with
      | none => exact absurd rfl hsome
      | some c =>
        have hconf : Conflict Γ (fun _ _ => True) c s' := hok
        exact ⟨hconf.unsat (hp.trail.decisionLevel.trans h0), hp.session⟩
    · have hset := h.settled.resolve_right hpend
      obtain ⟨hp, hok⟩ := propagateInternal_spec O h.core hset (hign _)
      have hkept : Kept s (s.propagateInternal O {}).2 := .of_propagated h.core hp
      generalize s.propagateInternal O {} = r at hp hok hkept
      obtain ⟨conflict, s'⟩ := r
      have h0' : s'.decisionLevel = 0 := hp.trail.decisionLevel.trans h0
      cases conflict with
      | some c =>
        have hconf : Conflict Γ (exempt P) c s' := hok
        exact ⟨hconf.unsat h0', hp.session⟩
      | none =>
        obtain ⟨h1, h2, h3⟩ := hok
        refine ⟨⟨h1, h2, h0'⟩, h3.resolve_right fun hs => ?_, hp.deferred.trans hd, hkept,
          hp.db⟩
        rw [hp.controlActive, hctl] at hs
        simp at hs

/-! ### Taking in a clause -/

/-- The assignment satisfies the original clauses and agrees with the root assignment. -/
def Satisfies (m : ℕ → Bool) (s : Solver) : Prop :=
  (∀ c, s.Original c → Sat m (s.literals c)) ∧ ∀ l ∈ s.trail, s.levels l.var = 0 → l.Holds m

lemma Satisfies.of_kept {m : ℕ → Bool} (h : Satisfies m s') (hk : Kept s s') : Satisfies m s :=
  ⟨fun c hc => (h.1 c (hk.original c hc).1).mono (hk.original c hc).2.subset,
    fun l hl h0 => h.2 l (hk.root l hl h0).1 (hk.root l hl h0).2⟩

/-- The state `s'` represents one more clause than `s`. -/
structure TakenIn (P : Prop) (Γ : Set (List Lit)) (literals : List Lit) (s s' : Solver) : Prop where
  root : AtRoot P Γ s'
  kept : Kept s s'
  sat : ∀ m, Satisfies m s' → Sat m literals

/-- What a clause to be taken in satisfies. -/
structure Insertable (Γ : Set (List Lit)) (s : Solver) (literals : List Lit) : Prop where
  nodup : (literals.map Literal.var).Nodup
  lt : ∀ l ∈ literals, l.var < s.variableCount
  avoid : ∀ l ∈ literals, l.var ∉ s.eliminatedVariables
  entailed : Entails Γ literals

lemma AtRoot.level (h : AtRoot P Γ s) (hl : l ∈ s.trail) : s.levels l.var = 0 :=
  Nat.le_zero.1 (h.root ▸ h.core.trail.level_le hl)

/-- A clause with a true literal need not be stored. -/
lemma AtRoot.satisfied (h : AtRoot P Γ s) (hi : Insertable Γ s literals) (hl : l ∈ literals)
    (hv : s.value l = some true) : TakenIn P Γ literals s s := by
  refine ⟨h, .refl s, fun m hm => ⟨l, hl, ?_⟩⟩
  have hmem := (h.core.trail.mem_iff (hi.avoid l hl)).2 hv
  exact hm.2 l hmem (h.level hmem)

/-- A clause without a literal that is true or unassigned refutes the clauses. -/
lemma AtRoot.refuted (h : AtRoot P Γ s) (hi : Insertable Γ s literals)
    (hf : ∀ l ∈ literals, s.value l = some false) : Unsat Γ := by
  refine hi.entailed.unsat_of_refuted fun l hl => ?_
  have hneg := (h.core.trail.neg_mem_iff (hi.avoid l hl)).2 (hf l hl)
  exact h.core.root (-l) hneg (h.level hneg)

/-- A unit clause is asserted. -/
lemma AtRoot.assertUnit (h : AtRoot P Γ s) (hi : Insertable Γ s [l]) (hv : s.value l = none) :
    TakenIn P Γ [l] s (s.assign true l none) where
  root := ⟨h.core.assign true hv (hi.lt l (by simp)) (by simp) fun _ _ => hi.entailed,
    h.settled.assign h.core true hv none, h.root⟩
  kept := .assign h.core true hv none
  sat m hm := by
    refine ⟨l, by simp, hm.2 l (by simp [Solver.assign, TrailState.push]) ?_⟩
    show Function.update s.levels l.var s.decisionLevel l.var = 0
    rw [Function.update_self]
    exact h.root

lemma original_next (s : Solver) (literals : List Lit) : (s.addClauseToDb literals false).Original
    (s.nextReference literals) := by
  have hclause : (s.addClauseToDb literals false).clause (s.nextReference literals) =
      ⟨literals, false, false⟩ := ClauseDb.add_clause_next
  refine ⟨ClauseDb.active_add.2 (.inr rfl), ?_⟩
  rw [hclause]

lemma Core.addOriginal (h : Core Γ s) (hi : Insertable Γ s literals) (hlen : 2 ≤ literals.length) :
    Core Γ (s.addClauseToDb literals false) :=
  h.addClauseToDb hlen hi.nodup hi.lt hi.avoid hi.entailed

/-- A clause is stored both of whose watches are open. -/
lemma AtRoot.store (h : AtRoot P Γ s) (hi : Insertable Γ s literals) (hlen : 2 ≤ literals.length)
    (hw : ∀ l ∈ literals.take 2, ¬ s.Done l) :
    TakenIn P Γ literals s (s.addClauseToDb literals false) where
  root := by
    refine ⟨h.core.addOriginal hi hlen, ?_, h.root⟩
    refine h.settled.addClauseToDb.unexempt fun c hc l hl hY hX hD => ?_
    obtain rfl := hY.resolve_left hX
    have hl' : l ∈ ((s.addClauseToDb literals false).literals (s.nextReference literals)).take 2 :=
      hl
    rw [literals_addClauseToDb_next] at hl'
    exact absurd hD (hw l hl')
  kept := .addClauseToDb s literals false
  sat m hm := by
    have := hm.1 _ (original_next s literals)
    rwa [literals_addClauseToDb_next] at this

/-- A clause is stored that is unit at the root, and its literal asserted. -/
lemma AtRoot.storeUnit (h : AtRoot P Γ s) (hi : Insertable Γ s literals) (hlen : 2 ≤ literals.length)
    (hl : l ∈ literals) (hv : s.value l = none)
    (hothers : ∀ q ∈ literals, q ≠ l → s.value q = some false) :
    TakenIn P Γ literals s ((s.addClauseToDb literals false).assign true l
      (some (s.nextReference literals))) := by
  have hcore := h.core.addOriginal hi hlen
  have hv' : (s.addClauseToDb literals false).value l = none := hv
  have hforces : (s.addClauseToDb literals false).Forces (s.nextReference literals) l := by
    rw [Forces, literals_addClauseToDb_next]
    exact ⟨ClauseDb.allocated_add.2 (.inr rfl), hl, fun q hq hne =>
      (h.core.trail.neg_mem_iff (hi.avoid q hq)).2 (hothers q hq hne)⟩
  have hcore' := hcore.assign true hv' (hi.lt l hl) (r := some (s.nextReference literals))
    (fun c hc => by cases hc; exact hforces) (by simp)
  have hkept := (Kept.addClauseToDb s literals false).trans
    (.assign hcore true hv' (some (s.nextReference literals)))
  -- the asserted literal makes the new clause harmless
  have hlit : l ∈ ((s.addClauseToDb literals false).assign true l
      (some (s.nextReference literals))).literals (s.nextReference literals) := by
    have hlits : (s.addClauseToDb literals false).literals (s.nextReference literals) = literals :=
      literals_addClauseToDb_next
    exact hlits.symm ▸ hl
  have hval : ((s.addClauseToDb literals false).assign true l
      (some (s.nextReference literals))).value l = some true := TrailState.value_push_self _
  have hlev : ((s.addClauseToDb literals false).assign true l
      (some (s.nextReference literals))).levels l.var = 0 := by
    show Function.update s.levels l.var s.decisionLevel l.var = 0
    rw [Function.update_self]
    exact h.root
  refine ⟨⟨hcore', ?_, h.root⟩, hkept, fun m hm => ?_⟩
  · refine (h.settled.addClauseToDb.assign hcore true hv' _).unexempt fun c hc q hq hY hX hD => ?_
    obtain rfl := hY.resolve_left hX
    exact ⟨fun _ => ⟨l, hlit, hval, hlev.le.trans (Nat.zero_le _)⟩,
      fun _ _ => .inl ⟨l, hlit, hval, hlev⟩, fun _ _ => .inl ⟨l, hlit, hval, hlev⟩⟩
  · refine ⟨l, hl, hm.2 l ?_ hlev⟩
    simp [Solver.assign, TrailState.push]

/-! ### Before the first query -/

/-- The clauses have become inconsistent, and nothing else has changed that a client sees. -/
def Contradiction (Γ : Set (List Lit)) (s s' : Solver) : Prop :=
  Unsat Γ ∧ s'.toSession = { s.toSession with consistent := false }

lemma addFresh_spec (h : AtRoot P Γ s) (hhead : s.propagationHead = 0) (literals : List Lit)
    (hi : Insertable Γ s literals) :
    (TakenIn P Γ literals s (s.addFresh literals) ∧ (s.addFresh literals).propagationHead = 0) ∨
      Contradiction Γ s (s.addFresh literals) := by
  match literals, hi with
  | [], hi => exact .inr ⟨hi.entailed.unsat_of_nil, rfl⟩
  | [l], hi =>
    rw [addFresh, enqueue]
    cases hv : s.value l with
    | none =>
      rw [enqueueInternal_of_none true hv]
      exact .inl ⟨h.assertUnit hi hv, hhead⟩
    | some b =>
      cases b with
      | true =>
        have he : s.enqueueInternal true l none = (true, s) := by simp [enqueueInternal, hv]
        rw [he]
        exact .inl ⟨h.satisfied hi (by simp) hv, hhead⟩
      | false =>
        have he : s.enqueueInternal true l none = (false, s) := by simp [enqueueInternal, hv]
        rw [he]
        exact .inr ⟨h.refuted hi (by simpa using hv), rfl⟩
  | l :: q :: rest, hi =>
    refine .inl ⟨h.store hi (by simp) fun l _ hd => ?_, hhead⟩
    obtain ⟨i, hi, -⟩ := hd
    omega

/-! ### Between queries -/

lemma Insertable.kept (hi : Insertable Γ s literals) (hk : Kept s s') :
    Insertable Γ s' literals where
  nodup := hi.nodup
  lt l hl := (congrArg Session.variableCount hk.session).symm ▸ hi.lt l hl
  avoid l hl := hk.eliminated ▸ hi.avoid l hl
  entailed := hi.entailed

/-- The order in which a clause is stored: unassigned literals first. -/
lemma insertable_sorted (hi : Insertable Γ s literals) :
    Insertable Γ s ((literals.filter fun l => decide (s.value l = none)) ++
      literals.filter fun l => decide (s.value l ≠ none)) := by
  have hperm : ((literals.filter fun l => decide (s.value l = none)) ++
      literals.filter fun l => decide (s.value l ≠ none)).Perm literals := by
    have := List.filter_append_perm (fun l => decide (s.value l = none)) literals
    simpa using this
  exact ⟨(hperm.map _).nodup_iff.2 hi.nodup, fun l hl => hi.lt l (hperm.subset hl),
    fun l hl => hi.avoid l (hperm.subset hl), hi.entailed.weaken hperm.symm.subset⟩

/-- A clause with an unassigned literal and no true one is stored. -/
lemma storeOpenClause_spec (h : AtRoot P Γ s) {unassigned rest : List Lit}
    (hi : Insertable Γ s (unassigned ++ rest)) (hne : unassigned ≠ [])
    (hun : ∀ l ∈ unassigned, s.value l = none) (hrest : ∀ l ∈ rest, s.value l = some false) :
    TakenIn P Γ (unassigned ++ rest) s
      (s.storeOpenClause (unassigned ++ rest) unassigned.length) := by
  obtain ⟨l, others, rfl⟩ := List.exists_cons_of_ne_nil hne
  have hv := hun l (by simp)
  rw [List.cons_append] at hi ⊢
  cases htail : others ++ rest with
  | nil =>
    rw [htail] at hi
    rw [storeOpenClause, enqueue, enqueueInternal_of_none true hv]
    exact h.assertUnit hi hv
  | cons p tail =>
    rw [storeOpenClause]
    swap
    · simp
    rw [← htail]
    have hlen : 2 ≤ (l :: (others ++ rest)).length := by simp [htail]
    split
    · next h1 =>
      obtain rfl : others = [] := by simpa using h1
      have hv' : (s.addClauseToDb (l :: ([] ++ rest)) false).value l = none := hv
      rw [enqueue, enqueueInternal_of_none true hv']
      refine h.storeUnit hi hlen (by simp) hv fun q hq hne => hrest q ?_
      exact (List.mem_cons.1 hq).resolve_left hne
    · next h1 =>
      refine h.store hi hlen fun q hq hd => ?_
      -- two unassigned literals are watched
      obtain ⟨r, others, rfl⟩ := List.exists_cons_of_ne_nil
        (show others ≠ [] from fun hnil => h1 (by simp [hnil]))
      have hq' : q = l ∨ q = r := by simpa using hq
      have hqv : s.value q = none := hun q (by rcases hq' with rfl | rfl <;> simp)
      rw [h.core.trail.done_value hd] at hqv
      simp at hqv

lemma TakenIn.of_kept {s₁ : Solver} (h : TakenIn P Γ literals s₁ s') (hk : Kept s s₁) :
    TakenIn P Γ literals s s' := ⟨h.root, hk.trans h.kept, h.sat⟩

/-- **A clause enters a solver that has answered queries.** -/
lemma addStarted_spec (h : Resting P Γ s) (O : Oracle) (h0 : s.decisionLevel = 0)
    (hctl : s.searchControlActive = false) (hi : Insertable Γ s literals)
    (hcons : s.consistent = true) :
    TakenIn P Γ literals s (s.addStarted O literals).2 ∨
      Contradiction Γ s (s.addStarted O literals).2 := by
  have hprop := h.propagate O h0 hctl
  rw [addStarted, if_neg (by simp [hcons])]
  generalize s.propagate O = r at hprop
  obtain ⟨conflict, s₁⟩ := r
  cases conflict with
  | some c =>
    obtain ⟨hu, hs⟩ := hprop
    exact .inr ⟨hu, congrArg (fun t : Session => { t with consistent := false }) hs⟩
  | none =>
  obtain ⟨h₁, -, -, hk, -⟩ := hprop
  have hi₁ := hi.kept hk
  dsimp only
  split
  · next hany =>
    obtain ⟨l, hl, hv⟩ := List.any_eq_true.1 hany
    exact .inl ((h₁.satisfied hi₁ hl (by simpa using hv)).of_kept hk)
  next hany =>
  have hnot : ∀ l ∈ literals, s₁.value l ≠ some true := by
    simpa using hany
  have hfalse : ∀ l ∈ literals, s₁.value l ≠ none → s₁.value l = some false := by
    intro l hl hn
    cases hv : s₁.value l with
    | none => exact absurd hv hn
    | some b =>
      cases b with
      | true => exact absurd hv (hnot l hl)
      | false => rfl
  split
  · next hempty =>
    refine .inr ⟨h₁.refuted hi₁ fun l hl => hfalse l hl fun hn => ?_, by rw [← hk.session]⟩
    have hnil : (literals.filter fun l => decide (s₁.value l = none)) = [] := by simpa using hempty
    have := List.filter_eq_nil_iff.1 hnil l hl
    simp [hn] at this
  next hempty =>
  have hstore := storeOpenClause_spec h₁ (insertable_sorted hi₁) (by simpa using hempty)
    (fun l hl => by simpa using (List.mem_filter.1 hl).2)
    (fun l hl => hfalse l (List.mem_filter.1 hl).1 (by simpa using (List.mem_filter.1 hl).2))
  generalize s₁.storeOpenClause _ _ = s₂ at hstore
  have hctl₂ : s₂.searchControlActive = false :=
    (congrArg Session.searchControlActive (hk.trans hstore.kept).session).trans hctl
  have hprop₂ := hstore.root.resting.propagate O hstore.root.root hctl₂
  generalize s₂.propagate O = r at hprop₂
  obtain ⟨conflict, s₃⟩ := r
  cases conflict with
  | some c =>
    obtain ⟨hu, hs⟩ := hprop₂
    exact .inr ⟨hu, congrArg (fun t : Session => { t with consistent := false })
      (hs.trans (hk.trans hstore.kept).session)⟩
  | none =>
    obtain ⟨h₃, -, -, hk₃, -⟩ := hprop₂
    refine .inl ⟨h₃, (hk.trans hstore.kept).trans hk₃, fun m hm => ?_⟩
    refine (hstore.sat m (hm.of_kept hk₃)).mono fun l hl => ?_
    rcases List.mem_append.1 hl with hl | hl <;> exact (List.mem_filter.1 hl).1

end Solver

end Satrap
