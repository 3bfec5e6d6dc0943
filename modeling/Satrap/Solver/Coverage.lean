/-
# Clauses that others cover

Subsumption watches a strengthened clause at its first two literals, which may be false and
propagated already.  Such a clause may become unit, or even false, without being visited.  In the
second case other clauses cover it: unit propagation from the negation of the clause reaches a
conflict among the clauses that are watched as they should be.  At a fixpoint of propagation it
is therefore not false either.
-/
import Satrap.Solver.Maintenance
import Satrap.Solver.Vigilance
import Satrap.Logic.UnitPropagation

namespace Satrap

open Logic

namespace Solver

variable {Γ : Set (List Lit)} {s s' : Solver} {c d : ClauseRef} {l q p : Lit} {O : Oracle}
  {L : ClauseRef → Prop} {D : Lit → Prop} {X : ClauseRef → Lit → Prop} {mode : PropagationMode}

/-! ### Original clauses -/

/-- Where a watch of an original clause has been propagated some literal of the clause is true, of
a level that backtracking cannot remove before it has freed the watch. -/
def Firm (s : Solver) (D : Lit → Prop) (L : ClauseRef → Prop) : Prop :=
  ∀ c, s.Original c → ¬ L c → ∀ l ∈ s.watched c, D l →
    ∃ q ∈ s.literals c, s.value q = some true ∧ s.levels q.var ≤ s.levels l.var

/-- Everything but the original clauses that are not loose. -/
def looseOrLearned (L : ClauseRef → Prop) (s : Solver) (c : ClauseRef) (_ : Lit) : Prop :=
  L c ∨ (s.clause c).learned = true

lemma Firm.settled (h : s.Firm D L) : s.Settled D (looseOrLearned L s) := by
  intro c hc l hl hX hD
  obtain ⟨hL, hlearned⟩ := not_or.1 hX
  obtain ⟨q, hq, hv, hle⟩ := h c ⟨hc, by simpa using hlearned⟩ hL l hl hD
  have hroot : s.levels l.var = 0 → s.RootTrue c := fun h0 => ⟨q, hq, hv, by omega⟩
  exact ⟨fun _ => ⟨q, hq, hv, hle⟩, fun _ h0 => .inl (hroot h0), fun _ h0 => .inl (hroot h0)⟩

lemma Settled.firm (h : s.Settled D X) (hX : ∀ c l, s.Original c → X c l → L c) : s.Firm D L :=
  fun c hc hL l hl hD => (h c hc.1 l hl (fun hXl => hL (hX c l hc hXl)) hD).original hc.2

lemma looseOrLearned_iff (hdb : ∀ c, (s'.clause c).learned = (s.clause c).learned)
    (hc : s'.Original c) : looseOrLearned L s c l ↔ L c := by
  have := (hdb c).symm.trans hc.2
  simp [looseOrLearned, this]

namespace Firm

/-- The original clauses are as before, or need not be considered. -/
lemma of_original (h : s.Firm D L) (ht : s'.toTrailState = s.toTrailState)
    (hold : ∀ c, s'.Original c → ¬ L c → (∀ l ∈ s'.watched c, ¬ D l) ∨
      s.Original c ∧ s'.literals c = s.literals c) : s'.Firm D L := by
  intro c hc hL l hl hD
  obtain ⟨ho, hlits⟩ := (hold c hc hL).resolve_left fun hn => hn l hl hD
  have hw : s'.watched c = s.watched c := congrArg (List.take 2) hlits
  rw [hw] at hl
  rw [hlits, ht]
  exact h c ho hL l hl hD

lemma congr (h : s.Firm D L) (ht : s'.toTrailState = s.toTrailState)
    (hdb : s'.toClauseDb = s.toClauseDb) : s'.Firm D L :=
  h.of_original ht fun c hc _ => .inr ⟨by rwa [hdb] at hc, by rw [literals, hdb, literals]⟩

lemma congr_done (h : s.Firm s.Done L) (ht : s'.toTrailState = s.toTrailState)
    (hdb : s'.toClauseDb = s.toClauseDb) : s'.Firm s'.Done L := by
  rw [ht]
  exact h.congr ht hdb

lemma cancelUntil_done (h : s.Firm s.Done L) (hcore : Core Γ s) (O : Oracle) (level : ℕ) :
    (s.cancelUntil O level).Firm (s.cancelUntil O level).Done L := by
  have hc := cancelled_cancelUntil O s level
  refine (h.settled.cancelUntil_done hcore O level).firm fun c l ho hX => ?_
  exact (looseOrLearned_iff (fun c => by rw [hc.db]) ho).1 hX

lemma assign {n : ℕ} {E : Set ℕ} (h : s.Firm s.Done L) (ht : s.toTrailState.Ok n E)
    (savePhase : Bool) (hl : s.value l = none) (r : Option ClauseRef) :
    (s.assign savePhase l r).Firm (s.assign savePhase l r).Done L := by
  intro c hc hL p hp hD
  have hg := TrailState.grown_push hl r
  have hD' : s.Done p := (TrailState.done_push ht r).1 hD
  have hv : s.value p ≠ none := by
    rw [ht.done_value hD']
    simp
  obtain ⟨q, hq, hqv, hle⟩ := h c hc hL p hp hD'
  refine ⟨q, hq, hg.value hqv, ?_⟩
  calc (s.assign savePhase l r).levels q.var = s.levels q.var := hg.levels (by rw [hqv]; simp)
    _ ≤ s.levels p.var := hle
    _ = (s.assign savePhase l r).levels p.var := (hg.levels hv).symm

lemma newLevel (h : s.Firm s.Done L) : s.newLevel.Firm s.newLevel.Done L := h

lemma markClauseDeleted (h : s.Firm D L) (c : ClauseRef) : (s.markClauseDeleted c).Firm D L :=
  h.of_original rfl fun d hd _ => .inr
    ⟨⟨(ClauseDb.active_delete.1 hd.1).1, learned_markClauseDeleted.symm.trans hd.2⟩,
      literals_markClauseDeleted⟩

/-- Nothing is asked of a learned clause. -/
lemma addClauseToDb {literals : List Lit} {learned : Bool} (h : s.Firm D L)
    (hnew : learned = false → ¬ L (s.nextReference literals) → ∀ l ∈ literals.take 2, ¬ D l) :
    (s.addClauseToDb literals learned).Firm D L := by
  refine h.of_original rfl fun c hc hL => ?_
  rcases ClauseDb.active_add.1 hc.1 with hact | rfl
  · have hclause : (s.addClauseToDb literals learned).clause c = s.clause c :=
      ClauseDb.add_clause_of_allocated hact.1
    exact .inr ⟨⟨hact, by rw [← hclause]; exact hc.2⟩, literals_addClauseToDb hact.1⟩
  · have hclause : (s.addClauseToDb literals learned).clause (s.nextReference literals) =
        ⟨literals, learned, false⟩ := ClauseDb.add_clause_next
    have hlearned : learned = false := by
      have := hc.2
      rwa [hclause] at this
    rw [ClauseDb.watched, hclause]
    exact .inl (hnew hlearned hL)

end Firm

/-- What propagation leaves of the original clauses. -/
def PropagateFirm (L : ClauseRef → Prop) (s : Solver) : Option ClauseRef → Prop
  | none => s.Firm s.Done L
  | some _ => ∃ p ∈ s.trail, s.levels p.var = s.decisionLevel ∧
      s.Firm (fun q => s.Done q ∧ q ≠ -p) L

lemma propagateInternal_firm (O : Oracle) (h : Core Γ s) (hfirm : s.Firm s.Done L)
    (hign : mode.ignored = none) :
    PropagateFirm L (s.propagateInternal O mode).2 (s.propagateInternal O mode).1 := by
  obtain ⟨hp, hok⟩ := propagateInternal_spec O h hfirm.settled
    fun c l (hc : mode.ignored = some c) _ => by simp [hign] at hc
  generalize s.propagateInternal O mode = r at hp hok
  obtain ⟨conflict, s'⟩ := r
  have hX : ∀ c l, s'.Original c → looseOrLearned L s c l → L c := fun c l hc =>
    (looseOrLearned_iff hp.db.learned hc).1
  cases conflict with
  | none => exact hok.2.1.firm hX
  | some c =>
    obtain ⟨p, hpt, hlev, -, -, hset⟩ := (show Conflict Γ _ c s' from hok).source
    exact ⟨p, hpt, hlev, hset.firm hX⟩

lemma PropagateFirm.cancelUntil (h : PropagateFirm L s (some c)) (hcore : Core Γ s) (O : Oracle)
    {level : ℕ} (hlevel : level < s.decisionLevel) :
    (s.cancelUntil O level).Firm (s.cancelUntil O level).Done L := by
  obtain ⟨p, -, hlev, hfirm⟩ := h
  have hc := cancelled_cancelUntil O s level
  refine (hfirm.settled.cancelUntil hcore hlevel (fun l hd hle => ⟨hd, ?_⟩) (fun l hl => hl.1)
    fun _ _ hX _ _ => hX).firm fun c l ho hX =>
      (looseOrLearned_iff (fun c => by rw [hc.db]) ho).1 hX
  rintro rfl
  rw [Literal.var_neg, hlev] at hle
  omega

/-! ### Exempt clauses -/

/-- The clauses of whose watches less is known.  A loose one may be unit without being noticed, a
blind one may even be false. -/
structure Waiver where
  loose : ClauseRef → Prop
  blind : ClauseRef → Prop

/-- Nothing is waived. -/
def Waiver.none : Waiver := ⟨fun _ => False, fun _ => False⟩

/-- The watch invariant up to a waiver. -/
structure Shielded (W : Waiver) (s : Solver) : Prop where
  firm : s.Firm s.Done W.loose
  watchful : s.Watchful s.Done W.blind

/-- What propagation leaves of it. -/
structure PropagateShielded (W : Waiver) (s : Solver) (conflict : Option ClauseRef) : Prop where
  firm : PropagateFirm W.loose s conflict
  watchful : PropagateWatchful W.blind s conflict

variable {W : Waiver}

namespace Shielded

lemma congr (h : s.Shielded W) (ht : s'.toTrailState = s.toTrailState)
    (hdb : s'.toClauseDb = s.toClauseDb) (hconfig : s'.config = s.config) : s'.Shielded W :=
  ⟨h.firm.congr_done ht hdb, h.watchful.congr_done ht hdb hconfig⟩

lemma cancelUntil (h : s.Shielded W) (hcore : Core Γ s) (O : Oracle) (level : ℕ) :
    (s.cancelUntil O level).Shielded W :=
  ⟨h.firm.cancelUntil_done hcore O level, h.watchful.cancelUntil_done hcore O level⟩

lemma assign {n : ℕ} {E : Set ℕ} (h : s.Shielded W) (ht : s.toTrailState.Ok n E)
    (savePhase : Bool) (hl : s.value l = none) (r : Option ClauseRef) :
    (s.assign savePhase l r).Shielded W :=
  ⟨h.firm.assign ht savePhase hl r, h.watchful.assign ht savePhase hl r⟩

lemma newLevel (h : s.Shielded W) : s.newLevel.Shielded W :=
  ⟨h.firm.newLevel, h.watchful.newLevel⟩

lemma propagateInternal (h : s.Shielded W) (hcore : Core Γ s) (O : Oracle)
    (hign : mode.ignored = none) :
    PropagateShielded W (s.propagateInternal O mode).2 (s.propagateInternal O mode).1 :=
  ⟨propagateInternal_firm O hcore h.firm hign,
    propagateInternal_watchful O hcore h.watchful (by simp [hign])⟩

end Shielded

lemma PropagateShielded.cancelUntil (h : PropagateShielded W s (some c)) (hcore : Core Γ s)
    (O : Oracle) {level : ℕ} (hlevel : level < s.decisionLevel) :
    (s.cancelUntil O level).Shielded W :=
  ⟨h.firm.cancelUntil hcore O hlevel, h.watchful.cancelUntil hcore O hlevel⟩

lemma PropagateShielded.congr {conflict : Option ClauseRef} (h : PropagateShielded W s conflict)
    (ht : s'.toTrailState = s.toTrailState) (hdb : s'.toClauseDb = s.toClauseDb)
    (hconfig : s'.config = s.config) : PropagateShielded W s' conflict := by
  cases conflict with
  | none =>
    obtain ⟨h1, h2⟩ := Shielded.congr ⟨h.firm, h.watchful⟩ ht hdb hconfig
    exact ⟨h1, h2⟩
  | some c =>
    obtain ⟨p, hp, hlev, hf⟩ := h.firm
    obtain ⟨q, hq, hlev', hw⟩ := h.watchful
    refine ⟨⟨p, by rwa [ht], by rwa [ht], ?_⟩, q, by rwa [ht], by rwa [ht], ?_⟩
    · rw [ht]
      exact hf.congr ht hdb
    · rw [ht]
      exact hw.congr ht hdb hconfig

/-! ### Coverage -/

/-- The clauses that are watched as they should be, and the root assignment as units. -/
def bindingClauses (s : Solver) (L : ClauseRef → Prop) : Set (List Lit) :=
  {C | (∃ c, s.Original c ∧ ¬ L c ∧ (s.literals c).Perm C) ∨
    ∃ l ∈ s.trail, s.levels l.var = 0 ∧ C = [l]}

/-- Every blind clause is refutable by unit propagation. -/
def Covered (W : Waiver) (s : Solver) : Prop :=
  ∀ c, W.blind c → s.Original c ∧ UnitRefutable (s.bindingClauses W.loose) (s.literals c)

lemma bindingClauses_mono (h : Retained s s') : s.bindingClauses L ⊆ s'.bindingClauses L := by
  rintro C (⟨c, hc, hL, hp⟩ | ⟨l, hl, h0, rfl⟩)
  · obtain ⟨h1, h2⟩ := h.original c hc
    exact .inl ⟨c, h1, hL, h2.trans hp⟩
  · obtain ⟨h1, h2⟩ := h.root l hl h0
    exact .inr ⟨l, h1, h2, rfl⟩

lemma Covered.of_retained (h : Covered W s) (hr : Retained s s') : Covered W s' := by
  intro c hc
  obtain ⟨h1, h2⟩ := h c hc
  obtain ⟨h3, h4⟩ := hr.original c h1
  refine ⟨h3, fun T hT => ?_⟩
  obtain ⟨q, hq, hqT⟩ := h2.mono (bindingClauses_mono hr) T hT
  exact ⟨q, h4.mem_iff.2 hq, hqT⟩

/-- The trail is closed once everything has been propagated. -/
lemma Firm.closed (h : s.Firm s.Done L) (hcore : Core Γ s)
    (hhead : s.propagationHead = s.trail.length) :
    Logic.Closed (s.bindingClauses L) (· ∈ s.trail) := by
  refine ⟨fun l hl hn => ?_, ?_⟩
  · have h1 := hcore.trail.value_of_mem hl
    rw [TrailState.value_neg_eq_true_iff.1 (hcore.trail.value_of_mem hn)] at h1
    simp at h1
  rintro C (⟨c, hc, hL, hp⟩ | ⟨l, hl, -, rfl⟩) p hpC hothers
  · obtain ⟨a, b, rest, hab, hne⟩ := hcore.db.exists_eq hc.1.1
    have hfalse : ∀ q ∈ s.literals c, q ≠ p → -q ∈ s.trail := fun q hq =>
      hothers q (hp.mem_iff.1 hq)
    -- one of the watches is another literal, hence false, and has been propagated
    obtain ⟨w, hw, hwp⟩ : ∃ w ∈ s.watched c, w ≠ p := by
      rw [ClauseDb.watched, hab]
      by_cases ha : a = p
      · exact ⟨b, by simp, fun hb => hne (by rw [ha, hb])⟩
      · exact ⟨a, by simp, ha⟩
    obtain ⟨i, hi⟩ := List.mem_iff_getElem?.1 (hfalse w (List.mem_of_mem_take hw) hwp)
    obtain ⟨q, hq, hv, -⟩ := h c hc hL w hw
      ⟨i, by rw [hhead]; exact (List.getElem?_eq_some_iff.1 hi).1, hi⟩
    by_cases hqp : q = p
    · exact hqp ▸ (hcore.trail.mem_iff (hcore.active_var hc.1 hq)).2 hv
    · have hn := hcore.trail.value_of_mem (hfalse q hq hqp)
      rw [TrailState.value_neg_eq_true_iff.1 hn] at hv
      simp at hv
  · rw [List.mem_singleton.1 hpC]
    exact hl

/-- With everything propagated no visible clause is false. -/
lemma Shielded.not_falsified (h : s.Shielded W) (hcov : Covered W s) (hcore : Core Γ s)
    (hhead : s.propagationHead = s.trail.length) (hc : s.Active c)
    (hsh : s.clauseIsShadow c = false) : ¬ s.Falsified c := by
  by_cases hX : W.blind c
  · intro hf
    obtain ⟨-, href⟩ := hcov c hX
    obtain ⟨q, hq, hqT⟩ := href _ (h.firm.closed hcore hhead)
    exact hqT ((hcore.trail.neg_mem_iff (hcore.active_var hc hq)).2 (hf q hq))
  · exact h.watchful.not_falsified hcore hhead hc hsh hX

/-- **Propagation is correct** where every clause is watched or covered. -/
lemma Shielded.correct (h : s.Shielded W) (hcov : Covered W s) (hcore : Core Γ s) (O : Oracle)
    (hign : mode.ignored = none) :
    PropagationCorrect s (s.propagateInternal O mode).1 (s.propagateInternal O mode).2 := by
  obtain ⟨hp, hok⟩ := propagateInternal_spec (X := fun _ _ => True) O hcore
    (fun _ _ _ _ hX => absurd trivial hX) fun c l (_ : mode.ignored = some c) _ => trivial
  have hw := h.propagateInternal hcore O hign
  generalize s.propagateInternal O mode = r at hp hok hw
  obtain ⟨conflict, s'⟩ := r
  dsimp only at hp hok hw ⊢
  have hcore' : Core Γ s' := by
    cases conflict with
    | none => exact hok.1
    | some c => exact (show Conflict Γ _ c s' from hok).core
  refine ⟨?_, ?_, fun i l hi hn => hp.implied_correct hcore hcore' hi hn⟩
  · rintro rfl hstop c hc hsh
    obtain ⟨-, -, hhead⟩ := hok
    have hcov' := hcov.of_retained (Kept.of_propagated hcore hp).retained
    have hnf := Shielded.not_falsified ⟨hw.firm, hw.watchful⟩ hcov' hcore'
      (hhead.resolve_right hstop) hc hsh
    rw [Falsified] at hnf
    push Not at hnf
    exact hnf
  · rintro c rfl
    exact Conflict.correct hok

end Solver

end Satrap
