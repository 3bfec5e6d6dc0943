/-
# What a root pass does

A root pass starts at decision level zero with everything propagated (`Prepared`) and leaves
such a state, or finds the clauses inconsistent.  The passes share a loop over a schedule, the
propagation of a derived unit, and the replacement of a clause by a stronger one.
-/
import Satrap.Solver.Insertion
import Satrap.Solver.Preprocess

namespace Satrap

open Logic

namespace Solver

variable {P P' : Prop}
variable {Γ : Set (List Lit)} {O : Oracle} {s s' : Solver} {c d : ClauseRef} {l q : Lit}
  {A literals : List Lit} {mode : PropagationMode}

/-! ### The interface of a pass -/

/-- What a pass finds at the root, and what it has to leave there. -/
structure Prepared (P : Prop) (Γ : Set (List Lit)) (s : Solver) : Prop extends AtRoot P Γ s where
  head : s.propagationHead = s.trail.length
  deferred : s.shadowDeferredRootConflict = none
  idle : s.searchControlActive = false
  complete : Complete Γ s

lemma Settled.weaken {D : Lit → Prop} (h : s.Settled D (exempt P)) (hPP : P' → P) :
    s.Settled D (exempt P') := h.mono fun _ _ hn hP => hn (hPP hP)

/-- Less may be claimed of the watches. -/
lemma Prepared.weaken (h : Prepared P Γ s) (hPP : P' → P) : Prepared P' Γ s :=
  ⟨⟨h.core, h.settled.weaken hPP, h.root⟩, h.head, h.deferred, h.idle, h.complete⟩

/-- What a pass may change of the session. -/
structure PassFrame (s s' : Solver) : Prop where
  session : s'.toSession = { s.toSession with
    variableCount := s'.variableCount, eliminationRecords := s'.eliminationRecords }
  count : s.variableCount ≤ s'.variableCount
  records : s.irreversible = false → s'.eliminationRecords = s.eliminationRecords

namespace PassFrame

lemma refl (s : Solver) : PassFrame s s := ⟨rfl, le_rfl, fun _ => rfl⟩

lemma config (h : PassFrame s s') : s'.config = s.config := by rw [h.session]

lemma trans {s₁ s₂ s₃ : Solver} (h : PassFrame s₁ s₂) (h' : PassFrame s₂ s₃) : PassFrame s₁ s₃ where
  session := by rw [h'.session, h.session]
  count := h.count.trans h'.count
  records hirr := by
    have hirr' : s₂.irreversible = false := by rwa [irreversible, h.config]
    rw [h'.records hirr', h.records hirr]

lemma of_session (h : s'.toSession = s.toSession) : PassFrame s s' := by
  refine ⟨?_, ?_, fun _ => congrArg Session.eliminationRecords h⟩
  · rw [h]
  · exact (congrArg Session.variableCount h).ge

end PassFrame

/-- What a root pass may come to. -/
inductive PassOk (P : Prop) (Γ : Set (List Lit)) (s : Solver) : Bool × Solver → Prop
  | refuted (s' : Solver) (unsat : Unsat Γ) (frame : PassFrame s s') : PassOk P Γ s (false, s')
  | done (s' : Solver) (prepared : Prepared P Γ s') (frame : PassFrame s s') : PassOk P Γ s (true, s')

lemma PassOk.thenPass {enabled : Bool} {pass : Solver → Bool × Solver} {r : Bool × Solver}
    (h : PassOk P Γ s r)
    (hpass : enabled = true → ∀ s', Prepared P Γ s' → PassFrame s s' → PassOk P Γ s' (pass s')) :
    PassOk P Γ s (thenPass enabled pass r) := by
  cases h with
  | refuted s' hu hf => exact .refuted s' hu hf
  | done s' hp hf =>
    cases enabled with
    | false => exact .done s' hp hf
    | true =>
      have hok := hpass rfl s' hp hf
      show PassOk P Γ s (pass s')
      generalize pass s' = r at hok
      cases hok with
      | refuted s'' hu hf' => exact .refuted s'' hu (hf.trans hf')
      | done s'' hp' hf' => exact .done s'' hp' (hf.trans hf')

lemma PassOk.of_frame {s₁ : Solver} (hf : PassFrame s s₁) {r : Bool × Solver}
    (h : PassOk P Γ s₁ r) : PassOk P Γ s r := by
  cases h with
  | refuted s' hu hf' => exact .refuted s' hu (hf.trans hf')
  | done s' hp hf' => exact .done s' hp (hf.trans hf')

lemma PassOk.weaken {r : Bool × Solver} (h : PassOk P Γ s r) (hPP : P' → P) : PassOk P' Γ s r := by
  cases h with
  | refuted s' hu hf => exact .refuted s' hu hf
  | done s' hp hf => exact .done s' (hp.weaken hPP) hf

/-- What becomes of the clauses: nothing that is stored is lost, what is new is not learned,
the original clauses that are not removed stay as they are, up to the order of their
literals, and no variable is eliminated. -/
structure Stored (removed : ClauseRef → Prop) (s s' : Solver) : Prop where
  allocated : ∀ d, s.Allocated d → s'.Allocated d ∧ (s'.clause d).learned = (s.clause d).learned
  fresh : ∀ d, s'.Allocated d → s.Allocated d ∨ (s'.clause d).learned = false
  original : ∀ d, s.Original d → ¬ removed d →
    s'.Original d ∧ (s'.literals d).Perm (s.literals d)
  records : s'.eliminationRecords = s.eliminationRecords

namespace Stored

variable {removed : ClauseRef → Prop}

lemma refl (s : Solver) : Stored removed s s :=
  ⟨fun _ hd => ⟨hd, rfl⟩, fun _ => .inl, fun _ hd _ => ⟨hd, .refl _⟩, rfl⟩

lemma trans {s₁ s₂ s₃ : Solver} (h : Stored removed s₁ s₂) (h' : Stored removed s₂ s₃) :
    Stored removed s₁ s₃ where
  allocated d hd := by
    obtain ⟨h1, h2⟩ := h.allocated d hd
    obtain ⟨h3, h4⟩ := h'.allocated d h1
    exact ⟨h3, h4.trans h2⟩
  fresh d hd := by
    rcases h'.fresh d hd with hd' | hd'
    · rcases h.fresh d hd' with h1 | h1
      · exact .inl h1
      · exact .inr ((h'.allocated d hd').2.trans h1)
    · exact .inr hd'
  original d hd hr := by
    obtain ⟨h1, h2⟩ := h.original d hd hr
    obtain ⟨h3, h4⟩ := h'.original d h1 hr
    exact ⟨h3, h4.trans h2⟩
  records := h'.records.trans h.records

lemma of_same (hs : s'.toSession = s.toSession) (h : ClauseDb.Same s.toClauseDb s'.toClauseDb) :
    Stored removed s s' :=
  ⟨fun d hd => ⟨h.allocated.2 hd, h.learned d⟩, fun _ hd => .inl (h.allocated.1 hd),
    fun d hd _ => ⟨h.original.2 hd, h.literals d⟩, congrArg Session.eliminationRecords hs⟩

lemma of_eq (hs : s'.toSession = s.toSession) (h : s'.toClauseDb = s.toClauseDb) :
    Stored removed s s' :=
  of_same hs (h ▸ .refl _)

lemma discard (s : Solver) (literals : List Lit) (c : ClauseRef) :
    Stored (· = c) s ((s.proofAdd literals).markClauseDeleted c) where
  allocated d hd := ⟨ClauseDb.allocated_delete.2 hd, learned_markClauseDeleted⟩
  fresh d hd := .inl (ClauseDb.allocated_delete.1 hd)
  original d hd hdc := by
    refine ⟨⟨ClauseDb.active_delete.2 ⟨hd.1, hdc⟩, learned_markClauseDeleted.trans hd.2⟩, ?_⟩
    rw [literals_markClauseDeleted]
    exact .refl _
  records := rfl

lemma store (s : Solver) (literals : List Lit) :
    Stored removed s (s.addClauseToDb literals false) where
  allocated d hd := by
    have hclause : (s.addClauseToDb literals false).clause d = s.clause d :=
      ClauseDb.add_clause_of_allocated hd
    exact ⟨ClauseDb.allocated_add.2 (.inl hd), by rw [hclause]⟩
  fresh d hd := by
    rcases ClauseDb.allocated_add.1 hd with hd | rfl
    · exact .inl hd
    · exact .inr (original_next s literals).2
  original d hd _ := (Kept.addClauseToDb s literals false).original d hd
  records := rfl

lemma mono {removed' : ClauseRef → Prop} (h : Stored removed s s')
    (hr : ∀ d, removed d → removed' d) : Stored removed' s s' :=
  ⟨h.allocated, h.fresh, fun d hd hn => h.original d hd fun hd' => hn (hr d hd'), h.records⟩

end Stored

/-- What a step of a pass has to do that may delete some clauses. -/
def StepOk (P : Prop) (Γ : Set (List Lit)) (removed : ClauseRef → Prop) (s : Solver)
    (r : Option Bool × Solver) : Prop :=
  PassOk P Γ s (r.1.getD true, r.2) ∧ (r.1 ≠ some false → Stored removed s r.2)

section

variable {removed removed' : ClauseRef → Prop}

lemma StepOk.skip (h : Prepared P Γ s) {answer : Option Bool} (ha : answer ≠ some false) :
    StepOk P Γ removed s (answer, s) := by
  refine ⟨?_, fun _ => .refl s⟩
  match answer, ha with
  | none, _ => exact .done s h (.refl s)
  | some true, _ => exact .done s h (.refl s)

lemma StepOk.proceed {r : Bool × Solver} (h : PassOk P Γ s r)
    (hst : r.1 = true → Stored removed s r.2) : StepOk P Γ removed s (proceed r) := by
  obtain ⟨answer, s'⟩ := r
  cases answer with
  | true => exact ⟨h, fun _ => hst rfl⟩
  | false => exact ⟨h, fun hn => absurd rfl hn⟩

lemma StepOk.mono {r : Option Bool × Solver} (h : StepOk P Γ removed s r)
    (hr : ∀ d, removed d → removed' d) : StepOk P Γ removed' s r :=
  ⟨h.1, fun hn => (h.2 hn).mono hr⟩

/-- A step that starts where another change has ended. -/
lemma StepOk.of_frame {r : Option Bool × Solver} (h : StepOk P Γ removed s' r)
    (hf : PassFrame s s') (hst : Stored removed s s') : StepOk P Γ removed s r :=
  ⟨h.1.of_frame hf, fun hn => hst.trans (h.2 hn)⟩

/-- A step without an answer leaves the state for the next one. -/
lemma StepOk.prepared (h : StepOk P Γ removed s (none, s')) :
    Prepared P Γ s' ∧ PassFrame s s' ∧ Stored removed s s' := by
  obtain ⟨h1, h2⟩ := h
  have h1' : PassOk P Γ s (true, s') := h1
  cases h1' with
  | done _ hp hf => exact ⟨hp, hf, h2 (by simp)⟩

/-- In the run of a pass the item of the schedule is taken up in the state. -/
inductive TakenUp {α : Type} (step : α → Solver → Option Bool × Solver) :
    List α → Solver → α → Solver → Prop
  | here (a : α) (rest : List α) (s : Solver) : TakenUp step (a :: rest) s a s
  | later {a : α} {rest : List α} {s s' : Solver} {b : α} {t : Solver}
      (hstep : step a s = (none, s')) (h : TakenUp step rest s' b t) :
      TakenUp step (a :: rest) s b t

lemma TakenUp.mem {α : Type} {step : α → Solver → Option Bool × Solver} {schedule : List α}
    {a : α} {t : Solver} (h : TakenUp step schedule s a t) : a ∈ schedule := by
  induction h with
  | here a rest s => exact List.mem_cons_self
  | later _ _ ih => exact List.mem_cons_of_mem _ ih

/-- **A pass** is what the steps it takes are. -/
lemma runPass_takenUp {α : Type} {step : α → Solver → Option Bool × Solver} :
    ∀ (schedule : List α) (s : Solver), Prepared P Γ s →
      (∀ a s', TakenUp step schedule s a s' → Prepared P Γ s' → PassFrame s s' →
        Stored removed s s' → StepOk P Γ removed s' (step a s')) →
      PassOk P Γ s (runPass step schedule s) ∧
        ((runPass step schedule s).1 = true →
          Stored removed s (runPass step schedule s).2) := by
  intro schedule
  induction schedule with
  | nil => exact fun s h _ => ⟨.done s h (.refl s), fun _ => .refl s⟩
  | cons a schedule ih =>
    intro s h hstep
    have hok := hstep a s (.here a schedule s) h (.refl s) (.refl s)
    rw [runPass]
    cases he : step a s with
    | mk answer s₁ =>
    rw [he] at hok
    cases answer with
    | some b =>
      refine ⟨hok.1, fun hb => hok.2 ?_⟩
      rintro ⟨rfl⟩
      simp at hb
    | none =>
      obtain ⟨hp, hf, hst⟩ := hok.prepared
      obtain ⟨h1, h2⟩ := ih s₁ hp fun b s' hb hs' hf' hs₁ =>
        hstep b s' (.later he hb) hs' (hf.trans hf') (hst.trans hs₁)
      exact ⟨h1.of_frame hf, fun ht => hst.trans (h2 ht)⟩

lemma runPass_spec {α : Type} {step : α → Solver → Option Bool × Solver} (schedule : List α)
    (s : Solver) (h : Prepared P Γ s)
    (hstep : ∀ a ∈ schedule, ∀ s', Prepared P Γ s' → PassFrame s s' → Stored removed s s' →
      StepOk P Γ removed s' (step a s')) :
    PassOk P Γ s (runPass step schedule s) ∧
      ((runPass step schedule s).1 = true → Stored removed s (runPass step schedule s).2) :=
  runPass_takenUp schedule s h fun a s' ha => hstep a ha.mem s'

/-- Every item is taken up in a prepared state, after steps that were in order. -/
lemma TakenUp.spec {α : Type} {step : α → Solver → Option Bool × Solver} {schedule : List α}
    {a : α} {t : Solver} (h : TakenUp step schedule s a t) (hs : Prepared P Γ s)
    (hstep : ∀ a ∈ schedule, ∀ s', Prepared P Γ s' → PassFrame s s' → Stored removed s s' →
      StepOk P Γ removed s' (step a s')) :
    a ∈ schedule ∧ Prepared P Γ t ∧ PassFrame s t ∧ Stored removed s t := by
  induction h with
  | here a rest s => exact ⟨List.mem_cons_self, hs, .refl s, .refl s⟩
  | @later a rest s s' b t he _ ih =>
    have hok := hstep a List.mem_cons_self s hs (.refl s) (.refl s)
    rw [he] at hok
    obtain ⟨hp, hf, hst⟩ := hok.prepared
    obtain ⟨hm, hp', hf', hst'⟩ := ih hp fun b hb s' hs' hf' hs₁ =>
      hstep b (List.mem_cons_of_mem _ hb) s' hs' (hf.trans hf') (hst.trans hs₁)
    exact ⟨List.mem_cons_of_mem _ hm, hp', hf.trans hf', hst.trans hst'⟩

end

/-! ### Propagation at the root -/

lemma AtRoot.propagateInternal (h : AtRoot P Γ s) (O : Oracle) (hctl : s.searchControlActive = false)
    (hdef : s.shadowDeferredRootConflict = none) (hign : mode.ignored = none) :
    match s.propagateInternal O mode with
    | (some _, s') => Unsat Γ ∧ s'.toSession = s.toSession
    | (none, s') => AtRoot P Γ s' ∧ s'.propagationHead = s'.trail.length ∧
        s'.shadowDeferredRootConflict = none ∧ Kept s s' ∧
        ClauseDb.Same s.toClauseDb s'.toClauseDb := by
  have hign' : ∀ (c : ClauseRef) (l : Lit), mode.ignored = some c → ¬ s.Done l → exempt P c l := by
    simp [hign]
  obtain ⟨hp, hok⟩ := propagateInternal_spec O h.core h.settled hign'
  have hkept : Kept s (s.propagateInternal O mode).2 := .of_propagated h.core hp
  generalize s.propagateInternal O mode = r at hp hok hkept
  obtain ⟨conflict, s'⟩ := r
  have h0 : s'.decisionLevel = 0 := hp.trail.decisionLevel.trans h.root
  cases conflict with
  | some c =>
    have hconf : Conflict Γ (exempt P) c s' := hok
    exact ⟨hconf.unsat h0, hp.session⟩
  | none =>
    obtain ⟨h1, h2, h3⟩ := hok
    refine ⟨⟨h1, h2, h0⟩, h3.resolve_right fun hs => ?_, hp.deferred.trans hdef, hkept,
      hp.db⟩
    rw [hp.controlActive, hctl] at hs
    simp at hs

/-- A way to propagate at the root that ignores no clause. -/
def PropagatesAll (O : Oracle) (propagate : Solver → Option ClauseRef × Solver) : Prop :=
  ∃ mode : PropagationMode, mode.ignored = none ∧ ∀ s : Solver,
    s.shadowDeferredRootConflict = none → propagate s = s.propagateInternal O mode

lemma propagatesAll_propagate (O : Oracle) : PropagatesAll O (propagate O) :=
  ⟨{}, rfl, fun s hs => by rw [propagate, hs]⟩

lemma propagatesAll_probe (O : Oracle) (savePhase : Bool) :
    PropagatesAll O (propagateProbe O savePhase) := ⟨_, rfl, fun _ _ => rfl⟩

lemma propagatesAll_vivification (O : Oracle) (savePhase : Bool) :
    PropagatesAll O (propagateVivification O savePhase none) := ⟨_, rfl, fun _ _ => rfl⟩

/-! ### Units -/

lemma Complete.of_satisfies' (h : Complete Γ s) (hrec : s'.eliminationRecords = s.eliminationRecords)
    (hsat : ∀ m, Satisfies m s' → Satisfies m s) : Complete Γ s' := by
  intro m h1 h2
  obtain ⟨h3, h4⟩ := hsat m ⟨h1, h2⟩
  rw [extendModel, hrec]
  exact h m h3 h4

/-- A state from which a pass returns to a fixpoint: the models have not changed once the unit
`l` holds. -/
structure UnitPending (P : Prop) (Γ : Set (List Lit)) (l : Lit) (s s₁ : Solver) : Prop
    extends AtRoot P Γ s₁ where
  deferred : s₁.shadowDeferredRootConflict = none
  session : s₁.toSession = s.toSession
  entailed : Entails Γ [l]
  lt : l.var < s₁.variableCount
  present : l.var ∉ s₁.eliminatedVariables
  sat : ∀ m, Satisfies m s₁ → l.Holds m → Satisfies m s

/-- **A derived unit is installed.** -/
lemma installUnit_spec {propagate : Solver → Option ClauseRef × Solver}
    (hprop : PropagatesAll O propagate) (h : Prepared P Γ s) {s₁ : Solver}
    (hu : UnitPending P Γ l s s₁) : PassOk P Γ s (installUnit propagate l s₁) ∧
      ((installUnit propagate l s₁).1 = true →
        Stored (fun _ => False) s₁ (installUnit propagate l s₁).2) := by
  obtain ⟨mode, hign, hprop⟩ := hprop
  have hidle : s₁.searchControlActive = false :=
    (congrArg Session.searchControlActive hu.session).trans h.idle
  -- propagating from a state in which the unit holds
  have hfinish : ∀ s₂, AtRoot P Γ s₂ → s₂.shadowDeferredRootConflict = none →
      s₂.toSession = s.toSession → (∀ m, Satisfies m s₂ → Satisfies m s) →
      s₂.toClauseDb = s₁.toClauseDb → ∀ r, r = (match propagate s₂ with
        | (some _, s) => (false, s)
        | (none, s) => (true, s)) →
      PassOk P Γ s r ∧ (r.1 = true → Stored (fun _ => False) s₁ r.2) := by
    intro s₂ hroot hdef hsession hsat hdb r hr
    have hidle₂ : s₂.searchControlActive = false :=
      (congrArg Session.searchControlActive hsession).trans h.idle
    have hspec := hroot.propagateInternal O hidle₂ hdef hign
    rw [hprop s₂ hdef] at hr
    generalize s₂.propagateInternal O mode = r' at hspec hr
    obtain ⟨conflict, s₃⟩ := r'
    cases conflict with
    | some c =>
      subst hr
      exact ⟨.refuted s₃ hspec.1 (.of_session (hspec.2.trans hsession)), by simp⟩
    | none =>
      subst hr
      obtain ⟨h1, h2, h3, h4, h5⟩ := hspec
      have hs₃ := h4.session.trans hsession
      refine ⟨.done s₃ ⟨h1, h2, h3, (congrArg Session.searchControlActive hs₃).trans h.idle, ?_⟩
        (.of_session hs₃), fun _ => .of_same (hs₃.trans hu.session.symm) (hdb ▸ h5)⟩
      exact h.complete.of_satisfies' (congrArg Session.eliminationRecords hs₃)
        fun m hm => hsat m (hm.of_kept h4)
  rw [installUnit, enqueue]
  cases hv : s₁.value l with
  | some b =>
    have hlevel : s₁.levels l.var = 0 := hu.core.level_root hu.root hu.present (by simp [hv])
    cases b with
    | true =>
      have he : s₁.enqueueInternal true l none = (true, s₁) := by simp [enqueueInternal, hv]
      rw [he]
      have hmem := (hu.core.trail.mem_iff hu.present).2 hv
      exact hfinish s₁ hu.toAtRoot hu.deferred hu.session (fun m hm =>
        hu.sat m hm (hm.2 l hmem hlevel)) rfl _ rfl
    | false =>
      have he : s₁.enqueueInternal true l none = (false, s₁) := by simp [enqueueInternal, hv]
      rw [he]
      have hneg := (hu.core.trail.neg_mem_iff hu.present).2 hv
      refine ⟨.refuted s₁ (hu.entailed.unsat_of_refuted fun q hq => ?_) (.of_session hu.session),
        by simp⟩
      rw [List.mem_singleton.1 hq]
      exact hu.core.root (-l) hneg hlevel
  | none =>
    rw [enqueueInternal_of_none true hv]
    have hkept : Kept s₁ (s₁.assign true l none) := .assign hu.core true hv none
    refine hfinish (s₁.assign true l none) ⟨hu.core.assign true hv hu.lt (by simp)
      fun _ _ => hu.entailed, hu.settled.assign hu.core true hv none, hu.root⟩ hu.deferred hu.session
      (fun m hm => hu.sat m (hm.of_kept hkept)
        (hm.2 l (by simp [Solver.assign, TrailState.push]) ?_)) rfl _ rfl
    show Function.update s₁.levels l.var s₁.decisionLevel l.var = 0
    rw [Function.update_self]
    exact hu.root

/-! ### Stronger clauses -/

/-- At the root the literals contain a true one, or the first two are unassigned: the watches of
such a clause do not miss that it becomes unit. -/
def Sighted (s : Solver) (literals : List Lit) : Prop :=
  (∃ q ∈ literals, s.value q = some true) ∨ ∀ q ∈ literals.take 2, s.value q = none

lemma settledAt_of_rootTrue {D : Lit → Prop} (h : s.RootTrue c) : s.SettledAt D c l := by
  refine ⟨fun _ => ?_, fun _ _ => .inl h, fun _ _ => .inl h⟩
  obtain ⟨q, hq, hv, h0⟩ := h
  exact ⟨q, hq, hv, h0 ▸ Nat.zero_le _⟩

/-- What replaces the clause `c`. -/
structure Strengthens (P : Prop) (Γ : Set (List Lit)) (s : Solver) (c : ClauseRef)
    (literals : List Lit) : Prop where
  active : s.Active c
  original : (s.clause c).learned = false
  subperm : literals.Subperm (s.literals c)
  nonempty : literals ≠ []
  entailed : Entails Γ literals
  watches : P → 2 ≤ literals.length → s.Sighted literals

lemma Strengthens.nodup (h : Strengthens P Γ s c literals) (hcore : Core Γ s) :
    (literals.map Literal.var).Nodup := by
  obtain ⟨kept, hperm, hsub⟩ := h.subperm
  exact (hperm.map _).nodup_iff.1 ((hcore.db.nodup c h.active.1).sublist (hsub.map _))

/-- The state once the clause has been deleted. -/
lemma Prepared.discard (h : Prepared P Γ s) (literals : List Lit) (c : ClauseRef) :
    AtRoot P Γ ((s.proofAdd literals).markClauseDeleted c) := by
  have hcore : Core Γ (s.proofAdd literals) :=
    h.core.congr rfl rfl rfl rfl rfl h.core.branching
  have hset : (s.proofAdd literals).Settled (s.proofAdd literals).Done (exempt P) :=
    h.settled.congr_done rfl rfl rfl
  exact ⟨hcore.markClauseDeleted c, hset.markClauseDeleted' c, h.root⟩

/-- An assignment that satisfies what is left and the stronger clause satisfies what there was. -/
lemma Satisfies.restore {m : ℕ → Bool} {literals : List Lit}
    (hm : Satisfies m ((s.proofAdd literals).markClauseDeleted c)) (hsat : Sat m literals)
    (hsub : literals ⊆ s.literals c) : Satisfies m s := by
  refine ⟨fun d hd => ?_, hm.2⟩
  by_cases hdc : d = c
  · subst hdc
    exact hsat.mono hsub
  · have hd' : ((s.proofAdd literals).markClauseDeleted c).Original d :=
      ⟨ClauseDb.active_delete.2 ⟨hd.1, hdc⟩, learned_markClauseDeleted.trans hd.2⟩
    have := hm.1 d hd'
    rwa [literals_markClauseDeleted] at this

/-- **A clause is replaced by a stronger one.** -/
lemma installStrengthened_spec {propagate : Solver → Option ClauseRef × Solver}
    (hprop : PropagatesAll O propagate) (h : Prepared P Γ s)
    (hs : Strengthens P Γ s c literals) :
    PassOk P Γ s (installStrengthened propagate c literals s) ∧
      ((installStrengthened propagate c literals s).1 = true →
        Stored (· = c) s (installStrengthened propagate c literals s).2) := by
  have hroot := h.discard literals c
  have hlt : ∀ l ∈ literals, l.var < s.variableCount := fun l hl =>
    h.core.db.lt c hs.active.1 l (hs.subperm.subset hl)
  have havoid : ∀ l ∈ literals, l.var ∉ s.eliminatedVariables := fun l hl =>
    h.core.active_var hs.active (hs.subperm.subset hl)
  match literals, hs, hroot, hlt, havoid with
  | [], hs, _, _, _ => exact absurd rfl hs.nonempty
  | [l], hs, hroot, hlt, havoid =>
    obtain ⟨h1, h2⟩ := installUnit_spec hprop h ⟨hroot, h.deferred, rfl, hs.entailed,
      hlt l (by simp), havoid l (by simp),
      fun m hm hl => hm.restore ⟨l, by simp, hl⟩ hs.subperm.subset⟩
    exact ⟨h1, fun ht => (Stored.discard s [l] c).trans ((h2 ht).mono fun _ hf => hf.elim)⟩
  | a :: b :: rest, hs, hroot, hlt, havoid =>
    set s₁ := (s.proofAdd (a :: b :: rest)).markClauseDeleted c with hs₁
    have hi : Insertable Γ s₁ (a :: b :: rest) :=
      ⟨hs.nodup h.core, hlt, havoid, hs.entailed⟩
    have hcore := hroot.core.addOriginal hi (by simp)
    have hkept := Kept.addClauseToDb s₁ (a :: b :: rest) false
    refine ⟨.done _ ⟨⟨hcore, ?_, hroot.root⟩, h.head, h.deferred, h.idle, ?_⟩ (.of_session rfl),
      fun _ => (Stored.discard s _ c).trans (.store s₁ _)⟩
    · refine hroot.settled.addClauseToDb.unexempt fun d hd q hq hY hX hD => ?_
      obtain rfl := hY.resolve_left hX
      have hq' : q ∈ ((s₁.addClauseToDb (a :: b :: rest) false).literals
          (s₁.nextReference (a :: b :: rest))).take 2 := hq
      rw [literals_addClauseToDb_next] at hq'
      rcases hs.watches (by_contra hX) (by simp) with ⟨r, hr, hrt⟩ | hopen
      · refine settledAt_of_rootTrue ⟨r, by rwa [literals_addClauseToDb_next], hrt, ?_⟩
        exact h.core.level_root h.root (havoid r hr) (by simp [hrt])
      · have hfalse := h.core.trail.value_of_mem (TrailState.Done.mem hD)
        rw [TrailState.value_neg_eq_true_iff, hopen q hq'] at hfalse
        simp at hfalse
    · refine h.complete.of_satisfies' rfl fun m hm => ?_
      have hnew := hm.1 _ (original_next s₁ (a :: b :: rest))
      rw [literals_addClauseToDb_next] at hnew
      exact (hm.of_kept hkept).restore hnew hs.subperm.subset

end Solver

end Satrap
