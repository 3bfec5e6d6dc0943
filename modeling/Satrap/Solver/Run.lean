/-
# The search loop is sound

One iteration keeps `Searching` and hence so does a run of any length.  An answer is right
for the clauses and the assumptions: a refutation comes from a conflict at the root or from a
false assumption, a model from a complete assignment under which no watch is violated.
Interrupting the loop leaves a state (`Resting`) in which a conflict that was dropped is still
waiting to be found.
-/
import Satrap.Solver.Reactivation
import Satrap.Solver.Decision
import Satrap.Solver.Failure

namespace Satrap

open Logic

namespace Solver

variable {P : Prop}
variable {Γ : Set (List Lit)} {O : Oracle} {s s' : Solver} {c d : ClauseRef} {l q : Lit}
  {A : List Lit} {D : Lit → Prop} {X Y : ClauseRef → Lit → Prop}

/-- What holds between the iterations of the search loop. -/
structure Searching (P : Prop) (Γ : Set (List Lit)) (A : List Lit) (s : Solver) : Prop where
  core : Core Γ s
  aligned : Aligned A s.toTrailState
  settled : s.Settled s.Done (exempt P) ∨ s.Pending ∧ s.shadowDeferredRootConflict ≠ none
  rooted : s.shadowDeferredRootConflict ≠ none → s.decisionLevel = 0

/-! ### Restarts and mode changes -/

lemma Calm.searching (h : Calm P Γ A s) : Searching P Γ A s :=
  ⟨h.core, h.aligned, .inl h.settled, fun hne => absurd h.deferred hne⟩

lemma Resumable.searching (h : Resumable Γ (exempt P) s) (A : List Lit) : Searching P Γ A s :=
  ⟨h.core, .of_root h.core.trail h.root, h.settled, fun _ => h.root⟩

lemma Calm.restartReuseLevel (h : Calm P Γ A s) (O : Oracle) :
    Calm P Γ A (s.restartReuseLevel O).2 ∧ Kept s (s.restartReuseLevel O).2 ∧
      (s.config.restartTrailReuse = .never → (s.restartReuseLevel O).1 = 0) := by
  rw [Solver.restartReuseLevel]
  split
  · exact ⟨h, .refl s, fun _ => rfl⟩
  next hne =>
  obtain ⟨-, hne⟩ := not_or.1 hne
  obtain ⟨order, level, he, hs, hsub⟩ : ∃ order level,
      s.restartReuseCandidate O = (level, { s with order := order }) ∧ order.Ok ∧
        (∀ v, order.Mem v → s.order.Mem v) ∧
        (∀ v, s.assignments v = none → s.order.Mem v → order.Mem v) := by
    obtain ⟨h1, h2, h3, -, -⟩ := h.core.branching.order.peekMax_spec
      s.assignments (s.order.size + 1) (Nat.lt_succ_self _)
    rw [restartReuseCandidate]
    generalize s.order.peekMax s.assignments (O.activity s.clock) (s.order.size + 1) = r at h1 h2 h3
    obtain ⟨next, order⟩ := r
    cases next with
    | none => exact ⟨order, _, rfl, h1, h2, h3⟩
    | some v => exact ⟨order, _, rfl, h1, h2, h3⟩
  rw [he]
  have hb := h.core.branching
  have hcalm : Calm P Γ A ({ s with order := order } : Solver).tick := by
    refine h.congr rfl rfl rfl rfl rfl ⟨hs, fun v hv hn => hsub.2 v hn (hb.order_mem v hv hn),
      fun v hv => hb.order_lt v (hsub.1 v hv), hb.transferOrder, hb.transfer_mem, hb.transfer_lt,
      hb.vmtf, hb.vmtf_size⟩
  have hkept : Kept s ({ s with order := order } : Solver).tick := .of_eq rfl rfl rfl
  dsimp only
  split
  · exact ⟨hcalm, hkept, fun hn => absurd hn hne⟩
  · exact ⟨hcalm, hkept, fun _ => rfl⟩

lemma Calm.applyVotes (h : Calm P Γ A s) (O : Oracle) : Calm P Γ A (s.applyVotes O) := by
  have hb := h.core.branching
  exact h.congr rfl rfl rfl rfl rfl ⟨hb.order, hb.order_mem, hb.order_lt, hb.transferOrder,
    hb.transfer_mem, hb.transfer_lt, hb.vmtf, hb.vmtf_size⟩

lemma Calm.restart (h : Calm P Γ A s) (O : Oracle) :
    Searching P Γ A (s.restart O) ∧ Kept s (s.restart O) ∧
      (s.config.shadowClauseReactivation = true → (s.restart O).decisionLevel = 0) := by
  obtain ⟨h1, h2, h3⟩ := h.restartReuseLevel O
  rw [Solver.restart]
  generalize s.restartReuseLevel O = r at h1 h2 h3
  obtain ⟨level, s₁⟩ := r
  dsimp only at h1 h2 h3 ⊢
  have h4 := (h1.cancelUntil O level).applyVotes O
  have hvotes : Kept (s₁.cancelUntil O level) ((s₁.cancelUntil O level).applyVotes O) :=
    .of_eq rfl rfl rfl
  have h5 : Kept s ((s₁.cancelUntil O level).applyVotes O) :=
    (h2.trans (.cancelUntil h1.core O level)).trans hvotes
  split
  · next hconfig =>
    have hlevel : level = 0 := by
      refine h3 (s.config.shadow_never ?_)
      rw [← congrArg Session.config h5.session]
      exact hconfig
    have h0 : ((s₁.cancelUntil O level).applyVotes O).decisionLevel = 0 := by
      show (s₁.cancelUntil O level).decisionLevel = 0
      rw [cancelUntil_decisionLevel, hlevel, Nat.zero_min]
    obtain ⟨h6, h7⟩ := h4.finalizeShadowClausesAtRoot O hconfig h0
    exact ⟨h6.searching A, h5.trans h7, fun _ => h6.root⟩
  · next hconfig =>
    refine ⟨h4.searching, h5, fun hs => absurd ?_ hconfig⟩
    exact (congrArg (fun t : Session => t.config.shadowClauseReactivation) h5.session).trans hs

lemma Calm.rephase (h : Calm P Γ A s) (O : Oracle) (phases : ℕ → Bool) :
    Calm P Γ A (s.rephase O phases) ∧ Kept s (s.rephase O phases) := by
  have hc := h.cancelUntil O 0
  have hb := hc.core.branching
  have hkept : Kept (s.cancelUntil O 0) (s.rephase O phases) := .of_eq rfl rfl rfl
  exact ⟨hc.congr rfl rfl rfl rfl rfl ⟨hb.order, hb.order_mem, hb.order_lt, hb.transferOrder,
    hb.transfer_mem, hb.transfer_lt, hb.vmtf, hb.vmtf_size⟩,
    (Kept.cancelUntil h.core O 0).trans hkept⟩

lemma Calm.changeBranching (h : Calm P Γ A s) (O : Oracle) :
    Searching P Γ A (s.changeBranching O) ∧ Kept s (s.changeBranching O) := by
  have hb := h.core.branching
  have htick : Kept s s.tick := .of_eq rfl rfl rfl
  rw [Solver.changeBranching]
  split
  · refine ⟨Calm.searching (h.congr rfl rfl rfl rfl rfl ?_), .of_eq rfl rfl rfl⟩
    refine hb.of_same (.refl hb.order) (fun ht => .refl (hb.transferOrder ht)) ?_
    dsimp only
    split
    · exact hb.vmtf.resetSearch
    · exact ⟨hb.vmtf, rfl⟩
  split
  · exact ⟨Calm.searching (h.congr rfl rfl rfl rfl rfl ⟨hb.order, hb.order_mem, hb.order_lt,
      hb.transferOrder, hb.transfer_mem, hb.transfer_lt, hb.vmtf, hb.vmtf_size⟩),
      .of_eq rfl rfl rfl⟩
  split
  · obtain ⟨h1, h2, -⟩ := h.tick.restart O
    exact ⟨h1, htick.trans h2⟩
  · exact ⟨h.tick.searching, htick⟩

lemma Calm.changeMode (h : Calm P Γ A s) (O : Oracle) :
    Searching P Γ A (s.changeMode O) ∧ Kept s (s.changeMode O) := by
  have htick : Kept s s.tick := .of_eq rfl rfl rfl
  rw [Solver.changeMode]
  split
  · split
    · obtain ⟨h1, h2⟩ := h.tick.rephase O _
      exact ⟨h1.searching, htick.trans h2⟩
    · obtain ⟨h1, h2⟩ := h.tick.changeBranching O
      exact ⟨h1, htick.trans h2⟩
  · obtain ⟨h1, h2⟩ := h.tick.changeBranching O
    exact ⟨h1, htick.trans h2⟩

/-! ### Between queries -/

/-- What holds of a consistent solver between queries: the watch invariant, or a root conflict
that the next propagation finds. -/
structure Resting (P : Prop) (Γ : Set (List Lit)) (s : Solver) : Prop where
  core : Core Γ s
  settled : s.Settled s.Done (exempt P) ∨ s.Pending

lemma Resting.congr (h : Resting P Γ s) (ht : s'.toTrailState = s.toTrailState)
    (hdb : s'.toClauseDb = s.toClauseDb) (hsession : s'.toSession = s.toSession)
    (hdeferred : s'.shadowDeferredRootConflict = s.shadowDeferredRootConflict)
    (hseen : s'.seen = s.seen) (hb : s'.toBranching = s.toBranching) : Resting P Γ s' where
  core := h.core.congr ht hdb hsession hdeferred hseen (hb ▸ h.core.branching)
  settled := by
    have hconfig := congrArg Session.config hsession
    refine h.settled.imp (fun hs => hs.congr_done ht hdb hconfig) ?_
    rintro ⟨c, hact, hsh, hf, l, hl, hd⟩
    refine ⟨c, by rwa [hdb], ?_, fun q hq => ?_, l, by rwa [hdb], by rwa [ht]⟩
    · cases c with
      | binary i => rfl
      | long i => simpa only [clauseIsShadow, hdb, hconfig] using hsh
    · rw [literals, hdb] at hq
      rw [RootFalse, ht]
      exact hf q hq

lemma Pending.cancelUntil (hp : s.Pending) (h : Core Γ s) (O : Oracle) (level : ℕ) :
    (s.cancelUntil O level).Pending := by
  obtain ⟨c, hact, hsh, hf, l, hl, hd⟩ := hp
  have hc := cancelled_cancelUntil O s level
  refine ⟨c, by rwa [hc.db], (hc.isShadow c).trans hsh, fun q hq => ?_, l, by rwa [hc.db],
    fun hd' => hd ((h.done_cancelUntil O level).1 hd').1⟩
  rw [hc.literals] at hq
  have hmem := h.rootFalse_mem hact hq (hf q hq)
  obtain ⟨h1, h2⟩ := (Kept.cancelUntil h O level).root (-q) hmem (hf q hq).2
  exact ⟨TrailState.value_neg_eq_true_iff.1
    ((h.cancelUntil O level).trail.value_of_mem h1), h2⟩

lemma Resting.cancelUntil (h : Resting P Γ s) (O : Oracle) (level : ℕ) :
    Resting P Γ (s.cancelUntil O level) where
  core := h.core.cancelUntil O level
  settled := h.settled.imp (fun hs => hs.cancelUntil_done h.core O level)
    fun hp => hp.cancelUntil h.core O level

lemma Searching.resting (h : Searching P Γ A s) : Resting P Γ s :=
  ⟨h.core, h.settled.imp_right And.left⟩

/-- Every assignment that satisfies the original clauses and the root assignment extends to a
model of the given clauses. -/
def Complete (Γ : Set (List Lit)) (s : Solver) : Prop :=
  ∀ m : ℕ → Bool, (∀ c, s.Original c → Sat m (s.literals c)) →
    (∀ l ∈ s.trail, s.levels l.var = 0 → l.Holds m) →
    ∃ m', s.extendModel m = some m' ∧ Models m' Γ

lemma Complete.kept (h : Complete Γ s) (hk : Kept s s') : Complete Γ s' := by
  intro m horig hroot
  have he : s'.extendModel m = s.extendModel m := by
    rw [extendModel, congrArg Session.eliminationRecords hk.session, extendModel]
  rw [he]
  refine h m (fun c hc => ?_) fun l hl h0 => ?_
  · obtain ⟨h1, h2⟩ := hk.original c hc
    exact (horig c h1).mono h2.subset
  · obtain ⟨h1, h2⟩ := hk.root l hl h0
    exact hroot l h1 h2

/-! ### Propagation within the loop -/

/-- What `propagate` comes to in the search loop. -/
inductive PropagateCase (P : Prop) (Γ : Set (List Lit)) (A : List Lit) (s : Solver) :
    Option ClauseRef → Solver → Prop
  | refuted (c : ClauseRef) (s' : Solver) (unsat : Unsat Γ) (root : s'.decisionLevel = 0)
      (resting : Resting P Γ s') (kept : Kept s s') : PropagateCase P Γ A s (some c) s'
  | conflict (c : ClauseRef) (s' : Solver) (conflict : Conflict Γ (exempt P) c s')
      (aligned : Aligned A s'.toTrailState) (deferred : s'.shadowDeferredRootConflict = none)
      (level : 0 < s'.decisionLevel) (kept : Kept s s') : PropagateCase P Γ A s (some c) s'
  | done (s' : Solver) (calm : Calm P Γ A s')
      (head : s'.propagationHead = s'.trail.length ∨
        s'.searchControlActive = true ∧ s'.stopReason ≠ none)
      (kept : Kept s s') : PropagateCase P Γ A s none s'

lemma Conflict.unsat (h : Conflict Γ X c s) (h0 : s.decisionLevel = 0) : Unsat Γ := by
  refine h.core.unsat_of_rootFalse h.active.1 fun l hl => ?_
  have hneg := (h.core.trail.neg_mem_iff (h.core.active_var h.active hl)).2 (h.falsified l hl)
  have hle := h.core.trail.level_le hneg
  rw [Literal.var_neg, h0] at hle
  exact ⟨hneg, Nat.le_zero.1 hle⟩

/-- A conflict at the root is pending, unless nothing is claimed of the watches. -/
lemma Conflict.settled_or_pending (h : Conflict Γ (exempt P) c s) (h0 : s.decisionLevel = 0) :
    s.Settled s.Done (exempt P) ∨ s.Pending := by
  by_cases hP : P
  · exact .inr (h.pending hP h0)
  · exact .inl (.of_not hP s _)

lemma Searching.propagate (h : Searching P Γ A s) (O : Oracle) :
    PropagateCase P Γ A s (s.propagate O).1 (s.propagate O).2 := by
  rw [Solver.propagate]
  cases hd : s.shadowDeferredRootConflict with
  | some c =>
    obtain ⟨h1, -, -⟩ := h.core.deferred c hd
    refine .refuted c _ (h.core.unsat_of_rootFalse h1 fun l hl => h.core.deferred_mem hd hl)
      (h.rooted (by simp [hd])) ⟨?_, ?_⟩ (.of_eq rfl rfl rfl)
    · exact ⟨h.core.trail, h.core.db, h.core.reason, h.core.entailed, h.core.root, by simp,
        h.core.branching, h.core.seen⟩
    · exact h.settled.imp (fun hs => hs.congr_done rfl rfl rfl) fun hp => hp.1
  | none =>
    have hset : s.Settled s.Done (exempt P) := h.settled.resolve_right fun hp => hp.2 hd
    obtain ⟨hp, hok⟩ := propagateInternal_spec O h.core hset
      (fun (c : ClauseRef) (l : Lit) (hc : PropagationMode.ignored {} = some c) => by simp at hc)
    dsimp only
    have hkept : Kept s (s.propagateInternal O {}).2 := .of_propagated h.core hp
    have hdef := hp.deferred.trans hd
    have haligned : ∀ {s'}, Propagated s s' → Core Γ s' → Aligned A s'.toTrailState := by
      intro s' hp' hc
      have ht := hc.trail
      rw [hp'.variableCount, hp'.eliminated] at ht
      exact h.aligned.propagated hp' h.core.trail ht
    generalize s.propagateInternal O {} = r at hp hok hkept hdef
    obtain ⟨conflict, s'⟩ := r
    cases conflict with
    | none =>
      obtain ⟨h1, h2, h3⟩ := hok
      exact .done s' ⟨h1, haligned hp h1, h2, hdef⟩ h3 hkept
    | some c =>
      have hconf : Conflict Γ (exempt P) c s' := hok
      rcases Nat.eq_zero_or_pos s'.decisionLevel with h0 | h0
      · exact .refuted c s' (hconf.unsat h0) h0 ⟨hconf.core, hconf.settled_or_pending h0⟩ hkept
      · exact .conflict c s' hconf (haligned hp hconf.core) hdef h0 hkept

/-! ### Answers -/

/-- Only the consistency flag and the core of the session have changed. -/
def SameSession (s s' : Solver) : Prop :=
  s'.toSession = { s.toSession with
    consistent := s'.consistent, failedAssumptions := s'.failedAssumptions }

/-- An answer that is right for the clauses `Γ` and the assumptions `A`; a model is promised
where `P` holds. -/
def AnswerOk (P : Prop) (Γ : Set (List Lit)) (A : List Lit) (O : Oracle) (s : Solver) :
    SolveResult → Solver → Prop
  | .sat model, s' =>
    (P → ∃ m, Models m Γ ∧ (∀ a ∈ A, a.Holds m) ∧
      model = ⟨(List.range s.externalVariableCount).map m⟩) ∧ Resting P Γ s' ∧ Kept s s'
  | .unsat, s' => SameSession s s' ∧
    ((Unsat Γ ∧ s'.consistent = false ∧ s'.failedAssumptions = s.failedAssumptions) ∨
      (FailedCore Γ A s'.failedAssumptions ∧ Resting P Γ s' ∧ s'.consistent = s.consistent ∧
        (Complete Γ s → Complete Γ s')))
  | .unknown _, s' => Core Γ s' ∧ Resting P Γ (s'.cancelUntil O 0) ∧ Kept s s'

/-- What the assumptions of a query have to satisfy. -/
structure Admissible (A : List Lit) (s : Solver) : Prop where
  lt : ∀ a ∈ A, a.var < s.variableCount
  present : ∀ a ∈ A, a.var ∉ s.eliminatedVariables

lemma Kept.eliminated (h : Kept s s') : s'.eliminatedVariables = s.eliminatedVariables := by
  rw [eliminatedVariables, congrArg Session.eliminationRecords h.session, eliminatedVariables]

lemma Admissible.kept (h : Admissible A s) (hk : Kept s s') : Admissible A s' where
  lt a ha := (congrArg Session.variableCount hk.session).symm ▸ h.lt a ha
  present a ha := hk.eliminated ▸ h.present a ha

/-- What an iteration may come to. -/
inductive OutcomeOk (P : Prop) (Γ : Set (List Lit)) (A : List Lit) (O : Oracle) (s : Solver) :
    SearchOutcome → Prop
  | continue (s' : Solver) (searching : Searching P Γ A s') (kept : Kept s s') :
    OutcomeOk P Γ A O s (.continue s')
  | answer (result : SolveResult) (s' : Solver) (ok : AnswerOk P Γ A O s result s') :
    OutcomeOk P Γ A O s (.answer result s')

lemma AnswerOk.of_kept {s₁ : Solver} (hk : Kept s s₁) {result : SolveResult}
    (h : AnswerOk P Γ A O s₁ result s') : AnswerOk P Γ A O s result s' := by
  cases result with
  | sat model =>
    obtain ⟨hm, hr, hk'⟩ := h
    rw [congrArg Session.externalVariableCount hk.session] at hm
    exact ⟨hm, hr, hk.trans hk'⟩
  | unsat =>
    obtain ⟨hs, h⟩ := h
    refine ⟨?_, h.imp (fun h => ⟨h.1, h.2.1, ?_⟩)
      fun h => ⟨h.1, h.2.1, ?_, fun hc => h.2.2.2 (hc.kept hk)⟩⟩
    · rw [SameSession, hs, hk.session]
    · rw [h.2.2, congrArg Session.failedAssumptions hk.session]
    · rw [h.2.2.1, congrArg Session.consistent hk.session]
  | unknown r => exact ⟨h.1, h.2.1, hk.trans h.2.2⟩

lemma OutcomeOk.of_kept {s₁ : Solver} (hk : Kept s s₁) {outcome : SearchOutcome}
    (h : OutcomeOk P Γ A O s₁ outcome) : OutcomeOk P Γ A O s outcome := by
  cases h with
  | «continue» s' hs hk' => exact .continue s' hs (hk.trans hk')
  | answer result s' ho => exact .answer result s' (ho.of_kept hk)

/-! ### The model -/

lemma extendRecord_of_ne {m m' : ℕ → Bool} {r : EliminationRecord} {v : ℕ}
    (h : extendRecord m r = some m') (hv : r.pivot ≠ v) : m' v = m v := by
  rw [extendRecord] at h
  split at h
  · simp at h
  · rw [Option.some.inj h]
  · rw [← Option.some.inj h, Function.update_of_ne hv.symm]

/-- Model extension leaves the other variables alone. -/
lemma extendModel_of_not_eliminated {m m' : ℕ → Bool} {v : ℕ} (h : s.extendModel m = some m')
    (hv : v ∉ s.eliminatedVariables) : m' v = m v := by
  have hind : ∀ (rs : List EliminationRecord) (m : ℕ → Bool), (∀ r ∈ rs, r.pivot ≠ v) →
      rs.foldlM extendRecord m = some m' → m' v = m v := by
    intro rs
    induction rs with
    | nil =>
      intro m _ he
      rw [Option.some.inj (show some m = some m' from he)]
    | cons r rs ih =>
      intro m hr he
      rw [List.foldlM_cons] at he
      obtain ⟨m₁, h1, h2⟩ := Option.bind_eq_some_iff.1 he
      rw [ih m₁ (fun r hr' => hr r (by simp [hr'])) h2]
      exact extendRecord_of_ne h1 (hr r (by simp))
  exact hind _ m (fun r hr he => hv ⟨r, by simpa using hr, he⟩) h

/-- The assignment read off a complete trail. -/
def assignment (s : Solver) (v : ℕ) : Bool := s.assignments v == some true

lemma holds_assignment (hv : s.value l = some true) : l.Holds s.assignment := by
  have := TrailState.value_eq_true_iff.1 hv
  simp only [Literal.Holds, assignment, this]
  cases l.positive <;> rfl

/-- **A complete assignment without violated watches is a model.** -/
lemma Calm.models (h : Calm P Γ A s) (hP : P) (hc : Complete Γ s) (hA : Admissible A s)
    (hhead : s.propagationHead = s.trail.length) (hall : ∀ v < s.variableCount,
      s.assignments v ≠ none) (hlevel : A.length ≤ s.decisionLevel) :
    ∃ m, s.extendModel s.assignment = some m ∧ Models m Γ ∧ ∀ a ∈ A, a.Holds m := by
  have horig : ∀ c, s.Original c → Sat s.assignment (s.literals c) := by
    intro c hoc
    obtain ⟨a, b, rest, hl, -⟩ := h.core.db.exists_eq hoc.1.1
    have hw : a ∈ s.watched c := by rw [ClauseDb.watched, hl]; simp
    have hmem : a ∈ s.literals c := List.mem_of_mem_take hw
    have hv : s.value a ≠ none := fun hn => hall a.var (h.core.db.lt c hoc.1.1 a hmem)
      (TrailState.value_eq_none_iff.1 hn)
    obtain ⟨q, hq, hqv⟩ := h.settled.exists_true h.core hhead hoc hw (fun hX => hX hP) hv
    exact ⟨q, hq, holds_assignment hqv⟩
  have hholds : ∀ l ∈ s.trail, l.Holds s.assignment := fun l hl =>
    holds_assignment (h.core.trail.value_of_mem hl)
  obtain ⟨m, hm, hmodels⟩ := hc s.assignment horig fun l hl _ => hholds l hl
  refine ⟨m, hm, hmodels, fun a ha => ?_⟩
  obtain ⟨k, hk⟩ := List.mem_iff_getElem?.1 ha
  have hlt := (List.getElem?_eq_some_iff.1 hk).1
  have hmem := (h.aligned.placed k a hk (hlt.trans_le hlevel)).1
  rw [Literal.Holds, extendModel_of_not_eliminated hm (hA.present a ha)]
  exact hholds a hmem

/-! ### One iteration -/

lemma resolveConflict_spec (O : Oracle) (hp : Conflict Γ (exempt P) c s)
    (hA : Aligned A s.toTrailState) (hdef : s.shadowDeferredRootConflict = none)
    (hlevel : 0 < s.decisionLevel) {outcome : SearchOutcome}
    (he : s.resolveConflict O c = some outcome) : OutcomeOk P Γ A O s outcome := by
  set s₁ : Solver := { s with conflicts := s.conflicts + 1 } with hs₁
  have hconf : Conflict Γ (exempt P) c s₁ :=
    hp.congr (hp.core.congr rfl rfl rfl rfl rfl hp.core.branching) rfl rfl rfl
  have hf : ∀ q ∈ s₁.literals c, -q ∈ s₁.trail := fun q hq =>
    (hconf.core.trail.neg_mem_iff (hconf.core.active_var hconf.active hq)).2 (hconf.falsified q hq)
  rw [resolveConflict, ← hs₁, if_neg (show ¬ s₁.decisionLevel = 0 from Nat.ne_of_gt hlevel)] at he
  split at he
  · simp at he
  next L s₂ ha =>
  obtain rfl := Option.some.inj he
  have hana := analyze_spec O hconf.core hconf.active.1 hf hlevel ha
  obtain ⟨h1, h2, h3, h4, h5⟩ := hconf.learn hA hana O
  have hcalm : Calm P Γ A (s₂.learn O L) := ⟨h1, h2, h3, h5.trans hdef⟩
  obtain ⟨h6, h7⟩ := hcalm.reduceDatabase O
  obtain ⟨h8, h9⟩ := h6.changeMode O
  have hkept : Kept s s₁ := .of_eq rfl rfl rfl
  exact .continue _ h8 (((hkept.trans h4).trans h7).trans h9)

/-! ### Without a conflict -/

lemma Core.newLevel (h : Core Γ s) (hhead : s.propagationHead = s.trail.length) :
    Core Γ s.newLevel where
  trail := h.trail.newLevel hhead
  db := h.db
  reason := h.reason
  entailed := h.entailed
  root := h.root
  deferred := h.deferred
  branching := h.branching
  seen := h.seen

lemma Settled.newLevel (h : s.Settled s.Done X) : s.newLevel.Settled s.newLevel.Done X :=
  fun c hc l hl hX hD => ⟨(h c hc l hl hX hD).original, (h c hc l hl hX hD).active,
    (h c hc l hl hX hD).shadow⟩

/-- A level is opened for an assumption that holds already. -/
lemma Calm.newLevel (h : Calm P Γ A s) (hhead : s.propagationHead = s.trail.length)
    (hnext : ∀ a, A[s.decisionLevel]? = some a → a ∈ s.trail) :
    Calm P Γ A s.newLevel ∧ Kept s s.newLevel :=
  ⟨⟨h.core.newLevel hhead, h.aligned.newLevel h.core.trail hnext, h.settled.newLevel, h.deferred⟩,
    fun _ hc => ⟨hc, .refl _⟩, fun _ hl h0 => ⟨hl, h0⟩, rfl⟩

/-- A level is opened and a literal decided on it. -/
lemma Calm.decide (h : Calm P Γ A s) (hhead : s.propagationHead = s.trail.length)
    (savePhase : Bool) (hl : s.value l = none) (hn : l.var < s.variableCount)
    (hnext : ∀ a, A[s.decisionLevel]? = some a → a = l) :
    Calm P Γ A (s.newLevel.assign savePhase l none) ∧
      Kept s (s.newLevel.assign savePhase l none) := by
  have hcore := h.core.newLevel hhead
  have hl' : s.newLevel.value l = none := hl
  have hkept : Kept s s.newLevel := ⟨fun _ hc => ⟨hc, .refl _⟩, fun _ hl h0 => ⟨hl, h0⟩, rfl⟩
  have hlevel : s.newLevel.decisionLevel ≠ 0 := by
    simp [Solver.newLevel, TrailState.newLevel, TrailState.decisionLevel]
  exact ⟨⟨hcore.assign savePhase hl' hn (by simp) fun _ h0 => absurd h0 hlevel,
    h.aligned.decide h.core.trail hhead hl hnext,
    h.settled.newLevel.assign hcore savePhase hl' none, h.deferred⟩,
    hkept.trans (.assign hcore savePhase hl' none)⟩

lemma enqueueInternal_none (savePhase : Bool) (hl : s.value l = none) (r : Option ClauseRef) :
    (s.newLevel.enqueueInternal savePhase l r).2 = s.newLevel.assign savePhase l r := by
  have hl' : s.newLevel.value l = none := hl
  rw [enqueueInternal_of_none savePhase hl']

/-- The literal picked for a decision is decided on a new level. -/
lemma Calm.decidePicked (h : Calm P Γ A s) (hhead : s.propagationHead = s.trail.length)
    {s₁ : Solver} (hpick : Picked s (some l.var) s₁) (hnone : A[s.decisionLevel]? = none) :
    Calm P Γ A (s₁.newLevel.enqueue l none).2 ∧ Kept s (s₁.newLevel.enqueue l none).2 := by
  obtain ⟨hlt, hn⟩ := hpick.picked l.var rfl
  have hv : s.value l = none := TrailState.value_eq_none_iff.2 hn
  obtain ⟨h1, h2⟩ := h.decide hhead true hv hlt fun b hb => by
    rw [hnone] at hb
    simp at hb
  have hv₁ : s₁.value l = none := by rw [hpick.trail]; exact hv
  rw [enqueue, enqueueInternal_none true hv₁]
  have ht : (s₁.newLevel.assign true l none).toTrailState =
      (s.newLevel.assign true l none).toTrailState := by
    show s₁.toTrailState.newLevel.push l none = s.toTrailState.newLevel.push l none
    rw [hpick.trail]
  have hb : (s₁.newLevel.assign true l none).toBranching.Ok s.variableCount
      (s.newLevel.assign true l none).assignments s.usesTransferBranching := by
    have hb' := hpick.branching
    refine Branching.Ok.mono ⟨hb'.order, hb'.order_mem, hb'.order_lt, hb'.transferOrder,
      hb'.transfer_mem, hb'.transfer_lt, hb'.vmtf, hb'.vmtf_size⟩ fun w hw => ?_
    have hw' : Function.update s.assignments l.var (some l.positive) w = none := hw
    by_cases hwl : w = l.var
    · rw [hwl, Function.update_self] at hw'
      simp at hw'
    · rw [Function.update_of_ne hwl] at hw'
      have hne : ¬ some l.var = some w := fun he => hwl (Option.some.inj he).symm
      rw [if_neg hne]
      exact hw'
  have h4 : Kept (s.newLevel.assign true l none) (s₁.newLevel.assign true l none) :=
    .of_eq ht hpick.db hpick.session
  exact ⟨h1.congr ht hpick.db hpick.session hpick.deferred hpick.seen hb, h2.trans h4⟩

lemma Calm.extendTrail (h : Calm P Γ A s) (hc : Complete Γ s) (hA : Admissible A s)
    (hhead : s.propagationHead = s.trail.length) (O : Oracle) {outcome : SearchOutcome}
    (he : s.extendTrail O A = some outcome) : OutcomeOk P Γ A O s outcome := by
  rw [Solver.extendTrail] at he
  split at he
  · next a ha =>
    have hav := hA.present a (List.mem_of_getElem? ha)
    have hnext : ∀ b, A[s.decisionLevel]? = some b → b = a := fun b hb =>
      (Option.some.inj (ha.symm.trans hb)).symm
    split at he
    · next hv =>
      obtain rfl := Option.some.inj he
      obtain ⟨h1, h2⟩ := h.newLevel hhead fun b hb =>
        hnext b hb ▸ (h.core.trail.mem_iff hav).2 hv
      exact .continue _ h1.searching h2
    · next hv =>
      obtain ⟨seen, hs, hseen⟩ := analyzeFailedAssumption_frame h.core a A
      have hfailed := analyzeFailedAssumption_spec h.core h.aligned ha hav hv
      split at he
      next core s₁ hcore =>
      rw [hcore] at hs hfailed
      dsimp only at hs hfailed
      obtain rfl := Option.some.inj he
      subst hs
      refine .answer _ _ ⟨rfl, .inr ⟨hfailed, ⟨?_, .inl ?_⟩, rfl, fun hc => hc⟩⟩
      · exact ⟨h.core.trail, h.core.db, h.core.reason, h.core.entailed, h.core.root,
          h.core.deferred, h.core.branching, hseen⟩
      · exact h.settled.congr_done rfl rfl rfl
    · next hv =>
      obtain rfl := Option.some.inj he
      rw [enqueueInternal_none false hv none]
      obtain ⟨h1, h2⟩ := h.decide hhead false hv (hA.lt a (List.mem_of_getElem? ha)) hnext
      exact .continue _ h1.searching h2
  · next hnone =>
    have hlevel : A.length ≤ s.decisionLevel := List.getElem?_eq_none_iff.1 hnone
    have hpick := pickBranchLiteral_spec O h.core
    split at he
    · next l s₁ hl =>
      rw [hl] at hpick
      obtain rfl := Option.some.inj he
      obtain ⟨h1, h2⟩ := h.decidePicked hhead hpick hnone
      exact .continue _ h1.searching h2
    · next s₁ hl =>
      rw [hl] at hpick
      have hall := hpick.all rfl
      have h1 : Calm P Γ A s₁ := by
        refine h.congr hpick.trail hpick.db hpick.session hpick.deferred hpick.seen ?_
        simpa using hpick.branching
      have h2 : Kept s s₁ := .of_eq hpick.trail hpick.db hpick.session
      rw [Option.map_eq_some_iff] at he
      obtain ⟨model, hbuild, rfl⟩ := he
      refine .answer _ _ ⟨fun hP => ?_, h1.searching.resting, h2⟩
      obtain ⟨m, hm, hmodels, hassumed⟩ := h1.models hP (hc.kept h2) (hA.kept h2)
        (by rw [hpick.trail]; exact hhead)
        (fun v hv => by
          rw [hpick.trail]
          exact hall v (congrArg Session.variableCount hpick.session ▸ hv))
        (by rw [hpick.trail]; exact hlevel)
      rw [buildModel, show s₁.extendModel (fun v => s₁.assignments v == some true) = some m
        from hm] at hbuild
      rw [← Option.some.inj hbuild, congrArg Session.externalVariableCount h2.session]
      exact ⟨m, hmodels, hassumed, rfl⟩

/-! ### The loop -/

lemma Kept.poll (O : Oracle) (s : Solver) : Kept s (s.pollSearchStop O).2 := by
  obtain ⟨n, r, he⟩ := poll_eq O s
  rw [he]
  exact .of_eq rfl rfl rfl

lemma Searching.poll (h : Searching P Γ A s) (O : Oracle) :
    Searching P Γ A (s.pollSearchStop O).2 := by
  have hcore := h.core.poll O
  obtain ⟨n, r, he⟩ := poll_eq O s
  rw [he] at hcore ⊢
  exact ⟨hcore, h.aligned, h.settled.imp (fun hs => hs.congr_done rfl rfl rfl) id, h.rooted⟩

lemma PropagateCase.resting {conflict : Option ClauseRef}
    (h : PropagateCase P Γ A s conflict s') (O : Oracle) :
    Core Γ s' ∧ Resting P Γ (s'.cancelUntil O 0) ∧ Kept s s' := by
  cases h with
  | refuted c s' hu h0 hr hk =>
    rw [cancelUntil_of_le O h0.le]
    exact ⟨hr.core, hr, hk⟩
  | conflict c s' hc hA hd hl hk =>
    exact ⟨hc.core, ⟨hc.core.cancelUntil O 0, .inl (hc.settled_cancelUntil O hl)⟩, hk⟩
  | done s' hc hh hk => exact ⟨hc.core, hc.searching.resting.cancelUntil O 0, hk⟩

lemma PropagateCase.poll {conflict : Option ClauseRef} (h : PropagateCase P Γ A s conflict s')
    (O : Oracle) : PropagateCase P Γ A s conflict (s'.pollSearchStop O).2 := by
  have hpoll := Kept.poll O s'
  obtain ⟨n, r, he⟩ := poll_eq O s'
  cases h with
  | refuted c s' hu h0 hr hk =>
    rw [he] at hpoll ⊢
    exact .refuted c _ hu h0 (hr.congr rfl rfl rfl rfl rfl rfl) (hk.trans hpoll)
  | conflict c s' hc hA hd hl hk =>
    rw [he] at hpoll ⊢
    exact .conflict c _ (hc.congr (hc.core.congr rfl rfl rfl rfl rfl hc.core.branching) rfl rfl rfl)
      hA hd hl (hk.trans hpoll)
  | done s' hc hh hk =>
    have hstop : s'.stopReason ≠ none → s'.searchControlActive = true →
        (s'.pollSearchStop O).2.stopReason ≠ none := by
      intro hne hact
      rw [pollSearchStop, hact]
      cases hs : s'.stopReason with
      | none => exact absurd hs hne
      | some r => simp [hs]
    have hh' : (s'.pollSearchStop O).2.propagationHead = (s'.pollSearchStop O).2.trail.length ∨
        (s'.pollSearchStop O).2.searchControlActive = true ∧
          (s'.pollSearchStop O).2.stopReason ≠ none := by
      rcases hh with hh | ⟨h1, h2⟩
      · rw [he]
        exact .inl hh
      · exact .inr ⟨(congrArg Session.searchControlActive hpoll.session).trans h1, hstop h2 h1⟩
    have hcalm : Calm P Γ A (s'.pollSearchStop O).2 := by
      rw [he]
      exact hc.congr rfl rfl rfl rfl rfl hc.core.branching
    exact .done _ hcalm hh' (hk.trans hpoll)

lemma poll_none (hn : (s.pollSearchStop O).1 = none) :
    ¬ ((s.pollSearchStop O).2.searchControlActive = true ∧
      (s.pollSearchStop O).2.stopReason ≠ none) := by
  rintro ⟨hact, hne⟩
  rw [congrArg Session.searchControlActive (Kept.poll O s).session] at hact
  have hnot : ¬ (!s.searchControlActive) = true := by simp [hact]
  rw [pollSearchStop, if_neg hnot] at hn hne
  cases hs : s.stopReason with
  | some r =>
    rw [hs] at hn
    simp at hn
  | none =>
    rw [hs] at hn hne
    exact hne hn

/-- **One iteration of the search loop.** -/
theorem searchStep_spec (O : Oracle) (h : Searching P Γ A s) (hc : Complete Γ s)
    (hA : Admissible A s) {outcome : SearchOutcome} (he : s.searchStep O A = some outcome) :
    OutcomeOk P Γ A O s outcome := by
  have hk₁ := Kept.poll O s
  have h₁ := h.poll O
  rw [searchStep] at he
  generalize s.pollSearchStop O = p₁ at he hk₁ h₁
  obtain ⟨r₁, s₁⟩ := p₁
  cases r₁ with
  | some r =>
    obtain rfl := Option.some.inj he
    exact .answer _ _ ⟨h₁.core, h₁.resting.cancelUntil O 0, hk₁⟩
  | none =>
  dsimp only at he hk₁ h₁
  refine OutcomeOk.of_kept hk₁ ?_
  have hc₁ := hc.kept hk₁
  have hA₁ := hA.kept hk₁
  have hcase := h₁.propagate O
  generalize s₁.propagate O = p₂ at he hcase
  obtain ⟨conflict, s₂⟩ := p₂
  dsimp only at he hcase
  have hcase' := hcase.poll O
  have hnot := @poll_none O s₂
  generalize s₂.pollSearchStop O = p₃ at he hcase' hnot
  obtain ⟨r₃, s₃⟩ := p₃
  dsimp only at hcase' hnot
  have hrest := hcase'.resting O
  cases r₃ with
  | some r =>
    obtain rfl := Option.some.inj he
    exact .answer _ _ hrest
  | none =>
  dsimp only at he
  cases hcase' with
  | refuted c _ hu h0 _ hk =>
    have hroot : s₃.resolveConflict O c = some (.answer .unsat
        { ({ s₃ with conflicts := s₃.conflicts + 1 } : Solver) with consistent := false }) := by
      rw [resolveConflict]
      exact if_pos h0
    obtain rfl := Option.some.inj (hroot.symm.trans he)
    have hfailed : s₃.failedAssumptions = s₁.failedAssumptions :=
      congrArg Session.failedAssumptions hk.session
    refine .answer _ _ ⟨?_, .inl ⟨hu, rfl, hfailed⟩⟩
    rw [SameSession, ← hk.session]
  | conflict c _ hconf hal hdef hlevel hk =>
    exact (resolveConflict_spec O hconf hal hdef hlevel he).of_kept hk
  | done _ hcalm hhead hk =>
    exact (hcalm.extendTrail (hc₁.kept hk) (hA₁.kept hk)
      (hhead.resolve_right (hnot rfl)) O he).of_kept hk

/-- **The search loop answers correctly**, however long it runs. -/
theorem search_spec (O : Oracle) : ∀ (fuel : ℕ) (s : Solver), Searching P Γ A s → Complete Γ s →
    Admissible A s → ∀ result s', s.search O A fuel = some (result, s') →
    AnswerOk P Γ A O s result s' := by
  intro fuel
  induction fuel with
  | zero => intro s _ _ _ result s' he; simp [search] at he
  | succ fuel ih =>
    intro s h hc hA result s' he
    rw [search] at he
    cases hstep : s.searchStep O A with
    | none => rw [hstep] at he; simp at he
    | some outcome =>
      rw [hstep] at he
      have hok := searchStep_spec O h hc hA hstep
      cases hok with
      | «continue» s₁ h₁ hk => exact (ih s₁ h₁ (hc.kept hk) (hA.kept hk) result s' he).of_kept hk
      | answer result₁ s₁ hans =>
        obtain ⟨rfl, rfl⟩ := Prod.mk.inj (Option.some.inj he)
        exact hans

end Solver

end Satrap
