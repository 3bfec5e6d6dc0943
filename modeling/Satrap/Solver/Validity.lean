/-
# The solver between operations

`Valid P Γ s` is what every operation of the incremental interface keeps, for the clauses `Γ`
given so far: a consistent solver rests and loses no model, an inconsistent one has been given
clauses without a model, and a cached answer is right.
-/
import Satrap.Solver.Insertion

namespace Satrap

open Logic

namespace Solver

variable {P : Prop}
variable {Γ Δ : Set (List Lit)} {O : Oracle} {s s' : Solver} {c d : ClauseRef} {l q : Lit}
  {A literals : List Lit}

/-! ### What the invariants depend on -/

/-- The two states agree on everything the invariants speak about. -/
structure Alike (s s' : Solver) : Prop where
  trail : s'.toTrailState = s.toTrailState
  db : s'.toClauseDb = s.toClauseDb
  branching : s'.toBranching = s.toBranching
  seen : s'.seen = s.seen
  deferred : s'.shadowDeferredRootConflict = s.shadowDeferredRootConflict
  config : s'.config = s.config
  variableCount : s'.variableCount = s.variableCount
  records : s'.eliminationRecords = s.eliminationRecords

namespace Alike

variable (ha : Alike s s')
include ha

lemma core (h : Core Γ s) : Core Γ s' := by
  have he : s'.eliminatedVariables = s.eliminatedVariables := by
    rw [eliminatedVariables, ha.records, eliminatedVariables]
  have hl : ∀ c, s'.literals c = s.literals c := fun c => by rw [literals, ha.db, literals]
  refine ⟨?_, ?_, fun i l c hi hr => ?_, fun c hc => ?_, fun l hl h0 => ?_, fun c hc => ?_, ?_,
    fun v => ?_⟩
  · rw [ha.trail, ha.variableCount, he]
    exact h.trail
  · rw [ha.db, ha.variableCount, he]
    exact h.db
  · rw [ha.trail] at hi hr ⊢
    rw [ha.db, hl]
    exact h.reason i l c hi hr
  · rw [hl]
    exact h.entailed c (ha.db ▸ hc)
  · rw [ha.trail] at hl h0
    exact h.root l hl h0
  · rw [ha.deferred] at hc
    rw [ha.db, hl]
    simp only [RootFalse, ha.trail]
    exact h.deferred c hc
  · rw [ha.branching, ha.variableCount, ha.trail, usesTransferBranching, ha.config]
    exact h.branching
  · rw [ha.seen]
    exact h.seen v

lemma pending (h : s.Pending) : s'.Pending := by
  obtain ⟨c, hact, hsh, hf, l, hl, hd⟩ := h
  refine ⟨c, by rwa [ha.db], ?_, fun q hq => ?_, l, by rwa [ha.db], by rwa [ha.trail]⟩
  · cases c with
    | binary i => rfl
    | long i => simpa only [clauseIsShadow, ha.db, ha.config] using hsh
  · rw [literals, ha.db] at hq
    rw [RootFalse, ha.trail]
    exact hf q hq

lemma resting (h : Resting P Γ s) : Resting P Γ s' :=
  ⟨ha.core h.core, h.settled.imp (fun hs => hs.congr_done ha.trail ha.db ha.config) ha.pending⟩

lemma satisfies {m : ℕ → Bool} (h : Satisfies m s') : Satisfies m s := by
  refine ⟨fun c hc => ?_, fun l hl h0 => h.2 l (ha.trail ▸ hl) (by rw [ha.trail]; exact h0)⟩
  have := h.1 c (by rwa [ha.db])
  rwa [literals, ha.db] at this

lemma complete (h : Complete Γ s) : Complete Γ s' := by
  intro m h1 h2
  have hs := ha.satisfies ⟨h1, h2⟩
  rw [extendModel, ha.records]
  exact h m hs.1 hs.2

end Alike

/-! ### Validity -/

/-- The answer is right for the clauses `Γ` and the assumptions `A`, in a solver with `n`
variables; a model is promised where `P` holds. -/
def Correct (P : Prop) (Γ : Set (List Lit)) (A : List Lit) (n : ℕ) : SolveResult → Prop
  | .sat model =>
    P → ∃ m, Models m Γ ∧ (∀ a ∈ A, a.Holds m) ∧ model = ⟨(List.range n).map m⟩
  | .unsat => ∀ m, Models m Γ → ¬ ∀ a ∈ A, a.Holds m
  | .unknown _ => True

/-- The core that a query under `assumptions` reports, the selectors left out. -/
def ReportedCore (Γ : Set (List Lit)) (selectors assumptions failed : List Lit) : Prop :=
  ∃ core, FailedCore Γ (selectors ++ assumptions) core ∧
    failed = core.filter fun l => decide (l ∈ assumptions)

/-- A solver that represents the clauses `Γ` and is not answering a query. -/
structure Valid (P : Prop) (Γ : Set (List Lit)) (s : Solver) : Prop where
  count : s.externalVariableCount ≤ s.variableCount
  vars : ∀ c ∈ Γ, ∀ l ∈ c, l.var < s.externalVariableCount
  idle : s.searchControlActive = false
  fresh : s.started = false → s.decisionLevel = 0 ∧ s.propagationHead = 0
  records : s.eliminationRecords ≠ [] → s.started = true ∧ s.irreversible = true
  consistent : s.consistent = true → Resting P Γ s ∧ Complete Γ s
  refuted : s.consistent = false → Unsat Γ
  cached : ∀ r, s.cachedResult = some r →
    Correct P Γ s.cachedAssumptions s.externalVariableCount r
  coreless : s.consistent = false → s.failedAssumptions = []
  core : s.cachedResult = some .unsat → s.consistent = true → ∃ assumptions,
    s.cachedAssumptions = s.scopeSelectors ++ assumptions ∧
      ReportedCore Γ s.scopeSelectors assumptions s.failedAssumptions

/-- A solver that is not answering a query and whose answers are right for the clauses `Δ`, which
may speak of variables that the client does not know. -/
structure Sound (P : Prop) (Δ : Set (List Lit)) (s : Solver) : Prop where
  count : s.externalVariableCount ≤ s.variableCount
  idle : s.searchControlActive = false
  fresh : s.started = false → s.decisionLevel = 0 ∧ s.propagationHead = 0
  records : s.eliminationRecords ≠ [] → s.started = true ∧ s.irreversible = true
  consistent : s.consistent = true → Resting P Δ s ∧ Complete Δ s
  refuted : s.consistent = false → Unsat Δ
  cached : ∀ r, s.cachedResult = some r →
    Correct P Δ s.cachedAssumptions s.externalVariableCount r
  coreless : s.consistent = false → s.failedAssumptions = []
  core : s.cachedResult = some .unsat → s.consistent = true → ∃ assumptions,
    s.cachedAssumptions = s.scopeSelectors ++ assumptions ∧
      ReportedCore Δ s.scopeSelectors assumptions s.failedAssumptions

lemma Valid.sound (h : Valid P Γ s) : Sound P Γ s :=
  ⟨h.count, h.idle, h.fresh, h.records, h.consistent, h.refuted, h.cached, h.coreless, h.core⟩

lemma Sound.valid (h : Sound P Γ s) (hv : ∀ c ∈ Γ, ∀ l ∈ c, l.var < s.externalVariableCount) :
    Valid P Γ s :=
  ⟨h.count, hv, h.idle, h.fresh, h.records, h.consistent, h.refuted, h.cached, h.coreless, h.core⟩

/-! ### A new solver -/

lemma core_withConfig (config : SolverConfig) : Core ∅ (withConfig config) where
  trail := by
    refine ⟨by simp [withConfig], by simp [withConfig], by simp [withConfig], ?_, by simp [withConfig],
      by simp [withConfig], by simp [withConfig], by simp [withConfig], by simp [withConfig]⟩
    simp [eliminatedVariables, withConfig]
  db := by
    have hnot : ∀ c, ¬ (withConfig config).Allocated c := by
      intro c
      cases c <;> simp [ClauseDb.Allocated, withConfig]
    exact ⟨fun c hc => absurd hc (hnot c), fun c hc => absurd hc (hnot c),
      fun c hc => absurd hc (hnot c), fun c hc => absurd hc (hnot c), by simp [withConfig],
      fun c hc => absurd hc.1 (hnot c), by simp [withConfig], by simp [withConfig],
      by simp [withConfig]⟩
  reason := by simp [withConfig]
  entailed c hc := by cases c <;> simp [ClauseDb.Allocated, withConfig] at hc
  root := by simp [withConfig]
  deferred := by simp [withConfig]
  branching := by
    have hmem : ∀ v, ¬ VarOrder.empty.Mem v := by
      rintro v ⟨p, hp, -⟩
      simp [VarOrder.empty] at hp
    exact ⟨VarOrder.empty_ok, by simp [withConfig], fun v hv => absurd hv (hmem v),
      fun _ => VarOrder.empty_ok, by simp [withConfig], fun _ v hv => absurd hv (hmem v),
      VmtfOrder.empty_ok, rfl⟩
  seen := by simp [withConfig]

lemma valid_withConfig (config : SolverConfig) : Valid P ∅ (withConfig config) where
  count := le_rfl
  vars := by simp
  idle := rfl
  fresh _ := ⟨rfl, rfl⟩
  records := by simp [withConfig]
  consistent _ := by
    refine ⟨⟨core_withConfig config, .inl ?_⟩, fun m _ _ => ⟨m, rfl, by simp [Models]⟩⟩
    rintro c - l - - ⟨i, hi, -⟩
    simp [withConfig] at hi
  refuted := by simp [withConfig]
  cached := by simp [withConfig]
  coreless := by simp [withConfig]
  core := by simp [withConfig]

/-! ### Preparing for a mutation -/

lemma Complete.of_satisfies (h : ∀ m, Satisfies m s → Models m Γ) (hr : s.eliminationRecords = []) :
    Complete Γ s := fun m h1 h2 => ⟨m, by simp [extendModel, hr], h m ⟨h1, h2⟩⟩

lemma Complete.models (h : Complete Γ s) (hr : s.eliminationRecords = []) {m : ℕ → Bool}
    (hm : Satisfies m s) : Models m Γ := by
  obtain ⟨m', he, hm'⟩ := h m hm.1 hm.2
  rw [extendModel, hr] at he
  obtain rfl : m = m' := by simpa using he
  exact hm'

/-- What a mutation starts from. -/
structure Mutable (P : Prop) (Γ : Set (List Lit)) (s : Solver) : Prop extends Valid P Γ s where
  root : s.decisionLevel = 0
  plain : s.eliminationRecords = []
  uncached : s.cachedResult = none
  unfailed : s.failedAssumptions = []

lemma Valid.prepareIncrementalMutation (h : Valid P Γ s) (O : Oracle)
    (hmut : ¬ (s.started = true ∧ s.irreversible = true)) :
    Mutable P Γ (s.prepareIncrementalMutation O) := by
  set s₁ : Solver := if s.started then s.cancelUntil O 0 else s with hs₁
  have hsession : s₁.toSession = s.toSession := by
    rw [hs₁]
    split
    · exact (cancelled_cancelUntil O s 0).session
    · rfl
  have hroot : s₁.decisionLevel = 0 := by
    rw [hs₁]
    split
    · rw [cancelUntil_decisionLevel, Nat.zero_min]
    · next hn => exact (h.fresh (by simpa using hn)).1
  have hcons : s.consistent = true → Resting P Γ s₁ ∧ Complete Γ s₁ := by
    intro hc
    obtain ⟨h1, h2⟩ := h.consistent hc
    rw [hs₁]
    split
    · exact ⟨h1.cancelUntil O 0, h2.kept (.cancelUntil h1.core O 0)⟩
    · exact ⟨h1, h2⟩
  have hfresh : s.started = false → s₁.propagationHead = 0 := by
    intro hn
    rw [hs₁, if_neg (by simp [hn])]
    exact (h.fresh hn).2
  have heq : s.prepareIncrementalMutation O = { s₁ with
      cachedResult := none, cachedAssumptions := [], failedAssumptions := [] } := rfl
  have hplain : s.eliminationRecords = [] := by
    by_contra hne
    exact hmut (h.records hne)
  have halike : Alike s₁ (s.prepareIncrementalMutation O) := by
    rw [heq]
    exact ⟨rfl, rfl, rfl, rfl, rfl, rfl, rfl, rfl⟩
  rw [heq] at halike ⊢
  refine ⟨⟨?_, ?_, ?_, fun hn => ⟨hroot, hfresh ?_⟩, ?_, fun hc => ?_, fun hc => ?_, by simp,
    fun _ => rfl, by simp⟩, hroot, ?_, rfl, rfl⟩ <;> dsimp only at * <;> try rw [hsession] at *
  · exact h.count
  · exact h.vars
  · exact h.idle
  · exact hn
  · exact fun hne => absurd hplain hne
  · obtain ⟨h1, h2⟩ := hcons hc
    exact ⟨halike.resting h1, halike.complete h2⟩
  · exact h.refuted hc
  · exact hplain

/-! ### Adding a clause -/

lemma Mutable.growExternal (h : Mutable P Γ s) (O : Oracle) {count : ℕ}
    (hcount : s.externalVariableCount ≤ count) : Mutable P Γ (s.growExternal O count) := by
  have hrest := fun hc => (h.consistent hc).1.growVariables O count
  have halike : ∀ t : Solver, Alike t { t with externalVariableCount := count } := fun t =>
    ⟨rfl, rfl, rfl, rfl, rfl, rfl, rfl, rfl⟩
  obtain ⟨n, b, v, he, h1, h2⟩ := growVariables_eq O s count
  rw [Solver.growExternal, he]
  rw [he] at hrest
  refine ⟨⟨h2, fun c hc l hl => (h.vars c hc l hl).trans_le hcount, h.idle, h.fresh, h.records,
    fun hc => ⟨?_, fun m hm hr => (h.consistent hc).2 m hm hr⟩, h.refuted, ?_, h.coreless,
    h.core⟩, h.root, h.plain, h.uncached, h.unfailed⟩
  · exact (halike _).resting (hrest hc)
  · intro r hr
    rw [show _ = s.cachedResult from rfl, h.uncached] at hr
    simp at hr

lemma Insertable.of_normalized {normalized : List Lit} (h : Mutable P Γ s)
    (hn : Normalized literals normalized) (hv : ∀ l ∈ literals, l.var < s.externalVariableCount) :
    Insertable (insert literals Γ) s normalized where
  nodup := hn.nodup
  lt l hl := (hv l ((hn.mem l).1 hl)).trans_le h.count
  avoid l _ := by simp [eliminatedVariables, h.plain]
  entailed m hm := hn.sat.2 (models_insert.1 hm).1

/-- What adding a clause may change of the session. -/
def Added (s s' : Solver) : Prop :=
  s'.toSession = { s.toSession with
    consistent := s'.consistent, proofInput := s'.proofInput,
    factorizationInputShortClauses := s'.factorizationInputShortClauses }

lemma addFresh_frame (s : Solver) (literals : List Lit) :
    (s.addFresh literals).trailLimits = s.trailLimits ∧
      (s.addFresh literals).propagationHead = s.propagationHead ∧
      ((s.addFresh literals).toSession = s.toSession ∨
        (s.addFresh literals).toSession = { s.toSession with consistent := false }) := by
  match literals with
  | [] => exact ⟨rfl, rfl, .inr rfl⟩
  | [l] =>
    rw [addFresh, enqueue, enqueueInternal]
    cases s.value l with
    | none => exact ⟨rfl, rfl, .inl rfl⟩
    | some b =>
      cases b with
      | true => exact ⟨rfl, rfl, .inl rfl⟩
      | false => exact ⟨rfl, rfl, .inr rfl⟩
  | _ :: _ :: _ => exact ⟨rfl, rfl, .inl rfl⟩

/-- The clause has been taken in, or has made the solver inconsistent. -/
lemma Mutable.taken (h : Mutable P Γ s) {normalized : List Lit} (hn : Normalized literals normalized)
    (hv : ∀ l ∈ literals, l.var < s.externalVariableCount) (hcons : s.consistent = true)
    (hs' : TakenIn P (insert literals Γ) normalized s s' ∨ Contradiction (insert literals Γ) s s')
    (hfresh : s.started = false → s'.decisionLevel = 0 ∧ s'.propagationHead = 0) :
    Valid P (insert literals Γ) s' ∧ s'.cachedResult = none := by
  have hvars : ∀ c ∈ insert literals Γ, ∀ l ∈ c, l.var < s.externalVariableCount := by
    rintro c (rfl | hc) l hl
    · exact hv l hl
    · exact h.vars c hc l hl
  rcases hs' with ht | ⟨hu, hs⟩
  · have hs := ht.kept.session
    have hplain : s'.eliminationRecords = [] :=
      (congrArg Session.eliminationRecords hs).trans h.plain
    have hcached : s'.cachedResult = none := (congrArg Session.cachedResult hs).trans h.uncached
    have hfailed : s'.failedAssumptions = [] :=
      (congrArg Session.failedAssumptions hs).trans h.unfailed
    refine ⟨⟨?_, ?_, ?_, ?_, fun hne => absurd hplain hne, fun _ => ⟨ht.root.resting, ?_⟩, ?_, ?_,
      fun _ => hfailed, by simp [hcached]⟩, hcached⟩
    · rw [hs]; exact h.count
    · rw [hs]; exact hvars
    · rw [hs]; exact h.idle
    · rw [hs]; exact hfresh
    · refine .of_satisfies (fun m hm => models_insert.2 ⟨hn.sat.1 (ht.sat m hm), ?_⟩) hplain
      exact (h.consistent hcons).2.models h.plain (hm.of_kept ht.kept)
    · intro hc
      rw [hs, hcons] at hc
      simp at hc
    · simp [hcached]
  · have hcached : s'.cachedResult = none := (congrArg Session.cachedResult hs).trans h.uncached
    have hfailed : s'.failedAssumptions = [] :=
      (congrArg Session.failedAssumptions hs).trans h.unfailed
    refine ⟨⟨?_, ?_, ?_, ?_, ?_, fun hc => ?_, fun _ => hu, by simp [hcached], fun _ => hfailed,
      by simp [hcached]⟩, hcached⟩
    · rw [hs]; exact h.count
    · rw [hs]; exact hvars
    · rw [hs]; exact h.idle
    · rw [hs]; exact hfresh
    · rw [hs]; exact fun hne => absurd h.plain hne
    · rw [hs] at hc
      simp at hc

lemma Valid.insert_of_unsat (h : Valid P Γ s) (hcached : s.cachedResult = none)
    (hv : ∀ l ∈ literals, l.var < s.externalVariableCount) (hcons : s.consistent = false) :
    Valid P (insert literals Γ) s := by
  refine ⟨h.count, ?_, h.idle, h.fresh, h.records, fun hc => ?_, fun hc m hm => ?_, by
    simp [hcached], h.coreless, by simp [hcached]⟩
  · rintro c (rfl | hc) l hl
    · exact hv l hl
    · exact h.vars c hc l hl
  · rw [hcons] at hc
    simp at hc
  · exact h.refuted hc m (models_insert.1 hm).2

lemma Mutable.recordInput (h : Mutable P Γ s) (kind : ProofClauseKind) (literals : List Lit) :
    Mutable P Γ (s.recordInput kind literals) := by
  have ha : Alike s (s.recordInput kind literals) := ⟨rfl, rfl, rfl, rfl, rfl, rfl, rfl, rfl⟩
  exact ⟨⟨h.count, h.vars, h.idle, h.fresh, h.records,
    fun hc => ⟨ha.resting (h.consistent hc).1, ha.complete (h.consistent hc).2⟩, h.refuted,
    h.cached, h.coreless, h.core⟩, h.root, h.plain, h.uncached, h.unfailed⟩

lemma addNormalized_spec (h : Mutable P Γ s) (O : Oracle) (kind : ProofClauseKind)
    (hv : ∀ l ∈ literals, l.var < s.externalVariableCount) :
    Valid P (insert literals Γ) (s.addNormalized O kind literals).2 ∧
      (s.addNormalized O kind literals).2.cachedResult = none ∧
      Added s (s.addNormalized O kind literals).2 := by
  rw [addNormalized]
  split
  · next hnone =>
    have htaut := normalize_none hnone
    refine ⟨⟨h.count, ?_, h.idle, h.fresh, h.records, fun hc => ?_, fun hc m hm => ?_,
      fun r hr => by simp [h.uncached] at hr, h.coreless, fun hr => by simp [h.uncached] at hr⟩,
      h.uncached, rfl⟩
    · rintro c (rfl | hc) l hl
      · exact hv l hl
      · exact h.vars c hc l hl
    · obtain ⟨h1, h2⟩ := h.consistent hc
      refine ⟨⟨h1.core.mono (Set.subset_insert _ _), h1.settled⟩, .of_satisfies (fun m hm => ?_)
        h.plain⟩
      exact models_insert.2 ⟨htaut m, h2.models h.plain hm⟩
    · exact h.refuted hc m (models_insert.1 hm).2
  next normalized hsome =>
  have hn := normalize_some hsome
  have h₁ := h.recordInput kind normalized
  have hv₁ : ∀ l ∈ literals, l.var < (s.recordInput kind normalized).externalVariableCount := hv
  have hi := Insertable.of_normalized h₁ hn hv₁
  dsimp only
  generalize hs₁ : s.recordInput kind normalized = s₁ at h₁ hv₁ hi
  have hadd : ∀ {s'}, (s'.toSession = s₁.toSession ∨
      s'.toSession = { s₁.toSession with consistent := false }) → Added s s' := by
    rintro s' (he | he) <;> rw [Added, he, ← hs₁] <;> rfl
  split
  · -- the solver has answered queries
    cases hcons : s₁.consistent with
    | false =>
      rw [addStarted, if_pos (by simp [hcons])]
      exact ⟨h₁.toValid.insert_of_unsat h₁.uncached hv₁ hcons, h₁.uncached, hadd (.inl rfl)⟩
    | true =>
      have hres := addStarted_spec ((h₁.consistent hcons).1.core.mono (Set.subset_insert literals Γ)
        |> fun hc => Resting.mk hc (h₁.consistent hcons).1.settled) O h₁.root h₁.idle hi hcons
      next hst =>
      obtain ⟨h2, h3⟩ := h₁.taken hn hv₁ hcons hres fun hf => by
        rw [hst] at hf
        simp at hf
      exact ⟨h2, h3, hadd (hres.imp (fun ht => ht.kept.session) And.right)⟩
  · next hst =>
    obtain ⟨hf1, hf2, hf3⟩ := addFresh_frame s₁ normalized
    have hst' : s₁.started = false := by simpa using hst
    have hfr := h₁.fresh hst'
    have hfr' : (s₁.addFresh normalized).decisionLevel = 0 ∧
        (s₁.addFresh normalized).propagationHead = 0 := by
      rw [TrailState.decisionLevel, hf1, hf2]
      exact hfr
    cases hcons : s₁.consistent with
    | true =>
      obtain ⟨hr, -⟩ := h₁.consistent hcons
      have hroot : AtRoot P (insert literals Γ) s₁ := by
        refine ⟨hr.core.mono (Set.subset_insert _ _), ?_, hfr.1⟩
        rintro c - l - - ⟨i, hi, -⟩
        omega
      have hres := addFresh_spec hroot hfr.2 normalized hi
      obtain ⟨h2, h3⟩ := h₁.taken hn hv₁ hcons (hres.imp_left And.left) fun _ => hfr'
      exact ⟨h2, h3, hadd hf3⟩
    | false =>
      have hs' : (s₁.addFresh normalized).toSession = s₁.toSession := by
        rcases hf3 with he | he
        · exact he
        · rw [he, ← hcons]
      have hcached : (s₁.addFresh normalized).cachedResult = none :=
        (congrArg Session.cachedResult hs').trans h₁.uncached
      refine ⟨Valid.insert_of_unsat ⟨?_, ?_, ?_, fun _ => hfr', ?_, fun hc => ?_, fun hc => ?_,
        by simp [hcached], fun hc => ?_, by simp [hcached]⟩ hcached ?_ ?_, hcached, hadd hf3⟩ <;>
        rw [hs'] at *
      · exact h₁.count
      · exact h₁.vars
      · exact h₁.idle
      · exact fun hne => absurd h₁.plain hne
      · rw [hcons] at hc
        simp at hc
      · exact h₁.refuted hc
      · exact h₁.unfailed
      · exact hv₁
      · exact hcons

end Solver

end Satrap
