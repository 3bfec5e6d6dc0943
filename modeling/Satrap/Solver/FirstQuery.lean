/-
# The state in which the root passes run

The root passes run once, in the first query, after root propagation.  Until then the client
has only added clauses, so that the solver holds no learned clause and its root trail and
stored clauses have the models of the clauses the client has given.
-/
import Satrap.Solver.Cores

namespace Satrap

open Logic

/-- The operation is not a query. -/
def Operation.Mutates : Operation → Prop
  | .solveAssuming _ _ => False
  | _ => True

namespace Solver

variable {P : Prop}
variable {Γ : Set (List Lit)} {O : Oracle} {s s' : Solver} {client : Client}
  {config : SolverConfig} {l : Lit}

/-! ### Clauses on record -/

/-- No clause has been learned. -/
def Unlearned (s : Solver) : Prop := ∀ c, s.Allocated c → (s.clause c).learned = false

lemma Unlearned.of_stored {removed : ClauseRef → Prop} (h : Unlearned s)
    (hst : Stored removed s s') : Unlearned s' := by
  intro c hc
  rcases hst.fresh c hc with hc | hc
  · rw [(hst.allocated c hc).2]
    exact h c hc
  · exact hc

lemma Unlearned.of_eq (h : Unlearned s) (hdb : s'.toClauseDb = s.toClauseDb) : Unlearned s' := by
  unfold Unlearned
  rw [hdb]
  exact h

lemma unlearned_addFresh (h : Unlearned s) (literals : List Lit) :
    Unlearned (s.addFresh literals) := by
  match literals with
  | [] => exact h.of_eq rfl
  | [l] =>
    refine h.of_eq ?_
    rw [addFresh, enqueue, enqueueInternal]
    cases s.value l with
    | none => rfl
    | some b => cases b <;> rfl
  | l :: q :: rest =>
    have hst : Stored (fun _ => True) s (s.addClauseToDb (l :: q :: rest) false) := .store s _
    exact h.of_stored hst

/-- A solver that has answered no query and learned nothing. -/
structure Idle (s : Solver) : Prop where
  started : s.started = false
  unlearned : Unlearned s

namespace Idle

lemma of_eq (h : Idle s) (hst : s'.started = s.started) (hdb : s'.toClauseDb = s.toClauseDb) :
    Idle s' :=
  ⟨hst.trans h.started, h.unlearned.of_eq hdb⟩

variable (h : Idle s) (O : Oracle)
include h

lemma prepare : Idle (s.prepareIncrementalMutation O) := by
  have he : (if s.started then s.cancelUntil O 0 else s) = s := by simp [h.started]
  rw [prepareIncrementalMutation, he]
  exact h.of_eq rfl rfl

lemma growExternal (count : ℕ) : Idle (s.growExternal O count) := by
  obtain ⟨n, b, v, he, -, -⟩ := growVariables_eq O s count
  refine h.of_eq ?_ ?_ <;> rw [Solver.growExternal, he]

lemma addNormalized (kind : ProofClauseKind) (literals : List Lit) :
    Idle (s.addNormalized O kind literals).2 := by
  rw [Solver.addNormalized]
  split
  · exact h
  · next normalized _ =>
    have h₁ : Idle (s.recordInput kind normalized) := h.of_eq rfl rfl
    have hst : ((s.recordInput kind normalized).addFresh normalized).started = false := by
      obtain ⟨-, -, he⟩ := addFresh_frame (s.recordInput kind normalized) normalized
      rcases he with he | he <;> exact (congrArg Session.started he).trans h₁.started
    simp only [h₁.started, Bool.false_eq_true, if_false]
    exact ⟨hst, unlearned_addFresh h₁.unlearned normalized⟩

lemma addClauseInternal (literals : List Lit) (guard : Bool) (kind : ProofClauseKind) :
    Idle (s.addClauseInternal O literals guard kind).2 := by
  rw [Solver.addClauseInternal]
  split
  · exact h
  · dsimp only
    have h₁ := h.prepare O
    split
    · exact h₁
    · split
      · exact (h₁.growExternal O _).addNormalized O kind _
      · exact h₁.addNormalized O kind _

lemma tryReserveVariables (count : ℕ) : Idle (s.tryReserveVariables O count).2 := by
  rw [Solver.tryReserveVariables]
  split_ifs
  · exact h
  · exact h
  · exact h
  · exact (h.prepare O).growExternal O count

lemma pushLevels (levels : ℕ) : Idle (s.pushLevels O levels).2 := by
  rw [Solver.pushLevels]
  split
  · exact h
  · split
    · exact h
    · exact ((h.prepare O).growExternal O _).of_eq rfl rfl

omit h in
lemma popScopes : ∀ (levels : ℕ) (s : Solver), Idle s → Idle (s.popScopes O levels).2
  | 0, s, h => h
  | levels + 1, s, h => by
    rw [Solver.popScopes]
    split
    · exact h
    · next selector _ =>
      have h₁ : Idle { s with scopeSelectors := s.scopeSelectors.dropLast } := h.of_eq rfl rfl
      have h₂ := h₁.addClauseInternal O [-selector] false .administrative
      generalize Solver.addClauseInternal O [-selector] false .administrative
        { s with scopeSelectors := s.scopeSelectors.dropLast } = r at h₂
      obtain ⟨e, s'⟩ := r
      cases e with
      | error e => exact h₂
      | ok b => exact popScopes levels s' h₂

lemma pop (levels : ℕ) : Idle (s.pop O levels).2 := by
  rw [Solver.pop]
  split_ifs
  · exact h
  · exact h
  · exact h
  · exact popScopes O levels _ (h.prepare O)

lemma perform {operation : Operation} {response : Response} {fuel : ℕ}
    (hm : operation.Mutates) (he : operation.perform O fuel s = some (response, s')) :
    Idle s' := by
  have hrespond : ∀ {α : Type} (r : Except IncrementalError α × Solver), Idle r.2 →
      some (Operation.respond r) = some (response, s') → Idle s' := by
    rintro α ⟨e, s₁⟩ h₁ he
    cases e <;> obtain ⟨-, rfl⟩ := Prod.mk.inj (Option.some.inj he) <;> exact h₁
  cases operation with
  | addClause literals => exact hrespond _ (h.addClauseInternal O literals true .formula) he
  | reserveVariables count => exact hrespond _ (h.tryReserveVariables O count) he
  | pushLevels levels => exact hrespond _ (h.pushLevels O levels) he
  | pop levels => exact hrespond _ (h.pop O levels) he
  | solveAssuming A limits => exact hm.elim

end Idle

/-! ### The first query -/

/-- `s` is a state in which the first query of a run starts its root passes: the client has
made its additions, and the root trail has been propagated without conflict. -/
def FirstQuery (O : Oracle) (config : SolverConfig) (client : Client) (s : Solver) : Prop :=
  ∃ s₀, Reaches O config (fun operation _ => operation.Mutates) client s₀ ∧
    s₀.consistent = true ∧ (s₀.beginQuery O).propagate O = (none, s)

/-- What the clauses and the root trail of a state say, whatever has been eliminated before. -/
lemma models_iff_satisfies (h : Prepared P Γ s) (hr : s.eliminationRecords = [])
    (m : ℕ → Bool) : Models m Γ ↔ Satisfies m s := by
  constructor
  · intro hm
    exact ⟨fun c hc => h.core.entailed c hc.1.1 m hm, fun l hl h0 => h.core.holds_root hm hl h0⟩
  · exact h.complete.models hr

lemma FirstQuery.idle (h : Reaches O config (fun operation _ => operation.Mutates) client s) :
    Idle s := by
  induction h with
  | start => exact ⟨rfl, fun c hc => by cases c <;> exact absurd hc (Nat.not_lt_zero _)⟩
  | step _ _ hallowed hperformed ih => exact ih.perform O hallowed hperformed

lemma Unlearned.of_same (h : Unlearned s) (hs : ClauseDb.Same s.toClauseDb s'.toClauseDb) :
    Unlearned s' := fun c hc => (hs.learned c).trans (h c (hs.allocated.1 hc))

/-- The root passes start in a prepared state without learned clauses. -/
lemma FirstQuery.prepared (h : FirstQuery O config client s) : s.config = config ∧
    s.eliminationRecords = [] ∧ Unlearned s ∧
      ∃ s₀ Γ, Represents True Γ client s₀ ∧ Prepared True Γ s := by
  obtain ⟨s₀, hrun, hc, he⟩ := h
  obtain ⟨hcfg, Γ, hrep⟩ := Represents.of_reaches (P := True)
    (fun _ _ _ _ _ _ _ hn => hn.elim) hrun
  have hidle := FirstQuery.idle hrun
  have hnone : s₀.eliminationRecords = [] := by
    by_contra hne
    have := (hrep.valid.records hne).1
    rw [hidle.started] at this
    simp at this
  have hbegin := hrep.valid.sound.begin O hc
  rw [he] at hbegin
  obtain ⟨hp, hs, hsame⟩ := hbegin
  rw [beginQuery_session] at hs
  refine ⟨?_, ?_, hidle.unlearned.of_same (hsame hidle.started), s₀, Γ, hrep, hp⟩
  · exact (congrArg Session.config hs).trans hcfg
  · exact (congrArg Session.eliminationRecords hs).trans hnone

/-- The state in which the first query of a new solver with these clauses runs its passes. -/
def firstQueryState (O : Oracle) (config : SolverConfig) (clauses : List (List Lit)) : Solver :=
  (((withClauses O config clauses).beginQuery O).propagate O).2

lemma firstQuery_withClauses {clauses : List (List Lit)}
    (hlt : ∀ c ∈ clauses, ∀ l ∈ c, l.var < maxVariables)
    (hcons : (withClauses O config clauses).consistent = true)
    (hprop : (((withClauses O config clauses).beginQuery O).propagate O).1 = none) :
    FirstQuery O config ⟨clauses, [], []⟩ (firstQueryState O config clauses) :=
  ⟨_, (withClauses_spec True hlt fun _ _ => trivial).1, hcons, Prod.ext hprop rfl⟩

end Solver

end Satrap
