/-
# The client's view

A client knows the clauses it has added and the scopes it has opened; the solver knows
selectors and guarded clauses.  `Represents P Γ client s` relates the two, and along a run of
operations whose queries meet a condition every answer is right for the active clauses.
-/
import Satrap.Solver.Query

namespace Satrap

open Logic

/-! ### Operations -/

/-- The operations of the incremental interface. -/
inductive Operation where
  | addClause (literals : List Lit)
  | reserveVariables (count : ℕ)
  | pushLevels (levels : ℕ)
  | pop (levels : ℕ)
  | solveAssuming (assumptions : List Lit) (limits : SolveLimits)

/-- What an operation returns. -/
inductive Response where
  | done
  | rejected (e : IncrementalError)
  | answer (result : SolveResult)

namespace Operation

/-- The operation mentions the variable. -/
def Mentions (v : ℕ) : Operation → Prop
  | .addClause literals => ∃ l ∈ literals, l.var = v
  | .solveAssuming assumptions _ => ∃ l ∈ assumptions, l.var = v
  | _ => False

/-- The response of an operation that returns a `Result`. -/
def respond {α : Type} : Except IncrementalError α × Solver → Response × Solver
  | (.ok _, s) => (.done, s)
  | (.error e, s) => (.rejected e, s)

/-- Perform an operation; a query may run for at most `fuel` iterations of the search loop. -/
def perform (O : Oracle) (fuel : ℕ) : Operation → Solver → Option (Response × Solver)
  | .addClause literals, s => some (respond (s.tryAddClause O literals))
  | .reserveVariables count, s => some (respond (s.tryReserveVariables O count))
  | .pushLevels levels, s => some (respond (s.pushLevels O levels))
  | .pop levels, s => some (respond (s.pop O levels))
  | .solveAssuming assumptions limits, s =>
    (s.solveAssumingWithLimits O fuel assumptions limits).map fun r => (.answer r.1, r.2)

end Operation

/-! ### The client -/

/-- What a client knows: the base clauses, the clauses of the open scopes, outermost scope
first, and the variables that have served as selectors. -/
structure Client where
  base : List (List Lit) := []
  scopes : List (List (List Lit)) := []
  reserved : List ℕ := []

namespace Client

/-- The active clauses. -/
def active (client : Client) : List (List Lit) := client.base ++ client.scopes.flatten

/-- A clause belongs to the innermost scope, or to the base. -/
def add (literals : List Lit) (client : Client) : Client :=
  match client.scopes.getLast? with
  | none => { client with base := client.base ++ [literals] }
  | some scope =>
    { client with scopes := client.scopes.dropLast ++ [scope ++ [literals]] }

/-- The client after an operation that has been answered. -/
def after (operation : Operation) (response : Response) (s : Solver) (client : Client) : Client :=
  match operation, response with
  | .addClause literals, .done => client.add literals
  | .pushLevels levels, .done =>
    { client with
      scopes := client.scopes ++ List.replicate levels []
      reserved := client.reserved ++ s.scopeSelectors.map Literal.var }
  | .pop levels, .done =>
    { client with scopes := client.scopes.take (client.scopes.length - levels) }
  | _, _ => client

end Client

/-- The runs of a solver and its client: the client never mentions a selector, and every
operation meets the condition `Allowed` in the state it finds. -/
inductive Reaches (O : Oracle) (config : SolverConfig) (Allowed : Operation → Solver → Prop) :
    Client → Solver → Prop
  | start : Reaches O config Allowed {} (Solver.withConfig config)
  | step {client : Client} {s s' : Solver} {operation : Operation} {response : Response}
      {fuel : ℕ} (run : Reaches O config Allowed client s)
      (polite : ∀ v ∈ client.reserved, ¬ operation.Mentions v)
      (allowed : Allowed operation s)
      (performed : operation.perform O fuel s = some (response, s')) :
      Reaches O config Allowed (client.after operation response s') s'

/-- The failed assumptions are some of the assumptions, in their order and none repeated, and
the clauses and they have no model. -/
structure CoreCorrect (clauses : List (List Lit)) (assumptions failed : List Lit) : Prop where
  sublist : failed.Sublist assumptions
  nodup : failed.Nodup
  refuted : ∀ m : ℕ → Bool, (∀ c ∈ clauses, Sat m c) → ¬ ∀ a ∈ failed, a.Holds m

/-- The answer is right for these clauses and assumptions. -/
def AnswersCorrectly (clauses : List (List Lit)) (assumptions : List Lit) : SolveResult → Prop
  | .sat model =>
    (∀ c ∈ clauses, Sat model.value c) ∧ ∀ a ∈ assumptions, a.Holds model.value
  | .unsat => ∀ m : ℕ → Bool, (∀ c ∈ clauses, Sat m c) → ¬ ∀ a ∈ assumptions, a.Holds m
  | .unknown _ => True

namespace Solver

variable {P P' : Prop}
variable {Γ Δ : Set (List Lit)} {O : Oracle} {s s' : Solver} {client : Client} {l q : Lit}
  {config : SolverConfig} {Allowed : Operation → Solver → Prop}

/-! ### Guarded clauses -/

/-- The clauses of the open scopes with the negations of their selectors. -/
def guardedClauses (selectors : List Lit) (scopes : List (List (List Lit))) : List (List Lit) :=
  (selectors.zip scopes).flatMap fun p => p.2.map fun c => c ++ [-p.1]

lemma mem_guardedClauses {selectors : List Lit} {scopes : List (List (List Lit))} {d : List Lit} :
    d ∈ guardedClauses selectors scopes ↔
      ∃ l scope, (l, scope) ∈ selectors.zip scopes ∧ ∃ c ∈ scope, c ++ [-l] = d := by
  simp only [guardedClauses, List.mem_flatMap, List.mem_map, Prod.exists]

lemma guardedClauses_append {selectors selectors' : List Lit}
    {scopes scopes' : List (List (List Lit))} (h : selectors.length = scopes.length) :
    guardedClauses (selectors ++ selectors') (scopes ++ scopes') =
      guardedClauses selectors scopes ++ guardedClauses selectors' scopes' := by
  rw [guardedClauses, List.zip_append h, List.flatMap_append, guardedClauses, guardedClauses]

lemma guardedClauses_replicate (selectors : List Lit) (n : ℕ) :
    guardedClauses selectors (List.replicate n []) = [] := by
  refine List.eq_nil_iff_forall_not_mem.2 fun d hd => ?_
  obtain ⟨l, scope, hp, c, hc, -⟩ := mem_guardedClauses.1 hd
  rw [List.eq_of_mem_replicate (List.of_mem_zip hp).2] at hc
  exact absurd hc List.not_mem_nil

/-- The clause is satisfied by the negation of a selector that is no longer open. -/
def Retired (reserved : List ℕ) (selectors : List Lit) (d : List Lit) : Prop :=
  ∃ v ∈ reserved, v ∉ selectors.map Literal.var ∧ (⟨v, false⟩ : Lit) ∈ d

/-- The solver, given the clauses `Γ`, represents what the client knows. -/
structure Represents (P : Prop) (Γ : Set (List Lit)) (client : Client) (s : Solver) : Prop where
  valid : Valid P Γ s
  length : s.scopeSelectors.length = client.scopes.length
  positive : ∀ l ∈ s.scopeSelectors, l.positive = true
  reserved : ∀ l ∈ s.scopeSelectors, l.var ∈ client.reserved
  distinct : (s.scopeSelectors.map Literal.var).Nodup
  reserved_lt : ∀ v ∈ client.reserved, v < s.externalVariableCount
  given : ∀ d ∈ client.base ++ guardedClauses s.scopeSelectors client.scopes, d ∈ Γ
  only : ∀ d ∈ Γ, d ∈ client.base ++ guardedClauses s.scopeSelectors client.scopes ∨
    Retired client.reserved s.scopeSelectors d
  avoid : ∀ c ∈ client.active, ∀ l ∈ c, l.var ∉ client.reserved

lemma represents_withConfig (config : SolverConfig) : Represents P ∅ {} (withConfig config) where
  valid := valid_withConfig config
  length := rfl
  positive := by simp [withConfig]
  reserved := by simp [withConfig]
  distinct := by simp [withConfig]
  reserved_lt := by simp
  given := by simp [withConfig, guardedClauses]
  only := by simp
  avoid := by simp [Client.active]

lemma mem_of_guarded {d : List Lit}
    (hd : d ∈ client.base ++ guardedClauses s.scopeSelectors client.scopes) :
    d ∈ client.active ∨ ∃ l ∈ s.scopeSelectors, ∃ c ∈ client.active, d = c ++ [-l] := by
  rcases List.mem_append.1 hd with hd | hd
  · exact .inl (List.mem_append_left _ hd)
  · obtain ⟨l, scope, hp, c, hc, rfl⟩ := mem_guardedClauses.1 hd
    obtain ⟨h1, h2⟩ := List.of_mem_zip hp
    exact .inr ⟨l, h1, c, List.mem_append_right _ (List.mem_flatten.2 ⟨scope, h2, hc⟩), rfl⟩

lemma mem_active_add (literals : List Lit) :
    ∀ c, c ∈ (client.add literals).active ↔ c ∈ client.active ∨ c = literals := by
  intro c
  rw [Client.add]
  split
  · next hnone =>
    rw [List.getLast?_eq_none_iff] at hnone
    simp only [Client.active, hnone, List.flatten_nil, List.append_nil, List.mem_append,
      List.mem_singleton]
  · next scope hscope =>
    obtain ⟨outer, houter⟩ := List.getLast?_eq_some_iff.1 hscope
    simp only [Client.active, houter, List.dropLast_concat, List.flatten_append,
      List.flatten_cons, List.flatten_nil, List.append_nil, List.mem_append, List.mem_singleton]
    tauto

lemma reserved_add (literals : List Lit) : (client.add literals).reserved = client.reserved := by
  rw [Client.add]
  split <;> rfl

namespace Represents

variable (h : Represents P Γ client s)
include h

/-- Less may be claimed of the watches. -/
lemma weaken (hPP : P' → P) : Represents P' Γ client s :=
  ⟨h.valid.weaken hPP, h.length, h.positive, h.reserved, h.distinct, h.reserved_lt, h.given, h.only,
    h.avoid⟩

lemma selector_lt (hl : l ∈ s.scopeSelectors) : l.var < s.externalVariableCount :=
  h.reserved_lt l.var (h.reserved l hl)

/-- A clause of an open scope has been given with the negation of an open selector. -/
lemma mem_active {c : List Lit} (hc : c ∈ client.active) :
    c ∈ Γ ∨ ∃ l ∈ s.scopeSelectors, c ++ [-l] ∈ Γ := by
  rcases List.mem_append.1 hc with hc | hc
  · exact .inl (h.given c (List.mem_append_left _ hc))
  · obtain ⟨scope, hscope, hc⟩ := List.mem_flatten.1 hc
    obtain ⟨i, hi, rfl⟩ := List.mem_iff_getElem.1 hscope
    have hi' : i < s.scopeSelectors.length := h.length ▸ hi
    have hp : (s.scopeSelectors[i], client.scopes[i]) ∈ s.scopeSelectors.zip client.scopes :=
      List.mem_iff_getElem.2 ⟨i, by simp [hi, hi'], by simp⟩
    refine .inr ⟨s.scopeSelectors[i], List.getElem_mem hi', h.given _ ?_⟩
    exact List.mem_append_right _ (mem_guardedClauses.2 ⟨_, _, hp, c, hc, rfl⟩)

lemma active_lt {c : List Lit} (hc : c ∈ client.active) (hl : l ∈ c) :
    l.var < s.externalVariableCount := by
  rcases h.mem_active hc with hc | ⟨q, -, hc⟩
  · exact h.valid.vars c hc l hl
  · exact h.valid.vars _ hc l (List.mem_append_left _ hl)

/-- A model of the given clauses in which the open selectors hold satisfies the active ones. -/
lemma sat_active {m : ℕ → Bool} (hm : Models m Γ) (hsel : ∀ l ∈ s.scopeSelectors, l.Holds m)
    {c : List Lit} (hc : c ∈ client.active) : Sat m c := by
  rcases h.mem_active hc with hc | ⟨l, hl, hc⟩
  · exact hm c hc
  · obtain ⟨q, hq, hqm⟩ := hm _ hc
    rcases List.mem_append.1 hq with hq | hq
    · exact ⟨q, hq, hqm⟩
    · rw [List.mem_singleton.1 hq, Literal.holds_neg] at hqm
      exact absurd (hsel l hl) hqm

/-- A model of the active clauses becomes one of the given clauses when the open selectors are
made true and the retired ones false. -/
lemma models_of_active {m : ℕ → Bool} (hm : ∀ c ∈ client.active, Sat m c) :
    ∃ m', Models m' Γ ∧ (∀ l ∈ s.scopeSelectors, l.Holds m') ∧
      ∀ v, v ∉ client.reserved → m' v = m v := by
  set m' : ℕ → Bool := fun v =>
    if v ∈ client.reserved then decide (v ∈ s.scopeSelectors.map Literal.var) else m v with hm'
  have hagree : ∀ v, v ∉ client.reserved → m' v = m v := fun v hv => by simp [hm', hv]
  have hsat : ∀ c ∈ client.active, Sat m' c := by
    intro c hc
    obtain ⟨l, hl, hlm⟩ := hm c hc
    exact ⟨l, hl, (hagree l.var (h.avoid c hc l hl)).trans hlm⟩
  refine ⟨m', fun d hd => ?_, fun l hl => ?_, hagree⟩
  · rcases h.only d hd with hd | ⟨v, hv, hvs, hd⟩
    · rcases mem_of_guarded hd with hd | ⟨l, -, c, hc, rfl⟩
      · exact hsat d hd
      · exact (hsat c hc).mono (List.subset_append_left c _)
    · exact ⟨_, hd, by simp only [Literal.Holds, hm', hv, hvs, if_true, decide_false]⟩
  · have hmem : l.var ∈ s.scopeSelectors.map Literal.var := List.mem_map_of_mem hl
    simp only [Literal.Holds, hm', h.reserved l hl, hmem, if_true, decide_true, h.positive l hl]

/-- **An answer for the given clauses and the selectors is one for the active clauses.** -/
lemma answersCorrectly {assumptions : List Lit} {result : SolveResult} (hP : P)
    (hc : Correct P Γ (s.scopeSelectors ++ assumptions) s.externalVariableCount result)
    (hpolite : ∀ a ∈ assumptions, a.var ∉ client.reserved)
    (hlt : ∀ a ∈ assumptions, a.var < s.externalVariableCount) :
    AnswersCorrectly client.active assumptions result := by
  cases result with
  | sat model =>
    obtain ⟨m, hm, hA, rfl⟩ := hc hP
    have hvalue : ∀ v, v < s.externalVariableCount →
        Model.value ⟨(List.range s.externalVariableCount).map m⟩ v = m v := by
      intro v hv
      simp [Model.value, hv]
    refine ⟨fun c hc => ?_, fun a ha => ?_⟩
    · obtain ⟨l, hl, hlm⟩ := h.sat_active hm (fun l hl => hA l (List.mem_append_left _ hl)) hc
      exact ⟨l, hl, (hvalue l.var (h.active_lt hc hl)).trans hlm⟩
    · exact (hvalue a.var (hlt a ha)).trans (hA a (List.mem_append_right _ ha))
  | unsat =>
    intro m hm hA
    obtain ⟨m', hm', hsel, hagree⟩ := h.models_of_active hm
    refine hc m' hm' fun a ha => ?_
    rcases List.mem_append.1 ha with ha | ha
    · exact hsel a ha
    · exact (hagree a.var (hpolite a ha)).trans (hA a ha)
  | unknown _ => trivial

/-- **A reported core** is one for the active clauses. -/
lemma coreCorrect {assumptions failed : List Lit}
    (hc : ReportedCore Γ s.scopeSelectors assumptions failed)
    (hpolite : ∀ a ∈ assumptions, a.var ∉ client.reserved) :
    CoreCorrect client.active assumptions failed := by
  obtain ⟨core, hcore, rfl⟩ := hc
  refine ⟨?_, hcore.nodup.filter _, fun m hm hfailed => ?_⟩
  · have hsub := hcore.sublist.filter fun l => decide (l ∈ assumptions)
    have hnone : s.scopeSelectors.filter (fun l => decide (l ∈ assumptions)) = [] :=
      List.filter_eq_nil_iff.2 fun l hl hla =>
        hpolite l (of_decide_eq_true hla) (h.reserved l hl)
    have hall : assumptions.filter (fun l => decide (l ∈ assumptions)) = assumptions :=
      List.filter_eq_self.2 fun l hl => decide_eq_true hl
    rwa [List.filter_append, hnone, hall, List.nil_append] at hsub
  · obtain ⟨m', hm', hsel, hagree⟩ := h.models_of_active hm
    refine hcore.refutes m' hm' fun a ha => ?_
    by_cases haA : a ∈ assumptions
    · have hmem : a ∈ core.filter fun l => decide (l ∈ assumptions) :=
        List.mem_filter.2 ⟨ha, decide_eq_true haA⟩
      exact (hagree a.var (hpolite a haA)).trans (hfailed a hmem)
    · exact hsel a ((List.mem_append.1 (hcore.sublist.subset ha)).resolve_right haA)

/-! ### What the operations do -/

/-- An operation that changes neither the clauses nor the scopes. -/
lemma of_same {s' : Solver} (hv : Valid P Γ s') (hsel : s'.scopeSelectors = s.scopeSelectors)
    (hcount : s.externalVariableCount ≤ s'.externalVariableCount) : Represents P Γ client s' := by
  refine ⟨hv, ?_, ?_, ?_, ?_, fun v hv => (h.reserved_lt v hv).trans_le hcount, ?_, ?_, h.avoid⟩ <;>
    rw [hsel]
  · exact h.length
  · exact h.positive
  · exact h.reserved
  · exact h.distinct
  · exact h.given
  · exact h.only

/-- The clauses given after an addition are those given before and the guarded one. -/
lemma mem_guarded_add (literals : List Lit) (d : List Lit) :
    d ∈ (client.add literals).base ++
        guardedClauses s.scopeSelectors (client.add literals).scopes ↔
      d ∈ client.base ++ guardedClauses s.scopeSelectors client.scopes ∨
        d = s.guarded true literals := by
  have hlen := h.length
  rw [Client.add, guarded, if_pos rfl]
  split
  · next hnone =>
    rw [List.getLast?_eq_none_iff] at hnone
    rw [hnone, List.length_nil, List.length_eq_zero_iff] at hlen
    simp only [hlen, List.getLast?_nil, guardedClauses, List.zip_nil_left, List.flatMap_nil,
      List.append_nil, List.mem_append, List.mem_singleton]
  · next scope hscope =>
    obtain ⟨outer, houter⟩ := List.getLast?_eq_some_iff.1 hscope
    obtain ⟨sels, l, hsels⟩ : ∃ sels l, s.scopeSelectors = sels ++ [l] := by
      refine ⟨_, _, (List.dropLast_append_getLast (l := s.scopeSelectors) ?_).symm⟩
      intro hnil
      rw [hnil, houter] at hlen
      simp at hlen
    have hlen' : sels.length = outer.length := by
      rw [hsels, houter] at hlen
      simpa using hlen
    have hlast : (sels ++ [l]).getLast? = some l := by simp
    rw [hsels, hlast, houter, List.dropLast_concat, guardedClauses_append hlen',
      guardedClauses_append hlen']
    simp only [guardedClauses, List.zip_cons_cons, List.zip_nil_left, List.flatMap_cons,
      List.flatMap_nil, List.append_nil, List.map_append, List.map_cons, List.map_nil,
      List.mem_append, List.mem_singleton]
    tauto

/-- **Adding a clause.** -/
lemma addClause {s' : Solver} {literals : List Lit} (hm : Mutated s s')
    (hv : Valid P (insert (s.guarded true literals) Γ) s')
    (hpolite : ∀ l ∈ literals, l.var ∉ client.reserved) :
    Represents P (insert (s.guarded true literals) Γ) (client.add literals) s' := by
  have hlen : s.scopeSelectors.length = (client.add literals).scopes.length := by
    rw [h.length, Client.add]
    split
    · rfl
    · next scope hscope =>
      obtain ⟨outer, houter⟩ := List.getLast?_eq_some_iff.1 hscope
      simp [houter]
  refine ⟨hv, ?_, ?_, ?_, ?_, fun v hv => ?_, fun d hd => ?_, fun d hd => ?_, fun c hc l hl => ?_⟩
  · rw [hm.scopeSelectors]
    exact hlen
  · rw [hm.scopeSelectors]
    exact h.positive
  · rw [hm.scopeSelectors, reserved_add]
    exact h.reserved
  · rw [hm.scopeSelectors]
    exact h.distinct
  · rw [reserved_add] at hv
    exact (h.reserved_lt v hv).trans_le hm.count
  · rw [hm.scopeSelectors, h.mem_guarded_add] at hd
    exact hd.symm.imp id (h.given d)
  · rw [hm.scopeSelectors, reserved_add, h.mem_guarded_add]
    rcases hd with rfl | hd
    · exact .inl (.inr rfl)
    · exact (h.only d hd).imp_left .inl
  · rw [reserved_add]
    rcases (mem_active_add literals c).1 hc with hc | rfl
    · exact h.avoid c hc l hl
    · exact hpolite l hl

/-- **Opening scopes.** -/
lemma pushLevels {s' : Solver} {levels : ℕ} (hv : Valid P Γ s')
    (hcount : s'.externalVariableCount = s.externalVariableCount + levels)
    (hsel : s'.scopeSelectors = s.scopeSelectors ++ newSelectors s.externalVariableCount levels) :
    Represents P Γ (client.after (.pushLevels levels) .done s') s' := by
  have hlen : (newSelectors s.externalVariableCount levels).length = levels := by
    simp [newSelectors]
  have hnew : ∀ v, v ∈ (newSelectors s.externalVariableCount levels).map Literal.var ↔
      s.externalVariableCount ≤ v ∧ v < s.externalVariableCount + levels := by
    intro v
    simp [newSelectors, Function.comp_def, List.mem_range'_1]
  have hnodup : ((newSelectors s.externalVariableCount levels).map Literal.var).Nodup := by
    simp [newSelectors, Function.comp_def, List.nodup_range']
  have hguard : guardedClauses s'.scopeSelectors (client.scopes ++ List.replicate levels []) =
      guardedClauses s.scopeSelectors client.scopes := by
    rw [hsel, guardedClauses_append h.length, guardedClauses_replicate, List.append_nil]
  have hres : ∀ v, v ∈ client.reserved ++ s'.scopeSelectors.map Literal.var ↔
      v ∈ client.reserved ∨ v ∈ (newSelectors s.externalVariableCount levels).map Literal.var := by
    intro v
    rw [hsel, List.map_append, List.mem_append, List.mem_append]
    refine or_congr_right' fun hv => or_iff_right fun hv' => hv ?_
    obtain ⟨l, hl, rfl⟩ := List.mem_map.1 hv'
    exact h.reserved l hl
  refine ⟨hv, ?_, fun l hl => ?_, fun l hl => ?_, ?_, fun v hv => ?_, fun d hd => ?_, fun d hd => ?_,
    fun c hc l hl => ?_⟩
  · rw [hsel, List.length_append, h.length, hlen]
    simp [Client.after]
  · rw [hsel] at hl
    rcases List.mem_append.1 hl with hl | hl
    · exact h.positive l hl
    · obtain ⟨v, -, rfl⟩ := List.mem_map.1 hl
      rfl
  · exact List.mem_append_right _ (List.mem_map_of_mem hl)
  · rw [hsel, List.map_append]
    refine List.nodup_append'.2 ⟨h.distinct, hnodup, fun v hv hv' => ?_⟩
    obtain ⟨l, hl, rfl⟩ := List.mem_map.1 hv
    have := h.selector_lt hl
    have := ((hnew l.var).1 hv').1
    omega
  · rw [hcount]
    rcases (hres v).1 hv with hv | hv
    · exact (h.reserved_lt v hv).trans_le (Nat.le_add_right _ _)
    · exact ((hnew v).1 hv).2
  · refine h.given d ?_
    rw [← hguard]
    exact hd
  · rcases h.only d hd with hd | ⟨v, hv, hvs, hd⟩
    · refine .inl ?_
      rw [← hguard] at hd
      exact hd
    · refine .inr ⟨v, (hres v).2 (.inl hv), ?_, hd⟩
      rw [hsel, List.map_append, List.mem_append, not_or]
      refine ⟨hvs, fun hn => ?_⟩
      have := h.reserved_lt v hv
      have := ((hnew v).1 hn).1
      omega
  · have hc' : c ∈ client.active := by
      simpa [Client.active, Client.after] using hc
    intro hv
    rcases (hres l.var).1 hv with hv | hv
    · exact h.avoid c hc' l hl hv
    · have := h.active_lt hc' hl
      have := ((hnew l.var).1 hv).1
      omega

/-- **Closing scopes.** -/
lemma pop {s' : Solver} {levels : ℕ}
    (hv : Valid P (closeScopes Γ (s.scopeSelectors.drop (s.scopeSelectors.length - levels))) s')
    (hsel : s'.scopeSelectors = s.scopeSelectors.take (s.scopeSelectors.length - levels))
    (hcount : s.externalVariableCount ≤ s'.externalVariableCount) :
    Represents P (closeScopes Γ (s.scopeSelectors.drop (s.scopeSelectors.length - levels)))
      (client.after (.pop levels) .done s') s' := by
  set k := s.scopeSelectors.length - levels with hk
  have hk' : client.scopes.length - levels = k := by rw [hk, h.length]
  have hlen : (s.scopeSelectors.take k).length = (client.scopes.take k).length := by
    rw [List.length_take, List.length_take, h.length]
  have hguard : guardedClauses s.scopeSelectors client.scopes =
      guardedClauses (s.scopeSelectors.take k) (client.scopes.take k) ++
        guardedClauses (s.scopeSelectors.drop k) (client.scopes.drop k) := by
    rw [← guardedClauses_append hlen, List.take_append_drop, List.take_append_drop]
  have hafter : client.after (.pop levels) .done s' =
      { client with scopes := client.scopes.take k } := by rw [← hk']; rfl
  -- the negation of a closed selector satisfies its clauses
  have hclosed : ∀ l ∈ s.scopeSelectors.drop k, ∀ d : List Lit, -l ∈ d →
      Retired client.reserved (s.scopeSelectors.take k) d := by
    intro l hl d hd
    have hl' : l ∈ s.scopeSelectors := List.mem_of_mem_drop hl
    refine ⟨l.var, h.reserved l hl', fun hmem => ?_, ?_⟩
    · have hdistinct := h.distinct
      rw [← List.take_append_drop k s.scopeSelectors, List.map_append] at hdistinct
      exact List.disjoint_of_nodup_append hdistinct hmem (List.mem_map_of_mem hl)
    · have hneg : (⟨l.var, false⟩ : Lit) = -l := Literal.ext_iff'.2 ⟨rfl, by simp [h.positive l hl']⟩
      rwa [hneg]
  rw [hafter]
  refine ⟨hv, ?_, fun l hl => ?_, fun l hl => ?_, ?_, fun v hv => ?_, fun d hd => ?_, fun d hd => ?_,
    fun c hc l hl => ?_⟩
  · rw [hsel]
    exact hlen
  · rw [hsel] at hl
    exact h.positive l (List.mem_of_mem_take hl)
  · rw [hsel] at hl
    exact h.reserved l (List.mem_of_mem_take hl)
  · rw [hsel, List.map_take]
    exact h.distinct.sublist (List.take_sublist _ _)
  · exact (h.reserved_lt v hv).trans_le hcount
  · refine .inl (h.given d ?_)
    rw [hsel] at hd
    rw [hguard, ← List.append_assoc]
    exact List.mem_append_left _ hd
  · rw [hsel]
    rcases hd with hd | ⟨l, hl, rfl⟩
    · rcases h.only d hd with hd | ⟨v, hv, hvs, hd⟩
      · rw [hguard, ← List.append_assoc] at hd
        rcases List.mem_append.1 hd with hd | hd
        · exact .inl hd
        · obtain ⟨l, scope, hp, c, -, rfl⟩ := mem_guardedClauses.1 hd
          exact .inr (hclosed l (List.of_mem_zip hp).1 _ (by simp))
      · refine .inr ⟨v, hv, fun hn => hvs ?_, hd⟩
        rw [List.map_take] at hn
        exact List.mem_of_mem_take hn
    · exact .inr (hclosed l hl _ (by simp))
  · refine h.avoid c ?_ l hl
    rcases List.mem_append.1 hc with hc | hc
    · exact List.mem_append_left _ hc
    · obtain ⟨scope, hscope, hc⟩ := List.mem_flatten.1 hc
      exact List.mem_append_right _
        (List.mem_flatten.2 ⟨scope, List.mem_of_mem_take hscope, hc⟩)

end Represents

/-! ### Runs -/

/-- What a query needs for its answer to be right. -/
structure QuerySafe (O : Oracle) (P P' : Prop) (Γ : Set (List Lit)) (assumptions : List Lit)
    (s : Solver) : Prop where
  weaker : P' → P
  passes : s.started = false → ∀ s₁, (s.beginQuery O).propagate O = (none, s₁) →
    Prepared P Γ s₁ → QueryFrame s s₁ → PassOk P' Γ s₁ (s₁.rootPasses O)
  present : (s.prepareQuery O).1 = true →
    ∀ a ∈ s.scopeSelectors ++ assumptions, a.var ∉ (s.prepareQuery O).2.eliminatedVariables

/-- **One operation** keeps the representation, and a query is answered correctly. -/
lemma Represents.perform (h : Represents P Γ client s) {operation : Operation} {response : Response}
    {fuel : ℕ} (hpolite : ∀ v ∈ client.reserved, ¬ operation.Mentions v)
    (hsafe : ∀ assumptions limits, operation = .solveAssuming assumptions limits →
      QuerySafe O P P' Γ assumptions s)
    (he : operation.perform O fuel s = some (response, s')) :
    s'.config = s.config ∧
      (∃ Δ, (Represents P Δ (client.after operation response s') s' ∧ s'.started = s.started) ∨
        (Represents P' Δ (client.after operation response s') s' ∧ s'.started = true)) ∧
      ∀ assumptions limits result, operation = .solveAssuming assumptions limits →
        response = .answer result →
        (P' → AnswersCorrectly client.active assumptions result) ∧
        (result = .unsat → (s'.consistent = true →
            CoreCorrect client.active assumptions s'.failedAssumptions) ∧
          (s'.consistent = false → s'.failedAssumptions = [] ∧ Unsat Γ)) := by
  have hlt : ∀ l ∈ s.scopeSelectors, l.var < s.externalVariableCount := fun l hl => h.selector_lt hl
  cases operation with
  | addClause literals =>
    obtain ⟨hm, hv⟩ := addClauseInternal_spec h.valid O literals true .formula
    rw [Operation.perform, tryAddClause] at he
    generalize s.addClauseInternal O literals true .formula = r at hm hv he
    obtain ⟨e, s₁⟩ := r
    cases e with
    | ok b =>
      obtain ⟨rfl, rfl⟩ := Prod.mk.inj (Option.some.inj he)
      exact ⟨hm.config, ⟨_, .inl ⟨h.addClause hm hv.1 fun l hl hv => hpolite l.var hv ⟨l, hl, rfl⟩,
        hm.started⟩⟩, by simp⟩
    | error e =>
      obtain ⟨rfl, rfl⟩ := Prod.mk.inj (Option.some.inj he)
      exact ⟨hm.config, ⟨_, .inl ⟨h.of_same hv hm.scopeSelectors hm.count, hm.started⟩⟩, by simp⟩
  | reserveVariables count =>
    obtain ⟨hm, hv⟩ := tryReserveVariables_spec h.valid O count
    rw [Operation.perform] at he
    generalize s.tryReserveVariables O count = r at hm hv he
    obtain ⟨e, s₁⟩ := r
    cases e <;> obtain ⟨rfl, rfl⟩ := Prod.mk.inj (Option.some.inj he) <;>
      exact ⟨hm.config, ⟨_, .inl ⟨h.of_same hv hm.scopeSelectors hm.count, hm.started⟩⟩, by simp⟩
  | pushLevels levels =>
    rw [Operation.perform] at he
    rcases pushLevels_spec h.valid O levels with ⟨e, hr⟩ | ⟨s₁, hr, hv, hcount, hsel, hcfg, hst⟩
    · rw [hr] at he
      obtain ⟨rfl, rfl⟩ := Prod.mk.inj (Option.some.inj he)
      exact ⟨rfl, ⟨_, .inl ⟨h, rfl⟩⟩, by simp⟩
    · rw [hr] at he
      obtain ⟨rfl, rfl⟩ := Prod.mk.inj (Option.some.inj he)
      exact ⟨hcfg, ⟨_, .inl ⟨h.pushLevels hv hcount hsel, hst⟩⟩, by simp⟩
  | pop levels =>
    rw [Operation.perform] at he
    rcases pop_spec h.valid O levels hlt with ⟨e, hr⟩ | ⟨s₁, hr, -, hv, hsel, hcfg, hst, hcount⟩
    · rw [hr] at he
      obtain ⟨rfl, rfl⟩ := Prod.mk.inj (Option.some.inj he)
      exact ⟨rfl, ⟨_, .inl ⟨h, rfl⟩⟩, by simp⟩
    · rw [hr] at he
      obtain ⟨rfl, rfl⟩ := Prod.mk.inj (Option.some.inj he)
      exact ⟨hcfg, ⟨_, .inl ⟨h.pop hv hsel hcount, hst⟩⟩, by simp⟩
  | solveAssuming assumptions limits =>
    rw [Operation.perform, Option.map_eq_some_iff] at he
    obtain ⟨⟨result, s₁⟩, hr, he⟩ := he
    obtain ⟨rfl, rfl⟩ := Prod.mk.inj he
    obtain ⟨hPP, hpasses, hpresent⟩ := hsafe assumptions limits rfl
    obtain ⟨hc, hv, hstarted, hcfg, hsel, hcount, hcached⟩ :=
      solveAssumingWithLimits_spec h.valid hPP hpasses hlt hpresent hr
    have hrep : ∃ Δ, (Represents P Δ client s₁ ∧ s₁.started = s.started) ∨
        (Represents P' Δ client s₁ ∧ s₁.started = true) := by
      rcases hstarted with rfl | hstarted
      · exact ⟨Γ, .inl ⟨h, rfl⟩⟩
      · exact ⟨Γ, .inr ⟨(h.weaken hPP).of_same hv hsel hcount.ge, hstarted⟩⟩
    refine ⟨hcfg, hrep, ?_⟩
    rintro assumptions' limits' result' ho ha
    obtain ⟨rfl, rfl⟩ := Operation.solveAssuming.inj ho
    obtain rfl := Response.answer.inj ha
    have hpolite' : ∀ a ∈ assumptions, a.var ∉ client.reserved := fun a ha hv =>
      hpolite a.var hv ⟨a, ha, rfl⟩
    refine ⟨fun hP => (h.weaken hPP).answersCorrectly hP hc hpolite' fun a ha => ?_, fun hu => ⟨fun hcons => ?_,
      fun hcons => ⟨hv.coreless hcons, hv.refuted hcons⟩⟩⟩
    · by_contra hge
      rw [solveAssumingWithLimits, if_pos] at hr
      · simp at hr
      · exact List.any_eq_true.2 ⟨a, ha, by simpa using hge⟩
    · obtain ⟨h1, h2⟩ := hcached hu
      obtain ⟨assumptions', h3, h4⟩ := hv.core h1 hcons
      rw [hsel] at h3 h4
      obtain rfl : assumptions = assumptions' := List.append_cancel_left (h2.symm.trans h3)
      exact h.coreCorrect h4 hpolite'

/-- **Runs** of allowed operations keep the representation. -/
lemma Represents.of_reaches
    (hsafe : ∀ Γ client s assumptions limits, Represents P Γ client s → s.config = config →
      Allowed (.solveAssuming assumptions limits) s → QuerySafe O P P Γ assumptions s)
    (h : Reaches O config Allowed client s) : s.config = config ∧ ∃ Γ, Represents P Γ client s := by
  induction h with
  | start => exact ⟨rfl, _, represents_withConfig config⟩
  | step _ hpolite hallowed hperformed ih =>
    obtain ⟨hcfg, Γ, hrep⟩ := ih
    obtain ⟨h1, h2, -⟩ := hrep.perform hpolite
      (fun A limits ho => hsafe Γ _ _ A limits hrep hcfg (ho ▸ hallowed)) hperformed
    obtain ⟨Δ, ⟨h2, -⟩ | ⟨h2, -⟩⟩ := h2
    · exact ⟨h1.trans hcfg, Δ, h2⟩
    · exact ⟨h1.trans hcfg, Δ, h2⟩

/-- A fresh solver to which clauses have been added. -/
def withClauses (O : Oracle) (config : SolverConfig) (clauses : List (List Lit)) : Solver :=
  clauses.foldl (fun s c => (s.tryAddClause O c).2) (withConfig config)

/-- **A solver with clauses** is reached by adding them one by one. -/
lemma withClauses_spec (P : Prop) {clauses : List (List Lit)}
    (hlt : ∀ c ∈ clauses, ∀ l ∈ c, l.var < maxVariables)
    (hadd : ∀ c s, Allowed (.addClause c) s) :
    Reaches O config Allowed ⟨clauses, [], []⟩ (withClauses O config clauses) ∧
      (withClauses O config clauses).started = false ∧
      ∃ Γ, Represents P Γ ⟨clauses, [], []⟩ (withClauses O config clauses) := by
  induction clauses using List.reverseRecOn with
  | nil => exact ⟨.start, rfl, _, represents_withConfig config⟩
  | append_singleton clauses c ih =>
    obtain ⟨hrun, hfresh, Γ, hrep⟩ := ih fun d hd => hlt d (List.mem_append_left _ hd)
    rw [withClauses, List.foldl_append, List.foldl_cons, List.foldl_nil]
    change Reaches O config Allowed _ ((withClauses O config clauses).tryAddClause O c).2 ∧ _
    set s := withClauses O config clauses
    have hsel : s.scopeSelectors = [] := List.length_eq_zero_iff.1 hrep.length
    have hguard : s.guarded true c = c := by
      rw [guarded, hsel]
      rfl
    have hreq : requiredVariables c ≤ maxVariables :=
      requiredVariables_le fun l hl => hlt c (by simp) l hl
    obtain ⟨hm, hv⟩ := addClauseInternal_spec hrep.valid O c true .formula
    obtain ⟨b, hb⟩ : ∃ b, (s.addClauseInternal O c true .formula).1 = .ok b := by
      rw [addClauseInternal, if_neg (by simp [hfresh])]
      dsimp only
      rw [show (s.prepareIncrementalMutation O).guarded true c = c by
        rw [guarded, (Mutated.prepare O s).scopeSelectors, ← guarded, hguard], if_neg (by omega)]
      exact ⟨_, rfl⟩
    rw [hb] at hv
    have hperf : (Operation.addClause c).perform O 0 s = some (.done, (s.tryAddClause O c).2) := by
      rw [Operation.perform, tryAddClause]
      generalize s.addClauseInternal O c true .formula = r at hb
      obtain ⟨e, s'⟩ := r
      obtain rfl : e = .ok b := hb
      rfl
    exact ⟨hrun.step (by simp) (hadd c s) hperf, hm.started.trans hfresh, _,
      hrep.addClause hm hv.1 (by simp)⟩

lemma reaches_withClauses (O : Oracle) (config : SolverConfig) {clauses : List (List Lit)}
    (hlt : ∀ c ∈ clauses, ∀ l ∈ c, l.var < maxVariables) :
    Reaches O config (fun _ _ => True) ⟨clauses, [], []⟩ (withClauses O config clauses) :=
  (withClauses_spec True hlt fun _ _ => trivial).1

/-- A query without root passes is safe. -/
lemma QuerySafe.of_off {assumptions : List Lit} (h : Valid P Γ s)
    (hoff : s.config.PassesOff) : QuerySafe O P P Γ assumptions s where
  weaker := id
  passes _ s₁ _ hp hf := by
    rw [rootPasses_of_off O (by rwa [show s₁.config = s.config by rw [hf.session]])]
    exact .done s₁ hp (.refl s₁)
  present _ a _ := by
    have hirr : s.irreversible = false := by
      obtain ⟨-, -, -, h4, h5⟩ := hoff
      rw [irreversible, h4, h5]
      rfl
    have hnone : s.eliminationRecords = [] := by
      by_contra hne
      rw [(h.records hne).2] at hirr
      simp at hirr
    have hprep := prepareQuery_spec h.sound O id subset_rfl (fun _ => rfl) fun _ _ s₁ _ hp hf => by
      rw [rootPasses_of_off O (by rwa [show s₁.config = s.config by rw [hf.session]])]
      exact .done s₁ hp (.refl s₁)
    have hrec : (s.prepareQuery O).2.eliminationRecords = [] := by
      generalize s.prepareQuery O = r at hprep
      cases hprep with
      | refuted s' _ hf => exact (hf.records hirr).trans hnone
      | done s' _ _ hf => exact (hf.records hirr).trans hnone
    rw [eliminatedVariables, hrec]
    simp

end Solver

end Satrap
