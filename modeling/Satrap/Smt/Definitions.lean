/-
# Names over whole runs

The tables of a session seen from every open scope, what the effects of commands do to them, and
what follows for all runs: every expansion ends, a defined function keeps the meaning its body had
when it was defined, and popping brings back the names that were in force.
-/
import Satrap.Smt.Commands
import Satrap.Smt.History

namespace Satrap.Smt

open CommandM TermStore

variable {α : Type}

/-! ### Tables with the same entries -/

/-- The tables have the same entries. -/
structure Agree (T T' : Tables) : Prop where
  logic : T'.logic = T.logic
  produceProofs : T'.produceProofs = T.produceProofs
  bindings : ∀ name, T'.bindings.lookup name = T.bindings.lookup name
  functions : ∀ name, T'.functions.lookup name = T.functions.lookup name
  sorts : ∀ name, T'.sorts.lookup name = T.sorts.lookup name

namespace Agree

variable {T T' T₁ T₂ T₃ : Tables}

lemma refl (T : Tables) : Agree T T := ⟨rfl, rfl, fun _ => rfl, fun _ => rfl, fun _ => rfl⟩

lemma trans (h : Agree T₁ T₂) (h' : Agree T₂ T₃) : Agree T₁ T₃ where
  logic := h'.logic.trans h.logic
  produceProofs := h'.produceProofs.trans h.produceProofs
  bindings name := (h'.bindings name).trans (h.bindings name)
  functions name := (h'.functions name).trans (h.functions name)
  sorts name := (h'.sorts name).trans (h.sorts name)

lemma within (h : Agree T T') : Within T T' where
  logic := h.logic
  produceProofs := h.produceProofs
  bindings name _ hn := (h.bindings name).trans hn
  functions name _ hn := (h.functions name).trans hn
  sorts name _ hn := (h.sorts name).trans hn

end Agree

lemma lookup_foldl_erase (names : List Text) (table : Table α) (name : Text) :
    (names.foldl (fun table name => table.erase name) table).lookup name =
      if name ∈ names then none else table.lookup name := by
  induction names generalizing table with
  | nil => rfl
  | cons first rest ih =>
    rw [List.foldl_cons, ih]
    by_cases hrest : name ∈ rest
    · rw [if_pos hrest, if_pos (List.mem_cons_of_mem _ hrest)]
    · rw [if_neg hrest]
      by_cases hfirst : name = first
      · rw [if_pos (hfirst ▸ List.mem_cons_self), hfirst, AList.lookup_erase]
      · rw [if_neg (by simp [hfirst, hrest]), AList.lookup_erase_ne hfirst]

namespace Session

variable {depth : ℕ} {s s' s₁ s₂ : Session}

/-- Forgetting the new names as well leaves what forgetting the old ones left. -/
lemma Enlarged.lookup_erased {table table' : Table α} {new : List Text}
    (h : Enlarged table table' new) (old : List Text) (name : Text) :
    ((old ++ new).foldl (fun table name => table.erase name) table').lookup name =
      (old.foldl (fun table name => table.erase name) table).lookup name := by
  rw [lookup_foldl_erase, lookup_foldl_erase]
  by_cases hold : name ∈ old
  · rw [if_pos (List.mem_append_left _ hold), if_pos hold]
  rw [if_neg hold]
  by_cases hnew : name ∈ new
  · rw [if_pos (List.mem_append_right _ hnew), h.fresh name hnew]
  rw [if_neg (by simp [hold, hnew])]
  cases hname : table'.lookup name with
  | some a => exact ((h.cases name a hname).resolve_right hnew).symm
  | none =>
    cases hlast : table.lookup name with
    | none => rfl
    | some a =>
      rw [h.keeps name a hlast] at hname
      exact nomatch hname

/-! ### Popping -/

/-- The sessions have the same scopes, and their tables have the same entries. -/
structure Alike (s s' : Session) : Prop where
  tables : Agree s.tables s'.tables
  scopes : s'.scopes = s.scopes

lemma Alike.unbind {frame : Frame} {scopes : List Frame} (h : Alike s s') :
    Alike (unbind frame { s with scopes }) (unbind frame { s' with scopes }) where
  tables := by
    refine ⟨h.tables.logic, h.tables.produceProofs, fun name => ?_, fun name => ?_,
      fun name => ?_⟩ <;> simp only [Session.unbind, Session.tables, lookup_foldl_erase]
    · rw [show s'.bindings.lookup name = _ from h.tables.bindings name]
      rfl
    · rw [show s'.functions.lookup name = _ from h.tables.functions name]
      rfl
    · rw [show s'.sorts.lookup name = _ from h.tables.sorts name]
      rfl
  scopes := rfl

lemma Alike.popScopes (h : Alike s s') (levels : ℕ) :
    Alike (popScopes levels s) (popScopes levels s') := by
  induction levels generalizing s s' with
  | zero => exact h
  | succ levels ih =>
    unfold Session.popScopes
    rw [h.scopes]
    cases s.scopes with
    | nil => exact h
    | cons scope rest => exact ih h.unbind

lemma popScopes_nil (levels : ℕ) (h : s.scopes = []) : popScopes levels s = s := by
  cases levels with
  | zero => rfl
  | succ levels =>
    unfold popScopes
    rw [h]

lemma popScopes_add (m n : ℕ) (s : Session) :
    popScopes (m + n) s = popScopes n (popScopes m s) := by
  induction m generalizing s with
  | zero => rw [Nat.zero_add, popScopes]
  | succ m ih =>
    rw [Nat.succ_add, popScopes, popScopes]
    cases hs : s.scopes with
    | nil => exact (popScopes_nil n hs).symm
    | cons scope rest => exact ih _

lemma popScopes_scopes (levels : ℕ) (s : Session) :
    (popScopes levels s).scopes = s.scopes.drop levels := by
  induction levels generalizing s with
  | zero => rfl
  | succ levels ih =>
    unfold popScopes
    cases hs : s.scopes with
    | nil => exact hs
    | cons scope rest => exact ih _

lemma popScopes_rest (levels : ℕ) (s : Session) : ∃ bindings functions sorts scopes,
    popScopes levels s = { s with bindings, functions, sorts, scopes } := by
  induction levels generalizing s with
  | zero => exact ⟨_, _, _, _, rfl⟩
  | succ levels ih =>
    unfold popScopes
    split
    · exact ⟨_, _, _, _, rfl⟩
    · obtain ⟨bindings, functions, sorts, scopes, heq⟩ := ih _
      exact ⟨bindings, functions, sorts, scopes, heq⟩

@[simp] lemma popScopes_terms (levels : ℕ) (s : Session) :
    (popScopes levels s).terms = s.terms := by
  obtain ⟨_, _, _, _, heq⟩ := popScopes_rest levels s
  rw [heq]

@[simp] lemma popScopes_logic (levels : ℕ) (s : Session) :
    (popScopes levels s).logic = s.logic := by
  obtain ⟨_, _, _, _, heq⟩ := popScopes_rest levels s
  rw [heq]

@[simp] lemma popScopes_options (levels : ℕ) (s : Session) :
    (popScopes levels s).options = s.options := by
  obtain ⟨_, _, _, _, heq⟩ := popScopes_rest levels s
  rw [heq]

/-- Scopes without names are popped without effect on the tables. -/
lemma popScopes_empty (h : ∀ scope ∈ s.scopes, scope = {}) (levels : ℕ) :
    (popScopes levels s).tables = s.tables := by
  induction levels generalizing s with
  | zero => rfl
  | succ levels ih =>
    unfold popScopes
    cases hs : s.scopes with
    | nil => rfl
    | cons scope rest =>
      rw [hs, List.forall_mem_cons] at h
      obtain ⟨rfl, hrest⟩ := h
      exact ih hrest

/-- The tables once all but the outermost scopes are popped. -/
def level (height : ℕ) (s : Session) : Tables :=
  (popScopes (s.scopes.length - height) s).tables

lemma Alike.level (h : Alike s s') (height : ℕ) : Agree (level height s) (level height s') := by
  unfold Session.level
  rw [h.scopes]
  exact (h.popScopes _).tables

lemma level_of_length_le {height : ℕ} (h : s.scopes.length ≤ height) :
    level height s = s.tables := by
  rw [level, Nat.sub_eq_zero_of_le h, popScopes]

lemma level_popScopes {levels height : ℕ} (h : height + levels ≤ s.scopes.length) :
    level height (popScopes levels s) = level height s := by
  rw [level, popScopes_scopes, List.length_drop, ← popScopes_add, level]
  congr 2
  omega

/-! ### The invariant -/

/-- Every defined function that is in force at some level is understood there. -/
structure Sound (depth : ℕ) (s : Session) : Prop where
  terms : s.terms.Ok
  unset : s.logic = none → s.scopes = [] ∧ ∀ name, s.functions.lookup name = none
  quiet : s.options.globalDeclarations = true → ∀ scope ∈ s.scopes, scope = {}
  understood : ∀ height ≤ s.scopes.length, ∀ name definition,
    (level height s).functions.lookup name = some (.defined definition) →
      definition.Understood depth (level height s)

lemma sound_new (depth : ℕ) : Sound depth new where
  terms := ok_new
  unset _ := ⟨rfl, fun _ => rfl⟩
  quiet _ := nofun
  understood height _ name definition h := by
    rw [level, popScopes_nil _ rfl] at h
    exact nomatch h

/-- Seen from a height, a step has changed nothing, or it has added to all that was in force, or no
function is left. -/
inductive Seen (depth : ℕ) (s s' : Session) (height : ℕ) : Prop
  | kept (hheight : height ≤ s.scopes.length)
      (h : Agree (level height s) (level height s'))
  | grown (hheight : s.scopes.length ≤ height ∨ s.options.globalDeclarations = true)
      (hagree : Agree s'.tables (level height s')) (hwithin : Within s.tables s'.tables)
      (h : ∀ name definition, s'.functions.lookup name = some (.defined definition) →
        s.functions.lookup name = some (.defined definition) ∨
          definition.Understood depth s'.tables)
  | blank (hscopes : s'.scopes = [])
      (h : ∀ name, (level height s').functions.lookup name = none)

lemma Seen.of_eq {height : ℕ}
    (hheight : s.scopes.length ≤ height ∨ s.options.globalDeclarations = true)
    (htables : s'.tables = s.tables) (h : Agree s'.tables (level height s')) :
    Seen depth s s' height :=
  .grown hheight h (htables ▸ .refl _) fun name _ hname =>
    .inl ((congrArg (fun T => T.functions.lookup name) htables).symm.trans hname)

/-- With one more scope popped nothing is left of what was added. -/
lemma Adds.alike {names functions sorts : List Text} {scope : Frame} {rest : List Frame}
    (h : Adds depth s s' names functions sorts) :
    Alike (unbind scope { s with scopes := rest })
      (unbind ⟨scope.boundNames ++ names, scope.boundFunctions ++ functions,
        scope.boundSorts ++ sorts⟩ { s' with scopes := rest }) where
  tables := ⟨h.logic, congrArg Options.produceProofs h.options,
    h.moreBindings.lookup_erased scope.boundNames,
    h.moreFunctions.lookup_erased scope.boundFunctions,
    h.moreSorts.lookup_erased scope.boundSorts⟩
  scopes := rfl

lemma Adds.seen {names functions sorts : List Text} (hs : Sound depth s)
    (h : Adds depth s s' names functions sorts) {height : ℕ} (hheight : height ≤ s'.scopes.length) :
    Seen depth s s' height := by
  have hgrown : Agree s'.tables (level height s') →
      s.scopes.length ≤ height ∨ s.options.globalDeclarations = true → Seen depth s s' height :=
    fun hagree hbase => .grown hbase hagree h.within h.meant
  rcases h.frames with ⟨hbase, hscopes⟩ | ⟨-, scope, rest, hold, hnew⟩
  · rcases hbase with hglobal | hempty
    · refine hgrown ?_ (.inr hglobal)
      rw [level, popScopes_empty (by rw [hscopes]; exact hs.quiet hglobal)]
      exact .refl _
    · rw [hscopes, hempty] at hheight
      refine hgrown ?_ (.inl (by rw [hempty]; exact Nat.zero_le _))
      rw [level_of_length_le (by rw [hscopes, hempty]; exact Nat.zero_le _)]
      exact .refl _
  · rw [hnew, List.length_cons] at hheight
    rcases Nat.lt_or_ge rest.length height with hlast | hless
    · refine hgrown ?_ (.inl (by rw [hold, List.length_cons]; omega))
      rw [level_of_length_le (by rw [hnew, List.length_cons]; omega)]
      exact .refl _
    · refine .kept (by rw [hold, List.length_cons]; omega) ?_
      have hlength : rest.length + 1 - height = (rest.length - height) + 1 := by omega
      rw [level, level, hold, hnew, List.length_cons, List.length_cons, hlength, popScopes,
        popScopes, hold, hnew]
      exact (h.alike.popScopes _).tables

/-- Of freshly pushed scopes some are popped. -/
lemma popScopes_pushed (s : Session) {levels pushed : ℕ} (h : levels ≤ pushed)
    (rest : List Frame) :
    popScopes levels { s with scopes := List.replicate pushed {} ++ rest } =
      { s with scopes := List.replicate (pushed - levels) {} ++ rest } := by
  induction levels generalizing pushed with
  | zero => rfl
  | succ levels ih =>
    obtain ⟨pushed, rfl⟩ : ∃ k, pushed = k + 1 := ⟨pushed - 1, by omega⟩
    rw [popScopes, List.replicate_succ, List.cons_append, Nat.succ_sub_succ]
    exact ih (by omega)

section Pushed

variable (s) (levels : ℕ)

/-- The session after a `push`. -/
abbrev pushScopes : Session :=
  { s with scopes := List.replicate levels {} ++ s.scopes, lastCheck := .none }

lemma pushed_length : (pushScopes s levels).scopes.length = levels + s.scopes.length := by
  rw [List.length_append, List.length_replicate]

/-- From below nothing has been pushed. -/
lemma level_pushed {height : ℕ} (h : height ≤ s.scopes.length) :
    Agree (level height s) (level height (pushScopes s levels)) := by
  have hlike : Alike s { s with lastCheck := .none } := ⟨.refl _, rfl⟩
  have hback := popScopes_pushed { s with lastCheck := .none } (le_refl levels) s.scopes
  rw [level, level, pushed_length, Nat.add_sub_assoc h, popScopes_add, hback, Nat.sub_self,
    List.replicate_zero, List.nil_append]
  exact (hlike.popScopes _).tables

lemma seen_pushed (height : ℕ) : Seen depth s (pushScopes s levels) height := by
  rcases Nat.lt_or_ge s.scopes.length height with habove | hbelow
  · refine .of_eq (.inl habove.le) rfl ?_
    have hfew : levels + s.scopes.length - height ≤ levels := by omega
    have hback := popScopes_pushed { s with lastCheck := .none } hfew s.scopes
    rw [level, pushed_length, hback]
    exact .refl _
  · exact .kept hbelow (level_pushed s levels hbelow)

end Pushed

/-- What an effect looks like from any height. -/
lemma Effect.seen (hs : Sound depth s) (h : Effect depth s s') {height : ℕ}
    (hheight : height ≤ s'.scopes.length) : Seen depth s s' height := by
  cases h with
  | adds h => exact h.seen hs hheight
  | configured logic options hlogic =>
    obtain ⟨hscopes, hnone⟩ := hs.unset hlogic
    refine .blank hscopes fun name => ?_
    rw [level_of_length_le (by dsimp only; rw [hscopes]; exact Nat.zero_le _)]
    exact hnone name
  | adjusted options hproofs hglobal =>
    have hlike : Alike s { s with options } := ⟨⟨rfl, hproofs, fun _ => rfl, fun _ => rfl,
      fun _ => rfl⟩, rfl⟩
    exact .kept hheight (hlike.level height)
  | pushed levels hlogic => exact seen_pushed s levels height
  | popped levels hlevels =>
    have hlength : (popScopes levels s).invalidateCheck.scopes.length =
        s.scopes.length - levels := by
      rw [invalidateCheck, popScopes_scopes, List.length_drop]
    have hlike : Alike (popScopes levels s) (popScopes levels s).invalidateCheck :=
      ⟨.refl _, rfl⟩
    rw [hlength] at hheight
    have hlevel := hlike.level height
    rw [level_popScopes (by omega)] at hlevel
    exact .kept (by omega) hlevel
  | collapsed base hglobal =>
    refine .of_eq (.inr hglobal) rfl ?_
    rw [level, popScopes_nil _ rfl]
    exact .refl _
  | cleared logic options exited =>
    refine .blank rfl fun name => ?_
    rw [level, popScopes_nil _ rfl]
    rfl

/-- The invariant is kept by every effect. -/
lemma Effect.sound (hs : Sound depth s) (h : Effect depth s s') : Sound depth s' := by
  refine ⟨?_, ?_, ?_, fun height hheight name definition hname => ?_⟩
  · cases h with
    | adds h => exact h.terms.after
    | popped levels hlevels => exact popScopes_terms levels s ▸ hs.terms
    | cleared => exact ok_new
    | _ => exact hs.terms
  · cases h with
    | adds h =>
      intro hlogic
      rw [h.logic] at hlogic
      obtain ⟨hscopes, hnone⟩ := hs.unset hlogic
      refine ⟨?_, fun name => ?_⟩
      · rcases h.frames with ⟨-, hsame⟩ | ⟨-, scope, rest, hold, -⟩
        · exact hsame.trans hscopes
        · rw [hscopes] at hold
          exact nomatch hold
      · have hmore := h.moreFunctions
        rw [h.set.resolve_right (by rw [hlogic]; exact Bool.false_ne_true)] at hmore
        have := hmore.lookup_erased [] name
        exact this.trans (hnone name)
    | configured logic options hlogic => exact fun _ => hs.unset hlogic
    | adjusted options => exact hs.unset
    | pushed levels hlogic =>
      intro hnone
      rw [hnone] at hlogic
      cases hlogic
    | popped levels hlevels =>
      intro hlogic
      obtain ⟨hscopes, hnone⟩ := hs.unset ((popScopes_logic levels s).symm.trans hlogic)
      rw [popScopes_nil levels hscopes]
      exact ⟨hscopes, hnone⟩
    | collapsed base => exact fun hlogic => ⟨rfl, (hs.unset hlogic).2⟩
    | cleared => exact fun _ => ⟨rfl, fun _ => rfl⟩
  · cases h with
    | adds h =>
      intro hglobal
      rw [h.options] at hglobal
      rcases h.frames with ⟨-, hsame⟩ | ⟨hnot, -⟩
      · exact hsame ▸ hs.quiet hglobal
      · rw [hglobal] at hnot
        cases hnot
    | configured logic options hlogic =>
      intro _ scope hscope
      dsimp only at hscope
      rw [(hs.unset hlogic).1] at hscope
      exact absurd hscope List.not_mem_nil
    | adjusted options hproofs hglobal =>
      exact fun hquiet => hs.quiet (hglobal.symm.trans hquiet)
    | pushed levels =>
      intro hglobal scope hscope
      rcases List.mem_append.1 hscope with hnew | hold
      · exact List.eq_of_mem_replicate hnew
      · exact hs.quiet hglobal scope hold
    | popped levels =>
      intro hglobal scope hscope
      rw [invalidateCheck, popScopes_scopes] at hscope
      exact hs.quiet ((congrArg Options.globalDeclarations (popScopes_options levels s)).symm.trans
        hglobal) scope (List.mem_of_mem_drop hscope)
    | collapsed => exact fun _ _ hscope => absurd hscope List.not_mem_nil
    | cleared => exact fun _ _ hscope => absurd hscope List.not_mem_nil
  · cases h.seen hs hheight with
    | kept hle hagree =>
      obtain ⟨calls, hat⟩ := hs.understood height hle name definition
        ((hagree.functions name).symm.trans hname)
      exact ⟨calls, hat.within hagree.within⟩
    | grown hbase hagree hwithin h =>
      have hmeant : definition.Understood depth s'.tables := by
        rcases h name definition ((hagree.functions name).symm.trans hname) with hold | hmeant
        · have htop := hs.understood s.scopes.length le_rfl name definition
          rw [level_of_length_le le_rfl] at htop
          obtain ⟨calls, hat⟩ := htop hold
          exact ⟨calls, hat.within hwithin⟩
        · exact hmeant
      obtain ⟨calls, hat⟩ := hmeant
      exact ⟨calls, hat.within hagree.within⟩
    | blank hscopes hnone =>
      rw [hnone name] at hname
      cases hname

/-! ### Runs -/

/-- A command has been executed, whatever its outcome. -/
def Step (depth : ℕ) (s s' : Session) : Prop :=
  ∃ calls answer command result, execute depth calls answer command s = some (result, s')

/-- Commands have been executed one after the other. -/
abbrev Runs (depth : ℕ) : Session → Session → Prop := Relation.ReflTransGen (Step depth)

lemma popScopes_exited (levels : ℕ) (s : Session) (exited : Bool) :
    popScopes levels { s with exited } = { popScopes levels s with exited } := by
  induction levels generalizing s with
  | zero => rfl
  | succ levels ih =>
    unfold popScopes
    dsimp only
    split
    · rfl
    · rename_i scope rest _
      exact ih (unbind scope { s with scopes := rest })

lemma level_exited (height : ℕ) (s : Session) (exited : Bool) :
    level height { s with exited } = level height s := by
  unfold level
  rw [popScopes_exited]
  rfl

lemma Seen.exited {height : ℕ} (h : Seen depth s s' height) (exited : Bool) :
    Seen depth s { s' with exited } height := by
  cases h with
  | kept hheight h => exact .kept hheight (level_exited height s' exited ▸ h)
  | grown hheight hagree hwithin h =>
    exact .grown hheight (level_exited height s' exited ▸ hagree) hwithin h
  | blank hscopes h =>
    refine .blank hscopes ?_
    rw [level_exited]
    exact h

lemma Sound.exited (h : Sound depth s) (exited : Bool) : Sound depth { s with exited } := by
  refine ⟨h.terms, h.unset, h.quiet, fun height hheight => ?_⟩
  rw [level_exited]
  exact h.understood height hheight

/-- Any command, refused or not, has one of the effects. -/
lemma Step.effect (hs : s.terms.Ok) (h : Step depth s s') :
    ∃ s₁ exited, s' = { s₁ with exited := exited } ∧ Effect depth s s₁ := by
  obtain ⟨calls, answer, command, result, hrun⟩ := h
  have hpost := post_execute answer hs command result s' hrun
  cases result with
  | error e =>
    have hadds : Adds depth s s' [] [] [] := hpost.1.adds s'.lastCheck
    exact ⟨s', s'.exited, rfl, .adds hadds⟩
  | ok value =>
    obtain ⟨s₁, exited, heq, heffect, -⟩ := hpost
    exact ⟨s₁, exited, heq, heffect⟩

lemma Step.seen (hs : Sound depth s) (h : Step depth s s') {height : ℕ}
    (hheight : height ≤ s'.scopes.length) : Seen depth s s' height := by
  obtain ⟨s₁, exited, rfl, heffect⟩ := h.effect hs.terms
  exact (heffect.seen hs hheight).exited exited

lemma Step.sound (hs : Sound depth s) (h : Step depth s s') : Sound depth s' := by
  obtain ⟨s₁, exited, rfl, heffect⟩ := h.effect hs.terms
  exact (heffect.sound hs).exited exited

/-- Commands have been executed one after the other, and the property holds of every session from
the first to the last. -/
inductive Stays (depth : ℕ) (P : Session → Prop) : Session → Session → Prop
  | refl {s : Session} (h : P s) : Stays depth P s s
  | step {s₀ s s' : Session} (h : Stays depth P s₀ s) (hstep : Step depth s s') (hP : P s') :
      Stays depth P s₀ s'

lemma Stays.last {P : Session → Prop} (h : Stays depth P s s') : P s' := by
  cases h with
  | refl h => exact h
  | step _ _ h => exact h

lemma Runs.sound (hs : Sound depth s) (h : Runs depth s s') : Sound depth s' := by
  induction h with
  | refl => exact hs
  | tail _ hstep ih => exact hstep.sound ih

/-- The session after a command. -/
def after (depth calls : ℕ) (answer : Answer) (command : SExpr) (s : Session) : Session :=
  ((execute depth calls answer command s).map Prod.snd).getD s

lemma execute_after {calls : ℕ} {answer : Answer} {command : SExpr}
    {result : Except CommandError CommandValue}
    (h : (execute depth calls answer command s).map Prod.fst = some result) :
    execute depth calls answer command s =
      some (result, after depth calls answer command s) := by
  obtain ⟨⟨_, s'⟩, hrun, rfl⟩ := Option.map_eq_some_iff.1 h
  rw [after, hrun]
  rfl

lemma step_after {calls : ℕ} {answer : Answer} {command : SExpr}
    {r : Except CommandError CommandValue}
    (h : (execute depth calls answer command s).map Prod.fst = some r) :
    Step depth s (after depth calls answer command s) :=
  ⟨calls, answer, command, r, execute_after h⟩

section Sample

/-- Nothing is refused, and checks are not decided. -/
def sampleAnswer : Answer where
  encode := .ok ()
  solver := .ok ()
  prepare := pure ()
  keeps := inferInstance
  check := .ok .unknown
  value _ := .ok []
  read := .ok []

/-- An atom of a script. -/
def sampleAtom (kind : AtomKind) (text : String) : SExpr := .atom ⟨bytesOf text, kind⟩

/-- `(define-fun f ((x Bool)) Bool (not x))`. -/
def sampleDefinition : SExpr :=
  .list [sampleAtom .reserved "define-fun", sampleAtom .symbol "f",
    .list [.list [sampleAtom .symbol "x", sampleAtom .symbol "Bool"]], sampleAtom .symbol "Bool",
    .list [sampleAtom .symbol "not", sampleAtom .symbol "x"]]

/-- `(push 1)`. -/
def samplePush : SExpr := .list [sampleAtom .reserved "push", sampleAtom .numeral "1"]

/-- `(declare-const a Bool)`. -/
def sampleDeclaration : SExpr :=
  .list [sampleAtom .reserved "declare-const", sampleAtom .symbol "a", sampleAtom .symbol "Bool"]

/-- `(pop 1)`. -/
def samplePop : SExpr := .list [sampleAtom .reserved "pop", sampleAtom .numeral "1"]

/-- A session in `QF_UFLIA`. -/
def sampleStart : Session := after 1 3 sampleAnswer
  (.list [sampleAtom .reserved "set-logic", sampleAtom .symbol "QF_UFLIA"]) new

/-- The function is defined. -/
def sampleDefined : Session := after 1 3 sampleAnswer sampleDefinition sampleStart

/-- A scope is open. -/
def samplePushed : Session := after 1 3 sampleAnswer samplePush sampleDefined

/-- A constant is declared in the scope. -/
def sampleDeclared : Session := after 1 3 sampleAnswer sampleDeclaration samplePushed

lemma runs_sampleStart : Runs 1 new sampleStart := .single (step_after (r := .ok .success) rfl)

lemma step_sampleDefined : Step 1 sampleStart sampleDefined := step_after (r := .ok .success) rfl

lemma step_samplePushed : Step 1 sampleDefined samplePushed := step_after (r := .ok .success) rfl

lemma step_sampleDeclared : Step 1 samplePushed sampleDeclared := step_after (r := .ok .success) rfl

end Sample

/-- In every session that is reached, reading an expression ends: with enough nested calls at hand
more of them make no difference. -/
theorem expansion_ends (hs : Runs depth new s) (e : SExpr) :
    ∃ calls, ∀ n ≥ calls, ∀ locals terms,
      parseTerm depth s.tables n e locals terms =
        parseTerm depth s.tables calls e locals terms ∧
      parseTerm depth s.tables n e locals terms ≠ none := by
  have hsound := Runs.sound (sound_new depth) hs
  have htop : ∀ name definition, s.tables.functions.lookup name = some (.defined definition) →
      definition.Understood depth s.tables := by
    have := hsound.understood s.scopes.length le_rfl
    rwa [level_of_length_le le_rfl] at this
  obtain ⟨calls, h⟩ := parseTerm_ends htop e
  refine ⟨calls, fun n hn locals terms => ?_⟩
  obtain ⟨heq, htotal⟩ := h locals s.tables (.refl _) n hn [] (.refl _)
  have heq : parseTerm depth s.tables n e locals = parseTerm depth s.tables calls e locals := heq
  rw [heq]
  exact ⟨rfl, htotal.ne_none terms⟩

theorem expansion_ends_nested : ∃ calls, ∀ n ≥ calls, ∀ locals terms,
    parseTerm 1 sampleDefined.tables n
        (.list [sampleAtom .symbol "f", .list [sampleAtom .symbol "f", sampleAtom .symbol "true"]])
        locals terms =
      parseTerm 1 sampleDefined.tables calls
        (.list [sampleAtom .symbol "f", .list [sampleAtom .symbol "f", sampleAtom .symbol "true"]])
        locals terms ∧
    parseTerm 1 sampleDefined.tables n
        (.list [sampleAtom .symbol "f", .list [sampleAtom .symbol "f", sampleAtom .symbol "true"]])
        locals terms ≠ none :=
  expansion_ends (runs_sampleStart.tail step_sampleDefined) _

/-! ### Defined functions -/

/-- Wherever the function is in force, so are the tables of its definition. -/
def Anchored (T : Tables) (name : Text) (s : Session) : Prop :=
  ∀ height ≤ s.scopes.length, (level height s).functions.lookup name ≠ none →
    Within T (level height s)

/-- Popping brings no functions. -/
lemma mem_of_level {height : ℕ} {name : Text}
    (h : (level height s).functions.lookup name ≠ none) : name ∈ s.functions := by
  unfold level at h
  generalize s.scopes.length - height = levels at h
  induction levels generalizing s with
  | zero => exact not_not.1 (mt AList.lookup_eq_none.2 h)
  | succ levels ih =>
    unfold popScopes at h
    cases hs : s.scopes with
    | nil =>
      rw [hs] at h
      exact not_not.1 (mt AList.lookup_eq_none.2 h)
    | cons scope rest =>
      rw [hs] at h
      have hmem := ih h
      refine not_not.1 (mt AList.lookup_eq_none.2 fun hnone => ?_)
      refine AList.lookup_eq_none.1 ?_ hmem
      rw [unbind, lookup_foldl_erase]
      split_ifs
      · rfl
      · exact hnone

/-- A function is new only where all tables of its definition are in force. -/
lemma Step.anchored {name : Text} (hs : Sound depth s) (h : Step depth s s')
    (hnew : name ∉ s.functions) : Anchored s'.tables name s' := by
  intro height hheight hvisible
  cases h.seen hs hheight with
  | kept hle hagree =>
    rw [hagree.functions] at hvisible
    exact absurd (mem_of_level hvisible) hnew
  | grown hbase hagree hwithin hmeant => exact hagree.within
  | blank hscopes hnone => exact absurd (hnone name) hvisible

/-- Wherever the function remains, so do the tables of its definition. -/
lemma Anchored.step {T : Tables} {name : Text} (h : Anchored T name s) (hs : Sound depth s)
    (hname : name ∈ s.functions) (hstep : Step depth s s') : Anchored T name s' := by
  intro height hheight hvisible
  cases hstep.seen hs hheight with
  | kept hle hagree =>
    rw [hagree.functions] at hvisible
    exact (h height hle hvisible).trans hagree.within
  | grown hbase hagree hwithin hmeant =>
    have htop := h s.scopes.length le_rfl
    rw [level_of_length_le le_rfl] at htop
    refine ((htop fun hnone => ?_).trans hwithin).trans hagree.within
    exact AList.lookup_eq_none.1 hnone hname
  | blank hscopes hnone => exact absurd (hnone name) hvisible

/-- In every session on the way the tables of the definition are in force. -/
lemma Stays.within {name : Text} {s₀ : Session} (hs : Sound depth s₀) (hdefine : Step depth s₀ s₁)
    (hnew : name ∉ s₀.functions) (h : Stays depth (fun s => name ∈ s.functions) s₁ s) :
    Within s₁.tables s.tables := by
  have hanchored : Sound depth s ∧ Anchored s₁.tables name s := by
    induction h with
    | refl hname => exact ⟨hdefine.sound hs, hdefine.anchored hs hnew⟩
    | step hlives hstep hname ih =>
      exact ⟨hstep.sound ih.1, ih.2.step ih.1 hlives.last hstep⟩
  have htop := hanchored.2 s.scopes.length le_rfl
  rw [level_of_length_le le_rfl] at htop
  exact htop fun hnone => AList.lookup_eq_none.1 hnone h.last

/-- An application of a defined function is an instance of its body under the tables of its
definition, as long as the function is defined, whatever else is declared or defined, pushed or
popped, and whatever the local names at the application. -/
theorem application_means_definition {name : Text} {definition : Definition} {s₀ : Session}
    (hs : Runs depth new s₀) (hdefine : Step depth s₀ s₁) (hnew : name ∉ s₀.functions)
    (hdefined : s₁.functions.lookup name = some (.defined definition))
    (hlives : Stays depth (fun s => name ∈ s.functions) s₁ s)
    (hoperator : operatorOf depth s.logic name = none)
    (hword : name ∉ ["let", "!", "as", "_"].map bytesOf) :
    ∃ calls, ∀ n ≥ calls, ∀ head arguments locals, head.word = some name →
      parseTerm depth s.tables (n + 1) (.list (head :: arguments)) locals =
        (collect (fun argument => parseTerm depth s.tables n argument locals) arguments >>=
          instantiate (parseTerm depth s₁.tables calls) name definition) := by
  have hsound := (Runs.sound (sound_new depth) hs)
  have hwithin := hlives.within hsound hdefine hnew
  have htop := (hdefine.sound hsound).understood s₁.scopes.length le_rfl name definition
  rw [level_of_length_le le_rfl] at htop
  obtain ⟨calls, hat⟩ := htop hdefined
  refine ⟨calls, fun n hn head arguments locals hhead => ?_⟩
  have hfound : s.tables.functions.lookup name = some (.defined definition) :=
    hwithin.functions name _ hdefined
  have happly : ∀ terms, applyWord (parseTerm depth s.tables n) depth s.tables name terms =
      instantiate (parseTerm depth s₁.tables calls) name definition terms := by
    intro terms
    unfold applyWord applyFunction
    rw [show s.tables.logic = s.logic from rfl, hoperator, hfound]
    exact (instantiate_settles hat name terms s.tables hwithin n hn [] (.refl [])).1
  obtain a | items := head
  · simp only [List.map_cons, List.map_nil, List.mem_cons, List.not_mem_nil, or_false,
      not_or] at hword
    obtain ⟨hlet, hannotation, has, hunderscore⟩ := hword
    rw [parseTerm, parseTermWith, hhead, if_neg (by simpa using hunderscore)]
    unfold parseApplication expectWord
    rw [hhead]
    show (if name = bytesOf "let" then _ else _) = _
    rw [if_neg hlet, if_neg hannotation, if_neg has]
    exact congrArg _ (funext happly)
  · cases hhead

theorem application_means_definition_pushed :
    ∃ calls, ∀ n ≥ calls, ∀ head arguments locals, head.word = some (bytesOf "f") →
      parseTerm 1 sampleDeclared.tables (n + 1) (.list (head :: arguments)) locals =
        (collect (fun argument => parseTerm 1 sampleDeclared.tables n argument locals) arguments >>=
          instantiate (parseTerm 1 sampleDefined.tables calls) (bytesOf "f")
            ⟨[bytesOf "x"], [.bool], .bool, .list [sampleAtom .symbol "not",
              sampleAtom .symbol "x"]⟩) :=
  application_means_definition runs_sampleStart step_sampleDefined (by decide) (by rfl)
    (.step (.step (.refl (by decide)) step_samplePushed (by decide)) step_sampleDeclared
      (by decide)) (by rfl) (by decide)

/-! ### Scopes -/

/-- Only a `push` opens scopes. -/
lemma Effect.deeper (h : Effect depth s s') (hlength : s.scopes.length < s'.scopes.length) :
    ∃ levels, s' = pushScopes s levels := by
  cases h with
  | adds h =>
    rcases h.frames with ⟨-, hsame⟩ | ⟨-, scope, rest, hold, hnew⟩
    · exact absurd hlength (by rw [hsame]; exact lt_irrefl _)
    · exact absurd hlength (by rw [hold, hnew]; exact lt_irrefl _)
  | configured => exact absurd hlength (lt_irrefl _)
  | adjusted => exact absurd hlength (lt_irrefl _)
  | pushed levels => exact ⟨levels, rfl⟩
  | popped levels =>
    rw [invalidateCheck, popScopes_scopes, List.length_drop] at hlength
    omega
  | collapsed => exact absurd hlength (Nat.not_lt_zero _)
  | cleared => exact absurd hlength (Nat.not_lt_zero _)

/-- While scopes are open, declarations remain global or local. -/
lemma Effect.globalDeclarations (hs : Sound depth s) (h : Effect depth s s') (hopen : s.scopes ≠ [])
    (hopen' : s'.scopes ≠ []) :
    s'.options.globalDeclarations = s.options.globalDeclarations := by
  cases h with
  | adds h => rw [h.options]
  | configured logic options hlogic => exact absurd (hs.unset hlogic).1 hopen
  | adjusted options hproofs hglobal => exact hglobal
  | pushed => rfl
  | popped levels => rw [invalidateCheck, popScopes_options]
  | collapsed => exact absurd rfl hopen'
  | cleared => exact absurd rfl hopen'

/-- While scopes remain open above the old ones, the old names stay in force below. -/
lemma Stays.level (hs : Sound depth s) (hlocal : s.options.globalDeclarations = false)
    (hpush : Step depth s s₁)
    (hopen : Stays depth (fun s' => s.scopes.length < s'.scopes.length) s₁ s₂) :
    Sound depth s₂ ∧ s₂.options.globalDeclarations = false ∧
      Agree s.tables (level s.scopes.length s₂) := by
  induction hopen with
  | refl hdeeper =>
    obtain ⟨s₁, exited, rfl, heffect⟩ := hpush.effect hs.terms
    obtain ⟨levels, rfl⟩ := heffect.deeper hdeeper
    refine ⟨hpush.sound hs, hlocal, ?_⟩
    have hagree := level_pushed s levels le_rfl
    rw [level_of_length_le le_rfl] at hagree
    rwa [level_exited]
  | step hstays hstep hdeeper ih =>
    obtain ⟨hsound₁, hlocal₁, hagree⟩ := ih
    have hopen₁ := hstays.last
    refine ⟨hstep.sound hsound₁, ?_, ?_⟩
    · obtain ⟨s₄, exited, rfl, heffect⟩ := hstep.effect hsound₁.terms
      have hsame := heffect.globalDeclarations hsound₁
        (List.ne_nil_of_length_pos (Nat.zero_lt_of_lt hopen₁))
        (List.ne_nil_of_length_pos (Nat.zero_lt_of_lt hdeeper))
      exact hsame.trans hlocal₁
    · cases hstep.seen hsound₁ (Nat.le_of_lt hdeeper) with
      | kept hle hsame => exact hagree.trans hsame
      | grown hbase hsame hwithin hmeant =>
        rcases hbase with hle | hglobal
        · omega
        · rw [hlocal₁] at hglobal
          exact nomatch hglobal
      | blank hscopes hnone =>
        rw [hscopes] at hdeeper
        exact absurd hdeeper (Nat.not_lt_zero _)

/-- A `pop` back to the number of scopes before a `push` brings back the names that were in force
then, if declarations are local and scopes from before the `push` have not been closed meanwhile,
whatever has been declared, defined, pushed and popped in between. -/
theorem pop_restores_names (hs : Runs depth new s) (hlocal : s.options.globalDeclarations = false)
    (hpush : Step depth s s₁)
    (hopen : Stays depth (fun s' => s.scopes.length < s'.scopes.length) s₁ s₂) {calls : ℕ}
    {answer : Answer} {command : SExpr} {value : CommandValue} {s₃ : Session}
    (hpop : execute depth calls answer command s₂ = some (.ok value, s₃))
    (hname : commandName command = some (bytesOf "pop"))
    (hback : s₃.scopes.length = s.scopes.length) : Agree s.tables s₃.tables := by
  have hkept := hopen.level (Runs.sound (sound_new depth) hs) hlocal hpush
  obtain ⟨s₄, exited, rfl, -, hpopped⟩ := post_execute answer hkept.1.terms command _ _ hpop
  obtain ⟨levels, hlevels, rfl⟩ := hpopped hname
  have hlength : s₂.scopes.length - s.scopes.length = levels := by
    rw [← hback, invalidateCheck, popScopes_scopes, List.length_drop]
    omega
  have hagree := hkept.2.2
  rw [level, hlength] at hagree
  exact hagree

theorem pop_restores_names_sample :
    Agree sampleDefined.tables (after 1 3 sampleAnswer samplePop sampleDeclared).tables := by
  have hpop : execute 1 3 sampleAnswer samplePop sampleDeclared =
      some (.ok .success, after 1 3 sampleAnswer samplePop sampleDeclared) := execute_after rfl
  have hback : (after 1 3 sampleAnswer samplePop sampleDeclared).scopes.length =
      sampleDefined.scopes.length := by decide +kernel
  have hopen : Stays 1 (fun s' => sampleDefined.scopes.length < s'.scopes.length) samplePushed
      sampleDeclared := .step (.refl (by decide)) step_sampleDeclared (by decide)
  exact pop_restores_names (runs_sampleStart.tail step_sampleDefined) (by decide) step_samplePushed
    hopen hpop (by decide) hback

/-- A refused command leaves the session as it was; after a `declare-sort`, an `assert` or a check
there may be new terms. -/
theorem refused_command_undone (hs : Runs depth new s) {calls : ℕ} {answer : Answer}
    {command : SExpr} {e : CommandError}
    (hrun : execute depth calls answer command s = some (.error e, s')) :
    Still s s' ∧ ((∀ name ∈ untidyCommands, commandName command ≠ some name) → s' = s) :=
  post_execute answer (Runs.sound (sound_new depth) hs).terms command _ _ hrun

theorem refused_command_undone_sample :
    Still sampleDefined (after 1 3 sampleAnswer sampleDefinition sampleDefined) ∧
      ((∀ name ∈ untidyCommands, commandName sampleDefinition ≠ some name) →
        after 1 3 sampleAnswer sampleDefinition sampleDefined = sampleDefined) := by
  have hrefused : execute 1 3 sampleAnswer sampleDefinition sampleDefined =
      some (.error (.message (named "symbol `" (bytesOf "f") "` is already defined")),
        after 1 3 sampleAnswer sampleDefinition sampleDefined) := execute_after rfl
  exact refused_command_undone (runs_sampleStart.tail step_sampleDefined) hrefused

end Session

end Satrap.Smt
