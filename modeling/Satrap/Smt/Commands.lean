/-
# What a command does

What each command of a session can do to its names, its scopes and its terms, said once.  An error
leaves everything but the terms; a success is one of the few effects below.
-/
import Satrap.Smt.Growth
import Satrap.Smt.Expansion
import Satrap.Smt.Rollback

namespace Satrap.Smt

open CommandM TermStore

variable {α β : Type}

namespace Session

/-- Only terms have been added. -/
structure Still (s s' : Session) : Prop where
  rest : s' = { s with terms := s'.terms }
  terms : Later s.terms s'.terms

namespace Still

variable {s s₁ s₂ s' : Session}

lemma refl (hs : s.terms.Ok) : Still s s := ⟨rfl, hs, hs, .refl _⟩

lemma trans (h : Still s s₁) (h' : Still s₁ s₂) : Still s s₂ :=
  ⟨by rw [h'.rest, h.rest], h.terms.trans h'.terms⟩

lemma tables (h : Still s s') : s'.tables = s.tables := by rw [h.rest]; rfl

end Still

/-- After the computation: the first property of the state where it ends in an error, the second
where it has a result. -/
def Post (x : SessionM α) (s : Session) (E : Session → Prop) (Q : α → Session → Prop) : Prop :=
  ∀ r s', x s = some (r, s') →
    match r with
    | .error _ => E s'
    | .ok a => Q a s'

namespace Post

variable {x : SessionM α} {f : α → SessionM β} {s : Session} {E E' : Session → Prop}
  {Q Q' : α → Session → Prop} {R : β → Session → Prop}

lemma weaken (h : Post x s E Q) (hE : ∀ s', E s' → E' s') (hQ : ∀ a s', Q a s' → Q' a s') :
    Post x s E' Q' := by
  intro r s' hx
  have := h r s' hx
  cases r with
  | error e => exact hE s' this
  | ok a => exact hQ a s' this

lemma bind (h : Post x s E Q) (hf : ∀ a s₁, Q a s₁ → Post (f a) s₁ E R) :
    Post (x >>= f) s E R := by
  intro r s' hx
  dsimp only [Bind.bind] at hx
  split at hx
  · exact hf _ _ (h _ _ ‹_›) r s' hx
  · obtain ⟨rfl, rfl⟩ := Prod.mk.inj (Option.some.inj hx)
    exact h _ _ ‹_›
  · cases hx

lemma ofExcept {result : Except CommandError α} (hE : E s) (h : ∀ a, result = .ok a → Q a s) :
    Post (liftM result) s E Q := by
  intro r s' hx
  obtain ⟨rfl, rfl⟩ := Prod.mk.inj (Option.some.inj hx)
  cases result with
  | error e => exact hE
  | ok a => exact h a rfl

lemma pure {a : α} (h : Q a s) : Post (pure a) s E Q := by
  intro r s' hx
  obtain ⟨rfl, rfl⟩ := Prod.mk.inj (Option.some.inj hx)
  exact h

lemma fail (hE : E s) (e : CommandError) : Post (fail e) s E Q := by
  intro r s' hx
  obtain ⟨rfl, rfl⟩ := Prod.mk.inj (Option.some.inj hx)
  exact hE

lemma reject (hE : E s) (message : Text) : Post (reject message) s E Q := fail hE _

lemma ite {p : Prop} [Decidable p] {y : SessionM α} (hx : p → Post x s E Q)
    (hy : ¬ p → Post y s E Q) : Post (if p then x else y) s E Q := by
  split
  · exact hx ‹_›
  · exact hy ‹_›

/-- A check comes first. -/
lemma check {result : Except CommandError α} (hE : E s)
    (h : ∀ a, result = .ok a → Post (f a) s E R) :
    Post ((liftM result : SessionM α) >>= f) s E R := by
  cases result with
  | error e => exact fail hE e
  | ok a => exact h a rfl

/-- The state is read first. -/
lemma get {f : Session → SessionM β} (h : Post (f s) s E R) : Post (state >>= f) s E R := h

lemma updated {f : Session → Session} {Q : Unit → Session → Prop} (h : Q () (f s)) :
    Post (CommandM.update f) s E Q := by
  intro r s' hx
  obtain ⟨rfl, rfl⟩ := Prod.mk.inj (Option.some.inj hx)
  exact h

/-- The command ends with an update. -/
lemma finish {f : Session → Session} {b : β} (h : R b (f s)) :
    Post (do CommandM.update f; Pure.pure b) s E R := by
  intro r s' hx
  obtain ⟨rfl, rfl⟩ := Prod.mk.inj (Option.some.inj hx)
  exact h

/-- A run of the parser. -/
lemma parsing_run {y : Tables → ParseM α} (hs : s.terms.Ok) [hy : ∀ T, Grows (y T)] :
    Post (parsing y) s (Still s) fun a s' =>
      Still s s' ∧ y s.tables s.terms = some (.ok a, s'.terms) := by
  intro r s' hx
  obtain ⟨⟨result, terms⟩, hrun, heq⟩ := Option.map_eq_some_iff.1 hx
  obtain ⟨rfl, rfl⟩ := Prod.mk.inj heq
  have hstill : Still s { s with terms := terms } := ⟨rfl, (hy _).later _ _ _ hs hrun⟩
  cases result with
  | error e => exact hstill
  | ok a => exact ⟨hstill, hrun⟩

lemma parsing {y : Tables → ParseM α} (hs : s.terms.Ok) [∀ T, Grows (y T)] :
    Post (parsing y) s (Still s) fun _ s' => Still s s' :=
  (parsing_run hs).weaken (fun _ => id) fun _ _ h => h.1

/-- Terms are parsed or built first. -/
lemma parse {y : Tables → ParseM α} (hs : s.terms.Ok) [∀ T, Grows (y T)]
    (hE : ∀ s₁, Still s s₁ → E s₁)
    (h : ∀ a s₁, Still s s₁ → y s.tables s.terms = some (.ok a, s₁.terms) → Post (f a) s₁ E R) :
    Post (Session.parsing y >>= f) s E R :=
  .bind ((parsing_run hs).weaken hE fun _ _ => id) fun a s₁ ⟨h₁, h₂⟩ => h a s₁ h₁ h₂

/-- An error inside a transaction leaves nothing behind. -/
lemma transaction (h : Post x s (Still s) Q) : Post (transaction x) s (· = s) Q := by
  intro r s' hx
  unfold Session.transaction onError at hx
  split at hx
  · rename_i e s₁ hrun
    have hstill : Still s s₁ := h _ _ hrun
    obtain ⟨s₂, hroll, heq⟩ := Option.map_eq_some_iff.1 hx
    obtain ⟨rfl, rfl⟩ := Prod.mk.inj heq
    unfold Session.rollback at hroll
    rw [rollback_eq hstill.terms.before hstill.terms.after hstill.terms.grown] at hroll
    rw [← Option.some.inj hroll, hstill.rest]
  · rename_i result hresult
    cases r with
    | error e => exact absurd hx (hresult e s')
    | ok a => exact h _ _ hx

/-- What is temporary leaves nothing behind. -/
lemma temporary (h : Post x s (Still s) fun a s' => Still s s' ∧ Q a s') :
    Post (temporary x) s (· = s) fun a s' => s' = s ∧ ∃ s₁, Q a s₁ := by
  intro r s' hx
  unfold Session.temporary at hx
  split at hx
  · rename_i result s₁ hrun
    obtain ⟨s₂, hroll, heq⟩ := Option.map_eq_some_iff.1 hx
    obtain ⟨rfl, rfl⟩ := Prod.mk.inj heq
    have hstill : Still s s₁ := by
      have := h _ _ hrun
      cases result with
      | error e => exact this
      | ok a => exact this.1
    have hback : s₂ = s := by
      unfold Session.rollback at hroll
      rw [rollback_eq hstill.terms.before hstill.terms.after hstill.terms.grown] at hroll
      rw [← Option.some.inj hroll, hstill.rest]
    cases result with
    | error e => exact hback
    | ok a => exact ⟨hback, s₁, (h _ _ hrun).2⟩
  · exact nomatch hx

end Post

/-! ### Effects -/

/-- A table keeps its entries and gets entries for new names. -/
structure Enlarged (table table' : Table α) (new : List Text) : Prop where
  keeps : ∀ name a, table.lookup name = some a → table'.lookup name = some a
  fresh : ∀ name ∈ new, table.lookup name = none
  cases : ∀ name a, table'.lookup name = some a → table.lookup name = some a ∨ name ∈ new

lemma Enlarged.refl (table : Table α) : Enlarged table table [] :=
  ⟨fun _ _ => id, nofun, fun _ _ => .inl⟩

lemma Enlarged.insert {table : Table α} {name : Text} (h : name ∉ table) (a : α) :
    Enlarged table (table.insert name a) [name] where
  keeps other b hb := by
    have hne : other ≠ name := by
      rintro rfl
      exact h (AList.lookup_isSome.1 (by rw [hb]; rfl))
    rw [AList.lookup_insert_ne hne, hb]
  fresh other hother := by
    rw [List.mem_singleton.1 hother]
    exact AList.lookup_eq_none.2 h
  cases other b hb := by
    by_cases hne : other = name
    · exact .inr (List.mem_singleton.2 hne)
    · rw [AList.lookup_insert_ne hne] at hb
      exact .inl hb

lemma Enlarged.trans {table₁ table₂ table₃ : Table α} {new new' : List Text}
    (h : Enlarged table₁ table₂ new) (h' : Enlarged table₂ table₃ new') :
    Enlarged table₁ table₃ (new' ++ new) where
  keeps name a ha := h'.keeps name a (h.keeps name a ha)
  fresh name hname := by
    rcases List.mem_append.1 hname with hnew | hnew
    · cases hold : table₁.lookup name with
      | none => rfl
      | some a =>
        have := h'.fresh name hnew
        rw [h.keeps name a hold] at this
        exact nomatch this
    · exact h.fresh name hnew
  cases name a ha := by
    rcases h'.cases name a ha with hold | hnew
    · exact (h.cases name a hold).imp_right (List.mem_append_right _)
    · exact .inr (List.mem_append_left _ hnew)

/-- The frame of `declaration_frame` has got the names; the base frame is never popped. -/
def Declared (s s' : Session) (names functions sorts : List Text) : Prop :=
  (s.options.globalDeclarations = true ∨ s.scopes = []) ∧ s'.scopes = s.scopes ∨
  s.options.globalDeclarations = false ∧ ∃ scope rest, s.scopes = scope :: rest ∧
    s'.scopes = ⟨scope.boundNames ++ names, scope.boundFunctions ++ functions,
      scope.boundSorts ++ sorts⟩ :: rest

lemma within_of_enlarged {names functions sorts : List Text} {s s' : Session}
    (hlogic : s'.logic = s.logic) (hoptions : s'.options = s.options)
    (hbindings : Enlarged s.bindings s'.bindings names)
    (hfunctions : Enlarged s.functions s'.functions functions)
    (hsorts : Enlarged s.sorts s'.sorts sorts) : Within s.tables s'.tables :=
  ⟨hlogic, congrArg Options.produceProofs hoptions, hbindings.keeps, hfunctions.keeps,
    hsorts.keeps⟩

/-- Terms, names, functions and sorts have been added, and the bodies of added functions are
understood. -/
structure Adds (depth : ℕ) (s s' : Session) (names functions sorts : List Text) : Prop where
  logic : s'.logic = s.logic
  options : s'.options = s.options
  terms : Later s.terms s'.terms
  moreBindings : Enlarged s.bindings s'.bindings names
  moreFunctions : Enlarged s.functions s'.functions functions
  moreSorts : Enlarged s.sorts s'.sorts sorts
  frames : Declared s s' names functions sorts
  meant : ∀ name definition, s'.functions.lookup name = some (.defined definition) →
    s.functions.lookup name = some (.defined definition) ∨
      definition.Understood depth s'.tables
  set : functions = [] ∨ s.logic.isSome

lemma Adds.within {depth : ℕ} {s s' : Session} {names functions sorts : List Text}
    (h : Adds depth s s' names functions sorts) : Within s.tables s'.tables :=
  within_of_enlarged h.logic h.options h.moreBindings h.moreFunctions h.moreSorts

/-- What a successful command does. -/
inductive Effect (depth : ℕ) (s : Session) : Session → Prop
  | adds {s' : Session} {names functions sorts : List Text}
      (h : Adds depth s s' names functions sorts) : Effect depth s s'
  | configured (logic : Option Text) (options : Options) (h : s.logic = none) :
      Effect depth s { s with logic := logic, options := options }
  | adjusted (options : Options) (hproofs : options.produceProofs = s.options.produceProofs)
      (hglobal : options.globalDeclarations = s.options.globalDeclarations) :
      Effect depth s { s with options := options }
  | pushed (levels : ℕ) (h : s.logic.isSome) :
      Effect depth s { s with
        scopes := List.replicate levels {} ++ s.scopes
        lastCheck := .none }
  | popped (levels : ℕ) (h : levels ≤ s.scopes.length) :
      Effect depth s (popScopes levels s).invalidateCheck
  | collapsed (base : Frame) (h : s.options.globalDeclarations = true) :
      Effect depth s { s with base := base, scopes := [], lastCheck := .none }
  | cleared (logic : Option Text) (options : Options) (exited : Bool) :
      Effect depth s { new with logic := logic, options := options, exited := exited }

variable {depth calls : ℕ} {s s₁ s' : Session}

lemma Declared.nothing (hscopes : s'.scopes = s.scopes) : Declared s s' [] [] [] := by
  cases hs : s.scopes with
  | nil => exact .inl ⟨.inr hs, hscopes⟩
  | cons scope rest =>
    cases hglobal : s.options.globalDeclarations with
    | true => exact .inl ⟨.inl hglobal, hscopes⟩
    | false =>
      refine .inr ⟨hglobal, scope, rest, hs, ?_⟩
      rw [hscopes, hs, List.append_nil, List.append_nil, List.append_nil]

lemma Declared.trans {names functions sorts names' functions' sorts' : List Text}
    (h : Declared s s₁ names functions sorts) (hoptions : s₁.options = s.options)
    (h' : Declared s₁ s' names' functions' sorts') :
    Declared s s' (names ++ names') (functions ++ functions') (sorts ++ sorts') := by
  unfold Declared at h' ⊢
  rw [hoptions] at h'
  rcases h with ⟨hbase, hsame⟩ | ⟨hglobal, scope, rest, hold, hnew⟩
  · rw [hsame] at h'
    rcases h' with ⟨-, hsame'⟩ | ⟨hglobal', scope, rest, hold, -⟩
    · exact .inl ⟨hbase, hsame'⟩
    · rcases hbase with hglobal | hempty
      · rw [hglobal] at hglobal'
        exact nomatch hglobal'
      · rw [hempty] at hold
        exact nomatch hold
  · rw [hnew] at h'
    rcases h' with ⟨hbase', -⟩ | ⟨-, scope', rest', hold', hnew'⟩
    · rcases hbase' with hglobal' | hempty
      · rw [hglobal] at hglobal'
        exact nomatch hglobal'
      · exact nomatch hempty
    · obtain ⟨rfl, rfl⟩ := List.cons.inj hold'
      refine .inr ⟨hglobal, scope, rest, hold, ?_⟩
      rw [hnew', List.append_assoc, List.append_assoc, List.append_assoc]

/-- What `declare` does to the frames. -/
lemma declared_declare (s s₁ : Session) (names functions sorts : List Text)
    (hscopes : s₁.scopes = s.scopes) (hoptions : s₁.options = s.options) :
    Declared s (declare (fun frame => ⟨frame.boundNames ++ names, frame.boundFunctions ++ functions,
      frame.boundSorts ++ sorts⟩) s₁) names functions sorts := by
  unfold declare
  rw [hscopes, hoptions]
  cases hglobal : s.options.globalDeclarations with
  | true => exact .inl ⟨.inl hglobal, rfl⟩
  | false =>
    cases hs : s.scopes with
    | nil => exact .inl ⟨.inr hs, hs.symm⟩
    | cons scope rest => exact .inr ⟨hglobal, scope, rest, hs, rfl⟩

/-- Only terms were added, apart from the last check. -/
lemma Still.adds (h : Still s s₁) (check : LastCheck) :
    Adds depth s { s₁ with lastCheck := check } [] [] [] := by
  rw [h.rest]
  exact ⟨rfl, rfl, h.terms, .refl _, .refl _, .refl _, .nothing rfl, fun _ _ => .inl, .inl rfl⟩

section Declare

variable (change : Frame → Frame) (s : Session)

@[simp] lemma declare_terms : (declare change s).terms = s.terms := by
  unfold declare; split <;> rfl

@[simp] lemma declare_bindings : (declare change s).bindings = s.bindings := by
  unfold declare; split <;> rfl

@[simp] lemma declare_functions : (declare change s).functions = s.functions := by
  unfold declare; split <;> rfl

@[simp] lemma declare_sorts : (declare change s).sorts = s.sorts := by
  unfold declare; split <;> rfl

@[simp] lemma declare_logic : (declare change s).logic = s.logic := by
  unfold declare; split <;> rfl

@[simp] lemma declare_options : (declare change s).options = s.options := by
  unfold declare; split <;> rfl

end Declare

lemma Still.adds_bindName (h : Still s s₁) {name : Text} (hname : name ∉ s.bindings)
    (term : TermId) : Adds depth s (bindName name term s₁) [name] [] [] := by
  have hframes := declared_declare s { s₁ with bindings := s₁.bindings.insert name term } [name] [] []
    (by rw [h.rest]) (by rw [h.rest])
  simp only [List.append_nil] at hframes
  unfold bindName invalidateCheck
  refine ⟨?_, ?_, ?_, ?_, ?_, ?_, hframes, ?_, .inl rfl⟩ <;> simp only [declare_logic,
    declare_options, declare_terms, declare_bindings, declare_functions, declare_sorts]
  · rw [h.rest]
  · rw [h.rest]
  · exact h.terms
  · rw [h.rest]
    exact .insert hname term
  · rw [h.rest]
    exact .refl _
  · rw [h.rest]
    exact .refl _
  · rw [h.rest]
    exact fun _ _ => .inl

lemma Still.adds_bindFunction (h : Still s s₁) {name : Text} (hname : name ∉ s.functions)
    {function : FunctionBinding} (hset : s.logic.isSome)
    (hmeant : ∀ definition, function = .defined definition →
      definition.Understood depth s.tables) :
    Adds depth s (bindFunction name function s₁) [] [name] [] := by
  have hframes := declared_declare s { s₁ with functions := s₁.functions.insert name function } [] [name] []
    (by rw [h.rest]) (by rw [h.rest])
  simp only [List.append_nil] at hframes
  have hlogic : (bindFunction name function s₁).logic = s.logic := by
    simp only [bindFunction, invalidateCheck, declare_logic]
    rw [h.rest]
  have hoptions : (bindFunction name function s₁).options = s.options := by
    simp only [bindFunction, invalidateCheck, declare_options]
    rw [h.rest]
  have hbindings : Enlarged s.bindings (bindFunction name function s₁).bindings [] := by
    simp only [bindFunction, invalidateCheck, declare_bindings]
    rw [h.rest]
    exact .refl _
  have hfunctions : (bindFunction name function s₁).functions =
      s.functions.insert name function := by
    simp only [bindFunction, invalidateCheck, declare_functions]
    rw [h.rest]
  have henlarged : Enlarged s.functions (bindFunction name function s₁).functions [name] :=
    hfunctions ▸ .insert hname function
  have hsorts : Enlarged s.sorts (bindFunction name function s₁).sorts [] := by
    simp only [bindFunction, invalidateCheck, declare_sorts]
    rw [h.rest]
    exact .refl _
  refine ⟨hlogic, hoptions, ?_, hbindings, henlarged, hsorts, hframes, ?_, .inr hset⟩
  · simp only [bindFunction, invalidateCheck, declare_terms]
    exact h.terms
  · intro other definition hother
    rw [hfunctions] at hother
    by_cases hne : other = name
    · subst hne
      rw [AList.lookup_insert] at hother
      obtain ⟨calls, hat⟩ := hmeant definition (Option.some.inj hother)
      exact .inr ⟨calls,
        hat.within (within_of_enlarged hlogic hoptions hbindings henlarged hsorts)⟩
    · rw [AList.lookup_insert_ne hne] at hother
      exact .inl hother

lemma Still.adds_bindSort (h : Still s s₁) {name : Text} (hname : name ∉ s.sorts)
    (sort : SmtSort) : Adds depth s (bindSort name sort s₁) [] [] [name] := by
  have hframes := declared_declare s { s₁ with sorts := s₁.sorts.insert name sort } [] [] [name]
    (by rw [h.rest]) (by rw [h.rest])
  simp only [List.append_nil] at hframes
  unfold bindSort invalidateCheck
  refine ⟨?_, ?_, ?_, ?_, ?_, ?_, hframes, ?_, .inl rfl⟩ <;> simp only [declare_logic,
    declare_options, declare_terms, declare_bindings, declare_functions, declare_sorts]
  · rw [h.rest]
  · rw [h.rest]
  · exact h.terms
  · rw [h.rest]
    exact .refl _
  · rw [h.rest]
    exact .refl _
  · rw [h.rest]
    exact .insert hname sort
  · rw [h.rest]
    exact fun _ _ => .inl

/-! ### The commands that add -/

/-- The command adds to the session. -/
def Adding (depth : ℕ) (s : Session) (_ : CommandValue) (s' : Session) : Prop :=
  ∃ names functions sorts, Adds depth s s' names functions sorts

lemma post_ensureFreshName {name : Text} {E : Session → Prop} (hE : E s) :
    Post (ensureFreshName name) s E fun _ s' =>
      s' = s ∧ name ∉ s.bindings ∧ name ∉ s.functions := by
  unfold ensureFreshName
  refine Post.get ?_
  split_ifs with hprefix hknown
  · exact .reject hE _
  · exact .reject hE _
  · exact .pure ⟨rfl, fun h => hknown (.inl h), fun h => hknown (.inr (.inl h))⟩

lemma post_ensureFreshSortName {name : Text} {E : Session → Prop} (hE : E s) :
    Post (ensureFreshSortName name) s E fun _ s' => s' = s ∧ name ∉ s.sorts := by
  unfold ensureFreshSortName
  refine Post.get ?_
  split_ifs with hknown
  · exact .reject hE _
  · exact .pure ⟨rfl, fun h => hknown (.inl h)⟩

lemma post_declareTerm (hs : Still s s₁) (name : Text) (sort : SmtSort) :
    Post (declareTerm name sort) s₁ (Still s) (Adding depth s) := by
  unfold declareTerm
  refine Post.get (.check hs fun _ _ => .bind (post_ensureFreshName hs) ?_)
  rintro _ _ ⟨rfl, hfresh, -⟩
  refine .parse hs.terms.after (fun _ => hs.trans) fun term s₂ h₂ _ => .finish ?_
  refine ⟨[name], [], [], (hs.trans h₂).adds_bindName ?_ term⟩
  rwa [hs.rest] at hfresh

lemma post_declareConst (hs : s.terms.Ok) (arguments : List SExpr) :
    Post (declareConst arguments) s (· = s) (Adding depth s) := by
  unfold declareConst
  refine .check rfl ?_
  rintro ⟨symbol, sort⟩ -
  refine .check rfl fun name _ => .transaction ?_
  exact .parse hs (fun _ => id) fun sort s₁ h₁ _ => post_declareTerm h₁ name sort

lemma post_declareSort (hs : s.terms.Ok) (arguments : List SExpr) :
    Post (declareSort arguments) s (Still s) (Adding depth s) := by
  unfold declareSort
  refine .check (.refl hs) ?_
  rintro ⟨symbol, arity⟩ -
  refine Post.get (.check (.refl hs) fun _ _ => .check (.refl hs) fun name _ =>
    .bind (post_ensureFreshSortName (.refl hs)) ?_)
  rintro _ s₁ ⟨rfl, hfresh⟩
  refine .check (.refl hs) fun levels _ => ?_
  split_ifs
  · exact .fail (.refl hs) _
  · exact .parse hs (fun _ => id) fun id s₂ h₂ _ =>
      .finish ⟨[], [], [name], h₂.adds_bindSort hfresh _⟩

lemma post_defineSort (hs : s.terms.Ok) (arguments : List SExpr) :
    Post (defineSort arguments) s (· = s) (Adding depth s) := by
  unfold defineSort
  refine .check rfl ?_
  rintro ⟨symbol, parameters, sort⟩ -
  refine Post.get (.check rfl fun _ _ => .check rfl fun name _ =>
    .bind (post_ensureFreshSortName rfl) ?_)
  rintro _ s₁ ⟨rfl, hfresh⟩
  refine .check rfl fun items _ => ?_
  split_ifs
  · exact .fail (E := (· = s₁)) rfl _
  · refine .bind (.transaction (.parsing hs)) fun sort s₂ h₂ => .finish ?_
    exact ⟨[], [], [name], h₂.adds_bindSort hfresh sort⟩

lemma requireUf_isSome {logic : Option Text} {u : Unit} (h : requireUf logic = .ok u) :
    logic.isSome := by
  cases logic with
  | none => exact nomatch h
  | some name => rfl

lemma post_declareFun (hs : s.terms.Ok) (arguments : List SExpr) :
    Post (declareFun arguments) s (· = s) (Adding depth s) := by
  unfold declareFun
  refine .check rfl ?_
  rintro ⟨symbol, parameters, range⟩ -
  refine .check rfl fun name _ => .transaction (.check (.refl hs) fun items _ => ?_)
  refine .parse hs (fun _ => id) fun domain s₁ h₁ _ => ?_
  refine .parse h₁.terms.after (fun _ => h₁.trans) fun range s₂ h₂ _ => ?_
  have h := h₁.trans h₂
  split_ifs
  · exact post_declareTerm h name range
  · refine Post.get (.check h fun _ huf => .bind (post_ensureFreshName h) ?_)
    rintro _ s₃ ⟨rfl, -, hfresh⟩
    refine .parse h.terms.after (fun _ => h.trans) fun function s₃ h₃ _ => .finish ?_
    rw [h.rest] at hfresh huf
    exact ⟨[], [name], [], (h.trans h₃).adds_bindFunction hfresh (requireUf_isSome huf) nofun⟩

lemma post_defineTerm (hs : Still s s₁) (name : Text) (sort : SmtSort) (term : TermId) :
    Post (defineTerm name sort term) s₁ (Still s) (Adding depth s) := by
  unfold defineTerm
  refine Post.get (.check hs fun _ _ => .bind (post_ensureFreshName hs) ?_)
  rintro _ s₂ ⟨rfl, hfresh, -⟩
  refine .parse hs.terms.after (fun _ => hs.trans) fun termSort s₂ h₂ _ => ?_
  split_ifs
  · exact .reject (hs.trans h₂) _
  · refine .finish ⟨[name], [], [], (hs.trans h₂).adds_bindName ?_ term⟩
    rwa [hs.rest] at hfresh

lemma post_defineConst (hs : s.terms.Ok) (arguments : List SExpr) :
    Post (defineConst depth calls arguments) s (· = s) (Adding depth s) := by
  unfold defineConst
  refine .check rfl ?_
  rintro ⟨symbol, sort, body⟩ -
  refine .check rfl fun name _ => .transaction (.parse hs (fun _ => id) fun sort s₁ h₁ _ => ?_)
  exact .parse h₁.terms.after (fun _ => h₁.trans) fun term s₂ h₂ _ =>
    post_defineTerm (h₁.trans h₂) name sort term

lemma post_parseParameters (hs : Still s s₁) (items : List SExpr)
    (parameters : List (Text × SmtSort)) :
    Post (parseParameters items parameters) s₁ (Still s) fun _ s' => Still s s' := by
  induction items generalizing s₁ parameters with
  | nil => exact .pure hs
  | cons item rest ih =>
    unfold parseParameters
    refine .check hs fun fields _ => .check hs ?_
    rintro ⟨symbol, sort⟩ -
    refine .check hs fun name _ => ?_
    split_ifs
    · exact .reject hs _
    · exact .parse hs.terms.after (fun _ => hs.trans) fun sort s₂ h₂ _ => ih (hs.trans h₂) _

instance (parameters : List (Text × SmtSort)) (scope : Table TermId) :
    Grows (placeholders parameters scope) := by
  induction parameters generalizing scope with
  | nil => exact Grows.pure scope
  | cons parameter rest ih =>
    unfold placeholders
    infer_instance

instance (depth calls : ℕ) (T : Tables) (parameters : List (Text × SmtSort)) (body : SExpr) :
    Grows (bodySort depth calls T parameters body) := by
  unfold bodySort
  infer_instance

lemma placeholders_eq_ok {parameters : List (Text × SmtSort)} {scope locals : Table TermId}
    {t t' : TermStore} (h : placeholders parameters scope t = some (.ok locals, t')) :
    ∃ arguments : List TermId, arguments.length = parameters.length ∧
      locals = ((parameters.map Prod.fst).zip arguments).foldl
        (fun scope pair => scope.insert pair.1 pair.2) scope := by
  induction parameters generalizing scope t with
  | nil =>
    exact ⟨[], rfl, (pure_eq_ok h).1⟩
  | cons parameter rest ih =>
    obtain ⟨term, t₁, -, h⟩ := bind_eq_ok h
    obtain ⟨arguments, hlength, hlocals⟩ := ih h
    exact ⟨term :: arguments, congrArg Nat.succ hlength, hlocals⟩

/-- A body that has a sort is understood. -/
lemma understood_of_bodySort {T : Tables} {parameters : List (Text × SmtSort)} {body : SExpr}
    {sort range : SmtSort} {t t' : TermStore}
    (h : bodySort depth calls T parameters body t = some (.ok sort, t')) :
    Definition.Understood depth T
      ⟨parameters.map Prod.fst, parameters.map Prod.snd, range, body⟩ := by
  obtain ⟨locals, t₁, hlocals, h⟩ := bind_eq_ok h
  obtain ⟨term, t₂, hterm, -⟩ := bind_eq_ok h
  obtain ⟨arguments, hlength, rfl⟩ := placeholders_eq_ok hlocals
  have hinstance : Smt.Understood depth T
      [parameterScope (parameters.map Prod.fst) arguments] body :=
    parseTerm_understands depth calls T _ _ _ _ _ hterm
  exact .of_instance hinstance (by rw [hlength, List.length_map])

lemma post_bodySort (hs : s.terms.Ok) (parameters : List (Text × SmtSort)) (range : SmtSort)
    (body : SExpr) :
    Post (temporary (parsing fun T => bodySort depth calls T parameters body)) s (· = s)
      fun _ s' => s' = s ∧ Definition.Understood depth s.tables
        ⟨parameters.map Prod.fst, parameters.map Prod.snd, range, body⟩ := by
  refine (Post.temporary ((Post.parsing_run hs).weaken (fun _ => id) fun sort s₁ h =>
    (⟨h.1, understood_of_bodySort h.2⟩ : Still s s₁ ∧ Definition.Understood depth s.tables
      ⟨parameters.map Prod.fst, parameters.map Prod.snd, range, body⟩))).weaken (fun _ => id) ?_
  rintro _ _ ⟨rfl, _, h⟩
  exact ⟨rfl, h⟩

lemma post_defineFun (hs : s.terms.Ok) (arguments : List SExpr) :
    Post (defineFun depth calls arguments) s (· = s) (Adding depth s) := by
  unfold defineFun
  split
  · rename_i symbol parameters range body
    refine .check rfl fun name _ => .transaction (.check (.refl hs) fun items _ => ?_)
    refine .bind (post_parseParameters (.refl hs) items []) fun parameters s₁ h₁ => ?_
    refine .parse h₁.terms.after (fun _ => h₁.trans) fun range s₂ h₂ _ => ?_
    have h := h₁.trans h₂
    split_ifs
    · exact .parse h.terms.after (fun _ => h.trans) fun term s₃ h₃ _ =>
        post_defineTerm (h.trans h₃) name range term
    · refine Post.get (.check h fun _ huf => .bind (post_ensureFreshName h) ?_)
      rintro _ s₃ ⟨rfl, -, hfresh⟩
      refine .bind ((post_bodySort h.terms.after parameters range body).weaken ?_ fun _ _ => id) ?_
      · rintro _ rfl
        exact h
      · rintro sort _ ⟨rfl, hmeant⟩
        split_ifs
        · exact .reject h _
        · rw [h.rest] at hfresh huf
          rw [h.tables] at hmeant
          refine .finish ⟨[], [name], [], h.adds_bindFunction hfresh (requireUf_isSome huf) ?_⟩
          intro definition hdefinition
          exact FunctionBinding.defined.inj hdefinition ▸ hmeant
  · exact .reject (E := (· = s)) rfl _

/-- The computation only adds terms, whatever its outcome. -/
def Stills (x : SessionM α) : Prop :=
  ∀ s : Session, s.terms.Ok → Post x s (Still s) fun _ s' => Still s s'

lemma Stills.collect {f : α → SessionM β} (h : ∀ a, Stills (f a)) (list : List α) :
    Stills (collect f list) := by
  induction list with
  | nil => exact fun s hs => .pure (.refl hs)
  | cons a rest ih =>
    intro s hs
    refine .bind (h a s hs) fun b s₁ h₁ => ?_
    refine .bind ((ih s₁ h₁.terms.after).weaken (fun _ => h₁.trans) fun _ _ => h₁.trans)
      fun bs s₂ h₂ => .pure h₂

lemma stills_boolTerm (e : SExpr) : Stills (boolTerm depth calls e) := by
  intro s hs
  unfold boolTerm
  exact .parse hs (fun _ => id) fun term s₁ h₁ _ =>
    .parse h₁.terms.after (fun _ => h₁.trans) fun _ s₂ h₂ _ => .pure (h₁.trans h₂)

variable (answer : Answer)

lemma post_assert (hs : s.terms.Ok) (label : Option Text) (arguments : List SExpr) :
    Post (assert depth calls answer label arguments) s (Still s) (Adding depth s) := by
  have hrefl := Still.refl hs
  unfold assert
  refine .check hrefl fun e _ => Post.get (.check hrefl fun _ _ => ?_)
  refine .bind ((Post.transaction (stills_boolTerm e s hs)).weaken
    (fun _ h => h ▸ hrefl) fun _ _ => id) fun term s₁ h₁ => .check h₁ fun _ _ => ?_
  have hadding : Adding depth s .success s₁.invalidateCheck := ⟨[], [], [], h₁.adds .none⟩
  cases label with
  | none => exact .check h₁ fun _ _ => .finish hadding
  | some name =>
    refine Post.get (.check h₁ fun bound _ => ?_)
    split_ifs
    · exact .reject h₁ _
    · exact .check h₁ fun _ _ => .finish hadding

lemma requireLogic_isSome {logic : Option Text} {u : Unit} (h : requireLogic logic = .ok u) :
    logic.isSome := by
  cases logic with
  | none => exact nomatch h
  | some name => rfl

lemma post_push (arguments : List SExpr) :
    Post (push answer arguments) s (· = s) fun _ s' => Effect depth s s' := by
  unfold push
  exact .check rfl fun levels _ => Post.get (.check rfl fun _ hlogic => .check rfl fun levels _ =>
    .check rfl fun _ _ => .finish (.pushed levels (requireLogic_isSome hlogic)))

/-- Scopes have been popped. -/
def Popped (s s' : Session) : Prop :=
  ∃ levels ≤ s.scopes.length, s' = (popScopes levels s).invalidateCheck

lemma Popped.effect (h : Popped s s') : Effect depth s s' := by
  obtain ⟨levels, hbound, rfl⟩ := h
  exact .popped levels hbound

lemma post_pop (arguments : List SExpr) :
    Post (pop answer arguments) s (· = s) fun _ s' => Popped s s' := by
  unfold pop
  refine .check rfl fun levels _ => Post.get (.check rfl fun _ _ => .check rfl fun levels _ =>
    Post.get ?_)
  split_ifs with hbound
  · exact .reject (E := (· = s)) rfl _
  · exact .check rfl fun _ _ => .finish ⟨levels, not_lt.1 hbound, rfl⟩

lemma post_runCheck (hs : Still s s₁) :
    Post (runCheck answer) s₁ (Still s) (Adding depth s) := by
  have hkeeps := answer.keeps
  unfold runCheck
  refine Post.get (.check hs fun _ _ => ?_)
  refine .parse hs.terms.after (fun _ => hs.trans) fun _ s₂ h₂ _ => .check (hs.trans h₂)
    fun result _ => .finish ⟨[], [], [], (hs.trans h₂).adds result⟩

lemma post_checkSat (hs : s.terms.Ok) (arguments : List SExpr) :
    Post (checkSat answer arguments) s (Still s) (Adding depth s) := by
  unfold checkSat
  exact .check (.refl hs) fun _ _ => post_runCheck answer (.refl hs)

lemma post_checkSatAssuming (hs : s.terms.Ok) (arguments : List SExpr) :
    Post (checkSatAssuming depth calls answer arguments) s (Still s) (Adding depth s) := by
  have hrefl := Still.refl hs
  unfold checkSatAssuming
  refine .check hrefl fun items _ => .check hrefl fun items _ => ?_
  refine .bind ((Post.transaction (Stills.collect (fun e => stills_boolTerm e) items s hs)).weaken
    (fun _ h => h ▸ hrefl) fun _ _ => id) fun terms s₁ h₁ => .check h₁ fun _ _ => ?_
  exact post_runCheck answer h₁

instance (name : Text) (sort : SmtSort) (values : Table TermId) :
    Grows (registerAbstractValue name sort values) := by
  unfold registerAbstractValue
  split
  · refine @Grows.bind _ _ _ _ _ ?_
    rintro ⟨encodedSort, value⟩
    refine @Grows.ite _ _ _ _ _ inferInstance ?_
    split <;> infer_instance
  · infer_instance

mutual

lemma grows_registerAbstractValues (T : Tables) :
    ∀ e values, Grows (registerAbstractValues T e values)
  | .atom _, values => by
    unfold registerAbstractValues
    infer_instance
  | .list items, values => by
    have hall := grows_registerAllAbstractValues T items
    unfold registerAbstractValues
    split <;> infer_instance

lemma grows_registerAllAbstractValues (T : Tables) :
    ∀ items values, Grows (registerAllAbstractValues T items values)
  | [], values => by
    unfold registerAllAbstractValues
    infer_instance
  | e :: rest, values => by
    have hfirst := grows_registerAbstractValues T e
    have hrest := grows_registerAllAbstractValues T rest
    unfold registerAllAbstractValues
    infer_instance

end

lemma post_getValue (hs : s.terms.Ok) (arguments : List SExpr) :
    Post (getValue depth calls answer arguments) s (· = s) (Adding depth s) := by
  have hall := fun T items => grows_registerAllAbstractValues T items ∅
  unfold getValue
  refine .check rfl fun items _ => Post.get (.ite (fun _ => .reject (E := (· = s)) rfl _) fun _ =>
    .check rfl fun items _ => .ite (fun _ => .reject (E := (· = s)) rfl _) fun _ =>
    .ite (fun _ => .reject (E := (· = s)) rfl _) fun _ => ?_)
  refine .bind (Post.temporary (Q := fun _ _ => True) ?_) ?_
  · refine .parse hs (fun _ => id) fun values s₁ h₁ _ => ?_
    refine (Stills.collect (fun e s₂ hs₂ => ?_) items s₁ h₁.terms.after).weaken
      (fun _ => h₁.trans) fun _ _ h => ⟨h₁.trans h, trivial⟩
    unfold valueOf
    exact .parse hs₂ (fun _ => id) fun term s₃ h₃ _ => .check h₃ fun text _ => .pure h₃
  · rintro texts _ ⟨rfl, -⟩
    exact .pure ⟨[], [], [], (Still.refl hs).adds _⟩

lemma post_resetAssertions (arguments : List SExpr) :
    Post (resetAssertions arguments) s (· = s) fun _ s' => Effect depth s s' := by
  unfold resetAssertions
  refine .check rfl fun _ _ => .finish ?_
  split_ifs with hglobal
  · exact .collapsed _ hglobal
  · exact .cleared s.logic s.options s.exited

lemma post_reset (arguments : List SExpr) :
    Post (reset arguments) s (· = s) fun _ s' => Effect depth s s' := by
  unfold reset
  exact .check rfl fun _ _ => .finish (.cleared none {} false)

lemma post_readOnly (hs : s.terms.Ok) (arguments : List SExpr) :
    Post (readOnly answer arguments) s (· = s) (Adding depth s) := by
  unfold readOnly
  exact .check rfl fun _ _ => .pure ⟨[], [], [], (Still.refl hs).adds _⟩

lemma post_exit (hs : s.terms.Ok) (arguments : List SExpr) :
    Post (exit arguments) s (· = s) (Adding depth s) := by
  unfold exit
  exact .check rfl fun _ _ => .pure ⟨[], [], [], (Still.refl hs).adds _⟩

lemma post_setLogic (arguments : List SExpr) :
    Post (setLogic arguments) s (· = s) fun _ s' => Effect depth s s' := by
  unfold setLogic
  refine .check rfl fun logic _ => Post.get ?_
  exact .ite (fun _ => .reject (E := (· = s)) rfl _) fun hlogic =>
    .check rfl fun name _ => .ite (fun _ => .fail (E := (· = s)) rfl _) fun _ =>
    .ite (fun _ => .fail (E := (· = s)) rfl _) fun _ =>
    .finish (.configured (some name) s.options (by simpa using hlogic))

lemma post_setOption (read : Except CommandError Text) (arguments : List SExpr) :
    Post (setOption read arguments) s (· = s) fun _ s' => Effect depth s s' := by
  unfold setOption
  refine .check rfl ?_
  rintro ⟨option, value⟩ -
  refine .check rfl fun name _ => Post.get (.ite
    (fun _ => .check rfl fun value _ => .finish (.adjusted _ rfl rfl)) fun _ => .ite
    (fun _ => .check rfl fun _ _ => .pure (.adjusted s.options rfl rfl)) fun _ => ?_)
  split
  · exact .fail (E := (· = s)) rfl _
  · rename_i entry _
    exact .ite (fun _ => .reject (E := (· = s)) rfl _) fun hlogic => .check rfl fun value _ =>
      .finish (.configured s.logic (entry.2 value s.options) (by simpa using hlogic))

/-! ### Any command -/

/-- The commands whose terms may be named. -/
def labelledCommands : List Text :=
  ["assert", "define-const", "define-fun", "check-sat-assuming", "get-value"].map bytesOf

/-- The commands that may leave terms behind after an error. -/
def untidyCommands : List Text :=
  ["declare-sort", "assert", "check-sat", "check-sat-assuming"].map bytesOf

/-- What an error of a command leaves. -/
def Left (s : Session) (name : Text) (s' : Session) : Prop :=
  Still s s' ∧ (name ∉ untidyCommands → s' = s)

/-- What a success of a command leaves. -/
structure Done (depth : ℕ) (s : Session) (name : Text) (value : CommandValue) (s' : Session) :
    Prop where
  effect : Effect depth s s'
  adding : name ∈ labelledCommands → Adding depth s value s'
  popped : name = bytesOf "pop" → Popped s s'

lemma Adding.done {value : CommandValue} (h : Adding depth s value s') {name : Text}
    (hname : name ≠ bytesOf "pop") : Done depth s name value s' := by
  obtain ⟨names, functions, sorts, hadds⟩ := h
  exact ⟨.adds hadds, fun _ => ⟨names, functions, sorts, hadds⟩, fun hpop => absurd hpop hname⟩

lemma Post.tidy {x : SessionM CommandValue} {Q : CommandValue → Session → Prop} (hs : s.terms.Ok)
    {name : Text} (h : Post x s (· = s) Q)
    (hQ : ∀ value s', Q value s' → Done depth s name value s') :
    Post x s (Left s name) (Done depth s name) :=
  h.weaken (by rintro _ rfl; exact ⟨.refl hs, fun _ => rfl⟩) hQ

lemma Post.untidy {x : SessionM CommandValue} {name : Text} (hname : name ∈ untidyCommands)
    (hpop : name ≠ bytesOf "pop") (h : Post x s (Still s) (Adding depth s)) :
    Post x s (Left s name) (Done depth s name) :=
  h.weaken (fun _ h => ⟨h, fun hn => absurd hname hn⟩) fun _ _ h => h.done hpop

/-- The names of the commands that only read. -/
lemma readOnly_ne_pop : ∀ name ∈ ["get-option", "set-info", "get-info", "get-model",
    "get-assignment", "get-assertions", "get-unsat-core", "get-unsat-assumptions", "get-proof",
    "echo"], bytesOf name ≠ bytesOf "pop" := by decide

/-- Every command does what it may do. -/
lemma post_commands (hs : s.terms.Ok) (label : Option Text) :
    ∀ entry ∈ commands depth calls answer label, ∀ arguments,
      Post (entry.2 arguments) s (Left s (bytesOf entry.1)) (Done depth s (bytesOf entry.1)) := by
  have effect : ∀ {name : Text} {x : SessionM CommandValue}, name ∉ labelledCommands →
      name ≠ bytesOf "pop" → Post x s (· = s) (fun _ s' => Effect depth s s') →
      Post x s (Left s name) (Done depth s name) := fun hname hpop h =>
    h.tidy hs fun _ _ h => ⟨h, fun hn => absurd hn hname, fun hn => absurd hn hpop⟩
  have adding : ∀ {name : Text} {x : SessionM CommandValue}, name ≠ bytesOf "pop" →
      Post x s (· = s) (Adding depth s) → Post x s (Left s name) (Done depth s name) :=
    fun hpop h => h.tidy hs fun _ _ h => h.done hpop
  have popping : ∀ arguments, Post (pop answer arguments) s (Left s (bytesOf "pop"))
      (Done depth s (bytesOf "pop")) := fun arguments =>
    (post_pop answer arguments).tidy hs fun _ _ h =>
      ⟨h.effect, fun hn => absurd hn (by decide), fun _ => h⟩
  unfold commands
  intro entry hentry arguments
  rcases List.mem_append.1 hentry with hfirst | hsecond
  · clear hentry
    revert entry
    simp only [List.forall_mem_cons]
    exact ⟨effect (by decide) (by decide) (post_setLogic _),
      effect (by decide) (by decide) (post_setOption _ _),
      .untidy (by decide) (by decide) (post_declareSort hs _),
      adding (by decide) (post_defineSort hs _), adding (by decide) (post_declareConst hs _),
      adding (by decide) (post_declareFun hs _), adding (by decide) (post_defineConst hs _),
      adding (by decide) (post_defineFun hs _),
      .untidy (by decide) (by decide) (post_assert answer hs _ _),
      effect (by decide) (by decide) (post_push answer _), popping _,
      .untidy (by decide) (by decide) (post_checkSat answer hs _),
      .untidy (by decide) (by decide) (post_checkSatAssuming answer hs _),
      adding (by decide) (post_getValue answer hs _),
      effect (by decide) (by decide) (post_resetAssertions _),
      effect (by decide) (by decide) (post_reset _), adding (by decide) (post_exit hs _), nofun⟩
  · obtain ⟨name, hname, rfl⟩ := List.mem_map.1 hsecond
    exact adding (readOnly_ne_pop name hname) (post_readOnly answer hs arguments)

/-! ### Labels -/

lemma foldl_erase_entries {labels : List Text} {table : Table α}
    {extra old : List (Sigma fun _ : Text => α)} (hentries : table.entries = extra ++ old)
    (hkeys : extra.keys = labels.reverse) (hnodup : labels.Nodup)
    (hfresh : ∀ label ∈ labels, label ∉ old.keys) :
    (labels.foldl (fun table label => table.erase label) table).entries = old := by
  induction labels generalizing table extra with
  | nil =>
    obtain rfl : extra = [] := List.map_eq_nil_iff.1 hkeys
    exact hentries
  | cons label rest ih =>
    rw [List.reverse_cons] at hkeys
    obtain ⟨others, last, rfl, hothers, hlast⟩ := List.map_eq_append_iff.1 hkeys
    obtain ⟨entry, rfl, rfl⟩ := List.map_eq_singleton_iff.1 hlast
    obtain ⟨hlabel, hrest⟩ := List.nodup_cons.1 hnodup
    have hkeys : others.keys = rest.reverse := hothers
    refine ih ?_ hkeys hrest fun label hmem =>
      hfresh label (List.mem_cons_of_mem _ hmem)
    have hnot : entry.1 ∉ others.keys := by
      rw [List.keys, hothers, List.mem_reverse]
      exact hlabel
    show List.kerase entry.1 table.entries = others ++ old
    rw [hentries, List.append_assoc, List.kerase_append_right hnot, List.singleton_append,
      List.kerase_cons_eq rfl]

/-- The labels of a command are bound but not yet recorded in a frame. -/
structure Pending (s s₁ : Session) (labels : List Text) : Prop where
  rest : s₁ = { s with terms := s₁.terms, bindings := s₁.bindings }
  terms : Later s.terms s₁.terms
  nodup : labels.Nodup
  fresh : ∀ label ∈ labels, label ∉ s.bindings
  entries : ∃ extra, s₁.bindings.entries = extra ++ s.bindings.entries ∧
    extra.keys = labels.reverse

namespace Pending

variable {labels : List Text}

lemma refl (hs : s.terms.Ok) : Pending s s [] :=
  ⟨rfl, ⟨hs, hs, .refl _⟩, .nil, nofun, [], rfl, rfl⟩

lemma still (h : Pending s s₁ labels) (h' : Still s₁ s') : Pending s s' labels := by
  refine ⟨?_, h.terms.trans h'.terms, h.nodup, h.fresh, ?_⟩
  · rw [h'.rest, h.rest]
  · rw [h'.rest]
    exact h.entries

lemma mem_iff (h : Pending s s₁ labels) (name : Text) :
    name ∈ s₁.bindings ↔ name ∈ labels ∨ name ∈ s.bindings := by
  obtain ⟨extra, hentries, hkeys⟩ := h.entries
  rw [AList.mem_keys, AList.mem_keys, AList.keys, AList.keys, hentries, List.keys, List.map_append,
    List.mem_append]
  have : name ∈ extra.map Sigma.fst ↔ name ∈ labels := by
    rw [show extra.map Sigma.fst = labels.reverse from hkeys, List.mem_reverse]
  exact or_congr this Iff.rfl

lemma bind (h : Pending s s₁ labels) {name : Text} (hlabel : name ∉ labels)
    (hname : name ∉ s.bindings) (term : TermId) :
    Pending s { s₁ with bindings := s₁.bindings.insert name term } (labels ++ [name]) := by
  have hnew : name ∉ s₁.bindings := by
    rw [h.mem_iff]
    exact fun hmem => hmem.elim hlabel hname
  obtain ⟨extra, hentries, hkeys⟩ := h.entries
  refine ⟨by rw [h.rest], h.terms, ?_, ?_, ⟨name, term⟩ :: extra, ?_, ?_⟩
  · exact List.nodup_append.2 ⟨h.nodup, List.nodup_singleton name, by
      rintro a ha b hb rfl
      exact hlabel (List.mem_singleton.1 hb ▸ ha)⟩
  · intro label hmem
    rcases List.mem_append.1 hmem with hold | hlast
    · exact h.fresh label hold
    · exact List.mem_singleton.1 hlast ▸ hname
  · refine (AList.entries_insert_of_notMem hnew).trans ?_
    rw [hentries, List.cons_append]
  · rw [List.keys_cons, hkeys, List.reverse_append, List.reverse_singleton, List.singleton_append]

lemma enlarged (h : Pending s s₁ labels) : Enlarged s.bindings s₁.bindings labels := by
  obtain ⟨extra, hentries, hkeys⟩ := h.entries
  have hlookup : ∀ name, s₁.bindings.lookup name =
      (extra.dlookup name).or (s.bindings.lookup name) := fun name => by
    rw [AList.lookup, hentries, List.dlookup_append]
    rfl
  have hextra : ∀ name, (extra.dlookup name).isSome ↔ name ∈ labels := fun name => by
    rw [List.dlookup_isSome, hkeys, List.mem_reverse]
  refine ⟨fun name a ha => ?_, fun name hname => AList.lookup_eq_none.2 (h.fresh name hname),
    fun name a ha => ?_⟩
  · have hnot : name ∉ labels := fun hname => h.fresh name hname
      (AList.lookup_isSome.1 (by rw [ha]; rfl))
    rw [hlookup, Option.not_isSome_iff_eq_none.1 (mt (hextra name).1 hnot), Option.none_or, ha]
  · by_cases hname : name ∈ labels
    · exact .inr hname
    · rw [hlookup, Option.not_isSome_iff_eq_none.1 (mt (hextra name).1 hname),
        Option.none_or] at ha
      exact .inl ha

/-- The labels are recorded after the names of the command itself. -/
lemma commit {names functions sorts : List Text} {s₂ : Session} (hpending : Pending s s₁ labels)
    (h : Adds depth s₁ s₂ names functions sorts) :
    Adds depth s (commitLabels labels s₂) (names ++ labels) functions sorts := by
  have hlogic : s₁.logic = s.logic := by rw [hpending.rest]
  have hoptions : s₁.options = s.options := by rw [hpending.rest]
  have hfunctions : s₁.functions = s.functions := by rw [hpending.rest]
  have hsorts : s₁.sorts = s.sorts := by rw [hpending.rest]
  have hscopes : s₁.scopes = s.scopes := by rw [hpending.rest]
  have htables : (commitLabels labels s₂).tables = s₂.tables := by
    simp only [commitLabels, tables, declare_logic, declare_options, declare_bindings,
      declare_functions, declare_sorts]
  refine ⟨?_, ?_, ?_, ?_, ?_, ?_, ?_, ?_, hlogic ▸ h.set⟩
  · rw [commitLabels, declare_logic, h.logic, hlogic]
  · rw [commitLabels, declare_options, h.options, hoptions]
  · rw [commitLabels, declare_terms]
    exact hpending.terms.trans h.terms
  · rw [commitLabels, declare_bindings]
    exact hpending.enlarged.trans h.moreBindings
  · rw [commitLabels, declare_functions, ← hfunctions]
    exact h.moreFunctions
  · rw [commitLabels, declare_sorts, ← hsorts]
    exact h.moreSorts
  · have hfirst : Declared s s₂ names functions sorts := by
      have := h.frames
      unfold Declared at this ⊢
      rwa [hscopes, hoptions] at this
    have hlast : Declared s₂ (commitLabels labels s₂) labels [] [] := by
      have := declared_declare s₂ s₂ labels [] [] rfl rfl
      simp only [List.append_nil] at this
      exact this
    have := hfirst.trans (h.options.trans hoptions) hlast
    rwa [List.append_nil, List.append_nil] at this
  · intro name definition hname
    rw [commitLabels, declare_functions] at hname
    rw [htables, ← hfunctions]
    exact h.meant name definition hname

/-- Forgetting the labels and rolling the terms back undoes everything. -/
lemma undo (h : Pending s s₁ labels) :
    rollback s.terms.checkpoint (forgetLabels labels s₁) = some s := by
  obtain ⟨extra, hentries, hkeys⟩ := h.entries
  unfold rollback forgetLabels
  rw [rollback_eq h.terms.before h.terms.after h.terms.grown]
  have hback : labels.foldl (fun table name => table.erase name) s₁.bindings = s.bindings :=
    AList.ext (foldl_erase_entries hentries hkeys h.nodup fun label hlabel => h.fresh label hlabel)
  dsimp only [Option.map_some]
  rw [hback, h.rest]

end Pending

lemma post_checkLabels (definitions : List InlineDefinitionSyntax) (seen : List Text) :
    Post (checkLabels definitions seen) s (· = s) fun _ s' => s' = s ∧
      (∀ label ∈ definitions.map InlineDefinitionSyntax.name, label ∉ s.bindings ∧ label ∉ seen) ∧
      (definitions.map InlineDefinitionSyntax.name).Nodup := by
  induction definitions generalizing seen with
  | nil => exact .pure ⟨rfl, nofun, .nil⟩
  | cons definition rest ih =>
    unfold checkLabels
    refine .bind (post_ensureFreshName rfl) ?_
    rintro _ _ ⟨rfl, hfresh, -⟩
    refine .ite (fun _ => .reject (E := (· = _)) rfl _) fun hseen => (ih _).weaken (fun _ => id) ?_
    rintro _ _ ⟨rfl, hrest, hnodup⟩
    refine ⟨rfl, ?_, ?_⟩
    · rw [List.map_cons, List.forall_mem_cons]
      exact ⟨⟨hfresh, hseen⟩, fun label hlabel =>
        ⟨(hrest label hlabel).1, fun h => (hrest label hlabel).2 (List.mem_cons_of_mem _ h)⟩⟩
    · rw [List.map_cons, List.nodup_cons]
      exact ⟨fun h => (hrest _ h).2 List.mem_cons_self, hnodup⟩

lemma Post.onError {x : SessionM α} {E F : Session → Prop} {Q : α → Session → Prop}
    {cleanup : Session → Option Session} (h : Post x s E Q)
    (hcleanup : ∀ s₁, E s₁ → ∀ s₂, cleanup s₁ = some s₂ → F s₂) :
    Post (onError cleanup x) s F Q := by
  intro r s' hx
  unfold CommandM.onError at hx
  split at hx
  · obtain ⟨s₂, hclean, heq⟩ := Option.map_eq_some_iff.1 hx
    obtain ⟨rfl, rfl⟩ := Prod.mk.inj heq
    exact hcleanup _ (h _ _ ‹_›) _ hclean
  · rename_i result hresult
    cases r with
    | error e => exact absurd hx (hresult e s')
    | ok a => exact h _ _ hx

lemma post_bindLabels {labels : List Text} (hpending : Pending s s₁ labels)
    (definitions : List InlineDefinitionSyntax)
    (hnodup : (labels ++ definitions.map InlineDefinitionSyntax.name).Nodup)
    (hfresh : ∀ label ∈ definitions.map InlineDefinitionSyntax.name, label ∉ s.bindings) :
    Post (bindLabels depth calls s.terms.checkpoint definitions labels) s₁ (· = s)
      fun names s' => Pending s s' names ∧
        names = labels ++ definitions.map InlineDefinitionSyntax.name := by
  induction definitions generalizing s₁ labels with
  | nil => exact .pure ⟨hpending, (List.append_nil _).symm⟩
  | cons definition rest ih =>
    unfold bindLabels
    refine .bind (.onError (E := fun s' => Pending s s' labels)
      (Q := fun _ s' => Pending s s' labels) ?_ ?_) fun term s₂ h₂ => ?_
    · unfold term
      refine .parse hpending.terms.after (fun _ => hpending.still) fun term s₂ h₂ _ => ?_
      exact .parse h₂.terms.after (fun _ h₃ => hpending.still (h₂.trans h₃)) fun _ s₃ h₃ _ =>
        .pure (hpending.still (h₂.trans h₃))
    · intro s₂ h₂ s₃ hclean
      rw [h₂.undo] at hclean
      exact (Option.some.inj hclean).symm
    · rw [List.map_cons, List.append_cons] at hnodup
      rw [List.map_cons, List.forall_mem_cons] at hfresh
      have hlabel : definition.name ∉ labels := fun hmem => by
        have := (List.nodup_append.1 (List.nodup_append.1 hnodup).1).2.2 _ hmem _
          (List.mem_singleton_self _)
        exact this rfl
      refine .bind (.updated (Q := fun _ s' => Pending s s' (labels ++ [definition.name]))
        (h₂.bind hlabel hfresh.1 term)) fun _ s₃ h₃ => ?_
      refine (ih h₃ hnodup hfresh.2).weaken (fun _ => id) ?_
      rintro names s₄ ⟨h₄, rfl⟩
      exact ⟨h₄, by rw [List.map_cons, List.append_assoc, List.singleton_append]⟩

/-- The head of a command. -/
def commandName : SExpr → Option Text
  | .list (head :: _) => head.word
  | _ => none

lemma termContexts_cases {name : Text} {arguments : List SExpr}
    {contexts : List (SExpr × List Text)} {rebuild : List SExpr → List SExpr}
    (h : termContexts name arguments = .ok (contexts, rebuild)) :
    contexts = [] ∨ name ∈ labelledCommands := by
  unfold termContexts at h
  split_ifs at h with h₁ h₂ h₃ h₄ h₅
  · exact .inr (h₁ ▸ by decide)
  · exact .inr (h₂ ▸ by decide)
  · exact .inr (h₃ ▸ by decide)
  · exact .inr (h₄ ▸ by decide)
  · exact .inr (h₅ ▸ by decide)
  · exact .inl (Prod.mk.inj (Except.ok.inj h)).1.symm

lemma exists_of_except_bind {ε : Type} {x : Except ε α} {f : α → Except ε β} {b : β}
    (h : (x >>= f) = .ok b) : ∃ a, x = .ok a ∧ f a = .ok b := by
  cases x with
  | error e => exact nomatch h
  | ok a => exact ⟨a, rfl, h⟩

/-- Without its annotations a command has the same name, and only five commands have labels. -/
lemma stripInlineDefinitions_cases {command : SExpr} {stripped : Stripped}
    (h : stripInlineDefinitions command = .ok stripped) :
    commandName stripped.command = commandName command ∧ (stripped.definitions = [] ∨
      ∃ name ∈ labelledCommands, commandName command = some name) := by
  obtain a | _ | ⟨head, arguments⟩ := command
  · obtain rfl := Except.ok.inj h
    exact ⟨rfl, .inl rfl⟩
  · obtain rfl := Except.ok.inj h
    exact ⟨rfl, .inl rfl⟩
  · unfold stripInlineDefinitions at h
    dsimp only at h
    cases hname : head.word with
    | none =>
      rw [hname] at h
      obtain rfl := Except.ok.inj h
      exact ⟨rfl, .inl rfl⟩
    | some name =>
      rw [hname] at h
      obtain ⟨⟨contexts, rebuild⟩, hcontexts, h⟩ := exists_of_except_bind h
      dsimp only at h
      split_ifs at h with hempty
      · obtain rfl := Except.ok.inj h
        exact ⟨rfl, .inl rfl⟩
      · obtain ⟨labels, -, h⟩ := exists_of_except_bind h
        split at h
        · exact nomatch h
        · obtain ⟨label, -, h⟩ := exists_of_except_bind h
          obtain ⟨⟨terms, stripping⟩, -, h⟩ := exists_of_except_bind h
          obtain rfl := Except.ok.inj h
          have hlabelled := (termContexts_cases hcontexts).resolve_left fun hnil =>
            hempty (by rw [hnil]; rfl)
          exact ⟨rfl, .inr ⟨name, hlabelled, hname⟩⟩

/-- The labels of a command are bound, if it has any. -/
lemma post_prepareInlineDefinitions (hs : s.terms.Ok) (command : SExpr) :
    Post (prepareInlineDefinitions depth calls command) s (· = s) fun result s' =>
      commandName result.1.command = commandName command ∧
      (result.2 = [] ∧ s' = s ∨ result.2 ≠ [] ∧ Pending s s' result.2 ∧
        ∃ name ∈ labelledCommands, commandName command = some name) := by
  unfold prepareInlineDefinitions
  refine .check rfl fun stripped hstripped => Post.get ?_
  obtain ⟨hname, hlabelled⟩ := stripInlineDefinitions_cases hstripped
  refine .bind (post_checkLabels _ _) ?_
  rintro _ _ ⟨rfl, hfresh, hnodup⟩
  cases hdefinitions : stripped.definitions with
  | nil => exact .pure ⟨hname, .inl ⟨rfl, rfl⟩⟩
  | cons definition rest =>
    rw [← hdefinitions]
    refine .bind (post_bindLabels (.refl hs) stripped.definitions hnodup
      fun label hlabel => (hfresh label hlabel).1) ?_
    rintro _ s₁ ⟨hpending, rfl⟩
    refine .pure ⟨hname, .inr ⟨?_, hpending, ?_⟩⟩
    · simp [hdefinitions]
    · exact hlabelled.resolve_left (by simp [hdefinitions])

/-- What an error of a command leaves: a few commands may leave terms. -/
def Refused (s : Session) (command : SExpr) (s' : Session) : Prop :=
  Still s s' ∧ ((∀ name ∈ untidyCommands, commandName command ≠ some name) → s' = s)

lemma Refused.refl (hs : s.terms.Ok) (command : SExpr) : Refused s command s :=
  ⟨.refl hs, fun _ => rfl⟩

/-- `execute_inner` does what its command may do. -/
lemma post_executeInner (hs : s.terms.Ok) (label : Option Text) (command : SExpr) :
    Post (executeInner depth calls answer label command) s (Refused s command)
      fun value s' => ∃ name, commandName command = some name ∧ Done depth s name value s' := by
  have hleft : Refused s command s := .refl hs command
  unfold executeInner
  refine .check hleft fun items hitems => ?_
  obtain _ | _ | ⟨head, arguments⟩ := command
  · exact nomatch hitems
  · obtain rfl := Except.ok.inj hitems
    exact .reject hleft _
  obtain rfl := Except.ok.inj hitems
  refine .check hleft fun name hname => ?_
  have hword : commandName (.list (head :: arguments)) = some name := demand_eq_ok hname
  cases hfind : (commands depth calls answer label).find?
      fun entry => decide (bytesOf entry.1 = name) with
  | none => exact .ite (fun _ => .fail hleft _) fun _ => .reject hleft _
  | some entry =>
    have hentry : bytesOf entry.1 = name := of_decide_eq_true (List.find?_some hfind :)
    subst hentry
    refine (post_commands answer hs label entry (List.mem_of_find?_eq_some hfind)
      arguments).weaken ?_ ?_
    · exact fun s' h => ⟨h.1, fun hnot => h.2 fun hmem => hnot _ hmem hword⟩
    · exact fun value s' h => ⟨_, hword, h⟩

lemma commitLabels_nil (s : Session) : commitLabels [] s = s := by
  simp only [commitLabels, List.append_nil]
  unfold declare
  split
  · rename_i hscopes
    exact congrArg (fun scopes => { s with scopes }) hscopes.symm
  · rfl

/-- `execute`: a refused command leaves nothing but possibly terms, and any other command has one
of the effects, after which the session may have been exited. -/
lemma post_execute (hs : s.terms.Ok) (command : SExpr) :
    Post (execute depth calls answer command) s (Refused s command)
      fun _ s' => ∃ s₁ exited, s' = { s₁ with exited := exited } ∧ Effect depth s s₁ ∧
        (commandName command = some (bytesOf "pop") → Popped s s₁) := by
  have hleft : Refused s command s := .refl hs command
  unfold execute
  refine Post.get (.ite (fun _ => .reject hleft _) fun _ => ?_)
  refine .bind ((post_prepareInlineDefinitions hs command).weaken ?_ fun _ _ => id) ?_
  · rintro _ rfl
    exact hleft
  rintro ⟨stripped, labels⟩ s₁ ⟨hname, hlabels⟩
  dsimp only at hname hlabels ⊢
  rcases hlabels with ⟨rfl, rfl⟩ | ⟨hlabels, hpending, labelled, hmem, hlabelled⟩
  · refine .bind ((post_executeInner answer hs _ _).onError ?_) fun value s₂ h => ?_
    · intro s₂ h₂ s₃ hclean
      obtain rfl := Option.some.inj hclean
      unfold Refused at h₂
      rwa [hname] at h₂
    · obtain ⟨name, hcommand, hdone⟩ := h
      refine .finish ⟨s₂, _, by rw [commitLabels_nil], hdone.effect, fun hpop => hdone.popped ?_⟩
      exact Option.some.inj (hcommand.symm.trans (hname.trans hpop))
  · refine .bind ((post_executeInner answer hpending.terms.after _ _).onError
      (F := Refused s command) ?_) fun value s₂ h => ?_
    · intro s₂ h₂ s₃ hclean
      unfold undoLabels at hclean
      rw [List.isEmpty_eq_false_iff.2 hlabels, if_neg Bool.false_ne_true,
        (hpending.still h₂.1).undo] at hclean
      exact Option.some.inj hclean ▸ hleft
    · obtain ⟨name, hcommand, hdone⟩ := h
      obtain rfl := Option.some.inj (hcommand.symm.trans (hname.trans hlabelled))
      obtain ⟨names, functions, sorts, hadds⟩ := hdone.adding hmem
      refine .finish ⟨_, _, rfl, .adds (hpending.commit hadds), fun hpop => ?_⟩
      rw [hpop] at hlabelled
      exact absurd (Option.some.inj hlabelled ▸ hmem) (by decide)

end Session

end Satrap.Smt
