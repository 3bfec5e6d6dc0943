/-
# Sessions

The commands of a `Session` of `session.rs` as far as they concern its names, its scopes and
its terms.  What the encoder, the SAT solver and the theories do during a command, and what a
command only reads, is an `Answer` given with the command.  A command has no result where it runs
out of calls of `parse_term`, or where a rollback panics.
-/
import Satrap.Smt.Annotations
import Satrap.Smt.Keeps
import Satrap.Smt.Rendering

namespace Satrap.Smt

open CommandM

/-! ### The state -/

/-- `Options`, without the channels and the resource limit. -/
structure Options where
  printSuccess : Bool := false
  produceModels : Bool := false
  produceAssignments : Bool := false
  produceAssertions : Bool := false
  produceUnsatCores : Bool := false
  produceUnsatAssumptions : Bool := false
  produceProofs : Bool := false
  globalDeclarations : Bool := false

/-- The names of a `Frame`. -/
structure Frame where
  boundNames : List Text := []
  boundFunctions : List Text := []
  boundSorts : List Text := []

/-- The kinds of `LastCheck`. -/
inductive LastCheck where
  | none
  | sat
  | unsat
  | unknown
deriving DecidableEq

/-- `Session`: its frames are the base frame and the open scopes, the innermost first. -/
structure Session where
  terms : TermStore
  bindings : Table TermId
  functions : Table FunctionBinding
  sorts : Table SmtSort
  base : Frame
  scopes : List Frame
  logic : Option Text
  options : Options
  lastCheck : LastCheck
  exited : Bool

/-- `CommandValue`. -/
inductive CommandValue where
  | success
  | text (text : Text)
  | exit
deriving DecidableEq

/-- What the rest of the program does during a command: the encoder and the SAT solver may
refuse, a check builds terms and has a result, a value is rendered, and a command that only reads
has its text. -/
structure Answer where
  encode : Except CommandError Unit
  solver : Except CommandError Unit
  prepare : TermM Unit
  keeps : Keeps prepare
  check : Except CommandError LastCheck
  value : TermId → Except CommandError Text
  read : Except CommandError Text

namespace CommandM

variable {σ α : Type}

/-- The state. -/
def state : CommandM σ σ := fun s => some (.ok s, s)

/-- Change the state. -/
def update (f : σ → σ) : CommandM σ Unit := fun s => some (.ok (), f s)

/-- Clean up after an error. -/
def onError (cleanup : σ → Option σ) (x : CommandM σ α) : CommandM σ α := fun s =>
  match x s with
  | some (.error e, s) => (cleanup s).map fun s => (.error e, s)
  | result => result

end CommandM

/-- A computation on a session. -/
abbrev SessionM : Type → Type := CommandM Session

namespace Session

variable {α : Type}

/-- `Session::new`. -/
def new : Session where
  terms := .new
  bindings := ∅
  functions := ∅
  sorts := ∅
  base := {}
  scopes := []
  logic := none
  options := {}
  lastCheck := .none
  exited := false

/-- What the parser reads. -/
def tables (s : Session) : Tables :=
  ⟨s.logic, s.options.produceProofs, s.bindings, s.functions, s.sorts⟩

/-- A computation on the terms, under the tables of the session. -/
def parsing (x : Tables → ParseM α) : SessionM α := fun s =>
  (x s.tables s.terms).map fun result => (result.1, { s with terms := result.2 })

/-- Roll the terms back. -/
def rollback (checkpoint : Checkpoint) (s : Session) : Option Session :=
  (s.terms.rollback checkpoint).map fun terms => { s with terms }

/-- `finish_term_transaction`: an error rolls the terms back to the start. -/
def transaction (x : SessionM α) : SessionM α := fun s =>
  onError (rollback s.terms.checkpoint) x s

/-- The terms are rolled back to the start in any case. -/
def temporary (x : SessionM α) : SessionM α := fun s =>
  match x s with
  | some (result, after) => (rollback s.terms.checkpoint after).map fun s => (result, s)
  | none => none

/-- `invalidate_check`. -/
def invalidateCheck (s : Session) : Session := { s with lastCheck := .none }

/-- Change the frame of `declaration_frame`. -/
def declare (change : Frame → Frame) (s : Session) : Session :=
  match s.options.globalDeclarations, s.scopes with
  | false, scope :: rest => { s with scopes := change scope :: rest }
  | _, _ => { s with base := change s.base }

/-- The symbols of `is_builtin_symbol`. -/
def builtinSymbols : List String :=
  ["Bool", "true", "false", "not", "=>", "and", "or", "xor", "=", "distinct", "ite", "BitVec",
    "Array", "select", "store", "const", "concat", "extract", "repeat", "zero_extend",
    "sign_extend", "rotate_left", "rotate_right", "bvnot", "bvneg", "bvand", "bvor", "bvxor",
    "bvnand", "bvnor", "bvxnor", "bvcomp", "bvadd", "bvsub", "bvmul", "bvudiv", "bvurem",
    "bvsdiv", "bvsrem", "bvsmod", "bvshl", "bvlshr", "bvashr", "bvult", "bvule", "bvugt",
    "bvuge", "bvslt", "bvsle", "bvsgt", "bvsge", "bvnego", "bvuaddo", "bvsaddo", "bvumulo",
    "bvsmulo", "bvusubo", "bvssubo", "bvsdivo"]

/-- `is_builtin_symbol`. -/
def isBuiltinSymbol (name : Text) : Bool := decide (name ∈ builtinSymbols.map bytesOf)

/-- `ensure_fresh_name`. -/
def ensureFreshName (name : Text) : SessionM Unit := do
  let s ← state
  if name.head? = some (ascii '.') ∨ name.head? = some (ascii '@') then
    reject (named "symbol `" name "` uses a solver-reserved prefix")
  else if name ∈ s.bindings ∨ name ∈ s.functions ∨ isBuiltinSymbol name then
    reject (named "symbol `" name "` is already defined")
  else pure ()

/-- `ensure_fresh_sort_name`. -/
def ensureFreshSortName (name : Text) : SessionM Unit := do
  let s ← state
  if name ∈ s.sorts ∨ name ∈ ["Bool", "BitVec", "Int", "Real"].map bytesOf then
    reject (named "sort symbol `" name "` is already defined")
  else pure ()

/-- A name is bound to a term. -/
def bindName (name : Text) (term : TermId) (s : Session) : Session :=
  (declare (fun frame => { frame with boundNames := frame.boundNames ++ [name] })
    { s with bindings := s.bindings.insert name term }).invalidateCheck

/-- A name is bound to a function. -/
def bindFunction (name : Text) (function : FunctionBinding) (s : Session) : Session :=
  (declare (fun frame => { frame with boundFunctions := frame.boundFunctions ++ [name] })
    { s with functions := s.functions.insert name function }).invalidateCheck

/-- A name is bound to a sort. -/
def bindSort (name : Text) (sort : SmtSort) (s : Session) : Session :=
  (declare (fun frame => { frame with boundSorts := frame.boundSorts ++ [name] })
    { s with sorts := s.sorts.insert name sort }).invalidateCheck

/-- The names of a frame are forgotten. -/
def unbind (frame : Frame) (s : Session) : Session :=
  { s with
    bindings := frame.boundNames.foldl (fun table name => table.erase name) s.bindings
    functions := frame.boundFunctions.foldl (fun table name => table.erase name) s.functions
    sorts := frame.boundSorts.foldl (fun table name => table.erase name) s.sorts }

/-- The loop of `pop`. -/
def popScopes : ℕ → Session → Session
  | 0, s => s
  | levels + 1, s =>
    match s.scopes with
    | [] => s
    | scope :: rest => popScopes levels (unbind scope { s with scopes := rest })

/-! ### Commands -/

/-- The logics of `set_logic`. -/
def logics : List String :=
  ["ALL", "QF_BOOL", "QF_BV", "QF_UF", "QF_UFBV", "QF_ABV", "QF_AUFBV", "QF_IDL", "QF_LIA",
    "QF_RDL", "QF_LRA", "QF_UFIDL", "QF_UFLIA", "QF_UFLRA", "QF_AUFLIA"]

/-- `set_logic`. -/
def setLogic (arguments : List SExpr) : SessionM CommandValue := do
  let logic ← expectOne arguments (bytesOf "set-logic")
  let s ← state
  if s.logic.isSome then reject (bytesOf "logic has already been set")
  else
    let name ← expectSymbol logic "logic name"
    if name ∉ logics.map bytesOf then fail .unsupported
    else if s.options.produceProofs ∧ name = bytesOf "ALL" then fail .unsupported
    else
      update fun s => { s with logic := some name }
      pure .success

/-- `expect_bool_atom`. -/
def expectBoolAtom (e : SExpr) (role : Text) : Except CommandError Bool :=
  if e.symbol = some (bytesOf "true") then .ok true
  else if e.symbol = some (bytesOf "false") then .ok false
  else .error (.message (named "" role " expects `true` or `false`"))

/-- The options that can only be set before the logic. -/
def startModeOptions : List (String × (Bool → Options → Options)) :=
  [(":produce-models", fun value options => { options with produceModels := value }),
    (":produce-assignments", fun value options => { options with produceAssignments := value }),
    (":produce-assertions", fun value options => { options with produceAssertions := value }),
    (":interactive-mode", fun value options => { options with produceAssertions := value }),
    (":produce-unsat-cores", fun value options => { options with produceUnsatCores := value }),
    (":produce-unsat-assumptions", fun value options =>
      { options with produceUnsatAssumptions := value }),
    (":produce-proofs", fun value options => { options with produceProofs := value }),
    (":global-declarations", fun value options => { options with globalDeclarations := value })]

/-- The options whose values are not modelled. -/
def otherOptions : List String :=
  [":regular-output-channel", ":diagnostic-output-channel", ":reproducible-resource-limit"]

/-- `set_option`. -/
def setOption (read : Except CommandError Text) (arguments : List SExpr) :
    SessionM CommandValue := do
  let (option, value) ← expectTwo arguments "set-option"
  let name ← expectKeyword option "option name"
  let s ← state
  if name = bytesOf ":print-success" then
    let value ← expectBoolAtom value name
    update fun s => { s with options := { s.options with printSuccess := value } }
    pure .success
  else if name ∈ otherOptions.map bytesOf then
    let _ ← read
    pure .success
  else
    match startModeOptions.find? fun entry => decide (bytesOf entry.1 = name) with
    | none => fail .unsupported
    | some entry =>
      if s.logic.isSome then
        reject (named "option `" name "` can only be set before set-logic")
      else
        let value ← expectBoolAtom value name
        update fun s => { s with options := entry.2 value s.options }
        pure .success

/-- `declare_sort`. -/
def declareSort (arguments : List SExpr) : SessionM CommandValue := do
  let (symbol, arity) ← expectTwo arguments "declare-sort"
  requireUf (← state).logic
  let name ← expectSymbol symbol "sort name"
  ensureFreshSortName name
  let arity ← parseUsize arity (bytesOf "sort arity")
  if arity ≠ 0 then fail .unsupported
  else
    let id ← parsing fun _ => lift freshUninterpretedSort
    update (bindSort name (.uninterpreted id))
    pure .success

/-- `define_sort`. -/
def defineSort (arguments : List SExpr) : SessionM CommandValue := do
  let (symbol, parameters, sort) ← expectThree arguments "define-sort"
  requireLogic (← state).logic
  let name ← expectSymbol symbol "sort name"
  ensureFreshSortName name
  let parameters ← expectList parameters "sort parameters"
  if !parameters.isEmpty then fail .unsupported
  else
    let sort ← transaction (parsing fun T => parseSort T sort)
    update (bindSort name sort)
    pure .success

/-- `declare_term`. -/
def declareTerm (name : Text) (sort : SmtSort) : SessionM CommandValue := do
  requireLogic (← state).logic
  ensureFreshName name
  let term ← parsing fun _ => lift (freshTerm sort)
  update (bindName name term)
  pure .success

/-- `declare_const`. -/
def declareConst (arguments : List SExpr) : SessionM CommandValue := do
  let (symbol, sort) ← expectTwo arguments "declare-const"
  let name ← expectSymbol symbol "constant name"
  transaction do
    let sort ← parsing fun T => parseSort T sort
    declareTerm name sort

/-- `declare_fun`. -/
def declareFun (arguments : List SExpr) : SessionM CommandValue := do
  let (symbol, parameters, range) ← expectThree arguments "declare-fun"
  let name ← expectSymbol symbol "function name"
  transaction do
    let parameters ← expectList parameters "function parameter sorts"
    let domain ← parsing fun T => collect (parseSort T) parameters
    let range ← parsing fun T => parseSort T range
    if domain.isEmpty then declareTerm name range
    else
      requireUf (← state).logic
      ensureFreshName name
      let function ← parsing fun _ => lift (declareFunction domain range)
      update (bindFunction name (.declared function))
      pure .success

/-- `define_term`. -/
def defineTerm (name : Text) (sort : SmtSort) (term : TermId) : SessionM CommandValue := do
  requireLogic (← state).logic
  ensureFreshName name
  if (← parsing fun _ => lift (sortOf term)) ≠ sort then
    reject (named "definition of `" name "` does not have its declared sort")
  else
    update (bindName name term)
    pure .success

/-- The loop of `define_fun` over the parameters, with those read so far. -/
def parseParameters : List SExpr → List (Text × SmtSort) → SessionM (List (Text × SmtSort))
  | [], parameters => pure parameters
  | parameter :: rest, parameters => do
    let fields ← expectList parameter "function parameter"
    let (symbol, sort) ← expectTwo fields "function parameter"
    let name ← expectSymbol symbol "parameter name"
    if name ∈ parameters.map Prod.fst then
      reject (named "duplicate function parameter `" name "`")
    else
      let sort ← parsing fun T => parseSort T sort
      parseParameters rest (parameters ++ [(name, sort)])

/-- Fresh terms for the parameters of a definition. -/
def placeholders : List (Text × SmtSort) → Table TermId → ParseM (Table TermId)
  | [], locals => pure locals
  | (name, sort) :: rest, locals => do
    let term ← lift (freshTerm sort)
    placeholders rest (locals.insert name term)

section Parsing

-- The depth of array terms, and the calls of `parse_term` that may be nested.
variable (depth calls : ℕ)

/-- `parse_term` without local names. -/
def term (e : SExpr) : SessionM TermId := parsing fun T => parseTerm depth T calls e []

/-- `define_const`. -/
def defineConst (arguments : List SExpr) : SessionM CommandValue := do
  let (symbol, sort, body) ← expectThree arguments "define-const"
  let name ← expectSymbol symbol "constant name"
  transaction do
    let sort ← parsing fun T => parseSort T sort
    let term ← term depth calls body
    defineTerm name sort term

/-- The sort of a body whose parameters are fresh terms. -/
def bodySort (T : Tables) (parameters : List (Text × SmtSort)) (body : SExpr) :
    ParseM SmtSort := do
  let locals ← placeholders parameters ∅
  let term ← parseTerm depth T calls body [locals]
  lift (sortOf term)

/-- `define_fun`. -/
def defineFun (arguments : List SExpr) : SessionM CommandValue :=
  match arguments with
  | [symbol, parameters, range, body] => do
    let name ← expectSymbol symbol "function name"
    transaction do
      let parameters ← expectList parameters "function parameters"
      let parameters ← parseParameters parameters []
      let range ← parsing fun T => parseSort T range
      if parameters.isEmpty then
        let term ← term depth calls body
        defineTerm name range term
      else
        requireUf (← state).logic
        ensureFreshName name
        -- The fresh terms only serve to find the sort of the body.
        let sort ← temporary (parsing fun T => bodySort depth calls T parameters body)
        if sort ≠ range then
          reject (named "definition of `" name "` does not have its declared result sort")
        else
          update (bindFunction name
            (.defined ⟨parameters.map Prod.fst, parameters.map Prod.snd, range, body⟩))
          pure .success
  | _ => reject (arityMessage 4 (bytesOf "define-fun") arguments.length)

/-- A term of sort `Bool`. -/
def boolTerm (e : SExpr) : SessionM TermId := do
  let term ← term depth calls e
  parsing fun _ => lift (requireBool term)
  pure term

variable (answer : Answer)

/-- `assert`. -/
def assert (label : Option Text) (arguments : List SExpr) : SessionM CommandValue := do
  let e ← expectOne arguments (bytesOf "assert")
  requireLogic (← state).logic
  let term ← transaction (boolTerm depth calls e)
  answer.encode
  match label with
  | none =>
    answer.solver
    update invalidateCheck
    pure .success
  | some name =>
    let bound ← demand (bytesOf "missing inline assertion label") ((← state).bindings.lookup name)
    if bound ≠ term then
      reject (bytesOf "inline assertion label does not name the asserted term")
    else
      answer.solver
      update invalidateCheck
      pure .success

/-- `push`. -/
def push (arguments : List SExpr) : SessionM CommandValue := do
  let levels ← expectOne arguments (bytesOf "push")
  requireLogic (← state).logic
  let levels ← parseUsize levels (bytesOf "push level count")
  answer.solver
  update fun s => invalidateCheck { s with scopes := List.replicate levels {} ++ s.scopes }
  pure .success

/-- `pop`. -/
def pop (arguments : List SExpr) : SessionM CommandValue := do
  let levels ← expectOne arguments (bytesOf "pop")
  requireLogic (← state).logic
  let levels ← parseUsize levels (bytesOf "pop level count")
  if (← state).scopes.length < levels then reject (bytesOf "cannot pop beyond the base scope")
  else
    answer.solver
    update fun s => (popScopes levels s).invalidateCheck
    pure .success

/-- The response to a check. -/
def checkText : LastCheck → Text
  | .sat => bytesOf "sat"
  | .unsat => bytesOf "unsat"
  | _ => bytesOf "unknown"

/-- `run_check`. -/
def runCheck : SessionM CommandValue := do
  requireLogic (← state).logic
  parsing fun _ => lift answer.prepare
  let result ← answer.check
  update fun s => { s with lastCheck := result }
  pure (.text (checkText result))

/-- `check_sat`. -/
def checkSat (arguments : List SExpr) : SessionM CommandValue := do
  expectNone arguments "check-sat"
  runCheck answer

/-- `check_sat_assuming`. -/
def checkSatAssuming (arguments : List SExpr) : SessionM CommandValue := do
  let expressions ← expectOne arguments (bytesOf "check-sat-assuming")
  let expressions ← expectList expressions "assumption list"
  let _ ← transaction (collect (boolTerm depth calls) expressions)
  answer.encode
  runCheck answer

end Parsing

/-- The sort and the value encoded in the name `@uc!sort!value`. -/
def abstractValue (name : Text) : Except CommandError (ℕ × ℕ) :=
  let malformed := named "malformed solver abstract value `" name "`"
  if name.take 4 ≠ bytesOf "@uc!" then
    .error (.message (named "abstract value `" name "` was not produced by this solver"))
  else
    match (name.drop 4).dropWhile fun b => decide (b ≠ ascii '!') with
    | [] => .error (.message malformed)
    | _ :: value => do
      let sort ← demand malformed
        (naturalOf ((name.drop 4).takeWhile fun b => decide (b ≠ ascii '!')))
      let value ← demand malformed (naturalOf value)
      if maxIndex ≤ sort ∨ maxIndex ≤ value then .error (.message malformed)
      else pure (sort, value)

/-- The term of an abstract value of the given name and sort. -/
def registerAbstractValue (name : Text) (sort : SmtSort) (values : Table TermId) :
    ParseM (Table TermId) :=
  match sort with
  | .uninterpreted id => do
    let (encodedSort, value) ← abstractValue name
    if encodedSort ≠ id ∨ name ≠ bytesOf s!"@uc!{id}!{value}" then
      reject (named "abstract value `" name "` does not match its sort ascription")
    else
      match values.lookup name with
      | some term =>
        if (← lift (sortOf term)) ≠ sort then
          reject (named "abstract value `" name "` has conflicting sort ascriptions")
        else pure values
      | none =>
        let term ← lift (freshTerm sort)
        pure (values.insert name term)
  | _ =>
    reject (named "abstract value `" name "` does not name an uninterpreted-sort value")

/-- The name and the sort of a qualified abstract value. -/
def ascribedValue : List SExpr → Option (Text × SExpr)
  | [head, symbol, sort] =>
    if head.word = some (bytesOf "as") then
      (symbol.symbol.filter fun name => name.head? = some (ascii '@')).map fun name => (name, sort)
    else none
  | _ => none

section Values

variable (T : Tables)

mutual

/-- `register_query_abstract_values`. -/
def registerAbstractValues : SExpr → Table TermId → ParseM (Table TermId)
  | .atom _, values => pure values
  | .list items, values =>
    match ascribedValue items with
    | some (name, sort) => do
      let sort ← parseSort T sort
      registerAbstractValue name sort values
    | none => registerAllAbstractValues items values
termination_by structural e => e

/-- `prepare_query_abstract_values`. -/
def registerAllAbstractValues : List SExpr → Table TermId → ParseM (Table TermId)
  | [], values => pure values
  | e :: rest, values => do
    let values ← registerAbstractValues e values
    registerAllAbstractValues rest values
termination_by structural e => e

end

end Values

section Commands

variable (depth calls : ℕ) (answer : Answer)

/-- A term of a `get_value` with its value. -/
def valueOf (values : Table TermId) (e : SExpr) : SessionM Text := do
  let term ← parsing fun T => parseTerm depth T calls e [values]
  let value ← answer.value term
  pure (ascii '(' :: render e ++ ascii ' ' :: value ++ [ascii ')'])

/-- `get_value`. -/
def getValue (arguments : List SExpr) : SessionM CommandValue := do
  let expressions ← expectOne arguments (bytesOf "get-value")
  let s ← state
  if !s.options.produceModels then
    reject (bytesOf "model production is disabled; set :produce-models true")
  else
    let expressions ← expectList expressions "get-value term list"
    if expressions.isEmpty then reject (bytesOf "get-value expects at least one term")
    else if s.lastCheck ≠ .sat ∧ s.lastCheck ≠ .unknown then
      reject (bytesOf "model inspection requires a preceding sat or unknown result")
    else
      let texts ← temporary do
        let values ← parsing fun T => registerAllAbstractValues T expressions ∅
        collect (valueOf depth calls answer values) expressions
      pure (.text (ascii '(' :: [ascii ' '].intercalate texts ++ [ascii ')']))

/-- `reset_assertions`. -/
def resetAssertions (arguments : List SExpr) : SessionM CommandValue := do
  expectNone arguments "reset-assertions"
  update fun s =>
    if s.options.globalDeclarations then
      { s with
        base := ⟨s.bindings.keys, s.functions.keys, s.sorts.keys⟩
        scopes := []
        lastCheck := .none }
    else { new with logic := s.logic, options := s.options, exited := s.exited }
  pure .success

/-- `reset`. -/
def reset (arguments : List SExpr) : SessionM CommandValue := do
  expectNone arguments "reset"
  update fun _ => new
  pure .success

/-- A command that changes nothing. -/
def readOnly (_ : List SExpr) : SessionM CommandValue := do
  let text ← answer.read
  pure (.text text)

/-- `exit`. -/
def exit (arguments : List SExpr) : SessionM CommandValue := do
  expectNone arguments "exit"
  pure .exit

/-- The commands of `execute_inner` with their names; `assert` is given its label. -/
def commands (label : Option Text) : List (String × (List SExpr → SessionM CommandValue)) :=
  [("set-logic", setLogic), ("set-option", setOption answer.read), ("declare-sort", declareSort),
    ("define-sort", defineSort), ("declare-const", declareConst), ("declare-fun", declareFun),
    ("define-const", defineConst depth calls), ("define-fun", defineFun depth calls),
    ("assert", assert depth calls answer label), ("push", push answer), ("pop", pop answer),
    ("check-sat", checkSat answer), ("check-sat-assuming", checkSatAssuming depth calls answer),
    ("get-value", getValue depth calls answer), ("reset-assertions", resetAssertions),
    ("reset", reset), ("exit", exit)] ++
  ["get-option", "set-info", "get-info", "get-model", "get-assignment", "get-assertions",
    "get-unsat-core", "get-unsat-assumptions", "get-proof", "echo"].map
    fun name => (name, readOnly answer)

/-- The commands that are declared to be unsupported. -/
def unsupportedCommands : List String :=
  ["declare-datatype", "declare-datatypes", "declare-sort-parameter", "define-fun-rec",
    "define-funs-rec"]

/-- `execute_inner`. -/
def executeInner (label : Option Text) (command : SExpr) : SessionM CommandValue := do
  let items ← expectList command "top-level command"
  match items with
  | [] => reject (bytesOf "empty command")
  | head :: arguments =>
    let name ← expectWord head "command name"
    match (commands depth calls answer label).find? fun entry => decide (bytesOf entry.1 = name) with
    | some entry => entry.2 arguments
    | none =>
      if name ∈ unsupportedCommands.map bytesOf then fail .unsupported
      else reject (named "unsupported command `" name "`")

/-! ### Inline labels -/

/-- `rollback_inline_definitions`. -/
def forgetLabels (names : List Text) (s : Session) : Session :=
  { s with bindings := names.foldl (fun table name => table.erase name) s.bindings }

/-- The first loop of `prepare_inline_definitions`. -/
def checkLabels : List InlineDefinitionSyntax → List Text → SessionM Unit
  | [], _ => pure ()
  | definition :: rest, names => do
    ensureFreshName definition.name
    if definition.name ∈ names then
      reject (named "inline label `" definition.name "` is repeated in the command")
    else checkLabels rest (definition.name :: names)

/-- The second loop of `prepare_inline_definitions`, with the labels bound so far. -/
def bindLabels (checkpoint : Checkpoint) :
    List InlineDefinitionSyntax → List Text → SessionM (List Text)
  | [], names => pure names
  | definition :: rest, names => do
    let term ← onError (fun s => rollback checkpoint (forgetLabels names s)) do
      let term ← term depth calls definition.expression
      let _ ← parsing fun _ => lift (sortOf term)
      pure term
    update fun s => { s with bindings := s.bindings.insert definition.name term }
    bindLabels checkpoint rest (names ++ [definition.name])

/-- `prepare_inline_definitions`, with the labels it binds. -/
def prepareInlineDefinitions (command : SExpr) : SessionM (Stripped × List Text) := do
  let stripped ← stripInlineDefinitions command
  let s ← state
  checkLabels stripped.definitions []
  let names ← bindLabels depth calls s.terms.checkpoint stripped.definitions []
  pure (stripped, names)

/-- `commit_inline_definitions`. -/
def commitLabels (names : List Text) (s : Session) : Session :=
  declare (fun frame => { frame with boundNames := frame.boundNames ++ names }) s

/-- What `execute` undoes after an error. -/
def undoLabels (checkpoint : Checkpoint) (names : List Text) (s : Session) : Option Session :=
  if names.isEmpty then some s else rollback checkpoint (forgetLabels names s)

/-- `execute`. -/
def execute (command : SExpr) : SessionM CommandValue := do
  let s ← state
  if s.exited then reject (bytesOf "command issued after exit")
  else
    let (stripped, names) ← prepareInlineDefinitions depth calls command
    let value ← onError (undoLabels s.terms.checkpoint names)
      (executeInner depth calls answer stripped.assertionLabel stripped.command)
    update fun s => { commitLabels names s with exited := decide (value = .exit) }
    pure value

end Commands

end Session

end Satrap.Smt
