/-
# Parsing sorts and terms

`parse_sort`, `parse_term` and `apply_function` of `session.rs` over the tables of a session.
A hash map is a finite association list.  An application of a defined function parses its body
again, so a call of `parse_term` is given the number of nested calls it may still make; without
any left there is no result.
-/
import Satrap.Smt.Reader
import Satrap.Smt.BitVec
import Mathlib.Data.List.AList
import Mathlib.Data.Rat.Defs

namespace Satrap.Smt

instance : LawfulBEq Text := inferInstanceAs (LawfulBEq (List UInt8))

/-! ### Atoms of an expression -/

namespace SExpr

/-- The text of an atom of one of the given kinds. -/
def textOf (kinds : List AtomKind) : SExpr → Option Text
  | atom a => if a.kind ∈ kinds then some a.text else none
  | list _ => none

/-- `symbol`. -/
def symbol : SExpr → Option Text := textOf [.symbol]

/-- `word`. -/
def word : SExpr → Option Text := textOf [.symbol, .reserved]

/-- `keyword`. -/
def keyword : SExpr → Option Text := textOf [.keyword]

/-- `string`. -/
def string : SExpr → Option Text := textOf [.string]

/-- `numeral`. -/
def numeral : SExpr → Option Text := textOf [.numeral]

/-- The word at the head of a list of expressions. -/
def headWord (items : List SExpr) : Option Text := items.head?.bind word

end SExpr

/-- The number that ASCII digits denote. -/
def naturalOf (text : Text) : Option ℕ :=
  if text.isEmpty || !text.all isAsciiDigit then none
  else some (decimalValue (text.map fun b => b.toNat - (ascii '0').toNat))

/-- `rational_from_decimal`. -/
def rationalFromDecimal (text : Text) : Option ℚ := do
  let (whole, fractional) ← splitDot text
  if maxIndex ≤ fractional.length then none
  else
    let integer ← naturalOf whole
    let digits ← naturalOf fractional
    some (mkRat (integer * 10 ^ fractional.length + digits : ℕ) (10 ^ fractional.length))

/-- The characters of an ASCII text. -/
def charsOf (text : Text) : List Char := text.map fun b => Char.ofNat b.toNat

/-! ### Computations that may fail or run out of calls -/

/-- `CommandError`. -/
inductive CommandError where
  | unsupported
  | message (text : Text)
deriving DecidableEq

/-- A computation on a state, `none` where it has no calls left. -/
def CommandM (σ α : Type) : Type := σ → Option (Except CommandError α × σ)

namespace CommandM

variable {σ α β : Type}

instance : Monad (CommandM σ) where
  pure a s := some (.ok a, s)
  bind x f s :=
    match x s with
    | some (.ok a, s) => f a s
    | some (.error e, s) => some (.error e, s)
    | none => none

/-- What does not need the state. -/
def ofExcept (result : Except CommandError α) : CommandM σ α := fun s => some (result, s)

instance : MonadLift (Except CommandError) (CommandM σ) := ⟨ofExcept⟩

/-- Return an error. -/
def fail (e : CommandError) : CommandM σ α := ofExcept (.error e)

/-- Return an error with a message. -/
def reject (message : Text) : CommandM σ α := fail (.message message)

/-- No calls are left. -/
def exhausted : CommandM σ α := fun _ => none

/-- `map` followed by `collect`: the first error ends it. -/
def collect (f : α → CommandM σ β) : List α → CommandM σ (List β)
  | [] => pure []
  | a :: rest => do
    let b ← f a
    let bs ← collect f rest
    pure (b :: bs)

end CommandM

open CommandM

/-- A computation on the terms of a session. -/
abbrev ParseM : Type → Type := CommandM TermStore

/-- An operation on the terms, whose errors become messages. -/
def lift {α : Type} (x : TermM α) : ParseM α := fun s =>
  match x s with
  | (.ok a, s) => some (.ok a, s)
  | (.error e, s) => some (.error (.message (bytesOf e.message)), s)

/-! ### What an expression is expected to be -/

/-- A name inside a message. -/
def named (before : String) (name : Text) (after : String) : Text :=
  bytesOf before ++ name ++ bytesOf after

/-- The value of an `Option`, or an error with a message. -/
def demand {α : Type} (message : Text) : Option α → Except CommandError α
  | some a => .ok a
  | none => .error (.message message)

/-- The message of `expect_arity` and `expect_term_arity`. -/
def arityMessage (expected : ℕ) (name : Text) (received : ℕ) : Text :=
  named "`" name s!"` expects {expected} argument(s), received {received}"

/-- `expect_list`. -/
def expectList (e : SExpr) (role : String) : Except CommandError (List SExpr) :=
  match e with
  | .list items => .ok items
  | .atom _ => .error (.message (bytesOf s!"{role} must be a list"))

/-- `expect_symbol`. -/
def expectSymbol (e : SExpr) (role : String) : Except CommandError Text :=
  demand (bytesOf s!"{role} must be a symbol") e.symbol

/-- `expect_word`. -/
def expectWord (e : SExpr) (role : String) : Except CommandError Text :=
  demand (bytesOf s!"{role} must be a symbol or reserved word") e.word

/-- `expect_arity` without an argument. -/
def expectNone (items : List SExpr) (name : String) : Except CommandError Unit :=
  match items with
  | [] => .ok ()
  | _ => .error (.message (arityMessage 0 (bytesOf name) items.length))

/-- `expect_arity` with one argument. -/
def expectOne (items : List SExpr) (name : Text) : Except CommandError SExpr :=
  match items with
  | [item] => .ok item
  | _ => .error (.message (arityMessage 1 name items.length))

/-- `expect_arity` with two arguments. -/
def expectTwo (items : List SExpr) (name : String) : Except CommandError (SExpr × SExpr) :=
  match items with
  | [first, second] => .ok (first, second)
  | _ => .error (.message (arityMessage 2 (bytesOf name) items.length))

/-- `expect_arity` with three arguments. -/
def expectThree (items : List SExpr) (name : String) :
    Except CommandError (SExpr × SExpr × SExpr) :=
  match items with
  | [first, second, third] => .ok (first, second, third)
  | _ => .error (.message (arityMessage 3 (bytesOf name) items.length))

/-- `parse_u32` and `parse_usize`, which differ in the bound. -/
def parseBelow (bound : ℕ) (e : SExpr) (role : Text) : Except CommandError ℕ := do
  let numeral ← demand (named "" role " must be a numeral") e.numeral
  demand (named "" role " is too large") ((naturalOf numeral).filter fun value => value < bound)

/-- `parse_u32`. -/
def parseU32 (e : SExpr) (role : Text) : Except CommandError ℕ := parseBelow (2 ^ 32) e role

/-- `parse_usize`. -/
def parseUsize (e : SExpr) (role : Text) : Except CommandError ℕ := parseBelow (2 ^ 64) e role

/-! ### Logics -/

/-- The logic is one of the given ones. -/
def require (logics : List String) (logic : Option Text) : Except CommandError Unit :=
  if logic.any fun name => decide (name ∈ logics.map bytesOf) then .ok () else .error .unsupported

/-- `require_logic`. -/
def requireLogic (logic : Option Text) : Except CommandError Unit :=
  if logic.isSome then .ok ()
  else .error (.message (bytesOf "set-logic must be issued before declarations or solving"))

/-- `require_bitvectors`. -/
def requireBitvectors : Option Text → Except CommandError Unit :=
  require ["ALL", "QF_BV", "QF_UFBV", "QF_ABV", "QF_AUFBV"]

/-- `require_uf`. -/
def requireUf : Option Text → Except CommandError Unit :=
  require ["ALL", "QF_UF", "QF_UFBV", "QF_AUFBV", "QF_UFIDL", "QF_UFLIA", "QF_UFLRA", "QF_AUFLIA"]

/-- `require_arrays`. -/
def requireArrays : Option Text → Except CommandError Unit :=
  require ["ALL", "QF_ABV", "QF_AUFBV", "QF_AUFLIA"]

/-- The `require_arithmetic` of a session. -/
def requireArithmeticLogic : Option Text → Except CommandError Unit :=
  require ["ALL", "QF_IDL", "QF_LIA", "QF_RDL", "QF_LRA", "QF_UFIDL", "QF_UFLIA", "QF_UFLRA",
    "QF_AUFLIA"]

/-- `require_integers`. -/
def requireIntegers : Option Text → Except CommandError Unit :=
  require ["ALL", "QF_IDL", "QF_LIA", "QF_UFIDL", "QF_UFLIA", "QF_AUFLIA"]

/-- `require_reals`. -/
def requireReals : Option Text → Except CommandError Unit :=
  require ["ALL", "QF_RDL", "QF_LRA", "QF_UFLRA"]

/-! ### Tables -/

/-- A `HashMap` with names as keys. -/
abbrev Table (α : Type) : Type := AList fun _ : Text => α

/-- The scopes of local names, the innermost first. -/
abbrev Locals : Type := List (Table TermId)

/-- The term of a local name in the innermost scope that has it. -/
def Locals.find (locals : Locals) (name : Text) : Option TermId :=
  locals.findSome? fun scope => scope.lookup name

/-- `FunctionBinding::Defined`. -/
structure Definition where
  parameters : List Text
  domain : List SmtSort
  range : SmtSort
  body : SExpr

/-- `FunctionBinding`. -/
inductive FunctionBinding where
  | declared (function : FunctionId)
  | defined (definition : Definition)

/-- What a session knows about names: the selected logic, the option that restricts sorts and
the names in force. -/
structure Tables where
  logic : Option Text
  produceProofs : Bool
  bindings : Table TermId
  functions : Table FunctionBinding
  sorts : Table SmtSort

/-! ### Sorts -/

/-- `parse_sort` of a symbol. -/
def parseSortSymbol (T : Tables) (symbol : Text) : ParseM SmtSort :=
  if symbol = bytesOf "Bool" then pure .bool
  else if symbol = bytesOf "Int" then do
    requireIntegers T.logic
    pure .int
  else if symbol = bytesOf "Real" then do
    requireReals T.logic
    pure .real
  else demand (named "unknown sort `" symbol "`") (T.sorts.lookup symbol)

/-- `parse_sort` of a word of bits. -/
def parseBitvecSort (T : Tables) (items : List SExpr) : ParseM SmtSort := do
  requireBitvectors T.logic
  let (underscore, constructor, index) ← expectThree items "bit-vector sort"
  if underscore.word ≠ some (bytesOf "_") ∨ constructor.symbol ≠ some (bytesOf "BitVec") then
    fail .unsupported
  else
    let width ← parseU32 index (bytesOf "bit-vector width")
    if width = 0 then reject (bytesOf "bit-vector width must be greater than zero")
    else pure (.bitVec width)

/-- The sort is one of arrays. -/
def SmtSort.isArray : SmtSort → Bool
  | array _ => true
  | _ => false

/-- The sort of arrays with the given sorts. -/
def arraySortOf (T : Tables) (index element : SmtSort) : ParseM SmtSort :=
  if T.produceProofs && (index.isArray || element.isArray) then
    reject (bytesOf "nested arrays are outside the proof boundary")
  else do
    let sort ← lift (arraySort index element)
    pure (.array sort)

/-- `parse_sort`. -/
def parseSort (T : Tables) : SExpr → ParseM SmtSort
  | .atom a => do
    requireLogic T.logic
    let symbol ← demand (bytesOf "sort must be a list") (SExpr.atom a).symbol
    parseSortSymbol T symbol
  | .list [constructor, index, element] => do
    requireLogic T.logic
    if constructor.symbol = some (bytesOf "Array") then
      requireArrays T.logic
      let index ← parseSort T index
      let element ← parseSort T element
      arraySortOf T index element
    else parseBitvecSort T [constructor, index, element]
  | .list items => do
    requireLogic T.logic
    if items.head?.bind SExpr.symbol = some (bytesOf "Array") then
      requireArrays T.logic
      reject (arityMessage 3 (bytesOf "array sort") items.length)
    else parseBitvecSort T items

/-! ### Operators -/

/-- An operator with its arguments. -/
abbrev OperatorM : Type := List TermId → ParseM TermId

/-- An operator with one argument. -/
def unary (name : String) (operation : TermId → TermM TermId) : OperatorM
  | [term] => lift (operation term)
  | terms => reject (arityMessage 1 (bytesOf name) terms.length)

/-- An operator with two arguments. -/
def binary (name : String) (operation : TermId → TermId → TermM TermId) : OperatorM
  | [left, right] => lift (operation left right)
  | terms => reject (arityMessage 2 (bytesOf name) terms.length)

/-- An operator with three arguments. -/
def ternary (name : String) (operation : TermId → TermId → TermId → TermM TermId) : OperatorM
  | [first, second, third] => lift (operation first second third)
  | terms => reject (arityMessage 3 (bytesOf name) terms.length)

/-- `expect_min_term_arity` with two arguments before an operator. -/
def atLeastTwo (name : String) (operation : List TermId → TermM TermId) : OperatorM :=
  fun terms =>
    if terms.length < 2 then
      reject (bytesOf s!"`{name}` expects at least 2 arguments, received {terms.length}")
    else lift (operation terms)

/-- The exclusive or of all arguments, from the left. -/
def xorAll : List TermId → TermM TermId
  | first :: rest => TermM.loop mkXor first rest
  | [] => TermM.fail "`xor` expects at least 2 arguments"

/-- A comparison of all neighbours. -/
def compareAll (comparison : TermId → TermId → TermM TermId) (terms : List TermId) :
    TermM TermId := do
  let comparisons ← TermM.collect (fun pair => comparison pair.1 pair.2) (terms.zip terms.tail)
  mkAnd comparisons

/-- The operators of two words of bits. -/
def bitvecBinaries (depth : ℕ) : List (String × (TermId → TermId → TermM TermId)) :=
  [("concat", concat), ("bvnand", bvnand), ("bvnor", bvnor), ("bvxnor", bvxnor),
    ("bvcomp", bvcomp depth), ("bvsub", bvsub), ("bvudiv", bvudiv), ("bvurem", bvurem),
    ("bvsdiv", bvsdiv), ("bvsrem", bvsrem), ("bvsmod", bvsmod), ("bvshl", bvshl),
    ("bvlshr", bvlshr), ("bvashr", bvashr), ("bvult", bvult), ("bvule", bvule),
    ("bvugt", bvugt), ("bvuge", bvuge), ("bvslt", bvslt), ("bvsle", bvsle), ("bvsgt", bvsgt),
    ("bvsge", bvsge), ("bvuaddo", bvuaddo), ("bvsaddo", bvsaddo), ("bvumulo", bvumulo),
    ("bvsmulo", bvsmulo), ("bvusubo", bvusubo), ("bvssubo", bvssubo), ("bvsdivo", bvsdivo)]

/-- The operators of one word of bits. -/
def bitvecUnaries : List (String × (TermId → TermM TermId)) :=
  [("bvnot", bvnot), ("bvneg", bvneg), ("bvnego", bvnego)]

/-- The operators of any number of words of bits. -/
def bitvecChains : List (String × (List TermId → TermM TermId)) :=
  [("bvand", bvand), ("bvor", bvor), ("bvxor", bvxor), ("bvadd", bvadd), ("bvmul", bvmul)]

/-- The comparisons of arithmetic. -/
def comparisons : List (String × (TermId → TermId → TermM TermId)) :=
  [("<", arithmeticLt), ("<=", arithmeticLe), (">", arithmeticGt), (">=", arithmeticGe)]

/-- The core operators, which need no logic. -/
def coreOperators (depth : ℕ) : List (String × OperatorM) :=
  [("not", unary "not" mkNot), ("and", atLeastTwo "and" mkAnd), ("or", atLeastTwo "or" mkOr),
    ("xor", atLeastTwo "xor" xorAll), ("=>", fun terms => lift (implies terms)),
    ("=", fun terms => lift (equal depth terms)),
    ("distinct", fun terms => lift (distinct depth terms)), ("ite", ternary "ite" mkIte)]

/-- The operators of arithmetic. -/
def arithmeticOperators : List (String × OperatorM) :=
  [("+", fun terms => lift (arithmeticAdd terms)), ("-", fun terms => lift (arithmeticSub terms)),
    ("*", fun terms => lift (arithmeticMul terms))] ++
  comparisons.map fun entry => (entry.1, atLeastTwo entry.1 (compareAll entry.2))

/-- The operators of arrays. -/
def arrayOperators (depth : ℕ) : List (String × OperatorM) :=
  [("select", binary "select" (select depth)), ("store", ternary "store" store)]

/-- The operators of words of bits. -/
def bitvecOperators (depth : ℕ) : List (String × OperatorM) :=
  bitvecUnaries.map (fun entry => (entry.1, unary entry.1 entry.2)) ++
    bitvecChains.map (fun entry => (entry.1, fun terms => lift (entry.2 terms))) ++
    (bitvecBinaries depth).map fun entry => (entry.1, binary entry.1 entry.2)

/-- The operators need a logic that passes the check. -/
def guardedBy (check : Except CommandError Unit) (operators : List (String × OperatorM)) :
    List (String × OperatorM) :=
  operators.map fun entry => (entry.1, fun terms => do
    check
    entry.2 terms)

/-- The operators of `parse_term` with their names. -/
def operators (depth : ℕ) (logic : Option Text) : List (String × OperatorM) :=
  coreOperators depth ++
    guardedBy (requireArithmeticLogic logic) arithmeticOperators ++
    guardedBy (requireReals logic) [("/", binary "/" arithmeticDivide)] ++
    guardedBy (requireArrays logic) (arrayOperators depth) ++
    guardedBy (requireBitvectors logic) (bitvecOperators depth)

/-- The operator of the given name. -/
def operatorOf (depth : ℕ) (logic : Option Text) (name : Text) : Option OperatorM :=
  ((operators depth logic).find? fun entry => decide (bytesOf entry.1 = name)).map Prod.snd

/-- The operators with one index. -/
def indexedOperators : List (String × (TermId → ℕ → TermM TermId)) :=
  [("repeat", repeatWord), ("zero_extend", zeroExtend), ("sign_extend", signExtend),
    ("rotate_left", rotateLeft), ("rotate_right", rotateRight)]

/-- The operators of `parse_indexed_application`. -/
def applyIndexed (operator : Text) (indices : List SExpr) (term : TermId) : ParseM TermId :=
  if operator = bytesOf "extract" then do
    let (high, low) ← expectTwo indices "extract indices"
    let high ← parseU32 high (bytesOf "extract high index")
    let low ← parseU32 low (bytesOf "extract low index")
    lift (extract term high low)
  else
    match indexedOperators.find? fun entry => decide (bytesOf entry.1 = operator) with
    | some entry => do
      let index ← expectOne indices operator
      let index ← parseU32 index operator
      lift (entry.2 term index)
    | none => reject (named "unsupported indexed operator `" operator "`")

/-! ### Terms -/

/-- `parse_term` of a symbol. -/
def parseSymbol (T : Tables) (symbol : Text) (locals : Locals) : ParseM TermId :=
  if symbol = bytesOf "true" then pure (boolConstant true)
  else if symbol = bytesOf "false" then pure (boolConstant false)
  else if symbol.head? = some (ascii '@') then
    reject (bytesOf "abstract values require an explicit sort ascription")
  else demand (named "unknown symbol `" symbol "`")
    ((locals.find symbol).or (T.bindings.lookup symbol))

/-- `parse_term` of an atom. -/
def parseAtomTerm (T : Tables) (a : Atom) (locals : Locals) : ParseM TermId :=
  match a.kind with
  | .binary => do
    requireBitvectors T.logic
    lift (bitvecFromBinary (charsOf a.text))
  | .hexadecimal => do
    requireBitvectors T.logic
    lift (bitvecFromHexadecimal (charsOf a.text))
  | .numeral => do
    requireArithmeticLogic T.logic
    let value ← demand (bytesOf "invalid integer numeral") (naturalOf a.text)
    lift (arithmeticInteger value)
  | .decimal => do
    requireArithmeticLogic T.logic
    let value ← demand (bytesOf "invalid real decimal") (rationalFromDecimal a.text)
    lift (arithmeticReal value)
  | .symbol => parseSymbol T a.text locals
  | _ => reject (bytesOf "term application must be a list")

/-- `parse_indexed_constant`. -/
def parseIndexedConstant (T : Tables) (items : List SExpr) : ParseM TermId := do
  requireBitvectors T.logic
  let (_, constructor, index) ← expectThree items "indexed bit-vector constant"
  let name ← expectSymbol constructor "indexed constant name"
  match name with
  | b :: v :: digit :: digits =>
    if b = ascii 'b' ∧ v = ascii 'v' then
      let width ← parseU32 index (bytesOf "bit-vector width")
      lift (bitvecFromDecimal (charsOf (digit :: digits)) width)
    else reject (named "unsupported indexed constant `" name "`")
  | _ => reject (named "unsupported indexed constant `" name "`")

/-- `parse_abstract_value`. -/
def parseAbstractValue (T : Tables) (arguments : List SExpr) (locals : Locals) :
    ParseM TermId := do
  let (value, ascription) ← expectTwo arguments "qualified abstract value"
  let name ← expectSymbol value "abstract value"
  if name.head? ≠ some (ascii '@') then fail .unsupported
  else
    let term ← demand (named "abstract value `" name "` is not available in this model query")
      (locals.find name)
    let sort ← parseSort T ascription
    if (← lift (sortOf term)) ≠ sort then
      reject (named "abstract value `" name "` has a different sort")
    else pure term

section Nested

-- The parser of nested terms.
variable (parse : SExpr → Locals → ParseM TermId)

/-- `parse_indexed_application`. -/
def parseIndexedApplication (T : Tables) (identifier arguments : List SExpr) (locals : Locals) :
    ParseM TermId := do
  requireBitvectors T.logic
  match identifier with
  | _ :: name :: index :: indices =>
    let argument ← expectOne arguments (bytesOf "indexed bit-vector operator")
    let operator ← expectSymbol name "indexed operator name"
    let term ← parse argument locals
    applyIndexed operator (index :: indices) term
  | _ => reject (bytesOf "incomplete indexed identifier")

/-- `parse_qualified_application`. -/
def parseQualifiedApplication (T : Tables) (identifier arguments : List SExpr) (locals : Locals) :
    ParseM TermId := do
  requireArrays T.logic
  let (_, name, ascription) ← expectThree identifier "qualified array identifier"
  if name.symbol ≠ some (bytesOf "const") then fail .unsupported
  else
    let argument ← expectOne arguments (bytesOf "constant array")
    match ← parseSort T ascription with
    | .array sort =>
      let value ← parse argument locals
      lift (constArray sort value)
    | _ => reject (bytesOf "qualified `const` must name an array sort")

/-- The loop of `parse_let` over the bindings. -/
def parseBindings (locals : Locals) : List SExpr → Table TermId → ParseM (Table TermId)
  | [], scope => pure scope
  | binding :: rest, scope => do
    let pair ← expectList binding "let binding"
    let (symbol, value) ← expectTwo pair "let binding"
    let name ← expectSymbol symbol "let variable"
    if (scope.lookup name).isSome then reject (named "duplicate let variable `" name "`")
    else
      let value ← parse value locals
      parseBindings locals rest (scope.insert name value)

/-- `parse_let`. -/
def parseLet (arguments : List SExpr) (locals : Locals) : ParseM TermId := do
  let (bindings, body) ← expectTwo arguments "let"
  let bindings ← expectList bindings "let bindings"
  let scope ← parseBindings parse locals bindings ∅
  parse body (scope :: locals)

/-- The scope of the parameters of a defined function. -/
def parameterScope (parameters : List Text) (arguments : List TermId) : Table TermId :=
  (parameters.zip arguments).foldl (fun scope pair => scope.insert pair.1 pair.2) ∅

/-- The arguments of `name` have the sorts of its parameters. -/
def checkDomain (name : Text) (arguments : List TermId) (domain : List SmtSort) :
    ParseM Unit := do
  let _ ← collect (fun pair : TermId × SmtSort => do
    if (← lift (sortOf pair.1)) ≠ pair.2 then
      reject (named "argument to `" name "` does not have its declared sort")
    else pure ()) (arguments.zip domain)
  pure ()

/-- An application of a defined function: its body with the arguments for its parameters. -/
def instantiate (name : Text) (definition : Definition) (arguments : List TermId) :
    ParseM TermId :=
  if arguments.length ≠ definition.parameters.length then
    reject (arityMessage definition.parameters.length name arguments.length)
  else do
    checkDomain name arguments definition.domain
    let result ← parse definition.body [parameterScope definition.parameters arguments]
    if (← lift (sortOf result)) ≠ definition.range then
      reject (named "instantiation of `" name "` has the wrong result sort")
    else pure result

/-- `apply_function`. -/
def applyFunction (T : Tables) (name : Text) (arguments : List TermId) : ParseM TermId :=
  match T.functions.lookup name with
  | none => reject (named "unsupported operator `" name "`")
  | some (.declared function) => lift (apply function arguments)
  | some (.defined definition) => instantiate parse name definition arguments

/-- An application of a word: of an operator, or else of a function. -/
def applyWord (depth : ℕ) (T : Tables) (name : Text) (arguments : List TermId) :
    ParseM TermId :=
  match operatorOf depth T.logic name with
  | some operator => operator arguments
  | none => applyFunction parse T name arguments

/-- `parse_term` of a list that starts with a word. -/
def parseApplication (depth : ℕ) (T : Tables) (head : SExpr) (arguments : List SExpr)
    (locals : Locals) : ParseM TermId := do
  let operator ← expectWord head "term operator"
  if operator = bytesOf "let" then parseLet parse arguments locals
  else if operator = bytesOf "!" then
    match arguments with
    | [] => reject (bytesOf "annotation requires a term")
    | term :: _ => parse term locals
  else if operator = bytesOf "as" then parseAbstractValue T arguments locals
  else
    let terms ← collect (fun argument => parse argument locals) arguments
    applyWord parse depth T operator terms

/-- One call of `parse_term`. -/
def parseTermWith (depth : ℕ) (T : Tables) (e : SExpr) (locals : Locals) : ParseM TermId :=
  match e with
  | .atom a => parseAtomTerm T a locals
  | .list [] => reject (bytesOf "empty term application")
  | .list (.list identifier :: arguments) =>
    if SExpr.headWord identifier = some (bytesOf "_") then
      parseIndexedApplication parse T identifier arguments locals
    else if SExpr.headWord identifier = some (bytesOf "as") then
      parseQualifiedApplication parse T identifier arguments locals
    else reject (bytesOf "unsupported qualified identifier")
  | .list (.atom a :: arguments) =>
    if (SExpr.atom a).word = some (bytesOf "_") then parseIndexedConstant T (.atom a :: arguments)
    else parseApplication parse depth T (.atom a) arguments locals

end Nested

/-- `parse_term` with the given number of nested calls. -/
def parseTerm (depth : ℕ) (T : Tables) : ℕ → SExpr → Locals → ParseM TermId
  | 0, _, _ => exhausted
  | calls + 1, e, locals => parseTermWith (parseTerm depth T calls) depth T e locals

end Satrap.Smt
