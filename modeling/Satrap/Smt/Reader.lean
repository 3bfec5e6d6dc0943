/-
# The S-expression reader

`Reader` and its methods over the bytes of the input.  The byte that `peek` keeps back is the
first of `rest`.  A method that can fail returns its result together with the reader, whose
state outlives the error: `open_lists` and the pending recovery decide where the next call of
`next` goes on.

Strings of the source are lists of bytes here, which `from_utf8` checks.
-/
import Satrap.Text.Bytes
import Mathlib.Data.List.TakeWhile
import Mathlib.Tactic.Common

namespace Satrap.Smt

/-! ### Expressions -/

/-- `AtomKind`. -/
inductive AtomKind where
  | symbol
  | reserved
  | keyword
  | numeral
  | decimal
  | hexadecimal
  | binary
  | string
deriving DecidableEq

/-- `Atom`. -/
structure Atom where
  text : Text
  kind : AtomKind
deriving DecidableEq

/-- `SExpr`. -/
inductive SExpr where
  | atom (a : Atom)
  | list (items : List SExpr)

/-! ### Lexical classes -/

/-- `is_whitespace`. -/
def isWhitespace (b : UInt8) : Bool := b = 9 || b = newline || b = 13 || b = 32

/-- `is_printable_or_whitespace`. -/
def isPrintableOrWhitespace (b : UInt8) : Bool :=
  isWhitespace b || (ascii ' ' ≤ b && b ≤ ascii '~') || 128 ≤ b

/-- The byte ends an atom. -/
def endsAtom (b : UInt8) : Bool :=
  isWhitespace b || b = ascii '(' || b = ascii ')' || b = ascii ';'

/-- The punctuation of symbols. -/
def symbolPunctuation : Text := bytesOf "~!@$%^&*_-+=<>.?/"

/-- `is_symbol_byte`. -/
def isSymbolByte (b : UInt8) : Bool := isAsciiAlphanumeric b || decide (b ∈ symbolPunctuation)

/-- `is_simple_symbol`. -/
def isSimpleSymbol (text : Text) : Bool :=
  !text.isEmpty && !(text.head?.any isAsciiDigit) && text.all isSymbolByte

/-- `is_numeral`. -/
def isNumeral (text : Text) : Bool :=
  decide (text = [ascii '0']) ||
    (text.head?.any fun b => ascii '1' ≤ b && b ≤ ascii '9') && text.all isAsciiDigit

/-- `str::split_once` at a dot. -/
def splitDot (text : Text) : Option (Text × Text) :=
  match text.dropWhile fun b => decide (b ≠ ascii '.') with
  | [] => none
  | _ :: fractional => some (text.takeWhile fun b => decide (b ≠ ascii '.'), fractional)

/-- `is_decimal`. -/
def isDecimal (text : Text) : Bool :=
  match splitDot text with
  | none => false
  | some (integer, fractional) =>
    !fractional.isEmpty && isNumeral integer && fractional.all isAsciiDigit

/-- The words of `is_reserved_word`. -/
def reservedWords : List Text :=
  ["BINARY", "DECIMAL", "HEXADECIMAL", "NUMERAL", "STRING", "_", "!", "as", "lambda", "let",
    "exists", "forall", "match", "par", "assert", "check-sat", "check-sat-assuming",
    "declare-const", "declare-datatype", "declare-datatypes", "declare-fun", "declare-sort",
    "declare-sort-parameter", "define-const", "define-fun", "define-fun-rec",
    "define-funs-rec", "define-sort", "echo", "exit", "get-assertions", "get-assignment",
    "get-info", "get-model", "get-option", "get-proof", "get-unsat-assumptions",
    "get-unsat-core", "get-value", "pop", "push", "reset", "reset-assertions", "set-info",
    "set-logic", "set-option"].map bytesOf

/-- `is_reserved_word`. -/
def isReservedWord (text : Text) : Bool := decide (text ∈ reservedWords)

/-- The digits behind a prefix of two bytes. -/
def digitsBehind (first second : Char) : Text → Option Text
  | a :: b :: digits => if a = ascii first ∧ b = ascii second then some digits else none
  | _ => none

/-- The kind of an atom that is neither a string nor a quoted symbol; `none` where the text is
an invalid keyword or token. -/
def atomKind (text : Text) : Option AtomKind :=
  if isNumeral text then some .numeral
  else if isDecimal text then some .decimal
  else if (digitsBehind '#' 'x' text).any fun digits =>
      !digits.isEmpty && digits.all isAsciiHexdigit then some .hexadecimal
  else if (digitsBehind '#' 'b' text).any fun digits =>
      !digits.isEmpty && digits.all fun b => b = ascii '0' || b = ascii '1' then some .binary
  else if text.head? = some (ascii ':') then
    if text.tail.isEmpty || !text.tail.all isSymbolByte then none else some .keyword
  else if isReservedWord text then some .reserved
  else if isSimpleSymbol text then some .symbol
  else none

/-! ### The reader -/

/-- `Recovery`. -/
inductive Recovery where
  | list
  | string
  | quotedSymbol
  | unexpectedClose
deriving DecidableEq

/-- `ParseError`, as far as an error is recoverable; reading bytes from memory does not
fail. -/
structure ReadError where
  line : ℕ
  column : ℕ
  message : Text
deriving DecidableEq

/-- `Reader`. -/
structure Reader where
  rest : Text
  line : ℕ
  column : ℕ
  openLists : ℕ
  recovery : Option Recovery

namespace Reader

/-- `MAX_NESTING`. -/
def maxNesting : ℕ := 10000

/-- `Reader::new`. -/
def new (input : Text) : Reader := ⟨input, 1, 1, 0, none⟩

/-- `bump`: move past the next byte. -/
def bump (r : Reader) : Reader :=
  match r.rest with
  | [] => r
  | b :: rest =>
    { r with
      rest := rest
      line := if b = newline then r.line + 1 else r.line
      column := if b = newline then 1 else r.column + 1 }

/-- Move past the given number of bytes. -/
def bumps : ℕ → Reader → Reader
  | 0, r => r
  | n + 1, r => bumps n r.bump

/-- `error`. -/
def error {α : Type} (r : Reader) (message : Text) : Except ReadError α :=
  .error ⟨r.line, r.column, message⟩

/-- The loops of `skip_trivia` over what is left of the input; the first argument says whether
a comment is being skipped. -/
def triviaLoop : Bool → Text → Reader → Reader
  | _, [], r => r
  | true, b :: rest, r => triviaLoop (decide (b ≠ newline)) rest r.bump
  | false, b :: rest, r =>
    if isWhitespace b then triviaLoop false rest r.bump
    else if b = ascii ';' then triviaLoop true rest r.bump
    else r

/-- `skip_trivia`. -/
def skipTrivia (r : Reader) : Reader := triviaLoop false r.rest r

/-- The end of a string literal or a quoted symbol with the given bytes. -/
def finish (bytes : Text) (kind : AtomKind) (message : Text) (r : Reader) :
    Except ReadError SExpr × Reader :=
  (if isUtf8 bytes then .ok (.atom ⟨bytes, kind⟩) else r.error message, r)

/-- An error that leaves a recovery behind. -/
def fail (recovery : Recovery) (message : Text) (r : Reader) : Except ReadError SExpr × Reader :=
  (r.error message, { r with recovery := some recovery })

/-- The loop of `parse_string` over what is left of the input, with the bytes read so far; the
first argument says whether a quote has just been passed, which ends the string unless another
one follows. -/
def stringLoop : Bool → Text → Text → Reader → Except ReadError SExpr × Reader
  | true, [], bytes, r => r.finish bytes .string (bytesOf "string literal is not valid UTF-8")
  | true, b :: rest, bytes, r =>
    if b = ascii '"' then stringLoop false rest (bytes ++ [b]) r.bump
    else r.finish bytes .string (bytesOf "string literal is not valid UTF-8")
  | false, [], _, r => r.fail .string (bytesOf "unterminated string literal")
  | false, b :: rest, bytes, r =>
    if b = ascii '"' then stringLoop true rest bytes r.bump
    else if isPrintableOrWhitespace b then stringLoop false rest (bytes ++ [b]) r.bump
    else r.bump.fail .string (bytesOf "invalid character in string literal")

/-- `parse_string`. -/
def parseString (r : Reader) : Except ReadError SExpr × Reader :=
  stringLoop false r.bump.rest [] r.bump

/-- The loop of `parse_quoted_symbol` over what is left of the input, with the bytes read so
far. -/
def quotedLoop : Text → Text → Reader → Except ReadError SExpr × Reader
  | [], _, r => r.fail .quotedSymbol (bytesOf "unterminated quoted symbol")
  | b :: rest, bytes, r =>
    if b = ascii '|' then
      r.bump.finish bytes .symbol (bytesOf "quoted symbol is not valid UTF-8")
    else if b = ascii '\\' then
      r.bump.fail .quotedSymbol (bytesOf "backslash is not allowed in a quoted symbol")
    else if isPrintableOrWhitespace b then quotedLoop rest (bytes ++ [b]) r.bump
    else r.bump.fail .quotedSymbol (bytesOf "invalid character in quoted symbol")

/-- `parse_quoted_symbol`. -/
def parseQuotedSymbol (r : Reader) : Except ReadError SExpr × Reader :=
  quotedLoop r.bump.rest [] r.bump

/-- The bytes of the atom the reader is at. -/
def atomText (r : Reader) : Text := r.rest.takeWhile fun b => !endsAtom b

/-- `parse_atom`. -/
def parseAtom (r : Reader) : Except ReadError SExpr × Reader :=
  let text := r.atomText
  let r := bumps text.length r
  if text.isEmpty then (r.error (bytesOf "expected an atom"), r)
  else if !isUtf8 text then (r.error (bytesOf "only UTF-8 SMT-LIB input is supported"), r)
  else
    match atomKind text with
    | some kind => (.ok (.atom ⟨text, kind⟩), r)
    | none =>
      if text.head? = some (ascii ':') then (r.error (bytesOf "invalid keyword"), r)
      else (r.error (bytesOf "invalid SMT-LIB token `" ++ text ++ bytesOf "`"), r)

/-- Behind the parenthesis that opens a list. -/
def openList (r : Reader) : Reader := { r.bump with openLists := r.openLists + 1 }

/-- Behind the parenthesis that closes a list. -/
def closeList (r : Reader) : Reader := { r.bump with openLists := r.openLists - 1 }

mutual

/-- `parse_expr`.  The first argument bounds the calls that are still open. -/
def parseExpr : ℕ → ℕ → Reader → Except ReadError SExpr × Reader
  | 0, _, r => (r.error [], r)
  | fuel + 1, depth, r =>
    if maxNesting < depth then (r.error (bytesOf "maximum S-expression nesting exceeded"), r)
    else
      match r.rest with
      | [] => (r.error (bytesOf "expected an S-expression"), r)
      | b :: _ =>
        if b = ascii '(' then parseItems fuel depth [] r.openList
        else if b = ascii ')' then
          let r := { r with recovery := some .unexpectedClose }
          (r.error (bytesOf "unexpected `)`"), r)
        else if b = ascii '"' then r.parseString
        else if b = ascii '|' then r.parseQuotedSymbol
        else r.parseAtom

/-- The loop of `parse_expr` over the items of a list. -/
def parseItems : ℕ → ℕ → List SExpr → Reader → Except ReadError SExpr × Reader
  | 0, _, _, r => (r.error [], r)
  | fuel + 1, depth, items, r =>
    let r := r.skipTrivia
    match r.rest with
    | [] => (r.error (bytesOf "unterminated list"), r)
    | b :: _ =>
      if b = ascii ')' then (.ok (.list items), r.closeList)
      else
        match parseExpr fuel (depth + 1) r with
        | (.error e, r) => (.error e, r)
        | (.ok item, r) => parseItems fuel depth (items ++ [item]) r

end

/-! ### Recovery -/

/-- The loop of `skip_string_remainder` over what is left of the input; the first argument says
whether a quote has just been passed. -/
def skipStringLoop : Bool → Text → Reader → Reader
  | _, [], r => r
  | true, b :: rest, r => if b = ascii '"' then skipStringLoop false rest r.bump else r
  | false, b :: rest, r => skipStringLoop (decide (b = ascii '"')) rest r.bump

/-- `skip_string_remainder`. -/
def skipStringRemainder (r : Reader) : Reader := skipStringLoop false r.rest r

/-- The loop of `skip_quoted_symbol_remainder` over what is left of the input. -/
def skipQuotedLoop : Text → Reader → Reader
  | [], r => r
  | b :: rest, r => if b = ascii '|' then r.bump else skipQuotedLoop rest r.bump

/-- `skip_quoted_symbol_remainder`. -/
def skipQuotedSymbolRemainder (r : Reader) : Reader := skipQuotedLoop r.rest r

/-- The comment loop of `skip_open_lists` over what is left of the input. -/
def skipCommentLoop : Text → Reader → Reader
  | [], r => r
  | b :: rest, r => if b = newline then r.bump else skipCommentLoop rest r.bump

/-- `skip_open_lists`.  The first argument bounds the number of turns. -/
def skipOpenLists : ℕ → Reader → Reader
  | 0, r => r
  | fuel + 1, r =>
    if r.openLists = 0 then r
    else
      match r.rest with
      | [] => { r with openLists := 0 }
      | b :: _ =>
        if b = ascii '(' then skipOpenLists fuel r.openList
        else if b = ascii ')' then skipOpenLists fuel r.closeList
        else if b = ascii '"' then skipOpenLists fuel r.bump.skipStringRemainder
        else if b = ascii '|' then skipOpenLists fuel r.bump.skipQuotedSymbolRemainder
        else if b = ascii ';' then skipOpenLists fuel (skipCommentLoop r.bump.rest r.bump)
        else skipOpenLists fuel r.bump

/-- `recover_pending`. -/
def recoverPending (r : Reader) : Reader :=
  match r.recovery with
  | none => r
  | some recovery =>
    let r := { r with recovery := none }
    let r := match recovery with
      | .string => r.skipStringRemainder
      | .quotedSymbol => r.skipQuotedSymbolRemainder
      | .unexpectedClose => r.bump
      | .list => r
    skipOpenLists (r.rest.length + 1) r

/-- `Reader::next`. -/
def next (r : Reader) : Except ReadError (Option SExpr) × Reader :=
  let r := r.recoverPending.skipTrivia
  if r.rest.isEmpty then (.ok none, r)
  else
    match parseExpr (2 * r.rest.length + 1) 0 r with
    | (.ok expression, r) => (.ok (some expression), r)
    | (.error e, r) =>
      if r.recovery = none ∧ 0 < r.openLists then (.error e, { r with recovery := some .list })
      else (.error e, r)

end Reader

end Satrap.Smt
