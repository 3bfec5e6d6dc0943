/-
# The Tseitin encoder

`BoolEncoder` turns Boolean terms into literals of the solver.  A literal is made once for every
term; a compound term other than a negation gets a fresh variable and the clauses of its gate.
The encoder writes to a solver that other operations change in between, so an error can end an
encoding, and what has been encoded before it stays.
-/
import Satrap.Logic.Definition
import Satrap.Smt.Term
import Satrap.Solver.Incremental

namespace Satrap

open Logic

/-- `new_variable`. -/
def Solver.newVariable (O : Oracle) (s : Solver) : Except IncrementalError ℕ × Solver :=
  if s.externalVariableCount = maxVariables then (.error .variableLimit, s)
  else
    match s.tryReserveVariables O (s.externalVariableCount + 1) with
    | (.ok (), s') => (.ok s.externalVariableCount, s')
    | (.error e, s') => (.error e, s')

namespace Smt

/-- `BoolEncoder`. -/
structure BoolEncoder where
  termLiterals : TermId → Option Lit := fun _ => none
  atomLiterals : SymbolId → Option Lit := fun _ => none
  truthLiteral : Option Lit := none

/-- The encoder, the solver it writes to, and the encoding clauses the solver has taken. -/
structure Encoding where
  encoder : BoolEncoder
  solver : Solver
  clauses : List (List Lit)

/-- An encoding step, which can fail; `none` where the source panics. -/
def EncodeM (α : Type) : Type := Encoding → Option (Except IncrementalError α × Encoding)

namespace EncodeM

variable {α β : Type}

instance : Monad EncodeM where
  pure a e := some (.ok a, e)
  bind x f e :=
    match x e with
    | some (.ok a, e) => f a e
    | some (.error err, e) => some (.error err, e)
    | none => none

/-- The state. -/
def get : EncodeM Encoding := fun e => some (.ok e, e)

/-- Change the encoder. -/
def modify (f : BoolEncoder → BoolEncoder) : EncodeM Unit := fun e =>
  some (.ok (), { e with encoder := f e.encoder })

/-- `unreachable!`. -/
def unreachable : EncodeM α := fun _ => none

/-- `map` followed by `collect`: the first error ends it. -/
def collect (f : α → EncodeM β) : List α → EncodeM (List β)
  | [] => pure []
  | a :: rest => do
    let b ← f a
    let bs ← collect f rest
    pure (b :: bs)

/-- A `for` loop without a result. -/
def each (f : α → EncodeM Unit) : List α → EncodeM Unit
  | [] => pure ()
  | a :: rest => do
    f a
    each f rest

end EncodeM

open EncodeM

variable (O : Oracle) (terms : TermStore)

/-- `Lit::positive(solver.new_variable()?)`. -/
def freshLiteral : EncodeM Lit := fun e =>
  match e.solver.newVariable O with
  | (.ok v, s) => some (.ok ⟨v, true⟩, { e with solver := s })
  | (.error err, s) => some (.error err, { e with solver := s })

/-- `solver.add_encoding_clause(..)?`. -/
def encodingClause (literals : List Lit) : EncodeM Unit := fun e =>
  match e.solver.addEncodingClause O literals with
  | (.ok _, s) => some (.ok (), { e with solver := s, clauses := e.clauses ++ [literals] })
  | (.error err, s) => some (.error err, { e with solver := s })

/-- A fresh literal and the clauses of its gate. -/
def encodeGate (gate : Lit → List (List Lit)) : EncodeM Lit := do
  let output ← freshLiteral O
  each (encodingClause O) (gate output)
  pure output

/-- `truth_literal`. -/
def truthLiteral : EncodeM Lit := do
  match (← get).encoder.truthLiteral with
  | some literal => pure literal
  | none =>
    let literal ← encodeGate O fun literal => [[literal]]
    modify fun encoder => { encoder with truthLiteral := some literal }
    pure literal

/-- The literal of an atom, a fresh one at its first use. -/
def encodeAtom (symbol : SymbolId) : EncodeM Lit := do
  match (← get).encoder.atomLiterals symbol with
  | some literal => pure literal
  | none =>
    let literal ← freshLiteral O
    modify fun encoder =>
      { encoder with atomLiterals := Function.update encoder.atomLiterals symbol (some literal) }
    pure literal

/-- The literal of a term with the given kind, where the second argument encodes its members. -/
def encodeKind (member : TermId → EncodeM Lit) : TermKind → EncodeM Lit
  | .bool value => do
    let truth ← truthLiteral O
    pure (if value then truth else -truth)
  | .atom symbol | .theoryEquality symbol _ _ | .arithmeticPredicate symbol _ _ =>
    encodeAtom O symbol
  | .not inner => do
    let literal ← member inner
    pure (-literal)
  | .and items => do
    let inputs ← collect member items
    encodeGate O (andGate inputs)
  | .or items => do
    let inputs ← collect member items
    encodeGate O (orGate inputs)
  | .xor left right => do
    let left ← member left
    let right ← member right
    encodeGate O (xorGate left right)
  | .iff left right => do
    let left ← member left
    let right ← member right
    encodeGate O (iffGate left right)
  | .ite condition thenTerm elseTerm => do
    let condition ← member condition
    let thenTerm ← member thenTerm
    let elseTerm ← member elseTerm
    encodeGate O (iteGate condition thenTerm elseTerm)
  | _ => unreachable

/-- `encode`.  The first argument bounds the depth of the term. -/
def encodeWithin : ℕ → TermId → EncodeM Lit
  | 0, _ => unreachable
  | depth + 1, term => do
    match (← get).encoder.termLiterals term with
    | some literal => pure literal
    | none =>
      let literal ← encodeKind O (encodeWithin depth) (terms.node term).kind
      modify fun encoder =>
        { encoder with termLiterals := Function.update encoder.termLiterals term (some literal) }
      pure literal

/-- `encode`: the members of a term are older than the term. -/
def encode (term : TermId) : EncodeM Lit := encodeWithin O terms (term + 1) term

end Smt

end Satrap
