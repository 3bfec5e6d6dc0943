/-
# The term store

The hash-consed terms of `term.rs`: the tables of a `TermStore` with their index maps, and the
operations that build sorts, Boolean connectives and words of bits.  A hash map is a function
to `Option`, a `u32` identity is its index.  An operation returns its result or an error and
leaves a changed store in both cases.
-/
import Satrap.Smt.Linear
import Mathlib.Logic.Function.Basic
import Mathlib.Data.List.Sort

namespace Satrap.Smt

/-! ### Terms -/

abbrev SortId := ℕ
abbrev TermId := ℕ
abbrev SymbolId := ℕ
abbrev FunctionId := ℕ
abbrev ArraySortId := ℕ

/-- `Sort`. -/
inductive SmtSort where
  | bool
  | bitVec (width : ℕ)
  | int
  | real
  | uninterpreted (id : ℕ)
  | array (id : ArraySortId)
deriving DecidableEq

namespace SmtSort

/-- The sort is `Int` or `Real`. -/
def isArithmetic : SmtSort → Bool
  | int | real => true
  | _ => false

end SmtSort

/-- `TermKind`; the bits of a word are stored least significant first. -/
inductive TermKind where
  | bool (value : Bool)
  | atom (symbol : SymbolId)
  | not (term : TermId)
  | and (terms : List TermId)
  | or (terms : List TermId)
  | xor (left right : TermId)
  | iff (left right : TermId)
  | ite (condition thenTerm elseTerm : TermId)
  | ufConstant (value : ℕ)
  | ufApplication (function : FunctionId) (arguments : List TermId)
  | ufIte (condition thenTerm elseTerm : TermId)
  | arithmetic (expression : ℕ)
  | arithmeticPredicate (symbol : SymbolId) (expression : ℕ) (strict : Bool)
  | arrayConst (value : TermId)
  | arrayStore (array index value : TermId)
  | theoryEquality (symbol : SymbolId) (left right : TermId)
  | bitVec (bits : List TermId)
deriving DecidableEq

structure TermNode where
  sort : SortId
  kind : TermKind
deriving DecidableEq

structure FunctionSignature where
  domain : List SmtSort
  range : SmtSort

structure Application where
  function : FunctionId
  arguments : List TermId
  result : TermId

structure TheoryEquality where
  term : TermId
  left : TermId
  right : TermId

structure UfIte where
  result : TermId
  condition : TermId
  thenTerm : TermId
  elseTerm : TermId

structure ArithmeticPredicate where
  term : TermId
  expression : ℕ
  strict : Bool

structure ArithmeticIte where
  result : TermId
  condition : TermId
  thenTerm : TermId
  elseTerm : TermId

structure ArraySignature where
  index : SmtSort
  element : SmtSort
  selectFunction : FunctionId

/-- `TermStore`. -/
structure TermStore where
  nodes : List TermNode
  interned : TermNode → Option TermId
  sorts : List SmtSort
  sortIds : SmtSort → Option SortId
  nextSymbol : ℕ
  nextUninterpretedSort : ℕ
  nextUninterpretedValue : ℕ
  functions : List FunctionSignature
  applications : List Application
  applicationResults : FunctionId × List TermId → Option TermId
  applicationByResult : TermId → Option ℕ
  applicationByBit : TermId → Option (TermId × ℕ)
  theoryEqualities : List TheoryEquality
  theoryEqualityTerms : TermId × TermId → Option TermId
  ufItes : List UfIte
  arithmeticExpressions : List (SmtSort × LinearExpression)
  arithmeticExpressionIds : SmtSort × LinearExpression → Option ℕ
  arithmeticVariableSorts : List SmtSort
  arithmeticPredicates : List ArithmeticPredicate
  arithmeticPredicateTerms : ℕ × Bool → Option TermId
  arithmeticItes : List ArithmeticIte
  arithmeticIteTerms : TermId × TermId × TermId × SmtSort → Option TermId
  arraySorts : List ArraySignature
  arraySortIds : SmtSort × SmtSort → Option ArraySortId
  arrayAxioms : List TermId
  arraySemanticSelects : TermId → Option Unit
  arraySemanticSelectLog : List TermId
  arrayReads : TermId → Option (List TermId)
  arrayReadLog : List (TermId × TermId)

/-- `bool_sort`, the first sort of every store. -/
def boolSort : SortId := 0

/-- `true_term`, the first term of every store. -/
def trueTerm : TermId := 0

/-- `false_term`. -/
def falseTerm : TermId := 1

/-- `bool_constant`. -/
def boolConstant (value : Bool) : TermId := if value then trueTerm else falseTerm

namespace TermStore

/-- `TermStore::new`. -/
def new : TermStore where
  nodes := [⟨boolSort, .bool true⟩, ⟨boolSort, .bool false⟩]
  interned := Function.update (Function.update (fun _ => none) ⟨boolSort, .bool true⟩ (some 0))
    ⟨boolSort, .bool false⟩ (some 1)
  sorts := [.bool]
  sortIds := Function.update (fun _ => none) .bool (some boolSort)
  nextSymbol := 0
  nextUninterpretedSort := 0
  nextUninterpretedValue := 0
  functions := []
  applications := []
  applicationResults := fun _ => none
  applicationByResult := fun _ => none
  applicationByBit := fun _ => none
  theoryEqualities := []
  theoryEqualityTerms := fun _ => none
  ufItes := []
  arithmeticExpressions := []
  arithmeticExpressionIds := fun _ => none
  arithmeticVariableSorts := []
  arithmeticPredicates := []
  arithmeticPredicateTerms := fun _ => none
  arithmeticItes := []
  arithmeticIteTerms := fun _ => none
  arraySorts := []
  arraySortIds := fun _ => none
  arrayAxioms := []
  arraySemanticSelects := fun _ => none
  arraySemanticSelectLog := []
  arrayReads := fun _ => none
  arrayReadLog := []

end TermStore

/-! ### Operations that may fail -/

/-- `TermError`. -/
structure TermError where
  message : String
deriving DecidableEq

/-- An operation on the store. -/
def TermM (α : Type) : Type := TermStore → Except TermError α × TermStore

namespace TermM

variable {α β : Type}

instance : Monad TermM where
  pure a s := (.ok a, s)
  bind x f s :=
    match x s with
    | (.ok a, s) => f a s
    | (.error e, s) => (.error e, s)

/-- Return an error. -/
def fail (message : String) : TermM α := fun s => (.error ⟨message⟩, s)

/-- The store. -/
def get : TermM TermStore := fun s => (.ok s, s)

/-- Change the store. -/
def modify (f : TermStore → TermStore) : TermM Unit := fun s => (.ok (), f s)

/-- The value of an `Option`, or an error. -/
def okOr (message : String) : Option α → TermM α
  | some a => pure a
  | none => fail message

/-- `map` followed by `collect`: the first error ends it. -/
def collect (f : α → TermM β) : List α → TermM (List β)
  | [] => pure []
  | a :: rest => do
    let b ← f a
    let bs ← collect f rest
    pure (b :: bs)

/-- A `for` loop without a result. -/
def each (f : α → TermM Unit) : List α → TermM Unit
  | [] => pure ()
  | a :: rest => do
    f a
    each f rest

/-- A `for` loop that updates a variable. -/
def loop (f : β → α → TermM β) : β → List α → TermM β
  | b, [] => pure b
  | b, a :: rest => do
    let b ← f b a
    loop f b rest

end TermM

open TermM

/-- A table may not outgrow its `u32` index. -/
def maxIndex : ℕ := 2 ^ 32

/-- `u32::try_from` of the length of a table. -/
def checkIndex (length : ℕ) (message : String) : TermM Unit :=
  if length < maxIndex then pure () else fail message

/-! ### Reading the store -/

namespace TermStore

/-- `node`. -/
def node (s : TermStore) (term : TermId) : TermNode := s.nodes.getD term ⟨boolSort, .bool true⟩

/-- The sort of a term, `none` for a term of another store. -/
def sort? (s : TermStore) (term : TermId) : Option SmtSort :=
  (s.nodes[term]?).map fun node => s.sorts.getD node.sort .bool

/-- The bits of a word. -/
def bits? (s : TermStore) (term : TermId) : Option (List TermId) :=
  match (s.nodes[term]?).map TermNode.kind with
  | some (.bitVec bits) => some bits
  | _ => none

end TermStore

/-- `sort`. -/
def sortOf (term : TermId) : TermM SmtSort := do
  okOr "term does not belong to this term store" ((← get).sort? term)

/-- `sort_id`. -/
def sortId (term : TermId) : TermM SortId := do
  okOr "term does not belong to this term store" (((← get).nodes[term]?).map TermNode.sort)

/-- `require_bool`. -/
def requireBool (term : TermId) : TermM Unit := do
  let sort ← sortId term
  if sort = boolSort then pure () else fail "expected a term of sort Bool"

/-- `bitvec_bits`. -/
def bitvecBits (term : TermId) : TermM (List TermId) := do
  let s ← get
  match s.nodes[term]? with
  | none => fail "term does not belong to this term store"
  | some node =>
    match node.kind with
    | .bitVec bits => pure bits
    | _ => fail "expected a bit-vector term"

/-- `bitvec_width`. -/
def bitvecWidth (term : TermId) : TermM ℕ := do
  match ← sortOf term with
  | .bitVec width => pure width
  | _ => fail "expected a bit-vector term"

/-! ### Sorts, symbols and nodes -/

/-- `sort_id_for`. -/
def sortIdFor (sort : SmtSort) : TermM SortId := do
  let s ← get
  match s.sortIds sort with
  | some id => pure id
  | none =>
    if sort = .bitVec 0 then fail "bit-vector width must be greater than zero"
    else
      checkIndex s.sorts.length "sort store exceeds the supported u32 index"
      modify fun s => { s with
        sorts := s.sorts ++ [sort]
        sortIds := Function.update s.sortIds sort (some s.sorts.length) }
      pure s.sorts.length

/-- `fresh_uninterpreted_sort`. -/
def freshUninterpretedSort : TermM ℕ := do
  let s ← get
  checkIndex (s.nextUninterpretedSort + 1) "uninterpreted-sort store exceeds the u32 index"
  modify fun s => { s with nextUninterpretedSort := s.nextUninterpretedSort + 1 }
  let _ ← sortIdFor (.uninterpreted s.nextUninterpretedSort)
  pure s.nextUninterpretedSort

/-- `intern`. -/
def intern (sort : SortId) (kind : TermKind) : TermM TermId := do
  let s ← get
  match s.interned ⟨sort, kind⟩ with
  | some term => pure term
  | none =>
    modify fun s => { s with
      nodes := s.nodes ++ [⟨sort, kind⟩]
      interned := Function.update s.interned ⟨sort, kind⟩ (some s.nodes.length) }
    pure s.nodes.length

/-- `fresh_symbol`. -/
def freshSymbol : TermM SymbolId := do
  let s ← get
  modify fun s => { s with nextSymbol := s.nextSymbol + 1 }
  pure s.nextSymbol

/-- `fresh_bool_atom`. -/
def freshBoolAtom : TermM TermId := do
  let symbol ← freshSymbol
  intern boolSort (.atom symbol)

/-! ### Boolean connectives -/

/-- `ordered_pair`. -/
def orderedPair (left right : TermId) : TermId × TermId :=
  if left ≤ right then (left, right) else (right, left)

/-- `not`. -/
def mkNot (term : TermId) : TermM TermId := do
  requireBool term
  match ((← get).node term).kind with
  | .bool value => pure (boolConstant !value)
  | .not inner => pure inner
  | _ => intern boolSort (.not term)

/-- The members of a junction, nested ones of the same kind flattened; `inr` where a constant
decides it. -/
def flatten (s : TermStore) (identity conjunction : Bool) (term : TermId)
    (flattened : List TermId) : List TermId ⊕ Bool :=
  match (s.node term).kind with
  | .bool value => if value = identity then .inl flattened else .inr value
  | .and nested => .inl (flattened ++ if conjunction then nested else [term])
  | .or nested => .inl (flattened ++ if conjunction then [term] else nested)
  | _ => .inl (flattened ++ [term])

/-- The first loop of `junction`. -/
def flattenAll (identity conjunction : Bool) :
    List TermId → List TermId → TermM (List TermId ⊕ Bool)
  | [], flattened => pure (.inl flattened)
  | term :: rest, flattened => do
    requireBool term
    match flatten (← get) identity conjunction term flattened with
    | .inl flattened => flattenAll identity conjunction rest flattened
    | .inr value => pure (.inr value)

/-- `sort_unstable` and `dedup`. -/
def sortDedup (terms : List TermId) : List TermId := (terms.mergeSort fun a b => decide (a ≤ b)).dedup

/-- Some member is the negation of another. -/
def hasComplements (s : TermStore) (members : List TermId) : Bool :=
  members.any fun member =>
    match (s.node member).kind with
    | .not inner => decide (inner ∈ members)
    | _ => false

/-- `junction`. -/
def junction (terms : List TermId) (identity conjunction : Bool) : TermM TermId := do
  match ← flattenAll identity conjunction terms [] with
  | .inr value => pure (boolConstant value)
  | .inl flattened =>
    let members := sortDedup flattened
    if hasComplements (← get) members then pure (boolConstant !identity)
    else
      match members with
      | [] => pure (boolConstant identity)
      | [member] => pure member
      | _ => intern boolSort (if conjunction then .and members else .or members)

/-- `and`. -/
def mkAnd (terms : List TermId) : TermM TermId := junction terms true true

/-- `or`. -/
def mkOr (terms : List TermId) : TermM TermId := junction terms false false

/-- `are_complements`. -/
def areComplements (s : TermStore) (left right : TermId) : Bool :=
  decide ((s.node left).kind = .not right) || decide ((s.node right).kind = .not left)

/-- `xor`. -/
def mkXor (left right : TermId) : TermM TermId := do
  requireBool left
  requireBool right
  let s ← get
  if left = right then pure falseTerm
  else if areComplements s left right then pure trueTerm
  else
    match (s.node left).kind, (s.node right).kind with
    | .bool false, _ => pure right
    | _, .bool false => pure left
    | .bool true, _ => mkNot right
    | _, .bool true => mkNot left
    | _, _ => intern boolSort (.xor (orderedPair left right).1 (orderedPair left right).2)

/-- `iff`. -/
def mkIff (left right : TermId) : TermM TermId := do
  requireBool left
  requireBool right
  let s ← get
  if left = right then pure trueTerm
  else if areComplements s left right then pure falseTerm
  else
    match (s.node left).kind, (s.node right).kind with
    | .bool true, _ => pure right
    | _, .bool true => pure left
    | .bool false, _ => mkNot right
    | _, .bool false => mkNot left
    | _, _ => intern boolSort (.iff (orderedPair left right).1 (orderedPair left right).2)

/-- `implies`. -/
def implies (terms : List TermId) : TermM TermId := do
  if terms.length < 2 then fail "`=>` expects at least two arguments"
  else
    each requireBool terms
    let last := terms.getLastD trueTerm
    loop (fun result antecedent => do mkOr [← mkNot antecedent, result]) last terms.dropLast.reverse

/-! ### Words -/

/-- `MAX_BITVECTOR_WIDTH`. -/
def maxBitvectorWidth : ℕ := 1048576

/-- `check_width`. -/
def checkWidth (width : ℕ) : TermM Unit :=
  if width = 0 then fail "bit-vector width must be greater than zero"
  else if maxBitvectorWidth < width then
    fail s!"bit-vector width {width} exceeds the current limit of {maxBitvectorWidth}"
  else pure ()

/-- `make_bitvec`. -/
def makeBitvec (bits : List TermId) : TermM TermId := do
  if bits.isEmpty then fail "bit-vector width must be greater than zero"
  else
    each requireBool bits
    checkIndex bits.length "bit-vector width exceeds the supported u32 size"
    let sort ← sortIdFor (.bitVec bits.length)
    intern sort (.bitVec bits)

/-- `fresh_bitvec`. -/
def freshBitvec (width : ℕ) : TermM TermId := do
  checkWidth width
  let bits ← collect (fun _ => freshBoolAtom) (List.range width)
  makeBitvec bits

/-! ### Evaluation -/

namespace TermStore

/-- `evaluate_bool_unchecked`, without its memo table.  The first argument bounds the depth of
the term. -/
def evaluateWithin (s : TermStore) (atomValue : SymbolId → Bool) : ℕ → TermId → Bool
  | 0, _ => false
  | depth + 1, term =>
    match (s.node term).kind with
    | .bool value => value
    | .atom symbol | .theoryEquality symbol _ _ | .arithmeticPredicate symbol _ _ =>
      atomValue symbol
    | .not inner => !s.evaluateWithin atomValue depth inner
    | .and terms => terms.all fun item => s.evaluateWithin atomValue depth item
    | .or terms => terms.any fun item => s.evaluateWithin atomValue depth item
    | .xor left right =>
      s.evaluateWithin atomValue depth left != s.evaluateWithin atomValue depth right
    | .iff left right =>
      s.evaluateWithin atomValue depth left == s.evaluateWithin atomValue depth right
    | .ite condition thenTerm elseTerm =>
      if s.evaluateWithin atomValue depth condition then s.evaluateWithin atomValue depth thenTerm
      else s.evaluateWithin atomValue depth elseTerm
    | _ => false

/-- The value of a Boolean term: the members of a term are older than the term. -/
def evaluate (s : TermStore) (atomValue : SymbolId → Bool) (term : TermId) : Bool :=
  s.evaluateWithin atomValue (term + 1) term

end TermStore

/-- `evaluate_bool`. -/
def evaluateBool (atomValue : SymbolId → Bool) (term : TermId) : TermM Bool := do
  requireBool term
  pure ((← get).evaluate atomValue term)

/-- `evaluate_bitvec`. -/
def evaluateBitvec (atomValue : SymbolId → Bool) (term : TermId) : TermM (List Bool) := do
  let bits ← bitvecBits term
  pure (bits.map ((← get).evaluate atomValue))

end Satrap.Smt
