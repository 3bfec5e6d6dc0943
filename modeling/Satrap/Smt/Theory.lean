/-
# Theory terms

The rest of `term.rs`: arithmetic terms, uninterpreted functions, arrays with their generated
axioms, equality and `ite` of every sort, and checkpoints with `rollback`.

Reading a stored array compares indices, which may be arrays and then have a witness read of
their own: `select`, `equivalent` and `theory_equality` call each other.  Their first argument
bounds the depth of these calls.
-/
import Satrap.Smt.Term

namespace Satrap.Smt

open TermM

/-! ### Arithmetic -/

/-- `require_arithmetic`. -/
def requireArithmetic (term : TermId) : TermM SmtSort := do
  let sort ← sortOf term
  if sort.isArithmetic then pure sort else fail "expected an integer or real term"

/-- `common_arithmetic_sort`. -/
def commonArithmeticSort (terms : List TermId) : TermM SmtSort :=
  loop (fun result term => do
    match ← requireArithmetic term with
    | .real => pure .real
    | _ => pure result) .int terms

/-- `arithmetic_expression`. -/
def arithmeticExpression (expression : ℕ) : TermM LinearExpression := do
  okOr "arithmetic expression does not belong to this store"
    (((← get).arithmeticExpressions[expression]?).map Prod.snd)

/-- `arithmetic_expression_for_term`. -/
def arithmeticExpressionForTerm (term : TermId) : TermM LinearExpression := do
  match ((← get).node term).kind with
  | .arithmetic expression => arithmeticExpression expression
  | _ => fail "expected an integer or real term"

/-- `arithmetic_expression_as`. -/
def arithmeticExpressionAs (term : TermId) (target : SmtSort) : TermM LinearExpression := do
  let source ← requireArithmetic term
  if source = .real ∧ target = .int then fail "cannot implicitly coerce Real to Int"
  else if !target.isArithmetic then fail "expected arithmetic target sort"
  else arithmeticExpressionForTerm term

/-- `intern_arithmetic_expression`. -/
def internArithmeticExpression (sort : SmtSort) (expression : LinearExpression) : TermM ℕ := do
  let s ← get
  match s.arithmeticExpressionIds (sort, expression) with
  | some id => pure id
  | none =>
    checkIndex s.arithmeticExpressions.length "arithmetic-expression store exceeds the u32 index"
    modify fun s => { s with
      arithmeticExpressions := s.arithmeticExpressions ++ [(sort, expression)]
      arithmeticExpressionIds := Function.update s.arithmeticExpressionIds (sort, expression)
        (some s.arithmeticExpressions.length) }
    pure s.arithmeticExpressions.length

/-- Every coefficient and the constant are integers. -/
def isIntegral (expression : LinearExpression) : Bool :=
  expression.constant.isInt && expression.coefficients.all fun entry => entry.2.isInt

/-- `make_arithmetic_term`. -/
def makeArithmeticTerm (sort : SmtSort) (expression : LinearExpression) : TermM TermId := do
  if !sort.isArithmetic then fail "expected arithmetic sort"
  else if sort = .int ∧ !isIntegral expression then
    fail "integer expression has a non-integral coefficient"
  else
    let expression ← internArithmeticExpression sort expression
    let sort ← sortIdFor sort
    intern sort (.arithmetic expression)

/-- `fresh_arithmetic_variable`. -/
def freshArithmeticVariable (sort : SmtSort) : TermM TermId := do
  if !sort.isArithmetic then fail "expected arithmetic sort"
  else
    let s ← get
    checkIndex s.arithmeticVariableSorts.length "arithmetic-variable store exceeds the u32 index"
    modify fun s => { s with arithmeticVariableSorts := s.arithmeticVariableSorts ++ [sort] }
    makeArithmeticTerm sort (.ofVariable s.arithmeticVariableSorts.length)

/-- `arithmetic_constant`. -/
def arithmeticConstant (sort : SmtSort) (value : ℚ) : TermM TermId :=
  makeArithmeticTerm sort (.ofConstant value)

/-- `arithmetic_integer`. -/
def arithmeticInteger (value : ℤ) : TermM TermId := arithmeticConstant .int value

/-- `arithmetic_real`. -/
def arithmeticReal (value : ℚ) : TermM TermId := arithmeticConstant .real value

/-- `arithmetic_add`. -/
def arithmeticAdd (terms : List TermId) : TermM TermId := do
  if terms.length < 2 then fail "`+` expects at least two arguments"
  else
    let sort ← commonArithmeticSort terms
    let expressions ← collect (arithmeticExpressionAs · sort) terms
    makeArithmeticTerm sort (.sum expressions)

/-- `arithmetic_negate`. -/
def arithmeticNegate (term : TermId) : TermM TermId := do
  let sort ← requireArithmetic term
  let expression ← arithmeticExpressionForTerm term
  makeArithmeticTerm sort (expression.scaled (-1))

/-- `arithmetic_sub`. -/
def arithmeticSub (terms : List TermId) : TermM TermId := do
  match terms with
  | [] => fail "`-` expects at least one argument"
  | [term] => arithmeticNegate term
  | first :: rest =>
    let sort ← commonArithmeticSort terms
    let result ← arithmeticExpressionAs first sort
    let result ← loop (fun result term => do
      pure (result.addScaled (← arithmeticExpressionAs term sort) (-1))) result rest
    makeArithmeticTerm sort result

/-- One factor of `arithmetic_mul`: the constant factor so far and the one that is not
constant. -/
def multiplyFactor (sort : SmtSort) (factors : ℚ × Option LinearExpression) (term : TermId) :
    TermM (ℚ × Option LinearExpression) := do
  let expression ← arithmeticExpressionAs term sort
  if expression.isConstant then pure (factors.1 * expression.constant, factors.2)
  else
    match factors.2 with
    | none => pure (factors.1, some expression)
    | some _ => fail "nonlinear multiplication is outside the supported logics"

/-- `arithmetic_mul`. -/
def arithmeticMul (terms : List TermId) : TermM TermId := do
  if terms.length < 2 then fail "`*` expects at least two arguments"
  else
    let sort ← commonArithmeticSort terms
    match ← loop (multiplyFactor sort) (1, none) terms with
    | (scale, some expression) => makeArithmeticTerm sort (expression.scaled scale)
    | (scale, none) => makeArithmeticTerm sort (.ofConstant scale)

/-- `arithmetic_divide`. -/
def arithmeticDivide (numerator denominator : TermId) : TermM TermId := do
  let _ ← requireArithmetic numerator
  let _ ← requireArithmetic denominator
  let divisor ← arithmeticExpressionForTerm denominator
  if !divisor.isConstant then fail "division by a nonconstant is outside linear arithmetic"
  else if divisor.constant = 0 then
    fail "division by zero is not a total linear-arithmetic operation"
  else
    let expression ← arithmeticExpressionAs numerator .real
    makeArithmeticTerm .real (expression.scaled divisor.constant⁻¹)

/-- `coerce_arithmetic_term`. -/
def coerceArithmeticTerm (term : TermId) (target : SmtSort) : TermM TermId := do
  if (← sortOf term) = target then pure term
  else makeArithmeticTerm target (← arithmeticExpressionAs term target)

/-- `arithmetic_to_real`. -/
def arithmeticToReal (term : TermId) : TermM TermId := coerceArithmeticTerm term .real

/-- `arithmetic_comparison`. -/
def arithmeticComparison (left right : TermId) (strict : Bool) : TermM TermId := do
  let sort ← commonArithmeticSort [left, right]
  let expression ← arithmeticExpressionAs left sort
  let expression := expression.addScaled (← arithmeticExpressionAs right sort) (-1)
  if expression.isConstant then
    pure (boolConstant (if strict then decide (expression.constant < 0)
      else decide (expression.constant ≤ 0)))
  else
    let expression ← internArithmeticExpression sort expression
    match (← get).arithmeticPredicateTerms (expression, strict) with
    | some term => pure term
    | none =>
      let symbol ← freshSymbol
      let term ← intern boolSort (.arithmeticPredicate symbol expression strict)
      modify fun s => { s with
        arithmeticPredicateTerms :=
          Function.update s.arithmeticPredicateTerms (expression, strict) (some term)
        arithmeticPredicates := s.arithmeticPredicates ++ [⟨term, expression, strict⟩] }
      pure term

/-- `arithmetic_le`. -/
def arithmeticLe (left right : TermId) : TermM TermId := arithmeticComparison left right false

/-- `arithmetic_lt`. -/
def arithmeticLt (left right : TermId) : TermM TermId := arithmeticComparison left right true

/-- `arithmetic_ge`. -/
def arithmeticGe (left right : TermId) : TermM TermId := arithmeticComparison right left false

/-- `arithmetic_gt`. -/
def arithmeticGt (left right : TermId) : TermM TermId := arithmeticComparison right left true

/-- `arithmetic_equivalent`. -/
def arithmeticEquivalent (left right : TermId) : TermM TermId := do
  let lessEqual ← arithmeticLe left right
  let greaterEqual ← arithmeticGe left right
  mkAnd [lessEqual, greaterEqual]

/-- `arithmetic_ite`. -/
def arithmeticIte (condition thenTerm elseTerm : TermId) : TermM TermId := do
  let sort ← commonArithmeticSort [thenTerm, elseTerm]
  let thenTerm ← coerceArithmeticTerm thenTerm sort
  let elseTerm ← coerceArithmeticTerm elseTerm sort
  match (← get).arithmeticIteTerms (condition, thenTerm, elseTerm, sort) with
  | some result => pure result
  | none =>
    let result ← freshArithmeticVariable sort
    modify fun s => { s with
      arithmeticIteTerms :=
        Function.update s.arithmeticIteTerms (condition, thenTerm, elseTerm, sort) (some result)
      arithmeticItes := s.arithmeticItes ++ [⟨result, condition, thenTerm, elseTerm⟩] }
    pure result

/-! ### Functions and array sorts -/

/-- `declare_function`. -/
def declareFunction (domain : List SmtSort) (range : SmtSort) : TermM FunctionId := do
  each (fun sort => do let _ ← sortIdFor sort) domain
  let _ ← sortIdFor range
  let s ← get
  checkIndex s.functions.length "function store exceeds the supported u32 index"
  modify fun s => { s with functions := s.functions ++ [⟨domain, range⟩] }
  pure s.functions.length

/-- `array_sort`. -/
def arraySort (index element : SmtSort) : TermM ArraySortId := do
  let _ ← sortIdFor index
  let _ ← sortIdFor element
  let s ← get
  match s.arraySortIds (index, element) with
  | some sort => pure sort
  | none =>
    let id := s.arraySorts.length
    checkIndex id "array-sort store exceeds the supported u32 index"
    let _ ← sortIdFor (.array id)
    let selectFunction ← declareFunction [.array id, index] element
    modify fun s => { s with
      arraySorts := s.arraySorts ++ [⟨index, element, selectFunction⟩]
      arraySortIds := Function.update s.arraySortIds (index, element) (some id) }
    pure id

/-- `array_signature`. -/
def arraySignature (sort : ArraySortId) : TermM ArraySignature := do
  okOr "array sort does not belong to this term store" ((← get).arraySorts[sort]?)

/-- The signature of the sort of an array. -/
def arraySignatureOf (array : TermId) (message : String) : TermM (ArraySortId × ArraySignature) := do
  match ← sortOf array with
  | .array sort => do pure (sort, ← arraySignature sort)
  | _ => fail message

/-- `const_array`. -/
def constArray (sort : ArraySortId) (value : TermId) : TermM TermId := do
  let signature ← arraySignature sort
  if (← sortOf value) ≠ signature.element then
    fail "constant-array value does not have the array element sort"
  else
    let sortId ← sortIdFor (.array sort)
    intern sortId (.arrayConst value)

/-- `store`. -/
def store (array index value : TermId) : TermM TermId := do
  let (sort, signature) ← arraySignatureOf array "`store` expects an array"
  if (← sortOf index) ≠ signature.index then
    fail "`store` index does not have the array index sort"
  else if (← sortOf value) ≠ signature.element then
    fail "`store` value does not have the array element sort"
  else
    let sortId ← sortIdFor (.array sort)
    intern sortId (.arrayStore array index value)

/-- A term of an uninterpreted or array sort that nothing is known about. -/
def freshUfConstant (sort : SmtSort) (message : String) : TermM TermId := do
  let sortId ← sortIdFor sort
  let s ← get
  checkIndex (s.nextUninterpretedValue + 1) message
  modify fun s => { s with nextUninterpretedValue := s.nextUninterpretedValue + 1 }
  intern sortId (.ufConstant s.nextUninterpretedValue)

/-- `fresh_term`. -/
def freshTerm : SmtSort → TermM TermId
  | .bool => freshBoolAtom
  | .bitVec width => freshBitvec width
  | .int => freshArithmeticVariable .int
  | .real => freshArithmeticVariable .real
  | .uninterpreted id =>
    freshUfConstant (.uninterpreted id) "uninterpreted-value store exceeds the u32 index"
  | .array id => freshUfConstant (.array id) "abstract-value store exceeds the u32 index"

/-- The term for a new application: a fresh one where the range is interpreted. -/
def applicationTerm (function : FunctionId) (arguments : List TermId) : SmtSort → TermM TermId
  | .bool => freshBoolAtom
  | .bitVec width => freshBitvec width
  | .int => freshArithmeticVariable .int
  | .real => freshArithmeticVariable .real
  | range => do
    let sort ← sortIdFor range
    intern sort (.ufApplication function arguments)

/-- The arguments have the sorts of the domain. -/
def checkArguments : List TermId → List SmtSort → TermM Unit
  | argument :: arguments, expected :: domain => do
    if (← sortOf argument) ≠ expected then fail "function argument does not have its declared sort"
    else checkArguments arguments domain
  | _, _ => pure ()

/-- The entries of `application_by_bit` for a word. -/
def indexBits (result : TermId) (bits : List TermId) (index : TermId → Option (TermId × ℕ)) :
    TermId → Option (TermId × ℕ) :=
  bits.zipIdx.foldl (fun index entry => Function.update index entry.1 (some (result, entry.2))) index

/-- A new application is entered in the tables. -/
def recordApplication (function : FunctionId) (arguments : List TermId) (range : SmtSort)
    (result : TermId) : TermM Unit := do
  modify fun s => { s with
    applicationResults := Function.update s.applicationResults (function, arguments) (some result)
    applicationByResult := Function.update s.applicationByResult result (some s.applications.length) }
  match range with
  | .bitVec _ =>
    let bits ← bitvecBits result
    modify fun s => { s with applicationByBit := indexBits result bits s.applicationByBit }
  | _ => pure ()
  modify fun s => { s with applications := s.applications ++ [⟨function, arguments, result⟩] }

/-- `apply`. -/
def apply (function : FunctionId) (arguments : List TermId) : TermM TermId := do
  let signature ← okOr "function does not belong to this term store" ((← get).functions[function]?)
  if arguments.length ≠ signature.domain.length then
    fail s!"function expects {signature.domain.length} argument(s), received {arguments.length}"
  else
    checkArguments arguments signature.domain
    match (← get).applicationResults (function, arguments) with
    | some result => pure result
    | none =>
      let result ← applicationTerm function arguments signature.range
      recordApplication function arguments signature.range result
      pure result

/-! ### Array reads and equality -/

/-- `register_array_read`. -/
def registerArrayRead (array index : TermId) : TermM Unit :=
  modify fun s =>
    let indices := (s.arrayReads array).getD []
    if index ∈ indices then s
    else { s with
      arrayReads := Function.update s.arrayReads array (some (indices ++ [index]))
      arrayReadLog := s.arrayReadLog ++ [(array, index)] }

/-- Enter a read in `array_semantic_selects`: `true` when it is new. -/
def insertSemanticSelect (result : TermId) : TermM Bool := do
  match (← get).arraySemanticSelects result with
  | some () => pure false
  | none =>
    modify fun s => { s with
      arraySemanticSelects := Function.update s.arraySemanticSelects result (some ())
      arraySemanticSelectLog := s.arraySemanticSelectLog ++ [result] }
    pure true

/-- Record a generated axiom. -/
def pushArrayAxiom (term : TermId) : TermM Unit :=
  modify fun s => { s with arrayAxioms := s.arrayAxioms ++ [term] }

/-- Record the new atom of an equality. -/
def recordTheoryEquality (term left right : TermId) : TermM Unit :=
  modify fun s => { s with
    theoryEqualityTerms := Function.update s.theoryEqualityTerms (left, right) (some term)
    theoryEqualities := s.theoryEqualities ++ [⟨term, left, right⟩] }

/-- `equivalent`, given the equality of terms that are not interpreted. -/
def equivalentWith (theoryEquality : TermId → TermId → TermM TermId) (left right : TermId) :
    TermM TermId := do
  let leftSort ← sortOf left
  let rightSort ← sortOf right
  if leftSort.isArithmetic && rightSort.isArithmetic then arithmeticEquivalent left right
  else if rightSort ≠ leftSort then fail "equality operands have different sorts"
  else
    match leftSort with
    | .bool => mkIff left right
    | .bitVec _ =>
      let left ← bitvecBits left
      let right ← bitvecBits right
      let bits ← collect (fun pair => mkIff pair.1 pair.2) (left.zip right)
      mkAnd bits
    | _ => theoryEquality left right

/-- The bits of an `ite` of words. -/
def selectPairs (ite : TermId → TermId → TermM TermId) (thenBits elseBits : List TermId) :
    TermM (List TermId) :=
  collect (fun pair => ite pair.1 pair.2) (thenBits.zip elseBits)

/-- `ite` of Boolean terms, after the checks of sorts. -/
def iteBool (condition thenTerm elseTerm : TermId) : TermM TermId := do
  if thenTerm = elseTerm then pure thenTerm
  else
    match ((← get).node condition).kind with
    | .bool true => pure thenTerm
    | .bool false => pure elseTerm
    | _ =>
      if thenTerm = trueTerm ∧ elseTerm = falseTerm then pure condition
      else if thenTerm = falseTerm ∧ elseTerm = trueTerm then mkNot condition
      else intern boolSort (.ite condition thenTerm elseTerm)

/-- `ite` on the bits of two words, which are Boolean. -/
def iteBit (condition thenTerm elseTerm : TermId) : TermM TermId := do
  requireBool condition
  let sort ← sortOf thenTerm
  let elseSort ← sortOf elseTerm
  if elseSort ≠ sort then fail "`ite` branches must have the same sort"
  else iteBool condition thenTerm elseTerm

/-- The term of an `ite` whose branches are not interpreted. -/
def ufIteTerm (condition thenTerm elseTerm : TermId) : TermM TermId := do
  let sort ← sortId thenTerm
  let result ← intern sort (.ufIte condition thenTerm elseTerm)
  modify fun s =>
    if s.ufItes.any fun item => decide (item.result = result) then s
    else { s with ufItes := s.ufItes ++ [⟨result, condition, thenTerm, elseTerm⟩] }
  pure result

/-- `ite`. -/
def mkIte (condition thenTerm elseTerm : TermId) : TermM TermId := do
  requireBool condition
  let sort ← sortOf thenTerm
  let elseSort ← sortOf elseTerm
  if sort.isArithmetic && elseSort.isArithmetic then
    let common ← commonArithmeticSort [thenTerm, elseTerm]
    match ((← get).node condition).kind with
    | .bool true => coerceArithmeticTerm thenTerm common
    | .bool false => coerceArithmeticTerm elseTerm common
    | _ => arithmeticIte condition thenTerm elseTerm
  else if elseSort ≠ sort then fail "`ite` branches must have the same sort"
  else if thenTerm = elseTerm then pure thenTerm
  else
    match sort with
    | .bool => iteBool condition thenTerm elseTerm
    | .bitVec _ =>
      let thenBits ← bitvecBits thenTerm
      let elseBits ← bitvecBits elseTerm
      let bits ← selectPairs (iteBit condition) thenBits elseBits
      makeBitvec bits
    | _ => ufIteTerm condition thenTerm elseTerm

mutual

/-- `select`. -/
def select : ℕ → TermId → TermId → TermM TermId
  | 0, _, _ => fail "array term is nested too deeply"
  | depth + 1, array, index => do
    let (_, signature) ← arraySignatureOf array "`select` expects an array"
    if (← sortOf index) ≠ signature.index then
      fail "`select` index does not have the array index sort"
    else
      registerArrayRead array index
      let result ← apply signature.selectFunction [array, index]
      if ← insertSemanticSelect result then
        match ((← get).node array).kind with
        | .arrayConst value =>
          let equality ← equivalentWith (theoryEquality depth) result value
          pushArrayAxiom equality
        | .arrayStore base storedIndex storedValue =>
          let sameIndex ← equivalentWith (theoryEquality depth) storedIndex index
          let fallback ← select depth base index
          let value ← mkIte sameIndex storedValue fallback
          let equality ← equivalentWith (theoryEquality depth) result value
          pushArrayAxiom equality
        | _ => pure ()
        pure result
      else pure result

/-- `theory_equality`. -/
def theoryEquality : ℕ → TermId → TermId → TermM TermId
  | 0, _, _ => fail "array term is nested too deeply"
  | depth + 1, left, right => do
    if left = right then pure trueTerm
    else
      let (left, right) := orderedPair left right
      match (← get).theoryEqualityTerms (left, right) with
      | some term => pure term
      | none =>
        let symbol ← freshSymbol
        let term ← intern boolSort (.theoryEquality symbol left right)
        recordTheoryEquality term left right
        match ← sortOf left with
        | .array sort =>
          let signature ← arraySignature sort
          let witness ← freshTerm signature.index
          let leftValue ← select depth left witness
          let rightValue ← select depth right witness
          let valuesEqual ← equivalentWith (theoryEquality depth) leftValue rightValue
          let valuesDiffer ← mkNot valuesEqual
          let extensionality ← mkOr [term, valuesDiffer]
          pushArrayAxiom extensionality
          pure term
        | _ => pure term

end

/-- `equivalent`. -/
def equivalent (depth : ℕ) (left right : TermId) : TermM TermId :=
  equivalentWith (theoryEquality depth) left right

/-- The arguments of `=` or `distinct` have one sort, or are all arithmetic. -/
def checkSameSort (name : String) (first : TermId) (rest : List TermId) : TermM Unit := do
  let firstSort ← sortOf first
  let s ← get
  let arithmetic := firstSort.isArithmetic &&
    rest.all fun term => ((s.sort? term).map SmtSort.isArithmetic).getD false
  each (fun term => do
    if arithmetic then pure ()
    else if (← sortOf term) ≠ firstSort then
      fail s!"all arguments to `{name}` must have the same sort"
    else pure ()) rest

/-- `equal`. -/
def equal (depth : ℕ) : List TermId → TermM TermId
  | first :: second :: rest => do
    checkSameSort "=" first (second :: rest)
    let equalities ← collect (equivalent depth first) (second :: rest)
    mkAnd equalities
  | _ => fail "`=` expects at least two arguments"

/-- The pairs of a list, each with the members after it. -/
def pairs : List TermId → List (TermId × TermId)
  | [] => []
  | first :: rest => rest.map (fun term => (first, term)) ++ pairs rest

/-- `distinct`. -/
def distinct (depth : ℕ) : List TermId → TermM TermId
  | first :: second :: rest => do
    checkSameSort "distinct" first (second :: rest)
    let inequalities ← collect (fun pair => do mkNot (← equivalent depth pair.1 pair.2))
      (pairs (first :: second :: rest))
    mkAnd inequalities
  | _ => fail "`distinct` expects at least two arguments"

/-- `share_array_reads`. -/
def shareArrayReads (depth : ℕ) (arrays : List TermId) : TermM Unit := do
  let s ← get
  let indices := sortDedup (arrays.flatMap fun array => (s.arrayReads array).getD [])
  each (fun array => each (fun index => do let _ ← select depth array index) indices) arrays

/-- The sort is an array sort. -/
def isArray : Option SmtSort → Bool
  | some (.array _) => true
  | _ => false

/-- The results of the applications that return arrays, by function. -/
def applicationGroups (s : TermStore) : List (List TermId) :=
  let returning := s.applications.filter fun application => isArray (s.sort? application.result)
  (returning.map Application.function).dedup.map fun function =>
    (returning.filter fun application => decide (application.function = function)).map
      Application.result

/-- One round of `prepare_arrays`.  `arrange` is the order in which the hash map of the groups is
gone through. -/
def prepareArraysRound (arrange : List (List TermId) → List (List TermId)) (depth : ℕ) :
    TermM Unit := do
  let s ← get
  each (fun equality => shareArrayReads depth [equality.left, equality.right])
    (s.theoryEqualities.filter fun equality => isArray (s.sort? equality.left))
  let s ← get
  each (fun item => shareArrayReads depth [item.result, item.thenTerm, item.elseTerm])
    (s.ufItes.filter fun item => isArray (s.sort? item.result))
  let s ← get
  each (shareArrayReads depth) (arrange (applicationGroups s))

/-- `prepare_arrays`, for at most the given number of rounds. -/
def prepareArrays (arrange : List (List TermId) → List (List TermId)) (depth : ℕ) :
    ℕ → TermM Unit
  | 0 => fail "array preparation does not end"
  | rounds + 1 => do
    let before := (← get).applications.length
    prepareArraysRound arrange depth
    if (← get).applications.length = before then pure ()
    else prepareArrays arrange depth rounds

/-! ### Checkpoints -/

/-- `TermStoreCheckpoint`. -/
structure Checkpoint where
  nodes : ℕ
  sorts : ℕ
  nextSymbol : ℕ
  nextUninterpretedSort : ℕ
  nextUninterpretedValue : ℕ
  functions : ℕ
  applications : ℕ
  theoryEqualities : ℕ
  ufItes : ℕ
  arithmeticExpressions : ℕ
  arithmeticVariableSorts : ℕ
  arithmeticPredicates : ℕ
  arithmeticItes : ℕ
  arraySorts : ℕ
  arrayAxioms : ℕ
  arraySemanticSelectLog : ℕ
  arrayReadLog : ℕ

namespace TermStore

/-- `checkpoint`. -/
def checkpoint (s : TermStore) : Checkpoint where
  nodes := s.nodes.length
  sorts := s.sorts.length
  nextSymbol := s.nextSymbol
  nextUninterpretedSort := s.nextUninterpretedSort
  nextUninterpretedValue := s.nextUninterpretedValue
  functions := s.functions.length
  applications := s.applications.length
  theoryEqualities := s.theoryEqualities.length
  ufItes := s.ufItes.length
  arithmeticExpressions := s.arithmeticExpressions.length
  arithmeticVariableSorts := s.arithmeticVariableSorts.length
  arithmeticPredicates := s.arithmeticPredicates.length
  arithmeticItes := s.arithmeticItes.length
  arraySorts := s.arraySorts.length
  arrayAxioms := s.arrayAxioms.length
  arraySemanticSelectLog := s.arraySemanticSelectLog.length
  arrayReadLog := s.arrayReadLog.length

end TermStore

/-- `while table.len() > length`: the entries are popped from the end and each is undone, `none`
where an expectation or a debug assertion of the source fails. -/
def unwind {α σ : Type} (undo : α → σ → Option σ) (table : List α) (length : ℕ) (index : σ) :
    Option σ :=
  (table.drop length).reverse.foldlM (fun index entry => undo entry index) index

/-- Remove a key; the source asserts that it was there. -/
def removeKey {κ ν : Type} [DecidableEq κ] (key : κ) (index : κ → Option ν) :
    Option (κ → Option ν) :=
  if (index key).isSome then some (Function.update index key none) else none

namespace TermStore

/-- The reads of an array lose the last one. -/
def undoRead (entry : TermId × TermId) (reads : TermId → Option (List TermId)) :
    Option (TermId → Option (List TermId)) :=
  match reads entry.1 with
  | none => none
  | some indices =>
    if indices.getLast? ≠ some entry.2 then none
    else if indices.dropLast.isEmpty then some (Function.update reads entry.1 none)
    else some (Function.update reads entry.1 (some indices.dropLast))

/-- The index maps of the applications. -/
abbrev ApplicationMaps :=
  (FunctionId × List TermId → Option TermId) × (TermId → Option ℕ) ×
    (TermId → Option (TermId × ℕ))

/-- The bits of a popped application are forgotten. -/
def undoBits (s : TermStore) (result : TermId) (byBit : TermId → Option (TermId × ℕ)) :
    Option (TermId → Option (TermId × ℕ)) :=
  match s.sort? result with
  | some (.bitVec _) =>
    match s.bits? result with
    | none => none
    | some bits => bits.foldlM (fun index bit => removeKey bit index) byBit
  | _ => some byBit

/-- An application is popped. -/
def undoApplication (s : TermStore) (application : Application) (maps : ApplicationMaps) :
    Option ApplicationMaps := do
  let byBit ← s.undoBits application.result maps.2.2
  if maps.1 (application.function, application.arguments) ≠ some application.result then none
  else
    let byResult ← removeKey application.result maps.2.1
    some (Function.update maps.1 (application.function, application.arguments) none, byResult, byBit)

/-- An arithmetic `ite` is popped. -/
def undoArithmeticIte (s : TermStore) (item : ArithmeticIte)
    (index : TermId × TermId × TermId × SmtSort → Option TermId) :
    Option (TermId × TermId × TermId × SmtSort → Option TermId) := do
  let sort ← s.sort? item.result
  removeKey (item.condition, item.thenTerm, item.elseTerm, sort) index

/-- `rollback`; `none` where the source panics. -/
def rollback (s : TermStore) (checkpoint : Checkpoint) : Option TermStore := do
  let arrayReads ← unwind undoRead s.arrayReadLog checkpoint.arrayReadLog s.arrayReads
  let arraySemanticSelects ← unwind removeKey s.arraySemanticSelectLog
    checkpoint.arraySemanticSelectLog s.arraySemanticSelects
  let arraySortIds ← unwind (fun signature : ArraySignature =>
    removeKey (signature.index, signature.element)) s.arraySorts checkpoint.arraySorts s.arraySortIds
  let arithmeticIteTerms ← unwind s.undoArithmeticIte s.arithmeticItes checkpoint.arithmeticItes
    s.arithmeticIteTerms
  let arithmeticPredicateTerms ← unwind (fun predicate : ArithmeticPredicate =>
    removeKey (predicate.expression, predicate.strict)) s.arithmeticPredicates
    checkpoint.arithmeticPredicates s.arithmeticPredicateTerms
  let arithmeticExpressionIds ← unwind removeKey s.arithmeticExpressions
    checkpoint.arithmeticExpressions s.arithmeticExpressionIds
  let theoryEqualityTerms ← unwind (fun equality : TheoryEquality =>
    removeKey (orderedPair equality.left equality.right)) s.theoryEqualities
    checkpoint.theoryEqualities s.theoryEqualityTerms
  let (applicationResults, applicationByResult, applicationByBit) ←
    unwind s.undoApplication s.applications checkpoint.applications
      (s.applicationResults, s.applicationByResult, s.applicationByBit)
  let interned ← unwind removeKey s.nodes checkpoint.nodes s.interned
  let sortIds ← unwind removeKey s.sorts checkpoint.sorts s.sortIds
  some {
    nodes := s.nodes.take checkpoint.nodes
    interned := interned
    sorts := s.sorts.take checkpoint.sorts
    sortIds := sortIds
    nextSymbol := checkpoint.nextSymbol
    nextUninterpretedSort := checkpoint.nextUninterpretedSort
    nextUninterpretedValue := checkpoint.nextUninterpretedValue
    functions := s.functions.take checkpoint.functions
    applications := s.applications.take checkpoint.applications
    applicationResults := applicationResults
    applicationByResult := applicationByResult
    applicationByBit := applicationByBit
    theoryEqualities := s.theoryEqualities.take checkpoint.theoryEqualities
    theoryEqualityTerms := theoryEqualityTerms
    ufItes := s.ufItes.take checkpoint.ufItes
    arithmeticExpressions := s.arithmeticExpressions.take checkpoint.arithmeticExpressions
    arithmeticExpressionIds := arithmeticExpressionIds
    arithmeticVariableSorts := s.arithmeticVariableSorts.take checkpoint.arithmeticVariableSorts
    arithmeticPredicates := s.arithmeticPredicates.take checkpoint.arithmeticPredicates
    arithmeticPredicateTerms := arithmeticPredicateTerms
    arithmeticItes := s.arithmeticItes.take checkpoint.arithmeticItes
    arithmeticIteTerms := arithmeticIteTerms
    arraySorts := s.arraySorts.take checkpoint.arraySorts
    arraySortIds := arraySortIds
    arrayAxioms := s.arrayAxioms.take checkpoint.arrayAxioms
    arraySemanticSelects := arraySemanticSelects
    arraySemanticSelectLog := s.arraySemanticSelectLog.take checkpoint.arraySemanticSelectLog
    arrayReads := arrayReads
    arrayReadLog := s.arrayReadLog.take checkpoint.arrayReadLog }

end TermStore

end Satrap.Smt
