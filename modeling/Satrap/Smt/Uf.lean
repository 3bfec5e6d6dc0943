/-
# Equality with uninterpreted functions

The theory of `uf.rs`: what of the term store matters for the roots, the terms whose values the
SAT solver has to fix, and the check of a complete assignment by congruence closure.  Hash maps and
sets are functions and lists.  The check has no result where the source panics or does not end.
-/
import Satrap.Logic.Merging
import Satrap.Smt.TypedStores
import Satrap.Smt.Validation

namespace Satrap.Smt

open Logic TermStore TermM

/-! ### Lemmas and checks of theories -/

/-- `SignedTerm`. -/
structure SignedTerm where
  term : TermId
  positive : Bool
deriving DecidableEq

namespace SignedTerm

/-- `SignedTerm::positive`. -/
def asserted (term : TermId) : SignedTerm := ⟨term, true⟩

/-- `negate`. -/
def negate (literal : SignedTerm) : SignedTerm := ⟨literal.term, !literal.positive⟩

end SignedTerm

/-- `TheoryLemma`. -/
structure TheoryLemma where
  literals : List SignedTerm

/-- `TheoryCheck`; the reason of `Unknown` is always the incompleteness of a theory. -/
inductive TheoryCheck (μ : Type) where
  | consistent (model : μ)
  | conflict (clause : TheoryLemma)
  | unknown

/-- The assignments of a theory with its trail, which `UfTheory` and `ArithmeticTheory` both have. -/
structure TheoryTrail where
  assignments : TermId → Option Bool
  levels : List ℕ
  trail : List (TermId × Option Bool)

namespace TheoryTrail

/-- `begin_check`. -/
def beginCheck : TheoryTrail := ⟨fun _ => none, [], []⟩

/-- `push_level`. -/
def pushLevel (t : TheoryTrail) : TheoryTrail := { t with levels := t.levels ++ [t.trail.length] }

/-- `notify_assignment`. -/
def notifyAssignment (t : TheoryTrail) (literal : SignedTerm) : TheoryTrail :=
  { t with
    assignments := Function.update t.assignments literal.term (some literal.positive)
    trail := t.trail ++ [(literal.term, t.assignments literal.term)] }

/-- The last entry of the trail is undone. -/
def undo (entry : TermId × Option Bool) (assignments : TermId → Option Bool) :
    TermId → Option Bool := Function.update assignments entry.1 entry.2

/-- `backtrack`. -/
def backtrack (t : TheoryTrail) (level : ℕ) : TheoryTrail :=
  let target := if level = 0 then 0 else (t.levels[level - 1]?).getD t.trail.length
  { assignments := (t.trail.drop target).foldr undo t.assignments
    levels := t.levels.take level
    trail := t.trail.take target }

/-- `value`. -/
def value (t : TheoryTrail) (term : TermId) : Bool := (t.assignments term).getD false

end TheoryTrail

/-! ### The partition of the terms -/

/-- `Closure`. -/
structure Closure where
  terms : List TermId
  merging : Merging SignedTerm

namespace Closure

/-- `Closure::new`. -/
def new (terms : List TermId) : Closure := ⟨terms, .discrete terms.length⟩

/-- `self.indices[&term]`. -/
def index (c : Closure) (term : TermId) : Option ℕ := c.terms.idxOf? term

/-- `class`. -/
def root (c : Closure) (term : TermId) : Option ℕ := do c.merging.find (← c.index term)

/-- `equivalent`. -/
def equivalent (c : Closure) (left right : TermId) : Option Bool := do
  let left ← c.root left
  let right ← c.root right
  some (decide (left = right))

/-- `union`, with ranks of eight bits. -/
def union (c : Closure) (left right : TermId) (reason : List SignedTerm) :
    Option (Bool × Closure) := do
  let left ← c.index left
  let right ← c.index right
  let (changed, merging) ← c.merging.union 255 left right reason
  some (changed, { c with merging })

/-- `explain`. -/
def explain (c : Closure) (left right : TermId) : Option (List SignedTerm) :=
  if left = right then some []
  else do
    let left ← c.index left
    let right ← c.index right
    c.merging.explain left right

end Closure

/-- `UfModel`. -/
structure UfModel where
  values : TermId → Option ℕ
  relevantApplications : List TermId

/-- The state of `Closure::model`. -/
structure Numbering where
  classValues : SmtSort × ℕ → Option ℕ
  nextBySort : SmtSort → ℕ
  values : TermId → Option ℕ

namespace Closure

/-- A turn of the loop of `model`. -/
def number (s : TermStore) (c : Closure) (numbering : Numbering) (entry : TermId × ℕ) :
    Option Numbering := do
  let sort ← s.sort? entry.1
  if !sort.isAbstract then some numbering
  else
    let root ← c.merging.find entry.2
    match numbering.classValues (sort, root) with
    | some value =>
      some { numbering with values := Function.update numbering.values entry.1 (some value) }
    | none =>
      let value := numbering.nextBySort sort
      some {
        classValues := Function.update numbering.classValues (sort, root) (some value)
        nextBySort := Function.update numbering.nextBySort sort (min (maxIndex - 1) (value + 1))
        values := Function.update numbering.values entry.1 (some value) }

/-- `model`. -/
def model (s : TermStore) (c : Closure) : Option UfModel := do
  let numbering ← c.terms.zipIdx.foldlM (number s c) ⟨fun _ => none, fun _ => 0, fun _ => none⟩
  some ⟨numbering.values, []⟩

end Closure

/-! ### The theory -/

/-- `UfTheory`. -/
structure UfTheory extends TheoryTrail where
  required : List TermId
  sharedArithmeticTerms : List TermId
  sharedArithmeticEqualities : List TheoryEquality
  sharedArithmeticEqualityTerms : TermId × TermId → Option TermId
  relevantApplications : List ℕ
  relevantTheoryEqualities : List ℕ
  relevantUfItes : List ℕ

/-! ### What matters for the roots -/

/-- The sets of `compute_uf_relevance`. -/
structure Marked where
  boolean : List TermId
  arithmetic : List ℕ
  abstractTerms : List TermId
  applications : List ℕ
  ufItes : List ℕ

/-- `UfRelevance`. -/
structure UfRelevance where
  applications : List ℕ
  theoryEqualities : List ℕ
  ufItes : List ℕ

namespace Marked

/-- The sizes of the sets. -/
def sizes (m : Marked) : ℕ × ℕ × ℕ × ℕ × ℕ :=
  (m.boolean.length, m.arithmetic.length, m.abstractTerms.length, m.applications.length,
    m.ufItes.length)

end Marked

section Relevance

variable (terms : TermStore)

/-- `mark_relevant_value`. -/
def markRelevantValue (m : Marked) (term : TermId) : Validated Marked := do
  match ← reading terms (sortOf term) with
  | .bool => do
    let reachable ← reachableBooleanTerms terms [term]
    pure { m with boolean := reachable ∪ m.boolean }
  | .bitVec _ => do
    let bits ← reading terms (bitvecBits term)
    let reachable ← reachableBooleanTerms terms bits
    pure { m with boolean := reachable ∪ m.boolean }
  | .int | .real => do
    let e ← reading terms (arithmeticExpressionForTerm term)
    pure { m with arithmetic := e.coefficients.map Prod.fst ∪ m.arithmetic }
  | .uninterpreted _ | .array _ => pure { m with abstractTerms := [term] ∪ m.abstractTerms }

/-- `relevant_value`. -/
def relevantValue (m : Marked) (term : TermId) : Validated Bool := do
  match ← reading terms (sortOf term) with
  | .bool => pure (decide (term ∈ m.boolean))
  | .bitVec _ => do
    let bits ← reading terms (bitvecBits term)
    pure (bits.any fun bit => decide (bit ∈ m.boolean))
  | .int | .real => do
    let e ← reading terms (arithmeticExpressionForTerm term)
    pure (e.coefficients.any fun entry => decide (entry.1 ∈ m.arithmetic))
  | .uninterpreted _ | .array _ => pure (decide (term ∈ m.abstractTerms))

/-- A predicate marks its variables. -/
def markPredicate (m : Marked) (predicate : ArithmeticPredicate) : Validated Marked :=
  if predicate.term ∉ m.boolean then pure m
  else do
    let e ← reading terms (arithmeticExpression predicate.expression)
    pure { m with arithmetic := e.coefficients.map Prod.fst ∪ m.arithmetic }

/-- An equality marks its sides. -/
def markEquality (m : Marked) (equality : TheoryEquality) : Validated Marked :=
  if equality.term ∉ m.boolean then pure m
  else do
    let m ← markRelevantValue terms m equality.left
    markRelevantValue terms m equality.right

/-- An abstract term marks its parts. -/
def markParts (m : Marked) (term : TermId) : Validated Marked :=
  match (terms.node term).kind with
  | .arrayConst value => markRelevantValue terms m value
  | .arrayStore base index value => [base, index, value].foldlM (markRelevantValue terms) m
  | .ufApplication _ arguments => arguments.foldlM (markRelevantValue terms) m
  | _ => pure m

/-- A conditional marks its condition and its branches. -/
def markUfIte (m : Marked) (entry : UfIte × ℕ) : Validated Marked :=
  if entry.1.result ∉ m.abstractTerms then pure m
  else do
    let reachable ← reachableBooleanTerms terms [entry.1.condition]
    [entry.1.thenTerm, entry.1.elseTerm].foldlM (markRelevantValue terms)
      { m with ufItes := [entry.2] ∪ m.ufItes, boolean := reachable ∪ m.boolean }

/-- An application marks its arguments. -/
def markApplication (m : Marked) (entry : Application × ℕ) : Validated Marked :=
  if entry.2 ∈ m.applications then pure m
  else do
    let relevant ← relevantValue terms m entry.1.result
    if !relevant then pure m
    else
      let m := { m with applications := [entry.2] ∪ m.applications }
      entry.1.arguments.foldlM (markRelevantValue terms) m

/-- A turn of the loop of `compute_uf_relevance`. -/
def markRound (m : Marked) : Validated Marked := do
  let m ← terms.arithmeticPredicates.foldlM (markPredicate terms) m
  let m ← terms.theoryEqualities.foldlM (markEquality terms) m
  let m ← m.abstractTerms.foldlM (markParts terms) m
  let m ← terms.ufItes.zipIdx.foldlM (markUfIte terms) m
  terms.applications.zipIdx.foldlM (markApplication terms) m

/-- The loop, for at most the given number of turns. -/
def markLoop : ℕ → Marked → Validated Marked
  | 0, _ => (none : Option _)
  | rounds + 1, m => do
    let next ← markRound terms m
    if next.sizes = m.sizes then pure next else markLoop rounds next

/-- `sort_unstable` of the places in a set. -/
def sortPlaces (places : List ℕ) : List ℕ := places.insertionSort (· ≤ ·)

/-- `compute_uf_relevance`. -/
def computeUfRelevance (rounds : ℕ) (roots : List TermId) : Validated UfRelevance := do
  let boolean ← terms.arrayAxioms.foldlM (fun boolean axiomTerm => do
    pure ((← reachableBooleanTerms terms [axiomTerm]) ∪ boolean)) roots
  let m ← markLoop terms rounds ⟨boolean, [], [], [], []⟩
  pure {
    applications := sortPlaces m.applications
    theoryEqualities := (terms.theoryEqualities.zipIdx.filter fun entry =>
      decide (entry.1.term ∈ m.boolean)).map Prod.snd
    ufItes := sortPlaces m.ufItes }

end Relevance

/-- `select_array_sort`. -/
def TermStore.selectArraySort (s : TermStore) (function : FunctionId) : Option ArraySortId :=
  s.arraySorts.findIdx? fun signature => decide (signature.selectFunction = function)

/-- The entries of a table at the given places, `none` where the source panics. -/
def entriesAt {α : Type} (table : List α) (places : List ℕ) : Option (List α) :=
  places.mapM fun place => table[place]?

/-- The pairs of entries, each with the ones after it. -/
def laterPairs {α : Type} : List α → List (α × α)
  | [] => []
  | first :: rest => rest.map (fun other => (first, other)) ++ laterPairs rest

/-- The equalities of two array arguments. -/
def equateArrayArguments (depth : ℕ) (pair : Application × Application) : TermM Unit := do
  let s ← get
  if pair.1.function ≠ pair.2.function ∨ (s.selectArraySort pair.1.function).isSome then pure ()
  else
    let signature ← okOr "function does not belong to this term store" s.functions[pair.1.function]?
    each (fun entry : (TermId × TermId) × SmtSort =>
      if isArray (some entry.2) ∧ entry.1.1 ≠ entry.1.2 then do
        let _ ← equivalent depth entry.1.1 entry.1.2
        pure ()
      else pure ()) ((pair.1.arguments.zip pair.2.arguments).zip signature.domain)

/-- `ensure_array_argument_equalities`, on the relevant applications. -/
def ensureArrayArgumentEqualities (depth : ℕ) (applications : List Application) : TermM Bool := do
  let before := (← get).theoryEqualities.length
  each (equateArrayArguments depth) (laterPairs applications)
  pure (decide ((← get).theoryEqualities.length ≠ before))

/-! ### Preparation -/

/-- An operation on the store that may also panic, or not end within the turns it is given. -/
def Preparation (α : Type) : Type := TermStore → Option (Except TermError α × TermStore)

namespace Preparation

variable {α β : Type}

instance : Monad Preparation where
  pure a s := some (.ok a, s)
  bind x f s :=
    match x s with
    | some (.ok a, s) => f a s
    | some (.error e, s) => some (.error e, s)
    | none => none

/-- An operation that does not panic. -/
def run (x : TermM α) : Preparation α := fun s => some (x s)

/-- A reading of the store, whose only errors are those of terms. -/
def read (x : TermStore → Validated α) : Preparation α := fun s =>
  match x s with
  | some (.ok a) => some (.ok a, s)
  | some (.error (.term e)) => some (.error e, s)
  | _ => none

/-- A part of the store that is expected to be there. -/
def expect (x : TermStore → Option α) : Preparation α := fun s => (x s).map fun a => (.ok a, s)

end Preparation

open Preparation

/-- An application with the signature of its function. -/
def signedApplication (application : Application) : TermM (Application × FunctionSignature) := do
  let signature ← okOr "function does not belong to this term store"
    (← get).functions[application.function]?
  pure (application, signature)

/-- The arguments and the result of an application with their sorts. -/
def sortedTerms (entry : Application × FunctionSignature) : List (TermId × SmtSort) :=
  entry.1.arguments.zip entry.2.domain ++ [(entry.1.result, entry.2.range)]

/-- The pairs of the arguments and of the results of two applications, with their sorts. -/
def sortedPairs (pair : (Application × FunctionSignature) × (Application × FunctionSignature)) :
    List ((TermId × TermId) × SmtSort) :=
  (pair.1.1.arguments.zip pair.2.1.arguments).zip pair.1.2.domain ++
    [((pair.1.1.result, pair.2.1.result), pair.1.2.range)]

/-- `require_lowered_value`. -/
def requireLoweredValue (required : List TermId) (entry : TermId × SmtSort) :
    TermM (List TermId) :=
  match entry.2 with
  | .bool => pure (required ++ [entry.1])
  | .bitVec _ => do pure (required ++ (← bitvecBits entry.1))
  | _ => pure required

/-- The values that have to be fixed for the applications of functions with more than one. -/
def requireLowered (applications : List (Application × FunctionSignature)) :
    TermM (List TermId) :=
  loop requireLoweredValue [] ((applications.filter fun entry =>
    decide (2 ≤ applications.countP fun other => decide (other.1.function = entry.1.function))).flatMap
      sortedTerms)

/-- The arithmetic arguments and results. -/
def sharedTerms (applications : List (Application × FunctionSignature)) : List TermId :=
  sortDedup ((applications.flatMap sortedTerms).filterMap fun entry =>
    if entry.2.isArithmetic then some entry.1 else none)

/-- `sort_unstable` of a set of pairs. -/
def sortPairs (pairs : List (TermId × TermId)) : List (TermId × TermId) :=
  (pairs.insertionSort fun a b => a.1 < b.1 ∨ a.1 = b.1 ∧ a.2 ≤ b.2).dedup

/-- The pairs of arithmetic terms that two applications of one function compare. -/
def sharedPairs (applications : List (Application × FunctionSignature)) : List (TermId × TermId) :=
  sortPairs (((laterPairs applications).filter fun pair =>
    decide (pair.1.1.function = pair.2.1.function)).flatMap fun pair =>
      (sortedPairs pair).filterMap fun entry =>
        if entry.2.isArithmetic && decide (entry.1.1 ≠ entry.1.2) then
          some (orderedPair entry.1.1 entry.1.2)
        else none)

/-- The equality of a shared pair. -/
def shareEquality (depth : ℕ) (pair : TermId × TermId) : TermM TheoryEquality := do
  let term ← equivalent depth pair.1 pair.2
  pure ⟨term, pair.1, pair.2⟩

namespace UfTheory

/-- The loop of `prepare`, for at most the given number of turns. -/
def prepareRelevance (arrange : List (List TermId) → List (List TermId)) (depth : ℕ)
    (relevant : List TermId) : ℕ → Preparation UfRelevance
  | 0 => fun _ => none
  | rounds + 1 => do
    run (prepareArrays arrange depth rounds)
    let relevance ← read fun s => computeUfRelevance s rounds relevant
    let applications ← expect fun s => entriesAt s.applications relevance.applications
    if ← run (ensureArrayArgumentEqualities depth applications) then
      prepareRelevance arrange depth relevant rounds
    else pure relevance

/-- `prepare`; the assignments of a theory are not touched. -/
def prepare (arrange : List (List TermId) → List (List TermId)) (depth rounds : ℕ)
    (trail : TheoryTrail) (relevant : List TermId) : Preparation UfTheory := do
  let relevance ← prepareRelevance arrange depth relevant rounds
  let applications ← expect fun s => entriesAt s.applications relevance.applications
  let applications ← run (collect signedApplication applications)
  let lowered ← run (requireLowered applications)
  let sharedEqualities ← run (collect (shareEquality depth) (sharedPairs applications))
  let equalities ← expect fun s => entriesAt s.theoryEqualities relevance.theoryEqualities
  let items ← expect fun s => entriesAt s.ufItes relevance.ufItes
  let s ← run get
  pure { trail with
    required := sortDedup (lowered ++ sharedEqualities.map TheoryEquality.term ++
      equalities.map TheoryEquality.term ++ items.map UfIte.condition ++ s.arrayAxioms)
    sharedArithmeticTerms := sharedTerms applications
    sharedArithmeticEqualities := sharedEqualities
    sharedArithmeticEqualityTerms := fun pair =>
      (sharedEqualities.find? fun equality => decide ((equality.left, equality.right) = pair)).map
        TheoryEquality.term
    relevantApplications := relevance.applications
    relevantTheoryEqualities := relevance.theoryEqualities
    relevantUfItes := relevance.ufItes }

end UfTheory

/-! ### The check -/

/-- `ArgumentValue`. -/
inductive ArgumentValue where
  | abstract (root : ℕ)
  | bool (value : Bool)
  | bitVec (bits : List Bool)
deriving DecidableEq

/-- `CongruenceKey`. -/
structure CongruenceKey where
  function : FunctionId
  arguments : List ArgumentValue
deriving DecidableEq

/-- `conflict_lemma`. -/
def conflictLemma (explanation : List SignedTerm) (consequence : SignedTerm) : TheoryLemma :=
  ⟨(explanation.eraseDups.map SignedTerm.negate ++ [consequence]).eraseDups⟩

/-- `lowered_bits`. -/
def loweredBits (s : TermStore) (term : TermId) : SmtSort → Option (List TermId)
  | .bool => some [term]
  | .bitVec _ => s.bits? term
  | .int | .real => none
  | .uninterpreted _ | .array _ => some []

namespace UfTheory

section Check

variable (s : TermStore) (th : UfTheory)

/-- The value of an argument in `congruence_key`. -/
def argumentValue (c : Closure) (argument : TermId × SmtSort) : Option ArgumentValue :=
  match argument.2 with
  | .bool => some (.bool (th.value argument.1))
  | .bitVec _ => (s.bits? argument.1).map fun bits => .bitVec (bits.map th.value)
  | _ => (c.root argument.1).map .abstract

/-- `congruence_key`. -/
def congruenceKey (c : Closure) (application : Application) (domain : List SmtSort) :
    Option CongruenceKey := do
  let arguments ← (application.arguments.zip domain).mapM (th.argumentValue s c)
  some ⟨application.function, arguments⟩

/-- The literals that fix two lists of bits, if they have the same values. -/
def bitReasons : List (TermId × TermId) → Option (List SignedTerm)
  | [] => some []
  | (left, right) :: rest =>
    if th.value left ≠ th.value right then none
    else do
      let reasons ← bitReasons rest
      some (⟨left, th.value left⟩ :: ⟨right, th.value right⟩ :: reasons)

/-- The reasons for the equality of two arguments, if they are equal. -/
def argumentReason (c : Closure) (left right : TermId) (sort : SmtSort) :
    Option (List SignedTerm) :=
  match sort with
  | .bool | .bitVec _ => do
    let leftBits ← loweredBits s left sort
    let rightBits ← loweredBits s right sort
    th.bitReasons (leftBits.zip rightBits)
  | _ => do
    if ← c.equivalent left right then c.explain left right else none

/-- `congruence_reason`, which the check expects to return a reason. -/
def congruenceReason (c : Closure) (left right : Application) (domain : List SmtSort) :
    Option (List SignedTerm) := do
  let reasons ← ((left.arguments.zip right.arguments).zip domain).mapM fun entry =>
    th.argumentReason s c entry.1.1 entry.1.2 entry.2
  some reasons.flatten.eraseDups

/-- The conflict at the first bits that differ. -/
def bitConflict (reason : List SignedTerm) : List (TermId × TermId) → Option TheoryLemma
  | [] => none
  | (left, right) :: rest =>
    if th.value left ≠ th.value right then
      some (conflictLemma (reason ++ [⟨right, th.value right⟩]) ⟨left, th.value right⟩)
    else bitConflict reason rest

/-- `lowered_result_conflict`. -/
def loweredResultConflict (left right : TermId) (range : SmtSort) (reason : List SignedTerm) :
    Option (Option TheoryLemma) :=
  if range.isArithmetic then
    if left = right then some none
    else do
      let equality ← th.sharedArithmeticEqualityTerms (orderedPair left right)
      if th.value equality then some none
      else some (some (conflictLemma reason (.asserted equality)))
  else do
    let leftBits ← loweredBits s left range
    let rightBits ← loweredBits s right range
    some (th.bitConflict reason (leftBits.zip rightBits))

/-- The state of a pass over the relevant applications: whether it has merged classes, the first
application with each key, and the partition. -/
structure Pass where
  changed : Bool
  representatives : CongruenceKey → Option ℕ
  closure : Closure

/-- A turn of a pass. -/
def congruenceStep (pass : Pass) (index : ℕ) : Option (Except TheoryLemma Pass) := do
  let right ← s.applications[index]?
  let signature ← s.functions[right.function]?
  let key ← th.congruenceKey s pass.closure right signature.domain
  match pass.representatives key with
  | none => some (.ok { pass with
      representatives := Function.update pass.representatives key (some index) })
  | some leftIndex =>
    let left ← s.applications[leftIndex]?
    let reason ← th.congruenceReason s pass.closure left right signature.domain
    if signature.range.isAbstract then
      let (changed, closure) ← pass.closure.union left.result right.result reason
      some (.ok { pass with changed := pass.changed || changed, closure })
    else
      match ← th.loweredResultConflict s left.result right.result signature.range reason with
      | some conflict => some (.error conflict)
      | none => some (.ok pass)

/-- A pass, up to the first conflict. -/
def congruencePass : List ℕ → Pass → Option (Except TheoryLemma Pass)
  | [], pass => some (.ok pass)
  | index :: rest, pass => do
    match ← th.congruenceStep s pass index with
    | .error conflict => some (.error conflict)
    | .ok pass => congruencePass rest pass

/-- Passes until one merges nothing, for at most the given number of passes. -/
def congruenceLoop : ℕ → Closure → Option (Except TheoryLemma Closure)
  | 0, _ => none
  | passes + 1, closure => do
    match ← th.congruencePass s th.relevantApplications ⟨false, fun _ => none, closure⟩ with
    | .error conflict => some (.error conflict)
    | .ok pass => if pass.changed then congruenceLoop passes pass.closure else some (.ok pass.closure)

/-- Equalities that are true merge their sides. -/
def assertEqualities : List TheoryEquality → Closure → Option Closure
  | [], c => some c
  | equality :: rest, c =>
    if th.value equality.term then do
      let (_, c) ← c.union equality.left equality.right [.asserted equality.term]
      assertEqualities rest c
    else assertEqualities rest c

/-- Every conditional is merged with the branch that its condition selects. -/
def assertUfItes : List UfIte → Closure → Option Closure
  | [], c => some c
  | item :: rest, c => do
    let condition := th.value item.condition
    let (_, c) ← c.union item.result (if condition then item.thenTerm else item.elseTerm)
      [⟨item.condition, condition⟩]
    assertUfItes rest c

/-- The first equality that is false although its sides are in one class. -/
def deniedEquality (c : Closure) : List TheoryEquality → Option (Option TheoryLemma)
  | [] => some none
  | equality :: rest =>
    if th.value equality.term then deniedEquality c rest
    else do
      if ← c.equivalent equality.left equality.right then
        let reason ← c.explain equality.left equality.right
        some (some (conflictLemma reason (.asserted equality.term)))
      else deniedEquality c rest

/-- The terms of the partition: the abstract terms of the store and the shared arithmetic terms. -/
def closureTerms : List TermId :=
  sortDedup (((List.range s.nodes.length).filter fun term =>
    ((s.sort? term).map SmtSort.isAbstract).getD false) ++ th.sharedArithmeticTerms)

/-- `final_check`. -/
def finalCheck : Option (TheoryCheck UfModel) :=
  match s.arrayAxioms.find? fun term => !th.value term with
  | some axiomTerm => some (.conflict ⟨[.asserted axiomTerm]⟩)
  | none => do
    let equalities ← entriesAt s.theoryEqualities th.relevantTheoryEqualities
    let items ← entriesAt s.ufItes th.relevantUfItes
    let c := Closure.new (th.closureTerms s)
    let c ← th.assertEqualities equalities c
    let c ← th.assertEqualities th.sharedArithmeticEqualities c
    let c ← th.assertUfItes items c
    match ← th.congruenceLoop s (c.terms.length + 1) c with
    | .error conflict => some (.conflict conflict)
    | .ok c => do
      match ← th.deniedEquality c equalities with
      | some conflict => some (.conflict conflict)
      | none =>
        match ← th.deniedEquality c th.sharedArithmeticEqualities with
        | some conflict => some (.conflict conflict)
        | none => do
          let model ← c.model s
          let applications ← entriesAt s.applications th.relevantApplications
          some (.consistent { model with
            relevantApplications := applications.map Application.result })

end Check

end UfTheory

end Satrap.Smt
