/-
# The invariant of the term store

`TermStore.Ok` says that every table agrees with its index maps and that the terms are well
typed: the members of a Boolean connective or a word are older Boolean terms.  An operation only
ever adds to the tables (`TermStore.Extends`).  `Spec` is the triple in which the operations are
specified: whatever its result, an operation keeps the invariant and extends the store.
-/
import Satrap.Logic.Index
import Satrap.Smt.BitVec

namespace Satrap.Smt

open Logic TermM

variable {α β : Type} {s s' : TermStore} {t u : TermId} {n : TermNode}

namespace TermKind

/-- The members of a Boolean connective or a word. -/
def members : TermKind → List TermId
  | not term => [term]
  | and terms | or terms | bitVec terms => terms
  | xor left right | iff left right => [left, right]
  | ite condition thenTerm elseTerm => [condition, thenTerm, elseTerm]
  | _ => []

end TermKind

namespace TermStore

/-! ### The invariant -/

/-- The term is a term of the store, of sort `Bool`. -/
def IsBool (s : TermStore) (t : TermId) : Prop :=
  ∃ node, s.nodes[t]? = some node ∧ node.sort = boolSort

/-- What holds of the node at an index. -/
structure NodeOk (s : TermStore) (i : ℕ) (node : TermNode) : Prop where
  sort : node.sort < s.sorts.length
  members : ∀ m ∈ node.kind.members, m < i ∧ s.IsBool m
  word : ∀ bits, node.kind = .bitVec bits → bits ≠ [] ∧ bits.length < maxIndex ∧
    s.sorts[node.sort]? = some (.bitVec bits.length)
  bits : ∀ w, s.sorts[node.sort]? = some (.bitVec w) → ∃ bits, node.kind = .bitVec bits
  symbol : ∀ symbol, node.kind = .atom symbol → symbol < s.nextSymbol
  expression : ∀ e, node.kind = .arithmetic e → e < s.arithmeticExpressions.length

/-- What the tables hold for an application. -/
def applicationEntry (a : Application) : (FunctionId × List TermId) × TermId :=
  ((a.function, a.arguments), a.result)

/-- The bits of an application that returns a word. -/
def bitEntries (s : TermStore) (a : Application) : List (TermId × TermId × ℕ) :=
  match s.sort? a.result with
  | some (.bitVec _) => ((s.bits? a.result).getD []).zipIdx.map fun e => (e.1, a.result, e.2)
  | _ => []

def iteEntry (s : TermStore) (item : ArithmeticIte) :
    (TermId × TermId × TermId × SmtSort) × TermId :=
  ((item.condition, item.thenTerm, item.elseTerm, (s.sort? item.result).getD .bool), item.result)

def predicateEntry (p : ArithmeticPredicate) : (ℕ × Bool) × TermId := ((p.expression, p.strict), p.term)

def equalityEntry (e : TheoryEquality) : (TermId × TermId) × TermId := ((e.left, e.right), e.term)

def signatureKey (a : ArraySignature) : SmtSort × SmtSort := (a.index, a.element)

/-- The reads of each array in a log. -/
def readsOf (log : List (TermId × TermId)) (array : TermId) : Option (List TermId) :=
  match (log.filter fun e => decide (e.1 = array)).map Prod.snd with
  | [] => none
  | indices => some indices

/-- What holds of an application. -/
structure ApplicationOk (s : TermStore) (a : Application) : Prop where
  live : a.result < s.nodes.length
  key : ∀ f arguments, (s.node a.result).kind = .ufApplication f arguments →
    f = a.function ∧ arguments = a.arguments

/-- The tables of the term store agree with its terms. -/
structure Consistent (s : TermStore) : Prop where
  first : s.nodes[trueTerm]? = some ⟨boolSort, .bool true⟩
  second : s.nodes[falseTerm]? = some ⟨boolSort, .bool false⟩
  boolean : s.sorts[boolSort]? = some .bool
  nodes : ∀ i node, s.nodes[i]? = some node → s.NodeOk i node
  interned : Indexes s.interned (positions s.nodes)
  sortIds : Indexes s.sortIds (positions s.sorts)
  expressionIds : Indexes s.arithmeticExpressionIds (positions s.arithmeticExpressions)
  bounded : ∀ e ∈ s.arithmeticExpressions, e.2.WellFormed s.arithmeticVariableSorts.length
  predicates : Indexes s.arithmeticPredicateTerms (s.arithmeticPredicates.map predicateEntry)
  ites : Indexes s.arithmeticIteTerms (s.arithmeticItes.map s.iteEntry)
  ites_live : ∀ item ∈ s.arithmeticItes, item.result < s.nodes.length
  arraySortIds : Indexes s.arraySortIds (positions (s.arraySorts.map signatureKey))
  equalities : Indexes s.theoryEqualityTerms (s.theoryEqualities.map equalityEntry)
  ordered : ∀ e ∈ s.theoryEqualities, e.left ≤ e.right
  equality_nodes : ∀ e ∈ s.theoryEqualities, ∃ symbol,
    s.nodes[e.term]? = some ⟨boolSort, .theoryEquality symbol e.left e.right⟩
  predicate_nodes : ∀ p ∈ s.arithmeticPredicates, ∃ symbol,
    s.nodes[p.term]? = some ⟨boolSort, .arithmeticPredicate symbol p.expression p.strict⟩
  ufIte_nodes : ∀ item ∈ s.ufItes, ∃ sort,
    s.nodes[item.result]? = some ⟨sort, .ufIte item.condition item.thenTerm item.elseTerm⟩
  results : Indexes s.applicationResults (s.applications.map applicationEntry)
  byResult : Indexes s.applicationByResult (positions (s.applications.map Application.result))
  byBit : Indexes s.applicationByBit (s.applications.flatMap s.bitEntries)
  applications : ∀ a ∈ s.applications, s.ApplicationOk a
  selects : Indexes s.arraySemanticSelects (s.arraySemanticSelectLog.map fun t => (t, ()))
  reads : s.arrayReads = readsOf s.arrayReadLog
  reads_nodup : s.arrayReadLog.Nodup

/-- The invariant of the term store. -/
structure Ok (s : TermStore) : Prop extends Consistent s where
  recorded : ∀ (t : TermId) node, s.nodes[t]? = some node → ∀ symbol e strict,
    node.kind = .arithmeticPredicate symbol e strict → ⟨t, e, strict⟩ ∈ s.arithmeticPredicates

/-- The tables have only grown. -/
structure Extends (s s' : TermStore) : Prop where
  nodes : s.nodes <+: s'.nodes
  sorts : s.sorts <+: s'.sorts
  functions : s.functions <+: s'.functions
  applications : s.applications <+: s'.applications
  theoryEqualities : s.theoryEqualities <+: s'.theoryEqualities
  ufItes : s.ufItes <+: s'.ufItes
  arithmeticExpressions : s.arithmeticExpressions <+: s'.arithmeticExpressions
  arithmeticVariableSorts : s.arithmeticVariableSorts <+: s'.arithmeticVariableSorts
  arithmeticPredicates : s.arithmeticPredicates <+: s'.arithmeticPredicates
  arithmeticItes : s.arithmeticItes <+: s'.arithmeticItes
  arraySorts : s.arraySorts <+: s'.arraySorts
  arrayAxioms : s.arrayAxioms <+: s'.arrayAxioms
  arraySemanticSelectLog : s.arraySemanticSelectLog <+: s'.arraySemanticSelectLog
  arrayReadLog : s.arrayReadLog <+: s'.arrayReadLog
  nextSymbol : s.nextSymbol ≤ s'.nextSymbol

namespace Extends

lemma refl (s : TermStore) : Extends s s := by constructor <;> simp

lemma trans {s₁ s₂ s₃ : TermStore} (h : Extends s₁ s₂) (h' : Extends s₂ s₃) : Extends s₁ s₃ where
  nodes := h.nodes.trans h'.nodes
  sorts := h.sorts.trans h'.sorts
  functions := h.functions.trans h'.functions
  applications := h.applications.trans h'.applications
  theoryEqualities := h.theoryEqualities.trans h'.theoryEqualities
  ufItes := h.ufItes.trans h'.ufItes
  arithmeticExpressions := h.arithmeticExpressions.trans h'.arithmeticExpressions
  arithmeticVariableSorts := h.arithmeticVariableSorts.trans h'.arithmeticVariableSorts
  arithmeticPredicates := h.arithmeticPredicates.trans h'.arithmeticPredicates
  arithmeticItes := h.arithmeticItes.trans h'.arithmeticItes
  arraySorts := h.arraySorts.trans h'.arraySorts
  arrayAxioms := h.arrayAxioms.trans h'.arrayAxioms
  arraySemanticSelectLog := h.arraySemanticSelectLog.trans h'.arraySemanticSelectLog
  arrayReadLog := h.arrayReadLog.trans h'.arrayReadLog
  nextSymbol := h.nextSymbol.trans h'.nextSymbol

variable (h : Extends s s')
include h

lemma node (hn : s.nodes[t]? = some n) : s'.nodes[t]? = some n := by
  obtain ⟨suffix, hs⟩ := h.nodes
  rw [← hs, List.getElem?_append_left (List.getElem?_eq_some_iff.1 hn).1, hn]

lemma live (ht : t < s.nodes.length) : s'.nodes[t]? = s.nodes[t]? := by
  rw [List.getElem?_eq_getElem ht]
  exact h.node (List.getElem?_eq_getElem ht)

lemma node_eq (ht : t < s.nodes.length) : s'.node t = s.node t := by
  rw [TermStore.node, TermStore.node, List.getD_eq_getElem?_getD, List.getD_eq_getElem?_getD,
    h.live ht]

lemma isBool (ht : s.IsBool t) : s'.IsBool t := by
  obtain ⟨node, hn, hs⟩ := ht
  exact ⟨node, h.node hn, hs⟩

lemma sort {i : ℕ} {sort : SmtSort} (hs : s.sorts[i]? = some sort) : s'.sorts[i]? = some sort := by
  obtain ⟨suffix, he⟩ := h.sorts
  rw [← he, List.getElem?_append_left (List.getElem?_eq_some_iff.1 hs).1, hs]

lemma bits? (ht : t < s.nodes.length) : s'.bits? t = s.bits? t := by
  rw [TermStore.bits?, TermStore.bits?, h.live ht]

lemma nodeOk {i : ℕ} (hn : s.NodeOk i n) : s'.NodeOk i n where
  sort := hn.sort.trans_le h.sorts.length_le
  members m hm := ⟨(hn.members m hm).1, h.isBool (hn.members m hm).2⟩
  word bits hb := by
    obtain ⟨h1, h2, h3⟩ := hn.word bits hb
    exact ⟨h1, h2, h.sort h3⟩
  bits w hw := by
    refine hn.bits w ?_
    rw [List.getElem?_eq_getElem hn.sort, ← h.sort (List.getElem?_eq_getElem hn.sort), hw]
  symbol symbol hs := (hn.symbol symbol hs).trans_le h.nextSymbol
  expression e he := (hn.expression e he).trans_le h.arithmeticExpressions.length_le

end Extends

lemma IsBool.lt (h : s.IsBool t) : t < s.nodes.length := by
  obtain ⟨node, hn, -⟩ := h
  exact (List.getElem?_eq_some_iff.1 hn).1

/-- The store with other terms, sorts and counters. -/
def withTerms (s : TermStore) (nodes : List TermNode) (interned : TermNode → Option TermId)
    (sorts : List SmtSort) (sortIds : SmtSort → Option SortId) (symbol sort value : ℕ) :
    TermStore :=
  { s with
    nodes := nodes, interned := interned, sorts := sorts, sortIds := sortIds, nextSymbol := symbol
    nextUninterpretedSort := sort, nextUninterpretedValue := value }

/-! ### Terms of a store in order -/

namespace Consistent

variable (h : s.Consistent)
include h

lemma isBool_constant (value : Bool) : s.IsBool (boolConstant value) := by
  cases value with
  | true => exact ⟨_, h.first, rfl⟩
  | false => exact ⟨_, h.second, rfl⟩

lemma node_of_lt (ht : t < s.nodes.length) :
    s.nodes[t]? = some (s.node t) ∧ s.NodeOk t (s.node t) := by
  have hn : s.nodes[t]? = some (s.node t) := by
    rw [TermStore.node, List.getD_eq_getElem?_getD, List.getElem?_eq_getElem ht, Option.getD_some]
  exact ⟨hn, h.nodes t _ hn⟩

lemma members_isBool (ht : t < s.nodes.length) {m : TermId} (hm : m ∈ (s.node t).kind.members) :
    m < t ∧ s.IsBool m := (h.node_of_lt ht).2.members m hm

lemma sort?_isBool (ht : s.IsBool t) : s.sort? t = some .bool := by
  obtain ⟨node, hn, hs⟩ := ht
  rw [sort?, hn, Option.map_some, hs, List.getD_eq_getElem?_getD, h.boolean, Option.getD_some]

/-- Extending the store does not change the sort of a term. -/
lemma sort?_extends (he : s.Extends s') (ht : t < s.nodes.length) : s'.sort? t = s.sort? t := by
  obtain ⟨hn, hok⟩ := h.node_of_lt ht
  obtain ⟨sort, hsort⟩ : ∃ sort, s.sorts[(s.node t).sort]? = some sort :=
    ⟨_, List.getElem?_eq_getElem hok.sort⟩
  rw [sort?, sort?, he.node hn, hn]
  simp only [Option.map_some, List.getD_eq_getElem?_getD, hsort, he.sort hsort]

lemma bitEntries_extends (he : s.Extends s') {a : Application} (ha : a.result < s.nodes.length) :
    s'.bitEntries a = s.bitEntries a := by
  rw [bitEntries, bitEntries, h.sort?_extends he ha, he.bits? ha]

lemma iteEntry_extends (he : s.Extends s') {item : ArithmeticIte}
    (hi : item.result < s.nodes.length) : s'.iteEntry item = s.iteEntry item := by
  rw [iteEntry, iteEntry, h.sort?_extends he hi]

lemma applicationOk_extends (he : s.Extends s') {a : Application} (ha : s.ApplicationOk a) :
    s'.ApplicationOk a where
  live := ha.live.trans_le he.nodes.length_le
  key f arguments hk := by
    rw [he.node_eq ha.live] at hk
    exact ha.key f arguments hk

/-- More terms, sorts and symbols. -/
lemma withTerms {nodes : List TermNode} {interned : TermNode → Option TermId}
    {sorts : List SmtSort} {sortIds : SmtSort → Option SortId} {symbol sort value : ℕ}
    (he : s.Extends (s.withTerms nodes interned sorts sortIds symbol sort value))
    (hnodes : ∀ i n, nodes[i]? = some n → s.nodes[i]? = some n ∨
      (s.withTerms nodes interned sorts sortIds symbol sort value).NodeOk i n)
    (hinterned : Indexes interned (positions nodes))
    (hsorts : Indexes sortIds (positions sorts)) :
    (s.withTerms nodes interned sorts sortIds symbol sort value).Consistent := by
  refine ⟨he.node h.first, he.node h.second, he.sort h.boolean, fun i n hn => ?_, hinterned,
    hsorts, h.expressionIds, h.bounded, h.predicates, ?_, ?_, h.arraySortIds, h.equalities,
    h.ordered, ?_, ?_, ?_, h.results, h.byResult, ?_, ?_, h.selects, h.reads, h.reads_nodup⟩
  · rcases hnodes i n hn with hn | hn
    · exact he.nodeOk (h.nodes i n hn)
    · exact hn
  · refine h.ites.congr (List.map_congr_left fun item hi => ?_)
    exact (h.iteEntry_extends he (h.ites_live item hi)).symm
  · exact fun item hi => (h.ites_live item hi).trans_le he.nodes.length_le
  · exact fun e hm => (h.equality_nodes e hm).imp fun _ hn => he.node hn
  · exact fun p hm => (h.predicate_nodes p hm).imp fun _ hn => he.node hn
  · exact fun item hm => (h.ufIte_nodes item hm).imp fun _ hn => he.node hn
  · refine h.byBit.congr (List.flatMap_congr fun a ha => ?_)
    exact (h.bitEntries_extends he (h.applications a ha).live).symm
  · exact fun a ha => h.applicationOk_extends he (h.applications a ha)

end Consistent

/-- More sorts and symbols. -/
lemma Ok.withTerms (h : s.Ok) {sorts : List SmtSort} {sortIds : SmtSort → Option SortId}
    {symbol sort value : ℕ}
    (he : s.Extends (s.withTerms s.nodes s.interned sorts sortIds symbol sort value))
    (hsorts : Indexes sortIds (positions sorts)) :
    (s.withTerms s.nodes s.interned sorts sortIds symbol sort value).Ok where
  toConsistent := h.toConsistent.withTerms he (fun _ _ hn => .inl hn) h.interned hsorts
  recorded := h.recorded

/-- The store with one more term. -/
def withNode (s : TermStore) (node : TermNode) : TermStore :=
  s.withTerms (s.nodes ++ [node]) (Function.update s.interned node (some s.nodes.length)) s.sorts
    s.sortIds s.nextSymbol s.nextUninterpretedSort s.nextUninterpretedValue

lemma getElem?_withNode (s : TermStore) {node : TermNode} {i : ℕ}
    (hi : (s.withNode node).nodes[i]? = some n) :
    s.nodes[i]? = some n ∨ i = s.nodes.length ∧ n = node := by
  change (s.nodes ++ [node])[i]? = some n at hi
  rcases Nat.lt_trichotomy i s.nodes.length with hlt | rfl | hgt
  · left
    rwa [List.getElem?_append_left hlt] at hi
  · right
    exact ⟨rfl, by simpa using hi.symm⟩
  · rw [List.getElem?_eq_none (by simp; omega)] at hi
    cases hi

lemma Consistent.withNode (h : s.Consistent) {node : TermNode}
    (hn : s.NodeOk s.nodes.length node) (hnew : node ∉ s.nodes) :
    s.Extends (s.withNode node) ∧ (s.withNode node).Consistent := by
  have hnone : s.interned node = none :=
    Option.eq_none_iff_forall_ne_some.2 fun t ht =>
      hnew (List.mem_of_getElem? (h.interned.position.1 ht))
  have he : s.Extends (s.withNode node) := by
    constructor <;> simp [TermStore.withNode, TermStore.withTerms]
  refine ⟨he, h.withTerms he (fun i n hi => ?_) (h.interned.pushPosition hnone) h.sortIds⟩
  rcases s.getElem?_withNode hi with hi | ⟨rfl, rfl⟩
  · exact .inl hi
  · exact .inr (he.nodeOk hn)

/-- A store later in a construction. -/
structure Later (s s' : TermStore) : Prop where
  before : s.Ok
  after : s'.Ok
  grown : s.Extends s'

lemma Later.trans {s₁ s₂ s₃ : TermStore} (h : Later s₁ s₂) (h' : Later s₂ s₃) : Later s₁ s₃ :=
  ⟨h.before, h'.after, h.grown.trans h'.grown⟩

end TermStore

/-! ### Specifications of operations -/

/-- The second operation goes on from the result of the first. -/
lemma TermM.bind_ok {x : TermM α} {f : α → TermM β} {a : α} (hx : x s = (.ok a, s')) :
    (x >>= f) s = f a s' := by
  dsimp only [Bind.bind]
  rw [hx]

lemma TermM.modify_bind {g : TermStore → TermStore} {f : Unit → TermM β} :
    (TermM.modify g >>= f) s = f () (g s) := rfl

open TermStore

/-- The operation keeps the invariant and extends the store; its result has the property.  It
returns one where `T` holds. -/
def Spec (T : Prop) (x : TermM α) (s : TermStore) (Q : α → TermStore → Prop) : Prop :=
  s.Extends (x s).2 ∧ (x s).2.Ok ∧
    match (x s).1 with
    | .ok a => Q a (x s).2
    | .error _ => ¬ T

namespace Spec

variable {T : Prop} {x : TermM α} {f : α → TermM β} {Q : α → TermStore → Prop}
  {R : β → TermStore → Prop}

lemma pure (h : s.Ok) {a : α} (hq : Q a s) : Spec T (pure a) s Q := ⟨.refl s, h, hq⟩

lemma fail (h : s.Ok) (hT : ¬ T) {message : String} : Spec T (TermM.fail message : TermM α) s Q :=
  ⟨.refl s, h, hT⟩

/-- What holds of the first operation's result is known to the second. -/
lemma bind (hx : Spec T x s Q)
    (hf : ∀ a s', s.Extends s' → s'.Ok → Q a s' → Spec T (f a) s' R) :
    Spec T (x >>= f) s R := by
  obtain ⟨he, hok, hq⟩ := hx
  rw [Spec]
  dsimp only [Bind.bind]
  generalize x s = r at he hok hq
  obtain ⟨a | a, s'⟩ := r
  · exact ⟨he, hok, hq⟩
  · obtain ⟨he', hok', hr⟩ := hf a s' he hok hq
    exact ⟨he.trans he', hok', hr⟩

lemma get {g : TermStore → TermM β} (hg : Spec T (g s) s R) : Spec T (TermM.get >>= g) s R := hg

lemma modify {g : TermStore → TermStore} {y : TermM β} (he : s.Extends (g s)) (hok : (g s).Ok)
    (hy : Spec T y (g s) R) : Spec T (TermM.modify g >>= fun _ => y) s R :=
  ⟨he.trans hy.1, hy.2.1, hy.2.2⟩

lemma weaken (hx : Spec T x s Q) {Q' : α → TermStore → Prop}
    (hq : ∀ a s', s.Extends s' → s'.Ok → Q a s' → Q' a s') : Spec T x s Q' := by
  obtain ⟨he, hok, h⟩ := hx
  refine ⟨he, hok, ?_⟩
  generalize x s = r at he hok h
  obtain ⟨a | a, s'⟩ := r
  · exact h
  · exact hq a s' he hok h

lemma okOr (h : s.Ok) {message : String} {a : Option α} (ha : T → ∃ b, a = some b)
    (hq : ∀ b, a = some b → Q b s) : Spec T (TermM.okOr message a) s Q := by
  cases a with
  | none =>
    refine fail h fun hT => ?_
    obtain ⟨b, hb⟩ := ha hT
    exact absurd hb (by simp)
  | some b => exact pure h (hq b rfl)

/-- A specification that asks for a result gives one. -/
lemma result {s : TermStore} (hx : Spec True x s Q) : ∃ a, (x s).1 = .ok a ∧ Q a (x s).2 := by
  obtain ⟨-, -, h⟩ := hx
  generalize x s = r at h
  obtain ⟨a | a, s'⟩ := r
  · exact absurd trivial h
  · exact ⟨a, rfl, h⟩

lemma congr {y : TermM α} (he : x s = y s) (hy : Spec T y s Q) : Spec T x s Q := by
  rw [Spec, he]
  exact hy

/-! ### Lists of operations -/

/-- What holds of each result stays true while the rest is computed. -/
lemma collect {f : α → TermM β} {P : α → β → TermStore → Prop}
    (hP : ∀ a b s₁ s₂, s₁.Later s₂ → P a b s₁ → P a b s₂) :
    ∀ (list : List α) (s : TermStore), s.Ok →
    (∀ a ∈ list, ∀ s', s.Extends s' → s'.Ok → Spec T (f a) s' (P a)) →
    Spec T (TermM.collect f list) s fun results s' =>
      List.Forall₂ (fun a b => P a b s') list results
  | [], s, h, _ => pure h .nil
  | a :: rest, s, h, hf => by
    refine bind (hf a (by simp) s (.refl s) h) fun b s₁ he₁ hok₁ hb => ?_
    refine bind (collect hP rest s₁ hok₁ fun a' ha' s' he' hok' =>
      hf a' (by simp [ha']) s' (he₁.trans he') hok') fun bs s₂ he₂ hok₂ hbs => ?_
    exact pure hok₂ (.cons (hP a b s₁ s₂ ⟨hok₁, hok₂, he₂⟩ hb) hbs)

/-- A loop keeps its invariant, which may mention the entries still to come. -/
lemma loop {f : β → α → TermM β} {I : β → List α → TermStore → Prop} :
    ∀ (list : List α) (b : β) (s : TermStore), s.Ok → I b list s →
    (∀ b a rest s', s.Extends s' → s'.Ok → I b (a :: rest) s' →
      Spec T (f b a) s' fun b s'' => I b rest s'') →
    Spec T (TermM.loop f b list) s fun b s' => I b [] s'
  | [], b, s, h, hI, _ => pure h hI
  | a :: rest, b, s, h, hI, hf => by
    refine bind (hf b a rest s (.refl s) h hI) fun b' s₁ he₁ hok₁ hb => ?_
    exact loop rest b' s₁ hok₁ hb fun b a rest s' he hok => hf b a rest s' (he₁.trans he) hok

end Spec

/-! ### Reading the store -/

section

variable {T : Prop}

lemma checkIndex_spec (h : s.Ok) {length : ℕ} {message : String}
    (hl : T → length < maxIndex) :
    Spec T (checkIndex length message) s fun _ s' => s = s' ∧ length < maxIndex := by
  rw [checkIndex]
  split
  · next hlt => exact .pure h ⟨rfl, hlt⟩
  · next hge => exact .fail h fun hT => hge (hl hT)

lemma sortOf_spec (h : s.Ok) (ht : T → t < s.nodes.length) :
    Spec T (sortOf t) s fun sort s' => s = s' ∧ s.sort? t = some sort := by
  refine .get (.okOr h (fun hT => ?_) fun sort hs => ⟨rfl, hs⟩)
  rw [sort?, List.getElem?_eq_getElem (ht hT)]
  exact ⟨_, rfl⟩

lemma sortId_spec (h : s.Ok) (ht : T → t < s.nodes.length) :
    Spec T (sortId t) s fun sort s' => s = s' ∧ ∃ node, s.nodes[t]? = some node ∧
      node.sort = sort := by
  refine .get (.okOr h (fun hT => ?_) fun sort hs => ⟨rfl, Option.map_eq_some_iff.1 hs⟩)
  rw [List.getElem?_eq_getElem (ht hT)]
  exact ⟨_, rfl⟩

lemma requireBool_spec (h : s.Ok) (ht : T → s.IsBool t) :
    Spec T (requireBool t) s fun _ s' => s = s' ∧ s.IsBool t := by
  refine .bind (sortId_spec h fun hT => (ht hT).lt) ?_
  rintro sort _ - - ⟨rfl, node, hn, rfl⟩
  split
  · next hs => exact .pure h ⟨rfl, node, hn, hs⟩
  · next hs =>
    refine .fail h fun hT => hs ?_
    obtain ⟨node', hn', hs'⟩ := ht hT
    rw [hn] at hn'
    cases hn'
    exact hs'

lemma each_requireBool_spec (h : s.Ok) : ∀ terms : List TermId, (T → ∀ t ∈ terms, s.IsBool t) →
    Spec T (each requireBool terms) s fun _ s' => s = s' ∧ ∀ t ∈ terms, s.IsBool t
  | [], _ => .pure h ⟨rfl, by simp⟩
  | t :: rest, ht => by
    refine .bind (requireBool_spec h fun hT => ht hT t (by simp)) ?_
    rintro _ _ - - ⟨rfl, hb⟩
    refine (each_requireBool_spec h rest fun hT u hu => ht hT u (by simp [hu])).weaken ?_
    rintro _ _ - - ⟨rfl, hrest⟩
    exact ⟨rfl, by simpa using ⟨hb, hrest⟩⟩

lemma bits?_eq_some_iff {bits : List TermId} :
    s.bits? t = some bits ↔ ∃ node, s.nodes[t]? = some node ∧ node.kind = .bitVec bits := by
  rw [bits?]
  constructor
  · intro h
    cases hn : s.nodes[t]? with
    | none => simp [hn] at h
    | some node =>
      refine ⟨node, rfl, ?_⟩
      simp only [hn, Option.map_some] at h
      split at h
      · next bits' hk =>
        cases h
        simpa using hk
      · cases h
  · rintro ⟨node, hn, hk⟩
    simp [hn, hk]

lemma bitvecBits_spec (h : s.Ok) (ht : T → ∃ bits, s.bits? t = some bits) :
    Spec T (bitvecBits t) s fun bits s' => s = s' ∧ s.bits? t = some bits := by
  refine .get ?_
  split
  · next hn =>
    refine .fail h fun hT => ?_
    obtain ⟨bits, hb⟩ := ht hT
    obtain ⟨node, hn', -⟩ := bits?_eq_some_iff.1 hb
    rw [hn] at hn'
    cases hn'
  · next node hn =>
    split
    · next bits hk => exact .pure h ⟨rfl, bits?_eq_some_iff.2 ⟨node, hn, hk⟩⟩
    · next hk =>
      refine .fail h fun hT => ?_
      obtain ⟨bits, hb⟩ := ht hT
      obtain ⟨node', hn', hk'⟩ := bits?_eq_some_iff.1 hb
      rw [hn] at hn'
      cases hn'
      exact hk bits hk'

lemma bitvecWidth_spec (h : s.Ok) (ht : T → ∃ width, s.sort? t = some (.bitVec width)) :
    Spec T (bitvecWidth t) s fun width s' => s = s' ∧ s.sort? t = some (.bitVec width) := by
  refine .bind (sortOf_spec h fun hT => ?_) ?_
  · obtain ⟨width, hw⟩ := ht hT
    by_contra hge
    rw [sort?, List.getElem?_eq_none (not_lt.1 hge)] at hw
    cases hw
  · rintro sort _ - - ⟨rfl, hs⟩
    split
    · exact .pure h ⟨rfl, hs⟩
    · next hne =>
      refine .fail h fun hT => ?_
      obtain ⟨width, hw⟩ := ht hT
      rw [hs] at hw
      cases hw
      exact hne width rfl

/-! ### New sorts, symbols and terms -/

lemma sortIdFor_spec (h : s.Ok) {sort : SmtSort}
    (hs : T → (∃ i : ℕ, s.sorts[i]? = some sort) ∨ (sort ≠ .bitVec 0 ∧ s.sorts.length < maxIndex)) :
    Spec T (sortIdFor sort) s fun i s' => s'.sorts[i]? = some sort ∧ s'.nodes = s.nodes := by
  refine .get ?_
  split
  · next i hi => exact .pure h ⟨h.sortIds.position.1 hi, rfl⟩
  · next hnone =>
    have hnot : ¬ ∃ i : ℕ, s.sorts[i]? = some sort := by
      rintro ⟨i, hi⟩
      rw [h.sortIds.position.2 hi] at hnone
      cases hnone
    split
    · next hz => exact .fail h fun hT => ((hs hT).resolve_left hnot).1 hz
    · refine .bind (checkIndex_spec h fun hT => ((hs hT).resolve_left hnot).2) ?_
      rintro _ _ - - ⟨rfl, -⟩
      have he : s.Extends (s.withTerms s.nodes s.interned (s.sorts ++ [sort])
          (Function.update s.sortIds sort (some s.sorts.length)) s.nextSymbol
          s.nextUninterpretedSort s.nextUninterpretedValue) := by
        constructor <;> simp [TermStore.withTerms]
      have hok := h.withTerms he (h.sortIds.pushPosition hnone)
      exact .modify he hok (.pure hok ⟨List.getElem?_concat_length, rfl⟩)

/-- A node that is new is pushed. -/
lemma intern_eq (h : s.Ok) {sort : SortId} {kind : TermKind} (hnew : ⟨sort, kind⟩ ∉ s.nodes) :
    intern sort kind s = (.ok s.nodes.length, s.withNode ⟨sort, kind⟩) := by
  have hnone : s.interned ⟨sort, kind⟩ = none :=
    Option.eq_none_iff_forall_ne_some.2 fun t ht =>
      hnew (List.mem_of_getElem? (h.interned.position.1 ht))
  dsimp only [intern, Bind.bind, TermM.get]
  rw [hnone]
  rfl

/-- Interning a well formed node gives its term, which is new when the node is. -/
lemma intern_spec (h : s.Ok) {sort : SortId} {kind : TermKind}
    (hn : s.NodeOk s.nodes.length ⟨sort, kind⟩)
    (hp : ∀ symbol e strict, kind ≠ .arithmeticPredicate symbol e strict) :
    Spec T (intern sort kind) s fun t s' => s'.nodes[t]? = some ⟨sort, kind⟩ ∧
      (⟨sort, kind⟩ ∉ s.nodes → t = s.nodes.length) ∧ s'.sorts = s.sorts := by
  by_cases hnew : (⟨sort, kind⟩ : TermNode) ∈ s.nodes
  · obtain ⟨t, ht⟩ := List.mem_iff_getElem?.1 hnew
    have hsome : s.interned ⟨sort, kind⟩ = some t := h.interned.position.2 ht
    refine .get ?_
    rw [hsome]
    exact .pure h ⟨ht, fun hnot => absurd hnew hnot, rfl⟩
  · obtain ⟨he, hok⟩ := h.toConsistent.withNode hn hnew
    have hrecorded : (s.withNode ⟨sort, kind⟩).Ok :=
      { hok with
        recorded := fun t n ht symbol e strict hk => by
          rcases s.getElem?_withNode ht with ht | ⟨-, rfl⟩
          · exact h.recorded t n ht symbol e strict hk
          · exact absurd hk (hp symbol e strict) }
    rw [Spec, intern_eq h hnew]
    exact ⟨he, hrecorded, by simp [withNode, TermStore.withTerms], fun _ => rfl, rfl⟩

lemma freshSymbol_spec (h : s.Ok) :
    Spec T freshSymbol s fun symbol s' => symbol = s.nextSymbol ∧
      s'.nextSymbol = s.nextSymbol + 1 ∧ s'.nodes = s.nodes := by
  have he : s.Extends (s.withTerms s.nodes s.interned s.sorts s.sortIds (s.nextSymbol + 1)
      s.nextUninterpretedSort s.nextUninterpretedValue) := by
    constructor <;> simp [TermStore.withTerms]
  have hok := h.withTerms he h.sortIds
  exact .get (.modify he hok (.pure hok ⟨rfl, rfl, rfl⟩))

/-! ### Words -/

lemma sort?_eq_some_iff {sort : SmtSort} (h : s.Ok) : s.sort? t = some sort ↔
    ∃ node, s.nodes[t]? = some node ∧ s.sorts[node.sort]? = some sort := by
  rw [sort?, Option.map_eq_some_iff]
  constructor
  · rintro ⟨node, hn, hs⟩
    refine ⟨node, hn, ?_⟩
    have hlt := (h.nodes t node hn).sort
    rw [List.getD_eq_getElem?_getD, List.getElem?_eq_getElem hlt, Option.getD_some] at hs
    rw [List.getElem?_eq_getElem hlt, hs]
  · rintro ⟨node, hn, hs⟩
    exact ⟨node, hn, by rw [List.getD_eq_getElem?_getD, hs, Option.getD_some]⟩

lemma lt_of_sort? {sort : SmtSort} (hs : s.sort? t = some sort) : t < s.nodes.length := by
  obtain ⟨node, hn, -⟩ := Option.map_eq_some_iff.1 hs
  exact (List.getElem?_eq_some_iff.1 hn).1

lemma isBool_iff_sort? (h : s.Ok) : s.IsBool t ↔ s.sort? t = some .bool := by
  refine ⟨h.sort?_isBool, fun hs => ?_⟩
  obtain ⟨node, hn, hs⟩ := (sort?_eq_some_iff h).1 hs
  refine ⟨node, hn, ?_⟩
  have h1 := h.sortIds.position.2 hs
  have h2 := h.sortIds.position.2 h.boolean
  rw [h1] at h2
  exact Option.some.inj h2

/-- A term of a bit-vector sort is a word of Boolean terms. -/
lemma bits_of_sort (h : s.Ok) {width : ℕ} (hs : s.sort? t = some (.bitVec width)) :
    ∃ bits, s.bits? t = some bits ∧ bits.length = width ∧ bits ≠ [] ∧ ∀ b ∈ bits, s.IsBool b := by
  obtain ⟨node, hn, hs⟩ := (sort?_eq_some_iff h).1 hs
  have hok := h.nodes t node hn
  obtain ⟨bits, hk⟩ := hok.bits width hs
  obtain ⟨hne, -, hsort⟩ := hok.word bits hk
  rw [hs, Option.some.injEq, SmtSort.bitVec.injEq] at hsort
  refine ⟨bits, bits?_eq_some_iff.2 ⟨node, hn, hk⟩, hsort.symm, hne, fun b hb => ?_⟩
  exact (hok.members b (by rw [hk]; exact hb)).2

lemma sort_of_bits (h : s.Ok) {bits : List TermId} (hb : s.bits? t = some bits) :
    s.sort? t = some (.bitVec bits.length) ∧ bits ≠ [] ∧ ∀ b ∈ bits, s.IsBool b := by
  obtain ⟨node, hn, hk⟩ := bits?_eq_some_iff.1 hb
  have hok := h.nodes t node hn
  obtain ⟨hne, -, hsort⟩ := hok.word bits hk
  exact ⟨(sort?_eq_some_iff h).2 ⟨node, hn, hsort⟩, hne, fun b hm =>
    (hok.members b (by rw [hk]; exact hm)).2⟩

lemma makeBitvec_spec (h : s.Ok) {bits : List TermId} (hT : T → bits ≠ [] ∧
    (∀ b ∈ bits, s.IsBool b) ∧ bits.length < maxIndex ∧
    ((∃ i : ℕ, s.sorts[i]? = some (.bitVec bits.length)) ∨ s.sorts.length < maxIndex)) :
    Spec T (makeBitvec bits) s fun r s' => s'.bits? r = some bits ∧
      ((∀ b ∈ bits, s.nodes.length ≤ b) → s.nodes.length ≤ r) := by
  rw [makeBitvec]
  split
  · next he => exact .fail h fun ht => (hT ht).1 (List.isEmpty_iff.1 he)
  · next hne =>
    refine .bind (each_requireBool_spec h bits fun ht => (hT ht).2.1) ?_
    rintro _ _ - - ⟨rfl, hb⟩
    refine .bind (checkIndex_spec h fun ht => (hT ht).2.2.1) ?_
    rintro _ _ - - ⟨rfl, hlt⟩
    have hne' : bits ≠ [] := fun he => hne (List.isEmpty_iff.2 he)
    refine .bind (sortIdFor_spec h fun ht => ?_) ?_
    · refine (hT ht).2.2.2.imp id fun hroom => ⟨?_, hroom⟩
      simpa using hne'
    · rintro sort s₁ he₁ h₁ ⟨hs, hnodes⟩
      have hnode : s₁.NodeOk s₁.nodes.length ⟨sort, .bitVec bits⟩ := by
        refine ⟨(List.getElem?_eq_some_iff.1 hs).1, fun m hm => ?_, ?_, fun w _ => ⟨bits, rfl⟩,
          by simp, by simp⟩
        · have hm' := he₁.isBool (hb m hm)
          exact ⟨hm'.lt, hm'⟩
        · rintro _ ⟨⟩
          exact ⟨hne', hlt, hs⟩
      refine (intern_spec h₁ hnode (by simp)).weaken ?_
      rintro r s₂ - h₂ ⟨hr, -, -⟩
      refine ⟨bits?_eq_some_iff.2 ⟨_, hr, rfl⟩, fun hold => ?_⟩
      obtain ⟨b, hb⟩ := List.exists_mem_of_ne_nil bits hne'
      exact (hold b hb).trans ((h₂.nodes r _ hr).members b hb).1.le

end

end Satrap.Smt
