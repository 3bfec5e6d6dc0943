/-
# Sorts of the tables

Applications have the sorts of their function's signature, the sides of an equality that is kept as
an atom have one abstract sort, and so have a conditional that is kept as a term and its branches.
Expressions of sort Int have integral coefficients over variables of sort Int.  The operations on
Boolean terms, words and arrays leave the tables alone, and those on arithmetic terms check this
before they enter anything.
-/
import Satrap.Smt.Connectives

namespace Satrap.Smt

open Logic TermStore TermM

variable {α β : Type} {s s' : TermStore} {t : TermId}

namespace SmtSort

/-- The sort is uninterpreted or a sort of arrays. -/
def isAbstract : SmtSort → Bool
  | uninterpreted _ | array _ => true
  | _ => false

end SmtSort

namespace TermKind

/-- The node is an arithmetic expression. -/
def isArithmetic : TermKind → Bool
  | arithmetic _ => true
  | _ => false

/-- The node is not an arithmetic expression. -/
class Plain (kind : TermKind) : Prop where
  plain : kind.isArithmetic = false := by rfl

instance (symbol : SymbolId) : Plain (atom symbol) where

instance (term : TermId) : Plain (not term) where

instance (terms : List TermId) : Plain (and terms) where

instance (terms : List TermId) : Plain (or terms) where

instance (left right : TermId) : Plain (xor left right) where

instance (left right : TermId) : Plain (iff left right) where

instance (condition thenTerm elseTerm : TermId) : Plain (ite condition thenTerm elseTerm) where

instance (bits : List TermId) : Plain (bitVec bits) where

instance (value : ℕ) : Plain (ufConstant value) where

instance (function : FunctionId) (arguments : List TermId) :
    Plain (ufApplication function arguments) where

instance (condition thenTerm elseTerm : TermId) : Plain (ufIte condition thenTerm elseTerm) where

instance (value : TermId) : Plain (arrayConst value) where

instance (array index value : TermId) : Plain (arrayStore array index value) where

instance (symbol : SymbolId) (left right : TermId) : Plain (theoryEquality symbol left right) where

instance (symbol : SymbolId) (expression : ℕ) (strict : Bool) :
    Plain (arithmeticPredicate symbol expression strict) where

instance (p : Prop) [Decidable p] (kind kind' : TermKind) [h : Plain kind] [h' : Plain kind'] :
    Plain (if p then kind else kind') := by
  split
  · exact h
  · exact h'

end TermKind

namespace TermStore

/-- The terms have the sorts. -/
abbrev HaveSorts (s : TermStore) : List TermId → List SmtSort → Prop :=
  List.Forall₂ fun term sort => s.sort? term = some sort

/-- The terms have one abstract sort. -/
def Kindred (s : TermStore) (t u : TermId) : Prop :=
  ∃ sort : SmtSort, sort.isAbstract = true ∧ s.sort? t = some sort ∧ s.sort? u = some sort

/-- The terms have one sort, which is arithmetic. -/
def HaveSort (s : TermStore) (terms : List TermId) : Prop :=
  ∃ sort : SmtSort, sort.isArithmetic = true ∧ ∀ term ∈ terms, s.sort? term = some sort

/-- The application has the sorts of its function. -/
def Applied (s : TermStore) (a : Application) : Prop :=
  ∃ signature, s.functions[a.function]? = some signature ∧
    s.HaveSorts a.arguments signature.domain ∧ s.sort? a.result = some signature.range

/-- The variables of the expression are of sort Int. -/
def IntegerVariables (s : TermStore) (e : LinearExpression) : Prop :=
  ∀ entry ∈ e.coefficients, s.arithmeticVariableSorts[entry.1]? = some .int

/-- The expression has integral coefficients over variables of sort Int. -/
def OverIntegers (s : TermStore) (e : LinearExpression) : Prop :=
  isIntegral e = true ∧ s.IntegerVariables e

/-- What is in the tables has the sorts that were checked. -/
structure Typed (s : TermStore) : Prop where
  applications : ∀ a ∈ s.applications, s.Applied a
  equalities : ∀ q ∈ s.theoryEqualities, s.Kindred q.left q.right
  ufItes : ∀ item ∈ s.ufItes, s.IsBool item.condition ∧ s.Kindred item.result item.thenTerm ∧
    s.Kindred item.result item.elseTerm
  axioms : ∀ term ∈ s.arrayAxioms, s.IsBool term
  variableSorts : ∀ sort ∈ s.arithmeticVariableSorts, sort.isArithmetic = true
  expressions : ∀ entry ∈ s.arithmeticExpressions, entry.1.isArithmetic = true ∧
    (entry.1 = .int → s.OverIntegers entry.2)
  arithmetic : ∀ node ∈ s.nodes, ∀ i, node.kind = .arithmetic i → ∃ sort e,
    s.arithmeticExpressions[i]? = some (sort, e) ∧ s.sorts[node.sort]? = some sort
  arithmeticItes : ∀ item ∈ s.arithmeticItes, s.IsBool item.condition ∧
    s.HaveSort [item.result, item.thenTerm, item.elseTerm]

/-- The nodes of arithmetic expressions. -/
def arithmeticNodes (s : TermStore) : List TermNode :=
  s.nodes.filter fun node => node.kind.isArithmetic

/-- The tables whose entries have sorts. -/
def theoryTables (s : TermStore) : List Application × List TheoryEquality × List UfIte ×
    List TermId × List SmtSort × List (SmtSort × LinearExpression) × List TermNode ×
    List ArithmeticIte :=
  (s.applications, s.theoryEqualities, s.ufItes, s.arrayAxioms, s.arithmeticVariableSorts,
    s.arithmeticExpressions, s.arithmeticNodes, s.arithmeticItes)

lemma typed_new : TermStore.new.Typed := by
  constructor <;> simp [TermStore.new]

section

variable (h : s.Ok) (he : s.Extends s')
include h he

lemma sort?_later {sort : SmtSort} (ht : s.sort? t = some sort) : s'.sort? t = some sort :=
  (h.sort?_extends he (lt_of_sort? ht)).trans ht

lemma HaveSorts.later {terms : List TermId} {sorts : List SmtSort}
    (ht : s.HaveSorts terms sorts) : s'.HaveSorts terms sorts :=
  ht.imp fun _ _ hs => sort?_later h he hs

lemma Kindred.later {u : TermId} (ht : s.Kindred t u) : s'.Kindred t u := by
  obtain ⟨sort, habstract, hleft, hright⟩ := ht
  exact ⟨sort, habstract, sort?_later h he hleft, sort?_later h he hright⟩

omit h he in
lemma Kindred.symm {u : TermId} (ht : s.Kindred t u) : s.Kindred u t := by
  obtain ⟨sort, habstract, hleft, hright⟩ := ht
  exact ⟨sort, habstract, hright, hleft⟩

lemma Applied.later {a : Application} (ha : s.Applied a) : s'.Applied a := by
  obtain ⟨signature, hf, harguments, hresult⟩ := ha
  obtain ⟨suffix, hsuffix⟩ := he.functions
  refine ⟨signature, ?_, harguments.later h he, sort?_later h he hresult⟩
  rw [← hsuffix, List.getElem?_append_left (List.getElem?_eq_some_iff.1 hf).1, hf]

lemma HaveSort.later {terms : List TermId} (ht : s.HaveSort terms) : s'.HaveSort terms := by
  obtain ⟨sort, harith, hsort⟩ := ht
  exact ⟨sort, harith, fun term hm => sort?_later h he (hsort term hm)⟩

omit h in
lemma OverIntegers.later {e : LinearExpression} (ht : s.OverIntegers e) : s'.OverIntegers e := by
  obtain ⟨suffix, hsuffix⟩ := he.arithmeticVariableSorts
  refine ht.imp_right fun hv entry hm => ?_
  rw [← hsuffix, List.getElem?_append_left (List.getElem?_eq_some_iff.1 (hv entry hm)).1,
    hv entry hm]

omit h in
/-- The node of an expression that is in the tables stays one. -/
lemma arithmetic_later {i : ℕ} {sortId : SortId}
    (ht : ∃ sort e, s.arithmeticExpressions[i]? = some (sort, e) ∧ s.sorts[sortId]? = some sort) :
    ∃ sort e, s'.arithmeticExpressions[i]? = some (sort, e) ∧ s'.sorts[sortId]? = some sort := by
  obtain ⟨sort, e, hi, hs⟩ := ht
  obtain ⟨suffix, hsuffix⟩ := he.arithmeticExpressions
  refine ⟨sort, e, ?_, he.sort hs⟩
  rw [← hsuffix, List.getElem?_append_left (List.getElem?_eq_some_iff.1 hi).1, hi]

/-- A store with the same tables is typed. -/
lemma Typed.of_theoryTables (ht : s.Typed) (heq : s'.theoryTables = s.theoryTables) : s'.Typed := by
  simp only [theoryTables, Prod.mk.injEq] at heq
  obtain ⟨hq, hr, hs, hu, hv, hw, hn, hi⟩ := heq
  constructor
  · rw [hq]
    exact fun a ha => (ht.applications a ha).later h he
  · rw [hr]
    exact fun q hq => (ht.equalities q hq).later h he
  · rw [hs]
    exact fun item hi => (ht.ufItes item hi).imp he.isBool
      (And.imp (Kindred.later h he) (Kindred.later h he))
  · rw [hu]
    exact fun term hm => he.isBool (ht.axioms term hm)
  · rw [hv]
    exact ht.variableSorts
  · rw [hw]
    exact fun entry hm => (ht.expressions entry hm).imp_right fun hint hs => (hint hs).later he
  · intro node hm i hkind
    have hmem : node ∈ s'.arithmeticNodes := List.mem_filter.2 ⟨hm, by rw [hkind]; rfl⟩
    rw [hn] at hmem
    exact arithmetic_later he (ht.arithmetic node (List.mem_filter.1 hmem).1 i hkind)
  · rw [hi]
    exact fun item hm => (ht.arithmeticItes item hm).imp he.isBool (HaveSort.later h he)

end

end TermStore

/-! ### Operations that leave the tables alone -/

section

variable {γ : Type} (part : TermStore → γ)

instance Frames.loop (f : β → α → TermM β) [hf : ∀ b a, Frames part (f b a)] (b : β)
    (list : List α) : Frames part (TermM.loop f b list) := by
  induction list generalizing b with
  | nil => exact .pure part b
  | cons a rest ih => exact .bind part (f b a) _

instance (term : TermId) : Frames part (sortOf term) := by
  unfold sortOf
  infer_instance

instance (term : TermId) : Frames part (sortId term) := by
  unfold sortId
  infer_instance

instance (term : TermId) : Frames part (bitvecBits term) := by
  unfold bitvecBits
  refine .of_bind fun s => ?_
  split
  · infer_instance
  · split <;> infer_instance

instance (term : TermId) : Frames part (bitvecWidth term) := by
  unfold bitvecWidth
  refine .of_bind fun sort => ?_
  split <;> infer_instance

instance (term : TermId) : Frames part (requireArithmetic term) := by
  unfold requireArithmetic
  infer_instance

instance (terms : List TermId) : Frames part (commonArithmeticSort terms) := by
  unfold commonArithmeticSort
  refine @Frames.loop _ _ _ part _ (fun result term => ?_) _ _
  refine .of_bind fun sort => ?_
  split <;> infer_instance

instance (expression : ℕ) : Frames part (arithmeticExpression expression) := by
  unfold arithmeticExpression
  infer_instance

instance (term : TermId) : Frames part (arithmeticExpressionForTerm term) := by
  unfold arithmeticExpressionForTerm
  refine .of_bind fun s => ?_
  split <;> infer_instance

instance (term : TermId) (target : SmtSort) : Frames part (arithmeticExpressionAs term target) := by
  unfold arithmeticExpressionAs
  infer_instance

instance (sort : ArraySortId) : Frames part (arraySignature sort) := by
  unfold arraySignature
  infer_instance

instance (array : TermId) (message : String) : Frames part (arraySignatureOf array message) := by
  unfold arraySignatureOf
  refine .of_bind fun sort => ?_
  split <;> infer_instance

end

instance (sort : SmtSort) : Frames theoryTables (sortIdFor sort) := by
  unfold sortIdFor
  refine .of_bind fun s => ?_
  split
  · infer_instance
  · refine @Frames.ite _ _ _ _ _ _ _ inferInstance (.of_bind fun _ => ?_)
    exact @Frames.of_bind _ _ _ _ _ _ ⟨fun _ => rfl⟩ fun _ => inferInstance

instance (sort : SortId) (kind : TermKind) [hk : kind.Plain] :
    Frames theoryTables (intern sort kind) := by
  unfold intern
  refine .of_bind fun s => ?_
  split
  · infer_instance
  · refine @Frames.of_bind _ _ _ _ _ _ ⟨fun s => ?_⟩ fun _ => inferInstance
    simp [theoryTables, arithmeticNodes, TermM.modify, hk.plain]

instance : Frames theoryTables freshSymbol := ⟨fun _ => rfl⟩

instance : Frames theoryTables freshBoolAtom := by
  unfold freshBoolAtom
  infer_instance

instance (bits : List TermId) : Frames theoryTables (makeBitvec bits) := by
  unfold makeBitvec
  infer_instance

instance (width : ℕ) : Frames theoryTables (freshBitvec width) := by
  unfold freshBitvec checkWidth
  infer_instance

instance (domain : List SmtSort) (range : SmtSort) :
    Frames theoryTables (declareFunction domain range) := by
  unfold declareFunction
  refine .of_bind fun _ => .of_bind fun _ => .of_bind fun s => .of_bind fun _ => ?_
  exact @Frames.of_bind _ _ _ _ _ _ ⟨fun _ => rfl⟩ fun _ => inferInstance

instance (term : TermId) : Frames theoryTables (mkNot term) := by
  unfold mkNot
  refine .of_bind fun _ => .of_bind fun s => ?_
  split <;> infer_instance

lemma frames_entries_flattenAll (identity conjunction : Bool) (terms flattened : List TermId) :
    Frames theoryTables (flattenAll identity conjunction terms flattened) := by
  fun_induction flattenAll identity conjunction terms flattened with
  | case1 => infer_instance
  | case2 term rest flattened ih =>
    refine .of_bind fun _ => .of_bind fun s => ?_
    split
    · exact ih _
    · infer_instance

lemma frames_entries_junction (terms : List TermId) (identity conjunction : Bool) :
    Frames theoryTables (junction terms identity conjunction) := by
  unfold junction
  refine @Frames.of_bind _ _ _ theoryTables _ _ (frames_entries_flattenAll ..) fun result => ?_
  split
  · infer_instance
  · refine .of_bind fun s => @Frames.ite _ _ _ _ _ _ _ inferInstance ?_
    split
    · infer_instance
    · infer_instance
    · split <;> infer_instance

instance (terms : List TermId) : Frames theoryTables (mkAnd terms) := frames_entries_junction ..

instance (terms : List TermId) : Frames theoryTables (mkOr terms) := frames_entries_junction ..

instance (left right : TermId) : Frames theoryTables (mkXor left right) := by
  unfold mkXor
  refine .of_bind fun _ => .of_bind fun _ => .of_bind fun s => ?_
  refine @Frames.ite _ _ _ _ _ _ _ inferInstance (@Frames.ite _ _ _ _ _ _ _ inferInstance ?_)
  split <;> infer_instance

instance (left right : TermId) : Frames theoryTables (mkIff left right) := by
  unfold mkIff
  refine .of_bind fun _ => .of_bind fun _ => .of_bind fun s => ?_
  refine @Frames.ite _ _ _ _ _ _ _ inferInstance (@Frames.ite _ _ _ _ _ _ _ inferInstance ?_)
  split <;> infer_instance

instance (condition thenTerm elseTerm : TermId) :
    Frames theoryTables (iteBool condition thenTerm elseTerm) := by
  unfold iteBool
  refine @Frames.ite _ _ _ _ _ _ _ inferInstance (.of_bind fun s => ?_)
  split <;> infer_instance

instance (condition thenTerm elseTerm : TermId) :
    Frames theoryTables (iteBit condition thenTerm elseTerm) := by
  unfold iteBit
  infer_instance

instance (sort : SmtSort) (message : String) :
    Frames theoryTables (freshUfConstant sort message) := by
  unfold freshUfConstant
  refine .of_bind fun _ => .of_bind fun s => .of_bind fun _ => ?_
  exact @Frames.of_bind _ _ _ _ _ _ ⟨fun _ => rfl⟩ fun _ => inferInstance

instance : Frames theoryTables freshUninterpretedSort := by
  unfold freshUninterpretedSort
  refine .of_bind fun s => .of_bind fun _ => ?_
  exact @Frames.of_bind _ _ _ _ _ _ ⟨fun _ => rfl⟩ fun _ => inferInstance

instance (index element : SmtSort) : Frames theoryTables (arraySort index element) := by
  unfold arraySort
  refine .of_bind fun _ => .of_bind fun _ => .of_bind fun s => ?_
  dsimp only
  split
  · infer_instance
  · refine .of_bind fun _ => .of_bind fun _ => .of_bind fun _ => ?_
    exact @Frames.of_bind _ _ _ _ _ _ ⟨fun _ => rfl⟩ fun _ => inferInstance

instance (sort : ArraySortId) (value : TermId) : Frames theoryTables (constArray sort value) := by
  unfold constArray
  infer_instance

instance (array index value : TermId) : Frames theoryTables (store array index value) := by
  unfold store
  refine .of_bind fun signature => ?_
  infer_instance

instance (array index : TermId) : Frames theoryTables (registerArrayRead array index) := by
  refine ⟨fun s => ?_⟩
  show theoryTables (if _ then s else _) = _
  split <;> rfl

instance (result : TermId) : Frames theoryTables (insertSemanticSelect result) := by
  unfold insertSemanticSelect
  refine .of_bind fun s => ?_
  split
  · infer_instance
  · exact @Frames.of_bind _ _ _ _ _ _ ⟨fun _ => rfl⟩ fun _ => inferInstance

/-! ### Operations that keep the tables typed -/

/-- The operation extends the store and leaves its tables typed, whatever its outcome. -/
def TypesAt (x : TermM α) (s : TermStore) : Prop :=
  s.Extends (x s).2 ∧ (x s).2.Ok ∧ (x s).2.Typed

/-- The operation keeps the tables of every store typed. -/
class Types (x : TermM α) : Prop where
  types : ∀ s : TermStore, s.Ok → s.Typed → TypesAt x s

lemma TermM.bind_apply (x : TermM α) (f : α → TermM β) (s : TermStore) :
    (x >>= f) s = match x s with
      | (.ok a, s) => f a s
      | (.error e, s) => (.error e, s) := rfl

/-- The outcome of the second operation, or of the first one if it fails. -/
lemma after_bind {x : TermM α} {f : α → TermM β} {P : TermStore → Prop}
    {Q : α → TermStore → Prop} (hq : Spec False x s Q) (hx : P (x s).2)
    (hf : ∀ a s', s.Extends s' → s'.Ok → P s' → Q a s' → P (f a s').2) : P ((x >>= f) s).2 := by
  obtain ⟨he, hok, hq⟩ := hq
  rw [TermM.bind_apply]
  generalize x s = r at he hok hx hq hf
  obtain ⟨a | a, s'⟩ := r
  · exact hx
  · exact hf a s' he hok hx hq

namespace TypesAt

variable {x : TermM α} {f : α → TermM β}

lemma pure (h : s.Ok) (ht : s.Typed) {a : α} : TypesAt (pure a : TermM α) s := ⟨.refl s, h, ht⟩

lemma get {g : TermStore → TermM β} (hg : TypesAt (g s) s) : TypesAt (TermM.get >>= g) s := hg

lemma fail (h : s.Ok) (ht : s.Typed) {message : String} :
    TypesAt (TermM.fail message : TermM α) s := ⟨.refl s, h, ht⟩

lemma of_spec {Q : α → TermStore → Prop} (h : s.Ok) (ht : s.Typed) (hx : Spec False x s Q)
    [hf : Frames theoryTables x] : TypesAt x s :=
  ⟨hx.1, hx.2.1, ht.of_theoryTables h hx.1 (hf.frame s)⟩

lemma of_types [hx : Types x] (h : s.Ok) (ht : s.Typed) : TypesAt x s := hx.types s h ht

/-- What is known of the result of the first operation holds for the second. -/
lemma bind_spec {Q : α → TermStore → Prop} (hx : TypesAt x s) (hq : Spec False x s Q)
    (hf : ∀ a s', s.Extends s' → s'.Ok → s'.Typed → Q a s' → TypesAt (f a) s') :
    TypesAt (x >>= f) s := by
  refine after_bind (P := fun s' => s.Extends s' ∧ s'.Ok ∧ s'.Typed) hq hx ?_
  rintro a s' he h' ⟨-, -, ht'⟩ hq
  exact (hf a s' he h' ht' hq).imp_left he.trans

lemma bind (hx : TypesAt x s)
    (hf : ∀ a s', s.Extends s' → s'.Ok → s'.Typed → TypesAt (f a) s') : TypesAt (x >>= f) s :=
  hx.bind_spec (Q := fun _ _ => True) ⟨hx.1, hx.2.1, by split <;> simp⟩
    fun a s' he h' ht' _ => hf a s' he h' ht'

/-- The first operation leaves the tables alone. -/
lemma framed {Q : α → TermStore → Prop} [Frames theoryTables x] (h : s.Ok) (ht : s.Typed)
    (hq : Spec False x s Q)
    (hf : ∀ a s', s.Extends s' → s'.Ok → s'.Typed → Q a s' → TypesAt (f a) s') :
    TypesAt (x >>= f) s := .bind_spec (.of_spec h ht hq) hq hf

end TypesAt

namespace Types

lemma of_frames {x : TermM α} [hx : Keeps x] [Frames theoryTables x] : Types x where
  types s h ht := .of_spec h ht (hx.spec s h)

instance pure (a : α) : Types (pure a : TermM α) := ⟨fun _ h ht => .pure h ht⟩

instance fail (message : String) : Types (TermM.fail message : TermM α) := .of_frames

instance get : Types TermM.get := .of_frames

instance okOr (message : String) (a : Option α) : Types (TermM.okOr message a) := .of_frames

instance bind (x : TermM α) (f : α → TermM β) [Types x] [hf : ∀ a, Types (f a)] :
    Types (x >>= f) where
  types _ h ht := .bind (.of_types h ht) fun a s' _ h' ht' => (hf a).types s' h' ht'

lemma of_bind {x : TermM α} {f : α → TermM β} [Types x] (hf : ∀ a, Types (f a)) :
    Types (x >>= f) := .bind x f

instance ite (p : Prop) [Decidable p] (x y : TermM α) [hx : Types x] [hy : Types y] :
    Types (if p then x else y) := by
  split
  · exact hx
  · exact hy

instance collect (f : α → TermM β) [hf : ∀ a, Types (f a)] (list : List α) :
    Types (TermM.collect f list) := by
  induction list with
  | nil => exact .pure []
  | cons a rest ih => exact .bind (f a) _

instance each (f : α → TermM Unit) [hf : ∀ a, Types (f a)] (list : List α) :
    Types (TermM.each f list) := by
  induction list with
  | nil => exact .pure ()
  | cons a rest ih => exact .bind (f a) _

instance loop (f : β → α → TermM β) [hf : ∀ b a, Types (f b a)] (b : β) (list : List α) :
    Types (TermM.loop f b list) := by
  induction list generalizing b with
  | nil => exact .pure b
  | cons a rest ih => exact .bind (f b a) _

end Types

/-! ### Arithmetic terms -/

lemma isIntegral_iff {e : LinearExpression} : isIntegral e = true ↔
    e.constant.den = 1 ∧ ∀ entry ∈ e.coefficients, entry.2.den = 1 := by
  simp [isIntegral, Rat.isInt]

/-- Sums and products of integers are integers. -/
lemma den_add_mul {a b c : ℚ} (ha : a.den = 1) (hb : b.den = 1) (hc : c.den = 1) :
    (a + b * c).den = 1 := by
  rw [Rat.den_eq_one_iff] at ha hb hc
  have hcast : a + b * c = ((a.num + b.num * c.num : ℤ) : ℚ) := by
    rw [Int.cast_add, Int.cast_mul, ha, hb, hc]
  rw [hcast, Rat.den_intCast]

lemma den_coefficientOf {coefficients : List (ℕ × ℚ)} (h : ∀ entry ∈ coefficients, entry.2.den = 1)
    (v : ℕ) : (coefficientOf coefficients v).den = 1 := by
  induction coefficients with
  | nil => rfl
  | cons entry rest ih =>
    obtain ⟨hentry, hrest⟩ := List.forall_mem_cons.1 h
    rw [coefficientOf_cons]
    split
    · exact hentry
    · exact ih hrest

lemma den_addEntry {coefficients : List (ℕ × ℚ)} {entry : ℕ × ℚ} {scale : ℚ} (hs : scale.den = 1)
    (h : ∀ entry ∈ coefficients, entry.2.den = 1) (hentry : entry.2.den = 1) :
    ∀ item ∈ LinearExpression.addEntry scale coefficients entry, item.2.den = 1 := by
  intro item hm
  rw [LinearExpression.addEntry] at hm
  split at hm
  · exact h item (List.mem_filter.1 hm).1
  · rcases mem_insertEntry hm with rfl | hm
    · exact den_add_mul (den_coefficientOf h _) hentry hs
    · exact h item hm

namespace TermStore

variable {e e' : LinearExpression}

lemma IntegerVariables.addScaled (he : s.IntegerVariables e) (he' : s.IntegerVariables e')
    (scale : ℚ) : s.IntegerVariables (e.addScaled e' scale) := by
  intro item hm
  rcases LinearExpression.mem_addScaled hm with ⟨entry, hm, heq⟩ | ⟨entry, hm, heq⟩
  · exact heq ▸ he' entry hm
  · exact heq ▸ he entry hm

lemma IntegerVariables.scaled (he : s.IntegerVariables e) (scale : ℚ) :
    s.IntegerVariables (e.scaled scale) := by
  intro item hm
  obtain ⟨entry, hm, heq⟩ := LinearExpression.mem_scaled hm
  exact heq ▸ he entry hm

lemma integerVariables_ofConstant (value : ℚ) : s.IntegerVariables (.ofConstant value) :=
  fun _ hm => absurd hm List.not_mem_nil

lemma IntegerVariables.sum {expressions : List LinearExpression}
    (h : ∀ e ∈ expressions, s.IntegerVariables e) : s.IntegerVariables (.sum expressions) := by
  have hfold : ∀ (expressions : List LinearExpression) (start : LinearExpression),
      s.IntegerVariables start → (∀ e ∈ expressions, s.IntegerVariables e) →
      s.IntegerVariables (expressions.foldl (fun result e => result.addScaled e 1) start) := by
    intro expressions
    induction expressions with
    | nil => exact fun start hs _ => hs
    | cons e rest ih =>
      intro start hs he
      obtain ⟨hfirst, hrest⟩ := List.forall_mem_cons.1 he
      exact ih _ (hs.addScaled hfirst 1) hrest
  exact hfold expressions .zero (integerVariables_ofConstant 0) h

/-- The difference of two expressions over the integers is one. -/
lemma OverIntegers.sub (he : s.OverIntegers e) (he' : s.OverIntegers e') :
    s.OverIntegers (e.addScaled e' (-1)) := by
  refine ⟨?_, he.2.addScaled he'.2 _⟩
  obtain ⟨hconstant, hcoefficients⟩ := isIntegral_iff.1 he.1
  obtain ⟨hconstant', hcoefficients'⟩ := isIntegral_iff.1 he'.1
  refine isIntegral_iff.2 ⟨den_add_mul hconstant hconstant' rfl, ?_⟩
  show ∀ entry ∈ e'.coefficients.foldl (LinearExpression.addEntry (-1)) e.coefficients,
    entry.2.den = 1
  generalize e.coefficients = coefficients at hcoefficients
  generalize e'.coefficients = added at hcoefficients'
  induction added generalizing coefficients with
  | nil => exact hcoefficients
  | cons entry rest ih =>
    obtain ⟨hentry, hrest⟩ := List.forall_mem_cons.1 hcoefficients'
    exact ih _ (den_addEntry rfl hcoefficients hentry) hrest

/-- An expression that is entered with sort Int is one over the integers. -/
lemma Typed.enterExpression (ht : s.Typed) {sort : SmtSort}
    (hsort : sort.isArithmetic = true ∧ (sort = .int → s.OverIntegers e))
    {ids : SmtSort × LinearExpression → Option ℕ} : TermStore.Typed { s with
      arithmeticExpressions := s.arithmeticExpressions ++ [(sort, e)]
      arithmeticExpressionIds := ids } :=
  { ht with
    expressions := fun entry hm => (List.mem_append.1 hm).elim (ht.expressions entry) fun hm => by
      rw [List.mem_singleton.1 hm]
      exact hsort
    arithmetic := fun node hm i hk => by
      obtain ⟨sort', e', hi, hs⟩ := ht.arithmetic node hm i hk
      refine ⟨sort', e', ?_, hs⟩
      rw [List.getElem?_append_left (List.getElem?_eq_some_iff.1 hi).1, hi] }

/-- The node of an expression is entered with the sort of the expression. -/
lemma Typed.enterNode (h : s.Ok) (ht : s.Typed) {node : TermNode}
    (hnode : ∀ i, node.kind = .arithmetic i → ∃ sort e,
      s.arithmeticExpressions[i]? = some (sort, e) ∧ s.sorts[node.sort]? = some sort)
    {interned : TermNode → Option TermId} :
    TermStore.Typed { s with nodes := s.nodes ++ [node], interned := interned } where
  applications a ha := (ht.applications a ha).later h (by constructor <;> simp)
  equalities q hq := (ht.equalities q hq).later h (by constructor <;> simp)
  ufItes item hm := by
    have he : s.Extends { s with nodes := s.nodes ++ [node], interned := interned } := by
      constructor <;> simp
    exact (ht.ufItes item hm).imp he.isBool (And.imp (Kindred.later h he) (Kindred.later h he))
  axioms term hm := Extends.isBool (by constructor <;> simp) (ht.axioms term hm)
  variableSorts := ht.variableSorts
  expressions := ht.expressions
  arithmetic node' hm i hk := by
    rcases List.mem_append.1 hm with hm | hm
    · exact ht.arithmetic node' hm i hk
    · rw [List.mem_singleton.1 hm] at hk ⊢
      exact hnode i hk
  arithmeticItes item hm := by
    have he : s.Extends { s with nodes := s.nodes ++ [node], interned := interned } := by
      constructor <;> simp
    exact (ht.arithmeticItes item hm).imp he.isBool (HaveSort.later h he)

/-- The expression of a term of sort Int is one over the integers. -/
lemma Typed.overIntegers (h : s.Ok) (ht : s.Typed) (he : s.Expresses t e)
    (hs : s.sort? t = some .int) : s.OverIntegers e := by
  obtain ⟨sortId, i, range, hn, hi⟩ := he
  obtain ⟨node, hn', hsort⟩ := (sort?_eq_some_iff h).1 hs
  obtain rfl := Option.some.inj (hn.symm.trans hn')
  obtain ⟨sort, e', hi', hsort'⟩ := ht.arithmetic _ (List.mem_of_getElem? hn) i rfl
  obtain ⟨rfl, rfl⟩ := Prod.mk.inj (Option.some.inj (hi.symm.trans hi'))
  exact (ht.expressions _ (List.mem_of_getElem? hi)).2 (Option.some.inj (hsort'.symm.trans hsort))

end TermStore

section

variable (h : s.Ok) (ht : s.Typed)
include h ht

lemma arithmeticExpressionAs_typed (t : TermId) (target : SmtSort) :
    Spec False (arithmeticExpressionAs t target) s fun e s' => s = s' ∧
      e.WellFormed s.arithmeticVariableSorts.length ∧ (target = .int → s.OverIntegers e) := by
  refine .bind (requireArithmetic_spec h t) ?_
  rintro source _ - - ⟨rfl, hs, harith⟩
  split
  · exact .fail h id
  next hreal =>
  split
  · exact .fail h id
  · refine (arithmeticExpressionForTerm_spec h (lt_of_sort? hs)).weaken ?_
    rintro e _ - - ⟨rfl, hw, he⟩
    refine ⟨rfl, hw, fun htarget => ht.overIntegers h he ?_⟩
    cases source <;> simp_all [SmtSort.isArithmetic]

lemma internArithmeticExpression_types {sort : SmtSort} {e : LinearExpression}
    (hw : e.WellFormed s.arithmeticVariableSorts.length)
    (hsort : sort.isArithmetic = true ∧ (sort = .int → s.OverIntegers e)) :
    TypesAt (internArithmeticExpression sort e) s := by
  have hspec : Spec False (internArithmeticExpression sort e) s _ :=
    internArithmeticExpression_spec h hw
  refine ⟨hspec.1, hspec.2.1, ?_⟩
  clear hspec
  dsimp only [internArithmeticExpression, Bind.bind, TermM.get]
  cases s.arithmeticExpressionIds (sort, e) with
  | some i => exact ht
  | none =>
    refine after_bind (checkIndex_spec (T := False) h False.elim) (P := Typed) ?_ ?_
    · exact (TypesAt.of_spec h ht (checkIndex_spec (T := False) h False.elim)).2.2
    rintro _ _ - - - ⟨rfl, -⟩
    exact ht.enterExpression hsort

/-- The coefficients of an integer expression are checked, and its variables are those of terms of
sort Int. -/
lemma makeArithmeticTerm_types {sort : SmtSort} {e : LinearExpression}
    (hw : e.WellFormed s.arithmeticVariableSorts.length)
    (hvars : sort = .int → s.IntegerVariables e) : TypesAt (makeArithmeticTerm sort e) s := by
  have hspec : Spec False (makeArithmeticTerm sort e) s _ := makeArithmeticTerm_spec h hw
  refine ⟨hspec.1, hspec.2.1, ?_⟩
  rw [makeArithmeticTerm]
  split
  · exact ht
  split
  · exact ht
  next harith hintegral =>
  have hint : sort.isArithmetic = true ∧ (sort = .int → s.OverIntegers e) := by
    refine ⟨by simpa using harith, fun hsort => ⟨?_, hvars hsort⟩⟩
    simpa [hsort] using hintegral
  have hintern : Spec False (internArithmeticExpression sort e) s _ :=
    internArithmeticExpression_spec h hw
  refine after_bind hintern (internArithmeticExpression_types h ht hw hint).2.2 ?_
  rintro i s₁ he₁ h₁ ht₁ ⟨-, hi, -⟩
  have hid : Spec False (sortIdFor sort) s₁ _ := sortIdFor_spec h₁ False.elim
  refine after_bind hid (TypesAt.of_spec h₁ ht₁ hid).2.2 ?_
  rintro sortId s₂ he₂ h₂ ht₂ ⟨hs, -⟩
  -- the new node has the sort of its expression
  show (intern sortId (.arithmetic i) s₂).2.Typed
  have hnew : ∃ sort e, s₂.arithmeticExpressions[i]? = some (sort, e) ∧
      s₂.sorts[sortId]? = some sort := by
    obtain ⟨suffix, hsuffix⟩ := he₂.arithmeticExpressions
    refine ⟨sort, e, ?_, hs⟩
    rw [← hsuffix, List.getElem?_append_left (List.getElem?_eq_some_iff.1 hi).1, hi]
  dsimp only [intern, Bind.bind, TermM.get]
  cases s₂.interned ⟨sortId, .arithmetic i⟩ with
  | some r => exact ht₂
  | none =>
    exact ht₂.enterNode h₂ fun j hj => (by cases hj; exact hnew)

lemma freshArithmeticVariable_types (sort : SmtSort) :
    TypesAt (freshArithmeticVariable sort) s := by
  rw [freshArithmeticVariable]
  split
  · exact .fail h ht
  next harith =>
  refine .get (.framed h ht (checkIndex_spec h False.elim) ?_)
  rintro _ _ - - - ⟨rfl, -⟩
  have he : s.Extends { s with
      arithmeticVariableSorts := s.arithmeticVariableSorts ++ [sort] } := by
    constructor <;> simp
  have hok : TermStore.Ok { s with
      arithmeticVariableSorts := s.arithmeticVariableSorts ++ [sort] } :=
    { h with
      nodes := fun i n hn => he.nodeOk (h.nodes i n hn)
      bounded := fun e hm => (h.bounded e hm).mono he.arithmeticVariableSorts.length_le
      applications := fun a ha => h.applicationOk_extends he (h.applications a ha) }
  have htyped : TermStore.Typed { s with
      arithmeticVariableSorts := s.arithmeticVariableSorts ++ [sort] } :=
    { ht with
      variableSorts := fun sort' hm => (List.mem_append.1 hm).elim (ht.variableSorts sort')
        fun hm => by
        rw [List.mem_singleton.1 hm]
        simpa using harith
      expressions := fun entry hm =>
        (ht.expressions entry hm).imp_right fun hint hs => (hint hs).later he }
  have hmake : TypesAt (makeArithmeticTerm sort _) _ := makeArithmeticTerm_types hok htyped
    (LinearExpression.wellFormed_variable (v := s.arithmeticVariableSorts.length) (by simp)) ?_
  · exact ⟨he.trans hmake.1, hmake.2⟩
  · rintro rfl
    simp [IntegerVariables, LinearExpression.ofVariable]

end

/-- Operations that only read know the store they started in. -/
lemma loop_unchanged {f : β → α → TermM β} {I : β → Prop} (h : s.Ok)
    (hf : ∀ b a, I b → Spec False (f b a) s fun b' s' => s = s' ∧ I b') {b : β} (hb : I b)
    (list : List α) : Spec False (loop f b list) s fun b' s' => s = s' ∧ I b' := by
  induction list generalizing b with
  | nil => exact .pure h ⟨rfl, hb⟩
  | cons a rest ih =>
    refine .bind (hf b a hb) ?_
    rintro b' _ - - ⟨rfl, hb'⟩
    exact ih hb'

lemma collect_unchanged {f : α → TermM β} {I : β → Prop} (h : s.Ok)
    (hf : ∀ a, Spec False (f a) s fun b s' => s = s' ∧ I b) (list : List α) :
    Spec False (collect f list) s fun bs s' => s = s' ∧ ∀ b ∈ bs, I b := by
  induction list with
  | nil => exact .pure h ⟨rfl, by simp⟩
  | cons a rest ih =>
    refine .bind (hf a) ?_
    rintro b _ - - ⟨rfl, hb⟩
    refine .bind ih ?_
    rintro bs _ - - ⟨rfl, hbs⟩
    exact .pure h ⟨rfl, List.forall_mem_cons.2 ⟨hb, hbs⟩⟩

instance (sort : SmtSort) : Types (freshArithmeticVariable sort) :=
  ⟨fun _ h ht => freshArithmeticVariable_types h ht sort⟩

instance (sort : SmtSort) (value : ℚ) : Types (arithmeticConstant sort value) :=
  ⟨fun _ h ht => makeArithmeticTerm_types h ht (LinearExpression.wellFormed_constant _ value)
    fun _ => integerVariables_ofConstant value⟩

instance (terms : List TermId) : Types (arithmeticAdd terms) := by
  refine ⟨fun s h ht => ?_⟩
  unfold arithmeticAdd
  split
  · exact .fail h ht
  refine .framed h ht (Spec.of_keeps h) fun sort s₁ _ h₁ ht₁ _ => ?_
  refine .framed h₁ ht₁ (collect_unchanged h₁
    (fun term => arithmeticExpressionAs_typed h₁ ht₁ term sort)
    terms) ?_
  rintro es _ - - - ⟨rfl, hes⟩
  exact makeArithmeticTerm_types h₁ ht₁ (.sum fun e hm => (hes e hm).1)
    fun hsort => .sum fun e hm => ((hes e hm).2 hsort).2

instance (term : TermId) : Types (arithmeticNegate term) := by
  refine ⟨fun s h ht => .framed h ht (requireArithmetic_spec h term) ?_⟩
  rintro sort _ - - - ⟨rfl, hs, -⟩
  refine .framed h ht (arithmeticExpressionForTerm_spec h (lt_of_sort? hs)) ?_
  rintro e _ - - - ⟨rfl, hw, he⟩
  refine makeArithmeticTerm_types h ht (hw.scaled _) fun hsort => ?_
  exact (ht.overIntegers h he (hsort ▸ hs)).2.scaled _

instance (terms : List TermId) : Types (arithmeticSub terms) := by
  unfold arithmeticSub
  split
  · infer_instance
  · infer_instance
  next first rest _ =>
  refine ⟨fun s h ht => .framed h ht (Spec.of_keeps h) fun sort s₁ _ h₁ ht₁ _ => ?_⟩
  refine .framed h₁ ht₁ (arithmeticExpressionAs_typed h₁ ht₁ first sort) ?_
  rintro result _ - - - ⟨rfl, hw, hint⟩
  refine .framed h₁ ht₁ (loop_unchanged (I := fun e =>
      LinearExpression.WellFormed s₁.arithmeticVariableSorts.length e ∧
        (sort = .int → s₁.IntegerVariables e)) h₁ ?_ ⟨hw, fun hsort => (hint hsort).2⟩ rest) ?_
  · rintro e term ⟨he, hvars⟩
    refine .bind (arithmeticExpressionAs_typed h₁ ht₁ term sort) ?_
    rintro e' _ - - ⟨rfl, he', hint'⟩
    exact .pure h₁ ⟨rfl, he.addScaled he' _, fun hsort => (hvars hsort).addScaled (hint' hsort).2 _⟩
  · rintro e _ - - - ⟨rfl, he, hvars⟩
    exact makeArithmeticTerm_types h₁ ht₁ he hvars

instance (sort : SmtSort) (factors : ℚ × Option LinearExpression) (term : TermId) :
    Frames theoryTables (multiplyFactor sort factors term) := by
  unfold multiplyFactor
  refine .of_bind fun expression => @Frames.ite _ _ _ _ _ _ _ inferInstance ?_
  split <;> infer_instance

instance (terms : List TermId) : Types (arithmeticMul terms) := by
  refine ⟨fun s h ht => ?_⟩
  unfold arithmeticMul
  split
  · exact .fail h ht
  refine .framed h ht (Spec.of_keeps h) fun sort s₁ _ h₁ ht₁ _ => ?_
  refine .framed h₁ ht₁ (loop_unchanged (I := fun factors => ∀ e, factors.2 = some e →
      LinearExpression.WellFormed s₁.arithmeticVariableSorts.length e ∧
        (sort = .int → s₁.IntegerVariables e)) h₁ ?_ (by simp) terms) ?_
  · rintro ⟨scale, factor⟩ term hfactor
    refine .bind (arithmeticExpressionAs_typed h₁ ht₁ term sort) ?_
    rintro e _ - - ⟨rfl, he, hint⟩
    split
    · exact .pure h₁ ⟨rfl, hfactor⟩
    · cases factor with
      | none =>
        refine .pure h₁ ⟨rfl, ?_⟩
        rintro _ ⟨⟩
        exact ⟨he, fun hsort => (hint hsort).2⟩
      | some e' => exact .fail h₁ id
  · rintro ⟨scale, factor⟩ _ - - - ⟨rfl, hfactor⟩
    cases factor with
    | none =>
      exact makeArithmeticTerm_types h₁ ht₁ (LinearExpression.wellFormed_constant _ scale)
        fun _ => integerVariables_ofConstant scale
    | some e =>
      obtain ⟨he, hvars⟩ := hfactor e rfl
      exact makeArithmeticTerm_types h₁ ht₁ (he.scaled scale) fun hsort =>
        (hvars hsort).scaled scale

instance (numerator denominator : TermId) : Types (arithmeticDivide numerator denominator) := by
  refine ⟨fun s h ht => .framed h ht (requireArithmetic_spec h numerator) ?_⟩
  rintro _ _ - - - ⟨rfl, -, -⟩
  refine .framed h ht (requireArithmetic_spec h denominator) ?_
  rintro _ _ - - - ⟨rfl, hs, -⟩
  refine .framed h ht (arithmeticExpressionForTerm_spec h (lt_of_sort? hs)) ?_
  rintro divisor _ - - - ⟨rfl, -⟩
  split
  · exact .fail h ht
  split
  · exact .fail h ht
  refine .framed h ht (arithmeticExpressionAs_typed h ht numerator .real) ?_
  rintro e _ - - - ⟨rfl, he, -⟩
  exact makeArithmeticTerm_types h ht (he.scaled _) fun hsort => (by cases hsort)

instance (term : TermId) (target : SmtSort) : Types (coerceArithmeticTerm term target) := by
  refine ⟨fun s h ht => .framed h ht (sortOf_spec h False.elim) ?_⟩
  rintro sort _ - - - ⟨rfl, hs⟩
  split
  · exact .pure h ht
  refine .framed h ht (arithmeticExpressionAs_typed h ht term target) ?_
  rintro e _ - - - ⟨rfl, he, hint⟩
  exact makeArithmeticTerm_types h ht he fun hsort => (hint hsort).2

instance (term : TermId) : Types (arithmeticToReal term) := by
  unfold arithmeticToReal
  infer_instance

lemma commonArithmeticSort_isArithmetic (h : s.Ok) (terms : List TermId) :
    Spec False (commonArithmeticSort terms) s fun sort s' => s = s' ∧ sort.isArithmetic = true := by
  refine loop_unchanged (I := fun sort : SmtSort => sort.isArithmetic = true) h ?_ rfl terms
  intro result term hresult
  refine .bind (requireArithmetic_spec h term) ?_
  rintro sort _ - - ⟨rfl, -, -⟩
  split
  · exact .pure h ⟨rfl, rfl⟩
  · exact .pure h ⟨rfl, hresult⟩

instance (left right : TermId) (strict : Bool) :
    Types (arithmeticComparison left right strict) := by
  refine ⟨fun s h ht => .framed h ht (commonArithmeticSort_isArithmetic h _) ?_⟩
  rintro sort s₁ - h₁ ht₁ ⟨-, harith⟩
  refine .framed h₁ ht₁ (arithmeticExpressionAs_typed h₁ ht₁ left sort) ?_
  rintro e _ - - - ⟨rfl, he, hint⟩
  refine .framed h₁ ht₁ (arithmeticExpressionAs_typed h₁ ht₁ right sort) ?_
  rintro e' _ - - - ⟨rfl, he', hint'⟩
  dsimp only
  split
  · exact .pure h₁ ht₁
  refine .bind (internArithmeticExpression_types h₁ ht₁ (he.addScaled he' _) ⟨harith, fun hsort =>
    (hint hsort).sub (hint' hsort)⟩) fun i s₂ _ h₂ ht₂ => ?_
  refine .get ?_
  split
  · exact .pure h₂ ht₂
  next hnone =>
  have : Frames theoryTables (do
      let symbol ← freshSymbol
      let term ← intern boolSort (.arithmeticPredicate symbol i strict)
      modify fun s => { s with
        arithmeticPredicateTerms :=
          Function.update s.arithmeticPredicateTerms (i, strict) (some term)
        arithmeticPredicates := s.arithmeticPredicates ++ [⟨term, i, strict⟩] }
      pure term : TermM TermId) := by
    refine .of_bind fun symbol => .of_bind fun term => ?_
    exact @Frames.of_bind _ _ _ _ _ _ ⟨fun _ => rfl⟩ fun _ => inferInstance
  exact .of_spec h₂ ht₂ (arithmeticPredicate_spec h₂ hnone)

instance (terms : List TermId) : Types (mkAnd terms) := .of_frames

instance (left right : TermId) : Types (arithmeticEquivalent left right) := by
  unfold arithmeticEquivalent arithmeticLe arithmeticGe
  infer_instance

instance (width : ℕ) : Types (freshBitvec width) := .of_frames

instance : Types freshBoolAtom := .of_frames

instance (sort : SmtSort) : Types (freshTerm sort) := by
  cases sort with
  | bool => exact inferInstanceAs (Types freshBoolAtom)
  | bitVec width => exact inferInstanceAs (Types (freshBitvec width))
  | int | real => exact inferInstanceAs (Types (freshArithmeticVariable _))
  | uninterpreted | array =>
    exact @Types.of_frames _ _ (keeps_freshUfConstant (by simp) _)
      (inferInstanceAs (Frames theoryTables (freshUfConstant _ _)))

lemma coerceArithmeticTerm_sort (h : s.Ok) (term : TermId) (target : SmtSort) :
    Spec False (coerceArithmeticTerm term target) s fun r s' => s'.sort? r = some target := by
  refine .bind (sortOf_spec h False.elim) ?_
  rintro sort _ - - ⟨rfl, hs⟩
  split
  · next heq => exact .pure h (heq ▸ hs)
  · refine .bind (arithmeticExpressionAs_spec h term target) ?_
    rintro e _ - - ⟨rfl, hw, -⟩
    exact (makeArithmeticTerm_spec h hw).weaken fun _ _ _ _ hr => hr.1

/-- A conditional is entered with the sort of its branches. -/
lemma arithmeticIte_types (h : s.Ok) (ht : s.Typed) {condition : TermId} (hc : s.IsBool condition)
    (thenTerm elseTerm : TermId) : TypesAt (arithmeticIte condition thenTerm elseTerm) s := by
  refine .framed h ht (commonArithmeticSort_isArithmetic h _) ?_
  rintro sort _ - - - ⟨rfl, harith⟩
  refine .bind_spec (.of_types h ht) (coerceArithmeticTerm_sort h thenTerm sort) ?_
  intro thenTerm s₁ he₁ h₁ ht₁ hthen
  refine .bind_spec (.of_types h₁ ht₁) (coerceArithmeticTerm_sort h₁ elseTerm sort) ?_
  intro elseTerm s₂ he₂ h₂ ht₂ helse
  refine .get ?_
  split
  · exact .pure h₂ ht₂
  next hnone =>
  have hspec := arithmeticIte_spec h₂ hnone
  refine ⟨hspec.1, hspec.2.1, ?_⟩
  refine after_bind (freshArithmeticVariable_spec h₂ sort)
    (freshArithmeticVariable_types h₂ ht₂ sort).2.2 ?_
  rintro r s₃ he₃ h₃ ht₃ ⟨hr, -, -⟩
  refine { ht₃ with arithmeticItes := fun item hm => ?_ }
  rcases List.mem_append.1 hm with hm | hm
  · exact ht₃.arithmeticItes item hm
  · rw [List.mem_singleton.1 hm]
    refine ⟨(he₁.trans (he₂.trans he₃)).isBool hc, sort, harith, ?_⟩
    simp only [List.forall_mem_cons, List.not_mem_nil, false_implies, implies_true, and_true]
    exact ⟨hr, sort?_later h₁ (he₂.trans he₃) hthen, sort?_later h₂ he₃ helse⟩

end Satrap.Smt
