/-
# Congruence

What the steps of the check of `UfTheory` rest on.  A merge is justified by assigned literals that
hold only in models with equal readings, applications with one key have equal results in every
model for the same kind of reason, and a result that is not abstract either agrees already or gives
a clause that is valid and false under the assignment.
-/
import Satrap.Smt.Closure

namespace Satrap.Smt

open Logic TermStore TermM

/-! ### Models of a store -/

namespace TermStore

variable {V : Type}

/-- Functions map equal arguments to equal results. -/
def Functional (s : TermStore) (I : Interpretation V) : Prop :=
  ∀ a ∈ s.applications, ∀ b ∈ s.applications, a.function = b.function →
    List.Forall₂ (s.Same I) a.arguments b.arguments → s.Same I a.result b.result

/-- Atoms, functions and the axioms of arrays have their meaning. -/
structure Models (s : TermStore) (I : Interpretation V) : Prop where
  agrees : s.Agrees I
  functional : s.Functional I
  axioms : ∀ t ∈ s.arrayAxioms, s.evaluate I.atom t = true

/-- The number of an arithmetic term, or the element of an abstract one. -/
def reading (s : TermStore) (I : Interpretation V) (t : TermId) : V ⊕ ℚ :=
  if (s.sort? t).any SmtSort.isArithmetic then .inr (s.numeric I.number t) else .inl (I.element t)

/-- The terms have one abstract sort, or are both arithmetic. -/
def Comparable (s : TermStore) (t u : TermId) : Prop :=
  s.Kindred t u ∨ (s.sort? t).any SmtSort.isArithmetic = true ∧
    (s.sort? u).any SmtSort.isArithmetic = true

lemma same_iff_reading {s : TermStore} {t u : TermId} (h : s.Comparable t u)
    (I : Interpretation V) : s.Same I t u ↔ s.reading I t = s.reading I u := by
  unfold reading Same
  rcases h with ⟨sort, habstract, ht, hu⟩ | ⟨ht, hu⟩
  · rw [ht, hu]
    cases sort <;> simp_all [SmtSort.isAbstract, SmtSort.isArithmetic]
  · rw [if_pos ht, if_pos hu, Sum.inr.injEq]
    obtain ⟨sort, hsort, harith⟩ := Option.any_eq_true _ _ |>.1 ht
    rw [hsort]
    cases sort <;> simp_all [SmtSort.isArithmetic]

end TermStore

variable {s : TermStore} {th : UfTheory}

/-- The literal is true. -/
def SignedTerm.Holds (s : TermStore) (ρ : SymbolId → Bool) (l : SignedTerm) : Prop :=
  s.evaluate ρ l.term = l.positive

/-- Some literal of the clause is true in every model. -/
def TheoryLemma.Valid (s : TermStore) (clause : TheoryLemma) : Prop :=
  ∀ (V : Type) (I : Interpretation V), s.Models I → ∃ l ∈ clause.literals, l.Holds s I.atom

/-- The literal is assigned true, and its term is one of the required ones. -/
def UfTheory.Assigned (th : UfTheory) (l : SignedTerm) : Prop :=
  th.value l.term = l.positive ∧ l.term ∈ th.required

/-- The clause is valid, and false under the assignment. -/
structure Blocks (s : TermStore) (th : UfTheory) (clause : TheoryLemma) : Prop where
  refuted : ∀ l ∈ clause.literals, th.value l.term ≠ l.positive
  required : ∀ l ∈ clause.literals, l.term ∈ th.required
  valid : clause.Valid s

/-- An explanation of a literal that is assigned false gives a conflict. -/
lemma conflictLemma_blocks {explanation : List SignedTerm} {consequence : SignedTerm}
    (hassigned : ∀ l ∈ explanation, th.Assigned l)
    (hfalse : th.value consequence.term ≠ consequence.positive)
    (hrequired : consequence.term ∈ th.required)
    (hvalid : ∀ (V : Type) (I : Interpretation V), s.Models I →
      (∀ l ∈ explanation, l.Holds s I.atom) → consequence.Holds s I.atom) :
    Blocks s th (conflictLemma explanation consequence) := by
  have hmem : ∀ l, l ∈ (conflictLemma explanation consequence).literals ↔
      (∃ l' ∈ explanation, l'.negate = l) ∨ l = consequence := fun l => by
    simp [conflictLemma]
  refine ⟨fun l hl => ?_, fun l hl => ?_, fun V I hI => ?_⟩
  · rcases (hmem l).1 hl with ⟨l', hl', rfl⟩ | rfl
    · rw [SignedTerm.negate, (hassigned l' hl').1]
      exact (Bool.not_ne_self _).symm
    · exact hfalse
  · rcases (hmem l).1 hl with ⟨l', hl', rfl⟩ | rfl
    · exact (hassigned l' hl').2
    · exact hrequired
  · by_cases hall : ∀ l ∈ explanation, l.Holds s I.atom
    · exact ⟨consequence, (hmem _).2 (.inr rfl), hvalid V I hI hall⟩
    · push Not at hall
      obtain ⟨l, hl, hnot⟩ := hall
      exact ⟨l.negate, (hmem _).2 (.inl ⟨l, hl, rfl⟩), Bool.eq_not.2 hnot⟩

/-! ### The theory after its preparation -/

/-- An application of the store with the signature of its function. -/
def Resolves (s : TermStore) (i : ℕ) (entry : Application × FunctionSignature) : Prop :=
  s.applications[i]? = some entry.1 ∧ s.functions[entry.1.function]? = some entry.2

lemma signature_eq {a b : Application × FunctionSignature}
    (ha : s.functions[a.1.function]? = some a.2) (hb : s.functions[b.1.function]? = some b.2)
    (h : a.1.function = b.1.function) : a.2 = b.2 :=
  Option.some.inj (ha.symm.trans (h ▸ hb))

/-- The equality of a shared pair of arithmetic terms. -/
structure SharedOk (s : TermStore) (th : UfTheory) (q : TheoryEquality) : Prop where
  left : q.left ∈ th.sharedArithmeticTerms
  right : q.right ∈ th.sharedArithmeticTerms
  required : q.term ∈ th.required
  decided : ∀ ρ, Decided s ρ id q.left q.right q.term

/-- What the preparation gives to the check. -/
structure Prepared (s : TermStore) (th : UfTheory)
    (applications : List (Application × FunctionSignature)) : Prop where
  resolves : List.Forall₂ (Resolves s) th.relevantApplications applications
  equalities : ∀ i ∈ th.relevantTheoryEqualities, ∃ q, s.theoryEqualities[i]? = some q ∧
    q.term ∈ th.required
  ufItes : ∀ i ∈ th.relevantUfItes, ∃ item, s.ufItes[i]? = some item ∧
    item.condition ∈ th.required
  axioms : ∀ t ∈ s.arrayAxioms, t ∈ th.required
  shared : ∀ q ∈ th.sharedArithmeticEqualities, SharedOk s th q
  sharedSorts : ∀ t ∈ th.sharedArithmeticTerms, (s.sort? t).any SmtSort.isArithmetic = true
  arithmetic : ∀ entry ∈ applications, ∀ e ∈ sortedTerms entry, e.2.isArithmetic = true →
    e.1 ∈ th.sharedArithmeticTerms
  lowered : ∀ entry ∈ applications,
    2 ≤ applications.countP (fun other => decide (other.1.function = entry.1.function)) →
    ∀ e ∈ sortedTerms entry, ∀ bits, loweredBits s e.1 e.2 = some bits → bits ⊆ th.required
  paired : applications.Pairwise fun x y => x.1.function = y.1.function →
    ∀ e ∈ sortedPairs (x, y), e.2.isArithmetic = true → e.1.1 ≠ e.1.2 →
      ∃ q ∈ th.sharedArithmeticEqualities, orderedPair e.1.1 e.1.2 = (q.left, q.right) ∧
        th.sharedArithmeticEqualityTerms (q.left, q.right) = some q.term

/-- The partition is justified by the assignment. -/
structure Backed (s : TermStore) (th : UfTheory) (c : Closure) : Prop where
  ok : c.Ok
  terms : c.terms = th.closureTerms s
  uses : c.Uses th.Assigned
  explains : ∀ (V : Type) (I : Interpretation V), s.Models I →
    c.Explains (s.reading I) fun l => l.Holds s I.atom

/-- The classes have only been merged. -/
structure Coarser (c c' : Closure) : Prop where
  terms : c'.terms = c.terms
  joined : ∀ t u, c.Joined t u → c'.Joined t u

/-! ### Equalities and conditionals -/

lemma Coarser.refl (c : Closure) : Coarser c c := ⟨rfl, fun _ _ => id⟩

lemma Coarser.trans {c₁ c₂ c₃ : Closure} (h : Coarser c₁ c₂) (h' : Coarser c₂ c₃) :
    Coarser c₁ c₃ := ⟨h'.terms.trans h.terms, fun t u ht => h'.joined t u (h.joined t u ht)⟩

lemma Closure.Joins.coarser {c c' : Closure} {t u : TermId} {reason : List SignedTerm}
    {changed : Bool} (h : Closure.Joins c t u reason changed c') : Coarser c c' :=
  ⟨h.terms, fun a b hab => (h.joined a b).2 (.inl hab)⟩

lemma Closure.Joins.merged {c c' : Closure} {t u : TermId} {reason : List SignedTerm}
    {changed : Bool} (h : Closure.Joins c t u reason changed c') (ht : t ∈ c.terms)
    (hu : u ∈ c.terms) : c'.Joined t u :=
  (h.joined t u).2 (.inr (.inl ⟨Closure.joined_refl ht, Closure.joined_refl hu⟩))

/-- The terms of the partition are the abstract terms and the shared arithmetic ones. -/
lemma mem_closureTerms {t : TermId} : t ∈ th.closureTerms s ↔
    (∃ sort, s.sort? t = some sort ∧ sort.isAbstract = true) ∨ t ∈ th.sharedArithmeticTerms := by
  rw [UfTheory.closureTerms, mem_sortDedup, List.mem_append, List.mem_filter, List.mem_range]
  refine or_congr ⟨?_, ?_⟩ Iff.rfl
  · rintro ⟨-, habstract⟩
    cases hs : s.sort? t with
    | none => simp [hs] at habstract
    | some sort => exact ⟨sort, rfl, by simpa [hs] using habstract⟩
  · rintro ⟨sort, hs, habstract⟩
    exact ⟨lt_of_sort? hs, by simpa [hs] using habstract⟩

namespace Backed

lemma new : Backed s th (.new (th.closureTerms s)) where
  ok := Closure.ok_new (List.nodup_dedup _)
  terms := rfl
  uses := Closure.uses_new _ _
  explains _ _ _ := Closure.explains_new _ _ _

variable {c : Closure} (h : Backed s th c)
include h

lemma mem_terms {t : TermId} : t ∈ c.terms ↔ t ∈ th.closureTerms s := by rw [h.terms]

/-- A merge that the assignment justifies. -/
lemma union {t u : TermId} (ht : t ∈ th.closureTerms s) (hu : u ∈ th.closureTerms s)
    {reason : List SignedTerm} (hreason : ∀ l ∈ reason, th.Assigned l)
    (hvalid : ∀ (V : Type) (I : Interpretation V), s.Models I →
      (∀ l ∈ reason, l.Holds s I.atom) → s.reading I t = s.reading I u) :
    ∃ changed c', c.union t u reason = some (changed, c') ∧ Backed s th c' ∧
      Closure.Joins c t u reason changed c' := by
  obtain ⟨changed, c', heq, hjoins⟩ :=
    h.ok.union_joins (h.mem_terms.2 ht) (h.mem_terms.2 hu) reason
  exact ⟨changed, c', heq, ⟨hjoins.ok, hjoins.terms.trans h.terms, hjoins.uses _ h.uses hreason,
    fun V I hI => hjoins.explains _ _ (h.explains V I hI) (hvalid V I hI)⟩, hjoins⟩

end Backed

/-- The atom of an equality between terms of the partition. -/
structure Equality (s : TermStore) (th : UfTheory) (q : TheoryEquality) : Prop where
  left : q.left ∈ th.closureTerms s
  right : q.right ∈ th.closureTerms s
  required : q.term ∈ th.required
  meaning : ∀ (V : Type) (I : Interpretation V), s.Models I →
    (s.evaluate I.atom q.term = true ↔ s.reading I q.left = s.reading I q.right)

lemma assertEqualities_spec {equalities : List TheoryEquality} {c : Closure}
    (hq : ∀ q ∈ equalities, Equality s th q) (h : Backed s th c) :
    ∃ c', th.assertEqualities equalities c = some c' ∧ Backed s th c' ∧ Coarser c c' ∧
      ∀ q ∈ equalities, th.value q.term = true → c'.Joined q.left q.right := by
  induction equalities generalizing c with
  | nil => exact ⟨c, rfl, h, .refl c, nofun⟩
  | cons q rest ih =>
    rw [List.forall_mem_cons] at hq
    unfold UfTheory.assertEqualities
    split
    · next hvalue =>
      have hassigned : ∀ l ∈ [SignedTerm.asserted q.term], th.Assigned l := by
        rintro l hl
        rw [List.mem_singleton.1 hl]
        exact ⟨hvalue, hq.1.required⟩
      obtain ⟨changed, c₁, heq, hbacked, hjoins⟩ := h.union hq.1.left hq.1.right hassigned
        fun V I hI hall => (hq.1.meaning V I hI).1 (hall _ (List.mem_singleton_self _))
      obtain ⟨c', hrest, hbacked', hcoarser, hjoined⟩ := ih hq.2 hbacked
      rw [heq]
      refine ⟨c', hrest, hbacked', hjoins.coarser.trans hcoarser,
        List.forall_mem_cons.2 ⟨fun _ => ?_, hjoined⟩⟩
      exact hcoarser.joined _ _ (hjoins.merged (h.mem_terms.2 hq.1.left) (h.mem_terms.2 hq.1.right))
    · next hvalue =>
      obtain ⟨c', hrest, hbacked', hcoarser, hjoined⟩ := ih hq.2 h
      exact ⟨c', hrest, hbacked', hcoarser,
        List.forall_mem_cons.2 ⟨fun htrue => absurd htrue hvalue, hjoined⟩⟩

/-- The branch that the assignment selects. -/
def UfTheory.branch (th : UfTheory) (item : UfIte) : TermId :=
  if th.value item.condition then item.thenTerm else item.elseTerm

/-- A conditional between terms of the partition. -/
structure Conditional (s : TermStore) (th : UfTheory) (item : UfIte) : Prop where
  result : item.result ∈ th.closureTerms s
  thenTerm : item.thenTerm ∈ th.closureTerms s
  elseTerm : item.elseTerm ∈ th.closureTerms s
  required : item.condition ∈ th.required
  meaning : ∀ (V : Type) (I : Interpretation V), s.Models I → s.reading I item.result =
    if s.evaluate I.atom item.condition then s.reading I item.thenTerm
      else s.reading I item.elseTerm

lemma assertUfItes_spec {items : List UfIte} {c : Closure}
    (hi : ∀ item ∈ items, Conditional s th item) (h : Backed s th c) :
    ∃ c', th.assertUfItes items c = some c' ∧ Backed s th c' ∧ Coarser c c' ∧
      ∀ item ∈ items, c'.Joined item.result (th.branch item) := by
  induction items generalizing c with
  | nil => exact ⟨c, rfl, h, .refl c, nofun⟩
  | cons item rest ih =>
    rw [List.forall_mem_cons] at hi
    have hbranch : th.branch item ∈ th.closureTerms s := by
      unfold UfTheory.branch
      split
      · exact hi.1.thenTerm
      · exact hi.1.elseTerm
    have hassigned : ∀ l ∈ [SignedTerm.mk item.condition (th.value item.condition)],
        th.Assigned l := by
      rintro l hl
      rw [List.mem_singleton.1 hl]
      exact ⟨rfl, hi.1.required⟩
    obtain ⟨changed, c₁, heq, hbacked, hjoins⟩ := h.union hi.1.result hbranch hassigned
      fun V I hI hall => by
        have hcondition : s.evaluate I.atom item.condition = th.value item.condition :=
          hall _ (List.mem_singleton_self _)
        rw [hi.1.meaning V I hI, hcondition]
        unfold UfTheory.branch
        split <;> rfl
    obtain ⟨c', hrest, hbacked', hcoarser, hjoined⟩ := ih hi.2 hbacked
    unfold UfTheory.assertUfItes
    dsimp only
    rw [← UfTheory.branch, heq]
    refine ⟨c', hrest, hbacked', hjoins.coarser.trans hcoarser,
      List.forall_mem_cons.2 ⟨?_, hjoined⟩⟩
    exact hcoarser.joined _ _ (hjoins.merged (h.mem_terms.2 hi.1.result) (h.mem_terms.2 hbranch))

/-- The equalities that are false although their sides are in one class, if there are any. -/
lemma deniedEquality_spec {equalities : List TheoryEquality} {c : Closure}
    (hq : ∀ q ∈ equalities, Equality s th q) (h : Backed s th c) :
    ∃ outcome, th.deniedEquality c equalities = some outcome ∧
      (∀ clause, outcome = some clause → Blocks s th clause) ∧
      (outcome = none → ∀ q ∈ equalities, c.Joined q.left q.right → th.value q.term = true) := by
  induction equalities with
  | nil => exact ⟨none, rfl, nofun, fun _ => nofun⟩
  | cons q rest ih =>
    rw [List.forall_mem_cons] at hq
    obtain ⟨outcome, hrest, hblocks, hnone⟩ := ih hq.2
    unfold UfTheory.deniedEquality
    split
    · next hvalue =>
      exact ⟨outcome, hrest, hblocks, fun ho => List.forall_mem_cons.2 ⟨fun _ => hvalue, hnone ho⟩⟩
    next hvalue =>
    obtain ⟨b, heq, hb⟩ := h.ok.equivalent_eq (h.mem_terms.2 hq.1.left) (h.mem_terms.2 hq.1.right)
    rw [heq]
    cases b with
    | false =>
      refine ⟨outcome, hrest, hblocks, fun ho => List.forall_mem_cons.2
        ⟨fun hjoined => ?_, hnone ho⟩⟩
      exact absurd (hb.2 hjoined) Bool.false_ne_true
    | true =>
      obtain ⟨reasons, hexplain, huses, hjustify⟩ := h.ok.explain_joined (hb.1 rfl)
      dsimp only [Option.bind_eq_bind, Option.bind_some]
      rw [if_pos rfl, hexplain]
      refine ⟨_, rfl, ?_, nofun⟩
      rintro _ ⟨⟩
      refine conflictLemma_blocks (huses _ h.uses) hvalue hq.1.required fun V I hI hall => ?_
      exact (hq.1.meaning V I hI).2 (hjustify _ _ (h.explains V I hI) hall)

/-! ### Keys of applications -/

lemma mapM_eq_some_iff {α β : Type} {f : α → Option β} {list : List α} {results : List β} :
    list.mapM f = some results ↔ List.Forall₂ (fun a b => f a = some b) list results := by
  induction list generalizing results with
  | nil => simp [eq_comm]
  | cons a rest ih =>
    simp only [List.mapM_cons, Option.bind_eq_bind, Option.bind_eq_some_iff, Option.pure_def,
      Option.some_inj, List.forall₂_cons_left_iff]
    constructor
    · rintro ⟨b, hb, bs, hbs, rfl⟩
      exact ⟨b, bs, hb, ih.1 hbs, rfl⟩
    · rintro ⟨b, bs, hb, hbs, rfl⟩
      exact ⟨b, hb, bs, ih.2 hbs, rfl⟩

lemma exists_related {α β : Type} {R : α → β → Prop} {as : List α} {bs : List β}
    (h : List.Forall₂ R as bs) {a : α} (ha : a ∈ as) : ∃ b ∈ bs, R a b := by
  induction h with
  | nil => cases ha
  | cons hr _ ih =>
    rcases List.mem_cons.1 ha with rfl | ha
    · exact ⟨_, List.mem_cons_self, hr⟩
    · obtain ⟨b, hb, hr⟩ := ih ha
      exact ⟨b, List.mem_cons_of_mem _ hb, hr⟩

lemma exists_mapM {α β : Type} {f : α → Option β} {list : List α}
    (h : ∀ a ∈ list, ∃ b, f a = some b) : ∃ results, list.mapM f = some results := by
  induction list with
  | nil => exact ⟨[], rfl⟩
  | cons a rest ih =>
    rw [List.forall_mem_cons] at h
    obtain ⟨b, hb⟩ := h.1
    obtain ⟨bs, hbs⟩ := ih h.2
    exact ⟨b :: bs, by rw [List.mapM_cons, hb, hbs]; rfl⟩

/-- The value is the one that the term had when the key was made. -/
def Matches (s : TermStore) (th : UfTheory) (c : Closure) (e : TermId × SmtSort) :
    ArgumentValue → Prop
  | .abstract r => (e.2 ≠ .bool ∧ ∀ w, e.2 ≠ .bitVec w) ∧
      ∃ u, c.terms[r]? = some u ∧ c.Joined e.1 u
  | .bool b => e.2 = .bool ∧ th.value e.1 = b
  | .bitVec bs => (∃ w, e.2 = .bitVec w) ∧ ∃ bits, s.bits? e.1 = some bits ∧ bits.map th.value = bs

/-- The terms with sorts of an application that the check looks at. -/
structure Fits (s : TermStore) (th : UfTheory) (e : TermId × SmtSort) : Prop where
  sort : s.sort? e.1 = some e.2
  shared : e.2.isArithmetic = true → e.1 ∈ th.sharedArithmeticTerms

section

variable {c : Closure} {e : TermId × SmtSort}

lemma Fits.mem_closureTerms (he : Fits s th e) (hb : e.2 ≠ .bool) (hw : ∀ w, e.2 ≠ .bitVec w) :
    e.1 ∈ th.closureTerms s := by
  rw [Smt.mem_closureTerms]
  cases hsort : e.2 with
  | bool => exact absurd hsort hb
  | bitVec w => exact absurd hsort (hw w)
  | int | real => exact .inr (he.shared (by rw [hsort]; rfl))
  | uninterpreted | array => exact .inl ⟨_, he.sort, by rw [hsort]; rfl⟩

/-- The value of an argument in a key. -/
lemma argumentValue_spec (hs : s.Ok) (h : Backed s th c) (he : Fits s th e) :
    ∃ value, th.argumentValue s c e = some value ∧ Matches s th c e value := by
  obtain ⟨t, sort⟩ := e
  have hclass : sort ≠ .bool → (∀ w, sort ≠ .bitVec w) →
      ∃ value, (c.root t).map ArgumentValue.abstract = some value ∧
        Matches s th c (t, sort) value := by
    intro hb hw
    obtain ⟨i, hi⟩ := List.mem_iff_getElem?.1 (h.mem_terms.2 (he.mem_closureTerms hb hw))
    obtain ⟨r, hlt, hroot, hfind, hfix⟩ := h.ok.root_eq hi
    rw [h.ok.size] at hlt
    refine ⟨.abstract r, by rw [hroot]; rfl, ⟨hb, hw⟩, c.terms[r], List.getElem?_eq_getElem hlt, ?_⟩
    exact ⟨i, r, hi, List.getElem?_eq_getElem hlt, hfind.trans hfix.symm⟩
  cases sort with
  | bool => exact ⟨.bool (th.value t), rfl, rfl, rfl⟩
  | bitVec w =>
    obtain ⟨bits, hbits, -⟩ := bits_of_sort hs he.sort
    exact ⟨.bitVec (bits.map th.value), by rw [UfTheory.argumentValue, hbits]; rfl, ⟨w, rfl⟩, bits,
      hbits, rfl⟩
  | int | real | uninterpreted | array => exact hclass (by simp) (by simp)

/-- What was matched stays matched when classes are merged. -/
lemma Matches.coarser {c' : Closure} {value : ArgumentValue} (h : Matches s th c e value)
    (hc : Coarser c c') : Matches s th c' e value := by
  cases value with
  | bool | bitVec => exact h
  | abstract r =>
    obtain ⟨hsort, u, hu, hjoined⟩ := h
    exact ⟨hsort, u, hc.terms ▸ hu, hc.joined _ _ hjoined⟩

end

/-- A key of an application. -/
structure KeyOf (s : TermStore) (th : UfTheory) (c : Closure)
    (entry : Application × FunctionSignature) (key : CongruenceKey) : Prop where
  function : key.function = entry.1.function
  arguments : List.Forall₂ (Matches s th c) (entry.1.arguments.zip entry.2.domain) key.arguments

lemma KeyOf.coarser {c c' : Closure} {entry : Application × FunctionSignature}
    {key : CongruenceKey} (h : KeyOf s th c entry key) (hc : Coarser c c') :
    KeyOf s th c' entry key :=
  ⟨h.function, h.arguments.imp fun _ _ hm => hm.coarser hc⟩

/-- The application is one of the store, whose terms fit. -/
structure Usable (s : TermStore) (th : UfTheory) (entry : Application × FunctionSignature) :
    Prop where
  mem : entry.1 ∈ s.applications
  signature : s.functions[entry.1.function]? = some entry.2
  lengths : entry.1.arguments.length = entry.2.domain.length
  fits : ∀ e ∈ sortedTerms entry, Fits s th e

lemma congruenceKey_spec (hs : s.Ok) {c : Closure} (h : Backed s th c)
    {entry : Application × FunctionSignature} (he : Usable s th entry) :
    ∃ key, th.congruenceKey s c entry.1 entry.2.domain = some key ∧ KeyOf s th c entry key := by
  have hfits : ∀ e ∈ entry.1.arguments.zip entry.2.domain, Fits s th e := fun e hm =>
    he.fits e (List.mem_append_left _ hm)
  obtain ⟨values, hvalues⟩ := exists_mapM fun e hm =>
    (argumentValue_spec hs h (hfits e hm)).imp fun _ hv => hv.1
  refine ⟨⟨entry.1.function, values⟩, by rw [UfTheory.congruenceKey, hvalues]; rfl, rfl, ?_⟩
  have hall := mapM_eq_some_iff.1 hvalues
  refine List.forall₂_iff_get.2 ⟨hall.length_eq, fun i hi hi' => ?_⟩
  obtain ⟨value, hvalue, hmatches⟩ := argumentValue_spec hs h (hfits _ (List.get_mem _ ⟨i, hi⟩))
  have := (List.forall₂_iff_get.1 hall).2 i hi hi'
  obtain rfl := Option.some.inj (hvalue.symm.trans this)
  exact hmatches

/-! ### Reasons for congruence -/

/-- Literals that are assigned and make the terms equal. -/
structure Equates (s : TermStore) (th : UfTheory) (reasons : List SignedTerm) (t u : TermId) :
    Prop where
  assigned : ∀ l ∈ reasons, th.Assigned l
  same : ∀ (V : Type) (I : Interpretation V), s.Models I → (∀ l ∈ reasons, l.Holds s I.atom) →
    s.Same I t u

/-- The literals that fix two lists of bits with the same values. -/
lemma bitReasons_spec {pairs : List (TermId × TermId)}
    (hvalues : ∀ p ∈ pairs, th.value p.1 = th.value p.2)
    (hrequired : ∀ p ∈ pairs, p.1 ∈ th.required ∧ p.2 ∈ th.required) :
    ∃ reasons, th.bitReasons pairs = some reasons ∧ (∀ l ∈ reasons, th.Assigned l) ∧
      ∀ ρ, (∀ l ∈ reasons, l.Holds s ρ) → ∀ p ∈ pairs, s.evaluate ρ p.1 = s.evaluate ρ p.2 := by
  induction pairs with
  | nil => exact ⟨[], rfl, nofun, fun _ _ => nofun⟩
  | cons p rest ih =>
    obtain ⟨left, right⟩ := p
    rw [List.forall_mem_cons] at hvalues hrequired
    obtain ⟨reasons, heq, hassigned, hsame⟩ := ih hvalues.2 hrequired.2
    unfold UfTheory.bitReasons
    rw [if_neg (not_not.2 hvalues.1), heq]
    refine ⟨_, rfl, ?_, fun ρ hall => ?_⟩
    · simp only [List.forall_mem_cons]
      exact ⟨⟨rfl, hrequired.1.1⟩, ⟨rfl, hrequired.1.2⟩, hassigned⟩
    · simp only [List.forall_mem_cons] at hall
      refine List.forall_mem_cons.2 ⟨?_, hsame ρ hall.2.2⟩
      exact hall.1.trans (hvalues.1.trans hall.2.1.symm)

/-- Bits that are read alike make terms equal. -/
lemma same_of_bits (hs : s.Ok) {t u : TermId} {sort : SmtSort} {V : Type} {I : Interpretation V}
    (ht : s.sort? t = some sort) (hu : s.sort? u = some sort) {bits bits' : List TermId}
    (hbits : loweredBits s t sort = some bits) (hbits' : loweredBits s u sort = some bits')
    (hsort : sort.isAbstract = false)
    (hsame : ∀ p ∈ bits.zip bits', s.evaluate I.atom p.1 = s.evaluate I.atom p.2) :
    s.Same I t u := by
  unfold Same
  rw [ht]
  cases sort with
  | bool =>
    obtain rfl := Option.some.inj hbits
    obtain rfl := Option.some.inj hbits'
    exact hsame (t, u) (by simp)
  | bitVec w =>
    obtain ⟨b, hb, hlen, -⟩ := bits_of_sort hs ht
    obtain ⟨b', hb', hlen', -⟩ := bits_of_sort hs hu
    obtain rfl := Option.some.inj (hb.symm.trans hbits)
    obtain rfl := Option.some.inj (hb'.symm.trans hbits')
    have hmaps : b.map (s.evaluate I.atom) = b'.map (s.evaluate I.atom) := by
      refine List.ext_getElem (by simp [hlen, hlen']) fun i hi hi' => ?_
      rw [List.length_map] at hi hi'
      have hlt : i < (b.zip b').length := by
        rw [List.length_zip]
        exact lt_min hi hi'
      simpa using hsame _ (List.getElem_mem hlt)
    show s.wordOf I.atom t w = s.wordOf I.atom u w
    rw [wordOf, wordOf, hb, hb', Option.getD_some, Option.getD_some, hmaps]
  | int | real => cases hbits
  | uninterpreted | array => cases hsort

/-- Terms that are equal have their bits in common. -/
lemma bits_of_same (hs : s.Ok) {t u : TermId} {sort : SmtSort} {V : Type} {I : Interpretation V}
    (ht : s.sort? t = some sort) (hu : s.sort? u = some sort) {bits bits' : List TermId}
    (hbits : loweredBits s t sort = some bits) (hbits' : loweredBits s u sort = some bits')
    (hsame : s.Same I t u) :
    ∀ p ∈ bits.zip bits', s.evaluate I.atom p.1 = s.evaluate I.atom p.2 := by
  unfold Same at hsame
  rw [ht] at hsame
  cases sort with
  | bool =>
    obtain rfl := Option.some.inj hbits
    obtain rfl := Option.some.inj hbits'
    intro p hp
    rw [List.mem_singleton.1 (show p ∈ [(t, u)] from hp)]
    exact hsame
  | bitVec w =>
    obtain ⟨b, hb, hlen, -⟩ := bits_of_sort hs ht
    obtain ⟨b', hb', hlen', -⟩ := bits_of_sort hs hu
    obtain rfl := Option.some.inj (hb.symm.trans hbits)
    obtain rfl := Option.some.inj (hb'.symm.trans hbits')
    have hwords : Bits.word w (b.map (s.evaluate I.atom)) =
        Bits.word w (b'.map (s.evaluate I.atom)) := by
      have hsame : s.wordOf I.atom t w = s.wordOf I.atom u w := hsame
      rwa [wordOf, wordOf, hb, hb', Option.getD_some, Option.getD_some] at hsame
    intro p hp
    obtain ⟨i, hi, rfl⟩ := List.mem_iff_getElem.1 hp
    rw [List.length_zip, lt_inf_iff] at hi
    have hbit := congrArg (fun v : BitVec w => v.getLsbD i) hwords
    rw [Bits.getLsbD_word, Bits.getLsbD_word] at hbit
    simpa [hlen ▸ hi.1, hi.1, hi.2] using hbit
  | int | real => cases hbits
  | uninterpreted | array =>
    obtain rfl := Option.some.inj hbits
    exact fun p hp => absurd hp List.not_mem_nil

/-- Arguments with one value in a key are equal, for reasons. -/
lemma argumentReason_spec (hs : s.Ok) {c : Closure} (h : Backed s th c) {t u : TermId}
    {sort : SmtSort} (ht : Fits s th (t, sort)) (hu : Fits s th (u, sort)) {value : ArgumentValue}
    (hleft : Matches s th c (t, sort) value) (hright : Matches s th c (u, sort) value)
    (hrequired : ∀ bits, loweredBits s t sort = some bits → bits ⊆ th.required)
    (hrequired' : ∀ bits, loweredBits s u sort = some bits → bits ⊆ th.required) :
    ∃ reasons, th.argumentReason s c t u sort = some reasons ∧ Equates s th reasons t u := by
  have hlowered : ∀ bits bits', loweredBits s t sort = some bits →
      loweredBits s u sort = some bits' →
      sort.isAbstract = false → (∀ p ∈ bits.zip bits', th.value p.1 = th.value p.2) →
      ∃ reasons, th.bitReasons (bits.zip bits') = some reasons ∧ Equates s th reasons t u := by
    intro bits bits' hbits hbits' hsort hvalues
    obtain ⟨reasons, heq, hassigned, hsame⟩ := bitReasons_spec (s := s) hvalues fun p hp =>
      ⟨hrequired _ hbits (List.of_mem_zip hp).1, hrequired' _ hbits' (List.of_mem_zip hp).2⟩
    exact ⟨reasons, heq, hassigned, fun V I _ hall =>
      same_of_bits hs ht.sort hu.sort hbits hbits' hsort (hsame I.atom hall)⟩
  cases value with
  | bool b =>
    obtain ⟨rfl, hvalue⟩ := hleft
    obtain ⟨-, hvalue'⟩ := hright
    refine hlowered [t] [u] rfl rfl rfl fun p hp => ?_
    rw [List.mem_singleton.1 (show p ∈ [(t, u)] from hp)]
    exact hvalue.trans hvalue'.symm
  | bitVec bs =>
    obtain ⟨⟨w, rfl⟩, bits, hbits, hvalue⟩ := hleft
    obtain ⟨-, bits', hbits', hvalue'⟩ := hright
    obtain ⟨reasons, heq, hequates⟩ := hlowered bits bits' hbits hbits' rfl fun p hp => by
      obtain ⟨i, hi, rfl⟩ := List.mem_iff_getElem.1 hp
      rw [List.length_zip] at hi
      have hmaps := hvalue.trans hvalue'.symm
      have := congrArg (fun list : List Bool => list[i]?) hmaps
      simpa [(lt_min_iff.1 hi).1, (lt_min_iff.1 hi).2] using this
    refine ⟨reasons, ?_, hequates⟩
    rw [UfTheory.argumentReason, loweredBits, loweredBits, hbits, hbits']
    exact heq
  | abstract r =>
    obtain ⟨⟨hb, hw⟩, v, hv, hjoined⟩ := hleft
    obtain ⟨-, v', hv', hjoined'⟩ := hright
    obtain rfl := Option.some.inj (hv.symm.trans hv')
    have htogether := h.ok.joined_trans hjoined hjoined'.symm
    obtain ⟨b, heq, hb'⟩ := h.ok.equivalent_eq htogether.mem_left htogether.mem_right
    obtain rfl := hb'.2 htogether
    obtain ⟨reasons, hexplain, huses, hjustify⟩ := h.ok.explain_joined htogether
    have hcomparable : s.Comparable t u := by
      cases sort with
      | bool => exact absurd rfl hb
      | bitVec w => exact absurd rfl (hw w)
      | int | real => exact .inr ⟨by rw [ht.sort]; rfl, by rw [hu.sort]; rfl⟩
      | uninterpreted | array => exact .inl ⟨_, rfl, ht.sort, hu.sort⟩
    refine ⟨reasons, ?_, huses _ h.uses, fun V I hI hall => ?_⟩
    · have hreason : (do
          if ← c.equivalent t u then c.explain t u else none : Option (List SignedTerm)) =
          some reasons := by
        rw [heq]
        exact hexplain
      cases sort with
      | bool => exact absurd rfl hb
      | bitVec w => exact absurd rfl (hw w)
      | int | real | uninterpreted | array => exact hreason
    · exact (same_iff_reading hcomparable I).2 (hjustify _ _ (h.explains V I hI) hall)

/-- The arguments of two applications side by side, with what they have in common. -/
lemma forall_zip {α β γ δ : Type} {P : α × γ → δ → Prop} {Q : β × γ → δ → Prop} {xs : List α}
    {ys : List β} {zs : List γ} {ks : List δ} (hx : List.Forall₂ P (xs.zip zs) ks)
    (hy : List.Forall₂ Q (ys.zip zs) ks) :
    ∀ e ∈ (xs.zip ys).zip zs, (e.1.1, e.2) ∈ xs.zip zs ∧ (e.1.2, e.2) ∈ ys.zip zs ∧
      ∃ k, P (e.1.1, e.2) k ∧ Q (e.1.2, e.2) k := by
  intro e he
  obtain ⟨i, hi, rfl⟩ := List.mem_iff_getElem.1 he
  simp only [List.length_zip, lt_inf_iff] at hi
  obtain ⟨⟨hxs, hys⟩, hzs⟩ := hi
  have hxz : i < (xs.zip zs).length := by
    rw [List.length_zip]
    exact lt_min hxs hzs
  have hyz : i < (ys.zip zs).length := by
    rw [List.length_zip]
    exact lt_min hys hzs
  have hmem := List.getElem_mem hxz
  have hmem' := List.getElem_mem hyz
  have hp := (List.forall₂_iff_get.1 hx).2 i hxz (hx.length_eq ▸ hxz)
  have hq := (List.forall₂_iff_get.1 hy).2 i hyz (hy.length_eq ▸ hyz)
  simp only [List.get_eq_getElem, List.getElem_zip] at hmem hmem' hp hq ⊢
  exact ⟨hmem, hmem', _, hp, hq⟩

lemma forall₂_of_zip {α γ : Type} {P : α → α → Prop} {xs ys : List α} {zs : List γ}
    (hx : xs.length = zs.length) (hy : ys.length = zs.length)
    (h : ∀ e ∈ (xs.zip ys).zip zs, P e.1.1 e.1.2) : List.Forall₂ P xs ys := by
  refine List.forall₂_iff_get.2 ⟨hx.trans hy.symm, fun i hi hi' => ?_⟩
  have hlt : i < ((xs.zip ys).zip zs).length := by
    simp only [List.length_zip, lt_inf_iff]
    exact ⟨⟨hi, hi'⟩, hx ▸ hi⟩
  simpa using h _ (List.getElem_mem hlt)

/-- Applications with one key have equal results in every model, for reasons. -/
lemma congruenceReason_spec (hs : s.Ok) {c : Closure} (h : Backed s th c)
    {left right : Application × FunctionSignature} (hl : Usable s th left) (hr : Usable s th right)
    {key : CongruenceKey} (hkl : KeyOf s th c left key) (hkr : KeyOf s th c right key)
    (hrequired : ∀ e ∈ sortedTerms left ++ sortedTerms right, ∀ bits,
      loweredBits s e.1 e.2 = some bits → bits ⊆ th.required) :
    ∃ reason, th.congruenceReason s c left.1 right.1 right.2.domain = some reason ∧
      Equates s th reason left.1.result right.1.result := by
  have hfunction : left.1.function = right.1.function := hkl.function.symm.trans hkr.function
  have hsignature : left.2 = right.2 := signature_eq hl.signature hr.signature hfunction
  have hkl' := hkl.arguments
  have hlengths := hl.lengths
  rw [hsignature] at hkl' hlengths
  have hspec : ∀ e ∈ (left.1.arguments.zip right.1.arguments).zip right.2.domain,
      ∃ reasons, th.argumentReason s c e.1.1 e.1.2 e.2 = some reasons ∧
        Equates s th reasons e.1.1 e.1.2 := by
    intro e he
    obtain ⟨hmem, hmem', value, hm, hm'⟩ := forall_zip hkl' hkr.arguments e he
    have hleft : (e.1.1, e.2) ∈ sortedTerms left := by
      rw [sortedTerms, hsignature]
      exact List.mem_append_left _ hmem
    have hright : (e.1.2, e.2) ∈ sortedTerms right := List.mem_append_left _ hmem'
    exact argumentReason_spec hs h (hl.fits _ hleft) (hr.fits _ hright) hm hm'
      (hrequired _ (List.mem_append_left _ hleft)) (hrequired _ (List.mem_append_right _ hright))
  obtain ⟨reasons, hreasons⟩ := exists_mapM fun e he => (hspec e he).imp fun _ hr => hr.1
  have hall : ∀ e ∈ (left.1.arguments.zip right.1.arguments).zip right.2.domain,
      ∃ rs ∈ reasons, Equates s th rs e.1.1 e.1.2 := by
    intro e he
    obtain ⟨rs, hrs, hequates⟩ := hspec e he
    obtain ⟨rs', hmem, hrs'⟩ := exists_related (mapM_eq_some_iff.1 hreasons) he
    obtain rfl := Option.some.inj (hrs.symm.trans hrs')
    exact ⟨rs, hmem, hequates⟩
  have hassigned : ∀ rs ∈ reasons, ∀ l ∈ rs, th.Assigned l := by
    intro rs hrs
    obtain ⟨e, he, heq⟩ := exists_related (mapM_eq_some_iff.1 hreasons).flip hrs
    obtain ⟨rs', hrs', hequates⟩ := hspec e he
    obtain rfl := Option.some.inj (hrs'.symm.trans heq)
    exact hequates.assigned
  refine ⟨reasons.flatten.eraseDups, by rw [UfTheory.congruenceReason, hreasons]; rfl, ?_, ?_⟩
  · intro l hl
    obtain ⟨rs, hrs, hmem⟩ := List.mem_flatten.1 (List.mem_eraseDups.1 hl)
    exact hassigned rs hrs l hmem
  · intro V I hI hholds
    refine hI.functional _ hl.mem _ hr.mem hfunction
      (forall₂_of_zip hlengths hr.lengths fun e he => ?_)
    obtain ⟨rs, hrs, hequates⟩ := hall e he
    exact hequates.same V I hI fun l hl =>
      hholds l (List.mem_eraseDups.2 (List.mem_flatten.2 ⟨rs, hrs, hl⟩))

/-! ### Results that are not abstract -/

/-- The assignment gives the terms one value. -/
def Agreed (s : TermStore) (th : UfTheory) (c : Closure) (sort : SmtSort) (t u : TermId) : Prop :=
  match sort with
  | .bool | .bitVec _ => ∃ bits bits', loweredBits s t sort = some bits ∧
      loweredBits s u sort = some bits' ∧ bits.map th.value = bits'.map th.value
  | .int | .real => t = u ∨ ∃ q ∈ th.sharedArithmeticEqualities,
      orderedPair t u = (q.left, q.right) ∧ th.value q.term = true
  | .uninterpreted _ | .array _ => c.Joined t u

/-- The first bits that differ, if there are any. -/
lemma bitConflict_spec {reason : List SignedTerm} {pairs : List (TermId × TermId)}
    (hassigned : ∀ l ∈ reason, th.Assigned l)
    (hrequired : ∀ p ∈ pairs, p.1 ∈ th.required ∧ p.2 ∈ th.required)
    (hvalid : ∀ (V : Type) (I : Interpretation V), s.Models I → (∀ l ∈ reason, l.Holds s I.atom) →
      ∀ p ∈ pairs, s.evaluate I.atom p.1 = s.evaluate I.atom p.2) :
    (∀ clause, th.bitConflict reason pairs = some clause → Blocks s th clause) ∧
      (th.bitConflict reason pairs = none → ∀ p ∈ pairs, th.value p.1 = th.value p.2) := by
  induction pairs with
  | nil => exact ⟨nofun, fun _ => nofun⟩
  | cons p rest ih =>
    obtain ⟨left, right⟩ := p
    rw [List.forall_mem_cons] at hrequired
    obtain ⟨hblocks, hnone⟩ := ih hrequired.2 fun V I hI hall p hp =>
      hvalid V I hI hall p (List.mem_cons_of_mem _ hp)
    unfold UfTheory.bitConflict
    split
    · next hne =>
      refine ⟨?_, nofun⟩
      rintro _ ⟨⟩
      refine conflictLemma_blocks (fun l hl => ?_) hne hrequired.1.1 fun V I hI hall => ?_
      · rcases List.mem_append.1 hl with hl | hl
        · exact hassigned l hl
        · rw [List.mem_singleton.1 hl]
          exact ⟨rfl, hrequired.1.2⟩
      · have hbits := hvalid V I hI (fun l hl => hall l (List.mem_append_left _ hl)) (left, right)
          List.mem_cons_self
        exact hbits.trans (hall _ (List.mem_append_right _ (List.mem_singleton_self _)))
    · next heq => exact ⟨hblocks, fun ho => List.forall_mem_cons.2 ⟨not_not.1 heq, hnone ho⟩⟩

lemma length_loweredBits (hs : s.Ok) {t u : TermId} {sort : SmtSort}
    (ht : s.sort? t = some sort) (hu : s.sort? u = some sort) {bits bits' : List TermId}
    (hbits : loweredBits s t sort = some bits) (hbits' : loweredBits s u sort = some bits') :
    bits.length = bits'.length := by
  cases sort with
  | bool =>
    obtain rfl := Option.some.inj hbits
    obtain rfl := Option.some.inj hbits'
    rfl
  | bitVec w =>
    obtain ⟨b, hb, hlen, -⟩ := bits_of_sort hs ht
    obtain ⟨b', hb', hlen', -⟩ := bits_of_sort hs hu
    obtain rfl := Option.some.inj (hb.symm.trans hbits)
    obtain rfl := Option.some.inj (hb'.symm.trans hbits')
    exact hlen.trans hlen'.symm
  | int | real => cases hbits
  | uninterpreted | array =>
    obtain rfl := Option.some.inj hbits
    obtain rfl := Option.some.inj hbits'
    rfl

/-- A result that is not abstract agrees, or there is a conflict. -/
lemma loweredResultConflict_spec (hs : s.Ok) {c : Closure} {t u : TermId} {sort : SmtSort}
    (ht : s.sort? t = some sort) (hu : s.sort? u = some sort) (hsort : sort.isAbstract = false)
    {reason : List SignedTerm} (hequates : Equates s th reason t u)
    (hrequired : ∀ bits, loweredBits s t sort = some bits → bits ⊆ th.required)
    (hrequired' : ∀ bits, loweredBits s u sort = some bits → bits ⊆ th.required)
    (hshared : sort.isArithmetic = true → t ≠ u → ∃ q ∈ th.sharedArithmeticEqualities,
      orderedPair t u = (q.left, q.right) ∧
        th.sharedArithmeticEqualityTerms (q.left, q.right) = some q.term ∧ Equality s th q) :
    ∃ outcome, th.loweredResultConflict s t u sort reason = some outcome ∧
      (∀ clause, outcome = some clause → Blocks s th clause) ∧
      (outcome = none → Agreed s th c sort t u) := by
  unfold UfTheory.loweredResultConflict
  by_cases harith : sort.isArithmetic = true
  · rw [if_pos harith]
    split
    · next heq =>
      refine ⟨none, rfl, nofun, fun _ => ?_⟩
      cases sort with
      | int | real => exact .inl heq
      | _ => cases harith
    next hne =>
    obtain ⟨q, hq, hpair, hterm, hok⟩ := hshared harith hne
    rw [hpair, hterm]
    dsimp only [Option.bind_eq_bind, Option.bind_some]
    split
    · next hvalue =>
      refine ⟨none, rfl, nofun, fun _ => ?_⟩
      cases sort with
      | int | real => exact .inr ⟨q, hq, hpair, hvalue⟩
      | _ => cases harith
    · next hvalue =>
      refine ⟨_, rfl, ?_, nofun⟩
      rintro _ ⟨⟩
      refine conflictLemma_blocks hequates.assigned hvalue hok.required fun V I hI hall => ?_
      have hsame := (same_iff_reading (.inr ⟨by rwa [ht, Option.any_some],
        by rwa [hu, Option.any_some]⟩) I).1 (hequates.same V I hI hall)
      refine (hok.meaning V I hI).2 ?_
      rcases orderedPair_eq t u with heq | heq <;> rw [heq, Prod.mk.injEq] at hpair
      · rw [← hpair.1, ← hpair.2, hsame]
      · rw [← hpair.1, ← hpair.2, hsame]
  rw [if_neg harith]
  have hlowered : ∀ t', s.sort? t' = some sort → ∃ bits, loweredBits s t' sort = some bits := by
    intro t' ht'
    cases sort with
    | bool => exact ⟨_, rfl⟩
    | bitVec w => exact (bits_of_sort hs ht').imp fun _ hb => hb.1
    | int | real => exact absurd rfl harith
    | uninterpreted | array => cases hsort
  obtain ⟨bits, hbits⟩ := hlowered t ht
  obtain ⟨bits', hbits'⟩ := hlowered u hu
  rw [hbits, hbits']
  have hpairs : ∀ p ∈ bits.zip bits', p.1 ∈ th.required ∧ p.2 ∈ th.required := fun p hp =>
    ⟨hrequired _ hbits (List.of_mem_zip hp).1, hrequired' _ hbits' (List.of_mem_zip hp).2⟩
  obtain ⟨hblocks, hnone⟩ := bitConflict_spec (s := s) hequates.assigned hpairs
    fun V I hI hall => bits_of_same hs ht hu hbits hbits' (hequates.same V I hI hall)
  refine ⟨_, rfl, hblocks, fun ho => ?_⟩
  have hvalues := hnone (Option.some.inj (congrArg some ho))
  have hmaps : bits.map th.value = bits'.map th.value := by
    refine List.ext_getElem (by simp [length_loweredBits hs ht hu hbits hbits']) fun i hi hi' => ?_
    rw [List.length_map] at hi hi'
    have hlt : i < (bits.zip bits').length := by
      rw [List.length_zip]
      exact lt_min hi hi'
    simpa using hvalues _ (List.getElem_mem hlt)
  cases sort with
  | bool | bitVec => exact ⟨bits, bits', hbits, hbits', hmaps⟩
  | int | real => exact absurd rfl harith
  | uninterpreted | array => cases hsort

end Satrap.Smt
