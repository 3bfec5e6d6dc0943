/-
# The preparation of a check

`prepare` makes the relevant applications comparable: their values that are not abstract are among
the required terms, and every pair of arithmetic terms that two of them compare has an equality.
The store it leaves is an extension in which all tables have their sorts.
-/
import Satrap.Smt.FinalCheck

namespace Satrap.Smt

open Logic TermStore TermM

variable {α β : Type} {s s' : TermStore}

/-! ### Operations that may not return -/

/-- The preparation keeps the store in order whatever its outcome; its result has the property. -/
def Prepares (x : Preparation α) (s : TermStore) (Q : α → TermStore → Prop) : Prop :=
  ∀ outcome s', x s = some (outcome, s') → s.Extends s' ∧ s'.Ok ∧ s'.Typed ∧
    ∀ a, outcome = .ok a → Q a s'

lemma Preparation.bind_apply (x : Preparation α) (f : α → Preparation β) (s : TermStore) :
    (x >>= f) s = match x s with
      | some (.ok a, s) => f a s
      | some (.error e, s) => some (.error e, s)
      | none => none := rfl

namespace Prepares

variable {x : Preparation α} {f : α → Preparation β} {Q : α → TermStore → Prop}
  {R : β → TermStore → Prop}

lemma bind (hx : Prepares x s Q)
    (hf : ∀ a s', s.Extends s' → s'.Ok → s'.Typed → Q a s' → Prepares (f a) s' R) :
    Prepares (x >>= f) s R := by
  intro outcome s' h
  rw [Preparation.bind_apply] at h
  split at h
  · next a s₁ hxs =>
    obtain ⟨he, hok, ht, hq⟩ := hx _ _ hxs
    obtain ⟨he', hok', ht', hr⟩ := hf a s₁ he hok ht (hq a rfl) outcome s' h
    exact ⟨he.trans he', hok', ht', hr⟩
  · next e s₁ hxs =>
    obtain ⟨he, hok, ht, -⟩ := hx _ _ hxs
    obtain ⟨rfl, rfl⟩ := Prod.mk.inj (Option.some.inj h)
    exact ⟨he, hok, ht, fun a ha => (by cases ha)⟩
  · cases h

lemma pure (h : s.Ok) (ht : s.Typed) {a : α} (hq : Q a s) : Prepares (pure a) s Q := by
  rintro _ _ ⟨⟩
  exact ⟨.refl s, h, ht, fun b hb => by cases hb; exact hq⟩

lemma run {x : TermM α} [hx : Types x] (h : s.Ok) (ht : s.Typed) (hq : Spec False x s Q) :
    Prepares (.run x) s Q := by
  rintro outcome s' heq
  obtain ⟨he, hok, ht'⟩ := hx.types s h ht
  have heq : x s = (outcome, s') := Option.some.inj heq
  obtain ⟨-, -, hq⟩ := hq
  rw [heq] at he hok ht' hq
  refine ⟨he, hok, ht', ?_⟩
  rintro a rfl
  exact hq

lemma read {x : TermStore → Validated α} (h : s.Ok) (ht : s.Typed)
    (hq : ∀ a, x s = some (.ok a) → Q a s) : Prepares (.read x) s Q := by
  rintro outcome s' heq
  unfold Preparation.read at heq
  split at heq
  · next a hx =>
    obtain ⟨rfl, rfl⟩ := Prod.mk.inj (Option.some.inj heq)
    exact ⟨.refl s, h, ht, fun b hb => by cases hb; exact hq a hx⟩
  · next e hx =>
    obtain ⟨rfl, rfl⟩ := Prod.mk.inj (Option.some.inj heq)
    exact ⟨.refl s, h, ht, fun b hb => nomatch hb⟩
  · cases heq

lemma expect {x : TermStore → Option α} (h : s.Ok) (ht : s.Typed)
    (hq : ∀ a, x s = some a → Q a s) : Prepares (.expect x) s Q := by
  rintro outcome s' heq
  obtain ⟨a, hx, heq⟩ := Option.map_eq_some_iff.1 heq
  obtain ⟨rfl, rfl⟩ := Prod.mk.inj heq
  exact ⟨.refl s, h, ht, fun b hb => by cases hb; exact hq a hx⟩

end Prepares

/-! ### The loop of the preparation -/

instance (pair : Application × Application) (depth : ℕ) :
    Types (equateArrayArguments depth pair) := by
  unfold equateArrayArguments
  refine .of_bind fun s => @Types.ite _ _ _ _ _ inferInstance (.of_bind fun signature => ?_)
  infer_instance

instance (depth : ℕ) (applications : List Application) :
    Types (ensureArrayArgumentEqualities depth applications) := by
  unfold ensureArrayArgumentEqualities
  refine .of_bind fun s => .of_bind fun _ => .of_bind fun s' => .pure _

lemma spec_of_types {x : TermM α} [hx : Types x] (h : s.Ok) (ht : s.Typed) :
    Spec False x s fun _ _ => True := by
  obtain ⟨he, hok, -⟩ := hx.types s h ht
  refine ⟨he, hok, ?_⟩
  split <;> simp

lemma prepareRelevance_prepares (arrange : List (List TermId) → List (List TermId)) (depth : ℕ)
    (relevant : List TermId) {rounds : ℕ} (h : s.Ok) (ht : s.Typed) :
    Prepares (UfTheory.prepareRelevance arrange depth relevant rounds) s fun _ _ => True := by
  induction rounds generalizing s with
  | zero => exact fun _ _ heq => nomatch heq
  | succ rounds ih =>
    unfold UfTheory.prepareRelevance
    refine .bind (.run h ht (spec_of_types h ht)) fun _ s₁ _ h₁ ht₁ _ => ?_
    refine .bind (.read (Q := fun _ _ => True) h₁ ht₁ fun _ _ => trivial)
      fun relevance s₂ _ h₂ ht₂ _ => ?_
    refine .bind (.expect (Q := fun _ _ => True) h₂ ht₂ fun _ _ => trivial)
      fun applications s₃ _ h₃ ht₃ _ => ?_
    refine .bind (.run h₃ ht₃ (spec_of_types h₃ ht₃)) fun changed s₄ _ h₄ ht₄ _ => ?_
    split
    · exact ih h₄ ht₄
    · exact .pure h₄ ht₄ trivial

/-! ### What is required -/

instance (application : Application) : Types (signedApplication application) := by
  unfold signedApplication
  infer_instance

instance (required : List TermId) (entry : TermId × SmtSort) :
    Types (requireLoweredValue required entry) := by
  unfold requireLoweredValue
  split <;> infer_instance

instance (applications : List (Application × FunctionSignature)) :
    Types (requireLowered applications) := by
  unfold requireLowered
  infer_instance

instance (depth : ℕ) (pair : TermId × TermId) : Types (shareEquality depth pair) := by
  unfold shareEquality
  infer_instance

/-- The signatures of the functions. -/
lemma collect_signedApplication (h : s.Ok) (applications : List Application) :
    Spec False (collect signedApplication applications) s fun signed s' =>
      List.Forall₂ (fun application entry => entry.1 = application ∧
        s'.functions[application.function]? = some entry.2) applications signed := by
  refine Spec.collect (P := fun (application : Application)
    (entry : Application × FunctionSignature) s' => entry.1 = application ∧
      s'.functions[application.function]? = some entry.2) (fun a b s₁ s₂ hl hp => ⟨hp.1, ?_⟩)
    applications s h fun a _ s' _ h' => ?_
  · obtain ⟨suffix, hsuffix⟩ := hl.grown.functions
    rw [← hsuffix, List.getElem?_append_left (List.getElem?_eq_some_iff.1 hp.2).1, hp.2]
  · exact .get (.bind (.okOr (Q := fun signature s'' => s' = s'' ∧
      s'.functions[a.function]? = some signature) h' False.elim fun _ hs => ⟨rfl, hs⟩)
        fun signature s'' _ h'' hq => .pure h'' ⟨rfl, hq.1 ▸ hq.2⟩)

lemma requireLoweredValue_spec (h : s.Ok) (required : List TermId) (entry : TermId × SmtSort) :
    Spec False (requireLoweredValue required entry) s fun required' s' => s = s' ∧
      required ⊆ required' ∧
        ∀ bits, loweredBits s entry.1 entry.2 = some bits → bits ⊆ required' := by
  obtain ⟨term, sort⟩ := entry
  cases sort with
  | bool =>
    refine .pure h ⟨rfl, List.subset_append_left _ _, ?_⟩
    rintro _ ⟨⟩
    exact List.subset_append_right _ _
  | bitVec w =>
    refine .bind (bitvecBits_spec h False.elim) ?_
    rintro bits _ - - ⟨rfl, hbits⟩
    refine .pure h ⟨rfl, List.subset_append_left _ _, fun bits' hbits' => ?_⟩
    obtain rfl := Option.some.inj (hbits.symm.trans hbits')
    exact List.subset_append_right _ _
  | int | real => exact .pure h ⟨rfl, List.Subset.refl _, fun _ hbits => by cases hbits⟩
  | uninterpreted | array =>
    refine .pure h ⟨rfl, List.Subset.refl _, ?_⟩
    rintro _ ⟨⟩
    exact List.nil_subset _

/-- The bits of functions with more than one application are required. -/
lemma requireLowered_spec (h : s.Ok) (applications : List (Application × FunctionSignature)) :
    Spec False (requireLowered applications) s fun required s' => s = s' ∧
      ∀ entry ∈ applications,
        2 ≤ applications.countP (fun other => decide (other.1.function = entry.1.function)) →
        ∀ e ∈ sortedTerms entry, ∀ bits, loweredBits s e.1 e.2 = some bits → bits ⊆ required := by
  have hloop : ∀ entries : List (TermId × SmtSort),
      Spec False (loop requireLoweredValue [] entries) s fun required s' => s = s' ∧
        ∀ e ∈ entries, ∀ bits, loweredBits s e.1 e.2 = some bits → bits ⊆ required := by
    intro entries
    refine (Spec.loop (I := fun required rest s' => s = s' ∧ ∀ e ∈ entries, e ∈ rest ∨
      ∀ bits, loweredBits s e.1 e.2 = some bits → bits ⊆ required) entries [] s h
        ⟨rfl, fun e he => .inl he⟩ ?_).weaken ?_
    · rintro required e rest _ - - ⟨rfl, hI⟩
      refine (requireLoweredValue_spec h required e).weaken ?_
      rintro required' _ - - ⟨rfl, hsubset, hbits⟩
      refine ⟨rfl, fun e' he' => ?_⟩
      rcases hI e' he' with hmem | hold
      · rcases List.mem_cons.1 hmem with rfl | hmem
        · exact .inr hbits
        · exact .inl hmem
      · exact .inr fun bits hb => List.Subset.trans (hold bits hb) hsubset
    · rintro required _ - - ⟨rfl, hI⟩
      exact ⟨rfl, fun e he => (hI e he).resolve_left List.not_mem_nil⟩
  refine (hloop _).weaken ?_
  rintro required _ - - ⟨rfl, hall⟩
  refine ⟨rfl, fun entry hentry hcount e he => hall e (List.mem_flatMap.2 ⟨entry, ?_, he⟩)⟩
  exact List.mem_filter.2 ⟨hentry, decide_eq_true hcount⟩

lemma forall_mem_laterPairs {P : α → α → Prop} (list : List α) :
    (∀ p ∈ laterPairs list, P p.1 p.2) ↔ list.Pairwise P := by
  induction list with
  | nil => simp [laterPairs]
  | cons first rest ih =>
    rw [laterPairs, List.pairwise_cons, ← ih]
    simp [or_imp, forall_and]

lemma mem_of_laterPairs {list : List α} : ∀ p ∈ laterPairs list, p.1 ∈ list ∧ p.2 ∈ list := by
  refine (forall_mem_laterPairs (P := fun a b => a ∈ list ∧ b ∈ list) list).2 ?_
  exact List.pairwise_of_forall_mem_list fun a ha b hb => ⟨ha, hb⟩

lemma mem_sharedPairs {applications : List (Application × FunctionSignature)}
    {p : TermId × TermId} :
    p ∈ sharedPairs applications ↔ ∃ pair ∈ laterPairs applications,
      pair.1.1.function = pair.2.1.function ∧ ∃ e ∈ sortedPairs pair, e.2.isArithmetic = true ∧
        e.1.1 ≠ e.1.2 ∧ orderedPair e.1.1 e.1.2 = p := by
  simp only [sharedPairs, sortPairs, List.mem_dedup, List.mem_insertionSort, List.mem_flatMap,
    List.mem_filter, List.mem_filterMap, decide_eq_true_eq, Bool.and_eq_true, and_assoc,
    Option.ite_none_right_eq_some, Option.some_inj]

/-- The equality of a shared pair decides whether its terms are equal. -/
lemma collect_shareEquality (h : s.Ok) (depth : ℕ) (shared : List (TermId × TermId)) :
    Spec False (collect (shareEquality depth) shared) s fun equalities s' =>
      List.Forall₂ (fun pair q => (q.left, q.right) = pair ∧
        ∀ ρ, Decided s' ρ id q.left q.right q.term) shared equalities := by
  refine Spec.collect (P := fun (pair : TermId × TermId) (q : TheoryEquality) s' =>
    (q.left, q.right) = pair ∧ ∀ ρ, Decided s' ρ id q.left q.right q.term)
    (fun a b s₁ s₂ hl hp => ⟨hp.1, fun ρ => (hp.2 ρ).later hl⟩) shared s h fun pair _ s' _ h' => ?_
  have hdecided : Spec False (equivalent depth pair.1 pair.2) s' fun t s'' =>
      ∀ ρ, Decided s'' ρ id pair.1 pair.2 t := by
    refine ⟨(equivalent_spec (ρ := fun _ => false) h' depth pair.1 pair.2 False.elim).1,
      (equivalent_spec (ρ := fun _ => false) h' depth pair.1 pair.2 False.elim).2.1, ?_⟩
    split
    · next t heq =>
      intro ρ
      have hspec := (equivalent_spec (ρ := ρ) h' depth pair.1 pair.2 False.elim).2.2
      rwa [heq] at hspec
    · exact id
  exact .bind hdecided fun t s'' _ h'' ht => .pure h'' ⟨rfl, ht⟩

lemma forall₂_comp {γ : Type} {P : α → β → Prop} {Q : β → γ → Prop} {as : List α} {bs : List β}
    {cs : List γ} (h : List.Forall₂ P as bs) (h' : List.Forall₂ Q bs cs) :
    List.Forall₂ (fun a c => ∃ b, P a b ∧ Q b c) as cs := by
  induction h generalizing cs with
  | nil =>
    cases h'
    exact .nil
  | cons hp _ ih =>
    cases h' with
    | cons hq h' => exact .cons ⟨_, hp, hq⟩ (ih h')

lemma Resolves.later {i : ℕ} {entry : Application × FunctionSignature} (h : Resolves s i entry)
    (he : s.Extends s') : Resolves s' i entry := by
  obtain ⟨suffix, hsuffix⟩ := he.applications
  obtain ⟨suffix', hsuffix'⟩ := he.functions
  refine ⟨?_, ?_⟩
  · rw [← hsuffix, List.getElem?_append_left (List.getElem?_eq_some_iff.1 h.1).1, h.1]
  · rw [← hsuffix', List.getElem?_append_left (List.getElem?_eq_some_iff.1 h.2).1, h.2]

/-- The terms of a resolved application have the sorts of its signature. -/
lemma sort_of_resolves (ht : s.Typed) {i : ℕ} {entry : Application × FunctionSignature}
    (h : Resolves s i entry) : ∀ e ∈ sortedTerms entry, s.sort? e.1 = some e.2 := by
  obtain ⟨signature, hsignature, harguments, hresult⟩ :=
    ht.applications _ (List.mem_of_getElem? h.1)
  obtain rfl := Option.some.inj (h.2.symm.trans hsignature)
  intro e he
  rcases List.mem_append.1 he with he | he
  · exact List.forall₂_zip harguments he
  · rw [List.mem_singleton.1 he]
    exact hresult

lemma loweredBits_later (h : s.Ok) (he : s.Extends s') {t : TermId} {sort : SmtSort}
    (ht : s.sort? t = some sort) : loweredBits s' t sort = loweredBits s t sort := by
  cases sort with
  | bitVec w =>
    obtain ⟨bits, hbits, -⟩ := bits_of_sort h ht
    exact he.bits? (lt_of_sort? ht)
  | _ => rfl

lemma mem_sharedTerms {applications : List (Application × FunctionSignature)} {t : TermId} :
    t ∈ sharedTerms applications ↔ ∃ entry ∈ applications, ∃ e ∈ sortedTerms entry,
      e.2.isArithmetic = true ∧ e.1 = t := by
  simp only [sharedTerms, mem_sortDedup, List.mem_filterMap, List.mem_flatMap,
    Option.ite_none_right_eq_some, Option.some_inj]
  constructor
  · rintro ⟨e, ⟨entry, hentry, he⟩, harith, rfl⟩
    exact ⟨entry, hentry, e, he, harith, rfl⟩
  · rintro ⟨entry, hentry, e, he, harith, rfl⟩
    exact ⟨e, ⟨entry, hentry, he⟩, harith, rfl⟩

/-- The terms that two applications of one function compare are terms of each of them. -/
lemma mem_sortedTerms_of_sortedPairs {a b : Application × FunctionSignature}
    (hsignature : a.2 = b.2)
    {e : (TermId × TermId) × SmtSort} (he : e ∈ sortedPairs (a, b)) :
    (e.1.1, e.2) ∈ sortedTerms a ∧ (e.1.2, e.2) ∈ sortedTerms b := by
  rcases List.mem_append.1 he with he | he
  · obtain ⟨i, hi, rfl⟩ := List.mem_iff_getElem.1 he
    simp only [List.length_zip, lt_inf_iff] at hi
    have hlt : i < (a.1.arguments.zip a.2.domain).length := by
      simp only [List.length_zip, lt_inf_iff]
      exact ⟨hi.1.1, hi.2⟩
    have hlt' : i < (b.1.arguments.zip b.2.domain).length := by
      simp only [List.length_zip, lt_inf_iff]
      exact ⟨hi.1.2, hsignature ▸ hi.2⟩
    refine ⟨List.mem_append_left _ ?_, List.mem_append_left _ ?_⟩
    · simpa using List.getElem_mem hlt
    · simpa [hsignature] using List.getElem_mem hlt'
  · rw [List.mem_singleton.1 he]
    exact ⟨List.mem_append_right _ (List.mem_singleton_self _),
      List.mem_append_right _ (hsignature ▸ List.mem_singleton_self _)⟩

/-- The terms of a shared pair are shared terms. -/
lemma mem_sharedTerms_of_mem_sharedPairs {applications : List (Application × FunctionSignature)}
    {places : List ℕ} (hresolves : List.Forall₂ (Resolves s) places applications)
    {p : TermId × TermId} (hp : p ∈ sharedPairs applications) :
    p.1 ∈ sharedTerms applications ∧ p.2 ∈ sharedTerms applications := by
  obtain ⟨pair, hpair, hfunction, e, he, harith, -, rfl⟩ := mem_sharedPairs.1 hp
  obtain ⟨hmem, hmem'⟩ := mem_of_laterPairs pair hpair
  obtain ⟨i, -, hi⟩ := exists_related hresolves.flip hmem
  obtain ⟨j, -, hj⟩ := exists_related hresolves.flip hmem'
  obtain ⟨hleft, hright⟩ := mem_sortedTerms_of_sortedPairs (signature_eq hi.2 hj.2 hfunction) he
  have hl := mem_sharedTerms.2 ⟨_, hmem, _, hleft, harith, rfl⟩
  have hr := mem_sharedTerms.2 ⟨_, hmem', _, hright, harith, rfl⟩
  rcases orderedPair_eq e.1.1 e.1.2 with heq | heq <;> rw [heq]
  · exact ⟨hl, hr⟩
  · exact ⟨hr, hl⟩

/-- The equality that is looked up for a pair is the first one of the pair. -/
lemma exists_first_equality {equalities : List TheoryEquality} {q : TheoryEquality}
    (hq : q ∈ equalities) {pair : TermId × TermId} (h : (q.left, q.right) = pair) :
    ∃ found, equalities.find? (fun equality => decide ((equality.left, equality.right) = pair)) =
      some found ∧ (found.left, found.right) = pair := by
  have hfind : (equalities.find? fun equality =>
      decide ((equality.left, equality.right) = pair)).isSome :=
    List.find?_isSome.2 ⟨q, hq, decide_eq_true h⟩
  obtain ⟨found, hfound⟩ := Option.isSome_iff_exists.1 hfind
  exact ⟨found, hfound, by simpa using List.find?_some hfound⟩

/-- The preparation gives the check what it needs. -/
lemma prepare_prepares (arrange : List (List TermId) → List (List TermId)) (depth rounds : ℕ)
    (trail : TheoryTrail) (relevant : List TermId) (h : s.Ok) (ht : s.Typed) :
    Prepares (UfTheory.prepare arrange depth rounds trail relevant) s fun th s' =>
      th.toTheoryTrail = trail ∧ ∃ applications, Prepared s' th applications := by
  unfold UfTheory.prepare
  refine .bind (prepareRelevance_prepares arrange depth relevant h ht)
    fun relevance s₁ _ h₁ ht₁ _ => ?_
  refine .bind (.expect (Q := fun applications s' => s₁ = s' ∧
    entriesAt s₁.applications relevance.applications = some applications) h₁ ht₁
      fun _ heq => ⟨rfl, heq⟩) ?_
  rintro plain _ - - - ⟨rfl, hplain⟩
  refine .bind (.run h₁ ht₁ (collect_signedApplication h₁ plain))
    fun applications s₂ he₂ h₂ ht₂ hsigned => ?_
  refine .bind (.run h₂ ht₂ (requireLowered_spec h₂ applications)) ?_
  rintro lowered _ - - - ⟨rfl, hlowered⟩
  refine .bind (.run h₂ ht₂ (collect_shareEquality h₂ depth (sharedPairs applications)))
    fun sharedEqualities s₃ he₃ h₃ ht₃ hshared => ?_
  refine .bind (.expect (Q := fun equalities s' => s₃ = s' ∧
    entriesAt s₃.theoryEqualities relevance.theoryEqualities = some equalities) h₃ ht₃
      fun _ heq => ⟨rfl, heq⟩) ?_
  rintro equalities _ - - - ⟨rfl, hequalities⟩
  refine .bind (.expect (Q := fun items s' => s₃ = s' ∧
    entriesAt s₃.ufItes relevance.ufItes = some items) h₃ ht₃ fun _ heq => ⟨rfl, heq⟩) ?_
  rintro items _ - - - ⟨rfl, hitems⟩
  refine .bind (.run (Q := fun s s' => s₃ = s' ∧ s₃ = s) h₃ ht₃ ⟨.refl s₃, h₃, rfl, rfl⟩) ?_
  rintro _ _ - - - ⟨rfl, rfl⟩
  refine .pure h₃ ht₃ ⟨rfl, applications, ?_⟩
  have hresolves₂ : List.Forall₂ (Resolves s₂) relevance.applications applications := by
    refine (forall₂_comp (entriesAt_eq_some_iff.1 hplain) hsigned).imp ?_
    rintro i entry ⟨a, hi, rfl, hf⟩
    obtain ⟨suffix, hsuffix⟩ := he₂.applications
    refine ⟨?_, hf⟩
    rw [← hsuffix, List.getElem?_append_left (List.getElem?_eq_some_iff.1 hi).1, hi]
  have hresolves : List.Forall₂ (Resolves s₃) relevance.applications applications :=
    hresolves₂.imp fun _ _ hr => hr.later he₃
  constructor
  · exact hresolves
  · intro i hi
    obtain ⟨q, hq, hqi⟩ := exists_related (entriesAt_eq_some_iff.1 hequalities) hi
    refine ⟨q, hqi, mem_sortDedup.2 ?_⟩
    simp only [List.mem_append, List.mem_map]
    exact .inl (.inl (.inr ⟨q, hq, rfl⟩))
  · intro i hi
    obtain ⟨item, hitem, hi'⟩ := exists_related (entriesAt_eq_some_iff.1 hitems) hi
    refine ⟨item, hi', mem_sortDedup.2 ?_⟩
    simp only [List.mem_append, List.mem_map]
    exact .inl (.inr ⟨item, hitem, rfl⟩)
  · exact fun t ht => mem_sortDedup.2 (List.mem_append_right _ ht)
  · intro q hq
    obtain ⟨p, hp, heq, hdecided⟩ := exists_related hshared.flip hq
    obtain ⟨hleft, hright⟩ := mem_sharedTerms_of_mem_sharedPairs hresolves hp
    rw [← heq] at hleft hright
    refine ⟨hleft, hright, mem_sortDedup.2 ?_, hdecided⟩
    simp only [List.mem_append, List.mem_map]
    exact .inl (.inl (.inl (.inr ⟨q, hq, rfl⟩)))
  · intro t ht
    obtain ⟨entry, hentry, e, he, harith, rfl⟩ := mem_sharedTerms.1 ht
    obtain ⟨i, -, hi⟩ := exists_related hresolves.flip hentry
    rwa [sort_of_resolves ht₃ hi e he, Option.any_some]
  · exact fun entry hentry e he harith => mem_sharedTerms.2 ⟨entry, hentry, e, he, harith, rfl⟩
  · intro entry hentry hcount e he bits hbits t ht
    obtain ⟨i, -, hi⟩ := exists_related hresolves₂.flip hentry
    have hbits₂ : loweredBits s₂ e.1 e.2 = some bits := by
      rw [← hbits]
      exact (loweredBits_later h₂ he₃ (sort_of_resolves ht₂ hi e he)).symm
    refine mem_sortDedup.2 ?_
    simp only [List.mem_append]
    exact .inl (.inl (.inl (.inl (hlowered entry hentry hcount e he bits hbits₂ ht))))
  · refine (forall_mem_laterPairs _).1 fun pair hpair hfunction e he harith hne => ?_
    obtain ⟨q, hq, heq, -⟩ := exists_related hshared
      (mem_sharedPairs.2 ⟨pair, hpair, hfunction, e, he, harith, hne, rfl⟩)
    obtain ⟨found, hfound, hpairs⟩ := exists_first_equality hq heq
    refine ⟨found, List.mem_of_find?_eq_some hfound, hpairs.symm, ?_⟩
    dsimp only
    rw [hpairs, hfound]
    rfl

/-! ### Every assignment is decided -/

/-- The theory under an assignment. -/
def UfTheory.under (th : UfTheory) (assigned : TheoryTrail) : UfTheory :=
  { th with toTheoryTrail := assigned }

lemma Prepared.under {th : UfTheory} {applications : List (Application × FunctionSignature)}
    (h : Prepared s th applications) (assigned : TheoryTrail) :
    Prepared s (th.under assigned) applications where
  resolves := h.resolves
  equalities := h.equalities
  ufItes := h.ufItes
  axioms := h.axioms
  shared q hq := ⟨(h.shared q hq).left, (h.shared q hq).right, (h.shared q hq).required,
    (h.shared q hq).decided⟩
  sharedSorts := h.sharedSorts
  arithmetic := h.arithmetic
  lowered := h.lowered
  paired := h.paired

/-- After a preparation, the check refutes an assignment by a valid clause or gives a model. -/
theorem assignment_decided (hs : Reachable s)
    {arrange : List (List TermId) → List (List TermId)} {depth rounds : ℕ} {trail : TheoryTrail}
    {relevant : List TermId} {th : UfTheory}
    (hprepare : UfTheory.prepare arrange depth rounds trail relevant s = some (.ok th, s'))
    (hroom : s'.nodes.length ≤ maxIndex) (assigned : TheoryTrail) :
    ∃ applications, List.Forall₂ (Resolves s') th.relevantApplications applications ∧
      ((∃ clause, (th.under assigned).finalCheck s' = some (.conflict clause) ∧
          Blocks s' (th.under assigned) clause) ∨
        ∃ model, (th.under assigned).finalCheck s' = some (.consistent model) ∧
          model.Satisfies s' (th.under assigned) applications) := by
  obtain ⟨-, hok, htyped, hth⟩ := prepare_prepares arrange depth rounds trail relevant
    hs.ok hs.typed
    _ _ hprepare
  obtain ⟨-, applications, hprepared⟩ := hth th rfl
  exact ⟨applications, hprepared.resolves,
    finalCheck_decides hok htyped hroom (hprepared.under assigned)⟩

/-- Two elements and their images under a function. -/
def twoImages : TermStore :=
  [Operation.freshUninterpretedSort, .freshTerm (.uninterpreted 0), .freshTerm (.uninterpreted 0),
    .declareFunction [.uninterpreted 0] (.uninterpreted 0), .apply 0 [2], .apply 0 [3],
    .equivalent 2 3, .equivalent 4 5].foldl (fun s operation => (operation.run 1 s).2) .new

lemma reachable_twoImages : Reachable twoImages := by
  repeat' first | exact .refl _ | refine .step _ _ ?_

/-- The elements are equal, and their images are not. -/
def imagesApart : TheoryTrail :=
  (TheoryTrail.beginCheck.notifyAssignment ⟨6, true⟩).notifyAssignment ⟨7, false⟩

theorem assignment_decided_twoImages : ∃ th s' applications,
    UfTheory.prepare id 1 5 .beginCheck [6, 7] twoImages = some (.ok th, s') ∧
      List.Forall₂ (Resolves s') th.relevantApplications applications ∧
        ((∃ clause, (th.under imagesApart).finalCheck s' = some (.conflict clause) ∧
            Blocks s' (th.under imagesApart) clause) ∨
          ∃ model, (th.under imagesApart).finalCheck s' = some (.consistent model) ∧
            model.Satisfies s' (th.under imagesApart) applications) := by
  have hrun : (UfTheory.prepare id 1 5 .beginCheck [6, 7] twoImages).any (fun outcome =>
      outcome.1.toOption.any fun _ => decide (outcome.2.nodes.length ≤ maxIndex)) = true := by
    decide +kernel
  cases hprepare : UfTheory.prepare id 1 5 .beginCheck [6, 7] twoImages with
  | none =>
    rw [hprepare] at hrun
    cases hrun
  | some outcome =>
    obtain ⟨e | th, s'⟩ := outcome <;> rw [hprepare] at hrun
    · cases hrun
    · obtain ⟨applications, hresolves, hcheck⟩ :=
        assignment_decided reachable_twoImages hprepare (of_decide_eq_true hrun) imagesApart
      exact ⟨th, s', applications, rfl, hresolves, hcheck⟩

end Satrap.Smt
