/-
# Reachable stores are typed

The operations check the sorts of applications, conditionals and equalities before they enter them
in a table, so what the tables hold of every store that is reachable has the sorts that were
checked.
-/
import Satrap.Smt.Typing

namespace Satrap.Smt

open Logic TermStore TermM

variable {α β : Type} {s s' : TermStore} {t : TermId}

/-! ### Applications and conditionals -/

/-- A new application has the sorts of its function. -/
lemma TermStore.Typed.entered (ht : s.Typed) {function : FunctionId} {arguments : List TermId}
    {r : TermId}
    {byBit : TermId → Option (TermId × ℕ)} (ha : s.Applied ⟨function, arguments, r⟩) :
    (entered s function arguments r byBit).Typed where
  applications a hm := (List.mem_append.1 hm).elim (ht.applications a) fun hm => by
    rw [List.mem_singleton.1 hm]
    exact ha
  equalities := ht.equalities
  ufItes := ht.ufItes
  axioms := ht.axioms
  variableSorts := ht.variableSorts
  expressions := ht.expressions
  arithmetic := ht.arithmetic
  arithmeticItes := ht.arithmeticItes

lemma recordApplication_eq {function : FunctionId} {arguments : List TermId} {range : SmtSort}
    {r : TermId} (hbits : ∀ w, range = .bitVec w → ∃ bits, s.bits? r = some bits) :
    ∃ byBit, recordApplication function arguments range r s =
      (.ok (), entered s function arguments r byBit) := by
  by_cases hw : ∃ w, range = .bitVec w
  · obtain ⟨w, rfl⟩ := hw
    obtain ⟨bits, hb⟩ := hbits w rfl
    exact ⟨_, recordApplication_bitVec hb⟩
  · exact ⟨_, recordApplication_other fun w heq => hw ⟨w, heq⟩⟩

/-- The arguments have the sorts of the domain. -/
lemma checkArguments_spec (h : s.Ok) : ∀ (arguments : List TermId) (domain : List SmtSort),
    arguments.length = domain.length → Spec False (checkArguments arguments domain) s fun _ s' =>
      s = s' ∧ s.HaveSorts arguments domain
  | [], [], _ => .pure h ⟨rfl, .nil⟩
  | argument :: arguments, expected :: domain, hlen => by
    refine .bind (sortOf_spec h False.elim) ?_
    rintro sort _ - - ⟨rfl, hs⟩
    split
    · exact .fail h id
    next heq =>
    refine (checkArguments_spec h arguments domain (Nat.succ.inj hlen)).weaken ?_
    rintro _ _ - - ⟨rfl, hrest⟩
    exact ⟨rfl, .cons (hs.trans (congrArg some (not_not.1 heq))) hrest⟩

instance (arguments : List TermId) (domain : List SmtSort) :
    Frames theoryTables (checkArguments arguments domain) := by
  induction arguments generalizing domain with
  | nil => exact .pure _ ()
  | cons argument arguments ih =>
    cases domain with
    | nil => exact .pure _ ()
    | cons expected domain =>
      unfold checkArguments
      infer_instance

lemma applicationTerm_types (h : s.Ok) (ht : s.Typed) {function : FunctionId}
    {arguments : List TermId} (hnone : s.applicationResults (function, arguments) = none)
    (range : SmtSort) : TypesAt (applicationTerm function arguments range) s := by
  have hspec := applicationTerm_spec h hnone range
  cases range with
  | int | real => exact freshArithmeticVariable_types h ht _
  | bool =>
    exact @TypesAt.of_spec _ _ _ _ h ht hspec (inferInstanceAs (Frames theoryTables freshBoolAtom))
  | bitVec width =>
    exact @TypesAt.of_spec _ _ _ _ h ht hspec
      (inferInstanceAs (Frames theoryTables (freshBitvec width)))
  | uninterpreted | array =>
    exact @TypesAt.of_spec _ _ _ _ h ht hspec (inferInstanceAs (Frames theoryTables (do
      let sort ← sortIdFor _
      intern sort (.ufApplication function arguments))))

lemma exists_bits {range : SmtSort} (h : s.Ok) {r : TermId}
    (hs : s.sort? r = some range) (w : ℕ) (hw : range = .bitVec w) :
    ∃ bits, s.bits? r = some bits := by
  subst hw
  obtain ⟨bits, hb, -⟩ := bits_of_sort h hs
  exact ⟨bits, hb⟩

instance (function : FunctionId) (arguments : List TermId) : Types (apply function arguments) := by
  refine ⟨fun s h ht => .get ?_⟩
  refine .framed h ht (.okOr (Q := fun signature s' => s = s' ∧
    s.functions[function]? = some signature) h False.elim fun signature hf => ⟨rfl, hf⟩) ?_
  rintro signature _ - - - ⟨rfl, hf⟩
  split
  · exact .fail h ht
  next hlen =>
  refine .framed h ht (checkArguments_spec h _ _ (not_not.1 hlen)) ?_
  rintro _ _ - - - ⟨rfl, harguments⟩
  refine .get ?_
  split
  · exact .pure h ht
  next hnone =>
  refine .bind_spec (applicationTerm_types h ht hnone _)
    ((applicationTerm_spec h hnone signature.range).framed rest) ?_
  rintro r s₁ he₁ h₁ ht₁ ⟨ha, hrest⟩
  have happlied : s₁.Applied ⟨function, arguments, r⟩ := by
    obtain ⟨suffix, hsuffix⟩ := he₁.functions
    refine ⟨signature, ?_, harguments.later h he₁, ha.sort⟩
    rw [← hsuffix, List.getElem?_append_left (List.getElem?_eq_some_iff.1 hf).1, hf]
  have hrecord := recordApplication_spec h₁ h he₁ hrest hnone ha
  refine .bind ⟨hrecord.1, hrecord.2.1, ?_⟩ fun _ s₂ _ h₂ ht₂ => .pure h₂ ht₂
  obtain ⟨byBit, heq⟩ : ∃ byBit, recordApplication function arguments signature.range r s₁ =
      (.ok (), entered s₁ function arguments r byBit) :=
        recordApplication_eq (exists_bits h₁ ha.sort)
  rw [heq]
  exact ht₁.entered happlied

/-- The conditional has the sort of its branches. -/
lemma ufIteTerm_types (h : s.Ok) (ht : s.Typed) {c a b : TermId} (hc : s.IsBool c)
    (hab : s.Kindred a b) : TypesAt (ufIteTerm c a b) s := by
  obtain ⟨sort, habstract, ha, hb⟩ := hab
  have hwords : ∀ w, sort ≠ .bitVec w := by
    rintro w rfl
    simp [SmtSort.isAbstract] at habstract
  have hspec := ufIteTerm_spec (c := c) (b := b) h ha hwords
  refine ⟨hspec.1, hspec.2.1, ?_⟩
  have hid := sortId_spec (T := False) (t := a) h False.elim
  refine after_bind hid (TypesAt.of_spec h ht hid).2.2 ?_
  rintro _ _ - - - ⟨rfl, node, hn, rfl⟩
  obtain ⟨node', hn', hs⟩ := (sort?_eq_some_iff h).1 ha
  obtain rfl : node = node' := Option.some.inj (hn.symm.trans hn')
  have hnode : s.NodeOk s.nodes.length ⟨node.sort, .ufIte c a b⟩ := by
    refine nodeOk_leaf h (h.nodes _ _ hn).sort (fun w hw => ?_) rfl (by simp) (by simp) (by simp)
    rw [hs, Option.some.injEq] at hw
    exact hwords w hw
  have hintern := intern_spec (T := False) h hnode (by simp)
  refine after_bind hintern (TypesAt.of_spec h ht hintern).2.2 ?_
  rintro r s₁ he₁ h₁ ht₁ ⟨hr, -⟩
  have hsort : s₁.sort? r = some sort := (sort?_eq_some_iff h₁).2 ⟨_, hr, he₁.sort hs⟩
  show (if s₁.ufItes.any fun item => decide (item.result = r) then s₁
    else { s₁ with ufItes := s₁.ufItes ++ [⟨r, c, a, b⟩] }).Typed
  split
  · exact ht₁
  · refine { ht₁ with ufItes := fun item hm => ?_ }
    rcases List.mem_append.1 hm with hm | hm
    · exact ht₁.ufItes item hm
    · rw [List.mem_singleton.1 hm]
      exact ⟨he₁.isBool hc, ⟨sort, habstract, hsort, sort?_later h he₁ ha⟩,
        ⟨sort, habstract, hsort, sort?_later h he₁ hb⟩⟩

instance (condition : TermId) (thenBits elseBits : List TermId) :
    Frames theoryTables (selectPairs (iteBit condition) thenBits elseBits) := by
  unfold selectPairs
  infer_instance

instance (condition thenTerm elseTerm : TermId) : Types (mkIte condition thenTerm elseTerm) := by
  refine ⟨fun s h ht => .framed h ht (requireBool_spec h False.elim) ?_⟩
  rintro _ _ - - - ⟨rfl, hc⟩
  refine .framed h ht (sortOf_spec h False.elim) ?_
  rintro sort _ - - - ⟨rfl, hthen⟩
  refine .framed h ht (sortOf_spec h False.elim) ?_
  rintro elseSort _ - - - ⟨rfl, helse⟩
  split
  · -- only the coerced branches are entered with the condition
    refine .framed h ht (Spec.of_keeps h) ?_
    rintro common s₁ he₁ h₁ ht₁ -
    refine .get ?_
    split
    · exact .of_types h₁ ht₁
    · exact .of_types h₁ ht₁
    · exact arithmeticIte_types h₁ ht₁ (he₁.isBool hc) _ _
  next harith =>
  split
  · exact .fail h ht
  next heq =>
  rw [not_not.1 heq] at helse harith
  split
  · exact .pure h ht
  cases sort with
  | bool =>
    exact .of_spec h ht (iteBool_spec (ρ := fun _ => false) h hc ((isBool_iff_sort? h).2 hthen)
      ((isBool_iff_sort? h).2 helse))
  | bitVec width =>
    obtain ⟨thenBits, hthen, -, -, hthenBool⟩ := bits_of_sort h hthen
    obtain ⟨elseBits, helse, -, -, helseBool⟩ := bits_of_sort h helse
    refine .framed h ht (bitvecBits_spec h False.elim) ?_
    rintro _ _ - - - ⟨rfl, hb⟩
    rw [hthen, Option.some.injEq] at hb
    subst hb
    refine .framed h ht (bitvecBits_spec h False.elim) ?_
    rintro _ _ - - - ⟨rfl, hb⟩
    rw [helse, Option.some.injEq] at hb
    subst hb
    refine .framed h ht (Spec.collect (P := fun _ r s' => s'.IsBool r)
      (fun _ _ _ _ hl hr => hl.grown.isBool hr) _ s h fun pair hm s' he' h' => ?_) ?_
    · exact iteBit_spec h' (he'.isBool (hthenBool _ (List.of_mem_zip hm).1))
        (he'.isBool (helseBool _ (List.of_mem_zip hm).2))
    · intro bits s₁ _ h₁ ht₁ _
      exact .of_spec h₁ ht₁ (Spec.of_keeps h₁)
  | int | real => simp [SmtSort.isArithmetic] at harith
  | uninterpreted | array => exact ufIteTerm_types h ht hc ⟨_, rfl, hthen, helse⟩

/-! ### Equalities and reads of arrays -/

instance (array index : TermId) : Types (registerArrayRead array index) := .of_frames

/-- Only Boolean axioms are entered. -/
lemma pushArrayAxiom_types (h : s.Ok) (ht : s.Typed) (hb : s.IsBool t) :
    TypesAt (pushArrayAxiom t) s := by
  have hkeeps := (inferInstance : Keeps (pushArrayAxiom t)).spec s h
  refine ⟨hkeeps.1, hkeeps.2.1, { ht with axioms := fun term hm => ?_ }⟩
  rcases List.mem_append.1 hm with hm | hm
  · exact ht.axioms term hm
  · rw [List.mem_singleton.1 hm]
    exact hb

/-- The sorts of the sides are checked before an equality of abstract terms is built. -/
lemma equivalentWith_types {theoryEquality : TermId → TermId → TermM TermId}
    (hq : ∀ l r s, s.Ok → s.Typed → s.Kindred l r → TypesAt (theoryEquality l r) s)
    (l r : TermId) : Types (equivalentWith theoryEquality l r) := by
  refine ⟨fun s h ht => .framed h ht (sortOf_spec h False.elim) ?_⟩
  rintro leftSort _ - - - ⟨rfl, hl⟩
  refine .framed h ht (sortOf_spec h False.elim) ?_
  rintro rightSort _ - - - ⟨rfl, hr⟩
  split
  · exact .of_types h ht
  next harith =>
  split
  · exact .fail h ht
  next heq =>
  obtain rfl := not_not.1 heq
  cases rightSort with
  | bool => exact .of_spec h ht (Spec.of_keeps h)
  | bitVec width =>
    refine .framed h ht (Spec.of_keeps h) fun left s₁ _ h₁ ht₁ _ => ?_
    refine .framed h₁ ht₁ (Spec.of_keeps h₁) fun right s₂ _ h₂ ht₂ _ => ?_
    refine .framed h₂ ht₂ (Spec.of_keeps h₂) fun bits s₃ _ h₃ ht₃ _ => ?_
    exact .of_spec h₃ ht₃ (Spec.of_keeps h₃)
  | int | real => simp [SmtSort.isArithmetic] at harith
  | uninterpreted | array => exact hq l r s h ht ⟨_, rfl, hl, hr⟩

lemma isBool_equivalent (h : s.Ok) (depth : ℕ) (l r : TermId) :
    Spec False (equivalent depth l r) s fun t s' => s'.IsBool t :=
  (equivalent_spec (ρ := fun _ => false) h depth l r False.elim).weaken fun _ _ _ _ hd =>
    hd.equates.choose_spec.2.isBool

lemma TermM.bind_assoc {γ : Type} (x : TermM α) (f : α → TermM β) (g : β → TermM γ) :
    x >>= f >>= g = x >>= fun a => f a >>= g := by
  funext s
  rw [TermM.bind_apply, TermM.bind_apply, TermM.bind_apply]
  generalize x s = r
  obtain ⟨a | a, s'⟩ := r <;> rfl

/-- The atom of a new equality of terms of one sort. -/
lemma theoryEqualityAtom_types (h : s.Ok) (ht : s.Typed) {left right : TermId} (hle : left ≤ right)
    (hnone : s.theoryEqualityTerms (left, right) = none) (hk : s.Kindred left right)
    {f : TermId → TermM TermId}
    (hf : ∀ term s', s'.Ok → s'.Typed → s'.IsBool term → TypesAt (f term) s') :
    TypesAt (do
      let symbol ← freshSymbol
      let term ← intern boolSort (.theoryEquality symbol left right)
      recordTheoryEquality term left right
      f term) s := by
  have hspec := theoryEqualityAtom_spec h hle hnone (f := pure)
    (Q := fun term s' => s'.IsBool term) fun term s' h' hb _ => .pure h' hb
  have hassoc : (do
      let symbol ← freshSymbol
      let term ← intern boolSort (.theoryEquality symbol left right)
      recordTheoryEquality term left right
      f term : TermM TermId) = (do
      let symbol ← freshSymbol
      let term ← intern boolSort (.theoryEquality symbol left right)
      recordTheoryEquality term left right
      pure term : TermM TermId) >>= f := by
    simp only [TermM.bind_assoc]
    rfl
  rw [hassoc]
  refine .bind_spec ⟨hspec.1, hspec.2.1, ?_⟩ hspec fun term s' _ h' ht' hb => hf term s' h' ht' hb
  have hsymbol := freshSymbol_spec (T := False) h
  refine after_bind hsymbol (TypesAt.of_spec h ht hsymbol).2.2 ?_
  rintro symbol s₁ he₁ h₁ ht₁ -
  have hnode : s₁.NodeOk s₁.nodes.length ⟨boolSort, .theoryEquality symbol left right⟩ :=
    nodeOk_boolean h₁ (by simp [TermKind.members]) (by simp) (by simp) (by simp)
  have hintern := intern_spec (T := False) h₁ hnode (by simp)
  refine after_bind hintern (TypesAt.of_spec h₁ ht₁ hintern).2.2 ?_
  rintro term s₂ he₂ h₂ ht₂ -
  refine { ht₂ with equalities := fun q hm => ?_ }
  rcases List.mem_append.1 hm with hm | hm
  · exact ht₂.equalities q hm
  · rw [List.mem_singleton.1 hm]
    exact hk.later h (he₁.trans he₂)

lemma theoryEquality_types (depth : ℕ) : (∀ array index, Types (select depth array index)) ∧
    ∀ l r s, s.Ok → s.Typed → s.Kindred l r → TypesAt (theoryEquality depth l r) s := by
  induction depth with
  | zero =>
    unfold select theoryEquality
    exact ⟨fun _ _ => inferInstance, fun _ _ s h ht _ => .fail h ht⟩
  | succ depth ih =>
    obtain ⟨hselect, hequality⟩ := ih
    have hequivalent := equivalentWith_types hequality
    constructor
    · intro array index
      refine ⟨fun s h ht => ?_⟩
      unfold select
      refine .framed h ht (Spec.of_keeps h) fun signature s₁ _ h₁ ht₁ _ => ?_
      refine .framed h₁ ht₁ (Spec.of_keeps h₁) fun indexSort s₂ _ h₂ ht₂ _ => ?_
      split
      · exact .fail h₂ ht₂
      refine .framed h₂ ht₂ (Spec.of_keeps h₂) fun _ s₃ _ h₃ ht₃ _ => ?_
      refine .bind (.of_types h₃ ht₃) fun result s₄ _ h₄ ht₄ => ?_
      refine .framed h₄ ht₄ (Spec.of_keeps h₄) fun new s₅ _ h₅ ht₅ _ => ?_
      split
      · refine .get ?_
        split
        · next value _ =>
          refine .bind_spec ((hequivalent _ _).types _ h₅ ht₅) (isBool_equivalent h₅ depth _ _) ?_
          intro equality s₆ _ h₆ ht₆ hb
          exact .bind (pushArrayAxiom_types h₆ ht₆ hb) fun _ s₇ _ h₇ ht₇ => .pure h₇ ht₇
        · next base storedIndex storedValue _ =>
          refine .bind ((hequivalent _ _).types _ h₅ ht₅) fun sameIndex s₆ _ h₆ ht₆ => ?_
          refine .bind ((hselect _ _).types _ h₆ ht₆) fun fallback s₇ _ h₇ ht₇ => ?_
          refine .bind (.of_types h₇ ht₇) fun value s₈ _ h₈ ht₈ => ?_
          refine .bind_spec ((hequivalent _ _).types _ h₈ ht₈) (isBool_equivalent h₈ depth _ _) ?_
          intro equality s₉ _ h₉ ht₉ hb
          exact .bind (pushArrayAxiom_types h₉ ht₉ hb) fun _ s₁₀ _ h₁₀ ht₁₀ => .pure h₁₀ ht₁₀
        · exact .pure h₅ ht₅
      · exact .pure h₅ ht₅
    · intro l r s h ht hk
      unfold theoryEquality
      split
      · exact .pure h ht
      have hle := orderedPair_le l r
      have hpair : s.Kindred (orderedPair l r).1 (orderedPair l r).2 := by
        unfold orderedPair
        split
        · exact hk
        · exact hk.symm
      generalize orderedPair l r = pair at hle hpair
      obtain ⟨left, right⟩ := pair
      refine .get ?_
      split
      · exact .pure h ht
      next hnone =>
      refine theoryEqualityAtom_types h ht hle hnone hpair fun term s₁ h₁ ht₁ hb => ?_
      refine .framed h₁ ht₁ (Spec.of_keeps h₁) fun sort s₂ he₂ h₂ ht₂ _ => ?_
      split
      · refine .framed h₂ ht₂ (Spec.of_keeps h₂) fun signature s₃ he₃ h₃ ht₃ _ => ?_
        refine .bind (.of_types h₃ ht₃) fun witness s₄ he₄ h₄ ht₄ => ?_
        refine .bind ((hselect _ _).types _ h₄ ht₄) fun leftValue s₅ he₅ h₅ ht₅ => ?_
        refine .bind ((hselect _ _).types _ h₅ ht₅) fun rightValue s₆ he₆ h₆ ht₆ => ?_
        refine .bind_spec ((hequivalent _ _).types _ h₆ ht₆) (isBool_equivalent h₆ depth _ _) ?_
        intro valuesEqual s₇ he₇ h₇ ht₇ hequal
        refine .framed h₇ ht₇ (mkNot_spec (ρ := fun _ => false) h₇ False.elim) ?_
        intro valuesDiffer s₈ he₈ h₈ ht₈ _
        refine .framed h₈ ht₈ (mkOr_spec (ρ := fun _ => false) h₈ False.elim) ?_
        intro extensionality s₉ he₉ h₉ ht₉ hor
        exact .bind (pushArrayAxiom_types h₉ ht₉ hor.isBool) fun _ s₁₀ _ h₁₀ ht₁₀ => .pure h₁₀ ht₁₀
      · exact .pure h₂ ht₂

instance (depth : ℕ) (array index : TermId) : Types (select depth array index) :=
  (theoryEquality_types depth).1 array index

instance (depth : ℕ) (left right : TermId) : Types (equivalent depth left right) :=
  equivalentWith_types (theoryEquality_types depth).2 left right

instance (name : String) (first : TermId) (rest : List TermId) :
    Types (checkSameSort name first rest) := by
  have : Frames theoryTables (checkSameSort name first rest) := by
    unfold checkSameSort
    infer_instance
  exact .of_frames

instance (terms : List TermId) : Types (mkOr terms) := .of_frames

instance (term : TermId) : Types (mkNot term) := .of_frames

instance (left right : TermId) : Types (mkXor left right) := .of_frames

instance (left right : TermId) : Types (mkIff left right) := .of_frames

instance (term : TermId) : Types (requireBool term) := .of_frames

instance (terms : List TermId) : Types (implies terms) := by
  unfold implies
  infer_instance

instance (depth : ℕ) (terms : List TermId) : Types (equal depth terms) := by
  unfold equal
  split <;> infer_instance

instance (depth : ℕ) (terms : List TermId) : Types (distinct depth terms) := by
  unfold distinct
  split <;> infer_instance

instance (depth : ℕ) (arrays : List TermId) : Types (shareArrayReads depth arrays) := by
  unfold shareArrayReads
  infer_instance

instance (arrange : List (List TermId) → List (List TermId)) (depth : ℕ) :
    Types (prepareArraysRound arrange depth) := by
  unfold prepareArraysRound
  infer_instance

instance (arrange : List (List TermId) → List (List TermId)) (depth rounds : ℕ) :
    Types (prepareArrays arrange depth rounds) := by
  induction rounds with
  | zero => exact .fail _
  | succ rounds ih =>
    unfold prepareArrays
    infer_instance

/-! ### Words -/

instance (length : ℕ) (message : String) : Types (checkIndex length message) := .of_frames

instance (term : TermId) : Types (bitvecBits term) := .of_frames

instance (term : TermId) : Types (bitvecWidth term) := .of_frames

instance (width : ℕ) : Types (checkWidth width) := by
  unfold checkWidth
  infer_instance

instance (bits : List TermId) : Types (makeBitvec bits) := .of_frames

instance (width : ℕ) (operation : String) : Types (checkQuadratic width operation) := by
  unfold checkQuadratic
  infer_instance

instance (left right : TermId) (operation : String) :
    Types (requireSameBvWidth left right operation) := by
  unfold requireSameBvWidth
  infer_instance

instance (literal : List Char) : Types (bitvecFromBinary literal) := by
  unfold bitvecFromBinary
  split <;> infer_instance

instance (literal : List Char) : Types (bitvecFromHexadecimal literal) := by
  unfold bitvecFromHexadecimal
  split <;> infer_instance

instance (decimal : List Char) (width : ℕ) : Types (bitvecFromDecimal decimal width) := by
  unfold bitvecFromDecimal
  infer_instance

lemma types_addBitsFrom (carry : TermId) (left right : List TermId) :
    Types (addBitsFrom carry left right) := by
  fun_induction addBitsFrom carry left right with
  | case1 carry left lefts right rights ih =>
    refine .of_bind fun pairSum => .of_bind fun sum => ?_
    infer_instance
  | case2 => infer_instance

instance (left right : List TermId) : Types (addBits left right) := types_addBitsFrom _ _ _

instance (bits : List TermId) : Types (negateBits bits) := by
  unfold negateBits
  infer_instance

instance (left right : List TermId) : Types (subtractBits left right) := by
  unfold subtractBits
  infer_instance

instance (rightBit : TermId) (rightIndex outputWidth : ℕ) (left : List (TermId × ℕ))
    (products : List TermId) :
    Types (partialProduct rightBit rightIndex outputWidth left products) := by
  fun_induction partialProduct rightBit rightIndex outputWidth left products with
  | case1 => infer_instance
  | case2 => infer_instance
  | case3 products leftBit leftIndex rest output hlt ih => infer_instance

instance (left right : List TermId) (outputWidth : ℕ) :
    Types (multiplyBits left right outputWidth) := by
  unfold multiplyBits
  infer_instance

lemma types_lessThanFrom (less equal : TermId) (pairs : List (TermId × TermId)) :
    Types (lessThanFrom less equal pairs) := by
  fun_induction lessThanFrom less equal pairs with
  | case1 => infer_instance
  | case2 less equal left right rest ih => infer_instance

instance (left right : List TermId) : Types (unsignedLessThanBits left right) :=
  types_lessThanFrom _ _ _

instance (condition : TermId) (thenBits elseBits : List TermId) :
    Types (selectBits condition thenBits elseBits) := by
  unfold selectBits
  infer_instance

instance (bits : List TermId) (sign : TermId) : Types (absoluteBits bits sign) := by
  unfold absoluteBits
  infer_instance

instance (bits : List TermId) : Types (isZeroBits bits) := by
  unfold isZeroBits
  infer_instance

instance (divisor dividend quotient remainder : List TermId) :
    Types (divideFrom divisor dividend quotient remainder) := by
  fun_induction divideFrom divisor dividend quotient remainder with
  | case1 => infer_instance
  | case2 bit rest quotient remainder shifted ih => infer_instance

instance (dividend divisor : List TermId) : Types (unsignedDivideBits dividend divisor) := by
  unfold unsignedDivideBits
  infer_instance

instance (operation : Bitwise) (left right : TermId) : Types (operation.onBits left right) := by
  cases operation <;> (unfold Bitwise.onBits; infer_instance)

instance (term : TermId) : Types (bvnot term) := by
  unfold bvnot
  infer_instance

instance (terms : List TermId) (operation : Bitwise) : Types (foldBitwise terms operation) := by
  unfold foldBitwise
  split <;> infer_instance

instance (left right : TermId) : Types (bvsmod left right) := by
  unfold bvsmod
  refine .of_bind fun _ => .of_bind fun dividend => .of_bind fun divisor => ?_
  refine .of_bind fun absDividend => .of_bind fun absDivisor => .of_bind fun result => ?_
  refine .of_bind fun remainderIsZero => .of_bind fun negatedRemainder => ?_
  refine .of_bind fun negativePositive => .of_bind fun positiveNegative => ?_
  refine .of_bind fun notDividendSign => .of_bind fun notDivisorSign => ?_
  refine .of_bind fun bothPositive => .of_bind fun dividendNegative => ?_
  infer_instance

instance (left right : TermId) : Types (bvumulo left right) := by
  unfold bvumulo
  refine .of_bind fun width => .of_bind fun _ => .of_bind fun _ => .of_bind fun _ => ?_
  infer_instance

instance (left right : TermId) : Types (bvsmulo left right) := by
  unfold bvsmulo
  refine .of_bind fun width => .of_bind fun _ => .of_bind fun _ => .of_bind fun _ => ?_
  infer_instance

/-! ### Reachable stores -/

instance {α : Type} (x : TermM α) [Types x] : Types (discard x) := by
  unfold discard
  infer_instance

/-- An operation that leaves the tables alone, with its result dropped. -/
lemma Types.discard_of_frames {x : TermM α} [Keeps x] [Frames theoryTables x] :
    Types (discard x) := @instTypesUnitDiscard α x .of_frames

/-- Every operation keeps the tables typed, also when it fails. -/
lemma Operation.types (depth : ℕ) (operation : Operation) : Types (operation.run depth) := by
  cases operation with
  | bvcomp | concat | extract | repeatWord | zeroExtend | signExtend | rotateLeft | rotateRight
  | bvneg | bvsub | variableShift =>
    dsimp only [run, Smt.bvcomp, Smt.concat, Smt.extract, Smt.repeatWord, Smt.zeroExtend,
      Smt.signExtend, Smt.rotateLeft, Smt.rotateRight, Smt.bvneg, Smt.bvsub, Smt.variableShift]
    infer_instance
  | bvadd | bvmul =>
    dsimp only [run, Smt.bvadd, Smt.bvmul]
    exact @Types.bind _ _ _ _ (by split <;> infer_instance) inferInstance
  | bvudiv | bvurem | bvsdiv | bvsrem =>
    dsimp only [run, Smt.bvudiv, Smt.bvurem, Smt.bvsdiv, Smt.bvsrem]
    infer_instance
  | bvult | bvule | bvslt | bvsle =>
    dsimp only [run, Smt.bvult, Smt.bvule, Smt.bvslt, Smt.bvsle]
    infer_instance
  | bvnego | bvuaddo | bvsaddo | bvssubo | bvsdivo =>
    dsimp only [run, Smt.bvnego, Smt.bvuaddo, Smt.bvsaddo, Smt.bvssubo, Smt.bvsdivo]
    infer_instance
  | freshUninterpretedSort | arraySort | declareFunction | constArray | store =>
    exact .discard_of_frames
  | _ =>
    dsimp only [run]
    infer_instance

lemma Built.typed {s s' : TermStore} (hb : Built s s') (h : s.Ok) (ht : s.Typed) : s'.Typed := by
  induction hb with
  | refl s => exact ht
  | step depth operation hb ih => exact ((operation.types depth).types _
      (hb.later h).after (ih h ht)).2.2
  | rollback hb hb' hr ih _ =>
    have h' := hb'.later (hb.later h).after
    rw [rollback_eq h'.before h'.after h'.grown, Option.some.injEq] at hr
    exact hr ▸ ih h ht

/-- The tables of a store that is reachable have the sorts that were checked. -/
lemma Reachable.typed (hs : Reachable s) : s.Typed := Built.typed hs ok_new typed_new

end Satrap.Smt
