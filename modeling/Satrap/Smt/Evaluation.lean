/-
# Values of Boolean terms

Under an assignment of the atoms every Boolean term has a value, which later operations do not
change (`TermStore.Ok.evaluate_extends`).  The simplifying connectives return a term with the
value of the connective, whatever simplification applies.
-/
import Satrap.Smt.Store
import Mathlib.Data.List.Dedup

namespace Satrap.Smt

open TermStore TermM

variable {s s' : TermStore} {t u : TermId} {ρ : SymbolId → Bool} {T : Prop}

/-! ### One step of the evaluation -/

namespace TermKind

/-- The value of a term from the values of its members. -/
def value (atomValue : SymbolId → Bool) (member : TermId → Bool) : TermKind → Bool
  | .bool value => value
  | .atom symbol | .theoryEquality symbol _ _ | .arithmeticPredicate symbol _ _ => atomValue symbol
  | .not inner => !member inner
  | .and terms => terms.all member
  | .or terms => terms.any member
  | .xor left right => member left != member right
  | .iff left right => member left == member right
  | .ite condition thenTerm elseTerm =>
    if member condition then member thenTerm else member elseTerm
  | _ => false

lemma value_congr {member member' : TermId → Bool} (kind : TermKind)
    (h : ∀ m ∈ kind.members, member m = member' m) :
    kind.value ρ member = kind.value ρ member' := by
  cases kind with
  | and terms =>
    simp only [value, members] at h ⊢
    induction terms with
    | nil => rfl
    | cons a terms ih => simp_all
  | or terms =>
    simp only [value, members] at h ⊢
    induction terms with
    | nil => rfl
    | cons a terms ih => simp_all
  | _ => simp_all [value, members]

end TermKind

namespace TermStore

lemma evaluateWithin_succ (depth : ℕ) :
    s.evaluateWithin ρ (depth + 1) t = (s.node t).kind.value ρ (s.evaluateWithin ρ depth) := by
  rw [evaluateWithin]
  cases (s.node t).kind <;> rfl

namespace Ok

variable (h : s.Ok)
include h

/-- Every depth above the term is enough. -/
lemma evaluateWithin_eq : ∀ t, t < s.nodes.length → ∀ depth depth', t < depth → t < depth' →
    s.evaluateWithin ρ depth t = s.evaluateWithin ρ depth' t := by
  intro t
  induction t using Nat.strong_induction_on with
  | _ t ih =>
    intro ht depth depth' hd hd'
    obtain ⟨depth, rfl⟩ := Nat.exists_eq_succ_of_ne_zero (Nat.ne_zero_of_lt hd)
    obtain ⟨depth', rfl⟩ := Nat.exists_eq_succ_of_ne_zero (Nat.ne_zero_of_lt hd')
    rw [evaluateWithin_succ, evaluateWithin_succ]
    refine TermKind.value_congr _ fun m hm => ?_
    obtain ⟨hlt, hb⟩ := h.members_isBool ht hm
    exact ih m hlt hb.lt depth depth' (hlt.trans_le (Nat.lt_succ_iff.1 hd))
      (hlt.trans_le (Nat.lt_succ_iff.1 hd'))

lemma evaluate_eq (ht : t < s.nodes.length) :
    s.evaluate ρ t = (s.node t).kind.value ρ (s.evaluate ρ) := by
  rw [evaluate, evaluateWithin_succ]
  refine TermKind.value_congr _ fun m hm => ?_
  obtain ⟨hlt, hb⟩ := h.members_isBool ht hm
  exact h.evaluateWithin_eq m hb.lt _ _ hlt (Nat.lt_succ_self m)

/-- The value of a term does not depend on the terms built after it. -/
lemma evaluate_extends (h' : s'.Ok) (he : s.Extends s') :
    ∀ t, t < s.nodes.length → s'.evaluate ρ t = s.evaluate ρ t := by
  intro t
  induction t using Nat.strong_induction_on with
  | _ t ih =>
    intro ht
    rw [h.evaluate_eq ht, h'.evaluate_eq (ht.trans_le he.nodes.length_le), he.node_eq ht]
    refine TermKind.value_congr _ fun m hm => ?_
    obtain ⟨hlt, hb⟩ := h.members_isBool ht hm
    exact ih m hlt hb.lt

/-- The value of a term from its node. -/
lemma evaluate_node (h' : s'.Ok) (he : s.Extends s') {node : TermNode}
    (hn : s'.nodes[t]? = some node) (hm : ∀ m ∈ node.kind.members, s.IsBool m) :
    s'.evaluate ρ t = node.kind.value ρ (s.evaluate ρ) := by
  have ht := (List.getElem?_eq_some_iff.1 hn).1
  have hnode : s'.node t = node := by
    rw [TermStore.node, List.getD_eq_getElem?_getD, hn, Option.getD_some]
  rw [h'.evaluate_eq ht, hnode]
  exact TermKind.value_congr _ fun m hmem => h.evaluate_extends h' he m (hm m hmem).lt

lemma evaluate_constant (value : Bool) : s.evaluate ρ (boolConstant value) = value := by
  have hlt := (h.isBool_constant value).lt
  rw [h.evaluate_eq hlt]
  have hnode : s.nodes[boolConstant value]? = some ⟨boolSort, .bool value⟩ := by
    cases value with
    | true => exact h.first
    | false => exact h.second
  rw [TermStore.node, List.getD_eq_getElem?_getD, hnode]
  rfl

end Ok

/-! ### The meaning of a term -/

/-- The term is Boolean and has the value. -/
def Means (s : TermStore) (ρ : SymbolId → Bool) (t : TermId) (value : Bool) : Prop :=
  s.IsBool t ∧ s.evaluate ρ t = value

namespace Means

variable {b : Bool}

lemma isBool (h : s.Means ρ t b) : s.IsBool t := h.1

lemma eq (h : s.Means ρ t b) : s.evaluate ρ t = b := h.2

lemma mono (hs : s.Ok) (hs' : s'.Ok) (he : s.Extends s') (h : s.Means ρ t b) :
    s'.Means ρ t b := ⟨he.isBool h.1, (hs.evaluate_extends hs' he t h.1.lt).trans h.2⟩

lemma constant (hs : s.Ok) (value : Bool) : s.Means ρ (boolConstant value) value :=
  ⟨hs.isBool_constant value, hs.evaluate_constant value⟩

lemma of_isBool (h : s.IsBool t) : s.Means ρ t (s.evaluate ρ t) := ⟨h, rfl⟩

end Means

end TermStore

/-! ### Connectives -/

section

variable (h : s.Ok)
include h

/-- A Boolean node with Boolean members. -/
lemma nodeOk_boolean {kind : TermKind} (hm : ∀ m ∈ kind.members, s.IsBool m)
    (hw : ∀ bits, kind ≠ .bitVec bits) (ha : ∀ symbol, kind ≠ .atom symbol)
    (he : ∀ e, kind ≠ .arithmetic e) : s.NodeOk s.nodes.length ⟨boolSort, kind⟩ where
  sort := (List.getElem?_eq_some_iff.1 h.boolean).1
  members m hmem := ⟨(hm m hmem).lt, hm m hmem⟩
  word bits hb := absurd hb (hw bits)
  bits w hs := by
    rw [h.boolean] at hs
    cases hs
  symbol symbol hs := absurd hs (ha symbol)
  expression e hk := absurd hk (he e)

/-- Interning a connective. -/
lemma intern_means {kind : TermKind} (hm : ∀ m ∈ kind.members, s.IsBool m)
    (hw : ∀ bits, kind ≠ .bitVec bits) (ha : ∀ symbol, kind ≠ .atom symbol)
    (he : ∀ e, kind ≠ .arithmetic e)
    (hp : ∀ symbol e strict, kind ≠ .arithmeticPredicate symbol e strict) :
    Spec T (intern boolSort kind) s fun r s' => s'.Means ρ r (kind.value ρ (s.evaluate ρ)) := by
  refine (intern_spec h (nodeOk_boolean h hm hw ha he) hp).weaken ?_
  rintro r s' hext hok ⟨hr, -, -⟩
  exact ⟨⟨_, hr, rfl⟩, h.evaluate_node hok hext hr hm⟩

/-- The value of a Boolean term whose node is known. -/
lemma evaluate_of_kind (ht : s.IsBool t) {kind : TermKind} (hk : (s.node t).kind = kind) :
    s.evaluate ρ t = kind.value ρ (s.evaluate ρ) := by
  rw [h.evaluate_eq ht.lt, hk]

lemma members_of_kind (ht : s.IsBool t) {kind : TermKind} (hk : (s.node t).kind = kind)
    {m : TermId} (hm : m ∈ kind.members) : s.IsBool m :=
  (h.members_isBool ht.lt (hk ▸ hm)).2

lemma mkNot_spec (ht : T → s.IsBool t) :
    Spec T (mkNot t) s fun r s' => s'.Means ρ r (!s.evaluate ρ t) := by
  refine .bind (requireBool_spec h ht) ?_
  rintro _ _ - - ⟨rfl, hb⟩
  refine .get ?_
  split
  · next value hk =>
    rw [evaluate_of_kind h hb hk]
    exact .pure h (.constant h _)
  · next inner hk =>
    rw [evaluate_of_kind h hb hk]
    refine .pure h ⟨members_of_kind h hb hk (by simp [TermKind.members]), ?_⟩
    rw [TermKind.value, Bool.not_not]
  · exact intern_means h (by simpa [TermKind.members] using hb) (by simp) (by simp) (by simp)
      (by simp)

/-! ### Junctions -/

/-- `flatten` keeps the question whether every member has the neutral value. -/
lemma flatten_spec (hb : s.IsBool t) {flattened : List TermId} (neutral : Bool)
    (hf : ∀ m ∈ flattened, s.IsBool m) :
    match flatten s neutral neutral t flattened with
    | .inl members => (∀ m ∈ members, s.IsBool m) ∧
        ((∀ m ∈ members, s.evaluate ρ m = neutral) ↔
          (∀ m ∈ flattened, s.evaluate ρ m = neutral) ∧ s.evaluate ρ t = neutral)
    | .inr value => value = !neutral ∧ s.evaluate ρ t = !neutral := by
  have happend : ∀ terms, (∀ m ∈ terms, s.IsBool m) →
      ((∀ m ∈ terms, s.evaluate ρ m = neutral) ↔ s.evaluate ρ t = neutral) →
      (∀ m ∈ flattened ++ terms, s.IsBool m) ∧
        ((∀ m ∈ flattened ++ terms, s.evaluate ρ m = neutral) ↔
          (∀ m ∈ flattened, s.evaluate ρ m = neutral) ∧ s.evaluate ρ t = neutral) := by
    intro terms hterms hiff
    simp only [List.mem_append, or_imp, forall_and, hiff]
    exact ⟨⟨hf, hterms⟩, trivial⟩
  have hself := happend [t] (by simpa using hb) (by simp)
  unfold flatten
  generalize hk : (s.node t).kind = kind
  cases kind with
  | bool value =>
    have hv := evaluate_of_kind (ρ := ρ) h hb hk
    dsimp only
    by_cases hc : value = neutral
    · rw [if_pos hc]
      exact ⟨hf, by simpa [hv, TermKind.value] using fun _ => hc⟩
    · rw [if_neg hc]
      exact ⟨Bool.eq_not.2 hc, hv.trans (Bool.eq_not.2 hc)⟩
  | and nested =>
    cases neutral with
    | false => exact hself
    | true =>
      refine happend nested (fun m hm => members_of_kind h hb hk hm) ?_
      rw [evaluate_of_kind h hb hk, TermKind.value, List.all_eq_true]
  | or nested =>
    cases neutral with
    | true => exact hself
    | false =>
      refine happend nested (fun m hm => members_of_kind h hb hk hm) ?_
      rw [evaluate_of_kind h hb hk, TermKind.value, List.any_eq_false]
      simp
  | _ => exact hself

lemma flattenAll_spec (neutral : Bool) : ∀ terms flattened : List TermId,
    (T → ∀ t ∈ terms, s.IsBool t) → (∀ m ∈ flattened, s.IsBool m) →
    Spec T (flattenAll neutral neutral terms flattened) s fun result s' => s = s' ∧
      match result with
      | .inl members => (∀ m ∈ members, s.IsBool m) ∧
          ((∀ m ∈ members, s.evaluate ρ m = neutral) ↔
            (∀ m ∈ flattened, s.evaluate ρ m = neutral) ∧ ∀ t ∈ terms, s.evaluate ρ t = neutral)
      | .inr value => value = !neutral ∧ ∃ t ∈ terms, s.evaluate ρ t = !neutral
  | [], flattened, _, hf => .pure h ⟨rfl, hf, by simp⟩
  | t :: rest, flattened, ht, hf => by
    refine .bind (requireBool_spec h fun hT => ht hT t (by simp)) ?_
    rintro _ _ - - ⟨rfl, hb⟩
    refine .get ?_
    have hstep := flatten_spec (ρ := ρ) h hb neutral hf
    split
    · next flattened' he =>
      rw [he] at hstep
      obtain ⟨hf', hiff⟩ := hstep
      refine (flattenAll_spec neutral rest flattened' (fun hT u hu => ht hT u (by simp [hu]))
        hf').weaken ?_
      rintro result _ - - ⟨rfl, hresult⟩
      refine ⟨rfl, ?_⟩
      cases result with
      | inl members =>
        obtain ⟨hmembers, hmem⟩ := hresult
        refine ⟨hmembers, hmem.trans ?_⟩
        rw [hiff, List.forall_mem_cons, and_assoc]
      | inr value =>
        obtain ⟨hv, u, hu, hval⟩ := hresult
        exact ⟨hv, u, by simp [hu], hval⟩
    · next value he =>
      rw [he] at hstep
      exact .pure h ⟨rfl, hstep.1, t, by simp, hstep.2⟩

omit h in
lemma mem_sortDedup {terms : List TermId} : t ∈ sortDedup terms ↔ t ∈ terms := by
  rw [sortDedup, List.mem_dedup, List.mem_mergeSort]

/-- Complementary members do not both have the neutral value. -/
lemma exists_of_hasComplements {members : List TermId} (hm : ∀ m ∈ members, s.IsBool m)
    (hc : hasComplements s members = true) (neutral : Bool) :
    ∃ m ∈ members, s.evaluate ρ m = !neutral := by
  rw [hasComplements, List.any_eq_true] at hc
  obtain ⟨m, hmem, hmatch⟩ := hc
  split at hmatch
  · next inner hk =>
    have hinner : inner ∈ members := by simpa using hmatch
    have hv := evaluate_of_kind (ρ := ρ) h (hm m hmem) hk
    rw [TermKind.value] at hv
    by_cases hn : s.evaluate ρ inner = neutral
    · exact ⟨m, hmem, by rw [hv, hn]⟩
    · exact ⟨inner, hinner, Bool.eq_not.2 hn⟩
  · cases hmatch

/-- A junction is neutral exactly when all its members are. -/
lemma junction_spec {terms : List TermId} (neutral : Bool) (ht : T → ∀ t ∈ terms, s.IsBool t) :
    Spec T (junction terms neutral neutral) s fun r s' => ∃ value, s'.Means ρ r value ∧
      (value = neutral ↔ ∀ t ∈ terms, s.evaluate ρ t = neutral) := by
  refine .bind (flattenAll_spec (ρ := ρ) h neutral terms [] ht (by simp)) ?_
  rintro result _ - - ⟨rfl, hresult⟩
  have hconstant : ∀ value, (∃ t ∈ terms, s.evaluate ρ t = !neutral) → value = !neutral →
      ∃ v, s.Means ρ (boolConstant value) v ∧
        (v = neutral ↔ ∀ t ∈ terms, s.evaluate ρ t = neutral) := by
    rintro value ⟨t, hmem, hv⟩ rfl
    refine ⟨!neutral, .constant h _, iff_of_false (by simp) fun hall => ?_⟩
    rw [hall t hmem] at hv
    simp at hv
  cases result with
  | inr value => exact .pure h (hconstant value hresult.2 hresult.1)
  | inl members =>
    obtain ⟨hb, hiff⟩ := hresult
    have hb' : ∀ m ∈ sortDedup members, s.IsBool m := fun m hm => hb m (mem_sortDedup.1 hm)
    have hiff' : (∀ m ∈ sortDedup members, s.evaluate ρ m = neutral) ↔
        ∀ t ∈ terms, s.evaluate ρ t = neutral := by
      simp only [mem_sortDedup, hiff, List.not_mem_nil, false_implies, implies_true, true_and]
    refine .get ?_
    split
    · next hc =>
      refine .pure h (hconstant _ ?_ rfl)
      by_contra hnone
      obtain ⟨m, hm, hv⟩ := exists_of_hasComplements (ρ := ρ) h hb' hc neutral
      have hall := hiff'.2 fun t ht' => by
        by_contra hne
        exact hnone ⟨t, ht', Bool.eq_not.2 hne⟩
      rw [hall m hm] at hv
      simp at hv
    · split
      · next he =>
        rw [he] at hiff'
        refine .pure h ⟨neutral, .constant h neutral, ?_⟩
        rw [← hiff']
        simp
      · next member he =>
        rw [he] at hiff' hb'
        refine .pure h ⟨_, .of_isBool (hb' member (by simp)), ?_⟩
        rw [← hiff']
        simp
      · cases neutral with
        | true =>
          have hand : ∀ m ∈ (TermKind.and (sortDedup members)).members, s.IsBool m := hb'
          refine (intern_means (ρ := ρ) h hand (by simp) (by simp) (by simp) (by simp)).weaken ?_
          rintro r s' - - hr
          refine ⟨_, hr, ?_⟩
          rw [← hiff']
          exact List.all_eq_true
        | false =>
          have hor : ∀ m ∈ (TermKind.or (sortDedup members)).members, s.IsBool m := hb'
          refine (intern_means (ρ := ρ) h hor (by simp) (by simp) (by simp) (by simp)).weaken ?_
          rintro r s' - - hr
          refine ⟨_, hr, ?_⟩
          rw [← hiff']
          simp [TermKind.value]

lemma mkAnd_spec {terms : List TermId} (ht : T → ∀ t ∈ terms, s.IsBool t) :
    Spec T (mkAnd terms) s fun r s' => s'.Means ρ r (terms.all (s.evaluate ρ)) := by
  refine (junction_spec (ρ := ρ) h true ht).weaken ?_
  rintro r s' - - ⟨value, hr, hv⟩
  have he : value = terms.all (s.evaluate ρ) := by rw [Bool.eq_iff_iff, hv, List.all_eq_true]
  exact he ▸ hr

lemma mkOr_spec {terms : List TermId} (ht : T → ∀ t ∈ terms, s.IsBool t) :
    Spec T (mkOr terms) s fun r s' => s'.Means ρ r (terms.any (s.evaluate ρ)) := by
  refine (junction_spec (ρ := ρ) h false ht).weaken ?_
  rintro r s' - - ⟨value, hr, hv⟩
  have he : value = terms.any (s.evaluate ρ) := by
    rw [Bool.eq_iff_iff, ← not_iff_not, Bool.not_eq_true, hv, Bool.not_eq_true,
      List.any_eq_false]
    simp
  exact he ▸ hr

/-! ### Exclusive or and equivalence -/

lemma evaluate_of_areComplements (hl : s.IsBool t) (hr : s.IsBool u)
    (hc : areComplements s t u = true) : s.evaluate ρ t = !s.evaluate ρ u := by
  rw [areComplements, Bool.or_eq_true, decide_eq_true_eq, decide_eq_true_eq] at hc
  rcases hc with hk | hk
  · exact evaluate_of_kind h hl hk
  · rw [evaluate_of_kind h hr hk, TermKind.value, Bool.not_not]

omit h in
lemma orderedPair_eq (left right : TermId) :
    orderedPair left right = (left, right) ∨ orderedPair left right = (right, left) := by
  rw [orderedPair]
  split <;> simp

lemma mkXor_spec (hl : T → s.IsBool t) (hr : T → s.IsBool u) :
    Spec T (mkXor t u) s fun r s' => s'.Means ρ r (s.evaluate ρ t ^^ s.evaluate ρ u) := by
  refine .bind (requireBool_spec h hl) ?_
  rintro _ _ - - ⟨rfl, hbl⟩
  refine .bind (requireBool_spec h hr) ?_
  rintro _ _ - - ⟨rfl, hbr⟩
  refine .get ?_
  split
  · next he =>
    subst he
    rw [Bool.xor_self]
    exact .pure h (.constant h false)
  split
  · next hc =>
    rw [evaluate_of_areComplements h hbl hbr hc, Bool.not_xor, Bool.xor_self]
    exact .pure h (.constant h true)
  split
  · next hk =>
    rw [evaluate_of_kind h hbl hk, TermKind.value, Bool.false_xor]
    exact .pure h (.of_isBool hbr)
  · next hk _ =>
    rw [evaluate_of_kind h hbr hk, TermKind.value, Bool.xor_false]
    exact .pure h (.of_isBool hbl)
  · next hk _ =>
    rw [evaluate_of_kind h hbl hk, TermKind.value, Bool.true_xor]
    exact mkNot_spec h fun _ => hbr
  · next hk _ _ =>
    rw [evaluate_of_kind h hbr hk, TermKind.value, Bool.xor_true]
    exact mkNot_spec h fun _ => hbl
  · rcases orderedPair_eq t u with he | he
    · rw [he]
      exact intern_means h (by simp [TermKind.members, hbl, hbr]) (by simp) (by simp) (by simp)
        (by simp)
    · rw [he, Bool.xor_comm]
      exact intern_means h (by simp [TermKind.members, hbl, hbr]) (by simp) (by simp) (by simp)
        (by simp)

lemma mkIff_spec (hl : T → s.IsBool t) (hr : T → s.IsBool u) :
    Spec T (mkIff t u) s fun r s' => s'.Means ρ r (s.evaluate ρ t == s.evaluate ρ u) := by
  refine .bind (requireBool_spec h hl) ?_
  rintro _ _ - - ⟨rfl, hbl⟩
  refine .bind (requireBool_spec h hr) ?_
  rintro _ _ - - ⟨rfl, hbr⟩
  refine .get ?_
  split
  · next he =>
    subst he
    rw [beq_self_eq_true]
    exact .pure h (.constant h true)
  split
  · next hc =>
    rw [evaluate_of_areComplements h hbl hbr hc, Bool.not_beq_self]
    exact .pure h (.constant h false)
  split
  · next hk =>
    rw [evaluate_of_kind h hbl hk, TermKind.value, Bool.true_beq]
    exact .pure h (.of_isBool hbr)
  · next hk _ =>
    rw [evaluate_of_kind h hbr hk, TermKind.value, beq_true]
    exact .pure h (.of_isBool hbl)
  · next hk _ =>
    rw [evaluate_of_kind h hbl hk, TermKind.value, Bool.false_beq]
    exact mkNot_spec h fun _ => hbr
  · next hk _ _ =>
    rw [evaluate_of_kind h hbr hk, TermKind.value, beq_false]
    exact mkNot_spec h fun _ => hbl
  · rcases orderedPair_eq t u with he | he
    · rw [he]
      exact intern_means h (by simp [TermKind.members, hbl, hbr]) (by simp) (by simp) (by simp)
        (by simp)
    · rw [he, Bool.beq_comm]
      exact intern_means h (by simp [TermKind.members, hbl, hbr]) (by simp) (by simp) (by simp)
        (by simp)

/-! ### Conditionals -/

lemma iteBool_spec {c : TermId} (hc : s.IsBool c) (ht : s.IsBool t) (hu : s.IsBool u) :
    Spec T (iteBool c t u) s fun r s' =>
      s'.Means ρ r (if s.evaluate ρ c then s.evaluate ρ t else s.evaluate ρ u) := by
  rw [iteBool]
  split
  · next he =>
    subst he
    rw [ite_self]
    exact .pure h (.of_isBool ht)
  refine .get ?_
  split
  · next hk =>
    rw [evaluate_of_kind h hc hk, TermKind.value, if_pos rfl]
    exact .pure h (.of_isBool ht)
  · next hk =>
    rw [evaluate_of_kind h hc hk, TermKind.value, if_neg Bool.false_ne_true]
    exact .pure h (.of_isBool hu)
  split
  · next he =>
    have h1 : s.evaluate ρ t = true := by rw [he.1]; exact h.evaluate_constant true
    have h2 : s.evaluate ρ u = false := by rw [he.2]; exact h.evaluate_constant false
    have hv : (if s.evaluate ρ c then s.evaluate ρ t else s.evaluate ρ u) = s.evaluate ρ c := by
      rw [h1, h2]
      cases s.evaluate ρ c <;> rfl
    rw [hv]
    exact .pure h (.of_isBool hc)
  split
  · next he =>
    have h1 : s.evaluate ρ t = false := by rw [he.1]; exact h.evaluate_constant false
    have h2 : s.evaluate ρ u = true := by rw [he.2]; exact h.evaluate_constant true
    have hv : (if s.evaluate ρ c then s.evaluate ρ t else s.evaluate ρ u) = !s.evaluate ρ c := by
      rw [h1, h2]
      cases s.evaluate ρ c <;> rfl
    rw [hv]
    exact mkNot_spec h fun _ => hc
  · exact intern_means h (by simp [TermKind.members, hc, ht, hu]) (by simp) (by simp) (by simp)
      (by simp)

/-- `ite` of Boolean terms. -/
lemma mkIte_spec {c : TermId} (hc : s.IsBool c) (ht : s.IsBool t) (hu : s.IsBool u) :
    Spec T (mkIte c t u) s fun r s' =>
      s'.Means ρ r (if s.evaluate ρ c then s.evaluate ρ t else s.evaluate ρ u) := by
  refine .bind (requireBool_spec h fun _ => hc) ?_
  rintro _ _ - - ⟨rfl, -⟩
  refine .bind (sortOf_spec h fun _ => ht.lt) ?_
  rintro _ _ - - ⟨rfl, hs⟩
  refine .bind (sortOf_spec h fun _ => hu.lt) ?_
  rintro _ _ - - ⟨rfl, hs'⟩
  rw [h.sort?_isBool ht, Option.some.injEq] at hs
  rw [h.sort?_isBool hu, Option.some.injEq] at hs'
  subst hs hs'
  rw [if_neg (by decide), if_neg (by simp)]
  split
  · next he =>
    subst he
    rw [ite_self]
    exact .pure h (.of_isBool ht)
  · exact iteBool_spec h hc ht hu

end

end Satrap.Smt
