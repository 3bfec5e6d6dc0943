/-
# Functions and arrays

Declared functions, array sorts and the applications of functions: the result of a new
application is none of the earlier results, and its bits are new atoms.
-/
import Satrap.Smt.Tables

namespace Satrap.Smt

open Logic TermStore TermM

variable {s s' : TermStore} {t r : TermId}

/-! ### Fresh terms -/

section

variable (h : s.Ok)
include h

lemma freshBoolAtom_spec :
    Spec False freshBoolAtom s fun r s' => r = s.nodes.length ∧
      ∃ symbol, s'.nodes[r]? = some ⟨boolSort, .atom symbol⟩ := by
  refine .bind (freshSymbol_spec h) ?_
  rintro symbol s₁ - h₁ ⟨rfl, hnext, hnodes⟩
  have hnode : s₁.NodeOk s₁.nodes.length ⟨boolSort, .atom s.nextSymbol⟩ := by
    refine ⟨(List.getElem?_eq_some_iff.1 h₁.boolean).1, by simp [TermKind.members], by simp,
      fun w hw => ?_, ?_, by simp⟩
    · rw [h₁.boolean] at hw
      cases hw
    · rintro _ ⟨⟩
      exact hnext ▸ Nat.lt_succ_self s.nextSymbol
  refine (intern_spec h₁ hnode (by simp)).weaken ?_
  rintro r s₂ - - ⟨hr, hnew, -⟩
  refine ⟨?_, _, hr⟩
  rw [hnew, hnodes]
  rw [hnodes]
  intro hm
  obtain ⟨i, hi⟩ := List.mem_iff_getElem?.1 hm
  exact absurd ((h.nodes i _ hi).symbol _ rfl) (lt_irrefl _)

omit h in
/-- Fresh atoms are new and distinct. -/
lemma collect_freshBoolAtom {α : Type} : ∀ (list : List α) (s : TermStore), s.Ok →
    Spec False (collect (fun _ => freshBoolAtom) list) s fun bits s' =>
      bits.length = list.length ∧ bits.Nodup ∧ ∀ b ∈ bits, s.nodes.length ≤ b
  | [], s, h => .pure h (by simp)
  | a :: list, s, h => by
    refine .bind (freshBoolAtom_spec h) ?_
    rintro b s₁ he₁ h₁ ⟨rfl, symbol, hb⟩
    refine .bind (collect_freshBoolAtom list s₁ h₁) ?_
    rintro bits s₂ - h₂ ⟨hlen, hnodup, hnew⟩
    have hlt : s.nodes.length < s₁.nodes.length := (List.getElem?_eq_some_iff.1 hb).1
    refine .pure h₂ ⟨by simp [hlen], List.nodup_cons.2 ⟨fun hm => ?_, hnodup⟩, ?_⟩
    · exact absurd (hnew _ hm) (not_le.2 hlt)
    · rintro b hm
      rcases List.mem_cons.1 hm with rfl | hm
      · exact le_rfl
      · exact hlt.le.trans (hnew b hm)

lemma freshBitvec_spec (width : ℕ) :
    Spec False (freshBitvec width) s fun r s' => s.nodes.length ≤ r ∧
      ∃ bits, s'.bits? r = some bits ∧ bits.length = width ∧ bits.Nodup ∧
        ∀ b ∈ bits, s.nodes.length ≤ b := by
  refine .bind (Spec.of_keeps h) ?_
  rintro _ s₀ he₀ h₀ -
  refine .bind (collect_freshBoolAtom (List.range width) s₀ h₀) ?_
  rintro bits s₁ he₁ h₁ ⟨hlen, hnodup, hnew⟩
  refine (makeBitvec_spec h₁ False.elim).weaken ?_
  rintro r s₂ - h₂ ⟨hb, -⟩
  have hnew' : ∀ b ∈ bits, s.nodes.length ≤ b := fun b hm =>
    he₀.nodes.length_le.trans (hnew b hm)
  refine ⟨?_, bits, hb, by simpa using hlen, hnodup, hnew'⟩
  -- a word is newer than its bits
  obtain ⟨node, hn, hk⟩ := bits?_eq_some_iff.1 hb
  obtain ⟨b, hm⟩ := List.exists_mem_of_ne_nil bits (sort_of_bits h₂ hb).2.1
  have hlt := ((h₂.nodes r node hn).members b (by rw [hk]; exact hm)).1
  exact (hnew' b hm).trans hlt.le

/-- A change of the counters. -/
lemma withCounters (sort value : ℕ) :
    s.Extends { s with nextUninterpretedSort := sort, nextUninterpretedValue := value } ∧
      TermStore.Ok { s with nextUninterpretedSort := sort, nextUninterpretedValue := value } := by
  have he : s.Extends { s with
      nextUninterpretedSort := sort, nextUninterpretedValue := value } := by
    constructor <;> simp
  exact ⟨he, h.withTerms he h.sortIds⟩

end

instance : Keeps freshBoolAtom := .of_spec fun _ h => freshBoolAtom_spec h

instance (width : ℕ) : Keeps (freshBitvec width) := .of_spec fun _ h => freshBitvec_spec h width

instance : Keeps freshUninterpretedSort := by
  unfold freshUninterpretedSort
  refine ⟨fun s h => .get (.bind (checkIndex_spec h False.elim) ?_)⟩
  rintro _ _ - - ⟨rfl, -⟩
  obtain ⟨he, hok⟩ := withCounters h (s.nextUninterpretedSort + 1) s.nextUninterpretedValue
  exact .modify he hok (.of_keeps hok)

lemma keeps_freshUfConstant {sort : SmtSort} (hs : ∀ w, sort ≠ .bitVec w) (message : String) :
    Keeps (freshUfConstant sort message) := by
  unfold freshUfConstant
  refine .bind_spec (fun s h => sortIdFor_spec h False.elim) ?_
  rintro s sortId s₁ - h₁ ⟨hsort, -⟩
  refine .get (.bind (checkIndex_spec h₁ False.elim) ?_)
  rintro _ _ - - ⟨rfl, -⟩
  obtain ⟨he, hok⟩ := withCounters h₁ s₁.nextUninterpretedSort (s₁.nextUninterpretedValue + 1)
  refine .modify he hok ((intern_spec hok (nodeOk_leaf hok ?_ ?_ rfl (by simp) (by simp)
    (by simp)) (by simp)).weaken fun _ _ _ _ _ => trivial)
  · exact (List.getElem?_eq_some_iff.1 hsort).1
  · intro w hw
    have hw' : s₁.sorts[sortId]? = some (.bitVec w) := hw
    rw [hsort, Option.some.injEq] at hw'
    exact hs w hw'

instance (sort : SmtSort) : Keeps (freshTerm sort) := by
  cases sort with
  | bool | bitVec | int | real =>
    unfold freshTerm
    infer_instance
  | uninterpreted | array => exact keeps_freshUfConstant (by simp) _

/-! ### Functions and array sorts -/

lemma extends_functions (h : s.Ok) (functions : List FunctionSignature)
    (hp : s.functions <+: functions) :
    s.Extends { s with functions := functions } ∧ TermStore.Ok { s with functions := functions } := by
  have he : s.Extends { s with functions := functions } := by
    constructor <;> simp [hp]
  exact ⟨he, { h with
    nodes := fun i n hn => he.nodeOk (h.nodes i n hn)
    applications := fun a ha => h.applicationOk_extends he (h.applications a ha) }⟩

instance (domain : List SmtSort) (range : SmtSort) : Keeps (declareFunction domain range) := by
  unfold declareFunction
  refine .of_bind fun _ => .of_bind fun _ => ⟨fun s h => .get ?_⟩
  refine .bind (checkIndex_spec h False.elim) ?_
  rintro _ _ - - ⟨rfl, -⟩
  obtain ⟨he, hok⟩ := extends_functions h _ (List.prefix_append s.functions [⟨domain, range⟩])
  exact .modify he hok (.pure hok trivial)

instance (index element : SmtSort) : Keeps (arraySort index element) := by
  unfold arraySort
  refine .of_bind fun _ => .of_bind fun _ => ⟨fun s h => .get ?_⟩
  split
  · exact .pure h trivial
  next hnone =>
  refine .bind (checkIndex_spec h False.elim) ?_
  rintro _ _ - - ⟨rfl, -⟩
  refine .bind ((Spec.of_keeps h).framed rest) ?_
  rintro _ s₁ - h₁ ⟨-, hrest₁⟩
  refine .bind ((Spec.of_keeps h₁).framed rest) ?_
  rintro selectFunction s₂ - h₂ ⟨-, hrest₂⟩
  have hids : s₂.arraySortIds = s.arraySortIds :=
    (congrArg TermStore.arraySortIds (hrest₂.trans hrest₁) :)
  have hsorts : s₂.arraySorts = s.arraySorts :=
    (congrArg TermStore.arraySorts (hrest₂.trans hrest₁) :)
  have he : s₂.Extends { s₂ with
      arraySorts := s₂.arraySorts ++ [⟨index, element, selectFunction⟩]
      arraySortIds := Function.update s₂.arraySortIds (index, element)
        (some s.arraySorts.length) } := by
    constructor <;> simp
  have hok : TermStore.Ok { s₂ with
      arraySorts := s₂.arraySorts ++ [⟨index, element, selectFunction⟩]
      arraySortIds := Function.update s₂.arraySortIds (index, element)
        (some s.arraySorts.length) } :=
    { h₂ with
      nodes := fun i n hn => he.nodeOk (h₂.nodes i n hn)
      arraySortIds := by
        have hpush := h₂.arraySortIds.pushPosition (a := (index, element)) (hids ▸ hnone)
        rw [List.length_map, hsorts] at hpush
        rw [List.map_append, hsorts]
        exact hpush
      applications := fun a ha => h₂.applicationOk_extends he (h₂.applications a ha) }
  exact .modify he hok (.pure hok trivial)

instance (sort : ArraySortId) : Keeps (arraySignature sort) := by
  unfold arraySignature
  infer_instance

instance (array : TermId) (message : String) : Keeps (arraySignatureOf array message) := by
  unfold arraySignatureOf
  refine .of_bind fun sort => ?_
  split <;> infer_instance

/-- A node of an array sort. -/
lemma intern_array (h : s.Ok) {sort : ArraySortId} {sortId : SortId} {kind : TermKind}
    (hs : s.sorts[sortId]? = some (.array sort)) (hm : kind.members = [])
    (hw : ∀ bits, kind ≠ .bitVec bits) (ha : ∀ symbol, kind ≠ .atom symbol)
    (he : ∀ e, kind ≠ .arithmetic e)
    (hp : ∀ symbol e strict, kind ≠ .arithmeticPredicate symbol e strict) :
    Spec False (intern sortId kind) s fun _ _ => True := by
  refine (intern_spec h (nodeOk_leaf h (List.getElem?_eq_some_iff.1 hs).1 (fun w hw' => ?_) hm hw
    ha he) hp).weaken fun _ _ _ _ _ => trivial
  rw [hs] at hw'
  cases hw'

instance (sort : ArraySortId) (value : TermId) : Keeps (constArray sort value) := by
  unfold constArray
  refine .of_bind fun signature => .of_bind fun valueSort => @Keeps.ite _ _ _ _ _ inferInstance ?_
  refine .bind_spec (fun s h => sortIdFor_spec h False.elim) ?_
  rintro s sortId s' - h' ⟨hs, -⟩
  exact intern_array h' hs rfl (by simp) (by simp) (by simp) (by simp)

instance (array index value : TermId) : Keeps (store array index value) := by
  unfold store
  refine .of_bind fun signature => .of_bind fun indexSort => @Keeps.ite _ _ _ _ _ inferInstance ?_
  refine .of_bind fun valueSort => @Keeps.ite _ _ _ _ _ inferInstance ?_
  refine .bind_spec (fun s h => sortIdFor_spec h False.elim) ?_
  rintro s sortId s' - h' ⟨hs, -⟩
  exact intern_array h' hs rfl (by simp) (by simp) (by simp) (by simp)

/-! ### Applications -/

/-- What makes a result fit for a new application. -/
structure Applicable (s s' : TermStore) (function : FunctionId) (arguments : List TermId)
    (range : SmtSort) (r : TermId) : Prop where
  sort : s'.sort? r = some range
  new : ∀ a ∈ s.applications, a.result ≠ r
  key : ∀ f args, (s'.node r).kind = .ufApplication f args → f = function ∧ args = arguments
  bits : ∀ w, range = .bitVec w → ∃ bits, s'.bits? r = some bits ∧ bits.Nodup ∧
    ∀ b ∈ bits, s.nodes.length ≤ b

/-- A result that is newer than the store. -/
lemma Applicable.of_new (h : s.Ok) {function : FunctionId} {arguments : List TermId}
    {range : SmtSort} (hsort : s'.sort? r = some range) (hnew : s.nodes.length ≤ r)
    (hkind : ∀ f args, (s'.node r).kind ≠ .ufApplication f args)
    (hbits : ∀ w, range = .bitVec w → ∃ bits, s'.bits? r = some bits ∧ bits.Nodup ∧
      ∀ b ∈ bits, s.nodes.length ≤ b) : Applicable s s' function arguments range r where
  sort := hsort
  new a ha heq := absurd (h.applications a ha).live (not_lt.2 (heq ▸ hnew))
  key f args hk := absurd hk (hkind f args)
  bits := hbits

lemma node_eq_of_getElem? {node : TermNode} (hn : s.nodes[t]? = some node) : s.node t = node := by
  rw [TermStore.node, List.getD_eq_getElem?_getD, hn, Option.getD_some]

lemma applicationTerm_spec (h : s.Ok) {function : FunctionId} {arguments : List TermId}
    (hnone : s.applicationResults (function, arguments) = none) (range : SmtSort) :
    Spec False (applicationTerm function arguments range) s fun r s' =>
      Applicable s s' function arguments range r := by
  have harith : ∀ range : SmtSort, (∀ w, range ≠ .bitVec w) →
      Spec False (freshArithmeticVariable range) s fun r s' =>
        Applicable s s' function arguments range r := by
    intro range hr
    refine (freshArithmeticVariable_spec h range).weaken ?_
    rintro r s' - - ⟨hs, ⟨e, sort, i, range, hn, -⟩, hnew⟩
    refine .of_new h hs hnew (fun f args hf => ?_) fun w hw => absurd hw (hr w)
    rw [node_eq_of_getElem? hn] at hf
    cases hf
  have huf : ∀ range : SmtSort, (∀ w, range ≠ .bitVec w) → Spec False (do
      let sort ← sortIdFor range
      intern sort (.ufApplication function arguments)) s fun r s' =>
        Applicable s s' function arguments range r := by
    intro range hr
    refine .bind ((sortIdFor_spec h False.elim).framed rest) ?_
    rintro sort s₁ he₁ h₁ ⟨⟨hs, hnodes⟩, hrest⟩
    have hnode : s₁.NodeOk s₁.nodes.length ⟨sort, .ufApplication function arguments⟩ := by
      refine nodeOk_leaf h₁ (List.getElem?_eq_some_iff.1 hs).1 (fun w hw => ?_) rfl (by simp)
        (by simp) (by simp)
      rw [hs, Option.some.injEq] at hw
      exact hr w hw
    refine (intern_spec h₁ hnode (by simp)).weaken ?_
    rintro r s₂ he₂ h₂ ⟨hget, -, -⟩
    refine ⟨(sort?_eq_some_iff h₂).2 ⟨_, hget, he₂.sort hs⟩, fun a ha heq => ?_, ?_,
      fun w hw => absurd hw (hr w)⟩
    · -- an application with this term as its result has the same key
      have hlive := (h.applications a ha).live
      have hk : (s.node a.result).kind = .ufApplication function arguments := by
        rw [← (he₁.trans he₂).node_eq hlive, heq, node_eq_of_getElem? hget]
      obtain ⟨rfl, rfl⟩ := (h.applications a ha).key _ _ hk
      exact h.results.eq_none_iff.1 hnone (List.mem_map.2 ⟨_, List.mem_map_of_mem ha, rfl⟩)
    · intro f args hf
      rw [node_eq_of_getElem? hget] at hf
      cases hf
      exact ⟨rfl, rfl⟩
  cases range with
  | bool =>
    refine (freshBoolAtom_spec h).weaken ?_
    rintro r s' - h' ⟨hr, symbol, hn⟩
    refine .of_new h ?_ hr.ge (fun f args hf => ?_) fun w hw => by cases hw
    · exact (isBool_iff_sort? h').1 ⟨_, hn, rfl⟩
    · rw [node_eq_of_getElem? hn] at hf
      cases hf
  | bitVec width =>
    refine (freshBitvec_spec h width).weaken ?_
    rintro r s' - h' ⟨hnew, bits, hb, hlen, hnodup, hbits⟩
    refine .of_new h ?_ hnew (fun f args hf => ?_) fun _ _ => ⟨bits, hb, hnodup, hbits⟩
    · rw [(sort_of_bits h' hb).1, hlen]
    · obtain ⟨node, hn, hk⟩ := bits?_eq_some_iff.1 hb
      rw [node_eq_of_getElem? hn, hk] at hf
      cases hf
  | int | real => exact harith _ (by simp)
  | uninterpreted | array => exact huf _ (by simp)

/-- The store with a new application. -/
def entered (s : TermStore) (function : FunctionId) (arguments : List TermId) (result : TermId)
    (byBit : TermId → Option (TermId × ℕ)) : TermStore :=
  { s with
    applicationResults := Function.update s.applicationResults (function, arguments) (some result)
    applicationByResult := Function.update s.applicationByResult result (some s.applications.length)
    applicationByBit := byBit
    applications := s.applications ++ [⟨function, arguments, result⟩] }

lemma bitvecBits_eq {bits : List TermId} (hb : s.bits? t = some bits) :
    bitvecBits t s = (.ok bits, s) := by
  obtain ⟨node, hn, hk⟩ := bits?_eq_some_iff.1 hb
  obtain ⟨sort, kind⟩ := node
  dsimp only at hk
  subst hk
  dsimp only [bitvecBits, Bind.bind, TermM.get]
  rw [hn]
  rfl

lemma recordApplication_bitVec {function : FunctionId} {arguments : List TermId} {w : ℕ}
    {bits : List TermId} (hb : s.bits? r = some bits) :
    recordApplication function arguments (.bitVec w) r s =
      (.ok (), entered s function arguments r (indexBits r bits s.applicationByBit)) := by
  have hbits : bitvecBits r { s with
      applicationResults := Function.update s.applicationResults (function, arguments) (some r)
      applicationByResult := Function.update s.applicationByResult r (some s.applications.length) } =
      (.ok bits, { s with
        applicationResults := Function.update s.applicationResults (function, arguments) (some r)
        applicationByResult :=
          Function.update s.applicationByResult r (some s.applications.length) }) :=
    bitvecBits_eq hb
  unfold recordApplication
  rw [TermM.modify_bind]
  exact TermM.bind_ok hbits

lemma recordApplication_other {function : FunctionId} {arguments : List TermId} {range : SmtSort}
    (hr : ∀ w, range ≠ .bitVec w) : recordApplication function arguments range r s =
      (.ok (), entered s function arguments r s.applicationByBit) := by
  cases range with
  | bitVec w => exact absurd rfl (hr w)
  | _ => rfl

/-- The keys of the bits are terms of the store. -/
lemma lt_of_mem_bitEntries (h : s.Ok) {a : Application} {b : TermId}
    (hm : b ∈ (s.bitEntries a).map Prod.fst) : b < s.nodes.length := by
  rw [bitEntries] at hm
  split at hm
  · next width hs =>
    obtain ⟨bits, hb, -, -, hbool⟩ := bits_of_sort h hs
    rw [hb, Option.getD_some, List.map_map] at hm
    have hfst : (bits.zipIdx.map (Prod.fst ∘ fun e : TermId × ℕ => (e.1, a.result, e.2))) = bits :=
      List.zipIdx_map_fst 0 bits
    rw [hfst] at hm
    exact (hbool b hm).lt
  · cases hm

lemma recordApplication_spec {s s₀ : TermStore} (h : s.Ok) (h₀ : s₀.Ok) (he₀ : s₀.Extends s)
    (hrest : s.rest = s₀.rest) {function : FunctionId} {arguments : List TermId} {range : SmtSort}
    (hnone : s₀.applicationResults (function, arguments) = none)
    (ha : Applicable s₀ s function arguments range r) :
    Spec False (recordApplication function arguments range r) s fun _ _ => True := by
  have hresults : s.applicationResults = s₀.applicationResults :=
    (congrArg TermStore.applicationResults hrest :)
  have happ : s.applications = s₀.applications := (congrArg TermStore.applications hrest :)
  obtain ⟨node, hn, -⟩ := (sort?_eq_some_iff h).1 ha.sort
  have hlive : r < s.nodes.length := (List.getElem?_eq_some_iff.1 hn).1
  have hmain : ∀ byBit, Indexes byBit (s.applications.flatMap s.bitEntries ++
      s.bitEntries ⟨function, arguments, r⟩) →
      s.Extends (entered s function arguments r byBit) ∧
        (entered s function arguments r byBit).Ok := by
    intro byBit hbyBit
    have he : s.Extends (entered s function arguments r byBit) := by
      constructor <;> simp [entered]
    refine ⟨he, { h with
      nodes := fun i n hn => he.nodeOk (h.nodes i n hn)
      results := ?_
      byResult := ?_
      byBit := ?_
      applications := ?_ }⟩
    · have hpush := h.results.push (hresults ▸ hnone) r
      rw [entered, List.map_append]
      exact hpush
    · have hfree : s.applicationByResult r = none := by
        rw [h.byResult.notMem_iff, List.mem_map]
        rintro ⟨a, hm, heq⟩
        exact ha.new a (happ ▸ hm) heq
      have hpush := h.byResult.pushPosition hfree
      rw [List.length_map] at hpush
      rw [entered, List.map_append]
      exact hpush
    · rw [entered, List.flatMap_append, List.flatMap_singleton]
      exact hbyBit
    · intro a hm
      rcases List.mem_append.1 hm with hm | hm
      · exact h.applicationOk_extends he (h.applications a hm)
      · rw [List.mem_singleton.1 hm]
        exact ⟨hlive, ha.key⟩
  have hdone : ∀ byBit, Indexes byBit (s.applications.flatMap s.bitEntries ++
      s.bitEntries ⟨function, arguments, r⟩) →
      recordApplication function arguments range r s =
        (.ok (), entered s function arguments r byBit) →
      Spec False (recordApplication function arguments range r) s fun _ _ => True := by
    intro byBit hbyBit heq
    rw [Spec, heq]
    exact ⟨(hmain byBit hbyBit).1, (hmain byBit hbyBit).2, trivial⟩
  by_cases hw : ∃ w, range = .bitVec w
  · obtain ⟨w, rfl⟩ := hw
    obtain ⟨bits, hb, hnodup, hnew⟩ := ha.bits w rfl
    have hentries : s.bitEntries ⟨function, arguments, r⟩ =
        bits.zipIdx.map fun e => (e.1, r, e.2) := by
      rw [bitEntries, ha.sort, hb]
      rfl
    have hkeys : (s.bitEntries ⟨function, arguments, r⟩).map Prod.fst = bits := by
      rw [hentries, List.map_map]
      exact List.zipIdx_map_fst 0 bits
    have hpush := h.byBit.pushAll (s.bitEntries ⟨function, arguments, r⟩) (hkeys ▸ hnodup) ?_
    · refine hdone _ hpush ((recordApplication_bitVec hb).trans ?_)
      rw [hentries, indexBits, List.foldl_map]
    · -- the bits of earlier applications are older
      intro entry hm
      have hmem : entry.1 ∈ bits := hkeys ▸ List.mem_map_of_mem hm
      rw [h.byBit.eq_none_iff, List.mem_map]
      rintro ⟨old, hold, heq⟩
      obtain ⟨a, hma, hentry⟩ := List.mem_flatMap.1 hold
      rw [happ] at hma
      rw [h₀.bitEntries_extends he₀ (h₀.applications a hma).live] at hentry
      have hlt := lt_of_mem_bitEntries h₀ (List.mem_map_of_mem hentry)
      exact absurd (hnew _ hmem) (not_le.2 (heq ▸ hlt))
  · have hr : ∀ w, range ≠ .bitVec w := fun w heq => hw ⟨w, heq⟩
    have hentries : s.bitEntries ⟨function, arguments, r⟩ = [] := by
      rw [bitEntries]
      split
      · next w hs => exact absurd (Option.some.inj (ha.sort.symm.trans hs)) (hr w)
      · rfl
    refine hdone s.applicationByBit ?_ (recordApplication_other hr)
    rw [hentries, List.append_nil]
    exact h.byBit

instance : ∀ (arguments : List TermId) (domain : List SmtSort),
    Keeps (checkArguments arguments domain)
  | [], _ => .pure ()
  | _ :: _, [] => .pure ()
  | argument :: arguments, expected :: domain => by
    have := instKeepsUnitCheckArguments arguments domain
    unfold checkArguments
    infer_instance

instance (function : FunctionId) (arguments : List TermId) : Keeps (apply function arguments) := by
  unfold apply
  refine .of_bind fun s => .of_bind fun signature => @Keeps.ite _ _ _ _ _ inferInstance ?_
  refine .of_bind fun _ => ⟨fun s h => .get ?_⟩
  split
  · exact .pure h trivial
  next hnone =>
  refine .bind ((applicationTerm_spec h hnone signature.range).framed rest) ?_
  rintro r s₁ he₁ h₁ ⟨ha, hrest⟩
  refine .bind (recordApplication_spec h₁ h he₁ hrest hnone ha) ?_
  exact fun _ s₂ _ h₂ _ => .pure h₂ trivial

end Satrap.Smt
