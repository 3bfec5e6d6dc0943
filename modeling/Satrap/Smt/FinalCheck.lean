/-
# The check of an assignment

The check of `UfTheory` decides the assignment.  A conflict is a clause over the required terms that
is false under the assignment and holds in every model of the store.  Otherwise the numbers of the
model respect every relevant equality and conditional, and functions map equal arguments to equal
results.  The check ends: a pass that goes on has merged two classes.
-/
import Satrap.Smt.Congruence

namespace Satrap.Smt

open Logic TermStore TermM

variable {s : TermStore} {th : UfTheory}

/-! ### Passes over the applications -/

namespace Prepared

variable {applications : List (Application × FunctionSignature)}
  {entry : Application × FunctionSignature} (h : Prepared s th applications)
include h

/-- A shared pair has its equality. -/
lemma equality_of_shared (hs : s.Ok) {q : TheoryEquality}
    (hq : q ∈ th.sharedArithmeticEqualities) : Equality s th q := by
  have hok := h.shared q hq
  refine ⟨mem_closureTerms.2 (.inr hok.left), mem_closureTerms.2 (.inr hok.right), hok.required,
    fun V I hI => ?_⟩
  obtain ⟨b, hb, hmeans⟩ := (hok.decided I.atom).equates
  rw [hmeans.2]
  exact (hb.same hs hI.agrees).trans
    (same_iff_reading (.inr ⟨h.sharedSorts _ hok.left, h.sharedSorts _ hok.right⟩) I)

lemma usable (ht : s.Typed) (he : entry ∈ applications) : Usable s th entry := by
  obtain ⟨i, -, hi, hf⟩ := exists_related h.resolves.flip he
  have hmem := List.mem_of_getElem? hi
  obtain ⟨signature, hsignature, harguments, hresult⟩ := ht.applications _ hmem
  obtain rfl := Option.some.inj (hf.symm.trans hsignature)
  refine ⟨hmem, hf, harguments.length_eq, fun e hm => ⟨?_, h.arithmetic entry he e hm⟩⟩
  rcases List.mem_append.1 hm with hm | hm
  · exact List.forall₂_zip harguments hm
  · rw [List.mem_singleton.1 hm]
    exact hresult

/-- Values of applications that may be congruent are required. -/
lemma bits_required {before after : List (Application × FunctionSignature)}
    {left right : Application × FunctionSignature}
    (hsplit : applications = before ++ right :: after) (hl : left ∈ before)
    (hfunction : left.1.function = right.1.function) :
    ∀ e ∈ sortedTerms left ++ sortedTerms right, ∀ bits, loweredBits s e.1 e.2 = some bits →
      bits ⊆ th.required := by
  have hcount : ∀ entry : Application × FunctionSignature,
      entry.1.function = right.1.function → 2 ≤ applications.countP fun other =>
        decide (other.1.function = entry.1.function) := by
    intro entry hentry
    have hbefore : 0 < before.countP fun other => decide (other.1.function = entry.1.function) :=
      List.countP_pos_iff.2 ⟨left, hl, by simp [hfunction, hentry]⟩
    rw [hsplit, List.countP_append, List.countP_cons_of_pos (by simp [hentry])]
    omega
  intro e he
  rcases List.mem_append.1 he with he | he
  · exact h.lowered left (by simp [hsplit, hl]) (hcount left hfunction) e he
  · exact h.lowered right (by simp [hsplit]) (hcount right rfl) e he

/-- Different results of arithmetic applications have their equality. -/
lemma result_shared (hs : s.Ok) {before after : List (Application × FunctionSignature)}
    {left right : Application × FunctionSignature}
    (hsplit : applications = before ++ right :: after) (hl : left ∈ before)
    (hfunction : left.1.function = right.1.function) (harith : left.2.range.isArithmetic = true)
    (hne : left.1.result ≠ right.1.result) : ∃ q ∈ th.sharedArithmeticEqualities,
      orderedPair left.1.result right.1.result = (q.left, q.right) ∧
        th.sharedArithmeticEqualityTerms (q.left, q.right) = some q.term ∧ Equality s th q := by
  have hpaired := h.paired
  rw [hsplit, List.pairwise_append] at hpaired
  obtain ⟨q, hq, hpair, hterm⟩ := hpaired.2.2 left hl right List.mem_cons_self hfunction
    ((left.1.result, right.1.result), left.2.range)
    (List.mem_append_right _ (List.mem_singleton_self _)) harith hne
  exact ⟨q, hq, hpair, hterm, h.equality_of_shared hs hq⟩

end Prepared

open UfTheory

/-- The first applications with the keys are among those that have been looked at. -/
structure Represented (s : TermStore) (th : UfTheory)
    (done : List (Application × FunctionSignature)) (p : Pass) : Prop where
  backed : Backed s th p.closure
  representatives : ∀ key i, p.representatives key = some i →
    ∃ entry ∈ done, Resolves s i entry ∧ KeyOf s th p.closure entry key

/-- The application has the result of the first one with its key. -/
def Settled (s : TermStore) (th : UfTheory) (c : Closure)
    (representatives : CongruenceKey → Option ℕ) (entry : Application × FunctionSignature) : Prop :=
  ∃ key i first, th.congruenceKey s c entry.1 entry.2.domain = some key ∧
    representatives key = some i ∧ Resolves s i first ∧
      Agreed s th c entry.2.range first.1.result entry.1.result

/-- What turns of a pass do. -/
structure Advanced (p p' : Pass) : Prop where
  coarser : Coarser p.closure p'.closure
  changed : p.changed = true → p'.changed = true
  kept : p'.changed = false → p'.closure = p.closure
  le : p'.closure.merging.classes ≤ p.closure.merging.classes
  fewer : p'.changed = true →
    p.changed = true ∨ p'.closure.merging.classes < p.closure.merging.classes
  representatives : ∀ key i, p.representatives key = some i → p'.representatives key = some i

lemma Advanced.refl (p : Pass) : Advanced p p :=
  ⟨.refl _, id, fun _ => rfl, le_rfl, .inl, fun _ _ => id⟩

lemma Advanced.trans {p₁ p₂ p₃ : Pass} (h : Advanced p₁ p₂) (h' : Advanced p₂ p₃) :
    Advanced p₁ p₃ where
  coarser := h.coarser.trans h'.coarser
  changed hc := h'.changed (h.changed hc)
  kept hc := by
    have hmiddle : p₂.changed = false := by
      by_contra hne
      rw [h'.changed (by simpa using hne)] at hc
      cases hc
    rw [h'.kept hc, h.kept hmiddle]
  le := h'.le.trans h.le
  fewer hc := by
    rcases h'.fewer hc with hc | hlt
    · exact (h.fewer hc).imp_right h'.le.trans_lt
    · exact .inr (hlt.trans_le h.le)
  representatives key i hi := h'.representatives key i (h.representatives key i hi)

lemma agreed_refl (hs : s.Ok) {c : Closure} (h : Backed s th c) {t : TermId} {sort : SmtSort}
    (ht : s.sort? t = some sort) : Agreed s th c sort t t := by
  cases sort with
  | bool => exact ⟨_, _, rfl, rfl, rfl⟩
  | bitVec w =>
    obtain ⟨bits, hbits, -⟩ := bits_of_sort hs ht
    exact ⟨bits, bits, hbits, hbits, rfl⟩
  | int | real => exact .inl rfl
  | uninterpreted | array =>
    exact Closure.joined_refl (h.mem_terms.2 (mem_closureTerms.2 (.inl ⟨_, ht, rfl⟩)))

/-- Results in one class agree. -/
lemma agreed_of_joined {c : Closure} {t u : TermId} {sort : SmtSort}
    (hsort : sort.isAbstract = true)
    (h : c.Joined t u) : Agreed s th c sort t u := by
  cases sort with
  | uninterpreted | array => exact h
  | _ => cases hsort

lemma Usable.sort_result {entry : Application × FunctionSignature} (h : Usable s th entry) :
    s.sort? entry.1.result = some entry.2.range :=
  (h.fits (entry.1.result, entry.2.range)
    (List.mem_append_right _ (List.mem_singleton_self _))).sort

lemma Closure.Joins.le {c c' : Closure} {t u : TermId} {reason : List SignedTerm} {changed : Bool}
    (h : Closure.Joins c t u reason changed c') :
    c'.merging.classes ≤ c.merging.classes := by
  cases hc : changed with
  | false => rw [h.kept hc]
  | true => exact (h.fewer hc).le

/-- Two classes are merged, or are one already. -/
lemma Advanced.of_joins {p : Pass} {c' : Closure} {t u : TermId} {reason : List SignedTerm}
    {changed : Bool} (h : Closure.Joins p.closure t u reason changed c') :
    Advanced p { p with changed := p.changed || changed, closure := c' } where
  coarser := h.coarser
  changed hc := by simp [hc]
  kept hc := h.kept (Bool.or_eq_false_iff.1 hc).2
  le := h.le
  fewer hc := (Bool.or_eq_true_iff.1 hc).imp_right h.fewer
  representatives _ _ := id

/-- A coarser partition keeps the keys of the first applications. -/
lemma Represented.later {done : List (Application × FunctionSignature)}
    {entry : Application × FunctionSignature} {p : Pass} (hp : Represented s th done p)
    {changed : Bool} {c' : Closure} (hbacked : Backed s th c') (hc : Coarser p.closure c') :
    Represented s th (done ++ [entry]) { p with changed, closure := c' } := by
  refine ⟨hbacked, fun key k hk => ?_⟩
  obtain ⟨first, hf, hr, hkeyOf⟩ := hp.representatives key k hk
  exact ⟨first, List.mem_append_left _ hf, hr, hkeyOf.coarser hc⟩

/-- The first application with a key represents it. -/
lemma Represented.first {done : List (Application × FunctionSignature)}
    {entry : Application × FunctionSignature} {p : Pass} (hp : Represented s th done p) {i : ℕ}
    {key : CongruenceKey} (hi : Resolves s i entry) (hkeyOf : KeyOf s th p.closure entry key)
    (hfirst : p.representatives key = none) :
    Represented s th (done ++ [entry])
        { p with representatives := Function.update p.representatives key (some i) } ∧
      Advanced p { p with representatives := Function.update p.representatives key (some i) } := by
  refine ⟨⟨hp.backed, fun key' k hk => ?_⟩,
    ⟨.refl _, id, fun _ => rfl, le_rfl, .inl, fun key' k hk => ?_⟩⟩
  · dsimp only at hk
    rw [Function.update_apply] at hk
    split_ifs at hk with hsame
    · obtain rfl := Option.some.inj hk
      subst hsame
      exact ⟨entry, List.mem_append_right _ (List.mem_singleton_self _), hi, hkeyOf⟩
    · obtain ⟨first, hf, hrest⟩ := hp.representatives key' k hk
      exact ⟨first, List.mem_append_left _ hf, hrest⟩
  · have hne : key' ≠ key := by
      rintro rfl
      rw [hfirst] at hk
      cases hk
    exact (Function.update_of_ne hne _ _).trans hk

/-- A turn of a pass. -/
lemma congruenceStep_spec (hs : s.Ok) (ht : s.Typed)
    {applications done rest : List (Application × FunctionSignature)}
    {entry : Application × FunctionSignature} (h : Prepared s th applications)
    (hsplit : applications = done ++ entry :: rest) {i : ℕ} (hi : Resolves s i entry) {p : Pass}
    (hp : Represented s th done p) :
    ∃ outcome, th.congruenceStep s p i = some outcome ∧
      (∀ clause, outcome = .error clause → Blocks s th clause) ∧
      ∀ p', outcome = .ok p' → Represented s th (done ++ [entry]) p' ∧ Advanced p p' ∧
        (p'.changed = false → Settled s th p'.closure p'.representatives entry) := by
  have hmem : entry ∈ applications := by simp [hsplit]
  have husable := h.usable ht hmem
  obtain ⟨key, hkey, hkeyOf⟩ := congruenceKey_spec hs hp.backed husable
  have hresult := husable.sort_result
  unfold UfTheory.congruenceStep
  rw [hi.1]
  dsimp only [Option.bind_eq_bind, Option.bind_some]
  rw [hi.2]
  dsimp only [Option.bind_some]
  rw [hkey]
  dsimp only [Option.bind_some]
  cases hfirst : p.representatives key with
  | none =>
    refine ⟨_, rfl, nofun, ?_⟩
    rintro _ ⟨⟩
    obtain ⟨hrepresented, hadvanced⟩ := hp.first hi hkeyOf hfirst
    exact ⟨hrepresented, hadvanced, fun _ => ⟨key, i, entry, hkey, Function.update_self _ _ _, hi,
      agreed_refl hs hp.backed hresult⟩⟩
  | some k =>
    obtain ⟨left, hleft, hk, hkeyLeft⟩ := hp.representatives key k hfirst
    have hfunction : left.1.function = entry.1.function :=
      hkeyLeft.function.symm.trans hkeyOf.function
    have hleftUsable : Usable s th left := h.usable ht (by simp [hsplit, hleft])
    have hsignature : left.2 = entry.2 := signature_eq hleftUsable.signature hi.2 hfunction
    have hleftResult : s.sort? left.1.result = some entry.2.range :=
      hsignature ▸ hleftUsable.sort_result
    have hbits := h.bits_required hsplit hleft hfunction
    obtain ⟨reason, hreason, hequates⟩ := congruenceReason_spec hs hp.backed hleftUsable husable
      hkeyLeft hkeyOf hbits
    dsimp only
    rw [hk.1]
    dsimp only [Option.bind_some]
    rw [hreason]
    dsimp only [Option.bind_some]
    cases habstract : entry.2.range.isAbstract with
    | true =>
      -- the results are merged for the reason
      have hcomparable : s.Comparable left.1.result entry.1.result :=
        .inl ⟨_, habstract, hleftResult, hresult⟩
      obtain ⟨changed, c', hunion, hbacked, hjoins⟩ := hp.backed.union
        (mem_closureTerms.2 (.inl ⟨_, hleftResult, habstract⟩))
        (mem_closureTerms.2 (.inl ⟨_, hresult, habstract⟩)) hequates.assigned fun V I hI hall =>
          (same_iff_reading hcomparable I).1 (hequates.same V I hI hall)
      rw [if_pos rfl, hunion]
      refine ⟨_, rfl, nofun, ?_⟩
      rintro _ ⟨⟩
      refine ⟨hp.later hbacked hjoins.coarser, .of_joins hjoins, fun hc =>
        ⟨key, k, left, ?_, hfirst, hk, ?_⟩⟩
      · dsimp only at hc ⊢
        rw [hjoins.kept (Bool.or_eq_false_iff.1 hc).2]
        exact hkey
      · exact agreed_of_joined habstract (hjoins.merged
          (hp.backed.mem_terms.2 (mem_closureTerms.2 (.inl ⟨_, hleftResult, habstract⟩)))
          (hp.backed.mem_terms.2 (mem_closureTerms.2 (.inl ⟨_, hresult, habstract⟩))))
    | false =>
      rw [if_neg Bool.false_ne_true]
      obtain ⟨outcome, houtcome, hblocks, hnone⟩ := loweredResultConflict_spec (c := p.closure) hs
        hleftResult hresult habstract hequates
        (hbits (left.1.result, entry.2.range) (List.mem_append_left _ (hsignature ▸
          List.mem_append_right _ (List.mem_singleton_self _))))
        (hbits (entry.1.result, entry.2.range) (List.mem_append_right _
          (List.mem_append_right _ (List.mem_singleton_self _))))
        fun harith hne => h.result_shared hs hsplit hleft hfunction (by rwa [hsignature]) hne
      rw [houtcome]
      cases outcome with
      | some clause =>
        refine ⟨_, rfl, ?_, nofun⟩
        rintro _ ⟨⟩
        exact hblocks _ rfl
      | none =>
        refine ⟨_, rfl, nofun, ?_⟩
        rintro _ ⟨⟩
        exact ⟨hp.later hp.backed (.refl _), .refl _,
          fun _ => ⟨key, k, left, hkey, hfirst, hk, hnone rfl⟩⟩

/-- A pass looks at every application, up to a conflict. -/
lemma congruencePass_spec (hs : s.Ok) (ht : s.Typed)
    {applications done rest : List (Application × FunctionSignature)}
    (h : Prepared s th applications) (hsplit : applications = done ++ rest) {places : List ℕ}
    (hplaces : List.Forall₂ (Resolves s) places rest) {p : Pass} (hp : Represented s th done p) :
    ∃ outcome, th.congruencePass s places p = some outcome ∧
      (∀ clause, outcome = .error clause → Blocks s th clause) ∧
      ∀ p', outcome = .ok p' → Represented s th applications p' ∧ Advanced p p' ∧
        (p'.changed = false →
          ∀ entry ∈ rest, Settled s th p'.closure p'.representatives entry) := by
  induction hplaces generalizing done p with
  | nil =>
    refine ⟨.ok p, rfl, nofun, ?_⟩
    rintro _ ⟨⟩
    rw [List.append_nil] at hsplit
    exact ⟨hsplit ▸ hp, .refl p, fun _ => nofun⟩
  | @cons place entry places rest hplace _ ih =>
    obtain ⟨outcome, hstep, hblocks, hok⟩ := congruenceStep_spec hs ht h hsplit hplace hp
    unfold UfTheory.congruencePass
    rw [hstep]
    cases outcome with
    | error clause =>
      refine ⟨_, rfl, ?_, nofun⟩
      rintro _ ⟨⟩
      exact hblocks _ rfl
    | ok p₁ =>
      obtain ⟨hp₁, hadvanced, hsettled⟩ := hok p₁ rfl
      obtain ⟨outcome, hpass, hblocks', hok'⟩ := ih (by simp [hsplit]) hp₁
      refine ⟨outcome, hpass, hblocks', fun p' hp' => ?_⟩
      obtain ⟨hp', hadvanced', hsettled'⟩ := hok' p' hp'
      refine ⟨hp', hadvanced.trans hadvanced', fun hc => List.forall_mem_cons.2 ⟨?_, hsettled' hc⟩⟩
      -- nothing was merged since
      have hunchanged : p₁.changed = false := by
        by_contra hne
        rw [hadvanced'.changed (by simpa using hne)] at hc
        cases hc
      obtain ⟨key, i, first, hkey, hi, hr, hagreed⟩ := hsettled hunchanged
      rw [hadvanced'.kept hc]
      exact ⟨key, i, first, hkey, hadvanced'.representatives key i hi, hr, hagreed⟩

/-- Passes end, as each but the last has merged two classes. -/
lemma congruenceLoop_spec (hs : s.Ok) (ht : s.Typed)
    {applications : List (Application × FunctionSignature)} (h : Prepared s th applications)
    {passes : ℕ} {c : Closure} (hc : Backed s th c) (hpasses : c.merging.classes < passes) :
    ∃ outcome, th.congruenceLoop s passes c = some outcome ∧
      (∀ clause, outcome = .error clause → Blocks s th clause) ∧
      ∀ c', outcome = .ok c' → Backed s th c' ∧ Coarser c c' ∧
        ∃ representatives, ∀ entry ∈ applications, Settled s th c' representatives entry := by
  induction passes generalizing c with
  | zero => exact absurd hpasses (Nat.not_lt_zero _)
  | succ passes ih =>
    obtain ⟨outcome, hpass, hblocks, hok⟩ := congruencePass_spec hs ht h
      (List.nil_append _).symm h.resolves (p := ⟨false, fun _ => none, c⟩) ⟨hc, nofun⟩
    unfold UfTheory.congruenceLoop
    rw [hpass]
    cases outcome with
    | error clause =>
      refine ⟨_, rfl, ?_, nofun⟩
      rintro _ ⟨⟩
      exact hblocks _ rfl
    | ok p =>
      obtain ⟨hp, hadvanced, hsettled⟩ := hok p rfl
      dsimp only [Option.bind_eq_bind, Option.bind_some]
      cases hchanged : p.changed with
      | false =>
        refine ⟨_, rfl, nofun, ?_⟩
        rintro _ ⟨⟩
        exact ⟨hp.backed, hadvanced.coarser, p.representatives, hsettled hchanged⟩
      | true =>
        have hfewer : p.closure.merging.classes < c.merging.classes :=
          (hadvanced.fewer hchanged).resolve_left Bool.false_ne_true
        obtain ⟨outcome, hloop, hblocks', hok'⟩ :=
          ih hp.backed (hfewer.trans_le (Nat.lt_succ_iff.1 hpasses))
        refine ⟨outcome, hloop, hblocks', fun c' hc' => ?_⟩
        obtain ⟨hbacked, hcoarser, hsettled⟩ := hok' c' hc'
        exact ⟨hbacked, hadvanced.coarser.trans hcoarser, hsettled⟩

/-! ### The model -/

/-- The model and the assignment give the terms one value. -/
def Alike (s : TermStore) (th : UfTheory) (model : UfModel) (sort : SmtSort) (t u : TermId) :
    Prop :=
  match sort with
  | .bool | .bitVec _ =>
    (loweredBits s t sort).map (List.map th.value) = (loweredBits s u sort).map (List.map th.value)
  | .int | .real => t = u ∨ ∃ q ∈ th.sharedArithmeticEqualities,
      orderedPair t u = (q.left, q.right) ∧ th.value q.term = true
  | .uninterpreted _ | .array _ => model.values t = model.values u

/-- The model and the assignment fit together. -/
structure UfModel.Satisfies (s : TermStore) (th : UfTheory)
    (applications : List (Application × FunctionSignature)) (model : UfModel) : Prop where
  axioms : ∀ t ∈ s.arrayAxioms, th.value t = true
  valued : ∀ t sort, s.sort? t = some sort → sort.isAbstract = true → (model.values t).isSome
  equalities : ∀ i ∈ th.relevantTheoryEqualities, ∀ q, s.theoryEqualities[i]? = some q →
    (th.value q.term = true ↔ model.values q.left = model.values q.right)
  ufItes : ∀ i ∈ th.relevantUfItes, ∀ item, s.ufItes[i]? = some item →
    model.values item.result = model.values (th.branch item)
  functions : ∀ a ∈ applications, ∀ b ∈ applications, a.1.function = b.1.function →
    (∀ e ∈ (a.1.arguments.zip b.1.arguments).zip a.2.domain, Alike s th model e.2 e.1.1 e.1.2) →
      Alike s th model a.2.range a.1.result b.1.result
  relevant : model.relevantApplications = applications.map fun entry => entry.1.result

lemma reading_of_kindred {t u : TermId} (h : s.Kindred t u) {V : Type} (I : Interpretation V) :
    s.reading I t = .inl (I.element t) ∧ s.reading I u = .inl (I.element u) := by
  obtain ⟨sort, habstract, ht, hu⟩ := h
  unfold TermStore.reading
  rw [ht, hu]
  cases sort with
  | uninterpreted | array => exact ⟨rfl, rfl⟩
  | _ => cases habstract

lemma Kindred.mem_closureTerms {t u : TermId} (h : s.Kindred t u) :
    t ∈ th.closureTerms s ∧ u ∈ th.closureTerms s := by
  obtain ⟨sort, habstract, ht, hu⟩ := h
  exact ⟨Smt.mem_closureTerms.2 (.inl ⟨sort, ht, habstract⟩),
    Smt.mem_closureTerms.2 (.inl ⟨sort, hu, habstract⟩)⟩

lemma orderedPair_comm (t u : TermId) : orderedPair t u = orderedPair u t := by
  unfold orderedPair
  split_ifs <;> grind

lemma entriesAt_eq_some_iff {α : Type} {table : List α} {places : List ℕ} {entries : List α} :
    entriesAt table places = some entries ↔
      List.Forall₂ (fun place entry => table[place]? = some entry) places entries :=
  mapM_eq_some_iff

namespace Prepared

variable {applications : List (Application × FunctionSignature)}
  (h : Prepared s th applications) (ht : s.Typed)
include h ht

/-- The relevant equalities. -/
lemma exists_equalities : ∃ equalities,
    entriesAt s.theoryEqualities th.relevantTheoryEqualities = some equalities ∧
      ∀ q ∈ equalities, Equality s th q := by
  obtain ⟨equalities, heq⟩ := exists_mapM fun i hi => (h.equalities i hi).imp fun _ hq => hq.1
  refine ⟨equalities, heq, fun q hq => ?_⟩
  obtain ⟨i, hi, hqi⟩ := exists_related (entriesAt_eq_some_iff.1 heq).flip hq
  obtain ⟨q', hq', hrequired⟩ := h.equalities i hi
  obtain rfl := Option.some.inj (hq'.symm.trans hqi)
  have hmem := List.mem_of_getElem? hq'
  have hkindred := ht.equalities q' hmem
  refine ⟨(Kindred.mem_closureTerms hkindred).1, (Kindred.mem_closureTerms hkindred).2, hrequired,
    fun V I hI => ?_⟩
  rw [(reading_of_kindred hkindred I).1, (reading_of_kindred hkindred I).2, Sum.inl.injEq]
  exact hI.agrees.equalities q' hmem

/-- The relevant conditionals. -/
lemma exists_ufItes : ∃ items, entriesAt s.ufItes th.relevantUfItes = some items ∧
    ∀ item ∈ items, Conditional s th item := by
  obtain ⟨items, heq⟩ := exists_mapM fun i hi => (h.ufItes i hi).imp fun _ hq => hq.1
  refine ⟨items, heq, fun item hitem => ?_⟩
  obtain ⟨i, hi, hitem'⟩ := exists_related (entriesAt_eq_some_iff.1 heq).flip hitem
  obtain ⟨item', hi', hrequired⟩ := h.ufItes i hi
  obtain rfl := Option.some.inj (hi'.symm.trans hitem')
  have hmem := List.mem_of_getElem? hi'
  obtain ⟨-, hthen, helse⟩ := ht.ufItes item' hmem
  refine ⟨(Kindred.mem_closureTerms hthen).1, (Kindred.mem_closureTerms hthen).2,
    (Kindred.mem_closureTerms helse).2, hrequired, fun V I hI => ?_⟩
  rw [(reading_of_kindred hthen I).1, (reading_of_kindred hthen I).2,
    (reading_of_kindred helse I).2, hI.agrees.ufItes item' hmem]
  split <;> rfl

omit ht in
lemma relevant_results : entriesAt s.applications th.relevantApplications =
    some (applications.map Prod.fst) := by
  refine entriesAt_eq_some_iff.2 ?_
  exact List.forall₂_map_right_iff.2 (h.resolves.imp fun _ _ hr => hr.1)

/-- Two applications have an equality for arithmetic terms that they compare. -/
lemma shared_pair {a b : Application × FunctionSignature} (ha : a ∈ applications)
    (hb : b ∈ applications) (hfunction : a.1.function = b.1.function) :
    ∀ e ∈ sortedPairs (a, b), e.2.isArithmetic = true → e.1.1 ≠ e.1.2 →
      ∃ q ∈ th.sharedArithmeticEqualities, orderedPair e.1.1 e.1.2 = (q.left, q.right) := by
  let R (x y : Application × FunctionSignature) : Prop := x.1.function = y.1.function → x.2 = y.2 →
    ∀ e ∈ sortedPairs (x, y), e.2.isArithmetic = true → e.1.1 ≠ e.1.2 →
      ∃ q ∈ th.sharedArithmeticEqualities, orderedPair e.1.1 e.1.2 = (q.left, q.right)
  have hlater : applications.Pairwise R := h.paired.imp fun hxy hf _ e he harith hne => by
    obtain ⟨q, hq, hpair, -⟩ := hxy hf e he harith hne
    exact ⟨q, hq, hpair⟩
  have hsame : ∀ x ∈ applications, R x x := by
    intro x _ _ _ e he _ hne
    refine absurd ?_ hne
    rcases List.mem_append.1 he with he | he
    · obtain ⟨i, hi, rfl⟩ := List.mem_iff_getElem.1 he
      simp
    · rw [List.mem_singleton.1 he]
  have hflip : ∀ {x y}, R x y → flip R x y := by
    intro x y hxy hf hsignature e he harith hne
    have hmem : ((e.1.2, e.1.1), e.2) ∈ sortedPairs (x, y) := by
      rcases List.mem_append.1 he with he | he
      · refine List.mem_append_left _ ?_
        obtain ⟨i, hi, rfl⟩ := List.mem_iff_getElem.1 he
        simp only [List.length_zip, lt_inf_iff] at hi
        have hlt : i < ((x.1.arguments.zip y.1.arguments).zip x.2.domain).length := by
          simp only [List.length_zip, lt_inf_iff]
          exact ⟨⟨hi.1.2, hi.1.1⟩, hsignature ▸ hi.2⟩
        have := List.getElem_mem hlt
        simpa [hsignature] using this
      · refine List.mem_append_right _ ?_
        rw [List.mem_singleton.1 he, hsignature]
        exact List.mem_singleton_self _
    obtain ⟨q, hq, hpair⟩ := hxy hf.symm hsignature.symm _ hmem harith hne.symm
    exact ⟨q, hq, (orderedPair_comm _ _).trans hpair⟩
  have hsignature : a.2 = b.2 :=
    signature_eq (h.usable ht ha).signature (h.usable ht hb).signature hfunction
  exact List.Pairwise.forall_of_forall_of_flip hsame hlater (hlater.imp hflip) ha hb hfunction
    hsignature

end Prepared

section

variable {c : Closure} (hc : Backed s th c)
include hc

lemma root_of_joined {t u : TermId} (h : c.Joined t u) : c.root t = c.root u := by
  obtain ⟨i, j, hi, hj, hsame⟩ := h
  obtain ⟨r, -, hroot, hfind, -⟩ := hc.ok.root_eq hi
  obtain ⟨r', -, hroot', hfind', -⟩ := hc.ok.root_eq hj
  rw [hroot, hroot', ← hfind, ← hfind']
  exact hsame

variable {model : UfModel}
  (hvalues : ∀ t u, s.Kindred t u → (model.values t = model.values u ↔ c.Joined t u))
  (hshared : ∀ q ∈ th.sharedArithmeticEqualities,
    th.value q.term = true ↔ c.Joined q.left q.right)
include hvalues hshared

lemma joined_of_alike {t u : TermId} {sort : SmtSort} (ht : Fits s th (t, sort))
    (hu : Fits s th (u, sort)) (hb : sort ≠ .bool) (hw : ∀ w, sort ≠ .bitVec w)
    (h : Alike s th model sort t u) : c.Joined t u := by
  have harith : (t = u ∨ ∃ q ∈ th.sharedArithmeticEqualities,
      orderedPair t u = (q.left, q.right) ∧ th.value q.term = true) → c.Joined t u := by
    rintro (rfl | ⟨q, hq, hpair, hvalue⟩)
    · exact Closure.joined_refl (hc.mem_terms.2 (ht.mem_closureTerms hb hw))
    · have hjoined := (hshared q hq).1 hvalue
      rcases orderedPair_eq t u with heq | heq <;> rw [heq, Prod.mk.injEq] at hpair
      · rwa [hpair.1, hpair.2]
      · rw [hpair.1, hpair.2]
        exact hjoined.symm
  cases sort with
  | bool => exact absurd rfl hb
  | bitVec w => exact absurd rfl (hw w)
  | int | real => exact harith h
  | uninterpreted | array => exact (hvalues t u ⟨_, rfl, ht.sort, hu.sort⟩).1 h

/-- Arguments with one value have one value in the keys. -/
lemma argumentValue_of_alike {t u : TermId} {sort : SmtSort} (ht : Fits s th (t, sort))
    (hu : Fits s th (u, sort)) (h : Alike s th model sort t u) :
    th.argumentValue s c (t, sort) = th.argumentValue s c (u, sort) := by
  have hroots : sort ≠ .bool → (∀ w, sort ≠ .bitVec w) → c.root t = c.root u := fun hb hw =>
    root_of_joined hc (joined_of_alike hc hvalues hshared ht hu hb hw h)
  cases sort with
  | bool =>
    have hvalue : some [th.value t] = some [th.value u] := h
    rw [UfTheory.argumentValue, UfTheory.argumentValue,
      List.singleton_inj.1 (Option.some.inj hvalue)]
  | bitVec w =>
    have hbits : (s.bits? t).map (List.map th.value) = (s.bits? u).map (List.map th.value) := h
    have := congrArg (Option.map ArgumentValue.bitVec) hbits
    rwa [Option.map_map, Option.map_map] at this
  | int | real | uninterpreted | array =>
    exact congrArg (Option.map ArgumentValue.abstract) (hroots (by simp) (by simp))

/-- Two results that agree with a third one have one value. -/
lemma alike_of_agreed {t u v : TermId} {sort : SmtSort} (ht : Fits s th (t, sort))
    (hu : Fits s th (u, sort))
    (hpair : sort.isArithmetic = true → t ≠ u → ∃ q ∈ th.sharedArithmeticEqualities,
      orderedPair t u = (q.left, q.right))
    (hleft : Agreed s th c sort v t) (hright : Agreed s th c sort v u) :
    Alike s th model sort t u := by
  have hlowered : (∃ bits bits', loweredBits s v sort = some bits ∧
      loweredBits s t sort = some bits' ∧ bits.map th.value = bits'.map th.value) →
      (∃ bits bits', loweredBits s v sort = some bits ∧
      loweredBits s u sort = some bits' ∧ bits.map th.value = bits'.map th.value) →
      (loweredBits s t sort).map (List.map th.value) =
        (loweredBits s u sort).map (List.map th.value) := by
    rintro ⟨bits, bits', hv, ht, heq⟩ ⟨_, bits'', hv', hu, heq'⟩
    obtain rfl := Option.some.inj (hv.symm.trans hv')
    rw [ht, hu, Option.map_some, Option.map_some, ← heq, ← heq']
  have hjoined : ∀ w, v = w ∨ (∃ q ∈ th.sharedArithmeticEqualities,
      orderedPair v w = (q.left, q.right) ∧ th.value q.term = true) → v = w ∨ c.Joined v w := by
    rintro w (rfl | ⟨q, hq, hpair, hvalue⟩)
    · exact .inl rfl
    · have hq' := (hshared q hq).1 hvalue
      rcases orderedPair_eq v w with heq | heq <;> rw [heq, Prod.mk.injEq] at hpair
      · exact .inr (by rwa [hpair.1, hpair.2])
      · exact .inr (by rw [hpair.1, hpair.2]; exact hq'.symm)
  have harith : sort.isArithmetic = true → v = t ∨ c.Joined v t → v = u ∨ c.Joined v u →
      t = u ∨ ∃ q ∈ th.sharedArithmeticEqualities,
        orderedPair t u = (q.left, q.right) ∧ th.value q.term = true := by
    intro hsort hvt hvu
    by_cases hne : t = u
    · exact .inl hne
    obtain ⟨q, hq, hqpair⟩ := hpair hsort hne
    have htogether : c.Joined t u := by
      rcases hvt with rfl | hvt <;> rcases hvu with rfl | hvu
      · exact absurd rfl hne
      · exact hvu
      · exact hvt.symm
      · exact hc.ok.joined_trans hvt.symm hvu
    refine .inr ⟨q, hq, hqpair, (hshared q hq).2 ?_⟩
    rcases orderedPair_eq t u with heq | heq <;> rw [heq, Prod.mk.injEq] at hqpair
    · rwa [← hqpair.1, ← hqpair.2]
    · rw [← hqpair.1, ← hqpair.2]
      exact htogether.symm
  cases sort with
  | bool | bitVec => exact hlowered hleft hright
  | int | real => exact harith rfl (hjoined t hleft) (hjoined u hright)
  | uninterpreted | array =>
    exact (hvalues t u ⟨_, rfl, ht.sort, hu.sort⟩).2
      (hc.ok.joined_trans (Closure.Joined.symm hleft) hright)

end

lemma mapM_zip_congr {α β γ : Type} {f : α × γ → Option β} {xs ys : List α} {zs : List γ}
    (hlen : xs.length = ys.length) (h : ∀ e ∈ (xs.zip ys).zip zs, f (e.1.1, e.2) = f (e.1.2, e.2)) :
    (xs.zip zs).mapM f = (ys.zip zs).mapM f := by
  have hmaps : (xs.zip zs).map f = (ys.zip zs).map f := by
    refine List.ext_getElem (by simp [hlen]) fun i hi hi' => ?_
    simp only [List.length_map, List.length_zip, lt_inf_iff] at hi hi'
    have hlt : i < ((xs.zip ys).zip zs).length := by
      simp only [List.length_zip, lt_inf_iff]
      exact ⟨⟨hi.1, hi'.1⟩, hi.2⟩
    simpa using h _ (List.getElem_mem hlt)
  have hid := congrArg (List.mapM (m := Option) id) hmaps
  rwa [List.mapM_map, List.mapM_map] at hid

/-- Applications with arguments alike have results alike once every application is settled. -/
lemma alike_results (ht : s.Typed) {applications : List (Application × FunctionSignature)}
    (h : Prepared s th applications) {c : Closure} (hc : Backed s th c) {model : UfModel}
    (hvalues : ∀ t u, s.Kindred t u → (model.values t = model.values u ↔ c.Joined t u))
    (hshared : ∀ q ∈ th.sharedArithmeticEqualities,
      th.value q.term = true ↔ c.Joined q.left q.right)
    {representatives : CongruenceKey → Option ℕ}
    (hsettled : ∀ entry ∈ applications, Settled s th c representatives entry)
    {a b : Application × FunctionSignature} (ha : a ∈ applications) (hb : b ∈ applications)
    (hfunction : a.1.function = b.1.function)
    (halike : ∀ e ∈ (a.1.arguments.zip b.1.arguments).zip a.2.domain,
      Alike s th model e.2 e.1.1 e.1.2) :
    Alike s th model a.2.range a.1.result b.1.result := by
  have hua := h.usable ht ha
  have hub := h.usable ht hb
  have hsignature : a.2 = b.2 := signature_eq hua.signature hub.signature hfunction
  have hlengths : a.1.arguments.length = b.1.arguments.length := by
    rw [hua.lengths, hub.lengths, hsignature]
  have hmem : ∀ e ∈ (a.1.arguments.zip b.1.arguments).zip a.2.domain,
      (e.1.1, e.2) ∈ sortedTerms a ∧ (e.1.2, e.2) ∈ sortedTerms b := by
    intro e he
    obtain ⟨i, hi, rfl⟩ := List.mem_iff_getElem.1 he
    simp only [List.length_zip, lt_inf_iff] at hi
    have hlt : i < (a.1.arguments.zip a.2.domain).length := by
      simp only [List.length_zip, lt_inf_iff]
      exact ⟨hi.1.1, hi.2⟩
    have hlt' : i < (b.1.arguments.zip b.2.domain).length := by
      simp only [List.length_zip, lt_inf_iff]
      exact ⟨hi.1.2, hsignature ▸ hi.2⟩
    refine ⟨List.mem_append_left _ ?_, List.mem_append_left _ ?_⟩
    · simpa using List.getElem_mem hlt
    · simpa [hsignature] using List.getElem_mem hlt'
  have hkeys : th.congruenceKey s c a.1 a.2.domain = th.congruenceKey s c b.1 b.2.domain := by
    unfold UfTheory.congruenceKey
    rw [← hsignature, ← hfunction, mapM_zip_congr hlengths fun e he =>
      argumentValue_of_alike hc hvalues hshared (hua.fits _ (hmem e he).1)
        (hub.fits _ (hmem e he).2)
        (halike e he)]
  obtain ⟨key, i, first, hkey, hi, hr, hagreed⟩ := hsettled a ha
  obtain ⟨key', i', first', hkey', hi', hr', hagreed'⟩ := hsettled b hb
  obtain rfl : key = key' := Option.some.inj (hkey.symm.trans (hkeys.trans hkey'))
  obtain rfl := Option.some.inj (hi.symm.trans hi')
  have hfirst : first.1 = first'.1 := Option.some.inj (hr.1.symm.trans hr'.1)
  rw [← hfirst, ← hsignature] at hagreed'
  refine alike_of_agreed hc hvalues hshared ⟨hua.sort_result, fun harith => ?_⟩
    ⟨hsignature ▸ hub.sort_result, fun harith => ?_⟩ (fun harith hne => ?_) hagreed hagreed'
  · exact h.arithmetic a ha _ (List.mem_append_right _ (List.mem_singleton_self _)) harith
  · exact h.arithmetic b hb (b.1.result, b.2.range)
      (List.mem_append_right _ (List.mem_singleton_self _)) (hsignature ▸ harith)
  · exact h.shared_pair ht ha hb hfunction ((a.1.result, b.1.result), a.2.range)
      (List.mem_append_right _ (List.mem_singleton_self _)) harith hne

/-- The terms of the partition have sorts, and are fewer than the terms. -/
lemma closureTerms_sorted {applications : List (Application × FunctionSignature)}
    (h : Prepared s th applications) : ∀ t ∈ th.closureTerms s, ∃ sort, s.sort? t = some sort ∧
      sort ≠ .bool := by
  intro t ht
  rcases mem_closureTerms.1 ht with ⟨sort, hsort, habstract⟩ | hshared
  · refine ⟨sort, hsort, ?_⟩
    rintro rfl
    cases habstract
  · obtain ⟨sort, hsort, harith⟩ := Option.any_eq_true _ _ |>.1 (h.sharedSorts t hshared)
    refine ⟨sort, hsort, ?_⟩
    rintro rfl
    cases harith

lemma closureTerms_length (hs : s.Ok) {applications : List (Application × FunctionSignature)}
    (h : Prepared s th applications) : (th.closureTerms s).length < s.nodes.length := by
  have htrue : s.sort? trueTerm = some .bool := by
    simp [sort?, hs.first, hs.boolean]
  have hnodup : (trueTerm :: th.closureTerms s).Nodup := by
    refine List.nodup_cons.2 ⟨fun hmem => ?_, List.nodup_dedup _⟩
    obtain ⟨sort, hsort, hne⟩ := closureTerms_sorted h _ hmem
    exact hne (Option.some.inj (hsort.symm.trans htrue))
  have hsubset : trueTerm :: th.closureTerms s ⊆ List.range s.nodes.length := by
    refine List.cons_subset.2 ⟨List.mem_range.2 (lt_of_sort? htrue), fun t ht => ?_⟩
    obtain ⟨sort, hsort, -⟩ := closureTerms_sorted h t ht
    exact List.mem_range.2 (lt_of_sort? hsort)
  have hlength := (hnodup.subperm hsubset).length_le
  rwa [List.length_cons, List.length_range] at hlength

/-- The classes of a partition that nothing denies are the values of a model. -/
lemma satisfies_of_classes (hs : s.Ok) (ht : s.Typed) (hroom : s.nodes.length ≤ maxIndex)
    {applications : List (Application × FunctionSignature)} (h : Prepared s th applications)
    {c : Closure} (hc : Backed s th c) (haxioms : ∀ t ∈ s.arrayAxioms, th.value t = true)
    {equalities : List TheoryEquality} {items : List UfIte}
    (hequalities : entriesAt s.theoryEqualities th.relevantTheoryEqualities = some equalities)
    (hdecided : ∀ q ∈ equalities, th.value q.term = true ↔ c.Joined q.left q.right)
    (hshared : ∀ q ∈ th.sharedArithmeticEqualities,
      th.value q.term = true ↔ c.Joined q.left q.right)
    (hitems : entriesAt s.ufItes th.relevantUfItes = some items)
    (hbranch : ∀ item ∈ items, c.Joined item.result (th.branch item))
    {representatives : CongruenceKey → Option ℕ}
    (hsettled : ∀ entry ∈ applications, Settled s th c representatives entry) :
    ∃ model, c.model s = some model ∧ UfModel.Satisfies s th applications
      { model with relevantApplications := applications.map fun entry => entry.1.result } := by
  obtain ⟨model, hmodel, hmodels⟩ := Closure.model_spec hc.ok (s := s) (fun t ht =>
    (closureTerms_sorted h t (hc.mem_terms.1 ht)).imp fun _ hsort => hsort.1)
    (hc.terms ▸ (closureTerms_length hs h).trans_le hroom)
  have hvalues : ∀ t u, s.Kindred t u → (model.values t = model.values u ↔ c.Joined t u) := by
    rintro t u hkindred
    obtain ⟨sort, habstract, hst, hsu⟩ := id hkindred
    obtain ⟨htm, hum⟩ : t ∈ th.closureTerms s ∧ u ∈ th.closureTerms s :=
      Kindred.mem_closureTerms hkindred
    exact (hmodels t (hc.mem_terms.2 htm) u (hc.mem_terms.2 hum) sort hst hsu habstract).2
  refine ⟨model, hmodel, haxioms, fun t sort hst habstract => ?_, fun i hi q hqi => ?_,
    fun i hi item hitem => ?_, fun a ha b hb hfunction halike => ?_, rfl⟩
  · have htm := hc.mem_terms.2 (mem_closureTerms.2 (.inl ⟨sort, hst, habstract⟩))
    exact (hmodels t htm t htm sort hst hst habstract).1
  · obtain ⟨q', hmem, hq'⟩ := exists_related (entriesAt_eq_some_iff.1 hequalities) hi
    obtain rfl := Option.some.inj (hqi.symm.trans hq')
    exact (hdecided q hmem).trans (hvalues _ _ (ht.equalities q (List.mem_of_getElem? hqi))).symm
  · obtain ⟨item', hmem, hitem'⟩ := exists_related (entriesAt_eq_some_iff.1 hitems) hi
    obtain rfl := Option.some.inj (hitem.symm.trans hitem')
    obtain ⟨-, hthen, helse⟩ := ht.ufItes item (List.mem_of_getElem? hitem)
    have hjoined := hbranch item hmem
    unfold UfTheory.branch at hjoined ⊢
    split at hjoined
    · next hcondition =>
      rw [if_pos hcondition]
      exact (hvalues _ _ hthen).2 hjoined
    · next hcondition =>
      rw [if_neg hcondition]
      exact (hvalues _ _ helse).2 hjoined
  · exact alike_results ht h hc hvalues hshared hsettled ha hb hfunction halike

/-- A complete assignment is refuted, or has a model. -/
lemma finalCheck_decides (hs : s.Ok) (ht : s.Typed) (hroom : s.nodes.length ≤ maxIndex)
    {applications : List (Application × FunctionSignature)} (h : Prepared s th applications) :
    (∃ clause, th.finalCheck s = some (.conflict clause) ∧ Blocks s th clause) ∨
      ∃ model, th.finalCheck s = some (.consistent model) ∧ model.Satisfies s th applications := by
  unfold UfTheory.finalCheck
  cases hfind : s.arrayAxioms.find? fun term => !th.value term with
  | some axiomTerm =>
    refine .inl ⟨_, rfl, ?_⟩
    have hmem := List.mem_of_find?_eq_some hfind
    have hfalse := List.find?_some hfind
    refine ⟨fun l hl => ?_, fun l hl => ?_, fun V I hI => ?_⟩
    · rw [List.mem_singleton.1 hl]
      simpa [SignedTerm.asserted] using hfalse
    · rw [List.mem_singleton.1 hl]
      exact h.axioms _ hmem
    · exact ⟨_, List.mem_singleton_self _, hI.axioms _ hmem⟩
  | none =>
    have haxioms : ∀ t ∈ s.arrayAxioms, th.value t = true := fun t ht => by
      simpa using List.find?_eq_none.1 hfind t ht
    obtain ⟨equalities, hequalities, hq⟩ := h.exists_equalities ht
    obtain ⟨items, hitems, hi⟩ := h.exists_ufItes ht
    have hq' := fun q hq => h.equality_of_shared hs (q := q) hq
    have hnew : Backed s th _ := .new
    obtain ⟨c₁, heq₁, hc₁, hcoarser₁, hjoined₁⟩ := assertEqualities_spec hq hnew
    obtain ⟨c₂, heq₂, hc₂, hcoarser₂, hjoined₂⟩ := assertEqualities_spec hq' hc₁
    obtain ⟨c₃, heq₃, hc₃, hcoarser₃, hjoined₃⟩ := assertUfItes_spec hi hc₂
    have hclasses : c₃.merging.classes < c₃.terms.length + 1 :=
      Nat.lt_succ_of_le (hc₃.ok.size ▸ Merging.classes_le _)
    obtain ⟨outcome, hloop, hblocks, hok⟩ := congruenceLoop_spec hs ht h hc₃ hclasses
    dsimp only
    rw [hequalities]
    dsimp only [Option.bind_eq_bind, Option.bind_some]
    rw [hitems]
    dsimp only [Option.bind_some]
    rw [heq₁]
    dsimp only [Option.bind_some]
    rw [heq₂]
    dsimp only [Option.bind_some]
    rw [heq₃]
    dsimp only [Option.bind_some]
    rw [hloop]
    dsimp only [Option.bind_some]
    cases outcome with
    | error clause => exact .inl ⟨clause, rfl, hblocks clause rfl⟩
    | ok c =>
      obtain ⟨hc, hcoarser, representatives, hsettled⟩ := hok c rfl
      obtain ⟨denied, hdenied, hblocks, hnone⟩ := deniedEquality_spec hq hc
      obtain ⟨denied', hdenied', hblocks', hnone'⟩ := deniedEquality_spec hq' hc
      dsimp only
      rw [hdenied]
      dsimp only [Option.bind_some]
      cases denied with
      | some clause => exact .inl ⟨clause, rfl, hblocks clause rfl⟩
      | none =>
        dsimp only
        rw [hdenied']
        dsimp only [Option.bind_some]
        cases denied' with
        | some clause => exact .inl ⟨clause, rfl, hblocks' clause rfl⟩
        | none =>
          have hdecided : ∀ q ∈ equalities, th.value q.term = true ↔ c.Joined q.left q.right :=
            fun q hmem => ⟨fun hvalue => ((hcoarser₂.trans hcoarser₃).trans hcoarser).joined _ _
              (hjoined₁ q hmem hvalue), hnone rfl q hmem⟩
          have hshared : ∀ q ∈ th.sharedArithmeticEqualities,
              th.value q.term = true ↔ c.Joined q.left q.right := fun q hmem =>
            ⟨fun hvalue => (hcoarser₃.trans hcoarser).joined _ _ (hjoined₂ q hmem hvalue),
              hnone' rfl q hmem⟩
          obtain ⟨model, hmodel, hsatisfies⟩ := satisfies_of_classes hs ht hroom h hc haxioms
            hequalities hdecided hshared hitems
            (fun item hmem => hcoarser.joined _ _ (hjoined₃ item hmem)) hsettled
          dsimp only
          rw [hmodel]
          dsimp only [Option.bind_some]
          rw [h.relevant_results]
          dsimp only [Option.bind_some]
          rw [List.map_map]
          exact .inr ⟨_, rfl, hsatisfies⟩

end Satrap.Smt
