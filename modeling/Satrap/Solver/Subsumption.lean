/-
# Subsumption is sound

A clause that another one subsumes is deleted, and a clause that another one nearly subsumes
loses a literal.  The stronger clause is watched at its first two literals, whatever their
values are: the pass keeps the watch invariant only where it never makes a clause whose watches
are false at the root (`SightedRun`).
-/
import Satrap.Solver.Probing

namespace Satrap

open Logic

namespace Solver

variable {P : Prop}
variable {Γ : Set (List Lit)} {O : Oracle} {s s' : Solver} {c d : ClauseRef} {l q : Lit}
  {literals : List Lit}

/-! ### Strengthening with false watches -/

/-- The target is strengthened: all literals of the subsumer but the pivot occur in it, and so does
the negated pivot. -/
structure Strengthened (budget : ℕ) (c : ClauseRef) (subsumer : List Lit) (d : ClauseRef)
    (visited : List ClauseRef) (s : Solver) (pivot : Lit) : Prop where
  budget : s.subsumptionLiteralTouches < budget
  target : d ≠ c ∧ d ∉ visited
  original : s.isOriginal d = true
  length : subsumer.length ≤ s.clauseLength d
  missing : subsumer.filter (fun l => decide (l ∉ s.literals d)) = [pivot]
  negated : -pivot ∈ s.literals d

/-- Unless a unit is left, the clause that a strengthening makes can be watched. -/
def SightedStep (budget : ℕ) (c : ClauseRef) (subsumer : List Lit) (d : ClauseRef)
    (visited : List ClauseRef) (s : Solver) : Prop :=
  ∀ pivot, Strengthened budget c subsumer d visited s pivot →
    2 ≤ ((s.literals d).filter fun l => decide (l ≠ -pivot)).length →
    s.Sighted ((s.literals d).filter fun l => decide (l ≠ -pivot))

/-- In the loop over the targets of a subsumer the target is compared in the state. -/
inductive Compared (O : Oracle) (budget : ℕ) (c : ClauseRef) (subsumer : List Lit) :
    List ClauseRef → List ClauseRef → Solver → ClauseRef → List ClauseRef → Solver → Prop
  | here (d : ClauseRef) (rest visited : List ClauseRef) (s : Solver) :
      Compared O budget c subsumer (d :: rest) visited s d visited s
  | later {d e : ClauseRef} {rest visited visited' visited'' : List ClauseRef} {s s' t : Solver}
      (hstep : subsumeTarget O budget c subsumer d visited s = (none, visited', s'))
      (h : Compared O budget c subsumer rest visited' s' e visited'' t) :
      Compared O budget c subsumer (d :: rest) visited s e visited'' t

/-- The targets of a subsumer, in the order in which they are compared. -/
def subsumptionTargets (occurrences : Lit → List ClauseRef) (literals : List Lit) :
    List ClauseRef :=
  (literals.insertionSort fun l q =>
    (occurrences l).length ≤ (occurrences q).length).flatMap occurrences

/-- Every comparison of the subsumer is sighted. -/
def SightedSubsumer (O : Oracle) (budget : ℕ) (occurrences : Lit → List ClauseRef) (c : ClauseRef)
    (s : Solver) : Prop :=
  (s.clause c).deleted = false → ∀ d visited t,
    Compared O budget c (s.literals c) (subsumptionTargets occurrences (s.literals c)) [] s d
      visited t → SightedStep budget c (s.literals c) d visited t

/-- No strengthening of the pass makes a clause whose watches are false at the root. -/
def SightedRun (O : Oracle) (s : Solver) : Prop :=
  ∀ c t, TakenUp (subsumeScheduled O s.subsumptionLiteralTouchBudget s.subsumptionOccurrences)
    s.subsumptionSchedule s c t →
    SightedSubsumer O s.subsumptionLiteralTouchBudget s.subsumptionOccurrences c t

/-! ### One target -/

lemma Prepared.touch (h : Prepared P Γ s) (n : ℕ) :
    Prepared P Γ { s with subsumptionLiteralTouches := n } :=
  ⟨⟨h.core.congr rfl rfl rfl rfl rfl h.core.branching, h.settled.congr_done rfl rfl rfl, h.root⟩,
    h.head, h.deferred, h.idle, h.complete⟩

/-- A clause that contains an original one is deleted. -/
lemma Prepared.dropSubsumed (h : Prepared P Γ s) (hc : s.Original c) (hne : d ≠ c)
    (hsub : s.literals c ⊆ s.literals d) :
    Prepared P Γ (s.markClauseDeleted d) ∧ Stored (· = d) s (s.markClauseDeleted d) := by
  have hother : ∀ b, s.Original b → b ≠ d → (s.markClauseDeleted d).Original b := fun b hb hbd =>
    ⟨ClauseDb.active_delete.2 ⟨hb.1, hbd⟩, learned_markClauseDeleted.trans hb.2⟩
  refine ⟨⟨⟨h.core.markClauseDeleted d, h.settled.markClauseDeleted' d, h.root⟩, h.head, h.deferred,
    h.idle, h.complete.of_satisfies' rfl fun m hm => ⟨fun b hb => ?_, hm.2⟩⟩, ?_⟩
  · by_cases hbd : b = d
    · subst hbd
      have := hm.1 c (hother c hc fun he => hne he.symm)
      rw [literals_markClauseDeleted] at this
      exact this.mono hsub
    · have := hm.1 b (hother b hb hbd)
      rwa [literals_markClauseDeleted] at this
  · refine ⟨fun b hb => ⟨ClauseDb.allocated_delete.2 hb, learned_markClauseDeleted⟩,
      fun b hb => .inl (ClauseDb.allocated_delete.1 hb), fun b hb hbd => ?_, rfl⟩
    refine ⟨hother b hb hbd, ?_⟩
    rw [literals_markClauseDeleted]

/-- **Self-subsuming resolution**: the clause loses the negation of the pivot. -/
lemma Core.strengthens_pivot (h : Core Γ s) {subsumer : List Lit} {pivot : Lit}
    (hw : P → 2 ≤ ((s.literals d).filter fun l => decide (l ≠ -pivot)).length →
      s.Sighted ((s.literals d).filter fun l => decide (l ≠ -pivot)))
    (hd : s.Original d) (hnodup : (subsumer.map Literal.var).Nodup) (hent : Entails Γ subsumer)
    (hpivot : pivot ∈ subsumer) (hsub : ∀ q ∈ subsumer, q ≠ pivot → q ∈ s.literals d) :
    Strengthens P Γ s d ((s.literals d).filter fun l => decide (l ≠ -pivot)) := by
  refine ⟨hd.1, hd.2, List.filter_sublist.subperm, ?_, fun m hm => ?_, hw⟩
  · obtain ⟨hlen, -⟩ := h.db.length d hd.1.1
    have hnd := h.db.nodup d hd.1.1
    obtain ⟨a, b, rest, hlit⟩ : ∃ a b rest, s.literals d = a :: b :: rest := by
      match hlit : s.literals d with
      | a :: b :: rest => exact ⟨a, b, rest, rfl⟩
      | [_] | [] =>
        rw [show (s.clause d).literals = s.literals d from rfl, hlit] at hlen
        simp at hlen
    rw [show (s.clause d).literals = s.literals d from rfl, hlit] at hnd
    have hab : a ≠ b := by
      rintro rfl
      simp at hnd
    intro hnil
    rw [hlit, List.filter_eq_nil_iff] at hnil
    have h1 : a = -pivot := by simpa using hnil a (by simp)
    have h2 : b = -pivot := by simpa using hnil b (by simp)
    exact hab (h1.trans h2.symm)
  · have hmem : ∀ q ∈ s.literals d, q ≠ -pivot → q.Holds m →
        Sat m ((s.literals d).filter fun l => decide (l ≠ -pivot)) := fun q hq hne hqm =>
      ⟨q, List.mem_filter.2 ⟨hq, by simpa using hne⟩, hqm⟩
    obtain ⟨p, hp, hpm⟩ := hent m hm
    by_cases hpp : p = pivot
    · subst hpp
      obtain ⟨q, hq, hqm⟩ := h.entailed d hd.1.1 m hm
      refine hmem q hq (fun he => ?_) hqm
      exact Literal.holds_neg.1 (he ▸ hqm) hpm
    · refine hmem p (hsub p hp hpp) (fun he => hpp ?_) hpm
      exact List.inj_on_of_nodup_map hnodup hp hpivot (by rw [he]; rfl)

lemma subsumeTarget_spec (h : Prepared P Γ s) (hc : s.Original c)
    {subsumer : List Lit} (hperm : (s.literals c).Perm subsumer) (O : Oracle) (budget : ℕ)
    (hd : s.Allocated d) (visited : List ClauseRef)
    (hw : P → SightedStep budget c subsumer d visited s) :
    StepOk P Γ (fun b => b = d ∧ b ≠ c) s ((subsumeTarget O budget c subsumer d visited s).1,
      (subsumeTarget O budget c subsumer d visited s).2.2) := by
  rw [subsumeTarget]
  split
  · exact .skip h (by simp)
  next hbudget =>
  split
  · exact .skip h (by simp)
  next hskip =>
  obtain ⟨hne, hnew⟩ := not_or.1 hskip
  split
  · exact .skip h (by simp)
  next hopen =>
  have hopen : s.isOriginal d = true ∧ subsumer.length ≤ s.clauseLength d := by
    simpa using hopen
  have horig : s.Original d := by
    obtain ⟨hdel, hlearned⟩ : (s.clause d).deleted = false ∧ (s.clause d).learned = false := by
      simpa [isOriginal] using hopen.1
    exact ⟨⟨hd, hdel⟩, hlearned⟩
  dsimp only
  set touched : Solver := { s with
    subsumptionLiteralTouches :=
      s.subsumptionLiteralTouches + (subsumer.length + (s.clause d).literals.length) }
  have ht : Prepared P Γ touched := h.touch _
  have hremoved : ∀ b, b = d → b = d ∧ b ≠ c := fun b hb => ⟨hb, hb ▸ hne⟩
  have hskipped : StepOk P Γ (fun b => b = d ∧ b ≠ c) s (none, touched) :=
    (StepOk.skip ht (by simp)).of_frame (.of_session rfl) (.of_eq rfl rfl)
  have hmem : ∀ q, q ∈ subsumer.filter (fun l => decide (l ∉ (s.clause d).literals)) ↔
      q ∈ subsumer ∧ q ∉ s.literals d := fun q => by
    rw [List.mem_filter, decide_eq_true_eq]
    rfl
  split
  · next hnil =>
    have hsub : touched.literals c ⊆ touched.literals d := by
      intro q hq
      by_contra hqd
      have := (hmem q).2 ⟨hperm.subset hq, hqd⟩
      rw [hnil] at this
      simp at this
    obtain ⟨h1, h2⟩ := ht.dropSubsumed hc hne hsub
    have htouch : Stored (· = d) s touched := .of_eq rfl rfl
    exact (StepOk.skip h1 (by simp)).of_frame (.of_session rfl) ((htouch.trans h2).mono hremoved)
  · next pivot hone =>
    split
    · next hnegated =>
      have hpivot := (hmem pivot).1 (hone ▸ List.mem_singleton_self pivot)
      have hsub : ∀ q ∈ subsumer, q ≠ pivot → q ∈ touched.literals d := by
        intro q hq hqp
        by_contra hqd
        have := (hmem q).2 ⟨hq, hqd⟩
        rw [hone, List.mem_singleton] at this
        exact hqp this
      have hstr : Strengthens P Γ touched d
          ((touched.literals d).filter fun l => decide (l ≠ -pivot)) := by
        refine ht.core.strengthens_pivot (fun hP => hw hP pivot ?_) horig ?_ (fun m hm => ?_)
          hpivot.1 hsub
        · exact ⟨Nat.lt_of_not_le hbudget, ⟨hne, hnew⟩, hopen.1, hopen.2, hone, hnegated⟩
        · exact (hperm.map _).nodup_iff.1 (h.core.db.nodup c hc.1.1)
        · exact (h.core.entailed c hc.1.1 m hm).mono hperm.subset
      obtain ⟨h1, h2⟩ := installStrengthened_spec (propagatesAll_propagate O) ht hstr
      exact (StepOk.proceed h1 fun ht => (h2 ht).mono hremoved).of_frame (.of_session rfl)
        (.of_eq rfl rfl)
    · exact hskipped
  · exact hskipped

/-! ### The pass -/

lemma subsumeTargets_spec (O : Oracle) (budget : ℕ) {subsumer : List Lit} :
    ∀ (targets visited : List ClauseRef) (s : Solver), Prepared P Γ s → s.Original c →
      (s.literals c).Perm subsumer → (∀ d ∈ targets, s.Allocated d) →
      (P → ∀ d visited' t, Compared O budget c subsumer targets visited s d visited' t →
        SightedStep budget c subsumer d visited' t) →
      StepOk P Γ (· ≠ c) s (subsumeTargets O budget c subsumer targets visited s) := by
  intro targets
  induction targets with
  | nil => exact fun visited s h _ _ _ _ => .skip h (by simp)
  | cons d targets ih =>
    intro visited s h hc hperm halloc hw
    have hstep := subsumeTarget_spec h hc hperm O budget (halloc d List.mem_cons_self) visited
      fun hP => hw hP d visited s (.here d targets visited s)
    rw [subsumeTargets]
    cases he : subsumeTarget O budget c subsumer d visited s with
    | mk answer r =>
    obtain ⟨visited', s'⟩ := r
    rw [he] at hstep
    cases answer with
    | some b => exact hstep.mono fun _ hb => hb.2
    | none =>
      obtain ⟨hp, hf, hst⟩ := StepOk.prepared hstep
      obtain ⟨hc', hperm'⟩ := hst.original c hc (by simp)
      exact (ih visited' s' hp hc' (hperm'.trans hperm) (fun b hb =>
        (hst.allocated b (halloc b (List.mem_cons_of_mem d hb))).1)
        fun hP e visited'' t ht => hw hP e visited'' t (.later he ht)).of_frame hf
          (hst.mono fun _ hb => hb.2)

lemma mem_subsumptionSchedule (h : c ∈ s.subsumptionSchedule) :
    s.Allocated c ∧ (s.clause c).learned = false := by
  have hm := List.mem_of_mem_take h
  rw [List.mem_insertionSort, List.mem_filter, ClauseDb.mem_clauseReferences] at hm
  obtain ⟨halloc, hcond⟩ := hm
  simp only [isOriginal, Bool.and_eq_true, Bool.not_eq_true'] at hcond
  exact ⟨halloc, hcond.1.1.2⟩

lemma allocated_of_mem_occurrences (h : d ∈ s.subsumptionOccurrences l) : s.Allocated d :=
  ClauseDb.mem_clauseReferences.1 (List.mem_filter.1 h).1

lemma subsumeScheduled_spec (h : Prepared P Γ s) (O : Oracle) (budget : ℕ)
    {occurrences : Lit → List ClauseRef} (hocc : ∀ l, ∀ d ∈ occurrences l, s.Allocated d)
    (hc : s.Allocated c ∧ (s.clause c).learned = false)
    (hw : P → SightedSubsumer O budget occurrences c s) :
    StepOk P Γ (· ≠ c) s (subsumeScheduled O budget occurrences c s) := by
  rw [subsumeScheduled]
  split
  · exact .skip h (by simp)
  next hdel =>
  have hdel : (s.clause c).deleted = false := by simpa using hdel
  refine subsumeTargets_spec O _ _ _ s h ⟨⟨hc.1, hdel⟩, hc.2⟩ (.refl _) (fun d hd => ?_)
    fun hP => hw hP hdel
  obtain ⟨l, -, hd⟩ := List.mem_flatMap.1 hd
  exact hocc l d hd

/-- **Subsumption** leaves clauses with the same models. -/
lemma subsumeOriginalClauses_spec (h : Prepared P Γ s) (O : Oracle) (hw : P → SightedRun O s) :
    PassOk P Γ s (s.subsumeOriginalClauses O) ∧ ((s.subsumeOriginalClauses O).1 = true →
      Stored (fun _ => True) s (s.subsumeOriginalClauses O).2) :=
  runPass_takenUp _ s h fun c t hc h₁ _ hst =>
    (subsumeScheduled_spec h₁ O _
      (fun _ d hd => (hst.allocated d (allocated_of_mem_occurrences hd)).1)
      (hst.scheduled (mem_subsumptionSchedule hc.mem)) fun hP => hw hP c t hc).mono
        fun _ _ => trivial

end Solver

end Satrap
