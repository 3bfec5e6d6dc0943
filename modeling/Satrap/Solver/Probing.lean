/-
# Probing and vivification are sound

Both passes decide literals, propagate and return.  A decision that propagates to a conflict
refutes itself, and what is decided and refuted along the negated literals of a clause
tells which of them the clause can do without.
-/
import Satrap.Solver.Excursion

namespace Satrap

open Logic

namespace Solver

variable {P : Prop}
variable {Γ : Set (List Lit)} {O : Oracle} {s₀ s s' : Solver} {c d : ClauseRef} {l q a : Lit}
  {A literals : List Lit} {X : ClauseRef → Lit → Prop} {mode : PropagationMode}

/-! ### Failed literals -/

/-- The clause that a pass has written to the proof changes nothing else. -/
lemma Prepared.proofAdd (h : Prepared P Γ s) (literals : List Lit) :
    AtRoot P Γ (s.proofAdd literals) :=
  ⟨h.core.congr rfl rfl rfl rfl rfl h.core.branching, h.settled.congr_done rfl rfl rfl, h.root⟩

lemma probePolarity_spec (h : Prepared P Γ s) (O : Oracle) {budget startedAt v : ℕ}
    (hv : v < s.variableCount) (positive : Bool) :
    StepOk P Γ (fun _ => False) s (probePolarity O budget startedAt v positive s) := by
  rw [probePolarity]
  split
  · exact .skip h (by simp)
  next hnone =>
  split
  · exact .skip h (by simp)
  have ha : s.value ⟨v, positive⟩ = none :=
    TrailState.value_eq_none_iff.2 (by simpa using hnone)
  have hign : ∀ c l, ({ savePhase := false, probing := true } : PropagationMode).ignored = some c →
      ¬ s.Done l → exempt P c l := by simp
  obtain ⟨hexc, hcase⟩ := (Excursion.start h).assume h h.settled h.head ha hv O hign
  dsimp only
  rw [propagateProbe]
  generalize (s.newLevel.enqueueInternal false ⟨v, positive⟩ none).2.propagateInternal O
    { savePhase := false, probing := true } = r at hexc hcase
  obtain ⟨conflict, s₁⟩ := r
  dsimp only at hexc hcase ⊢
  have hlevel : 0 < s₁.decisionLevel := by
    rw [hexc.level]
    exact Nat.one_pos
  cases conflict with
  | none =>
    obtain ⟨hset, hhead⟩ := hcase
    obtain ⟨h1, h2, -, h3⟩ := hexc.comeBack h (hset.cancelUntil_done hexc.core O 0) (.inl hhead)
      fun _ _ hX _ => hX
    exact (StepOk.skip h1 (by simp)).of_frame (.of_session h2.session)
      (.of_same h2.session h3)
  | some c =>
    have hconf : Conflict Γ (exempt P) c s₁ := hcase
    obtain ⟨h1, h2, -, h3⟩ := hexc.comeBack h (hconf.settled_cancelUntil O hlevel) (.inr hlevel)
      fun _ _ hX _ => hX
    set s₂ := s₁.cancelUntil O 0
    have hunit : UnitPending P Γ (-⟨v, positive⟩) s₂ (s₂.proofAdd [-⟨v, positive⟩]) := by
      refine ⟨h1.proofAdd _, h1.deferred, rfl, fun m hm => ?_, ?_, ?_, fun m hm _ => hm⟩
      · have := hexc.refutes hconf hm
        simpa [Literal.holds_neg] using this
      · exact (congrArg Session.variableCount h2.session) ▸ hv
      · intro hE
        have hE' : v ∈ s.eliminatedVariables := by
          have hrec := congrArg Session.eliminationRecords h2.session
          rw [eliminatedVariables, ← hrec]
          exact hE
        exact (h.core.trail.eliminated v hE').1 (TrailState.value_eq_none_iff.1 ha)
    obtain ⟨h4, h5⟩ := installUnit_spec (propagatesAll_probe O true) h1 hunit
    refine (StepOk.proceed h4 fun ht => ?_).of_frame (.of_session h2.session)
      (.of_same h2.session h3)
    have hst : Stored (fun _ => False) s₂ (s₂.proofAdd [-⟨v, positive⟩]) := .of_eq rfl rfl
    exact hst.trans (h5 ht)

lemma probeVariable_spec (h : Prepared P Γ s) (O : Oracle) {budget startedAt v : ℕ}
    (hv : v < s.variableCount) :
    StepOk P Γ (fun _ => False) s (probeVariable O budget startedAt v s) := by
  have hfirst : StepOk P Γ (fun _ => False) s
      (probePolarity O budget startedAt v (s.phase v) s) := probePolarity_spec h O hv _
  rw [probeVariable]
  generalize probePolarity O budget startedAt v (s.phase v) s = r at hfirst
  obtain ⟨answer, s₂⟩ := r
  cases answer with
  | some b => exact hfirst
  | none =>
    obtain ⟨h₂, hf₂, hst₂⟩ := hfirst.prepared
    exact (probePolarity_spec h₂ O (hv.trans_le hf₂.count) _).of_frame hf₂ hst₂

/-- **Failed-literal probing** derives units that the clauses entail. -/
lemma probeFailedLiterals_spec (h : Prepared P Γ s) (O : Oracle) :
    PassOk P Γ s (s.probeFailedLiterals O) ∧ ((s.probeFailedLiterals O).1 = true →
      Stored (fun _ => True) s (s.probeFailedLiterals O).2) :=
  runPass_spec _ s h fun _ hv _ h₁ hf _ =>
    (probeVariable_spec h₁ O ((List.mem_range.1 hv).trans_le hf.count)).mono fun _ hd => hd.elim

/-! ### Vivification -/

/-- What is known of the literals that replace those of the clause `c`. -/
structure Kernel (Γ : Set (List Lit)) (s : Solver) (c : ClauseRef) (literals : List Lit) :
    Prop where
  sublist : literals.Sublist (s.literals c)
  unassigned : ∀ l ∈ literals, s.value l = none
  nonempty : literals ≠ []
  entailed : Entails Γ literals

/-- What `vivify_clause` leaves. -/
structure Vivified (P : Prop) (Γ : Set (List Lit)) (s : Solver) (c : ClauseRef)
    (r : Option (List Lit) × Solver) : Prop where
  prepared : Prepared P Γ r.2
  session : r.2.toSession = s.toSession
  db : ClauseDb.Same s.toClauseDb r.2.toClauseDb
  strengthens : ∀ literals, r.1 = some literals → Strengthens P Γ r.2 c literals

lemma Excursion.vivified (h : Excursion Γ A s₀ s) (h₀ : Prepared P Γ s₀) (hc : s₀.Original c)
    (hset : (s.cancelUntil O 0).Settled (s.cancelUntil O 0).Done X)
    (hhead : s.propagationHead = s.trail.length ∨ 0 < s.decisionLevel)
    (hX : ∀ c l, X c l → s₀.Done l → exempt P c l) {result : Option (List Lit)}
    (hr : ∀ literals, result = some literals → Kernel Γ s₀ c literals) :
    Vivified P Γ s₀ c (result, s.cancelUntil O 0) := by
  obtain ⟨h1, h2, h3, h4⟩ := h.comeBack h₀ hset hhead hX
  refine ⟨h1, h2.session, h4, fun literals hl => ?_⟩
  have hk := hr literals hl
  refine ⟨h4.active.2 hc.1, (h4.learned c).trans hc.2, ?_, hk.nonempty, hk.entailed,
    fun _ _ => .inr fun l hl => ?_⟩
  · exact hk.sublist.subperm.trans (h4.literals c).symm.subperm
  · have hnone := hk.unassigned l (List.mem_of_mem_take hl)
    have hpresent := h1.core.active_var (h4.active.2 hc.1)
      ((h4.literals c).mem_iff.2 (hk.sublist.subset (List.mem_of_mem_take hl)))
    -- the trail is the one the excursion has started from
    cases hv : (s.cancelUntil O 0).value l with
    | none => rfl
    | some b =>
      exfalso
      cases b with
      | true =>
        have hmem := (h1.core.trail.mem_iff hpresent).2 hv
        rw [h3] at hmem
        simp [h₀.core.trail.value_of_mem hmem] at hnone
      | false =>
        have hmem := (h1.core.trail.neg_mem_iff hpresent).2 hv
        rw [h3] at hmem
        have hfalse := h₀.core.trail.value_of_mem hmem
        rw [TrailState.value_neg_eq_true_iff, hnone] at hfalse
        simp at hfalse

/-- The watches that vivification of `c` does not look at. -/
def aside (P : Prop) (s₀ : Solver) (c d : ClauseRef) (l : Lit) : Prop :=
  exempt P d l ∨ d = c ∧ ¬ s₀.Done l

/-- Between the rounds of `vivify_clause`. -/
structure Vivifying (P : Prop) (Γ : Set (List Lit)) (s₀ : Solver) (c : ClauseRef)
    (kept rest : List Lit) (s : Solver) : Prop where
  excursion : Excursion Γ (kept.map (- ·)) s₀ s
  settled : s.Settled s.Done (aside P s₀ c)
  head : s.propagationHead = s.trail.length
  sublist : (kept ++ rest).Sublist (s₀.literals c)
  unassigned : ∀ l ∈ kept ++ rest, s₀.value l = none
  nonempty : kept ≠ [] ∨ ∃ l, rest.head? = some l ∧ s.value l = none
  dropped : ∀ q ∈ s₀.literals c, q ∉ kept ++ rest → ∀ m, Models m Γ → q.Holds m → Sat m kept

namespace Vivifying

variable {kept rest : List Lit}

/-- A model refutes the decisions or satisfies a literal that has been kept. -/
lemma sat_or (m : ℕ → Bool) (kept : List Lit) :
    Sat m kept ∨ ∀ a ∈ kept.map (- ·), a.Holds m := by
  by_cases hs : Sat m kept
  · exact .inl hs
  · refine .inr fun a ha => ?_
    obtain ⟨l, hl, rfl⟩ := List.mem_map.1 ha
    exact Literal.holds_neg.2 fun hlm => hs ⟨l, hl, hlm⟩

lemma done (h : Vivifying P Γ s₀ c kept [] s) (hc : s₀.Original c) (h₀ : Prepared P Γ s₀) :
    Kernel Γ s₀ c kept := by
  refine ⟨by simpa using h.sublist, fun l hl => h.unassigned l (by simpa using hl), ?_, fun m hm => ?_⟩
  · simpa using h.nonempty
  · obtain ⟨q, hq, hqm⟩ := h₀.core.entailed c hc.1.1 m hm
    by_cases hk : q ∈ kept
    · exact ⟨q, hk, hqm⟩
    · exact h.dropped q hq (by simpa using hk) m hm hqm

/-- The kept literals and one more that the decisions make true, or that conflicts with them. -/
lemma close (h : Vivifying P Γ s₀ c kept (l :: rest) s)
    (hl : ∀ m, Models m Γ → (∀ a ∈ kept.map (- ·), a.Holds m) → l.Holds m) :
    Kernel Γ s₀ c (kept ++ [l]) := by
  have hsub : (kept ++ [l]).Sublist (kept ++ l :: rest) :=
    (List.Sublist.refl kept).append (by simp)
  refine ⟨hsub.trans h.sublist, fun q hq => h.unassigned q (hsub.subset hq), by simp, fun m hm => ?_⟩
  rcases sat_or m kept with hs | hall
  · exact hs.mono (List.subset_append_left _ _)
  · exact ⟨l, by simp, hl m hm hall⟩

/-- A literal that the decisions make false is dropped. -/
lemma drop (h : Vivifying P Γ s₀ c kept (l :: rest) s) (hv : s.value l = some false)
    (hl : ∀ m, Models m Γ → (∀ a ∈ kept.map (- ·), a.Holds m) → ¬ l.Holds m) :
    Vivifying P Γ s₀ c kept rest s := by
  have hsub : (kept ++ rest).Sublist (kept ++ l :: rest) :=
    (List.Sublist.refl kept).append (List.sublist_cons_self l rest)
  refine ⟨h.excursion, h.settled, h.head, hsub.trans h.sublist,
    fun q hq => h.unassigned q (hsub.subset hq), .inl ?_, fun q hq hqk m hm hqm => ?_⟩
  · refine h.nonempty.resolve_right ?_
    rintro ⟨l', hl', hn⟩
    obtain rfl : l = l' := by simpa using hl'
    rw [hv] at hn
    simp at hn
  · by_cases hql : q = l
    · exact (sat_or m kept).resolve_right fun hall => hl m hm hall (hql ▸ hqm)
    · refine h.dropped q hq (fun hmem => hqk ?_) m hm hqm
      simp only [List.mem_append, List.mem_cons] at hmem ⊢
      tauto

end Vivifying

/-- **The rounds of vivification.** -/
lemma vivifyLiterals_spec (h₀ : Prepared P Γ s₀) (hc : s₀.Original c) (O : Oracle)
    (startedAt budget originalLength : ℕ) : ∀ (rest kept : List Lit) (s : Solver),
    Vivifying P Γ s₀ c kept rest s →
      Vivified P Γ s₀ c (vivifyLiterals O c startedAt budget originalLength rest kept s) := by
  have hX : ∀ d l, aside P s₀ c d l → s₀.Done l → exempt P d l := fun d l hX hd =>
    hX.resolve_right fun hn => hn.2 hd
  have hresult : ∀ {kept : List Lit}, Kernel Γ s₀ c kept → ∀ literals,
      strengthening originalLength kept = some literals → Kernel Γ s₀ c literals := by
    intro kept hk literals hs
    rw [strengthening] at hs
    split at hs
    · exact Option.some.inj hs ▸ hk
    · simp at hs
  intro rest
  induction rest with
  | nil =>
    intro kept s h
    rw [vivifyLiterals]
    exact h.excursion.vivified h₀ hc (h.settled.cancelUntil_done h.excursion.core O 0)
      (.inl h.head) hX (hresult (h.done hc h₀))
  | cons l rest ih =>
    intro kept s h
    have hback := h.settled.cancelUntil_done h.excursion.core O 0
    have hmem : l ∈ s₀.literals c := h.sublist.subset (by simp)
    have hpresent : l.var ∉ s.eliminatedVariables := by
      rw [eliminatedVariables, congrArg Session.eliminationRecords h.excursion.kept.session]
      exact h₀.core.active_var hc.1 hmem
    rw [vivifyLiterals]
    split
    · exact h.excursion.vivified h₀ hc hback (.inl h.head) hX (by simp)
    cases hv : s.value l with
    | some b =>
      cases b with
      | true =>
        refine h.excursion.vivified h₀ hc hback (.inl h.head) hX (hresult (h.close fun m hm hall => ?_))
        exact h.excursion.holds hm hall ((h.excursion.core.trail.mem_iff hpresent).2 hv)
      | false =>
        refine ih kept s (h.drop hv fun m hm hall => Literal.holds_neg.1 ?_)
        exact h.excursion.holds hm hall ((h.excursion.core.trail.neg_mem_iff hpresent).2 hv)
    | none =>
      have hlt : (-l).var < s.variableCount := by
        rw [congrArg Session.variableCount h.excursion.kept.session]
        exact h₀.core.db.lt c hc.1.1 l hmem
      have hign : ∀ d q, ({ savePhase := false, vivification := true
                            ignored := some c } : PropagationMode).ignored = some d →
          ¬ s₀.Done q → aside P s₀ c d q := by
        rintro d q ⟨⟩ hd
        exact .inr ⟨rfl, hd⟩
      have hneg : s.value (-l) = none :=
        TrailState.value_eq_none_iff.2 ((TrailState.value_eq_none_iff (l := l)).1 hv)
      obtain ⟨hexc, hcase⟩ := h.excursion.assume h₀ h.settled h.head hneg hlt O hign
      dsimp only
      rw [propagateVivification]
      generalize (s.newLevel.enqueueInternal false (-l) none).2.propagateInternal O
        { savePhase := false, vivification := true, ignored := some c } = r at hexc hcase
      obtain ⟨conflict, s₁⟩ := r
      dsimp only at hexc hcase ⊢
      cases conflict with
      | some d =>
        have hconf : Conflict Γ (aside P s₀ c) d s₁ := hcase
        have hlevel : 0 < s₁.decisionLevel := by
          rw [hexc.level, List.length_append]
          exact Nat.succ_pos _
        refine hexc.vivified h₀ hc (hconf.settled_cancelUntil O hlevel) (.inr hlevel) hX
          (hresult (h.close fun m hm hall => ?_))
        by_contra hlm
        refine hexc.refutes hconf hm fun a ha => ?_
        rcases List.mem_append.1 ha with ha | ha
        · exact hall a ha
        · rw [List.mem_singleton.1 ha]
          exact Literal.holds_neg.2 hlm
      | none =>
        obtain ⟨hset, hhead⟩ := hcase
        have hperm : ∀ q, q ∈ (kept ++ [l]) ++ rest ↔ q ∈ kept ++ l :: rest := by simp
        refine ih (kept ++ [l]) s₁ ⟨?_, hset, hhead, ?_, fun q hq => h.unassigned q ((hperm q).1 hq),
          .inl (by simp), fun q hq hqk m hm hqm => ?_⟩
        · rwa [List.map_append]
        · simpa using h.sublist
        · exact (h.dropped q hq (fun hq' => hqk ((hperm q).2 hq')) m hm hqm).mono
            (List.subset_append_left _ _)

lemma vivifyClause_spec (h : Prepared P Γ s) (hP : P) (hc : s.Original c) (O : Oracle)
    (startedAt budget : ℕ) : Vivified P Γ s c (vivifyClause O c startedAt budget s) := by
  have hnone : Vivified P Γ s c (none, s) := ⟨h, rfl, .refl _, by simp⟩
  rw [vivifyClause, vivificationCandidate]
  split
  · exact hnone
  next candidate hcand =>
  split at hcand
  · simp at hcand
  next hopen =>
  obtain rfl := Option.some.inj hcand
  have hfalse : ∀ q ∈ s.literals c, s.value q ≠ some true := by
    intro q hq hv
    exact hopen (List.any_eq_true.2 ⟨q, hq, by simpa using hv⟩)
  have hmem : ∀ q, q ∈ (s.literals c).filter (fun l => decide (s.value l = none)) ↔
      q ∈ s.literals c ∧ s.value q = none := by simp
  refine vivifyLiterals_spec h hc O startedAt budget _ _ [] s ⟨.start h, ?_, h.head, ?_, ?_, .inr ?_, ?_⟩
  · exact h.settled.mono fun _ _ hX => .inl hX
  · exact List.filter_sublist
  · exact fun q hq => ((hmem q).1 hq).2
  · have hne : (s.literals c).filter (fun l => decide (s.value l = none)) ≠ [] := by
      intro hnil
      obtain ⟨hlen, -⟩ := h.core.db.length c hc.1.1
      obtain ⟨l, rest, hlit⟩ := List.exists_cons_of_length_pos (Nat.lt_of_lt_of_le Nat.two_pos hlen)
      have hl : l ∈ s.watched c := by
        rw [ClauseDb.watched, hlit]
        simp
      obtain ⟨q, hq, hqt⟩ := h.settled.exists_true h.core h.head hc hl (fun hn => hn hP) fun hv => by
        have hl' := (hmem l).2 ⟨List.mem_of_mem_take hl, hv⟩
        rw [hnil] at hl'
        simp at hl'
      exact hfalse q hq hqt
    obtain ⟨l, hl⟩ := Option.ne_none_iff_exists'.1 (mt List.head?_eq_none_iff.1 hne)
    exact ⟨l, hl, ((hmem l).1 (List.mem_of_mem_head? hl)).2⟩
  · intro q hq hqk m hm hqm
    exfalso
    have hv : s.value q = some false := by
      cases hval : s.value q with
      | none => exact absurd ((hmem q).2 ⟨hq, hval⟩) hqk
      | some b =>
        cases b with
        | true => exact absurd hval (hfalse q hq)
        | false => rfl
    have hneg := (h.core.trail.neg_mem_iff (h.core.active_var hc.1 hq)).2 hv
    exact Literal.holds_neg.1 (h.core.holds_root hm hneg (h.level hneg)) hqm

lemma vivifyScheduled_spec (h : Prepared P Γ s) (hP : P) (O : Oracle) (budget startedAt : ℕ)
    (hc : s.Allocated c ∧ (s.clause c).learned = false) :
    StepOk P Γ (· = c) s (vivifyScheduled O budget startedAt c s) := by
  rw [vivifyScheduled]
  split
  · exact .skip h (by simp)
  split
  · exact .skip h (by simp)
  next hdel =>
  have horig : s.Original c := ⟨⟨hc.1, by simpa using hdel⟩, hc.2⟩
  obtain ⟨h2, h3, h4, h5⟩ := vivifyClause_spec h hP horig O startedAt budget
  generalize vivifyClause O c startedAt budget s = r at h2 h3 h4 h5
  obtain ⟨result, s₂⟩ := r
  cases result with
  | none => exact (StepOk.skip h2 (by simp)).of_frame (.of_session h3) (.of_same h3 h4)
  | some literals =>
    obtain ⟨h6, h7⟩ := installStrengthened_spec (propagatesAll_vivification O true) h2
      (h5 literals rfl)
    exact (StepOk.proceed h6 h7).of_frame (.of_session h3) (.of_same h3 h4)

lemma mem_vivificationSchedule (h : c ∈ s.vivificationSchedule) :
    s.Allocated c ∧ (s.clause c).learned = false := by
  have hm := List.mem_of_mem_take h
  rw [List.mem_insertionSort, List.mem_filter, List.mem_map] at hm
  obtain ⟨⟨i, hi, rfl⟩, hcond⟩ := hm
  simp only [Bool.and_eq_true, Bool.not_eq_true'] at hcond
  exact ⟨List.mem_range.1 hi, hcond.1.2⟩

/-- The clauses of the schedule are still stored when they are taken up. -/
lemma Stored.scheduled {removed : ClauseRef → Prop} (h : Stored removed s s')
    (hc : s.Allocated c ∧ (s.clause c).learned = false) :
    s'.Allocated c ∧ (s'.clause c).learned = false :=
  ⟨(h.allocated c hc.1).1, (h.allocated c hc.1).2.trans hc.2⟩

/-- **Vivification** replaces clauses by stronger ones that are entailed. -/
lemma vivifyOriginalClauses_spec (h : Prepared P Γ s) (hP : P) (O : Oracle) :
    PassOk P Γ s (s.vivifyOriginalClauses O) ∧ ((s.vivifyOriginalClauses O).1 = true →
      Stored (fun _ => True) s (s.vivifyOriginalClauses O).2) :=
  runPass_spec _ s h fun _ hc _ h₁ _ hst =>
    (vivifyScheduled_spec h₁ hP O _ _ (hst.scheduled (mem_vivificationSchedule hc))).mono
      fun _ _ => trivial

end Solver

end Satrap
