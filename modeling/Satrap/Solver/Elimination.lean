/-
# Elimination is sound

The clauses of a variable are replaced by their resolvents.  A model of what remains satisfies,
off the variable, the clauses of one of its signs, so that `extend_model` finds a value for it.
-/
import Satrap.Solver.RootPass
import Satrap.Solver.Eliminate
import Satrap.Logic.Resolution

namespace Satrap

open Logic

namespace Solver

variable {P : Prop}
variable {Γ : Set (List Lit)} {O : Oracle} {s s' : Solver} {c d p n : ClauseRef} {l q : Lit}
  {v : ℕ} {m : ℕ → Bool} {resolvent : List Lit} {resolvents : List (List Lit)}

/-! ### Model extension -/

/-- The clauses of the record that are false off the pivot require one value of it. -/
lemma requiredByAll_spec : ∀ (clauses : List (List Lit)) (required : Option Bool),
    (∀ c ∈ clauses, ∃ b, HasPivot ⟨v, b⟩ c) →
    (∀ c ∈ clauses, ∀ b, HasPivot ⟨v, b⟩ c → ¬ SatOff m v c → ∀ b', required = some b' → b = b') →
    (∀ c ∈ clauses, ∀ d ∈ clauses, HasPivot ⟨v, true⟩ c → HasPivot ⟨v, false⟩ d →
      SatOff m v c ∨ SatOff m v d) →
    ∃ required', requiredByAll v m clauses required = some required' ∧
      (∀ b, required = some b → required' = some b) ∧
      ∀ c ∈ clauses, ∀ b, HasPivot ⟨v, b⟩ c → ¬ SatOff m v c → required' = some b
  | [], required, _, _, _ => ⟨required, rfl, fun _ => id, by simp⟩
  | clause :: rest, required, hpivot, hreq, hpairs => by
    have hrest := requiredByAll_spec rest
    rw [requiredByAll]
    split
    · next hany =>
      -- the clause is true off the pivot
      have hoff : SatOff m v clause := by
        obtain ⟨l, hl, hboth⟩ := List.any_eq_true.1 hany
        rw [Bool.and_eq_true, decide_eq_true_eq, beq_iff_eq] at hboth
        exact ⟨l, hl, hboth.1, hboth.2⟩
      obtain ⟨required', h1, h2, h3⟩ := hrest required (fun c hc => hpivot c (by simp [hc]))
        (fun c hc => hreq c (by simp [hc])) fun c hc d hd => hpairs c (by simp [hc]) d (by simp [hd])
      refine ⟨required', h1, h2, fun c hc b hb hn => ?_⟩
      rcases List.mem_cons.1 hc with rfl | hc
      · exact absurd hoff hn
      · exact h3 c hc b hb hn
    · next hany =>
      have hnot : ¬ SatOff m v clause := by
        rintro ⟨l, hl, hv, ht⟩
        refine hany (List.any_eq_true.2 ⟨l, hl, ?_⟩)
        rw [Bool.and_eq_true, decide_eq_true_eq, beq_iff_eq]
        exact ⟨hv, ht⟩
      obtain ⟨b, hb⟩ := hpivot clause (by simp)
      have hfind : (clause.reverse.find? fun l => decide (l.var = v)) = some ⟨v, b⟩ := by
        cases hf : clause.reverse.find? fun l => decide (l.var = v) with
        | none =>
          have := List.find?_eq_none.1 hf ⟨v, b⟩ (by simpa using hb.mem)
          simp at this
        | some q =>
          have hq := List.find?_some hf
          have hmem := List.mem_of_find?_eq_some hf
          rw [hb.unique q (by simpa using hmem) (by simpa using hq)]
      have hstep : ∀ c ∈ rest, ∀ b', HasPivot ⟨v, b'⟩ c → ¬ SatOff m v c → b' = b := by
        intro c hc b' hb' hn
        cases b <;> cases b'
        · rfl
        · exact absurd (hpairs c (by simp [hc]) clause (by simp) hb' hb) (by tauto)
        · exact absurd (hpairs clause (by simp) c (by simp [hc]) hb hb') (by tauto)
        · rfl
      obtain ⟨required', h1, h2, h3⟩ := hrest (some b) (fun c hc => hpivot c (by simp [hc]))
        (fun c hc b' hb' hn b'' he => Option.some.inj he ▸ hstep c hc b' hb' hn)
        fun c hc d hd => hpairs c (by simp [hc]) d (by simp [hd])
      have hresult : ∀ c ∈ clause :: rest, ∀ b', HasPivot ⟨v, b'⟩ c → ¬ SatOff m v c →
          required' = some b' := by
        intro c hc b' hb' hn
        rcases List.mem_cons.1 hc with rfl | hc
        · have he := hb.unique _ hb'.mem rfl
          rw [Literal.ext_iff'] at he
          have hbb : b' = b := he.2
          exact hbb ▸ h2 b rfl
        · exact h3 c hc b' hb' hn
      rw [hfind]
      cases hr : required with
      | none => exact ⟨required', h1, by simp, hresult⟩
      | some previous =>
        obtain rfl : b = previous := hreq clause (by simp) b hb hnot previous hr
        dsimp only
        rw [if_pos rfl]
        refine ⟨required', h1, fun b' he => ?_, hresult⟩
        rw [← he]
        exact h2 b rfl

/-- **Undoing an elimination** never fails and satisfies the clauses of the record. -/
lemma extendRecord_spec {r : EliminationRecord} (hpivot : ∀ c ∈ r.clauses, ∃ b, HasPivot ⟨r.pivot, b⟩ c)
    (hpairs : ∀ c ∈ r.clauses, ∀ d ∈ r.clauses, HasPivot ⟨r.pivot, true⟩ c →
      HasPivot ⟨r.pivot, false⟩ d → SatOff m r.pivot c ∨ SatOff m r.pivot d) :
    ∃ m', extendRecord m r = some m' ∧ (∀ w, w ≠ r.pivot → m' w = m w) ∧
      ∀ c ∈ r.clauses, Sat m' c := by
  obtain ⟨required, h1, -, h2⟩ := requiredByAll_spec r.clauses none hpivot (by simp) hpairs
  have hsat : ∀ m' : ℕ → Bool, (∀ w, w ≠ r.pivot → m' w = m w) →
      (∀ b, required = some b → m' r.pivot = b) → ∀ c ∈ r.clauses, Sat m' c := by
    intro m' hoff hon c hc
    by_cases ho : SatOff m r.pivot c
    · exact ho.sat hoff
    · obtain ⟨b, hb⟩ := hpivot c hc
      exact hb.sat (hon b (h2 c hc b hb ho))
  rw [extendRecord, h1]
  cases required with
  | none => exact ⟨m, rfl, fun _ _ => rfl, hsat m (fun _ _ => rfl) (by simp)⟩
  | some b =>
    have hoff : ∀ w, w ≠ r.pivot → Function.update m r.pivot b w = m w := fun w hw =>
      Function.update_of_ne hw _ _
    refine ⟨_, rfl, hoff, hsat _ hoff fun b' he => ?_⟩
    rw [Function.update_self]
    exact Option.some.inj he

/-! ### Resolvents -/

/-- Original clauses have one literal of each of their variables. -/
lemma Core.hasPivot (h : Core Γ s) (hc : s.Allocated c) (hl : l ∈ s.literals c) :
    HasPivot l (s.literals c) := ⟨hl, fun _ hq hv => h.db.var_inj hc hq hl hv⟩

/-- What a computed resolvent is. -/
structure IsResolvent (s : Solver) (v : ℕ) (p n : ClauseRef) (resolvent : List Lit) : Prop where
  nodup : (resolvent.map Literal.var).Nodup
  resolves : ResolventOf (fun l => s.value l = some false ∧ (l ∈ s.literals p ∨ l ∈ s.literals n)) v
    (s.literals p) (s.literals n) resolvent
  unassigned : ∀ l ∈ resolvent, s.value l = none

/-- The literals from which a resolvent is computed. -/
lemma mem_others : l ∈ ((s.clause p).literals ++ (s.clause n).literals).filter
    (fun l => decide (l.var ≠ v)) ↔ (l ∈ s.literals p ∨ l ∈ s.literals n) ∧ l.var ≠ v := by
  rw [List.mem_filter, List.mem_append, decide_eq_true_eq]
  rfl

lemma eliminationResolvent_some (h : s.eliminationResolvent p n v = some resolvent) :
    IsResolvent s v p n resolvent := by
  rw [eliminationResolvent] at h
  split at h
  · cases h
  · next hany =>
    have hn := normalize_some h
    have hmem : ∀ l, l ∈ resolvent ↔
        ((l ∈ s.literals p ∨ l ∈ s.literals n) ∧ l.var ≠ v) ∧ s.value l = none := by
      intro l
      rw [hn.mem, List.mem_filter, mem_others, decide_eq_true_eq]
    refine ⟨hn.nodup, ⟨fun l hl => ((hmem l).1 hl).1, fun l hl hv => ?_⟩,
      fun l hl => ((hmem l).1 hl).2⟩
    cases hval : s.value l with
    | none => exact .inl ((hmem l).2 ⟨⟨hl, hv⟩, hval⟩)
    | some b =>
      cases b with
      | false => exact .inr ⟨rfl, hl⟩
      | true =>
        refine absurd (List.any_eq_true.2 ⟨l, mem_others.2 ⟨hl, hv⟩, ?_⟩) hany
        rw [hval, decide_eq_true rfl]

/-- A pair without a resolvent: one of the two clauses is true off the pivot. -/
lemma eliminationResolvent_none (hroot : ∀ l, s.value l = some true → l.var ≠ v →
      l ∈ s.literals p ∨ l ∈ s.literals n → l.Holds m)
    (h : s.eliminationResolvent p n v = none) :
    SatOff m v (s.literals p) ∨ SatOff m v (s.literals n) := by
  have hfound : ∀ l, (l ∈ s.literals p ∨ l ∈ s.literals n) ∧ l.var ≠ v → l.Holds m →
      SatOff m v (s.literals p) ∨ SatOff m v (s.literals n) := by
    rintro l ⟨hp | hn, hv⟩ ht
    · exact .inl ⟨l, hp, hv, ht⟩
    · exact .inr ⟨l, hn, hv, ht⟩
  rw [eliminationResolvent] at h
  split at h
  · next hany =>
    obtain ⟨l, hl, ht⟩ := List.any_eq_true.1 hany
    rw [decide_eq_true_eq] at ht
    have hl' := mem_others.1 hl
    exact hfound l hl' (hroot l ht hl'.2 hl'.1)
  · obtain ⟨l, hl, ht⟩ := normalize_none h m
    exact hfound l (mem_others.1 (List.mem_of_mem_filter hl)) ht

/-- The resolvents of all pairs. -/
structure ResolventsOk (s : Solver) (v : ℕ) (pairs : List (ClauseRef × ClauseRef))
    (resolvents : List (List Lit)) : Prop where
  all : ∀ pair ∈ pairs, ∀ r, s.eliminationResolvent pair.1 pair.2 v = some r → r ∈ resolvents
  sound : ∀ r ∈ resolvents, ∃ pair ∈ pairs, s.eliminationResolvent pair.1 pair.2 v = some r

/-- The state but for the work spent on elimination. -/
def EffortOnly (s s' : Solver) : Prop :=
  ∃ touches, s' = { s with eliminationLiteralTouches := touches }

lemma EffortOnly.trans {s₁ s₂ s₃ : Solver} (h : EffortOnly s₁ s₂) (h' : EffortOnly s₂ s₃) :
    EffortOnly s₁ s₃ := by
  obtain ⟨n, rfl⟩ := h
  obtain ⟨k, rfl⟩ := h'
  exact ⟨k, rfl⟩

lemma EffortOnly.eliminationResolvent (h : EffortOnly s s') (p n : ClauseRef) (v : ℕ) :
    s'.eliminationResolvent p n v = s.eliminationResolvent p n v := by
  obtain ⟨k, rfl⟩ := h
  rfl

lemma EffortOnly.prepared (h : EffortOnly s s') (hp : Prepared P Γ s) : Prepared P Γ s' := by
  obtain ⟨k, rfl⟩ := h
  obtain ⟨⟨⟨h1, h2, h3, h4, h5, h6, h7, h8⟩, h9, h10⟩, h11, h12, h13, h14⟩ := hp
  exact ⟨⟨⟨h1, h2, h3, h4, h5, h6, h7, h8⟩, h9.congr_done rfl rfl rfl, h10⟩, h11, h12, h13, h14⟩

/-- The loop over the pairs gives all resolvents or none. -/
lemma collectResolvents_spec (budget removedCount : ℕ) :
    ∀ (pairs done : List (ClauseRef × ClauseRef)) (resolvents : List (List Lit)) (s₁ : Solver),
      EffortOnly s s₁ → ResolventsOk s v done resolvents →
      EffortOnly s (collectResolvents v budget removedCount pairs resolvents s₁).2 ∧
        ∀ resolvents', (collectResolvents v budget removedCount pairs resolvents s₁).1 =
          .found resolvents' → ResolventsOk s v (done ++ pairs) resolvents'
  | [], done, resolvents, s₁, he, hr => by
    refine ⟨he, fun resolvents' h => ?_⟩
    rw [collectResolvents, ResolventSearch.found.injEq] at h
    rw [List.append_nil, ← h]
    exact hr
  | (positive, negative) :: pairs, done, resolvents, s₁, he, hr => by
    rw [collectResolvents]
    dsimp only
    split
    · exact ⟨he, fun _ h => by cases h⟩
    set s₂ : Solver := { s₁ with eliminationLiteralTouches := s₁.eliminationLiteralTouches +
      (s₁.clauseLength positive + s₁.clauseLength negative) } with hs₂
    have he₂ : EffortOnly s s₂ := he.trans ⟨_, rfl⟩
    have hres := he₂.eliminationResolvent positive negative v
    rw [List.append_cons]
    split
    · next hn =>
      refine collectResolvents_spec budget removedCount pairs _ _ s₂ he₂ ⟨?_, fun r hm => ?_⟩
      · intro pair hp r hsome
        rcases List.mem_append.1 hp with hp | hp
        · exact hr.all pair hp r hsome
        · rw [List.mem_singleton.1 hp, ← hres, hn] at hsome
          cases hsome
      · obtain ⟨pair, hp, hsome⟩ := hr.sound r hm
        exact ⟨pair, List.mem_append_left _ hp, hsome⟩
    · next resolvent hn =>
      split
      · exact ⟨he₂, fun _ h => by cases h⟩
      split
      · exact ⟨he₂, fun _ h => by cases h⟩
      refine collectResolvents_spec budget removedCount pairs _ _ s₂ he₂ ⟨?_, fun r hm => ?_⟩
      · intro pair hp r hsome
        rcases List.mem_append.1 hp with hp | hp
        · exact List.mem_append_left _ (hr.all pair hp r hsome)
        · rw [List.mem_singleton.1 hp, ← hres, hn, Option.some.injEq] at hsome
          exact List.mem_append_right _ (by simp [hsome])
      · rcases List.mem_append.1 hm with hm | hm
        · obtain ⟨pair, hp, hsome⟩ := hr.sound r hm
          exact ⟨pair, List.mem_append_left _ hp, hsome⟩
        · refine ⟨_, List.mem_append_right _ (List.mem_singleton_self _), ?_⟩
          rw [← hres, hn, List.mem_singleton.1 hm]

/-! ### Storing the resolvents -/

/-- The occurrence lists hold the original clauses of each literal. -/
structure OccurrencesOk (s : Solver) (occurrences : Lit → List ClauseRef) : Prop where
  complete : ∀ l c, s.Original c → l ∈ s.literals c → c ∈ occurrences l
  sound : ∀ l, ∀ c ∈ occurrences l, s.Allocated c ∧ l ∈ s.literals c

/-- The clauses are stored, and the rest is as it was. -/
structure Installed (resolvents : List (List Lit)) (s s' : Solver) : Prop where
  trail : s'.toTrailState = s.toTrailState
  session : s'.toSession = s.toSession
  phase : s'.phase = s.phase
  deferred : s'.shadowDeferredRootConflict = s.shadowDeferredRootConflict
  old : ∀ c, s.Allocated c → s'.Allocated c ∧ s'.clause c = s.clause c
  stored : ∀ r ∈ resolvents, 2 ≤ r.length → ∃ c, s'.Original c ∧ s'.literals c = r
  new : ∀ c, s'.Allocated c → s.Allocated c ∨ s'.literals c ∈ resolvents ∧
    (s'.clause c).learned = false

lemma Installed.original (h : Installed resolvents s s') (hc : s.Original c) :
    s'.Original c ∧ s'.literals c = s.literals c := by
  obtain ⟨h1, h2⟩ := h.old c hc.1.1
  refine ⟨⟨⟨h1, ?_⟩, ?_⟩, congrArg Clause.literals h2⟩
  · exact (congrArg Clause.deleted h2).trans hc.1.2
  · exact (congrArg Clause.learned h2).trans hc.2

lemma Installed.append {more : List (List Lit)} {s₁ s₂ : Solver} (h : Installed resolvents s s₁)
    (h' : Installed more s₁ s₂) : Installed (resolvents ++ more) s s₂ where
  trail := h'.trail.trans h.trail
  session := h'.session.trans h.session
  phase := h'.phase.trans h.phase
  deferred := h'.deferred.trans h.deferred
  old c hc := by
    obtain ⟨h1, h2⟩ := h.old c hc
    obtain ⟨h3, h4⟩ := h'.old c h1
    exact ⟨h3, h4.trans h2⟩
  stored r hr hlen := by
    rcases List.mem_append.1 hr with hr | hr
    · obtain ⟨c, hc, hlits⟩ := h.stored r hr hlen
      obtain ⟨h1, h2⟩ := h'.original hc
      exact ⟨c, h1, h2.trans hlits⟩
    · exact h'.stored r hr hlen
  new c hc := by
    rcases h'.new c hc with hc' | ⟨hc', hl⟩
    · rcases h.new c hc' with h1 | ⟨h1, h2⟩
      · exact .inl h1
      · have heq := (h'.old c hc').2
        have hlits : s₂.literals c = s₁.literals c := congrArg Clause.literals heq
        refine .inr ⟨List.mem_append_left _ ?_, (congrArg Clause.learned heq).trans h2⟩
        rwa [hlits]
    · exact .inr ⟨List.mem_append_right _ hc', hl⟩

lemma AtRoot.logged (h : AtRoot P Γ s) (literals : List Lit) : AtRoot P Γ (s.proofAdd literals) := by
  obtain ⟨⟨h1, h2, h3, h4, h5, h6, h7, h8⟩, h9, h10⟩ := h
  exact ⟨⟨h1, h2, h3, h4, h5, h6, h7, h8⟩, h9.congr_done rfl rfl rfl, h10⟩

/-- A clause that may be stored, without literals that have a value. -/
def Storable (Γ : Set (List Lit)) (s : Solver) (r : List Lit) : Prop :=
  Insertable Γ s r ∧ ∀ l ∈ r, s.value l = none

lemma Storable.congr {r : List Lit} (h : Storable Γ s r)
    (ht : s'.toTrailState = s.toTrailState) (hs : s'.toSession = s.toSession) :
    Storable Γ s' r := by
  obtain ⟨⟨h1, h2, h3, h4⟩, h5⟩ := h
  refine ⟨⟨h1, ?_, ?_, h4⟩, ?_⟩
  · rwa [hs]
  · rwa [eliminatedVariables, hs]
  · rwa [ht]

/-- **Storing a clause** without assigned literals. -/
lemma AtRoot.installed {r : List Lit} (h : AtRoot P Γ s) (hr : Storable Γ s r)
    (hlen : 2 ≤ r.length) (logged : List Lit) :
    Installed [r] s ((s.proofAdd logged).addClauseToDb r false) ∧
      AtRoot P Γ ((s.proofAdd logged).addClauseToDb r false) := by
  obtain ⟨hins, hval⟩ : Storable Γ (s.proofAdd logged) r := hr.congr rfl rfl
  have hstore := (h.logged logged).store hins hlen fun l hl hd => by
    have hfalse := h.core.trail.done_value hd
    have hnone : s.value l = none := hval l (List.mem_of_mem_take hl)
    rw [hnone] at hfalse
    cases hfalse
  have hnew : ((s.proofAdd logged).addClauseToDb r false).clause (s.nextReference r) =
      ⟨r, false, false⟩ := ClauseDb.add_clause_next
  refine ⟨⟨rfl, rfl, rfl, rfl, fun c hc => ?_, fun r' hr' _ => ?_, fun c hc => ?_⟩, hstore.root⟩
  · exact ⟨ClauseDb.allocated_add.2 (.inl hc), ClauseDb.add_clause_of_allocated hc⟩
  · rw [List.mem_singleton.1 hr']
    exact ⟨_, original_next (s.proofAdd logged) r, congrArg Clause.literals hnew⟩
  · rcases ClauseDb.allocated_add.1 hc with hc | rfl
    · exact .inl hc
    · exact .inr ⟨List.mem_singleton.2 (congrArg Clause.literals hnew), congrArg Clause.learned hnew⟩

/-- The occurrence lists that follow a clause being stored. -/
lemma OccurrencesOk.store {occurrences : Lit → List ClauseRef} (ho : OccurrencesOk s occurrences)
    (r logged : List Lit) :
    OccurrencesOk ((s.proofAdd logged).addClauseToDb r false)
      fun l => if l ∈ r then occurrences l ++ [s.nextReference r] else occurrences l := by
  set s₁ := (s.proofAdd logged).addClauseToDb r false with hs₁
  have hold : ∀ c, s.Allocated c → s₁.Allocated c ∧ s₁.clause c = s.clause c := fun c hc =>
    ⟨ClauseDb.allocated_add.2 (.inl hc), ClauseDb.add_clause_of_allocated hc⟩
  have hinv : ∀ c, s₁.Allocated c → s.Allocated c ∨ c = s.nextReference r := fun c hc =>
    ClauseDb.allocated_add.1 hc
  have horig : s₁.Original (s.nextReference r) := original_next _ _
  have hnew : s₁.clause (s.nextReference r) = ⟨r, false, false⟩ := ClauseDb.add_clause_next
  have hlits : s₁.literals (s.nextReference r) = r := congrArg Clause.literals hnew
  constructor
  · intro l c hc hl
    rcases hinv c hc.1.1 with hca | rfl
    · have hceq := (hold c hca).2
      have hco : s.Original c :=
        ⟨⟨hca, (congrArg Clause.deleted hceq).symm.trans hc.1.2⟩,
          (congrArg Clause.learned hceq).symm.trans hc.2⟩
      have hlits' : s₁.literals c = s.literals c := congrArg Clause.literals hceq
      have hlc : l ∈ s.literals c := hlits' ▸ hl
      split
      · exact List.mem_append_left _ (ho.complete l c hco hlc)
      · exact ho.complete l c hco hlc
    · rw [hlits] at hl
      rw [if_pos hl]
      exact List.mem_append_right _ (List.mem_singleton_self _)
  · intro l c hc
    have hofOld : c ∈ occurrences l → s₁.Allocated c ∧ l ∈ s₁.literals c := fun hc => by
      obtain ⟨h1, h2⟩ := ho.sound l c hc
      obtain ⟨h3, h4⟩ := hold c h1
      rw [literals, h4]
      exact ⟨h3, h2⟩
    split at hc
    · next hl =>
      rcases List.mem_append.1 hc with hc | hc
      · exact hofOld hc
      · rw [List.mem_singleton.1 hc, hlits]
        exact ⟨horig.1.1, hl⟩
    · exact hofOld hc

lemma installResolvents_spec : ∀ (resolvents : List (List Lit))
    (occurrences : Lit → List ClauseRef) (s : Solver), AtRoot P Γ s →
    (∀ r ∈ resolvents, Storable Γ s r) → OccurrencesOk s occurrences →
    Installed resolvents s (installResolvents resolvents occurrences s).2 ∧
      AtRoot P Γ (installResolvents resolvents occurrences s).2 ∧
      OccurrencesOk (installResolvents resolvents occurrences s).2
        (installResolvents resolvents occurrences s).1
  | [], occurrences, s, h, _, ho =>
    ⟨⟨rfl, rfl, rfl, rfl, fun _ hc => ⟨hc, rfl⟩, by simp, fun _ hc => .inl hc⟩, h, ho⟩
  | r :: rest, occurrences, s, h, hr, ho => by
    have hrest : ∀ s₁ : Solver, s₁.toTrailState = s.toTrailState → s₁.toSession = s.toSession →
        ∀ r' ∈ rest, Storable Γ s₁ r' := fun s₁ ht hs r' hr' => (hr r' (by simp [hr'])).congr ht hs
    rw [installResolvents]
    split
    · next hlen =>
      have hlogged : Installed [r] s (s.proofAdd r) :=
        ⟨rfl, rfl, rfl, rfl, fun _ hc => ⟨hc, rfl⟩, fun r' hr' hlen' => by
          rw [List.mem_singleton.1 hr'] at hlen'
          omega, fun _ hc => .inl hc⟩
      obtain ⟨hi, hroot, ho'⟩ := installResolvents_spec rest occurrences (s.proofAdd r) (h.logged r)
        (hrest _ rfl rfl) ⟨ho.complete, ho.sound⟩
      exact ⟨hlogged.append hi, hroot, ho'⟩
    · next hlen =>
      obtain ⟨hi₁, hroot₁⟩ := h.installed (hr r (by simp)) (not_lt.1 hlen) r
      obtain ⟨hi, hroot, ho'⟩ := installResolvents_spec rest _ _ hroot₁ (hrest _ rfl rfl)
        (ho.store r r)
      exact ⟨hi₁.append hi, hroot, ho'⟩

/-! ### Deleting the clauses of the variable -/

/-- The clauses are deleted, and the rest is as it was. -/
structure Deleted (removed : List ClauseRef) (s s' : Solver) : Prop where
  trail : s'.toTrailState = s.toTrailState
  session : s'.toSession = s.toSession
  phase : s'.phase = s.phase
  deferred : s'.shadowDeferredRootConflict = s.shadowDeferredRootConflict
  allocated : ∀ c, s'.Allocated c ↔ s.Allocated c
  literals : ∀ c, s'.literals c = s.literals c
  learned : ∀ c, (s'.clause c).learned = (s.clause c).learned
  active : ∀ c, s'.Active c ↔ s.Active c ∧ c ∉ removed

lemma foldl_markClauseDeleted_spec : ∀ (removed : List ClauseRef) (s : Solver), AtRoot P Γ s →
    Deleted removed s (removed.foldl markClauseDeleted s) ∧
      AtRoot P Γ (removed.foldl markClauseDeleted s)
  | [], s, h => ⟨⟨rfl, rfl, rfl, rfl, fun _ => .rfl, fun _ => rfl, fun _ => rfl, by simp⟩, h⟩
  | c :: removed, s, h => by
    have h₁ : AtRoot P Γ (s.markClauseDeleted c) :=
      ⟨h.core.markClauseDeleted c, h.settled.markClauseDeleted' c, h.root⟩
    obtain ⟨hd, hroot⟩ := foldl_markClauseDeleted_spec removed (s.markClauseDeleted c) h₁
    refine ⟨⟨hd.trail, hd.session, hd.phase, hd.deferred, fun d => (hd.allocated d).trans
      ClauseDb.allocated_delete, fun d => (hd.literals d).trans literals_markClauseDeleted,
      fun d => (hd.learned d).trans learned_markClauseDeleted, fun d => ?_⟩, hroot⟩
    have hactive : (s.markClauseDeleted c).Active d ↔ s.Active d ∧ d ≠ c := ClauseDb.active_delete
    rw [List.foldl_cons, hd.active, hactive, List.mem_cons, not_or, and_assoc]

/-- The variable gets a value off the trail. -/
def withoutVariable (v : ℕ) (clauses : List (List Lit)) (s : Solver) : Solver :=
  { s with
    eliminationRecords := s.eliminationRecords ++ [⟨v, clauses⟩]
    assignments := Function.update s.assignments v (some (s.phase v))
    levels := Function.update s.levels v 0
    reasons := Function.update s.reasons v none }

lemma removeVariable_eq (v : ℕ) (removed : List ClauseRef) (clauses : List (List Lit))
    (s : Solver) :
    s.removeVariable v removed clauses = (removed.foldl markClauseDeleted s).withoutVariable v clauses :=
  rfl

lemma eliminated_withoutVariable (clauses : List (List Lit)) :
    (s.withoutVariable v clauses).eliminatedVariables = insert v s.eliminatedVariables := by
  ext w
  simp only [eliminatedVariables, withoutVariable, List.mem_append, List.mem_singleton,
    Set.mem_ofPred_eq, Set.mem_insert_iff]
  constructor
  · rintro ⟨r, hr | rfl, rfl⟩
    · exact .inr ⟨r, hr, rfl⟩
    · exact .inl rfl
  · rintro (rfl | ⟨r, hr, rfl⟩)
    · exact ⟨_, .inr rfl, rfl⟩
    · exact ⟨r, .inl hr, rfl⟩

lemma value_withoutVariable (clauses : List (List Lit)) (hl : l.var ≠ v) :
    (s.withoutVariable v clauses).value l = s.value l :=
  TrailState.value_congr (Function.update_of_ne hl _ _)

lemma levels_withoutVariable (clauses : List (List Lit)) (hl : l.var ≠ v) :
    (s.withoutVariable v clauses).levels l.var = s.levels l.var := Function.update_of_ne hl _ _

section

variable (h : AtRoot P Γ s) (hv : s.assignments v = none) (clauses : List (List Lit))
include h hv

/-- The variable is not on the trail. -/
lemma AtRoot.var_ne (hl : l ∈ s.trail) : l.var ≠ v := by
  rintro rfl
  rw [h.core.trail.assigned l hl] at hv
  cases hv

lemma AtRoot.trail_withoutVariable (hlt : v < s.variableCount) :
    (s.withoutVariable v clauses).toTrailState.Ok s.variableCount
      (insert v s.eliminatedVariables) := by
  have ht := h.core.trail
  refine ⟨ht.nodup, fun l hl => ?_, fun l hl => ?_, fun w hw => ?_, fun w hw => ?_, ht.sorted,
    ht.limits_le, ht.head_le, fun i l hl => ?_⟩
  · exact (Function.update_of_ne (h.var_ne hv hl) _ _).trans (ht.assigned l hl)
  · by_cases hlv : l.var = v
    · exact .inr (.inl hlv)
    · exact (ht.onTrail l ((Function.update_of_ne hlv _ _).symm.trans hl)).imp_right .inr
  · have hnot : v ∉ s.trail.map Literal.var := by
      rintro hm
      obtain ⟨l, hl, hlv⟩ := List.mem_map.1 hm
      exact h.var_ne hv hl hlv
    rcases hw with rfl | hw
    · refine ⟨?_, hnot⟩
      have hself : (s.withoutVariable w clauses).assignments w = some (s.phase w) :=
        Function.update_self ..
      rw [hself]
      simp
    · obtain ⟨h1, h2⟩ := ht.eliminated w hw
      have hwv : w ≠ v := by
        rintro rfl
        exact h1 hv
      refine ⟨?_, h2⟩
      have hother : (s.withoutVariable v clauses).assignments w = s.assignments w :=
        Function.update_of_ne hwv _ _
      rw [hother]
      exact h1
  · by_cases hwv : w = v
    · exact hwv ▸ hlt
    · have hother : (s.withoutVariable v clauses).assignments w = s.assignments w :=
        Function.update_of_ne hwv _ _
      rw [hother] at hw
      exact ht.lt w hw
  · have hmem : l ∈ s.trail := List.mem_of_getElem? hl
    exact (levels_withoutVariable clauses (h.var_ne hv hmem)).trans (ht.level i l hl)

/-- The variable occurs in no clause that is still needed. -/
lemma AtRoot.withoutVariable (hlt : v < s.variableCount)
    (hdef : s.shadowDeferredRootConflict = none)
    (hno : ∀ c, s.Allocated c → (s.clause c).deleted = false ∨ (s.clause c).learned = true →
      ∀ l ∈ s.literals c, l.var ≠ v) : AtRoot P Γ (s.withoutVariable v clauses) := by
  have hcore := h.core
  refine ⟨⟨?_, ?_, fun i l c hl hr => ?_, hcore.entailed, fun l hl h0 => ?_, fun c hc => ?_, ?_,
    hcore.seen⟩, fun c hc l hl hX hD => ?_, h.root⟩
  · rw [eliminated_withoutVariable]
    exact h.trail_withoutVariable hv clauses hlt
  · rw [eliminated_withoutVariable]
    refine { hcore.db with avoid := fun c hc hn l hl hm => ?_ }
    rcases hm with hm | hm
    · exact hno c hc hn l hl hm
    · exact hcore.db.avoid c hc hn l hl hm
  · refine hcore.reason i l c hl ?_
    have hother : (s.withoutVariable v clauses).reasons l.var = s.reasons l.var :=
      Function.update_of_ne (h.var_ne hv (List.mem_of_getElem? hl)) _ _
    rw [← hother]
    exact hr
  · refine hcore.root l hl ?_
    rw [← levels_withoutVariable clauses (h.var_ne hv hl)]
    exact h0
  · have hnone : s.shadowDeferredRootConflict = some c := hc
    rw [hdef] at hnone
    cases hnone
  · refine Branching.Ok.mono (b := (s.withoutVariable v clauses).toBranching) hcore.branching
      fun w hw => ?_
    by_cases hwv : w = v
    · exact hwv ▸ hv
    · exact (Function.update_of_ne hwv _ _).symm.trans hw
  · -- the watched clause does not mention the variable
    have hvar : ∀ q ∈ s.literals c, q.var ≠ v := hno c hc.1 (.inl hc.2)
    have hmem : l ∈ s.literals c := List.mem_of_mem_take hl
    have hs := h.settled c hc l hl hX hD
    have hlev := levels_withoutVariable (s := s) clauses (hvar l hmem)
    have htrue : s.RootTrue c → (s.withoutVariable v clauses).RootTrue c := by
      rintro ⟨q, hq, hqt, hq0⟩
      exact ⟨q, hq, (value_withoutVariable clauses (hvar q hq)).trans hqt,
        (levels_withoutVariable clauses (hvar q hq)).trans hq0⟩
    have hfalse : ∀ q ∈ s.literals c, s.RootFalse q → (s.withoutVariable v clauses).RootFalse q := by
      rintro q hq ⟨hqf, hq0⟩
      exact ⟨(value_withoutVariable clauses (hvar q hq)).trans hqf,
        (levels_withoutVariable clauses (hvar q hq)).trans hq0⟩
    refine ⟨fun hlearned => ?_, fun hshadow h0 => ?_, fun hshadow h0 => ?_⟩
    · obtain ⟨q, hq, hqt, hle⟩ := hs.original hlearned
      refine ⟨q, hq, (value_withoutVariable clauses (hvar q hq)).trans hqt, ?_⟩
      rw [hlev, levels_withoutVariable clauses (hvar q hq)]
      exact hle
    · refine (hs.active hshadow (hlev.symm.trans h0)).imp htrue fun hboth => ⟨hboth.1, ?_⟩
      exact fun q hq => hfalse q hq (hboth.2 q hq)
    · refine (hs.shadow hshadow (hlev.symm.trans h0)).imp htrue fun hrest q hq => ?_
      exact hfalse q (List.mem_of_mem_drop hq) (hrest q hq)

end

/-! ### Unit resolvents -/

lemma enqueueUnits_spec : ∀ (units : List Lit) (s : Solver), AtRoot P Γ s →
    (∀ l ∈ units, Insertable Γ s [l]) →
    match enqueueUnits units s with
    | (false, s') => Unsat Γ ∧ s'.toSession = s.toSession
    | (true, s') => AtRoot P Γ s' ∧ Kept s s' ∧ s'.toClauseDb = s.toClauseDb ∧
        s'.shadowDeferredRootConflict = s.shadowDeferredRootConflict ∧
        ∀ m, Satisfies m s' → ∀ l ∈ units, l.Holds m
  | [], s, h, _ => ⟨h, .refl s, rfl, rfl, by simp⟩
  | l :: rest, s, h, hi => by
    have hl := hi l (by simp)
    -- from a state in which the first unit holds
    have hrest : ∀ s₁, TakenIn P Γ [l] s s₁ → s₁.toClauseDb = s.toClauseDb →
        s₁.shadowDeferredRootConflict = s.shadowDeferredRootConflict →
        match enqueueUnits rest s₁ with
        | (false, s') => Unsat Γ ∧ s'.toSession = s.toSession
        | (true, s') => AtRoot P Γ s' ∧ Kept s s' ∧ s'.toClauseDb = s.toClauseDb ∧
            s'.shadowDeferredRootConflict = s.shadowDeferredRootConflict ∧
            ∀ m, Satisfies m s' → ∀ q ∈ l :: rest, q.Holds m := by
      intro s₁ ht hdb hdef
      have hspec := enqueueUnits_spec rest s₁ ht.root fun q hq => (hi q (by simp [hq])).kept ht.kept
      generalize enqueueUnits rest s₁ = r at hspec
      obtain ⟨answer, s₂⟩ := r
      cases answer with
      | false => exact ⟨hspec.1, hspec.2.trans ht.kept.session⟩
      | true =>
        obtain ⟨h1, h2, h3, h4, h5⟩ := hspec
        refine ⟨h1, ht.kept.trans h2, h3.trans hdb, h4.trans hdef, fun m hm q hq => ?_⟩
        rcases List.mem_cons.1 hq with rfl | hq
        · simpa using ht.sat m (hm.of_kept h2)
        · exact h5 m hm q hq
    rw [enqueueUnits, enqueue]
    cases hv : s.value l with
    | none =>
      rw [enqueueInternal_of_none true hv]
      exact hrest _ (h.assertUnit hl hv) rfl rfl
    | some b =>
      cases b with
      | true =>
        have he : s.enqueueInternal true l none = (true, s) := by simp [enqueueInternal, hv]
        rw [he]
        exact hrest s (h.satisfied hl (by simp) hv) rfl rfl
      | false =>
        have he : s.enqueueInternal true l none = (false, s) := by simp [enqueueInternal, hv]
        rw [he]
        exact ⟨h.refuted hl (by simpa using hv), rfl⟩

/-! ### One elimination -/

/-- What holds between two eliminations. -/
structure Eliminating (P : Prop) (Γ : Set (List Lit)) (occurrences : Lit → List ClauseRef)
    (s : Solver) : Prop extends Prepared P Γ s where
  occurs : OccurrencesOk s occurrences
  originals : ∀ c, s.Allocated c → (s.clause c).learned = false
  irreversible : s.irreversible = true

variable {occurrences : Lit → List ClauseRef}

lemma Eliminating.mem_active (h : Eliminating P Γ occurrences s) :
    c ∈ s.activeEliminationOccurrences occurrences l ↔ s.Original c ∧ l ∈ s.literals c := by
  rw [activeEliminationOccurrences, List.mem_filter, isOriginal, Bool.and_eq_true,
    Bool.not_eq_true', Bool.not_eq_true']
  constructor
  · rintro ⟨hm, hd, hl⟩
    obtain ⟨h1, h2⟩ := h.occurs.sound l c hm
    exact ⟨⟨⟨h1, hd⟩, hl⟩, h2⟩
  · rintro ⟨hc, hl⟩
    exact ⟨h.occurs.complete l c hc hl, hc.1.2, hc.2⟩

/-- The clauses of the variable. -/
def clausesOf (s : Solver) (occurrences : Lit → List ClauseRef) (v : ℕ) : List ClauseRef :=
  s.activeEliminationOccurrences occurrences ⟨v, true⟩ ++
    s.activeEliminationOccurrences occurrences ⟨v, false⟩

/-- The pairs of clauses to resolve. -/
def pairsOf (s : Solver) (occurrences : Lit → List ClauseRef) (v : ℕ) :
    List (ClauseRef × ClauseRef) :=
  (s.activeEliminationOccurrences occurrences ⟨v, true⟩).flatMap fun p =>
    (s.activeEliminationOccurrences occurrences ⟨v, false⟩).map fun n => (p, n)

lemma Eliminating.mem_clausesOf (h : Eliminating P Γ occurrences s) :
    c ∈ s.clausesOf occurrences v ↔ s.Original c ∧ ∃ l ∈ s.literals c, l.var = v := by
  rw [clausesOf, List.mem_append, h.mem_active, h.mem_active, ← and_or_left]
  refine and_congr_right fun _ => ⟨?_, ?_⟩
  · rintro (hl | hl)
    · exact ⟨_, hl, rfl⟩
    · exact ⟨_, hl, rfl⟩
  · rintro ⟨⟨w, b⟩, hl, rfl⟩
    cases b with
    | true => exact .inl hl
    | false => exact .inr hl

lemma Eliminating.mem_pairsOf (h : Eliminating P Γ occurrences s) :
    (p, n) ∈ s.pairsOf occurrences v ↔ (s.Original p ∧ ⟨v, true⟩ ∈ s.literals p) ∧
      s.Original n ∧ ⟨v, false⟩ ∈ s.literals n := by
  simp only [pairsOf, List.mem_flatMap, List.mem_map, Prod.mk.injEq, h.mem_active]
  constructor
  · rintro ⟨p', hp, n', hn, rfl, rfl⟩
    exact ⟨hp, hn⟩
  · exact fun ⟨hp, hn⟩ => ⟨p, hp, n, hn, rfl, rfl⟩

section

variable (h : Eliminating P Γ occurrences s) (hr : ResolventsOk s v (s.pairsOf occurrences v) resolvents)
include h hr

/-- The resolvents do not mention the variable. -/
lemma Eliminating.storable {r : List Lit} (hm : r ∈ resolvents) :
    Storable Γ s r ∧ ∀ l ∈ r, l.var ≠ v := by
  obtain ⟨⟨p, n⟩, hpair, hsome⟩ := hr.sound r hm
  obtain ⟨⟨hp, hpv⟩, hn, hnv⟩ := h.mem_pairsOf.1 hpair
  have hres := eliminationResolvent_some hsome
  have hmem := hres.resolves.mem
  have hcore := h.core
  refine ⟨⟨⟨hres.nodup, fun l hl => ?_, fun l hl => ?_, ?_⟩, hres.unassigned⟩, fun l hl =>
    (hmem l hl).2⟩
  · rcases (hmem l hl).1 with hl | hl
    · exact hcore.db.lt p hp.1.1 l hl
    · exact hcore.db.lt n hn.1.1 l hl
  · rcases (hmem l hl).1 with hl | hl
    · exact hcore.active_var hp.1 hl
    · exact hcore.active_var hn.1 hl
  · refine hres.resolves.entails (hcore.hasPivot hp.1.1 hpv) (hcore.hasPivot hn.1.1 hnv)
      (hcore.entailed p hp.1.1) (hcore.entailed n hn.1.1) fun l hl => ?_
    obtain ⟨hfalse, hl⟩ := hl
    have havoid : l.var ∉ s.eliminatedVariables := by
      rcases hl with hl | hl
      · exact hcore.active_var hp.1 hl
      · exact hcore.active_var hn.1 hl
    have hneg := (hcore.trail.neg_mem_iff havoid).2 hfalse
    exact hcore.root (-l) hneg (h.level hneg)

/-- A model of the resolvents that agrees with the root satisfies each pair off the variable. -/
lemma Eliminating.satOff (hroot : ∀ l ∈ s.trail, l.Holds m) (hm : ∀ r ∈ resolvents, Sat m r)
    (hp : s.Original p) (hpv : ⟨v, true⟩ ∈ s.literals p) (hn : s.Original n)
    (hnv : ⟨v, false⟩ ∈ s.literals n) : SatOff m v (s.literals p) ∨ SatOff m v (s.literals n) := by
  have hpair : (p, n) ∈ s.pairsOf occurrences v := h.mem_pairsOf.2 ⟨⟨hp, hpv⟩, hn, hnv⟩
  cases hres : s.eliminationResolvent p n v with
  | none =>
    refine eliminationResolvent_none (fun l ht _ hl => hroot l ?_) hres
    refine (h.core.trail.mem_iff ?_).2 ht
    rcases hl with hl | hl
    · exact h.core.active_var hp.1 hl
    · exact h.core.active_var hn.1 hl
  | some r => exact (eliminationResolvent_some hres).resolves.satOff (hm r (hr.all _ hpair r hres))

/-- **The step back**: a model of the resolvents, of the other clauses and of the root assignment
is completed to a model of all clauses. -/
lemma Eliminating.restore (hv : s.assignments v = none) (hroot : ∀ l ∈ s.trail, l.Holds m)
    (hm : ∀ r ∈ resolvents, Sat m r)
    (hothers : ∀ c, s.Original c → c ∉ s.clausesOf occurrences v → Sat m (s.literals c)) :
    ∃ m', extendRecord m ⟨v, (s.clausesOf occurrences v).map s.literals⟩ = some m' ∧
      Satisfies m' s := by
  have hcore := h.core
  have horiginal : ∀ c ∈ s.clausesOf occurrences v, s.Original c := fun c hc =>
    (h.mem_clausesOf.1 hc).1
  have hpivot : ∀ clause ∈ (s.clausesOf occurrences v).map s.literals, ∃ b,
      HasPivot ⟨v, b⟩ clause := by
    intro clause hc
    obtain ⟨c, hmem, rfl⟩ := List.mem_map.1 hc
    obtain ⟨hco, ⟨w, b⟩, hl, rfl⟩ := h.mem_clausesOf.1 hmem
    exact ⟨b, hcore.hasPivot hco.1.1 hl⟩
  have hpairs : ∀ clause ∈ (s.clausesOf occurrences v).map s.literals,
      ∀ clause' ∈ (s.clausesOf occurrences v).map s.literals, HasPivot ⟨v, true⟩ clause →
        HasPivot ⟨v, false⟩ clause' → SatOff m v clause ∨ SatOff m v clause' := by
    intro clause hc clause' hc' hpv hnv
    obtain ⟨c, hmem, rfl⟩ := List.mem_map.1 hc
    obtain ⟨c', hmem', rfl⟩ := List.mem_map.1 hc'
    exact h.satOff hr hroot hm (horiginal c hmem) hpv.mem (horiginal c' hmem') hnv.mem
  obtain ⟨m', h1, h2, h3⟩ := extendRecord_spec
    (r := ⟨v, (s.clausesOf occurrences v).map s.literals⟩) hpivot hpairs
  refine ⟨m', h1, fun c hc => ?_, fun l hl _ => ?_⟩
  · by_cases hmem : c ∈ s.clausesOf occurrences v
    · exact h3 _ (List.mem_map_of_mem hmem)
    · obtain ⟨l, hl, ht⟩ := hothers c hc hmem
      refine ⟨l, hl, (h2 l.var fun hlv => hmem ?_).trans ht⟩
      exact h.mem_clausesOf.2 ⟨hc, l, hl, hlv⟩
  · exact (h2 l.var (h.toAtRoot.var_ne hv hl)).trans (hroot l hl)

end

/-- The state when the clauses of the variable have been replaced, before the unit resolvents. -/
def replaced (s : Solver) (occurrences : Lit → List ClauseRef) (v : ℕ)
    (resolvents : List (List Lit)) : Solver :=
  (installResolvents resolvents occurrences s).2.removeVariable v (s.clausesOf occurrences v)
    ((s.clausesOf occurrences v).map s.literals)

/-- What holds of the state in which the clauses have been replaced. -/
structure Replaced (P : Prop) (Γ : Set (List Lit)) (occurrences : Lit → List ClauseRef) (v : ℕ)
    (resolvents : List (List Lit)) (s s' : Solver) : Prop extends AtRoot P Γ s' where
  session : s'.toSession = { s.toSession with
    eliminationRecords :=
      s.eliminationRecords ++ [⟨v, (s.clausesOf occurrences v).map s.literals⟩] }
  deferred : s'.shadowDeferredRootConflict = none
  trail : s'.trail = s.trail
  occurs : OccurrencesOk s' (installResolvents resolvents occurrences s).1
  originals : ∀ c, s'.Allocated c → (s'.clause c).learned = false
  kept : ∀ c, s.Original c → c ∉ s.clausesOf occurrences v →
    s'.Original c ∧ s'.literals c = s.literals c
  stored : ∀ r ∈ resolvents, 2 ≤ r.length → ∃ c, s'.Original c ∧ s'.literals c = r

lemma Eliminating.replaced (h : Eliminating P Γ occurrences s) (hv : s.assignments v = none)
    (hlt : v < s.variableCount)
    (hr : ResolventsOk s v (s.pairsOf occurrences v) resolvents) :
    Replaced P Γ occurrences v resolvents s (s.replaced occurrences v resolvents) := by
  obtain ⟨hi, hroot₁, hocc⟩ := installResolvents_spec resolvents occurrences s h.toAtRoot
    (fun r hm => (h.storable hr hm).1) h.occurs
  set s₁ := (installResolvents resolvents occurrences s).2 with hs₁
  obtain ⟨hd, hroot₂⟩ := foldl_markClauseDeleted_spec (s.clausesOf occurrences v) s₁ hroot₁
  set s₂ := (s.clausesOf occurrences v).foldl markClauseDeleted s₁ with hs₂
  have hsession : s₂.toSession = s.toSession := hd.session.trans hi.session
  have htrail : s₂.toTrailState = s.toTrailState := hd.trail.trans hi.trail
  have hdef : s₂.shadowDeferredRootConflict = none :=
    (hd.deferred.trans hi.deferred).trans h.deferred
  have horiginals : ∀ c, s₂.Allocated c → (s₂.clause c).learned = false := by
    intro c hc
    rw [hd.learned]
    rcases hi.new c ((hd.allocated c).1 hc) with hc | hc
    · rw [(hi.old c hc).2]
      exact h.originals c hc
    · exact hc.2
  -- the clauses that are left do not mention the variable
  have hno : ∀ c, s₂.Allocated c → (s₂.clause c).deleted = false ∨ (s₂.clause c).learned = true →
      ∀ l ∈ s₂.literals c, l.var ≠ v := by
    intro c hc hn l hl hlv
    have hactive : s₂.Active c := ⟨hc, hn.resolve_right (by simp [horiginals c hc])⟩
    obtain ⟨hactive₁, hnot⟩ := (hd.active c).1 hactive
    rw [hd.literals] at hl
    rcases hi.new c hactive₁.1 with hold | hnew
    · have hclause := (hi.old c hold).2
      refine hnot (h.mem_clausesOf.2 ⟨⟨⟨hold, ?_⟩, h.originals c hold⟩, l, ?_, hlv⟩)
      · rw [← hclause]
        exact hactive₁.2
      · rw [literals, ← hclause]
        exact hl
    · exact (h.storable hr hnew.1).2 l hl hlv
  have hv₂ : s₂.assignments v = none := by
    rw [congrArg TrailState.assignments htrail]
    exact hv
  have hlt₂ : v < s₂.variableCount := by
    rw [congrArg Session.variableCount hsession]
    exact hlt
  have horig : ∀ c, s₁.Original c → c ∉ s.clausesOf occurrences v →
      s₂.Original c ∧ s₂.literals c = s₁.literals c := fun c hc hn =>
    ⟨⟨(hd.active c).2 ⟨hc.1, hn⟩, (hd.learned c).trans hc.2⟩, hd.literals c⟩
  refine ⟨hroot₂.withoutVariable hv₂ _ hlt₂ hdef hno, ?_, hdef,
    (congrArg TrailState.trail htrail :), ⟨fun l c hc hl => ?_, fun l c hc => ?_⟩, horiginals,
    fun c hc hn => ?_, fun r hm hlen => ?_⟩
  · change ({ s₂.toSession with eliminationRecords := _ } : Session) = _
    rw [hsession]
  · have hc₁ : s₁.Original c :=
      ⟨((hd.active c).1 hc.1).1, (hd.learned c).symm.trans hc.2⟩
    exact hocc.complete l c hc₁ ((hd.literals c) ▸ hl)
  · obtain ⟨h1, h2⟩ := hocc.sound l c hc
    exact ⟨(hd.allocated c).2 h1, (hd.literals c).symm ▸ h2⟩
  · obtain ⟨h1, h2⟩ := hi.original hc
    obtain ⟨h3, h4⟩ := horig c h1 hn
    exact ⟨h3, h4.trans h2⟩
  · obtain ⟨c, hc, hlits⟩ := hi.stored r hm hlen
    have hnot : c ∉ s.clausesOf occurrences v := by
      intro hmem
      obtain ⟨hco, l, hl, hlv⟩ := h.mem_clausesOf.1 hmem
      rw [← (hi.original hco).2, hlits] at hl
      exact (h.storable hr hm).2 l hl hlv
    obtain ⟨h1, h2⟩ := horig c hc hnot
    exact ⟨c, h1, h2.trans hlits⟩

/-- How an elimination ends. -/
inductive EliminationOk (P : Prop) (Γ : Set (List Lit)) (s : Solver) :
    Bool × (Lit → List ClauseRef) × Solver → Prop
  | refuted (occurrences : Lit → List ClauseRef) (s' : Solver) (unsat : Unsat Γ)
      (frame : PassFrame s s') : EliminationOk P Γ s (false, occurrences, s')
  | done (occurrences : Lit → List ClauseRef) (s' : Solver)
      (eliminating : Eliminating P Γ occurrences s') (frame : PassFrame s s') :
      EliminationOk P Γ s (true, occurrences, s')

lemma Replaced.frame (h : Replaced P Γ occurrences v resolvents s s')
    (hirr : s.irreversible = true) : PassFrame s s' := by
  refine ⟨?_, ?_, by simp [hirr]⟩
  · rw [h.session]
  · rw [congrArg Session.variableCount h.session]

/-- **An elimination** keeps what the models are. -/
lemma commitElimination_spec (O : Oracle) (h : Eliminating P Γ occurrences s)
    (hv : s.assignments v = none) (hlt : v < s.variableCount)
    (hr : ResolventsOk s v (s.pairsOf occurrences v) resolvents) :
    EliminationOk P Γ s
      (commitElimination O v (s.clausesOf occurrences v) resolvents occurrences s) := by
  have hrep := h.replaced hv hlt hr
  have hframe := hrep.frame h.irreversible
  have hcommit : commitElimination O v (s.clausesOf occurrences v) resolvents occurrences s =
      ((installUnits O resolvents (s.replaced occurrences v resolvents)).1,
        (installResolvents resolvents occurrences s).1,
        (installUnits O resolvents (s.replaced occurrences v resolvents)).2) := rfl
  rw [hcommit, installUnits]
  set s₃ := s.replaced occurrences v resolvents with hs₃
  split
  · next hempty =>
    obtain ⟨r, hm, he⟩ := List.any_eq_true.1 hempty
    obtain rfl : r = [] := List.isEmpty_iff.1 he
    exact .refuted _ _ (h.storable hr hm).1.1.entailed.unsat_of_nil hframe
  next hempty =>
  have hmem : ∀ l, l ∈ (resolvents.filter fun r => decide (r.length = 1)).flatten ↔
      [l] ∈ resolvents := by
    intro l
    simp only [List.mem_flatten, List.mem_filter, decide_eq_true_eq]
    constructor
    · rintro ⟨r, ⟨hr, hlen⟩, hl⟩
      obtain ⟨q, rfl⟩ := List.length_eq_one_iff.1 hlen
      rw [List.mem_singleton.1 hl]
      exact hr
    · exact fun hl => ⟨[l], ⟨hl, rfl⟩, List.mem_singleton_self l⟩
  have helim : s₃.eliminatedVariables = insert v s.eliminatedVariables := by
    have hrec := congrArg Session.eliminationRecords hrep.session
    ext w
    simp only [eliminatedVariables, hrec, List.mem_append, List.mem_singleton, Set.mem_ofPred_eq,
      Set.mem_insert_iff, or_and_right, exists_or, exists_eq_left]
    rw [or_comm, eq_comm]
  have hunits := enqueueUnits_spec (resolvents.filter fun r => decide (r.length = 1)).flatten s₃
    hrep.toAtRoot fun l hl => by
      obtain ⟨⟨⟨h1, h2, h3, h4⟩, -⟩, hne⟩ := h.storable hr ((hmem l).1 hl)
      refine ⟨h1, ?_, fun q hq => ?_, h4⟩
      · rw [congrArg Session.variableCount hrep.session]
        exact h2
      · rw [helim]
        exact fun hm => hm.elim (hne q hq) (h3 q hq)
  generalize enqueueUnits (resolvents.filter fun r => decide (r.length = 1)).flatten s₃ = r at hunits
  obtain ⟨answer, s₄⟩ := r
  cases answer with
  | false => exact .refuted _ _ hunits.1 (hframe.trans (.of_session hunits.2))
  | true =>
    obtain ⟨hroot₄, hk₄, hdb₄, hdef₄, hholds⟩ := hunits
    have hdef : s₄.shadowDeferredRootConflict = none := hdef₄.trans hrep.deferred
    have hidle : s₄.searchControlActive = false := by
      rw [congrArg Session.searchControlActive hk₄.session,
        congrArg Session.searchControlActive hrep.session]
      exact h.idle
    have hprop := hroot₄.propagateInternal O hidle hdef
      (show PropagationMode.ignored {} = none from rfl)
    dsimp only
    rw [propagate, hdef]
    dsimp only
    generalize s₄.propagateInternal O {} = r at hprop
    obtain ⟨conflict, s₅⟩ := r
    cases conflict with
    | some c =>
      exact .refuted _ _ hprop.1 (hframe.trans (.of_session (hprop.2.trans hk₄.session)))
    | none =>
      obtain ⟨hroot₅, hhead, hdef₅, hk₅, hsame⟩ := hprop
      have hk : Kept s₃ s₅ := hk₄.trans hk₅
      rw [hdb₄] at hsame
      refine .done _ _ ⟨⟨hroot₅, hhead, hdef₅, ?_, fun m hcl hrt => ?_⟩,
        ⟨fun l c hc hl => ?_, fun l c hc => ?_⟩, fun c hc => ?_, ?_⟩
        (hframe.trans (.of_session hk.session))
      · rw [congrArg Session.searchControlActive hk₅.session]
        exact hidle
      · -- a model is completed one elimination further
        have hm₃ : Satisfies m s₃ := Satisfies.of_kept ⟨hcl, hrt⟩ hk
        have hroot : ∀ l ∈ s.trail, l.Holds m := fun l hl => by
          have hl₃ : l ∈ s₃.trail := by
            rw [hrep.trail]
            exact hl
          exact hm₃.2 l hl₃ (hrep.toAtRoot.level hl₃)
        have hres : ∀ r ∈ resolvents, Sat m r := by
          intro r hmr
          rcases lt_or_ge r.length 2 with hshort | hlong
          · have hne : r ≠ [] := by
              rintro rfl
              exact hempty (List.any_eq_true.2 ⟨[], hmr, rfl⟩)
            obtain ⟨l, rfl⟩ := List.length_eq_one_iff.1
              (by have := List.length_pos_iff.2 hne; omega : r.length = 1)
            exact ⟨l, List.mem_singleton_self l,
              hholds m (Satisfies.of_kept ⟨hcl, hrt⟩ hk₅) l ((hmem l).2 hmr)⟩
          · obtain ⟨c, hc, hlits⟩ := hrep.stored r hmr hlong
            exact hlits ▸ hm₃.1 c hc
        obtain ⟨m', h1, h2⟩ := h.restore hr hv hroot hres fun c hc hn => by
          obtain ⟨h3, h4⟩ := hrep.kept c hc hn
          exact h4 ▸ hm₃.1 c h3
        obtain ⟨m'', h3, h4⟩ := h.complete m' h2.1 h2.2
        refine ⟨m'', ?_, h4⟩
        rw [extendModel, congrArg Session.eliminationRecords hk.session,
          congrArg Session.eliminationRecords hrep.session, List.reverse_append,
          List.reverse_singleton, List.singleton_append, List.foldlM_cons]
        rw [h1]
        exact h3
      · exact hrep.occurs.complete l c (hsame.original.1 hc) (hsame.mem.1 hl)
      · obtain ⟨h1, h2⟩ := hrep.occurs.sound l c hc
        exact ⟨hsame.allocated.2 h1, hsame.mem.2 h2⟩
      · rw [hsame.learned]
        exact hrep.originals c (hsame.allocated.1 hc)
      · rw [irreversible, congrArg Session.config hk.session, congrArg Session.config hrep.session]
        exact h.irreversible

/-! ### The pass -/

lemma EffortOnly.eliminating (he : EffortOnly s s') (h : Eliminating P Γ occurrences s) :
    Eliminating P Γ occurrences s' := by
  have hp := he.prepared h.toPrepared
  obtain ⟨k, rfl⟩ := he
  exact ⟨hp, ⟨h.occurs.complete, h.occurs.sound⟩, h.originals, h.irreversible⟩

lemma EffortOnly.frame (he : EffortOnly s s') : PassFrame s s' := by
  obtain ⟨k, rfl⟩ := he
  exact .of_session rfl

/-- What the pass comes to. -/
def PassEliminated (P : Prop) (Γ : Set (List Lit)) (s : Solver) (r : Bool × Solver) : Prop :=
  PassOk P Γ s r ∧ (r.1 = true → ∀ c, r.2.Allocated c → (r.2.clause c).learned = false)

lemma Eliminating.passEliminated (h : Eliminating P Γ occurrences s') (hf : PassFrame s s') :
    PassEliminated P Γ s (true, s') := ⟨.done s' h.toPrepared hf, fun _ => h.originals⟩

lemma PassEliminated.of_frame {s₁ : Solver} {r : Bool × Solver} (hf : PassFrame s s₁)
    (h : PassEliminated P Γ s₁ r) : PassEliminated P Γ s r := ⟨h.1.of_frame hf, h.2⟩

lemma eliminateScheduled_spec (O : Oracle) (budget : ℕ) : ∀ (schedule : List ℕ)
    (occurrences : Lit → List ClauseRef) (s : Solver), Eliminating P Γ occurrences s →
    (∀ v ∈ schedule, v < s.variableCount) →
    PassEliminated P Γ s (eliminateScheduled O budget schedule occurrences s)
  | [], _, s, h, _ => h.passEliminated (.refl s)
  | v :: rest, occurrences, s, h, hlt => by
    have hrest : ∀ (occurrences' : Lit → List ClauseRef) (s' : Solver), PassFrame s s' →
        Eliminating P Γ occurrences' s' →
        PassEliminated P Γ s (eliminateScheduled O budget rest occurrences' s') := by
      intro occurrences' s' hf h'
      refine .of_frame hf (eliminateScheduled_spec O budget rest occurrences' s' h' fun w hw => ?_)
      exact (hlt w (by simp [hw])).trans_le hf.count
    rw [eliminateScheduled]
    split
    · exact h.passEliminated (.refl s)
    split
    · exact hrest occurrences s (.refl s) h
    next hassigned =>
    have hv : s.assignments v = none := by simpa using hassigned
    dsimp only
    split
    · exact hrest occurrences s (.refl s) h
    have hsearch := collectResolvents_spec (s := s) (v := v) budget
      ((s.activeEliminationOccurrences occurrences ⟨v, true⟩).length +
        (s.activeEliminationOccurrences occurrences ⟨v, false⟩).length)
      (s.pairsOf occurrences v) [] [] s ⟨_, rfl⟩ ⟨by simp, by simp⟩
    rw [pairsOf] at hsearch
    generalize collectResolvents v budget _ _ [] s = r at hsearch
    obtain ⟨outcome, s₁⟩ := r
    obtain ⟨he, hfound⟩ := hsearch
    have h₁ := he.eliminating h
    cases outcome with
    | exhausted => exact h₁.passEliminated he.frame
    | rejected => exact hrest occurrences s₁ he.frame h₁
    | found resolvents =>
      have hr : ResolventsOk s v (s.pairsOf occurrences v) resolvents := hfound resolvents rfl
      have hclauses : s.clausesOf occurrences v = s₁.clausesOf occurrences v := by
        obtain ⟨k, rfl⟩ := he
        rfl
      have hcommit : EliminationOk P Γ s₁ (commitElimination O v (s₁.clausesOf occurrences v)
          resolvents occurrences s₁) := by
        refine commitElimination_spec O h₁ ?_ ?_ ⟨fun pair hp r hsome => ?_, fun r hm => ?_⟩
        · obtain ⟨k, rfl⟩ := he
          exact hv
        · exact (hlt v (by simp)).trans_le he.frame.count
        · rw [he.eliminationResolvent] at hsome
          obtain ⟨k, rfl⟩ := he
          exact hr.all pair hp r hsome
        · obtain ⟨pair, hp, hsome⟩ := hr.sound r hm
          refine ⟨pair, ?_, (he.eliminationResolvent _ _ _).trans hsome⟩
          obtain ⟨k, rfl⟩ := he
          exact hp
      rw [← hclauses, clausesOf] at hcommit
      dsimp only
      generalize commitElimination O v _ resolvents occurrences s₁ = r at hcommit
      cases hcommit with
      | refuted occurrences' s₂ hu hf => exact ⟨.refuted s₂ hu (he.frame.trans hf), by simp⟩
      | done occurrences' s₂ h₂ hf => exact hrest occurrences' s₂ (he.frame.trans hf) h₂

/-- The occurrence lists with which the pass starts. -/
lemma occurrencesOk_start (s : Solver) : OccurrencesOk s s.eliminationOccurrences := by
  constructor
  · intro l c hc hl
    rw [eliminationOccurrences, List.mem_filter, ClauseDb.mem_clauseReferences, Bool.and_eq_true,
      decide_eq_true_eq, isOriginal]
    exact ⟨hc.1.1, by simp [hc.1.2, hc.2], hl⟩
  · intro l c hc
    rw [eliminationOccurrences, List.mem_filter, ClauseDb.mem_clauseReferences, Bool.and_eq_true,
      decide_eq_true_eq] at hc
    exact ⟨hc.1, hc.2.2⟩

/-- **Bounded variable elimination** finds the clauses inconsistent, or leaves clauses from whose
models `extend_model` makes models of the given ones. -/
theorem eliminateVariables_spec (O : Oracle) (h : Prepared P Γ s)
    (horiginals : ∀ c, s.Allocated c → (s.clause c).learned = false)
    (hirr : s.irreversible = true) : PassEliminated P Γ s (s.eliminateVariables O) := by
  refine eliminateScheduled_spec O _ _ _ s ⟨h, occurrencesOk_start s, horiginals, hirr⟩
    fun v hv => ?_
  rw [eliminationSchedule, List.mem_insertionSort, List.mem_filter, List.mem_range] at hv
  exact hv.1

end Solver

end Satrap
