/-
# Factoring is a conservative rewrite

A plan covers a complete product of factors and quotients by clauses that are stored.  Under the
root trail these clauses say that all factors or all quotients hold, so the clauses of the fresh
variable can replace them: the models over the old variables stay the same.
-/
import Satrap.Solver.Elimination
import Satrap.Solver.Factor
import Satrap.Logic.Factor
import Mathlib.Data.List.Destutter

namespace Satrap

open Logic

namespace Solver

variable {P : Prop}
variable {Γ Δ : Set (List Lit)} {O : Oracle} {s s' t : Solver} {c d : ClauseRef} {l f : Lit}
  {m : ℕ → Bool} {q lits : List Lit} {plan : FactorPlan}

/-! ### The clauses of a snapshot -/

/-- The root trail holds under the assignment. -/
def RootHolds (m : ℕ → Bool) (s : Solver) : Prop := ∀ l ∈ s.trail, s.levels l.var = 0 → l.Holds m

/-- The literals of a snapshot are the unassigned ones of the clause, each once. -/
lemma factorLiterals_spec (h : s.factorLiterals c = some lits) :
    lits.Nodup ∧ 2 ≤ lits.length ∧ (∀ l ∈ s.literals c, s.value l ≠ some true) ∧
      ∀ l, l ∈ lits ↔ l ∈ s.literals c ∧ s.value l = none := by
  rw [factorLiterals] at h
  dsimp only at h
  split at h
  · cases h
  next hopen =>
  split at h
  · cases h
  next hlen =>
  obtain rfl := Option.some.inj h
  simp only [not_or, List.any_eq_true, decide_eq_true_eq, not_exists, not_and] at hopen
  refine ⟨List.nodup_dedup _, not_lt.1 hlen, hopen.1, fun l => ?_⟩
  rw [List.mem_dedup, (sortLiterals_spec _).2.mem_iff, List.mem_filter, decide_eq_true_eq]
  rfl

/-- The clause is the one for this factor and this quotient. -/
def Covers (s : Solver) (c : ClauseRef) (f : Lit) (q : List Lit) : Prop :=
  s.Original c ∧ ∃ lits, s.factorLiterals c = some lits ∧ f ∈ lits ∧
    q = lits.filter fun l => decide (l ≠ f)

namespace Covers

lemma mem_iff (h : Covers s c f q) : l ∈ f :: q ↔ l ∈ s.literals c ∧ s.value l = none := by
  obtain ⟨-, lits, hlits, hf, rfl⟩ := h
  obtain ⟨-, -, -, hmem⟩ := factorLiterals_spec hlits
  rw [← hmem, List.mem_cons, List.mem_filter, decide_eq_true_eq]
  by_cases hlf : l = f
  · simp [hlf, hf]
  · simp [hlf]

lemma quotient_ne_nil (h : Covers s c f q) : q ≠ [] := by
  obtain ⟨-, lits, hlits, -, rfl⟩ := h
  obtain ⟨hnodup, hlen, -, -⟩ := factorLiterals_spec hlits
  intro hnil
  have hall : ∀ l ∈ lits, l = f := by
    simpa [List.filter_eq_nil_iff] using hnil
  have : lits.length ≤ 1 := by
    match lits, hall, hnodup with
    | [], _, _ => simp
    | [_], _, _ => simp
    | a :: b :: rest, hall, hnodup =>
      have : a ≠ b := fun hab => (List.nodup_cons.1 hnodup).1 (by simp [hab])
      exact absurd ((hall a (by simp)).trans (hall b (by simp)).symm) this
  omega

lemma nodup (h : Covers s c f q) (hdb : ((s.literals c).map Literal.var).Nodup) :
    ((f :: q).map Literal.var).Nodup := by
  have hmem := fun l => h.mem_iff (l := l)
  obtain ⟨-, lits, hlits, -, rfl⟩ := h
  obtain ⟨hnodup, -, -, -⟩ := factorLiterals_spec hlits
  have hnodup' : (f :: lits.filter fun l => decide (l ≠ f)).Nodup :=
    List.nodup_cons.2 ⟨by simp, hnodup.filter _⟩
  refine hnodup'.map_on fun a ha b hb hab => ?_
  exact List.inj_on_of_nodup_map hdb ((hmem a).1 ha).1 ((hmem b).1 hb).1 hab

/-- Under the root trail the clause says that the factor or the quotient holds. -/
lemma sat_iff (h : Covers s c f q) (hs : AtRoot P Γ s) (hm : RootHolds m s) :
    Sat m (s.literals c) ↔ f.Holds m ∨ Sat m q := by
  have hmem := fun l => h.mem_iff (l := l)
  obtain ⟨horig, lits, hlits, -, -⟩ := h
  obtain ⟨-, -, hopen, -⟩ := factorLiterals_spec hlits
  rw [← sat_cons]
  constructor
  · rintro ⟨l, hl, ht⟩
    refine ⟨l, (hmem l).2 ⟨hl, ?_⟩, ht⟩
    cases hv : s.value l with
    | none => rfl
    | some b =>
      cases b with
      | true => exact absurd hv (hopen l hl)
      | false =>
        have hneg := (hs.core.trail.neg_mem_iff (hs.core.active_var horig.1 hl)).2 hv
        exact absurd ht (Literal.holds_neg.1 (hm _ hneg (hs.level hneg)))
  · rintro ⟨l, hl, ht⟩
    exact ⟨l, ((hmem l).1 hl).1, ht⟩

end Covers

/-! ### Plans -/

/-- The clauses of the plan are the product of its factors and its quotients. -/
structure Fits (s : Solver) (plan : FactorPlan) : Prop where
  covers : ∀ c ∈ plan.matrix, ∃ f ∈ plan.factors, ∃ q ∈ plan.quotients, Covers s c f q
  complete : ∀ f ∈ plan.factors, ∀ q ∈ plan.quotients, ∃ c ∈ plan.matrix, Covers s c f q
  factors : plan.factors ≠ []
  quotients : plan.quotients ≠ []

/-- Under the root trail the clauses of the plan say that all factors or all quotients hold. -/
lemma Fits.sat_iff (h : Fits s plan) (hs : AtRoot P Γ s) (hm : RootHolds m s) :
    (∀ c ∈ plan.matrix, Sat m (s.literals c)) ↔ Choice m plan.factors plan.quotients := by
  rw [← product_iff_choice]
  constructor
  · intro hall f hf q hq
    obtain ⟨c, hc, hcov⟩ := h.complete f hf q hq
    exact (hcov.sat_iff hs hm).1 (hall c hc)
  · intro hall c hc
    obtain ⟨f, hf, q, hq, hcov⟩ := h.covers c hc
    exact (hcov.sat_iff hs hm).2 (hall f hf q hq)

/-- The references of a neighborhood hold the clauses of its quotients, in order. -/
lemma factorNeighborhood_spec (s : Solver) (f : Lit) :
    List.Forall₂ (fun q c => Covers s c f q) (factorNeighborhood s.factorSnapshot f).1
      (factorNeighborhood s.factorSnapshot f).2.1 := by
  rw [factorNeighborhood]
  dsimp only
  rw [List.forall₂_map_left_iff, List.forall₂_map_right_iff, List.forall₂_same]
  intro e he
  have he := (List.perm_insertionSort _ _).mem_iff.1 ((List.destutter_sublist _ _).mem he)
  obtain ⟨candidate, hcand, rfl⟩ := List.mem_map.1 he
  obtain ⟨hcand, hf⟩ := List.mem_filter.1 hcand
  obtain ⟨c, hc, hmap⟩ := List.mem_filterMap.1 hcand
  obtain ⟨lits, hlits, rfl⟩ := Option.map_eq_some_iff.1 hmap
  obtain ⟨hc, horig⟩ := List.mem_filter.1 hc
  rw [isOriginal, Bool.and_eq_true, Bool.not_eq_true', Bool.not_eq_true'] at horig
  exact ⟨⟨⟨ClauseDb.mem_clauseReferences.1 hc, horig.1⟩, horig.2⟩, lits, hlits, by simpa using hf,
    rfl⟩

/-- The members hold the neighborhoods of their factors. -/
lemma factorMembers_spec (s₀ : Solver) (budget : ℕ) : ∀ (factors : List Lit) (s s' : Solver)
    (members : List FactorMember),
    factorMembers s₀.factorSnapshot budget factors s = (some members, s') →
    ∀ m ∈ members, List.Forall₂ (fun q c => Covers s₀ c m.factor q) m.quotients m.references
  | [], s, s', members, h => by
    obtain ⟨rfl, -⟩ := Prod.mk.inj h |>.imp_left Option.some.inj
    simp
  | factor :: rest, s, s', members, h => by
    rw [factorMembers] at h
    dsimp only at h
    split at h
    · cases h
    split at h
    · cases h
    · next more _ hrest =>
      have ih := factorMembers_spec s₀ budget rest _ _ more hrest
      split at h
      · obtain ⟨rfl, -⟩ := Prod.mk.inj h |>.imp_left Option.some.inj
        exact ih
      · obtain ⟨rfl, -⟩ := Prod.mk.inj h |>.imp_left Option.some.inj
        intro m hm
        rcases List.mem_cons.1 hm with rfl | hm
        · exact factorNeighborhood_spec s₀ factor
        · exact ih m hm

lemma exists_of_forall₂ {α β : Type*} {R : α → β → Prop} {as : List α} {bs : List β}
    (h : List.Forall₂ R as bs) :
    (∀ a ∈ as, ∃ b ∈ bs, R a b) ∧ ∀ b ∈ bs, ∃ a ∈ as, R a b := by
  induction h with
  | nil => simp
  | @cons a b as bs hab _ ih =>
    constructor
    · rintro x (_ | ⟨_, hx⟩)
      · exact ⟨b, by simp, hab⟩
      · obtain ⟨y, hy, hxy⟩ := ih.1 x hx
        exact ⟨y, List.mem_cons_of_mem _ hy, hxy⟩
    · rintro y (_ | ⟨_, hy⟩)
      · exact ⟨a, by simp, hab⟩
      · obtain ⟨x, hx, hxy⟩ := ih.2 y hy
        exact ⟨x, List.mem_cons_of_mem _ hx, hxy⟩

/-- A plan from members with correct neighborhoods fits. -/
lemma factorPlan_spec {members : List FactorMember} {macroOnly : Bool}
    {key : FactorNeighborhoodSummary × List (List Lit)}
    (hm : ∀ m ∈ members, List.Forall₂ (fun q c => Covers s c m.factor q) m.quotients m.references)
    (h : factorPlan macroOnly members key = some plan) : Fits s plan := by
  rw [factorPlan] at h
  split at h
  · cases h
  next hcond =>
  obtain rfl := Option.some.inj h
  simp only [not_or] at hcond
  have hgroup : ∀ m, m ∈ members.filter (fun m => decide (m.summary = key.1 ∧ m.quotients = key.2)) →
      m ∈ members ∧ m.quotients = key.2 := fun m hmem => by
    obtain ⟨h1, h2⟩ := List.mem_filter.1 hmem
    exact ⟨h1, (of_decide_eq_true h2).2⟩
  refine ⟨fun c hc => ?_, fun f hf q hq => ?_, fun hnil => ?_, fun hnil => ?_⟩
  · obtain ⟨member, hmem, hc⟩ := List.mem_flatMap.1 hc
    obtain ⟨h1, h2⟩ := hgroup member hmem
    obtain ⟨q, hq, hcov⟩ := (exists_of_forall₂ (hm member h1)).2 c hc
    exact ⟨member.factor, List.mem_map_of_mem hmem, q, h2 ▸ hq, hcov⟩
  · obtain ⟨member, hmem, rfl⟩ := List.mem_map.1 hf
    obtain ⟨h1, h2⟩ := hgroup member hmem
    obtain ⟨c, hc, hcov⟩ := (exists_of_forall₂ (hm member h1)).1 q (h2 ▸ hq)
    exact ⟨c, List.mem_flatMap.2 ⟨member, hmem, hc⟩, hcov⟩
  · exact hcond.1 (by rw [show List.map _ _ = [] from hnil]; simp)
  · exact hcond.2.2.1 (by rw [show key.2 = [] from hnil]; simp)

/-- **Every plan fits** the clauses of its snapshot. -/
lemma exactFactorPlans_spec {budget : ℕ} {plans : List FactorPlan} {s₀ : Solver}
    (h : exactFactorPlans s₀.factorSnapshot budget s = (some plans, s')) :
    ∀ plan ∈ plans, Fits s₀ plan := by
  rw [exactFactorPlans] at h
  split at h
  · cases h
  · next members s₁ hmembers =>
    obtain ⟨rfl, -⟩ := Prod.mk.inj h |>.imp_left Option.some.inj
    intro plan hplan
    obtain ⟨key, -, hkey⟩ := List.mem_filterMap.1 ((List.perm_insertionSort _ _).mem_iff.1 hplan)
    exact factorPlan_spec (factorMembers_spec s₀ budget _ _ _ members hmembers) hkey

/-! ### One plan -/

lemma Storable.perm {r r' : List Lit} (h : Storable Γ s r) (hp : r'.Perm r) : Storable Γ s r' := by
  obtain ⟨⟨h1, h2, h3, h4⟩, h5⟩ := h
  exact ⟨⟨(hp.map _).nodup_iff.2 h1, fun l hl => h2 l (hp.subset hl),
    fun l hl => h3 l (hp.subset hl), h4.weaken hp.symm.subset⟩, fun l hl => h5 l (hp.subset hl)⟩

/-- The clauses of the fresh variable are stored one by one. -/
lemma installFactored_spec : ∀ (installs : List (Lit × List Lit)) (t : Solver), AtRoot P Γ t →
    (∀ i ∈ installs, Storable Γ t i.2 ∧ 2 ≤ i.2.length) →
    Installed (installs.map fun i => sortLiterals i.2) t
        (installs.foldl (fun t i => t.installFactoredClause i.1 i.2) t) ∧
      AtRoot P Γ (installs.foldl (fun t i => t.installFactoredClause i.1 i.2) t)
  | [], t, h, _ => ⟨⟨rfl, rfl, rfl, rfl, fun _ hc => ⟨hc, rfl⟩, by simp, fun _ hc => .inl hc⟩, h⟩
  | (pivot, literals) :: rest, t, h, hs => by
    obtain ⟨hst, hlen⟩ := hs (pivot, literals) (by simp)
    have hperm := (sortLiterals_spec literals).2
    obtain ⟨hi, hroot⟩ := h.installed (hst.perm hperm) (hperm.length_eq ▸ hlen)
      (pivot :: (sortLiterals literals).filter fun l => decide (l ≠ pivot))
    obtain ⟨hi', hroot'⟩ := installFactored_spec rest _ hroot fun i hm => by
      obtain ⟨h1, h2⟩ := hs i (by simp [hm])
      exact ⟨h1.congr rfl rfl, h2⟩
    exact ⟨hi.append hi', hroot'⟩

/-- The clauses of the fresh variable of a plan. -/
def planClauses (t : Solver) (plan : FactorPlan) : Set (List Lit) :=
  {c | c ∈ choiceClauses t.variableCount plan.factors plan.quotients}

/-- The rewriting of `s` into `s'`: the clauses of `D` are about new variables, and the models
over the old variables stay the same. -/
structure Rewritten (D : Set (List Lit)) (s s' : Solver) : Prop where
  trail : s'.toTrailState = s.toTrailState
  session : s'.toSession = { s.toSession with variableCount := s'.variableCount }
  count : s.variableCount ≤ s'.variableCount
  deferred : s'.shadowDeferredRootConflict = s.shadowDeferredRootConflict
  old : ∀ c, s.Allocated c → s'.Allocated c ∧ s'.literals c = s.literals c
  defined : ∀ d ∈ D, ∀ l ∈ d, l.var < s'.variableCount ∧ l.var ∉ s.eliminatedVariables
  restore : ∀ m, Satisfies m s' → Satisfies m s ∧ Models m D
  extend : ∀ m, Satisfies m s → ∃ m', (∀ v < s.variableCount, m' v = m v) ∧ Models m' D ∧
    Satisfies m' s'

lemma Rewritten.refl (s : Solver) : Rewritten ∅ s s where
  trail := rfl
  session := rfl
  count := le_rfl
  deferred := rfl
  old _ hc := ⟨hc, rfl⟩
  defined _ hd := hd.elim
  restore _ hm := ⟨hm, fun _ hd => hd.elim⟩
  extend m hm := ⟨m, fun _ _ => rfl, fun _ hd => hd.elim, hm⟩

lemma Rewritten.trans {D D' : Set (List Lit)} (h : Rewritten D s s') (h' : Rewritten D' s' t) :
    Rewritten (D ∪ D') s t where
  trail := h'.trail.trans h.trail
  session := by rw [h'.session, h.session]
  count := h.count.trans h'.count
  deferred := h'.deferred.trans h.deferred
  old c hc := by
    obtain ⟨h1, h2⟩ := h.old c hc
    obtain ⟨h3, h4⟩ := h'.old c h1
    exact ⟨h3, h4.trans h2⟩
  defined d hd l hl := by
    have hrec : s'.eliminatedVariables = s.eliminatedVariables := by
      rw [eliminatedVariables, congrArg Session.eliminationRecords h.session, eliminatedVariables]
    rcases hd with hd | hd
    · obtain ⟨h1, h2⟩ := h.defined d hd l hl
      exact ⟨h1.trans_le h'.count, h2⟩
    · obtain ⟨h1, h2⟩ := h'.defined d hd l hl
      exact ⟨h1, hrec ▸ h2⟩
  restore m hm := by
    obtain ⟨h1, h2⟩ := h'.restore m hm
    obtain ⟨h3, h4⟩ := h.restore m h1
    exact ⟨h3, fun d hd => hd.elim (h4 d) (h2 d)⟩
  extend m hm := by
    obtain ⟨m', h1, h2, h3⟩ := h.extend m hm
    obtain ⟨m'', h4, h5, h6⟩ := h'.extend m' h3
    refine ⟨m'', fun v hv => (h4 v (hv.trans_le h.count)).trans (h1 v hv), fun d hd => ?_, h6⟩
    rcases hd with hd | hd
    · -- the variables of `D` keep their values
      obtain ⟨l, hl, ht⟩ := h2 d hd
      exact ⟨l, hl, (h4 l.var (h.defined d hd l hl).1).trans ht⟩
    · exact h5 d hd

/-- The clauses that a plan stores, each with its pivot. -/
def planInstalls (t : Solver) (plan : FactorPlan) : List (Lit × List Lit) :=
  plan.factors.map (fun f => (⟨t.variableCount, true⟩, [⟨t.variableCount, true⟩, f])) ++
    plan.quotients.map fun q => (⟨t.variableCount, false⟩, ⟨t.variableCount, false⟩ :: q)

lemma planInstalls_snd (t : Solver) (plan : FactorPlan) :
    (planInstalls t plan).map Prod.snd =
      choiceClauses t.variableCount plan.factors plan.quotients := by
  simp [planInstalls, choiceClauses, Function.comp_def]

/-- A plan whose clauses are all stored is applied. -/
lemma applyFactorPlan_eq (O : Oracle) (plan : FactorPlan) (t : Solver) :
    applyFactorPlan O plan t =
      if plan.matrix.any fun c => !t.isOriginal c then (false, t)
      else (true, plan.matrix.foldl markClauseDeleted
        ((planInstalls t plan).foldl (fun t i => t.installFactoredClause i.1 i.2)
          (t.growVariables O (t.variableCount + 1)))) := by
  rw [applyFactorPlan, planInstalls, List.foldl_append, List.foldl_map, List.foldl_map]
  rfl

/-- What a plan does to the clauses. -/
structure PlanApplied (plan : FactorPlan) (t t' : Solver) : Prop where
  trail : t'.toTrailState = t.toTrailState
  session : t'.toSession = { t.toSession with variableCount := t'.variableCount }
  count : t.variableCount < t'.variableCount
  deferred : t'.shadowDeferredRootConflict = t.shadowDeferredRootConflict
  old : ∀ c, t.Allocated c → t'.Allocated c ∧ t'.literals c = t.literals c
  kept : ∀ c, t.Original c → c ∉ plan.matrix → t'.Original c
  stored : ∀ d ∈ choiceClauses t.variableCount plan.factors plan.quotients,
    ∃ c, t'.Original c ∧ (t'.literals c).Perm d
  new : ∀ c, t'.Original c → t.Original c ∨
    ∃ d ∈ choiceClauses t.variableCount plan.factors plan.quotients, (t'.literals c).Perm d

/-- The next variable has no value and has not been eliminated. -/
lemma AtRoot.fresh (h : AtRoot P Γ t) :
    t.assignments t.variableCount = none ∧ t.variableCount ∉ t.eliminatedVariables := by
  have hnone : t.assignments t.variableCount = none := by
    by_contra hn
    exact absurd (h.core.trail.lt _ hn) (lt_irrefl _)
  exact ⟨hnone, fun hE => (h.core.trail.eliminated _ hE).1 hnone⟩

section

variable (h : AtRoot P Γ t) (hfit : Fits t plan)
include h hfit

/-- The literals of a plan have no value and belong to old variables. -/
lemma Fits.literal (hl : l ∈ plan.factors ∨ ∃ q ∈ plan.quotients, l ∈ q) :
    l.var < t.variableCount ∧ l.var ∉ t.eliminatedVariables ∧ t.value l = none := by
  obtain ⟨c, f, q, hcov, hl⟩ : ∃ c f q, Covers t c f q ∧ l ∈ f :: q := by
    rcases hl with hf | ⟨q, hq, hl⟩
    · obtain ⟨q, hq⟩ := List.exists_mem_of_ne_nil _ hfit.quotients
      obtain ⟨c, -, hcov⟩ := hfit.complete l hf q hq
      exact ⟨c, l, q, hcov, by simp⟩
    · obtain ⟨f, hf⟩ := List.exists_mem_of_ne_nil _ hfit.factors
      obtain ⟨c, -, hcov⟩ := hfit.complete f hf q hq
      exact ⟨c, f, q, hcov, List.mem_cons_of_mem _ hl⟩
  obtain ⟨hmem, hv⟩ := hcov.mem_iff.1 hl
  exact ⟨h.core.db.lt c hcov.1.1.1 l hmem, h.core.active_var hcov.1.1 hmem, hv⟩

/-- A clause of the fresh variable may be stored. -/
lemma Fits.storable {i : Lit × List Lit} (hi : i ∈ planInstalls t plan) :
    Storable (Γ ∪ planClauses t plan) (t.growVariables O (t.variableCount + 1)) i.2 ∧
      2 ≤ i.2.length := by
  obtain ⟨n, b, v, he, -, hv⟩ := growVariables_eq O t (t.variableCount + 1)
  have hent : Entails (Γ ∪ planClauses t plan) i.2 := by
    refine .of_mem (.inr ?_)
    show i.2 ∈ choiceClauses _ _ _
    rw [← planInstalls_snd]
    exact List.mem_map_of_mem hi
  obtain ⟨hfresh, hpresent⟩ := h.fresh
  obtain ⟨b', r, rfl, hr, hnodup, hlen⟩ : ∃ b' r, i = (⟨t.variableCount, b'⟩, ⟨t.variableCount, b'⟩ :: r) ∧
      (∀ l ∈ r, l.var < t.variableCount ∧ l.var ∉ t.eliminatedVariables ∧ t.value l = none) ∧
      (r.map Literal.var).Nodup ∧ r ≠ [] := by
    rcases List.mem_append.1 hi with hi | hi
    · obtain ⟨f, hf, rfl⟩ := List.mem_map.1 hi
      refine ⟨true, [f], rfl, fun l hl => hfit.literal h (.inl ?_), by simp, by simp⟩
      rwa [List.mem_singleton.1 hl]
    · obtain ⟨q, hq, rfl⟩ := List.mem_map.1 hi
      obtain ⟨f, hf⟩ := List.exists_mem_of_ne_nil _ hfit.factors
      obtain ⟨c, -, hcov⟩ := hfit.complete f hf q hq
      have hnd := hcov.nodup (h.core.db.nodup c hcov.1.1.1)
      exact ⟨false, q, rfl, fun l hl => hfit.literal h (.inr ⟨q, hq, hl⟩),
        (List.nodup_cons.1 hnd).2, hcov.quotient_ne_nil⟩
  have hlen' : 2 ≤ (⟨t.variableCount, b'⟩ :: r : List Lit).length := by
    have := List.length_pos_iff.2 hlen
    simp only [List.length_cons]
    omega
  refine ⟨⟨⟨?_, ?_, ?_, hent⟩, ?_⟩, hlen'⟩
  · rw [List.map_cons, List.nodup_cons]
    refine ⟨fun hm => ?_, hnodup⟩
    obtain ⟨l, hl, hlv⟩ := List.mem_map.1 hm
    exact absurd (hr l hl).1 (by rw [hlv]; exact lt_irrefl _)
  · rw [he]
    rintro l (_ | ⟨_, hl⟩)
    · exact hv
    · exact (hr l hl).1.trans (Nat.lt_of_succ_le hv)
  · rw [he]
    rintro l (_ | ⟨_, hl⟩)
    · exact hpresent
    · exact (hr l hl).2.1
  · rw [he]
    rintro l (_ | ⟨_, hl⟩)
    · exact TrailState.value_eq_none_iff.2 hfresh
    · exact (hr l hl).2.2

/-- **One plan** stores the clauses of the fresh variable and deletes the product. -/
lemma Fits.applied (O : Oracle) :
    (applyFactorPlan O plan t).1 = true ∧ PlanApplied plan t (applyFactorPlan O plan t).2 ∧
      AtRoot P (Γ ∪ planClauses t plan) (applyFactorPlan O plan t).2 := by
  have hall : plan.matrix.any (fun c => !t.isOriginal c) = false := by
    rw [List.any_eq_false]
    intro c hc
    obtain ⟨f, -, q, -, hcov⟩ := hfit.covers c hc
    simp [isOriginal, hcov.1.1.2, hcov.1.2]
  rw [applyFactorPlan_eq, if_neg (by simp [hall])]
  set g := t.growVariables O (t.variableCount + 1) with hg
  obtain ⟨n, b, v, he, -, hv⟩ := growVariables_eq O t (t.variableCount + 1)
  have hroot : AtRoot P (Γ ∪ planClauses t plan) g := by
    refine AtRoot.mono ⟨h.core.growVariables O _, ?_, ?_⟩ Set.subset_union_left
    · rw [hg, he]
      exact h.settled.congr_done rfl rfl rfl
    · rw [hg, he]
      exact h.root
  obtain ⟨hi, hroot'⟩ := installFactored_spec (planInstalls t plan) g hroot fun i hi =>
    hfit.storable h hi
  set u := (planInstalls t plan).foldl (fun t i => t.installFactoredClause i.1 i.2) g
  obtain ⟨hd, hroot''⟩ := foldl_markClauseDeleted_spec plan.matrix u hroot'
  set t' := plan.matrix.foldl markClauseDeleted u
  have hdb : g.toClauseDb = t.toClauseDb := by rw [hg, he]
  have hgo : ∀ c, g.Original c ↔ t.Original c := fun c => by rw [hdb]
  have hga : ∀ c, g.Allocated c ↔ t.Allocated c := fun c => by rw [hdb]
  have hgl : ∀ c, g.literals c = t.literals c := fun c => by rw [literals, hdb, literals]
  have hold : ∀ c, t.Allocated c → u.Allocated c ∧ u.clause c = g.clause c := fun c hc =>
    hi.old c ((hga c).2 hc)
  have hlits : ∀ c, t.Allocated c → t'.literals c = t.literals c := fun c hc => by
    rw [hd.literals, ← hgl, literals, (hold c hc).2, literals]
  have hmatrix : ∀ c ∈ plan.matrix, t.Allocated c := fun c hc => by
    obtain ⟨f, -, q, -, hcov⟩ := hfit.covers c hc
    exact hcov.1.1.1
  -- the clauses of the fresh variable are those that are stored
  have hof : ∀ d ∈ choiceClauses t.variableCount plan.factors plan.quotients,
      ∃ i ∈ planInstalls t plan, i.2 = d := fun d hd => by
    rw [← planInstalls_snd] at hd
    exact List.mem_map.1 hd
  have hto : ∀ i ∈ planInstalls t plan,
      i.2 ∈ choiceClauses t.variableCount plan.factors plan.quotients := fun i hi => by
    rw [← planInstalls_snd]
    exact List.mem_map_of_mem hi
  refine ⟨rfl, ⟨?_, ?_, ?_, ?_, fun c hc => ?_, fun c hc hcm => ?_, fun d hd' => ?_, fun c hc => ?_⟩,
    hroot''⟩
  · rw [hd.trail, hi.trail, hg, he]
  · rw [hd.session, hi.session, hg, he]
  · rw [hd.session, hi.session, hg, he]
    exact hv
  · rw [hd.deferred, hi.deferred, hg, he]
  · exact ⟨(hd.allocated c).2 (hold c hc).1, hlits c hc⟩
  · obtain ⟨h1, -⟩ := hi.original ((hgo c).2 hc)
    exact ⟨(hd.active c).2 ⟨h1.1, hcm⟩, (hd.learned c).trans h1.2⟩
  · obtain ⟨i, hi', rfl⟩ := hof d hd'
    have hperm := (sortLiterals_spec i.2).2
    obtain ⟨c, h1, h2⟩ := hi.stored (sortLiterals i.2) (List.mem_map_of_mem hi')
      (hperm.length_eq ▸ (hfit.storable (O := O) h hi').2)
    have hl' : (t'.literals c).Perm i.2 := by
      rw [hd.literals, h2]
      exact hperm
    refine ⟨c, ⟨(hd.active c).2 ⟨h1.1, fun hcm => ?_⟩, (hd.learned c).trans h1.2⟩, hl'⟩
    -- a clause of the product does not mention the fresh variable
    rw [hlits c (hmatrix c hcm)] at hl'
    obtain ⟨l, hl, hlv⟩ : ∃ l ∈ i.2, l.var = t.variableCount := by
      rcases List.mem_append.1 hi' with hi' | hi' <;> obtain ⟨_, -, rfl⟩ := List.mem_map.1 hi' <;>
        exact ⟨_, List.mem_cons_self, rfl⟩
    have := h.core.db.lt c (hmatrix c hcm) l (hl'.mem_iff.2 hl)
    omega
  · obtain ⟨hact, hcm⟩ := (hd.active c).1 hc.1
    have hlearned := (hd.learned c).symm.trans hc.2
    rcases hi.new c hact.1 with hc' | ⟨hc', -⟩
    · have heq := (hi.old c hc').2
      refine .inl ((hgo c).1 ⟨⟨hc', (congrArg Clause.deleted heq).symm.trans hact.2⟩,
        (congrArg Clause.learned heq).symm.trans hlearned⟩)
    · obtain ⟨i, hi', he'⟩ := List.mem_map.1 hc'
      refine .inr ⟨i.2, hto i hi', ?_⟩
      rw [hd.literals, ← he']
      exact (sortLiterals_spec i.2).2

/-- **One plan** is a conservative rewrite. -/
lemma PlanApplied.rewritten (ha : PlanApplied plan t s') : Rewritten (planClauses t plan) t s' where
  trail := ha.trail
  session := ha.session
  count := ha.count.le
  deferred := ha.deferred
  old := ha.old
  defined := by
    refine forall_mem_choiceClauses.2 ⟨fun f hf => ?_, fun q hq => ?_⟩
    · rintro l (_ | ⟨_, _ | ⟨_, hl⟩⟩)
      · exact ⟨ha.count, h.fresh.2⟩
      · obtain ⟨h1, h2, -⟩ := hfit.literal h (.inl hf)
        exact ⟨h1.trans ha.count, h2⟩
      · cases hl
    · rintro l (_ | ⟨_, hl⟩)
      · exact ⟨ha.count, h.fresh.2⟩
      · obtain ⟨h1, h2, -⟩ := hfit.literal h (.inr ⟨q, hq, hl⟩)
        exact ⟨h1.trans ha.count, h2⟩
  restore m hm := by
    have hroot : RootHolds m t := by
      have := hm.2
      rwa [ha.trail] at this
    have hD : ∀ d ∈ choiceClauses t.variableCount plan.factors plan.quotients, Sat m d := by
      intro d hd
      obtain ⟨c, hc, hperm⟩ := ha.stored d hd
      exact (hm.1 c hc).mono hperm.subset
    refine ⟨⟨fun c hc => ?_, hroot⟩, hD⟩
    by_cases hcm : c ∈ plan.matrix
    · exact (hfit.sat_iff h hroot).2 (choice_of_choiceClauses hD) c hcm
    · rw [← (ha.old c hc.1.1).2]
      exact hm.1 c (ha.kept c hc hcm)
  extend m hm := by
    have hchoice : Choice m plan.factors plan.quotients :=
      (hfit.sat_iff h hm.2).1 fun c hc => by
        obtain ⟨f, -, q, -, hcov⟩ := hfit.covers c hc
        exact hm.1 c hcov.1
    have hne : ∀ l : Lit, l.var < t.variableCount → l.var ≠ t.variableCount := fun _ hl => hl.ne
    obtain ⟨b, hb⟩ := exists_choiceClauses (p := t.variableCount) hchoice
      (fun f hf => hne f (hfit.literal h (.inl hf)).1)
      fun q hq l hl => hne l (hfit.literal h (.inr ⟨q, hq, hl⟩)).1
    refine ⟨_, fun v hv => Function.update_of_ne hv.ne b m, hb, fun c hc => ?_, ?_⟩
    · rcases ha.new c hc with hc' | ⟨d, hd, hperm⟩
      · rw [(ha.old c hc'.1.1).2]
        exact (sat_update_of_ne fun l hl => hne l (h.core.db.lt c hc'.1.1 l hl)).2 (hm.1 c hc')
      · exact (hb d hd).mono hperm.symm.subset
    · rw [ha.trail]
      intro l hl h0
      refine (holds_update_of_ne (hne l (h.core.trail.lt l.var ?_))).2 (hm.2 l hl h0)
      rw [h.core.trail.assigned l hl]
      simp

end

/-! ### The plans of a round -/

/-- A plan that fits fits as long as its clauses are there. -/
lemma Fits.later (h : Fits s plan) (ht : t.toTrailState = s.toTrailState)
    (hlits : ∀ c, s.Allocated c → t.literals c = s.literals c)
    (horig : ∀ c ∈ plan.matrix, t.Original c) : Fits t plan := by
  have hcov : ∀ c ∈ plan.matrix, ∀ f q, Covers s c f q → Covers t c f q := by
    rintro c hc f q ⟨ho, lits, hl, hf, hq⟩
    refine ⟨horig c hc, lits, ?_, hf, hq⟩
    have hcl : (t.clause c).literals = (s.clause c).literals := hlits c ho.1.1
    rw [← hl, factorLiterals, factorLiterals, ht, hcl]
  refine ⟨fun c hc => ?_, fun f hf q hq => ?_, h.factors, h.quotients⟩
  · obtain ⟨f, hf, q, hq, hc'⟩ := h.covers c hc
    exact ⟨f, hf, q, hq, hcov c hc f q hc'⟩
  · obtain ⟨c, hc, hc'⟩ := h.complete f hf q hq
    exact ⟨c, hc, hcov c hc f q hc'⟩

/-- The rewriting with its invariant. -/
def RewrittenOk (P : Prop) (Γ : Set (List Lit)) (s s' : Solver) : Prop :=
  ∃ D, Rewritten D s s' ∧ AtRoot P (Γ ∪ D) s'

lemma RewrittenOk.refl (h : AtRoot P Γ s) : RewrittenOk P Γ s s :=
  ⟨∅, .refl s, h.mono Set.subset_union_left⟩

lemma Rewritten.append {D : Set (List Lit)} (h : Rewritten D s s')
    (h' : RewrittenOk P (Γ ∪ D) s' t) : RewrittenOk P Γ s t := by
  obtain ⟨D', h1, h2⟩ := h'
  exact ⟨D ∪ D', h.trans h1, Set.union_assoc Γ D D' ▸ h2⟩

/-- When a plan is applied, its clauses are there. -/
lemma applyFactorPlan_true (h : (applyFactorPlan O plan t).1 = true) :
    ∀ c ∈ plan.matrix, t.isOriginal c = true := by
  rw [applyFactorPlan_eq] at h
  split at h
  · cases h
  · next hall => simpa using hall

/-- A plan of the round whose clauses are there fits. -/
lemma Rewritten.fits {D : Set (List Lit)} (h : Rewritten D s t) (hfit : Fits s plan)
    (hall : ∀ c ∈ plan.matrix, t.isOriginal c = true) : Fits t plan := by
  refine hfit.later h.trail (fun c hc => (h.old c hc).2) fun c hc => ?_
  obtain ⟨f, -, q, -, hcov⟩ := hfit.covers c hc
  have horig := hall c hc
  rw [isOriginal, Bool.and_eq_true, Bool.not_eq_true', Bool.not_eq_true'] at horig
  exact ⟨⟨(h.old c hcov.1.1.1).1, horig.1⟩, horig.2⟩

/-- **The plans of a round** are applied where they still fit. -/
lemma applyFactorPlans_spec (O : Oracle) (h : AtRoot P Γ s) (plans : List FactorPlan)
    (hfit : ∀ plan ∈ plans, Fits s plan) : RewrittenOk P Γ s (applyFactorPlans O plans s).2 := by
  induction plans using List.reverseRecOn with
  | nil => exact .refl h
  | append_singleton plans plan ih =>
    obtain ⟨D, hrew, hroot⟩ := ih fun p hp => hfit p (by simp [hp])
    rw [applyFactorPlans, List.foldl_append, List.foldl_cons, List.foldl_nil]
    show RewrittenOk P Γ s (applyFactorPlan O plan (applyFactorPlans O plans s).2).2
    set t := (applyFactorPlans O plans s).2
    cases happ : (applyFactorPlan O plan t).1 with
    | false =>
      have hskip : (applyFactorPlan O plan t).2 = t := by
        rw [applyFactorPlan_eq] at happ ⊢
        split
        · rfl
        · next hn =>
          rw [if_neg hn] at happ
          cases happ
      rw [hskip]
      exact ⟨D, hrew, hroot⟩
    | true =>
      have hfit' := hrew.fits (hfit plan (by simp)) (applyFactorPlan_true happ)
      obtain ⟨-, ha, hroot'⟩ := hfit'.applied hroot O
      exact hrew.append ⟨_, ha.rewritten hroot hfit', hroot'⟩

/-! ### The rounds -/

/-- Only the effort has changed. -/
def Touched (s s' : Solver) : Prop := ∃ k, s' = { s with factorizationLiteralTouches := k }

lemma Touched.atRoot (ht : Touched s s') (h : AtRoot P Γ s) : AtRoot P Γ s' := by
  obtain ⟨k, rfl⟩ := ht
  obtain ⟨⟨h1, h2, h3, h4, h5, h6, h7, h8⟩, h9, h10⟩ := h
  exact ⟨⟨h1, h2, h3, h4, h5, h6, h7, h8⟩, h9.congr_done rfl rfl rfl, h10⟩

lemma Touched.rewritten (ht : Touched s s') : Rewritten ∅ s s' := by
  obtain ⟨k, rfl⟩ := ht
  exact ⟨rfl, rfl, le_rfl, rfl, fun _ hc => ⟨hc, rfl⟩, fun _ hd => hd.elim,
    fun m hm => ⟨hm, fun _ hd => hd.elim⟩, fun m hm => ⟨m, fun _ _ => rfl, fun _ hd => hd.elim, hm⟩⟩

lemma factorMembers_touched (snapshot : List FactorCandidate) (budget : ℕ) :
    ∀ (factors : List Lit) (s : Solver), Touched s (factorMembers snapshot budget factors s).2
  | [], s => ⟨_, rfl⟩
  | factor :: rest, s => by
    rw [factorMembers]
    dsimp only
    split
    · exact ⟨_, rfl⟩
    · have hrest := factorMembers_touched snapshot budget rest { s with
        factorizationLiteralTouches :=
          s.factorizationLiteralTouches + (factorNeighborhood snapshot factor).2.2 }
      generalize factorMembers snapshot budget rest _ = r at hrest ⊢
      obtain ⟨members, s'⟩ := r
      obtain ⟨k, rfl⟩ := hrest
      cases members with
      | none => exact ⟨k, rfl⟩
      | some members =>
        dsimp only
        split <;> exact ⟨k, rfl⟩

/-- The plans of a round of `factor_exact_neighborhoods`, and the state after making them; none
when the rounds end here. -/
def roundPlans (budget : ℕ) (s : Solver) : Option (List FactorPlan) × Solver :=
  if s.factorSnapshot.isEmpty ∨
      budget < s.factorizationLiteralTouches + snapshotTouches s.factorSnapshot then (none, s)
  else exactFactorPlans s.factorSnapshot budget { s with
    factorizationLiteralTouches :=
      s.factorizationLiteralTouches + snapshotTouches s.factorSnapshot }

lemma factorRounds_succ (O : Oracle) (budget rounds : ℕ) (s : Solver) :
    factorRounds O budget (rounds + 1) s =
      match roundPlans budget s with
      | (none, s) => s
      | (some plans, s) =>
        if (applyFactorPlans O plans s).1 = 0 then (applyFactorPlans O plans s).2
        else factorRounds O budget rounds (applyFactorPlans O plans s).2 := by
  rw [factorRounds, roundPlans]
  dsimp only
  split <;> rfl

lemma roundPlans_touched (budget : ℕ) (s : Solver) : Touched s (roundPlans budget s).2 := by
  rw [roundPlans]
  split
  · exact ⟨_, rfl⟩
  · rw [exactFactorPlans]
    have hmembers := factorMembers_touched s.factorSnapshot budget
      (factorCandidates { s with
        factorizationLiteralTouches :=
          s.factorizationLiteralTouches + snapshotTouches s.factorSnapshot } s.factorSnapshot)
      { s with
        factorizationLiteralTouches :=
          s.factorizationLiteralTouches + snapshotTouches s.factorSnapshot }
    generalize factorMembers s.factorSnapshot budget _ _ = r at hmembers ⊢
    obtain ⟨members, s'⟩ := r
    obtain ⟨k, rfl⟩ := hmembers
    cases members <;> exact ⟨k, rfl⟩

/-- The plans of a round fit the clauses it starts with. -/
lemma roundPlans_fits {budget : ℕ} {plans : List FactorPlan}
    (h : roundPlans budget s = (some plans, s')) : ∀ plan ∈ plans, Fits s' plan := by
  have ht := roundPlans_touched budget s
  rw [h] at ht
  obtain ⟨k, hk : s' = _⟩ := ht
  rw [roundPlans] at h
  split at h
  · cases h
  · intro plan hplan
    have hfit := exactFactorPlans_spec h plan hplan
    refine hfit.later ?_ ?_ fun c hc => ?_
    · rw [hk]
    · rw [hk]
      exact fun _ _ => rfl
    · obtain ⟨f, -, q, -, hcov⟩ := hfit.covers c hc
      rw [hk]
      exact hcov.1

/-- The plan is applied in the state `t` during the rounds from `s`. -/
inductive Applied (O : Oracle) (budget : ℕ) : ℕ → Solver → FactorPlan → Solver → Prop
  | here {rounds : ℕ} {s s₁ : Solver} {before after : List FactorPlan} {plan : FactorPlan}
      (plans : roundPlans budget s = (some (before ++ plan :: after), s₁))
      (applied : (applyFactorPlan O plan (applyFactorPlans O before s₁).2).1 = true) :
      Applied O budget (rounds + 1) s plan (applyFactorPlans O before s₁).2
  | later {rounds : ℕ} {s s₁ t : Solver} {all : List FactorPlan} {plan : FactorPlan}
      (plans : roundPlans budget s = (some all, s₁))
      (some_applied : (applyFactorPlans O all s₁).1 ≠ 0)
      (rest : Applied O budget rounds (applyFactorPlans O all s₁).2 plan t) :
      Applied O budget (rounds + 1) s plan t

/-- One round is a conservative rewrite. -/
lemma round_spec (O : Oracle) (h : AtRoot P Γ s) {budget : ℕ} {plans : List FactorPlan}
    {s₁ : Solver} (hp : roundPlans budget s = (some plans, s₁)) :
    AtRoot P Γ s₁ ∧ RewrittenOk P Γ s (applyFactorPlans O plans s₁).2 := by
  have ht := roundPlans_touched budget s
  rw [hp] at ht
  have h₁ := ht.atRoot h
  refine ⟨h₁, ht.rewritten.append ?_⟩
  rw [Set.union_empty]
  exact applyFactorPlans_spec O h₁ plans (roundPlans_fits hp)

/-- **The rounds** are a conservative rewrite. -/
lemma factorRounds_spec (O : Oracle) (budget : ℕ) : ∀ (rounds : ℕ) (Γ : Set (List Lit)) (s : Solver),
    AtRoot P Γ s → RewrittenOk P Γ s (factorRounds O budget rounds s)
  | 0, Γ, s, h => .refl h
  | rounds + 1, Γ, s, h => by
    have ht := roundPlans_touched budget s
    have hspec : ∀ plans s₁, roundPlans budget s = (some plans, s₁) → AtRoot P Γ s₁ ∧
        RewrittenOk P Γ s (applyFactorPlans O plans s₁).2 := fun plans s₁ hp => round_spec O h hp
    rw [factorRounds_succ]
    generalize roundPlans budget s = r at ht hspec
    obtain ⟨plans, s₁⟩ := r
    cases plans with
    | none => exact ⟨∅, ht.rewritten, (ht.atRoot h).mono Set.subset_union_left⟩
    | some plans =>
      obtain ⟨-, D, hrew, hroot⟩ := hspec plans s₁ rfl
      dsimp only
      split
      · exact ⟨D, hrew, hroot⟩
      · exact hrew.append (factorRounds_spec O budget rounds (Γ ∪ D) _ hroot)

/-- **A plan that is applied** has all its clauses, and they say what it stands for. -/
lemma Applied.fits {budget rounds : ℕ} (h : Applied O budget rounds s plan t) :
    ∀ {Γ : Set (List Lit)}, AtRoot P Γ s → ∃ Δ, AtRoot P Δ t ∧ Fits t plan := by
  induction h with
  | @here rounds s s₁ before after plan plans applied =>
    intro Γ hroot
    obtain ⟨h₁, -⟩ := round_spec O hroot plans
    have hfit := roundPlans_fits plans
    obtain ⟨D, hrew, hroot'⟩ := applyFactorPlans_spec O h₁ before fun p hp => hfit p (by simp [hp])
    exact ⟨_, hroot', hrew.fits (hfit plan (by simp)) (applyFactorPlan_true applied)⟩
  | later plans _ _ ih =>
    intro Γ hroot
    obtain ⟨-, D, -, hroot'⟩ := round_spec O hroot plans
    exact ih hroot'

/-! ### The pass -/

lemma foldlM_extendRecord_off : ∀ (records : List EliminationRecord) (m m' : ℕ → Bool),
    records.foldlM extendRecord m = some m' →
    ∀ v, (∀ r ∈ records, r.pivot ≠ v) → m' v = m v
  | [], m, m', h, v, _ => by rw [← Option.some.inj h]
  | r :: records, m, m', h, v, hv => by
    rw [List.foldlM_cons, Option.bind_eq_bind, Option.bind_eq_some_iff] at h
    obtain ⟨m₁, h1, h2⟩ := h
    rw [foldlM_extendRecord_off records m₁ m' h2 v fun r' hr' => hv r' (by simp [hr'])]
    rw [extendRecord] at h1
    split at h1
    · cases h1
    · rw [← Option.some.inj h1]
    · rw [← Option.some.inj h1]
      exact Function.update_of_ne (hv r (by simp)).symm _ _

/-- Extending a model changes the eliminated variables only. -/
lemma extendModel_off {m' : ℕ → Bool} (h : s.extendModel m = some m') {v : ℕ}
    (hv : v ∉ s.eliminatedVariables) : m' v = m v :=
  foldlM_extendRecord_off _ m m' h v fun r hr hrv => hv ⟨r, List.mem_reverse.1 hr, hrv⟩

/-- The literal touches that `factor_exact_neighborhoods` allows itself. -/
def factorBudget (s : Solver) : ℕ :=
  min (max (snapshotTouches s.factorSnapshot * 16) 1000000) 100000000

lemma factorExactNeighborhoods_eq (O : Oracle) (s : Solver) :
    s.factorExactNeighborhoods O = factorRounds O s.factorBudget 8 s := rfl

/-- **Bounded variable addition** keeps the state prepared, for the clauses with those of the
fresh variables. -/
theorem factorExactNeighborhoods_spec (O : Oracle) (h : Prepared P Γ s) :
    ∃ D, Rewritten D s (s.factorExactNeighborhoods O) ∧
      Prepared P (Γ ∪ D) (s.factorExactNeighborhoods O) := by
  obtain ⟨D, hrew, hroot⟩ := factorRounds_spec O s.factorBudget 8 Γ s h.toAtRoot
  rw [factorExactNeighborhoods_eq]
  set s' := factorRounds O s.factorBudget 8 s
  refine ⟨D, hrew, hroot, ?_, hrew.deferred.trans h.deferred, ?_, fun m horig hm => ?_⟩
  · rw [hrew.trail]
    exact h.head
  · exact (congrArg Session.searchControlActive hrew.session).trans h.idle
  · obtain ⟨h1, h2⟩ := hrew.restore m ⟨horig, hm⟩
    obtain ⟨m', h3, h4⟩ := h.complete m h1.1 h1.2
    refine ⟨m', ?_, fun d hd => ?_⟩
    · rw [extendModel, congrArg Session.eliminationRecords hrew.session]
      exact h3
    · rcases hd with hd | hd
      · exact h4 d hd
      · -- the clauses of the fresh variables mention no eliminated one
        obtain ⟨l, hl, ht⟩ := h2 d hd
        exact ⟨l, hl, (extendModel_off h3 (hrew.defined d hd l hl).2).trans ht⟩

end Solver

end Satrap
