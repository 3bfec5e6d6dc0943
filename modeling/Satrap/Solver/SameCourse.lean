/-
# The search does not depend on the binary fast path

Conflict analysis reads the literals of binary clauses, which the two paths may have stored in
different orders.  Of a reason it skips the implied literal, so one literal is left; of a conflict
it meets a literal of the current level and at most one of a lower level.  So it learns the same
clause, and everything after it is the same.
-/
import Mathlib.Data.List.Sort
import Satrap.Solver.FastPath
import Satrap.Solver.Reachable

namespace Satrap

open Logic

/-- The order in which variables are bumped depends on their stamps only. -/
lemma VmtfOrder.bumpAnalyzed_perm {o : VmtfOrder} {assignments : ℕ → Option Bool}
    {analyzed analyzed' : List ℕ} (ho : o.Ok assignments) (h : analyzed'.Perm analyzed)
    (hlt : ∀ v ∈ analyzed, v < o.size) :
    o.bumpAnalyzed assignments analyzed' = o.bumpAnalyzed assignments analyzed := by
  let r : ℕ → ℕ → Prop := fun i j => (o.links i).stamp ≤ (o.links j).stamp
  have : Std.Total r := ⟨fun i j => le_total _ _⟩
  have : IsTrans ℕ r := ⟨fun i j k => le_trans⟩
  have hsorted (list : List ℕ) : (list.insertionSort r).Pairwise r :=
    List.pairwise_insertionSort r list
  have hperm : (analyzed'.insertionSort r).Perm (analyzed.insertionSort r) :=
    ((List.perm_insertionSort r analyzed').trans h).trans (List.perm_insertionSort r analyzed).symm
  have hmem : ∀ v ∈ analyzed.insertionSort r, v ∈ Finset.range o.size := fun v hv =>
    Finset.mem_range.2 (hlt v ((List.mem_insertionSort r).1 hv))
  have heq : analyzed'.insertionSort r = analyzed.insertionSort r :=
    hperm.eq_of_pairwise (fun i j hi hj hij hji =>
      ho.linked.stamp_inj i (hmem i (hperm.subset hi)) j (hmem j hj) (le_antisymm hij hji))
      (hsorted _) (hsorted _)
  exact congrArg (List.foldl (moveToFront assignments) o) heq

/-- The working data of two analyses that met the literals of the conflict in different orders. -/
structure Analysis.Matches (a a' : Analysis) : Prop where
  seen : a'.seen = a.seen
  learned : a'.learned = a.learned
  pathCount : a'.pathCount = a.pathCount
  touched : a'.touched.Perm a.touched

namespace Solver

variable {Γ : Set (List Lit)} {O : Oracle} {s s' : Solver} {C : ClauseRef → Clause} {fast : Bool}
  {p l : Lit} {c : ClauseRef} {A : List Lit} {a a' : Analysis} {t : TrailState}
  {config : SolverConfig}

/-! ### Reasons -/

/-- A reason is stored the same, or it is the implied literal and one more. -/
lemma reason_stored (h : Grounded Γ s) (hC : Reordered s.clause C) (hp : p ∈ s.trail)
    (hr : s.reasons p.var = some c) : (C c).literals = (s.clause c).literals ∨
      ∃ q, ((s.clause c).literals = [p, q] ∨ (s.clause c).literals = [q, p]) ∧
        ((C c).literals = [p, q] ∨ (C c).literals = [q, p]) := by
  cases c with
  | long i => exact .inl (congrArg Clause.literals (hC.long i))
  | binary i =>
    obtain ⟨k, hk⟩ := List.mem_iff_getElem?.1 hp
    obtain ⟨halloc, hmem, -⟩ := h.reason k p _ hk hr
    obtain ⟨x, y, hxy⟩ := List.length_eq_two.1 ((h.db.length _ halloc).2.1 rfl)
    have hperm := hC.perm (.binary i)
    rw [hxy] at hperm
    change p ∈ (s.clause (.binary i)).literals at hmem
    rw [hxy] at hmem ⊢
    have hstored := List.perm_pair.1 hperm
    right
    rcases List.mem_pair.1 hmem with rfl | rfl
    · exact ⟨y, .inl rfl, hstored⟩
    · exact ⟨x, .inr rfl, hstored.symm⟩

lemma absorbLiteral_resolved : absorbLiteral t (some p) a p = a := by
  rw [absorbLiteral, if_pos (by simp [isResolved])]

lemma absorbClause_reason (h : Grounded Γ s) (hC : Reordered s.clause C) (hp : p ∈ s.trail)
    (hr : s.reasons p.var = some c) :
    absorbClause t (some p) (C c).literals a = absorbClause t (some p) (s.clause c).literals a := by
  rcases reason_stored h hC hp hr with heq | ⟨q, h₁ | h₁, h₂ | h₂⟩
  · rw [heq]
  · rw [h₁, h₂]
  · rw [h₁, h₂]
    simp only [absorbClause, List.foldl_cons, List.foldl_nil, absorbLiteral_resolved]
  · rw [h₁, h₂]
    simp only [absorbClause, List.foldl_cons, List.foldl_nil, absorbLiteral_resolved]
  · rw [h₁, h₂]

lemma visitAntecedent_candidate {levels : ℕ} {candidate q : Lit} {r : Redundancy}
    (h : q.var = candidate.var) : visitAntecedent t levels candidate r q = some r := by
  rw [visitAntecedent, if_pos h]

lemma foldlM_reason (h : Grounded Γ s) (hC : Reordered s.clause C) {candidate : Lit}
    (hp : -candidate ∈ s.trail) (hr : s.reasons candidate.var = some c) (levels : ℕ)
    (r : Redundancy) : (C c).literals.foldlM (visitAntecedent t levels candidate) r =
      (s.clause c).literals.foldlM (visitAntecedent t levels candidate) r := by
  rcases reason_stored h hC hp hr with heq | ⟨q, h₁ | h₁, h₂ | h₂⟩
  · rw [heq]
  · rw [h₁, h₂]
  · rw [h₁, h₂]
    simp [visitAntecedent_candidate (Literal.var_neg candidate)]
  · rw [h₁, h₂]
    simp [visitAntecedent_candidate (Literal.var_neg candidate)]
  · rw [h₁, h₂]

lemma absorbLiteral_twin (ha : a.Matches a') (resolved : Option Lit) (l : Lit) :
    (absorbLiteral t resolved a l).Matches (absorbLiteral t resolved a' l) := by
  obtain ⟨hseen, hlearned, hcount, htouched⟩ := ha
  rw [absorbLiteral, absorbLiteral, hseen]
  split
  · exact ⟨hseen, hlearned, hcount, htouched⟩
  split
  · refine ⟨rfl, ?_, ?_, htouched.append_right _⟩
    · dsimp only
      rw [hlearned]
    · dsimp only
      rw [hcount]
  · exact ⟨hseen, hlearned, hcount, htouched⟩

lemma absorbClause_twin (resolved : Option Lit) (literals : List Lit) (ha : a.Matches a') :
    (absorbClause t resolved literals a).Matches (absorbClause t resolved literals a') := by
  induction literals generalizing a a' with
  | nil => exact ha
  | cons l literals ih => exact ih (absorbLiteral_twin ha resolved l)

/-- The literal counts for the analysis and has no mark. -/
def Absorbs (t : TrailState) (a : Analysis) (l : Lit) : Prop :=
  a.seen l.var = false ∧ 0 < t.levels l.var

instance : Decidable (Absorbs t a l) := inferInstanceAs (Decidable (_ ∧ _))

lemma absorbLiteral_none : absorbLiteral t none a l =
    if Absorbs t a l then
      { seen := Function.update a.seen l.var true
        touched := a.touched ++ [l.var]
        learned := if t.levels l.var = t.decisionLevel then a.learned else a.learned ++ [l]
        pathCount := if t.levels l.var = t.decisionLevel then a.pathCount + 1 else a.pathCount }
    else a := by
  rw [absorbLiteral, if_neg (by simp [isResolved])]
  by_cases h : Absorbs t a l
  · rw [if_pos h, if_pos (by simpa [Absorbs] using h)]
  · rw [if_neg h, if_neg (by simpa [Absorbs] using h)]

lemma absorbs_absorbLiteral {x y : Lit} (hne : x.var ≠ y.var) :
    Absorbs t (absorbLiteral t none a x) y ↔ Absorbs t a y := by
  rw [absorbLiteral_none]
  split
  · simp only [Absorbs, Function.update_of_ne (Ne.symm hne)]
  · rfl

/-- Two literals of which one is of the current level can be met in either order. -/
lemma absorbLiteral_comm {x y : Lit} (hne : x.var ≠ y.var)
    (hlevel : t.levels x.var = t.decisionLevel ∨ t.levels y.var = t.decisionLevel) :
    (absorbLiteral t none (absorbLiteral t none a x) y).Matches
      (absorbLiteral t none (absorbLiteral t none a y) x) := by
  rw [absorbLiteral_none (a := absorbLiteral t none a x),
    absorbLiteral_none (a := absorbLiteral t none a y), if_congr (absorbs_absorbLiteral hne) rfl rfl,
    if_congr (absorbs_absorbLiteral hne.symm) rfl rfl, absorbLiteral_none, absorbLiteral_none]
  by_cases hx : Absorbs t a x <;> by_cases hy : Absorbs t a y
  · simp only [if_pos hx, if_pos hy]
    constructor
    · exact (Function.update_comm hne _ _ _).symm
    · dsimp only
      rcases hlevel with h | h <;> simp [h]
    · dsimp only
      split <;> split <;> rfl
    · dsimp only
      rw [List.append_assoc, List.append_assoc]
      exact (List.Perm.swap _ _ _).append_left _
  all_goals
    simp only [if_pos, if_neg, hx, hy, not_false_eq_true]
    exact ⟨rfl, rfl, rfl, .refl _⟩

/-! ### Resolution -/

/-- Both analyses stop, or go on with matching data. -/
def SameResolution (r r' : Option (Lit × Analysis)) : Prop :=
  Option.Rel (fun b b' => b'.1 = b.1 ∧ b.2.Matches b'.2) r r'

lemma resolveTrail_twin (h : Grounded Γ s) (hC : Reordered s.clause C) : ∀ (trail : List Lit)
    (a a' : Analysis), (∀ p ∈ trail, p ∈ s.trail) → a.Matches a' →
    SameResolution (resolveTrail s trail a) (resolveTrail (s.alter C fast) trail a') := by
  intro trail
  induction trail with
  | nil => exact fun a a' _ _ => .none
  | cons candidate trail ih =>
    intro a a' hmem ha
    have hrest : ∀ p ∈ trail, p ∈ s.trail := fun p hp => hmem p (List.mem_cons_of_mem _ hp)
    rw [resolveTrail, resolveTrail, ha.seen, ha.pathCount]
    split
    swap
    · exact ih a a' hrest ha
    cases a.pathCount with
    | zero => exact .none
    | succ pathCount =>
      dsimp only
      have hmarked : Analysis.Matches
          { a with
            seen := Function.update a.seen candidate.var false, pathCount := pathCount }
          { a' with
            seen := Function.update a.seen candidate.var false, pathCount := pathCount } :=
        ⟨rfl, ha.learned, rfl, ha.touched⟩
      split
      · exact .some ⟨rfl, hmarked⟩
      rw [show (s.alter C fast).reasons candidate.var = s.reasons candidate.var from rfl]
      cases hr : s.reasons candidate.var with
      | none => exact .none
      | some reason =>
        refine ih _ _ hrest ?_
        change Analysis.Matches _ (absorbClause s.toTrailState (some candidate) (C reason).literals _)
        rw [absorbClause_reason h hC (hmem candidate List.mem_cons_self) hr]
        exact absorbClause_twin _ _ hmarked

/-- The conflict clause starts both analyses with matching data. -/
lemma absorbConflict_twin (h : Grounded Γ s) (hC : Reordered s.clause C) (hc : s.Allocated c)
    (hcurrent : ∃ q ∈ s.literals c, s.levels q.var = s.decisionLevel) :
    (absorbClause s.toTrailState none (s.clause c).literals a).Matches
      (absorbClause s.toTrailState none (C c).literals a) := by
  cases c with
  | long i =>
    rw [hC.long i]
    exact ⟨rfl, rfl, rfl, .refl _⟩
  | binary i =>
    obtain ⟨x, y, hxy⟩ := List.length_eq_two.1 ((h.db.length _ hc).2.1 rfl)
    have hperm := hC.perm (.binary i)
    have hnodup := h.db.nodup _ hc
    obtain ⟨q, hq, hlevel⟩ := hcurrent
    change q ∈ (s.clause (.binary i)).literals at hq
    rw [hxy] at hperm hnodup hq ⊢
    have hne : x.var ≠ y.var := by simpa using hnodup
    rcases List.perm_pair.1 hperm with heq | heq
    · rw [heq]
      exact ⟨rfl, rfl, rfl, .refl _⟩
    · rw [heq]
      refine absorbLiteral_comm hne ?_
      rcases List.mem_pair.1 hq with rfl | rfl
      · exact .inl hlevel
      · exact .inr hlevel

/-! ### Minimisation -/

lemma redundantLoop_twin (h : Grounded Γ s) (hC : Reordered s.clause C) (levels : ℕ) :
    ∀ (fuel : ℕ) (r : Redundancy), s.Expandable r →
      redundantLoop (s.alter C fast) levels fuel r = redundantLoop s levels fuel r := by
  intro fuel
  induction fuel with
  | zero => exact fun r _ => rfl
  | succ fuel ih =>
    intro r hexp
    rw [redundantLoop, redundantLoop]
    cases hst : r.stack with
    | nil => rfl
    | cons candidate stack =>
      obtain ⟨hneg, hreason⟩ := hexp candidate (by rw [hst]; exact List.mem_cons_self)
      obtain ⟨c, hc⟩ := Option.isSome_iff_exists.1 hreason
      dsimp only
      rw [show (s.alter C fast).reasons candidate.var = s.reasons candidate.var from rfl, hc]
      dsimp only
      rw [show (s.alter C fast).clause c = C c from rfl,
        show (s.alter C fast).toTrailState = s.toTrailState from rfl]
      rw [foldlM_reason h hC hneg hc]
      cases hvisit : (s.clause c).literals.foldlM
          (visitAntecedent s.toTrailState levels candidate) { r with stack := stack } with
      | none => rfl
      | some r₁ =>
        obtain ⟨i, hi⟩ := List.mem_iff_getElem?.1 hneg
        obtain ⟨hall, -, hothers⟩ := h.reason i (-candidate) c hi hc
        have hexp' : s.Expandable { r with stack := stack } := fun q hq =>
          hexp q (by rw [hst]; exact List.mem_cons_of_mem _ hq)
        refine ih r₁ (visitAntecedents_remaining _ _ _ (fun q hq => ?_) hexp' hvisit).1
        refine ⟨h.db.lt c hall q hq, fun hne => ?_⟩
        obtain ⟨j, -, hj⟩ := hothers q hq fun he => hne (by rw [he, Literal.var_neg])
        exact List.mem_of_getElem? hj

lemma minimizeLiterals_twin (h : Grounded Γ s) (hC : Reordered s.clause C) (levels : ℕ) :
    ∀ (literals : List Lit) (seen : ℕ → Bool), (∀ q ∈ literals, -q ∈ s.trail) →
      minimizeLiterals (s.alter C fast) levels literals seen =
        minimizeLiterals s levels literals seen := by
  intro literals
  induction literals with
  | nil => exact fun _ _ => rfl
  | cons l literals ih =>
    intro seen hneg
    have hrest : ∀ seen, minimizeLiterals (s.alter C fast) levels literals seen =
        minimizeLiterals s levels literals seen := fun seen =>
      ih seen fun q hq => hneg q (List.mem_cons_of_mem l hq)
    rw [minimizeLiterals, minimizeLiterals]
    change (if (s.reasons l.var).isSome then _ else _) = _
    split
    swap
    · rw [hrest]
    next hr =>
    have hexp : s.Expandable ⟨seen, [], [l]⟩ := fun q hq => by
      rw [List.mem_singleton.1 hq]
      exact ⟨hneg l List.mem_cons_self, hr⟩
    have hloop : literalRedundant (s.alter C fast) levels l seen =
        literalRedundant s levels l seen := by
      rw [literalRedundant, literalRedundant]
      rw [show (s.alter C fast).variableCount = s.variableCount from rfl]
      rw [redundantLoop_twin h hC levels _ _ hexp] <;> rfl
    rw [hloop]
    simp only [hrest]

lemma minimized_twin (h : Grounded Γ s) (hC : Reordered s.clause C)
    (hneg : ∀ q ∈ a.learned, -q ∈ s.trail) (hseen : a'.seen = a.seen)
    (hlearned : a'.learned = a.learned) : (s.alter C fast).minimized a' = s.minimized a := by
  rw [minimized, minimized, hlearned, hseen]
  change (if s.config.minimizeLearnedClauses && !a.learned.isEmpty then _ else _) = _
  split
  · exact minimizeLiterals_twin h hC _ _ _ hneg
  · rfl

lemma binaryResolutionMinimize_twin (hC : Reordered s.clause C) (asserting : Lit)
    (learned : List Lit) : (s.alter C fast).binaryResolutionMinimize asserting learned =
      s.binaryResolutionMinimize asserting learned := by
  have hdeleted : ∀ c, ((s.alter C fast).clause c).deleted = (s.clause c).deleted := hC.deleted
  simp only [binaryResolutionMinimize, hdeleted]
  rfl

/-- Analysis learns the same clause. -/
lemma analyze_twin (h : Grounded Γ s) (hb : s.toBranching.Ok s.variableCount s.assignments
    s.usesTransferBranching) (ha : Twin s s') (hc : s.Allocated c)
    (he : Entails Γ (s.literals c)) (hf : ∀ q ∈ s.literals c, -q ∈ s.trail)
    (hcurrent : ∃ q ∈ s.literals c, s.levels q.var = s.decisionLevel) (O : Oracle) :
    Option.Rel SameStep (s.analyze O c) (s'.analyze O c) := by
  obtain ⟨C, fast, hC⟩ := ha
  obtain ⟨hstart, href, -⟩ := h.analysis_start hc he hf
  have hresolution : SameResolution
      (resolveTrail s s.trail.reverse
        (absorbClause s.toTrailState none (s.clause c).literals ⟨s.seen, [], [], 0⟩))
      (resolveTrail (s.alter C fast) (s.alter C fast).trail.reverse
        (absorbClause (s.alter C fast).toTrailState none ((s.alter C fast).clause c).literals
          ⟨(s.alter C fast).seen, [], [], 0⟩)) :=
    resolveTrail_twin h hC s.trail.reverse _ _ (fun p hp => List.mem_reverse.1 hp)
      (absorbConflict_twin h hC hc hcurrent)
  have hspec := resolveTrail_spec h s.trail.reverse _ (by simp) (by simpa using hstart) href
  rw [literals] at hspec
  rw [analyze, analyze]
  dsimp only
  generalize resolveTrail s s.trail.reverse _ = r at hresolution hspec
  generalize resolveTrail (s.alter C fast) _ _ = r' at hresolution
  cases hresolution with
  | none => exact .none
  | @some b b' hb' =>
    obtain ⟨asserting, a⟩ := b
    obtain ⟨asserting', a'⟩ := b'
    obtain ⟨hasserting, hseen, hlearned, -, htouched⟩ := hb'
    obtain rfl : asserting = asserting' := hasserting.symm
    have hresolved := hspec _ _ rfl
    have hvmtf : ((s.alter C fast).rescore O).vmtf.bumpAnalyzed
        ((s.alter C fast).rescore O).assignments a'.touched =
          (s.rescore O).vmtf.bumpAnalyzed (s.rescore O).assignments a.touched :=
      VmtfOrder.bumpAnalyzed_perm hb.vmtf htouched fun v hv =>
        hb.vmtf_size.symm ▸ hresolved.touched_lt v hv
    have hminimized : (s.alter C fast).minimized a' = s.minimized a :=
      minimized_twin h hC (fun q hq => ((hresolved.learned q).1 hq).2) hseen hlearned
    have hbinary (learned : List Lit) : (s.alter C fast).binaryResolutionMinimize asserting learned =
        s.binaryResolutionMinimize asserting learned :=
      binaryResolutionMinimize_twin hC asserting learned
    dsimp only
    rw [hminimized]
    cases s.minimized a with
    | none => exact .none
    | some m =>
      obtain ⟨others, seen, added⟩ := m
      refine .some ?_
      have hmarks : (fun v => if v ∈ a'.touched ∨ v ∈ added then false else seen v) =
          fun v => if v ∈ a.touched ∨ v ∈ added then false else seen v := by
        funext v
        exact if_congr (or_congr_left htouched.mem_iff) rfl rfl
      constructor
      · simp only [hbinary]
        rfl
      · simp only [hvmtf, hmarks]
        exact .intro C fast hC

/-! ### Operations that read no clause -/

/-- The operation leaves the clauses alone and does not depend on them. -/
def Indifferent {α : Type} (f : Solver → α × Solver) : Prop :=
  ∀ s C fast, (f s).2.clause = s.clause ∧ f (s.alter C fast) = ((f s).1, (f s).2.alter C fast)

lemma Indifferent.twin {α : Type} {f : Solver → α × Solver} (h : Indifferent f)
    (ha : Twin s s') : SameStep (f s) (f s') := by
  obtain ⟨C, fast, hC⟩ := ha
  obtain ⟨hclause, heq⟩ := h s C fast
  exact .of_alter C fast (hclause ▸ hC) heq

lemma Indifferent.foldl {β : Type} {f : Solver → β → Solver}
    (h : ∀ b, Indifferent fun s => ((), f s b)) : ∀ list : List β,
    Indifferent fun s => ((), list.foldl f s) := by
  intro list
  induction list with
  | nil => exact fun s C fast => ⟨rfl, rfl⟩
  | cons b list ih =>
    intro s C fast
    obtain ⟨hclause, heq⟩ := h b s C fast
    obtain ⟨hclause', heq'⟩ := ih (f s b) C fast
    refine ⟨hclause'.trans hclause, ?_⟩
    have hstep : f (s.alter C fast) b = (f s b).alter C fast := congrArg Prod.snd heq
    simp only [List.foldl_cons, hstep]
    exact heq'

lemma reinsert_indifferent (O : Oracle) (v : ℕ) :
    Indifferent fun s => ((), s.reinsert O v) := fun _ _ _ => ⟨rfl, rfl⟩

lemma cancelUntil_indifferent (O : Oracle) (level : ℕ) :
    Indifferent fun s => ((), s.cancelUntil O level) := by
  intro s C fast
  simp only [cancelUntil]
  change _ ∧ ((), if s.decisionLevel ≤ level then _ else _) = _
  split
  · exact ⟨rfl, rfl⟩
  · obtain ⟨hclause, heq⟩ := Indifferent.foldl (reinsert_indifferent O)
      ((s.trail.drop (s.trailLimits.getD level 0)).reverse.map Literal.var) s C fast
    refine ⟨hclause, ?_⟩
    have hfold := congrArg Prod.snd heq
    dsimp only at hfold
    exact congrArg (fun t : Solver => ((), { t with toTrailState := s.toTrailState.shrink level }))
      hfold

lemma cancelUntil_twin (ha : Twin s s') (O : Oracle) (level : ℕ) :
    Twin (s.cancelUntil O level) (s'.cancelUntil O level) :=
  ((cancelUntil_indifferent O level).twin ha).2

/-! ### After a conflict -/

lemma addClauseToDb_twin (ha : Twin s s') (literals : List Lit) (learned : Bool) :
    Twin (s.addClauseToDb literals learned) (s'.addClauseToDb literals learned) := by
  obtain ⟨C, fast, hC⟩ := ha
  have hupdate := hC.update (s.nextReference literals) ⟨literals, learned, false⟩
  have heq : (s.alter C fast).addClauseToDb literals learned =
      (s.addClauseToDb literals learned).alter
        (Function.update C (s.nextReference literals) ⟨literals, learned, false⟩) fast := by
    have hnext : (s.alter C fast).nextReference literals = s.nextReference literals := rfl
    simp only [addClauseToDb, hnext, ClauseDb.attach, ClauseDb.allocate, Function.update_self]
    cases literals with
    | nil => rfl
    | cons first literals => cases literals <;> rfl
  rw [heq]
  refine .intro _ fast ?_
  have hclause : (s.addClauseToDb literals learned).clause =
      Function.update s.clause (s.nextReference literals) ⟨literals, learned, false⟩ := by
    simp only [addClauseToDb, ClauseDb.attach_clause, ClauseDb.allocate]
  rwa [hclause]

lemma storeLearned_twin (ha : Twin s s') (l : Lit) (literals : List Lit) :
    Twin ((s.addClauseToDb literals true).enqueue l (some (s.nextReference literals))).2
      ((s'.addClauseToDb literals true).enqueue l (some (s'.nextReference literals))).2 := by
  have hnext : s'.nextReference literals = s.nextReference literals := by
    obtain ⟨C, fast, hC⟩ := ha
    rfl
  rw [hnext]
  exact (SameStep.enqueueInternal (addClauseToDb_twin ha literals true) true l _).2

lemma learn_twin (ha : Twin s s') (O : Oracle) (L : Learned) :
    Twin (s.learn O L) (s'.learn O L) := by
  have hproof : Twin (s.proofAdd (L.asserting :: L.others))
      (s'.proofAdd (L.asserting :: L.others)) := by
    obtain ⟨C, fast, hC⟩ := ha
    exact .intro C fast hC
  have hlevel : s'.determineBacktrackLevel = s.determineBacktrackLevel := by
    obtain ⟨C, fast, hC⟩ := ha
    rfl
  have hcancelled := cancelUntil_twin hproof O
    (s.determineBacktrackLevel L.backtrackLevel (L.asserting :: L.others).length)
  rw [learn, learn]
  change Twin (if L.others.isEmpty then _ else _) (if L.others.isEmpty then _ else _)
  rw [hlevel]
  split
  · exact (SameStep.enqueueInternal hcancelled true L.asserting none).2
  · exact storeLearned_twin hcancelled L.asserting _

lemma isRemovable_twin (ha : Twin s s') : s'.isRemovable = s.isRemovable := by
  obtain ⟨C, fast, hC⟩ := ha
  funext i
  rw [isRemovable, isRemovable]
  change (decide (i < s.longCount) && (C (.long i)).learned && !(C (.long i)).deleted &&
    !s.isLocked i && !s.clauseIsShadow (.long i)) = _
  rw [hC.long i]

lemma markClauseDeleted_twin (ha : Twin s s') (i : ℕ) :
    Twin (s.markClauseDeleted (.long i)) (s'.markClauseDeleted (.long i)) := by
  obtain ⟨C, fast, hC⟩ := ha
  have hupdate := hC.update (.long i) { s.clause (.long i) with deleted := true }
  have heq : (s.alter C fast).markClauseDeleted (.long i) =
      (s.markClauseDeleted (.long i)).alter
        (Function.update C (.long i) { s.clause (.long i) with deleted := true }) fast := by
    have hlong := hC.long i
    change ({ s.alter C fast with
      proof := s.proof ++ [.delete (C (.long i)).literals]
      clause := Function.update C (.long i) { C (.long i) with deleted := true } } : Solver) = _
    rw [hlong]
    rfl
  rw [heq]
  exact .intro _ fast hupdate

lemma reduceDatabase_twin (ha : Twin s s') (O : Oracle) :
    Twin (s.reduceDatabase O) (s'.reduceDatabase O) := by
  have hclock : s'.clock = s.clock := congrArg Work.clock ha.frame.2.2.2
  have hshadow : s'.config.shadowClauseReactivation = s.config.shadowClauseReactivation := by
    obtain ⟨C, fast, hC⟩ := ha
    rfl
  have htick : Twin s.tick s'.tick := by
    obtain ⟨C, fast, hC⟩ := ha
    exact .intro (s := s.tick) C fast hC
  rw [reduceDatabase, reduceDatabase, hclock, isRemovable_twin ha, hshadow]
  cases O.reduction s.clock with
  | none => exact htick
  | some selection =>
    obtain ⟨deletions, shadows⟩ := selection
    dsimp only
    have hdeleted : ∀ (list : List ℕ) (t t' : Solver), Twin t t' →
        Twin ((list.map ClauseRef.long).foldl markClauseDeleted t)
          ((list.map ClauseRef.long).foldl markClauseDeleted t') := by
      intro list
      induction list with
      | nil => exact fun t t' ht => ht
      | cons i list ih => exact fun t t' ht => ih _ _ (markClauseDeleted_twin ht i)
    have hobserve : ∀ i, Indifferent fun s => ((), s.beginShadowObservation i) :=
      fun i s C fast => ⟨rfl, rfl⟩
    exact ((Indifferent.foldl hobserve _).twin (hdeleted _ _ _ htick)).2

/-! ### Restarts -/

lemma restartReuseLevel_twin (ha : Twin s s') (O : Oracle) :
    SameStep (s.restartReuseLevel O) (s'.restartReuseLevel O) := by
  refine Indifferent.twin (f := restartReuseLevel O) (fun s C fast => ?_) ha
  rw [restartReuseLevel, restartReuseLevel]
  change _ ∧ (if s.config.searchStrategy ≠ .evsids ∨ s.config.restartTrailReuse = .never then _
    else _) = _
  split
  · exact ⟨rfl, rfl⟩
  have hcandidate : (s.restartReuseCandidate O).2.clause = s.clause ∧
      (s.alter C fast).restartReuseCandidate O =
        ((s.restartReuseCandidate O).1, (s.restartReuseCandidate O).2.alter C fast) := by
    rw [restartReuseCandidate, restartReuseCandidate]
    dsimp only [alter]
    cases (s.order.peekMax s.assignments (O.activity s.clock) (s.order.size + 1)).1 <;>
      exact ⟨rfl, rfl⟩
  obtain ⟨hclause, heq⟩ := hcandidate
  rw [heq]
  change _ ∧ (if s.config.restartTrailReuse = .always ∨ O.adaptiveReuse s.clock = true then _
    else _) = _
  dsimp only
  split
  · exact ⟨hclause, rfl⟩
  · exact ⟨hclause, rfl⟩

lemma setShadowState_twin (ha : Twin s s') (i : ℕ) (state : ShadowState) :
    Twin { s with shadowStates := Function.update s.shadowStates i state }
      { s' with shadowStates := Function.update s'.shadowStates i state } := by
  obtain ⟨C, fast, hC⟩ := ha
  exact .intro (s := { s with shadowStates := Function.update s.shadowStates i state }) C fast hC

lemma expireShadow_twin (O : Oracle) (clock : ℕ) : ∀ (list : List ℕ) (s s' : Solver),
    Twin s s' → (expireShadow O clock list s').1 = (expireShadow O clock list s).1 ∧
      SameStep (expireShadow O clock list s).2 (expireShadow O clock list s').2 := by
  intro list
  induction list with
  | nil => exact fun s s' ha => ⟨rfl, rfl, ha⟩
  | cons i list ih =>
    intro s s' ha
    have hstates : s'.shadowStates = s.shadowStates := by
      obtain ⟨C, fast, hC⟩ := ha
      rfl
    have hactive := setShadowState_twin ha i .active
    rw [expireShadow, expireShadow, hstates]
    rw [hstates] at hactive
    split
    · obtain ⟨hretained, hreactivated, ha'⟩ := ih s s' ha
      exact ⟨congrArg (i :: ·) hretained, hreactivated, ha'⟩
    dsimp only
    split
    · obtain ⟨hretained, hreactivated, ha'⟩ := ih _ _ hactive
      exact ⟨hretained, congrArg (i :: ·) hreactivated, ha'⟩
    · exact ih _ _ (markClauseDeleted_twin hactive i)

lemma deferConflict_twin (ha : Twin s s') (c : ClauseRef) :
    Twin (s.deferConflict c) (s'.deferConflict c) := by
  obtain ⟨C, fast, hC⟩ := ha
  exact .intro (s := s.deferConflict c) C fast hC

lemma classifyReactivated_twin : ∀ (list : List ℕ) (s s' : Solver), Twin s s' →
    SameStep (classifyReactivated list s) (classifyReactivated list s') := by
  intro list
  induction list with
  | nil => exact fun s s' ha => ⟨rfl, ha⟩
  | cons i list ih =>
    intro s s' ha
    have hstatus : rootStatus s'.toTrailState (s'.clause (.long i)).literals =
        rootStatus s.toTrailState (s.clause (.long i)).literals := by
      obtain ⟨C, fast, hC⟩ := ha
      exact congrArg (fun c : Clause => rootStatus s.toTrailState c.literals) (hC.long i)
    rw [classifyReactivated, classifyReactivated, hstatus]
    cases rootStatus s.toTrailState (s.clause (.long i)).literals with
    | satisfied => exact ih s s' ha
    | «open» => exact ih s s' ha
    | false => exact ih _ _ (deferConflict_twin ha _)
    | unit l =>
      obtain ⟨hunits, ha'⟩ := ih s s' ha
      exact ⟨congrArg ((l, ClauseRef.long i) :: ·) hunits, ha'⟩

lemma enqueueReactivated_twin : ∀ (units : List (Lit × ClauseRef)) (s s' : Solver), Twin s s' →
    Twin (enqueueReactivated units s) (enqueueReactivated units s') := by
  intro units
  induction units with
  | nil => exact fun s s' ha => ha
  | cons p units ih =>
    intro s s' ha
    have hstep : SameStep (s.enqueue p.1 (some p.2)) (s'.enqueue p.1 (some p.2)) :=
      SameStep.enqueueInternal ha true p.1 (some p.2)
    rw [enqueueReactivated, enqueueReactivated, List.foldl_cons, List.foldl_cons]
    refine ih _ _ ?_
    generalize s.enqueue p.1 (some p.2) = r at hstep
    generalize s'.enqueue p.1 (some p.2) = r' at hstep
    obtain ⟨accepted, t⟩ := r
    obtain ⟨accepted', t'⟩ := r'
    obtain ⟨haccepted, ha'⟩ := hstep
    obtain rfl : accepted' = accepted := haccepted
    cases accepted' with
    | true => exact ha'
    | false => exact deferConflict_twin ha' p.2

lemma tick_twin (ha : Twin s s') : Twin s.tick s'.tick := by
  obtain ⟨C, fast, hC⟩ := ha
  exact .intro (s := s.tick) C fast hC

lemma finalizeShadowClausesAtRoot_twin (ha : Twin s s') (O : Oracle) :
    Twin (s.finalizeShadowClausesAtRoot O) (s'.finalizeShadowClausesAtRoot O) := by
  have hclock : s'.clock = s.clock := congrArg Work.clock ha.frame.2.2.2
  have hshadows : s'.shadowClauses = s.shadowClauses := by
    obtain ⟨C, fast, hC⟩ := ha
    rfl
  have hexpired := expireShadow_twin O s.clock s.shadowClauses s.tick s'.tick (tick_twin ha)
  rw [finalizeShadowClausesAtRoot, finalizeShadowClausesAtRoot, hclock, hshadows]
  generalize expireShadow O s.clock s.shadowClauses s.tick = r at hexpired
  generalize expireShadow O s.clock s.shadowClauses s'.tick = r' at hexpired
  obtain ⟨retained, reactivated, t⟩ := r
  obtain ⟨retained', reactivated', t'⟩ := r'
  obtain ⟨hretained, hreactivated, ha'⟩ := hexpired
  obtain rfl : retained' = retained := hretained
  obtain rfl : reactivated' = reactivated := hreactivated
  have hshortened : Twin { t with shadowClauses := retained' }
      { t' with shadowClauses := retained' } := by
    obtain ⟨C, fast, hC⟩ := ha'
    exact .intro (s := { t with shadowClauses := retained' }) C fast hC
  have hunits := classifyReactivated_twin reactivated' _ _ hshortened
  dsimp only
  generalize classifyReactivated reactivated' { t with shadowClauses := retained' } = q at hunits
  generalize classifyReactivated reactivated' { t' with shadowClauses := retained' } = q' at hunits
  obtain ⟨units, u⟩ := q
  obtain ⟨units', u'⟩ := q'
  obtain ⟨heq, ha''⟩ := hunits
  obtain rfl : units' = units := heq
  exact enqueueReactivated_twin units' u u' ha''

lemma restart_twin (ha : Twin s s') (O : Oracle) : Twin (s.restart O) (s'.restart O) := by
  have hreuse := restartReuseLevel_twin ha O
  rw [restart, restart]
  generalize s.restartReuseLevel O = r at hreuse
  generalize s'.restartReuseLevel O = r' at hreuse
  obtain ⟨level, t⟩ := r
  obtain ⟨level', t'⟩ := r'
  obtain ⟨hlevel, ha'⟩ := hreuse
  obtain rfl : level' = level := hlevel
  have hvotes : Twin ((t.cancelUntil O level').applyVotes O)
      ((t'.cancelUntil O level').applyVotes O) := by
    have hcancelled := cancelUntil_twin ha' O level'
    generalize t.cancelUntil O level' = u at hcancelled
    generalize t'.cancelUntil O level' = u' at hcancelled
    obtain ⟨C, fast, hC⟩ := hcancelled
    exact .intro (s := u.applyVotes O) C fast hC
  dsimp only
  generalize (t.cancelUntil O level').applyVotes O = u at hvotes
  generalize (t'.cancelUntil O level').applyVotes O = u' at hvotes
  have hfinalized := finalizeShadowClausesAtRoot_twin hvotes O
  obtain ⟨C, fast, hC⟩ := hvotes
  change Twin (if u.config.shadowClauseReactivation then _ else _)
    (if u.config.shadowClauseReactivation then _ else _)
  split
  · exact hfinalized
  · exact .intro C fast hC

/-! ### Changing the mode -/

lemma changeBranching_twin (ha : Twin s s') (O : Oracle) :
    Twin (s.changeBranching O) (s'.changeBranching O) := by
  have hrestart := restart_twin (tick_twin ha) O
  obtain ⟨C, fast, hC⟩ := ha
  rw [changeBranching, changeBranching]
  change Twin _ (if s.config.searchStrategy = .focusedStable ∧ O.switched s.clock = true then _
    else if s.isActiveProbe = true ∧ 100 ≤ s.conflicts then _
    else if O.restarted s.clock = true ∧ 0 < s.decisionLevel then _ else _)
  split
  · exact .intro (s := { s.tick with
      hybridStable := !s.hybridStable
      vmtf := if s.hybridStable then s.vmtf.resetSearch s.assignments else s.vmtf }) C fast hC
  split
  · exact .intro (s := { s.tick with probeFinished := true }) C fast hC
  split
  · exact hrestart
  · exact .intro (s := s.tick) C fast hC

lemma changeMode_twin (ha : Twin s s') (O : Oracle) :
    Twin (s.changeMode O) (s'.changeMode O) := by
  have hclock : s'.clock = s.clock := congrArg Work.clock ha.frame.2.2.2
  have hconfig : s'.config.systematicRephasing = s.config.systematicRephasing := by
    obtain ⟨C, fast, hC⟩ := ha
    rfl
  have hbranching := changeBranching_twin (tick_twin ha) O
  have hrephase (phases : ℕ → Bool) : Twin (s.tick.rephase O phases) (s'.tick.rephase O phases) := by
    have hcancelled := cancelUntil_twin (tick_twin ha) O 0
    rw [rephase, rephase]
    generalize s.tick.cancelUntil O 0 = t at hcancelled
    generalize s'.tick.cancelUntil O 0 = t' at hcancelled
    obtain ⟨C, fast, hC⟩ := hcancelled
    exact .intro (s := { t with phase := phases }) C fast hC
  rw [changeMode, changeMode, hclock, hconfig]
  cases O.rephased s.clock with
  | none => exact hbranching
  | some phases =>
    dsimp only
    split
    · exact hrephase phases
    · exact hbranching

/-! ### Failed assumptions -/

lemma markAntecedents_reason (h : Grounded Γ s) (hC : Reordered s.clause C) (hp : p ∈ s.trail)
    (hr : s.reasons p.var = some c) (seen : ℕ → Bool) :
    markAntecedents t p (C c).literals seen = markAntecedents t p (s.clause c).literals seen := by
  rcases reason_stored h hC hp hr with heq | ⟨q, h₁ | h₁, h₂ | h₂⟩
  · rw [heq]
  · rw [h₁, h₂]
  · rw [h₁, h₂]
    simp [markAntecedents]
  · rw [h₁, h₂]
    simp [markAntecedents]
  · rw [h₁, h₂]

lemma coreLoop_twin (h : Grounded Γ s) (hC : Reordered s.clause C) : ∀ (trail : List Lit)
    (seen : ℕ → Bool) (conflict : List Lit), (∀ p ∈ trail, p ∈ s.trail) →
    coreLoop (s.alter C fast) trail seen conflict = coreLoop s trail seen conflict := by
  intro trail
  induction trail with
  | nil => exact fun _ _ _ => rfl
  | cons p trail ih =>
    intro seen conflict hmem
    have hrest : ∀ q ∈ trail, q ∈ s.trail := fun q hq => hmem q (List.mem_cons_of_mem p hq)
    rw [coreLoop, coreLoop]
    split
    swap
    · exact ih _ _ hrest
    rw [show (s.alter C fast).reasons p.var = s.reasons p.var from rfl]
    dsimp only
    cases hr : s.reasons p.var with
    | none => exact ih _ _ hrest
    | some reason =>
      change coreLoop (s.alter C fast) trail
        (markAntecedents s.toTrailState p (C reason).literals _) conflict = _
      rw [markAntecedents_reason h hC (hmem p List.mem_cons_self) hr]
      exact ih _ _ hrest

lemma analyzeFailedAssumption_twin (h : Grounded Γ s) (ha : Twin s s') (failed : Lit) :
    SameStep (s.analyzeFailedAssumption failed A) (s'.analyzeFailedAssumption failed A) := by
  obtain ⟨C, fast, hC⟩ := ha
  have hloop : coreLoop (s.alter C fast) (s.trail.drop (s.trailLimits.getD 0 0)).reverse
      (Function.update s.seen failed.var true) [-failed] =
        coreLoop s (s.trail.drop (s.trailLimits.getD 0 0)).reverse
          (Function.update s.seen failed.var true) [-failed] :=
    coreLoop_twin h hC _ _ _ fun p hp => List.mem_of_mem_drop (List.mem_reverse.1 hp)
  have hmarks : (if 0 < (s.alter C fast).decisionLevel then
      coreLoop (s.alter C fast)
        ((s.alter C fast).trail.drop ((s.alter C fast).trailLimits.getD 0 0)).reverse
        (Function.update (s.alter C fast).seen failed.var true) [-failed]
      else ((s.alter C fast).seen, [-failed])) =
      if 0 < s.decisionLevel then
        coreLoop s (s.trail.drop (s.trailLimits.getD 0 0)).reverse
          (Function.update s.seen failed.var true) [-failed]
      else (s.seen, [-failed]) := if_congr Iff.rfl hloop rfl
  rw [analyzeFailedAssumption, analyzeFailedAssumption, hmarks]
  exact ⟨rfl, .intro C fast hC⟩

/-! ### The loop -/

/-- The loop goes on with twins, or gives the same answer. -/
inductive SameOutcome : SearchOutcome → SearchOutcome → Prop
  | continue (s s' : Solver) (twin : Twin s s') : SameOutcome (.continue s) (.continue s')
  | answer (result : SolveResult) (s s' : Solver) (twin : Twin s s') :
    SameOutcome (.answer result s) (.answer result s')

lemma countConflict_twin (ha : Twin s s') : Twin s.countConflict s'.countConflict := by
  obtain ⟨C, fast, hC⟩ := ha
  exact .intro (s := s.countConflict) C fast hC

lemma resolveConflict_twin (h : Conflicting Γ c s) (ha : Twin s s') (O : Oracle) :
    Option.Rel SameOutcome (s.resolveConflict O c) (s'.resolveConflict O c) := by
  have hcount := h.countConflict
  have hanalyze := analyze_twin hcount.conflict.core.grounded hcount.conflict.core.branching
    (countConflict_twin ha) hcount.conflict.active.1
    (hcount.conflict.core.entailed c hcount.conflict.active.1) (fun q => hcount.neg_mem)
    hcount.current O
  have hlevel : s'.decisionLevel = s.decisionLevel := congrArg TrailState.decisionLevel ha.frame.1
  rw [resolveConflict, resolveConflict, hlevel, if_neg h.level.ne', if_neg h.level.ne',
    show { s with conflicts := s.conflicts + 1 } = s.countConflict from rfl,
    show { s' with conflicts := s'.conflicts + 1 } = s'.countConflict from rfl]
  generalize s.countConflict.analyze O c = r at hanalyze
  generalize s'.countConflict.analyze O c = r' at hanalyze
  cases hanalyze with
  | none => exact .none
  | @some b b' hb =>
    obtain ⟨L, t⟩ := b
    obtain ⟨L', t'⟩ := b'
    obtain ⟨hL, ht⟩ := hb
    obtain rfl : L' = L := hL
    exact .some (.continue _ _ (changeMode_twin (reduceDatabase_twin (learn_twin ht O L') O) O))

lemma pickBranchVariable_indifferent (O : Oracle) : Indifferent (pickBranchVariable O) := by
  intro s C fast
  rw [pickBranchVariable, pickBranchVariable]
  change _ ∧ (if s.usesVmtfBranching then _ else if s.usesLrbBranching then _
    else if s.usesTransferBranching && O.transferLrb s.clock then _ else _) = _
  split
  · exact ⟨rfl, rfl⟩
  split
  · exact ⟨rfl, rfl⟩
  split
  · exact ⟨rfl, rfl⟩
  · exact ⟨rfl, rfl⟩

lemma pickBranchLiteral_twin (ha : Twin s s') (O : Oracle) :
    SameStep (s.pickBranchLiteral O) (s'.pickBranchLiteral O) := by
  have hrescored : Twin (s.rescore O) (s'.rescore O) := by
    obtain ⟨C, fast, hC⟩ := ha
    exact .intro (s := s.rescore O) C fast hC
  obtain ⟨hvariable, ha'⟩ := (pickBranchVariable_indifferent O).twin hrescored
  rw [pickBranchLiteral, pickBranchLiteral]
  generalize (s.rescore O).pickBranchVariable O = r at hvariable ha'
  generalize (s'.rescore O).pickBranchVariable O = r' at hvariable ha'
  obtain ⟨v, t⟩ := r
  obtain ⟨v', t'⟩ := r'
  obtain rfl : v' = v := hvariable
  refine ⟨?_, ha'⟩
  dsimp only
  rw [congrArg Branching.phase ha'.frame.2.2.1]

lemma newLevel_twin (ha : Twin s s') : Twin s.newLevel s'.newLevel := by
  obtain ⟨C, fast, hC⟩ := ha
  exact .intro (s := s.newLevel) C fast hC

lemma buildModel_twin (ha : Twin s s') : s'.buildModel = s.buildModel := by
  obtain ⟨C, fast, hC⟩ := ha
  rfl

lemma extendTrail_twin (h : Core Γ s) (ha : Twin s s') (O : Oracle) :
    Option.Rel SameOutcome (s.extendTrail O A) (s'.extendTrail O A) := by
  have htrail := ha.frame.1
  rw [extendTrail, extendTrail, htrail]
  cases A[s.decisionLevel]? with
  | some assumption =>
    dsimp only
    cases s.value assumption with
    | none =>
      exact .some (.continue _ _
        (SameStep.enqueueInternal (newLevel_twin ha) false assumption none).2)
    | some b =>
      cases b with
      | true => exact .some (.continue _ _ (newLevel_twin ha))
      | false =>
        obtain ⟨hcore, ha'⟩ := analyzeFailedAssumption_twin (A := A) h.grounded ha assumption
        dsimp only
        generalize s.analyzeFailedAssumption assumption A = r at hcore ha'
        generalize s'.analyzeFailedAssumption assumption A = r' at hcore ha'
        obtain ⟨core, t⟩ := r
        obtain ⟨core', t'⟩ := r'
        obtain rfl : core' = core := hcore
        refine .some (.answer .unsat _ _ ?_)
        obtain ⟨C, fast, hC⟩ := ha'
        exact .intro (s := { t with failedAssumptions := core' }) C fast hC
  | none =>
    obtain ⟨hdecision, ha'⟩ := pickBranchLiteral_twin ha O
    dsimp only
    generalize s.pickBranchLiteral O = r at hdecision ha'
    generalize s'.pickBranchLiteral O = r' at hdecision ha'
    obtain ⟨decision, t⟩ := r
    obtain ⟨decision', t'⟩ := r'
    obtain rfl : decision' = decision := hdecision
    cases decision' with
    | some decision =>
      exact .some (.continue _ _
        (SameStep.enqueueInternal (newLevel_twin ha') true decision none).2)
    | none =>
      dsimp only
      rw [buildModel_twin ha']
      cases t.buildModel with
      | none => exact .none
      | some m => exact .some (.answer _ _ _ ha')

/-- **One iteration** takes the same course. -/
lemma searchStep_twin (h : Engaged Γ s) (ha : Twin s s') (O : Oracle) :
    Option.Rel SameOutcome (s.searchStep O A) (s'.searchStep O A) := by
  have hpoll := pollSearchStop_twin ha O
  have h₁ := h.poll O
  rw [searchStep, searchStep]
  generalize s.pollSearchStop O = r at hpoll h₁
  generalize s'.pollSearchStop O = r' at hpoll
  obtain ⟨reason, s₁⟩ := r
  obtain ⟨reason', s₁'⟩ := r'
  obtain ⟨hreason, ha₁⟩ := hpoll
  obtain rfl : reason' = reason := hreason
  cases reason' with
  | some reason => exact .some (.answer _ _ _ ha₁)
  | none =>
  dsimp only at h₁ ha₁ ⊢
  have hcase := h₁.propagateCase O
  have hpropagate := propagate_twin h₁.searching.core ha₁ O
  generalize s₁.propagate O = r at hcase hpropagate
  generalize s₁'.propagate O = r' at hpropagate
  obtain ⟨conflict, s₂⟩ := r
  obtain ⟨conflict', s₂'⟩ := r'
  obtain ⟨hconflict, ha₂⟩ := hpropagate
  obtain rfl : conflict' = conflict := hconflict
  dsimp only at hcase ha₂ ⊢
  obtain ⟨hcore, -, hcase'⟩ := hcase.poll O
  have hpoll := pollSearchStop_twin ha₂ O
  generalize s₂.pollSearchStop O = r at hcore hcase' hpoll
  generalize s₂'.pollSearchStop O = r' at hpoll
  obtain ⟨reason, s₃⟩ := r
  obtain ⟨reason', s₃'⟩ := r'
  obtain ⟨hreason, ha₃⟩ := hpoll
  obtain rfl : reason' = reason := hreason
  cases reason' with
  | some reason => exact .some (.answer _ _ _ ha₃)
  | none =>
  dsimp only at hcore hcase' ha₃ ⊢
  obtain ⟨hcase', -⟩ := hcase' rfl
  cases hcase' with
  | refuted c _ h0 _ _ =>
    have hlevel : s₃'.decisionLevel = 0 :=
      (congrArg TrailState.decisionLevel ha₃.frame.1).trans h0
    dsimp only
    rw [resolveConflict, resolveConflict]
    change Option.Rel SameOutcome (if s₃.decisionLevel = 0 then _ else _)
      (if s₃'.decisionLevel = 0 then _ else _)
    rw [if_pos h0, if_pos hlevel]
    refine .some (.answer .unsat _ _ ?_)
    obtain ⟨C, fast, hC⟩ := ha₃
    exact .intro (s := { s₃.countConflict with consistent := false }) C fast hC
  | conflict c _ hconf _ => exact resolveConflict_twin hconf ha₃ O
  | done _ _ _ _ _ => exact extendTrail_twin hcore ha₃ O

/-- **The search** takes the same course. -/
theorem search_twin (O : Oracle) : ∀ (fuel : ℕ) (s s' : Solver), Engaged Γ s →
    (∀ a ∈ A, a.var < s.variableCount) → Twin s s' →
    Option.Rel SameStep (s.search O A fuel) (s'.search O A fuel) := by
  intro fuel
  induction fuel with
  | zero => exact fun s s' _ _ _ => .none
  | succ fuel ih =>
    intro s s' h hA ha
    have hstep := searchStep_twin (A := A) h ha O
    have hok : ∀ outcome, s.searchStep O A = some outcome → IterationOk Γ s outcome :=
      fun _ => h.searchStep hA O
    rw [Solver.search, Solver.search]
    generalize s.searchStep O A = r at hstep hok
    generalize s'.searchStep O A = r' at hstep
    cases hstep with
    | none => exact .none
    | @some outcome outcome' houtcome =>
      cases houtcome with
      | answer result t t' ha' => exact .some ⟨rfl, ha'⟩
      | «continue» t t' ha' =>
        cases hok _ rfl with
        | «continue» _ h' hkept =>
          exact ih t t' h' (fun a ha => by
            rw [congrArg Session.variableCount hkept.session]
            exact hA a ha) ha'

/-! ### Queries -/

lemma Standing.beginQuery_core (h : Standing s) (hc : s.consistent = true) (O : Oracle) :
    ∃ Γ, Core Γ (s.beginQuery O) := by
  cases h with
  | valid Γ hv _ _ _ => exact ⟨Γ, (hv.sound.beginQuery O hc).1.core⟩
  | spent hst _ _ _ _ hcore =>
    obtain ⟨Γ, hΓ⟩ := hcore hc
    have ha : Alike (s.cancelUntil O 0) (s.beginQuery O) := by
      rw [beginQuery, hst]
      exact ⟨rfl, rfl, rfl, rfl, rfl, rfl, rfl, rfl⟩
    exact ⟨Γ, ha.core (hΓ.cancelUntil O 0)⟩

lemma setFailedAssumptions_twin (ha : Twin s s') (core : List Lit) :
    Twin { s with failedAssumptions := core } { s' with failedAssumptions := core } := by
  obtain ⟨C, fast, hC⟩ := ha
  exact .intro (s := { s with failedAssumptions := core }) C fast hC

lemma beginQuery_twin (ha : Twin s s') (O : Oracle) :
    Twin (s.beginQuery O) (s'.beginQuery O) := by
  have hcancelled := cancelUntil_twin ha O 0
  rw [beginQuery, beginQuery]
  refine setFailedAssumptions_twin ?_ []
  obtain ⟨C, fast, hC⟩ := ha
  change Twin (if !s.started then _ else _) (if !s.started then _ else _)
  split
  · exact .intro (s := { s with started := true }) C fast hC
  · exact hcancelled

/-- The preparation of a query after the first one. -/
lemma prepareQuery_twin (h : Standing s) (hst : s.started = true) (ha : Twin s s') (O : Oracle) :
    SameStep (s.prepareQuery O) (s'.prepareQuery O) := by
  have hbegun := beginQuery_twin ha O
  have hst' : s'.started = s.started := by
    obtain ⟨C, fast, hC⟩ := ha
    rfl
  have hconsistent : (s'.beginQuery O).consistent = (s.beginQuery O).consistent := by
    generalize s.beginQuery O = t at hbegun
    generalize s'.beginQuery O = t' at hbegun
    obtain ⟨C, fast, hC⟩ := hbegun
    rfl
  rw [prepareQuery_eq, prepareQuery_eq, hconsistent, hst', hst]
  cases hc : (s.beginQuery O).consistent with
  | false => exact ⟨rfl, hbegun⟩
  | true =>
    obtain ⟨Γ, hcore⟩ := h.beginQuery_core (by rwa [beginQuery_session] at hc) O
    have hpropagate := propagate_twin hcore hbegun O
    simp only [Bool.not_true, Bool.false_eq_true, if_false]
    generalize (s.beginQuery O).propagate O = r at hpropagate
    generalize (s'.beginQuery O).propagate O = r' at hpropagate
    obtain ⟨conflict, t⟩ := r
    obtain ⟨conflict', t'⟩ := r'
    obtain ⟨hconflict, ha'⟩ := hpropagate
    obtain rfl : conflict' = conflict := hconflict
    cases conflict' with
    | some c => exact ⟨rfl, ha'⟩
    | none => exact ⟨rfl, ha'⟩

lemma answerQuery_twin {r r' : Bool × Solver} (h : Readied s r) (hr : SameStep r r')
    (hA : ∀ a ∈ A, a.var < s.variableCount) (fuel : ℕ) (limits : SolveLimits) :
    Option.Rel SameStep (answerQuery O fuel A limits r) (answerQuery O fuel A limits r') := by
  obtain ⟨answer', t'⟩ := r'
  cases h with
  | refuted t hframe =>
    obtain ⟨hanswer, ha⟩ := hr
    obtain rfl : answer' = false := hanswer
    obtain ⟨C, fast, hC⟩ := ha
    exact .some ⟨rfl, .intro (s := { t with consistent := false }) C fast hC⟩
  | done t Γ hcore hroot hframe =>
    obtain ⟨hanswer, ha⟩ := hr
    obtain rfl : answer' = true := hanswer
    have hclock : t'.clock = t.clock := congrArg Work.clock ha.frame.2.2.2
    have hbegun : Twin (t.tick.beginSearchControl limits) (t'.tick.beginSearchControl limits) := by
      obtain ⟨C, fast, hC⟩ := ha
      exact .intro (s := t.tick.beginSearchControl limits) C fast hC
    have hsearch := search_twin (A := A) O fuel _ _ (Engaged.begin hcore hroot limits)
      (fun a ha => (hA a ha).trans_le hframe.count) hbegun
    rw [answerQuery, answerQuery, hclock]
    split
    · exact .some ⟨rfl, tick_twin ha⟩
    generalize (t.tick.beginSearchControl limits).search O A fuel = q at hsearch
    generalize (t'.tick.beginSearchControl limits).search O A fuel = q' at hsearch
    cases hsearch with
    | none => exact .none
    | @some b b' hb =>
      obtain ⟨result, u⟩ := b
      obtain ⟨result', u'⟩ := b'
      obtain ⟨hresult, hu⟩ := hb
      obtain rfl : result' = result := hresult
      obtain ⟨C, fast, hC⟩ := hu
      exact .some ⟨rfl, .intro (s := { u with searchControlActive := false }) C fast hC⟩

lemma finishQuery_twin (ha : Twin s s') (assumptions query : List Lit) (result : SolveResult) :
    Twin (finishQuery O assumptions query result s) (finishQuery O assumptions query result s') := by
  have hcancelled := cancelUntil_twin ha O 0
  cases result with
  | sat m =>
    obtain ⟨C, fast, hC⟩ := ha
    exact .intro (s := finishQuery O assumptions query (.sat m) s) C fast hC
  | unknown reason =>
    rw [finishQuery, finishQuery]
    generalize s.cancelUntil O 0 = t at hcancelled
    generalize s'.cancelUntil O 0 = t' at hcancelled
    obtain ⟨C, fast, hC⟩ := hcancelled
    exact .intro (s := { t with
      failedAssumptions := [], cachedAssumptions := [], cachedResult := none }) C fast hC
  | unsat =>
    rw [finishQuery, finishQuery]
    obtain ⟨C, fast, hC⟩ := ha
    change Twin (if s.consistent then _ else _) (if s.consistent then _ else _)
    split
    · dsimp only
      generalize s.cancelUntil O 0 = t at hcancelled
      generalize (s.alter C fast).cancelUntil O 0 = t' at hcancelled
      obtain ⟨C, fast, hC⟩ := hcancelled
      exact .intro (s := { t with
        failedAssumptions := s.failedAssumptions.filter fun l => decide (l ∈ assumptions)
        cachedAssumptions := query
        cachedResult := some .unsat }) C fast hC
    · exact .intro (s := { s.proofAdd [] with
        cachedAssumptions := query, cachedResult := some .unsat }) C fast hC

/-- **A later query** takes the same course from its beginning. -/
theorem solve_twin (run : Reachable O config s) (hst : s.started = true) (ha : Twin s s')
    (fuel : ℕ) (assumptions : List Lit) (limits : SolveLimits) :
    Option.Rel SameStep (s.solveAssumingWithLimits O fuel assumptions limits)
      (s'.solveAssumingWithLimits O fuel assumptions limits) := by
  have hstanding := run.standing
  have hready := hstanding.prepareQuery O
  have hprepared := prepareQuery_twin hstanding hst ha O
  have hsession : s'.externalVariableCount = s.externalVariableCount ∧
      s'.scopeSelectors = s.scopeSelectors ∧ s'.cachedAssumptions = s.cachedAssumptions ∧
      s'.cachedResult = s.cachedResult := by
    obtain ⟨C, fast, hC⟩ := ha
    exact ⟨rfl, rfl, rfl, rfl⟩
  obtain ⟨hcount, hselectors, hcached, hresult⟩ := hsession
  rw [solveAssumingWithLimits, solveAssumingWithLimits, hcount, hselectors, hcached, hresult]
  split
  · exact .none
  next hany =>
  dsimp only
  cases if s.cachedAssumptions = s.scopeSelectors ++ assumptions then s.cachedResult else none with
  | some result => exact .some ⟨rfl, ha⟩
  | none =>
    have hA : ∀ a ∈ assumptions, a.var < s.externalVariableCount := fun a ha => by
      simpa using fun h => hany (List.any_eq_true.2 ⟨a, ha, decide_eq_true h⟩)
    have hanswer := answerQuery_twin (O := O) hready hprepared (hstanding.query_lt hA) fuel limits
    dsimp only
    generalize answerQuery O fuel (s.scopeSelectors ++ assumptions) limits (s.prepareQuery O) = r
      at hanswer
    generalize answerQuery O fuel (s.scopeSelectors ++ assumptions) limits (s'.prepareQuery O) = r'
      at hanswer
    cases hanswer with
    | none => exact .none
    | @some b b' hb =>
      obtain ⟨result, t⟩ := b
      obtain ⟨result', t'⟩ := b'
      obtain ⟨hresult, ht⟩ := hb
      obtain rfl : result' = result := hresult
      exact .some ⟨rfl, finishQuery_twin ht _ _ _⟩

/-! ### Every reachable state -/

/-- A query has entered its loop and come to an iteration. -/
inductive Searches (O : Oracle) (config : SolverConfig) : List Lit → Solver → Prop
  | intro {s₀ s₁ s₂ : Solver} {assumptions : List Lit} {limits : SolveLimits}
      (run : Reachable O config s₀) (known : ∀ a ∈ assumptions, a.var < s₀.externalVariableCount)
      (prepared : s₀.prepareQuery O = (true, s₁))
      (visits : Visits O (s₀.scopeSelectors ++ assumptions) (s₁.tick.beginSearchControl limits) s₂) :
      Searches O config (s₀.scopeSelectors ++ assumptions) s₂

/-- The states of a run: between operations while the clauses are not refuted, and in the loop of a
query. -/
inductive Occurs (O : Oracle) (config : SolverConfig) (s : Solver) : Prop
  | resting (run : Reachable O config s) (consistent : s.consistent = true)
  | searching {A : List Lit} (search : Searches O config A s)

lemma Searches.engaged (h : Searches O config A s) :
    ∃ Γ, Engaged Γ s ∧ ∀ a ∈ A, a.var < s.variableCount := by
  cases h with
  | @intro s₀ s₁ _ assumptions limits run known prepared visits =>
    have hstanding := run.standing
    have hready := hstanding.prepareQuery O
    rw [prepared] at hready
    cases hready with
    | done _ Γ hcore hroot hframe =>
      have hA : ∀ a ∈ s₀.scopeSelectors ++ assumptions, a.var < s₁.variableCount := fun a ha =>
        (hstanding.query_lt known a ha).trans_le hframe.count
      obtain ⟨hengaged, hkept⟩ := (Engaged.begin hcore hroot limits).visits hA visits
      refine ⟨Γ, hengaged, fun a ha => ?_⟩
      rw [congrArg Session.variableCount hkept.session]
      exact hA a ha

lemma Occurs.core (h : Occurs O config s) : ∃ Γ, Core Γ s := by
  cases h with
  | resting run hc =>
    cases run.standing with
    | valid Γ hv _ _ _ => exact ⟨Γ, (hv.consistent hc).1.core⟩
    | spent _ _ _ _ _ hcore => exact hcore hc
  | searching search =>
    obtain ⟨Γ, h, -⟩ := search.engaged
    exact ⟨Γ, h.searching.core⟩

/-- The first clause stored the other way round. -/
def exchanged (C : ClauseRef → Clause) : ClauseRef → Clause :=
  Function.update C (.binary 0) { C (.binary 0) with literals := (C (.binary 0)).literals.reverse }

end Solver

end Satrap
