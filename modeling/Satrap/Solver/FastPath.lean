/-
# The binary fast path

The fast path takes the other literal of a binary clause from the blocker of its watch, and leaves
the clause as it is stored; the general path swaps the literals and reads the first one.  Two
solvers that differ in this switch and in the order of the literals of binary clauses are twins, and
stay so: propagation returns the same clause, and the search takes the same course.
-/
import Mathlib.Data.List.Permutation
import Satrap.Solver.Engagement

namespace Satrap

open Logic

/-- The blocker of a binary watch is the other literal of the clause. -/
lemma ClauseDb.Ok.binary_watch {db : ClauseDb} {n : ℕ} {E : Set ℕ} (h : db.Ok n E) {l : Lit}
    {w : Watch} (hw : w ∈ db.watches l) (hb : w.clause.isBinary = true)
    (hd : (db.clause w.clause).deleted = false) :
    ((db.clause w.clause).literals = [l, w.blocker] ∨
      (db.clause w.clause).literals = [w.blocker, l]) ∧ w.blocker ≠ l := by
  obtain ⟨halloc, hsound⟩ := h.sound l w hw
  obtain ⟨hl, hblocker, hne⟩ := hsound hd
  obtain ⟨a, b, hab⟩ := List.length_eq_two.1 ((h.length w.clause halloc).2.1 hb)
  rw [ClauseDb.watched, hab] at hl
  rw [hab] at hblocker ⊢
  refine ⟨?_, hne⟩
  simp only [List.take_succ_cons, List.take_zero, List.mem_cons, List.not_mem_nil,
    or_false] at hl hblocker
  rcases hl with rfl | rfl <;> rcases hblocker with rfl | rfl
  · exact absurd rfl hne
  · exact .inl rfl
  · exact .inr rfl
  · exact absurd rfl hne

/-- Clauses that differ in the order of the literals of binary clauses only. -/
structure Reordered (C C' : ClauseRef → Clause) : Prop where
  long : ∀ i, C' (.long i) = C (.long i)
  learned : ∀ c, (C' c).learned = (C c).learned
  deleted : ∀ c, (C' c).deleted = (C c).deleted
  perm : ∀ c, ((C' c).literals).Perm (C c).literals

namespace Reordered

variable {C C' C'' : ClauseRef → Clause}

lemma refl (C : ClauseRef → Clause) : Reordered C C :=
  ⟨fun _ => rfl, fun _ => rfl, fun _ => rfl, fun _ => .refl _⟩

lemma symm (h : Reordered C C') : Reordered C' C :=
  ⟨fun i => (h.long i).symm, fun c => (h.learned c).symm, fun c => (h.deleted c).symm,
    fun c => (h.perm c).symm⟩

lemma trans (h : Reordered C C') (h' : Reordered C' C'') : Reordered C C'' :=
  ⟨fun i => (h'.long i).trans (h.long i), fun c => (h'.learned c).trans (h.learned c),
    fun c => (h'.deleted c).trans (h.deleted c), fun c => (h'.perm c).trans (h.perm c)⟩

/-- The same clause stored in both. -/
lemma update (h : Reordered C C') (c : ClauseRef) (x : Clause) :
    Reordered (Function.update C c x) (Function.update C' c x) := by
  have hsplit : ∀ d, Function.update C' c x d = Function.update C c x d ∨
      Function.update C' c x d = C' d ∧ Function.update C c x d = C d := by
    intro d
    by_cases hd : d = c
    · subst hd
      simp
    · simp [hd]
  constructor
  · intro i
    rcases hsplit (.long i) with heq | ⟨h1, h2⟩
    · exact heq
    · rw [h1, h2, h.long]
  · intro d
    rcases hsplit d with heq | ⟨h1, h2⟩
    · rw [heq]
    · rw [h1, h2, h.learned]
  · intro d
    rcases hsplit d with heq | ⟨h1, h2⟩
    · rw [heq]
    · rw [h1, h2, h.deleted]
  · intro d
    rcases hsplit d with heq | ⟨h1, h2⟩
    · rw [heq]
    · rw [h1, h2]
      exact h.perm d

/-- A binary clause stored in another order. -/
lemma swap {i : ℕ} {literals : List Lit} (h : literals.Perm (C (.binary i)).literals) :
    Reordered C (Function.update C (.binary i) { C (.binary i) with literals := literals }) := by
  constructor
  · intro j
    simp
  all_goals
    intro d
    by_cases hd : d = .binary i
    · subst hd
      simp [h]
    · simp [hd]

end Reordered

namespace Solver

variable {Γ : Set (List Lit)} {O : Oracle} {s s' : Solver} {C : ClauseRef → Clause} {fast : Bool}
  {p l : Lit} {D : Lit → Prop} {X : ClauseRef → Lit → Prop} {mode : PropagationMode} {A : List Lit}

/-- The solver with other stored clauses and another choice of the path. -/
def alter (s : Solver) (C : ClauseRef → Clause) (fast : Bool) : Solver :=
  { s with clause := C, config := { s.config with binaryFastPath := fast } }

/-- Solvers that differ in the choice of the path and in the order of the literals of binary
clauses. -/
inductive Twin (s : Solver) : Solver → Prop
  | intro (C : ClauseRef → Clause) (fast : Bool) (reordered : Reordered s.clause C) :
    Twin s (s.alter C fast)

/-- What twins share. -/
lemma Twin.frame (h : Twin s s') : s'.toTrailState = s.toTrailState ∧ s'.watches = s.watches ∧
    s'.toBranching = s.toBranching ∧ s'.toWork = s.toWork := by
  obtain ⟨C, fast, hC⟩ := h
  exact ⟨rfl, rfl, rfl, rfl⟩

/-! ### Visits -/

lemma enqueueInternal_alter (s : Solver) (C : ClauseRef → Clause) (fast savePhase : Bool) (l : Lit)
    (r : Option ClauseRef) : (s.alter C fast).enqueueInternal savePhase l r =
      ((s.enqueueInternal savePhase l r).1, (s.enqueueInternal savePhase l r).2.alter C fast) := by
  rw [enqueueInternal, enqueueInternal, show (s.alter C fast).value l = s.value l from rfl]
  cases s.value l with
  | none => rfl
  | some b => cases b <;> rfl

lemma enqueueInternal_frame (savePhase : Bool) (l : Lit) (r : Option ClauseRef) :
    (s.enqueueInternal savePhase l r).2.clause = s.clause ∧
      (s.enqueueInternal savePhase l r).2.config = s.config := by
  rw [enqueueInternal]
  split <;> exact ⟨rfl, rfl⟩

/-- What the watch of a binary clause comes to by its blocker. -/
def visitBlocker (mode : PropagationMode) (w : Watch) (s : Solver) : WatchOutcome × Solver :=
  match s.value w.blocker with
  | some true => (.keep w, s)
  | some false => (.conflict w, s)
  | none => (.keep w, (s.enqueueInternal mode.savePhase w.blocker (some w.clause)).2)

lemma visitBlocker_alter (w : Watch) :
    visitBlocker mode w (s.alter C fast) =
      ((visitBlocker mode w s).1, (visitBlocker mode w s).2.alter C fast) := by
  rw [visitBlocker, visitBlocker]
  change (match s.value w.blocker with | some true => _ | some false => _ | none => _) = _
  cases s.value w.blocker with
  | none =>
    dsimp only
    rw [enqueueInternal_alter]
  | some b => cases b <;> rfl

lemma visitBlocker_frame (mode : PropagationMode) (s : Solver) (w : Watch) :
    (visitBlocker mode w s).2.clause = s.clause ∧
      (visitBlocker mode w s).2.config = s.config := by
  rw [visitBlocker]
  split
  · exact ⟨rfl, rfl⟩
  · exact ⟨rfl, rfl⟩
  · exact enqueueInternal_frame ..

/-- Both paths do with the watch of a binary clause what its blocker says. -/
lemma visitWatch_binary {i : ℕ} {w : Watch} (hw : w.clause = .binary i)
    (hd : (s.clause w.clause).deleted = false) (hignored : mode.ignored ≠ some w.clause)
    (hliterals : (s.clause w.clause).literals = [l, w.blocker] ∨
      (s.clause w.clause).literals = [w.blocker, l]) (hne : w.blocker ≠ l) :
    ∃ C, Reordered s.clause C ∧ visitWatch mode l w s =
      ((visitBlocker mode w s).1, (visitBlocker mode w s).2.alter C s.config.binaryFastPath) := by
  have hbinary : w.clause.isBinary = true := by
    rw [hw]
    rfl
  rw [visitWatch, if_neg (by simp [hd]), if_neg hignored, hbinary, Bool.true_and]
  split
  · -- the fast path leaves the clause as it is stored
    refine ⟨s.clause, .refl _, ?_⟩
    change visitBlocker mode w s = _
    obtain ⟨hclause, hconfig⟩ := visitBlocker_frame mode s w
    rw [← hclause, ← hconfig]
    rfl
  split
  · next htrue =>
    refine ⟨s.clause, .refl _, ?_⟩
    rw [visitBlocker, htrue]
    rfl
  next htrue =>
  have hsecond : falsifiedSecond l (s.clause w.clause).literals = [w.blocker, l] := by
    rcases hliterals with h | h
    · rw [h, falsifiedSecond, if_pos rfl]
    · rw [h, falsifiedSecond, if_neg hne]
  rw [hsecond]
  dsimp only
  refine ⟨Function.update s.clause w.clause { s.clause w.clause with literals := [w.blocker, l] },
    ?_, ?_⟩
  · rw [hw] at hliterals ⊢
    refine Reordered.swap ?_
    rcases hliterals with h | h
    · rw [h]
      exact List.Perm.swap ..
    · rw [h]
  change (if s.value w.blocker = some false then _ else _) = _
  rw [visitBlocker]
  cases hv : s.value w.blocker with
  | none =>
    have h := congrArg Prod.snd (enqueueInternal_alter s (Function.update s.clause w.clause
      { s.clause w.clause with literals := [w.blocker, l] }) s.config.binaryFastPath
      mode.savePhase w.blocker (some w.clause))
    exact congrArg (Prod.mk (WatchOutcome.keep w)) h
  | some b =>
    cases b with
    | true => exact absurd hv htrue
    | false => rfl

/-- The same outcome, and twins. -/
def SameStep {α : Type} (r r' : α × Solver) : Prop := r'.1 = r.1 ∧ Twin r.2 r'.2

lemma SameStep.of_alter {α : Type} {r r' : α × Solver} (C : ClauseRef → Clause) (fast : Bool)
    (h : Reordered r.2.clause C) (heq : r' = (r.1, r.2.alter C fast)) : SameStep r r' := by
  subst heq
  exact ⟨rfl, .intro C fast h⟩

/-- The paths agree on the watch of a binary clause. -/
lemma visitWatch_binary_twin {i : ℕ} {w : Watch} (ha : Twin s s') (hw : w.clause = .binary i)
    (hd : (s.clause w.clause).deleted = false) (hignored : mode.ignored ≠ some w.clause)
    (hliterals : (s.clause w.clause).literals = [l, w.blocker] ∨
      (s.clause w.clause).literals = [w.blocker, l]) (hne : w.blocker ≠ l) :
    SameStep (visitWatch mode l w s) (visitWatch mode l w s') := by
  obtain ⟨C, fast, hC⟩ := ha
  obtain ⟨C₁, h₁, heq₁⟩ := visitWatch_binary hw hd hignored hliterals hne
  have hliterals' : (C w.clause).literals = [l, w.blocker] ∨
      (C w.clause).literals = [w.blocker, l] := by
    have hperm := hC.perm w.clause
    rcases hliterals with h | h <;> rw [h] at hperm
    · exact List.perm_pair.1 hperm
    · exact (List.perm_pair.1 hperm).symm
  obtain ⟨C₂, h₂, heq₂⟩ := visitWatch_binary (s := s.alter C fast) hw
    ((hC.deleted _).trans hd) hignored hliterals' hne
  rw [heq₁, heq₂, visitBlocker_alter]
  exact ⟨rfl, .intro (s := (visitBlocker mode w s).2.alter C₁ s.config.binaryFastPath) C₂ _
    ((h₁.symm.trans hC).trans h₂)⟩

lemma SameStep.enqueueInternal (ha : Twin s s') (savePhase : Bool) (l : Lit)
    (r : Option ClauseRef) : SameStep (s.enqueueInternal savePhase l r)
      (s'.enqueueInternal savePhase l r) := by
  obtain ⟨C, fast, hC⟩ := ha
  refine .of_alter C fast ?_ (enqueueInternal_alter s C fast savePhase l r)
  rw [(enqueueInternal_frame savePhase l r).1]
  exact hC

lemma triggerShadowClause_twin (ha : Twin s s') (c : ClauseRef) :
    Twin (s.triggerShadowClause c) (s'.triggerShadowClause c) := by
  obtain ⟨C, fast, hC⟩ := ha
  cases c with
  | binary i => exact .intro C fast hC
  | long i =>
    rw [triggerShadowClause, triggerShadowClause]
    change Twin _ (if s.shadowStates i = .observing then _ else _)
    split
    · exact .intro (s := { s with shadowStates := _ }) C fast hC
    · exact .intro C fast hC

lemma clauseIsShadow_twin (ha : Twin s s') (c : ClauseRef) :
    s'.clauseIsShadow c = s.clauseIsShadow c := by
  obtain ⟨C, fast, hC⟩ := ha
  cases c <;> rfl

lemma reorder_twin (ha : Twin s s') (i : ℕ) (literals : List Lit) :
    Twin (s.reorder (.long i) literals) (s'.reorder (.long i) literals) := by
  obtain ⟨C, fast, hC⟩ := ha
  have hupdate := hC.update (.long i) { s.clause (.long i) with literals := literals }
  have heq : (s.alter C fast).reorder (.long i) literals =
      (s.reorder (.long i) literals).alter (Function.update C (.long i)
        { s.clause (.long i) with literals := literals }) fast := by
    rw [← hC.long i]
    rfl
  rw [heq]
  exact .intro _ fast hupdate

lemma pushWatch_twin (ha : Twin s s') (l : Lit) (w : Watch) :
    Twin (s.withDb (s.toClauseDb.pushWatch l w)) (s'.withDb (s'.toClauseDb.pushWatch l w)) := by
  obtain ⟨C, fast, hC⟩ := ha
  exact .intro (s := s.withDb (s.toClauseDb.pushWatch l w)) C fast hC

lemma setWatches_twin (ha : Twin s s') (l : Lit) (ws : List Watch) :
    Twin (s.withDb (s.toClauseDb.setWatches l ws)) (s'.withDb (s'.toClauseDb.setWatches l ws)) := by
  obtain ⟨C, fast, hC⟩ := ha
  exact .intro (s := s.withDb (s.toClauseDb.setWatches l ws)) C fast hC

lemma visitUnblocked_twin (ha : Twin s s') (i : ℕ) (first second : Lit) (rest : List Lit) :
    SameStep (visitUnblocked mode (.long i) first second rest s)
      (visitUnblocked mode (.long i) first second rest s') := by
  have hshadow := clauseIsShadow_twin ha (.long i)
  have hmove (k : ℕ) := pushWatch_twin (reorder_twin ha i
    (first :: rest.getD k second :: rest.set k second)) (rest.getD k second) ⟨.long i, first⟩
  have htrigger := triggerShadowClause_twin ha (.long i)
  have henqueue := SameStep.enqueueInternal ha mode.savePhase first (some (.long i))
  obtain ⟨C, fast, hC⟩ := ha
  rw [visitUnblocked, visitUnblocked, hshadow]
  rw [show (s.alter C fast).value = s.value from rfl]
  cases rest.findIdx? fun l => s.value l ≠ some false with
  | some k =>
    exact ⟨rfl, hmove k⟩
  | none =>
    dsimp only
    split
    · refine ⟨rfl, ?_⟩
      dsimp only
      split
      · exact .intro C fast hC
      · exact htrigger
    change SameStep _ (if s.value first = some false then _ else _)
    split
    · exact ⟨rfl, .intro C fast hC⟩
    · exact ⟨rfl, henqueue.2⟩

/-- A visit of the watch of a long clause does not depend on the path. -/
lemma visitWatch_long_twin {i : ℕ} {w : Watch} (ha : Twin s s') (hw : w.clause = .long i) :
    SameStep (visitWatch mode l w s) (visitWatch mode l w s') := by
  have hreorder (literals : List Lit) := reorder_twin ha i literals
  obtain ⟨C, fast, hC⟩ := ha
  have hclause : (s.alter C fast).clause w.clause = s.clause w.clause := by
    rw [hw]
    exact hC.long i
  have hbinary : w.clause.isBinary = false := by
    rw [hw]
    rfl
  rw [visitWatch, visitWatch, hclause, hbinary]
  split
  · exact ⟨rfl, .intro C fast hC⟩
  split
  · exact ⟨rfl, .intro C fast hC⟩
  rw [Bool.false_and, if_neg Bool.false_ne_true, Bool.false_and, if_neg Bool.false_ne_true]
  change SameStep _ (if s.value w.blocker = some true then _ else _)
  split
  · exact ⟨rfl, .intro C fast hC⟩
  cases falsifiedSecond l (s.clause w.clause).literals with
  | nil => exact ⟨rfl, .intro C fast hC⟩
  | cons first literals =>
    cases literals with
    | nil => exact ⟨rfl, .intro C fast hC⟩
    | cons second rest =>
      dsimp only
      rw [if_neg Bool.false_ne_true, if_neg Bool.false_ne_true]
      rw [hw]
      change SameStep (if s.value first = some true then _ else _)
        (if s.value first = some true then _ else _)
      split
      · exact ⟨rfl, hreorder _⟩
      · exact visitUnblocked_twin (hreorder _) i first second rest

/-- A visit during a scan does not depend on the path. -/
lemma visitWatch_twin {kept pending : List Watch} {w : Watch}
    (h : Scanning Γ X D p kept (w :: pending) s) (ha : Twin s s') :
    SameStep (visitWatch mode (-p) w s) (visitWatch mode (-p) w s') := by
  cases hc : w.clause with
  | long i => exact visitWatch_long_twin ha hc
  | binary i =>
    have hdeleted : (s'.clause w.clause).deleted = (s.clause w.clause).deleted := by
      obtain ⟨C, fast, hC⟩ := ha
      exact hC.deleted _
    by_cases hd : (s.clause w.clause).deleted = true
    · rw [visitWatch, visitWatch, if_pos hd, if_pos (hdeleted.trans hd)]
      exact ⟨rfl, ha⟩
    by_cases hignored : mode.ignored = some w.clause
    · have hd' : ¬(s'.clause w.clause).deleted = true := by rwa [hdeleted]
      rw [visitWatch, visitWatch, if_neg hd, if_neg hd', if_pos hignored, if_pos hignored]
      exact ⟨rfl, ha⟩
    have hmem : w ∈ (s.withList (-p) (kept ++ w :: pending)).watches (-p) := by
      simp [withList, withDb, ClauseDb.setWatches]
    obtain ⟨hliterals, hne⟩ := h.core.db.binary_watch hmem (hc ▸ rfl) (Bool.eq_false_iff.2 hd)
    exact visitWatch_binary_twin ha hc (Bool.eq_false_iff.2 hd) hignored hliterals hne

/-! ### Propagation -/

lemma scanWatches_twin : ∀ (pending kept : List Watch) (s s' : Solver),
    Scanning Γ (exempt False) D p kept pending s → Twin s s' →
    (scanWatches mode (-p) pending s').1 = (scanWatches mode (-p) pending s).1 ∧
      SameStep (scanWatches mode (-p) pending s).2 (scanWatches mode (-p) pending s').2 := by
  intro pending
  induction pending with
  | nil => exact fun kept s s' _ ha => ⟨rfl, rfl, ha⟩
  | cons w pending ih =>
    intro kept s s' h ha
    have hvisit : SameStep (visitWatch mode (-p) w s) (visitWatch mode (-p) w s') :=
      visitWatch_twin h ha
    obtain ⟨houtcome, ha'⟩ := hvisit
    have hok : VisitOk Γ (exempt False) D p kept pending w.clause (visitWatch mode (-p) w s) :=
      (visitWatch_spec h fun _ _ => id).1
    rw [scanWatches, scanWatches]
    generalize visitWatch mode (-p) w s = r at houtcome ha' hok
    generalize visitWatch mode (-p) w s' = r' at houtcome ha'
    obtain ⟨outcome, t⟩ := r
    obtain ⟨outcome', t'⟩ := r'
    obtain rfl : outcome' = outcome := houtcome
    cases outcome' with
    | drop => exact ih kept t t' hok ha'
    | keep v =>
      obtain ⟨hconflict, hretained, ha''⟩ := ih (kept ++ [v]) t t' hok ha'
      exact ⟨hconflict, congrArg (v :: ·) hretained, ha''⟩
    | conflict v => exact ⟨rfl, rfl, ha'⟩

lemma beginScan_twin (ha : Twin s s') (l : Lit) :
    Twin (s.beginScan mode l) (s'.beginScan mode l) := by
  obtain ⟨C, fast, hC⟩ := ha
  exact .intro (s := s.beginScan mode l) C fast hC

/-- A round of propagation does not depend on the path. -/
lemma propagateLiteral_twin (h : Core Γ s) (hp : s.trail[s.propagationHead]? = some p)
    (ha : Twin s s') : SameStep (s.propagateLiteral mode p) (s'.propagateLiteral mode p) := by
  have hscanning := h.scanning (Settled.of_not id s s.Done) hp mode
  obtain ⟨hconflict, hretained, ha'⟩ := scanWatches_twin (s.watches (-p)) [] _ _ hscanning
    (beginScan_twin ha (-p))
  rw [propagateLiteral, propagateLiteral, ha.frame.2.1]
  generalize scanWatches mode (-p) (s.watches (-p)) (s.beginScan mode (-p)) = r
    at hconflict hretained ha'
  generalize scanWatches mode (-p) (s.watches (-p)) (s'.beginScan mode (-p)) = r'
    at hconflict hretained ha'
  obtain ⟨conflict, retained, t⟩ := r
  obtain ⟨conflict', retained', t'⟩ := r'
  obtain rfl : retained' = retained := hretained
  exact ⟨hconflict, setWatches_twin ha' (-p) retained'⟩

lemma pollSearchStop_twin (ha : Twin s s') (O : Oracle) :
    SameStep (s.pollSearchStop O) (s'.pollSearchStop O) := by
  obtain ⟨C, fast, hC⟩ := ha
  refine .of_alter C fast ?_ ?_
  · rw [pollSearchStop]
    split
    · exact hC
    split <;> exact hC
  · rw [pollSearchStop, pollSearchStop]
    change (if !s.searchControlActive then _ else _) = _
    split
    · rfl
    rw [show (s.alter C fast).stopReason = s.stopReason from rfl]
    cases s.stopReason <;> rfl

/-- Propagation does not depend on the path. -/
lemma propagateLoop_twin (O : Oracle) : ∀ (fuel : ℕ) (s s' : Solver), Core Γ s → Twin s s' →
    SameStep (propagateLoop O mode fuel s) (propagateLoop O mode fuel s') := by
  intro fuel
  induction fuel with
  | zero => exact fun s s' _ ha => ⟨rfl, ha⟩
  | succ fuel ih =>
    intro s s' h ha
    rw [propagateLoop, propagateLoop, ha.frame.1]
    cases hp : s.trail[s.propagationHead]? with
    | none => exact ⟨rfl, ha⟩
    | some p =>
      have hpoll := pollSearchStop_twin ha O
      have hcore := h.poll O
      have hhead : (s.pollSearchStop O).2.trail[(s.pollSearchStop O).2.propagationHead]? =
          some p := by
        obtain ⟨n, r, heq⟩ := poll_eq O s
        rw [heq]
        exact hp
      dsimp only
      generalize s.pollSearchStop O = r at hpoll hcore hhead
      generalize s'.pollSearchStop O = r' at hpoll
      obtain ⟨reason, t⟩ := r
      obtain ⟨reason', t'⟩ := r'
      obtain ⟨hreason, ha'⟩ := hpoll
      obtain rfl : reason' = reason := hreason
      cases reason' with
      | some reason => exact ⟨rfl, ha'⟩
      | none =>
        have hround : SameStep (t.propagateLiteral mode p) (t'.propagateLiteral mode p) :=
          propagateLiteral_twin hcore hhead ha'
        have hspec := (propagateLiteral_spec mode hcore
          (Settled.of_not (P := False) id t t.Done) hhead fun _ _ => id).2.2
        dsimp only
        generalize t.propagateLiteral mode p = q at hround hspec
        generalize t'.propagateLiteral mode p = q' at hround
        obtain ⟨conflict, u⟩ := q
        obtain ⟨conflict', u'⟩ := q'
        obtain ⟨hconflict, ha''⟩ := hround
        obtain rfl : conflict' = conflict := hconflict
        cases conflict' with
        | some c => exact ⟨rfl, ha''⟩
        | none => exact ih u u' hspec.1 ha''

lemma propagateInternal_twin (h : Core Γ s) (ha : Twin s s') (O : Oracle)
    (mode : PropagationMode) :
    SameStep (s.propagateInternal O mode) (s'.propagateInternal O mode) := by
  have hcount : s'.variableCount = s.variableCount := by
    obtain ⟨C, fast, hC⟩ := ha
    rfl
  rw [propagateInternal, propagateInternal, hcount]
  exact propagateLoop_twin O _ s s' h ha

/-- `propagate` does not depend on the path. -/
lemma propagate_twin (h : Core Γ s) (ha : Twin s s') (O : Oracle) :
    SameStep (s.propagate O) (s'.propagate O) := by
  have hinternal := propagateInternal_twin h ha O {}
  obtain ⟨C, fast, hC⟩ := ha
  rw [propagate, propagate, show (s.alter C fast).shadowDeferredRootConflict =
    s.shadowDeferredRootConflict from rfl]
  cases s.shadowDeferredRootConflict with
  | some c => exact ⟨rfl, .intro (s := { s with shadowDeferredRootConflict := none }) C fast hC⟩
  | none => exact hinternal

end Solver

end Satrap
