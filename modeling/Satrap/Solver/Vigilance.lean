/-
# No clause escapes its watches

`Settled` speaks of single watches, and of learned clauses only at the root.  `Watchful` is
what is left of the watch invariant for every active clause, also for one that has been
attached to a literal already false: when both watches have been propagated, some literal is
true, of a level that backtracking cannot remove before it has freed a watch.  Propagation
that comes to an end without a conflict therefore leaves no active clause false.
-/
import Satrap.Solver.Storing

namespace Satrap

open Logic

namespace Solver

variable {Γ : Set (List Lit)} {s s' : Solver} {c d : ClauseRef} {l q p : Lit}
  {X : ClauseRef → Prop} {D : Lit → Prop} {mode : PropagationMode}

/-- What it takes for a clause both of whose watches have been propagated to be harmless.  An
observed clause need only be decided when it may be reactivated, at the root. -/
structure Guarded (s : Solver) (c : ClauseRef) : Prop where
  visible : s.clauseIsShadow c = false →
    ∃ q ∈ s.literals c, s.value q = some true ∧ ∃ l ∈ s.watched c, s.levels q.var ≤ s.levels l.var
  shadow : s.clauseIsShadow c = true → (∀ l ∈ s.watched c, s.levels l.var = 0) →
    s.RootTrue c ∨ ∀ q ∈ (s.literals c).drop 2, s.RootFalse q

/-- Every active clause that is not exempt has a watch that waits, or is harmless. -/
def Watchful (s : Solver) (D : Lit → Prop) (X : ClauseRef → Prop) : Prop :=
  ∀ c, s.Active c → ¬ X c → (∀ l ∈ s.watched c, D l) → s.Guarded c

/-- Being harmless survives propagation, as long as the watched literals stay. -/
lemma Guarded.of_extended (h : s.Guarded c) (hp : Extended s s')
    (hlev : ∀ l ∈ s.watched c, s.value l ≠ none) (hw : ∀ q, q ∈ s'.watched c ↔ q ∈ s.watched c)
    (hrest : ∀ q, q ∈ (s'.literals c).drop 2 ↔ q ∈ (s.literals c).drop 2) : s'.Guarded c := by
  have hsame : ∀ l ∈ s.watched c, s'.levels l.var = s.levels l.var := fun l hl =>
    hp.trail.levels (hlev l hl)
  constructor
  · intro hs
    obtain ⟨q, hq, hv, l, hl, hle⟩ := h.visible ((hp.isShadow c).symm.trans hs)
    refine ⟨q, hp.mem_literals.2 hq, hp.trail.value hv, l, (hw l).2 hl, ?_⟩
    rw [hp.trail.levels (by rw [hv]; simp), hsame l hl]
    exact hle
  · intro hs h0
    refine (h.shadow ((hp.isShadow c).symm.trans hs) fun l hl => ?_).imp hp.rootTrue
      fun hall q hq => hp.rootFalse (hall q ((hrest q).1 hq))
    rw [← hsame l hl]
    exact h0 l ((hw l).2 hl)

/-- The trail and what belongs to the clause are as before. -/
lemma Guarded.of_frame (h : s.Guarded c) (ht : s'.toTrailState = s.toTrailState)
    (hl : s'.literals c = s.literals c) (hsh : s'.clauseIsShadow c = s.clauseIsShadow c) :
    s'.Guarded c := by
  have hw : s'.watched c = s.watched c := congrArg (List.take 2) hl
  constructor
  · rw [hsh, hl, ht, hw]
    exact h.visible
  · have hshadow := h.shadow
    simp only [RootTrue, RootFalse] at hshadow ⊢
    rw [hsh, hl, ht, hw]
    exact hshadow

/-- The state is the same as far as the watch invariant goes. -/
lemma Guarded.congr (h : s.Guarded c) (ht : s'.toTrailState = s.toTrailState)
    (hdb : s'.toClauseDb = s.toClauseDb) (hconfig : s'.config = s.config) : s'.Guarded c := by
  refine h.of_frame ht (by simp only [literals, hdb]) ?_
  cases c with
  | binary i => rfl
  | long i => simp only [clauseIsShadow, hdb, hconfig]

lemma Watchful.congr (h : s.Watchful D X) (ht : s'.toTrailState = s.toTrailState)
    (hdb : s'.toClauseDb = s.toClauseDb) (hconfig : s'.config = s.config) : s'.Watchful D X :=
  fun c hc hX hD => Guarded.congr (h c (by rwa [← hdb]) hX (by rwa [← hdb])) ht hdb hconfig

lemma Watchful.congr_done (h : s.Watchful s.Done X) (ht : s'.toTrailState = s.toTrailState)
    (hdb : s'.toClauseDb = s.toClauseDb) (hconfig : s'.config = s.config) :
    s'.Watchful s'.Done X := by
  have hD : s'.Done = s.Done := by rw [← ht]
  rw [hD]
  exact h.congr ht hdb hconfig

lemma Watchful.mono {Y : ClauseRef → Prop} (h : s.Watchful D X) (hXY : ∀ c, X c → Y c) :
    s.Watchful D Y :=
  fun c hc hY hD => h c hc (fun hX => hY (hXY c hX)) hD

/-- With everything propagated, no visible clause is false. -/
lemma Watchful.not_falsified (h : s.Watchful s.Done X) (hcore : Core Γ s)
    (hhead : s.propagationHead = s.trail.length) (hc : s.Active c)
    (hsh : s.clauseIsShadow c = false) (hX : ¬ X c) : ¬ s.Falsified c := by
  intro hf
  obtain ⟨q, hq, hv, -⟩ := (h c hc hX fun l hl => by
    have hlc : l ∈ s.literals c := List.mem_of_mem_take hl
    have hneg := (hcore.trail.neg_mem_iff (hcore.active_var hc hlc)).2 (hf l hlc)
    obtain ⟨i, hi⟩ := List.mem_iff_getElem?.1 hneg
    exact ⟨i, by rw [hhead]; exact (List.getElem?_eq_some_iff.1 hi).1, hi⟩).visible hsh
  rw [hf q hq] at hv
  simp at hv

/-! ### One visit -/

/-- What a visit without a conflict leaves of the clause it is about: the watch has moved to a
literal that is not false, or the clause is to be ignored, satisfied, or observed and out of
literals. -/
inductive Visited (mode : PropagationMode) (f : Lit) (c : ClauseRef) (s : Solver) : Prop
  | moved (r : Lit) (watched : r ∈ s.watched c) (value : s.value r ≠ some false)
  | ignored (watched : f ∈ s.watched c) (ignored : mode.ignored = some c)
  | satisfied (watched : f ∈ s.watched c) (q : Lit) (mem : q ∈ s.literals c)
      (value : s.value q = some true)
  | triggered (watched : f ∈ s.watched c) (shadow : s.clauseIsShadow c = true)
      (rest : ∀ q ∈ (s.literals c).drop 2, s.value q = some false)

/-- The clause of a conflict keeps its watch. -/
def VisitLeaves (mode : PropagationMode) (f : Lit) (c : ClauseRef) : WatchOutcome × Solver → Prop
  | (.conflict _, s) => f ∈ s.watched c
  | (.drop, s) => Visited mode f c s
  | (.keep _, s) => Visited mode f c s

section Visit

variable {kept pending : List Watch} {w : Watch} {Y : ClauseRef → Lit → Prop}

/-- The enqueued literal satisfies the clause. -/
lemma visited_enqueue (savePhase : Bool) (hf : p ∈ s.watched c) (hl : l ∈ s.literals c)
    (hv : s.value l ≠ some false) (r : Option ClauseRef) :
    Visited mode p c (s.enqueueInternal savePhase l r).2 := by
  cases hval : s.value l with
  | none =>
    rw [enqueueInternal_of_none savePhase hval]
    exact .satisfied hf l hl (TrailState.value_push_self _)
  | some b =>
    cases b with
    | false => exact absurd hval hv
    | true =>
      rw [enqueueInternal, hval]
      exact .satisfied hf l hl hval

lemma visitUnblocked_leaves (mode : PropagationMode) {first : Lit} {rest : List Lit}
    (hl : s.literals c = first :: p :: rest) :
    VisitLeaves mode p c (visitUnblocked mode c first p rest s) := by
  have hf : p ∈ s.watched c := by
    show p ∈ (s.literals c).take 2
    rw [hl]
    simp
  rw [visitUnblocked]
  split
  · next k hk =>
    obtain ⟨hkl, hkv, -⟩ := List.findIdx?_eq_some_iff_getElem.1 hk
    refine .moved (rest.getD k p) ?_ ?_
    · show _ ∈ ((s.toClauseDb.setLiterals c _).clause c).literals.take 2
      rw [ClauseDb.setLiterals_clause, if_pos rfl]
      simp
    · rw [List.getD_eq_getElem?_getD, List.getElem?_eq_getElem hkl, Option.getD_some]
      simpa using hkv
  · next hnone =>
    have hrest : ∀ q ∈ (s.literals c).drop 2, s.value q = some false := by
      rw [hl]
      exact findIdx_none hnone
    split
    · next hsh =>
      show Visited mode p c (if _ then s else _)
      split
      · exact .triggered hf hsh hrest
      · obtain ⟨states, he, hs⟩ := triggerShadowClause_eq s c
        rw [he]
        exact .triggered hf (((Propagated.withDb s hs).isShadow c).trans hsh) hrest
    · next hsh =>
      split
      · exact hf
      · next hv => exact visited_enqueue mode.savePhase hf (by rw [hl]; simp) hv _

lemma visitWatch_leaves (h : Scanning Γ Y D p kept (w :: pending) s)
    (hd : (s.clause w.clause).deleted = false) :
    VisitLeaves mode (-p) w.clause (visitWatch mode (-p) w s) := by
  obtain ⟨hf, hbl, -⟩ := h.watch_sound.2 hd
  have hact := h.active hd
  rw [visitWatch, if_neg (by simp [hd])]
  split
  · next hi => exact .ignored hf hi
  split
  · split
    · next hv => exact .satisfied hf w.blocker hbl hv
    · exact hf
    · next hv => exact visited_enqueue mode.savePhase hf hbl (by rw [hv]; simp) _
  split
  · next hv => exact .satisfied hf w.blocker hbl hv
  have hlen : 2 ≤ (s.clause w.clause).literals.length := (h.core.db.length w.clause hact.1).1
  have hnd : (s.clause w.clause).literals.Nodup :=
    List.Nodup.of_map _ (h.core.db.nodup w.clause hact.1)
  obtain ⟨first, rest, heq, -, hperm, -, -⟩ := falsifiedSecond_spec hlen hnd hf
  rw [heq]
  have hl : (s.reorder w.clause (first :: -p :: rest)).literals w.clause =
      first :: -p :: rest := by
    show ((s.toClauseDb.setLiterals _ _).clause w.clause).literals = _
    rw [ClauseDb.setLiterals_clause, if_pos rfl]
  have hf' : -p ∈ (s.reorder w.clause (first :: -p :: rest)).watched w.clause := by
    show -p ∈ ((s.reorder w.clause (first :: -p :: rest)).literals w.clause).take 2
    rw [hl]
    simp
  have hfirst : first ∈ (s.reorder w.clause (first :: -p :: rest)).literals w.clause := by
    rw [hl]
    simp
  dsimp only
  split
  · split
    · exact hf'
    · next hv => exact visited_enqueue mode.savePhase hf' hfirst hv _
  · split
    · next hv => exact .satisfied hf' first hfirst hv
    · exact visitUnblocked_leaves mode hl

/-! ### The scan -/

lemma Scanning.value_watched (h : Scanning Γ Y D p kept pending s)
    (hw : ∀ l ∈ s.watched c, D l ∨ l = -p) : ∀ l ∈ s.watched c, s.value l = some false := by
  intro l hl
  rcases hw l hl with hD | rfl
  · exact h.value_of_prop hD
  · exact h.value_neg

/-- A clause that has been visited is harmless if its watches have all been propagated. -/
lemma Scanning.guarded (h : Scanning Γ Y D p kept pending s) (hc : s.Active c)
    (hign : mode.ignored ≠ some c) (hv : Visited mode (-p) c s)
    (hw : ∀ l ∈ s.watched c, D l ∨ l = -p) : s.Guarded c := by
  cases hv with
  | moved r hr hvr => exact absurd (h.value_watched hw r hr) hvr
  | ignored _ hi => exact absurd hi hign
  | satisfied hf q hq hvq =>
    have hle : s.levels q.var ≤ s.levels (-p).var := h.level_le hvq (h.core.active_var hc hq)
    exact ⟨fun _ => ⟨q, hq, hvq, -p, hf, hle⟩, fun _ h0 =>
      .inl ⟨q, hq, hvq, Nat.le_zero.1 (hle.trans (h0 _ hf).le)⟩⟩
  | triggered hf hsh hrest =>
    refine ⟨fun hs => by rw [hsh] at hs; simp at hs, fun _ h0 => .inr fun q hq => ⟨hrest q hq, ?_⟩⟩
    have hroot : s.decisionLevel = 0 := h.level.symm.trans (h0 (-p) hf)
    have hmem := (h.core.trail.neg_mem_iff (h.core.active_var hc (List.mem_of_mem_drop hq))).2
      (hrest q hq)
    exact Nat.le_zero.1 ((h.core.trail.level_le hmem).trans hroot.le)

/-- The watch invariant in the middle of a scan. -/
structure Sweeping (X : ClauseRef → Prop) (D : Lit → Prop) (p : Lit) (pending : List Watch)
    (s : Solver) : Prop where
  settled : s.Watchful D X
  progress : ∀ c, s.Active c → ¬ X c → -p ∈ s.watched c → (∀ l ∈ s.watched c, D l ∨ l = -p) →
    (∃ w ∈ pending, w.clause = c) ∨ s.Guarded c

lemma Sweeping.visit (hs : Sweeping X D p (w :: pending) s)
    (h : Scanning Γ Y D p kept (w :: pending) s) (hign : ∀ c, mode.ignored = some c → X c)
    (hignY : ∀ c, mode.ignored = some c → Y c (-p)) :
    (visitWatch mode (-p) w s).2.Watchful D X ∧
      ((∀ v, (visitWatch mode (-p) w s).1 ≠ .conflict v) →
        Sweeping X D p pending (visitWatch mode (-p) w s).2) := by
  obtain ⟨hok, hp, hother, -⟩ := visitWatch_spec h hignY
  have hleaves (hd : (s.clause w.clause).deleted = false) :
      VisitLeaves mode (-p) w.clause (visitWatch mode (-p) w s) := visitWatch_leaves h hd
  generalize visitWatch mode (-p) w s = r at hok hp hother hleaves
  obtain ⟨outcome, s'⟩ := r
  dsimp only at hok hp hother hleaves ⊢
  -- the other clauses are as they were
  have hguard : ∀ c, c ≠ w.clause → (∀ l ∈ s.watched c, D l ∨ l = -p) → s.Guarded c →
      s'.Guarded c := fun c hcw hw hg => by
    refine hg.of_extended hp.toExtended (fun l hl => ?_) (fun q => ?_) fun q => ?_
    · rw [h.value_watched hw l hl]
      simp
    · simp only [ClauseDb.watched, hother c hcw]
    · simp only [literals, hother c hcw]
  have hfalse : ∀ r, D r ∨ r = -p → s'.value r = some false := by
    rintro r (hD | rfl)
    · exact hp.trail.value (h.value_of_prop hD)
    · exact hp.trail.value h.value_neg
  have hset : s'.Watchful D X := by
    intro c hc hX hw
    have hact := hp.db.active.1 hc
    by_cases hcw : c = w.clause
    · subst hcw
      exfalso
      have hfw : -p ∉ s'.watched w.clause := fun hf => h.fresh (hw _ hf)
      have hvisit : Visited mode (-p) w.clause s' := by
        cases outcome with
        | drop => exact hleaves hact.2
        | keep _ => exact hleaves hact.2
        | conflict _ => exact absurd (hleaves hact.2) hfw
      cases hvisit with
      | moved r hr hvr => exact hvr (hfalse r (.inl (hw r hr)))
      | ignored hf _ => exact hfw hf
      | satisfied hf => exact hfw hf
      | triggered hf => exact hfw hf
    · have hsame : s'.watched c = s.watched c := by simp only [ClauseDb.watched, hother c hcw]
      rw [hsame] at hw
      exact hguard c hcw (fun l hl => .inl (hw l hl)) (hs.settled c hact hX hw)
  refine ⟨hset, fun hne => ⟨hset, fun c hc hX hf hw => ?_⟩⟩
  have hact := hp.db.active.1 hc
  by_cases hcw : c = w.clause
  · subst hcw
    refine .inr ?_
    have hi : mode.ignored ≠ some w.clause := fun hi => hX (hign _ hi)
    cases outcome with
    | drop => exact Scanning.guarded hok hc hi (hleaves hact.2) hw
    | keep _ => exact Scanning.guarded hok hc hi (hleaves hact.2) hw
    | conflict v => exact absurd rfl (hne v)
  · have hsame : s'.watched c = s.watched c := by simp only [ClauseDb.watched, hother c hcw]
    rw [hsame] at hf hw
    refine (hs.progress c hact hX hf hw).imp ?_ (hguard c hcw hw)
    rintro ⟨v, hv, rfl⟩
    exact ⟨v, (List.mem_cons.1 hv).resolve_left fun he => hcw (by rw [he]), rfl⟩

lemma scanWatches_watchful (hign : ∀ c, mode.ignored = some c → X c)
    (hignY : ∀ c, mode.ignored = some c → Y c (-p)) :
    ∀ (pending kept : List Watch) (s : Solver), Scanning Γ Y D p kept pending s →
      Sweeping X D p pending s →
      (scanWatches mode (-p) pending s).2.2.Watchful D X ∧
        ((scanWatches mode (-p) pending s).1 = none →
          Sweeping X D p [] (scanWatches mode (-p) pending s).2.2) := by
  intro pending
  induction pending with
  | nil => exact fun kept s _ hs => ⟨hs.settled, fun _ => hs⟩
  | cons w pending ih =>
    intro kept s h hs
    obtain ⟨hok, -, -, -⟩ := visitWatch_spec h hignY
    obtain ⟨h1, h2⟩ := hs.visit h hign hignY
    rw [scanWatches]
    split
    · next s' he =>
      rw [he] at hok h1 h2
      exact ih kept s' hok (h2 (by simp))
    · next w' s' he =>
      rw [he] at hok h1 h2
      exact ih (kept ++ [w']) s' hok (h2 (by simp))
    · next w' s' he =>
      rw [he] at h1
      exact ⟨h1, by simp⟩

end Visit

/-! ### Propagation -/

/-- What propagation leaves of the watch invariant: after a conflict the watches of the literal
that was being propagated are out of account. -/
def PropagateWatchful (X : ClauseRef → Prop) (s : Solver) : Option ClauseRef → Prop
  | none => s.Watchful s.Done X
  | some _ => ∃ p ∈ s.trail, s.levels p.var = s.decisionLevel ∧
      s.Watchful (fun q => s.Done q ∧ q ≠ -p) X

lemma propagateLiteral_watchful (mode : PropagationMode) (h : Core Γ s)
    (hset : s.Watchful s.Done X) (hp : s.trail[s.propagationHead]? = some p)
    (hign : ∀ c, mode.ignored = some c → X c) :
    PropagateWatchful X (s.propagateLiteral mode p).2 (s.propagateLiteral mode p).1 := by
  have hscan : Scanning Γ (fun _ _ => True) s.Done p [] (s.watches (-p))
      (s.beginScan mode (-p)) := h.scanning (fun _ _ _ _ hX => absurd trivial hX) hp mode
  have hsweep : Sweeping X s.Done p (s.watches (-p)) (s.beginScan mode (-p)) := by
    have hcongr : ∀ {c}, s.Guarded c → (s.beginScan mode (-p)).Guarded c := fun hg =>
      ⟨hg.visible, hg.shadow⟩
    refine ⟨fun c hc hX hw => hcongr (hset c hc hX hw), fun c hc _ hf _ => ?_⟩
    obtain ⟨w, hw, rfl⟩ := h.db.complete c hc (-p) hf
    exact .inl ⟨w, hw, rfl⟩
  obtain ⟨h1, h2⟩ := scanWatches_watchful hign (fun _ _ => trivial) _ _ _ hscan hsweep
  obtain ⟨-, hok⟩ := scanWatches_spec (fun c (_ : mode.ignored = some c) => trivial) _ _ _ hscan
  rw [propagateLiteral]
  generalize scanWatches mode (-p) (s.watches (-p)) (s.beginScan mode (-p)) = r at h1 h2 hok
  obtain ⟨conflict, retained, s'⟩ := r
  have hcongr : ∀ {c}, s'.Guarded c →
      ({ s' with toClauseDb := s'.toClauseDb.setWatches (-p) retained } : Solver).Guarded c :=
    fun hg => ⟨hg.visible, hg.shadow⟩
  dsimp only at h1 h2 hok ⊢
  cases conflict with
  | none =>
    have hscan' : Scanning Γ (fun _ _ => True) s.Done p ([] ++ retained) [] s' := hok
    intro c hc hX hw
    have hw' : ∀ l ∈ s'.watched c, s.Done l ∨ l = -p := fun l hl => (hscan'.done l).1 (hw l hl)
    refine hcongr ?_
    by_cases hf : -p ∈ s'.watched c
    · exact ((h2 rfl).progress c hc hX hf hw').resolve_left (by simp)
    · exact h1 c hc hX fun l hl => (hw' l hl).resolve_right fun he => hf (he ▸ hl)
  | some c =>
    obtain ⟨-, -, -, kept, w, pending, -, -, hscan'⟩ := hok
    exact ⟨p, hscan'.mem_trail, hscan'.level, fun d hd hX hw => hcongr (h1 d hd hX fun l hl =>
      ((hscan'.done l).1 (hw l hl).1).resolve_right (hw l hl).2)⟩

lemma propagateLoop_watchful (O : Oracle) (hign : ∀ c, mode.ignored = some c → X c) :
    ∀ (fuel : ℕ) (s : Solver), Core Γ s → s.Watchful s.Done X →
      PropagateWatchful X (propagateLoop O mode fuel s).2 (propagateLoop O mode fuel s).1 := by
  intro fuel
  induction fuel with
  | zero => exact fun s _ hset => hset
  | succ fuel ih =>
    intro s h hset
    rw [propagateLoop]
    split
    · exact hset
    · next p hp =>
      obtain ⟨n, r, he⟩ := poll_eq O s
      have hset₁ : (s.pollSearchStop O).2.Watchful (s.pollSearchStop O).2.Done X := by
        rw [he]
        exact hset.congr_done rfl rfl rfl
      split
      · next hpoll => exact (congrArg Prod.snd hpoll) ▸ hset₁
      · next s₁ hpoll =>
        have h₁ : (s.pollSearchStop O).2 = s₁ := congrArg Prod.snd hpoll
        have hp₁ : s₁.trail[s₁.propagationHead]? = some p := by rw [← h₁, he]; exact hp
        have hcore₁ : Core Γ s₁ := h₁ ▸ h.poll O
        have hlit := propagateLiteral_watchful mode hcore₁ (h₁ ▸ hset₁) hp₁ hign
        obtain ⟨-, -, hok⟩ := propagateLiteral_spec (X := fun _ _ => True) mode hcore₁
          (fun _ _ _ _ hX => absurd trivial hX) hp₁ fun _ _ => trivial
        split
        · next c s₂ he₂ =>
          rw [he₂] at hlit
          exact hlit
        · next s₂ he₂ =>
          rw [he₂] at hlit hok
          exact ih s₂ hok.1 hlit

/-- **Propagation keeps every clause watched.** -/
lemma propagateInternal_watchful (O : Oracle) (h : Core Γ s) (hset : s.Watchful s.Done X)
    (hign : ∀ c, mode.ignored = some c → X c) :
    PropagateWatchful X (s.propagateInternal O mode).2 (s.propagateInternal O mode).1 :=
  propagateLoop_watchful O hign _ s h hset

/-! ### What propagation promises -/

/-- A call of `propagate` in `s` that comes to `conflict` and `s'`: unless it was stopped, it has
found every active clause that is false; what it returns is one; and what it enqueues follows
from a clause whose other literals were false before. -/
structure PropagationCorrect (s : Solver) (conflict : Option ClauseRef) (s' : Solver) : Prop where
  complete : conflict = none → ¬ (s'.searchControlActive = true ∧ s'.stopReason ≠ none) →
    ∀ c, s'.Active c → s'.clauseIsShadow c = false → ∃ q ∈ s'.literals c, s'.value q ≠ some false
  conflict : ∀ c, conflict = some c → s'.Active c ∧ s'.clauseIsShadow c = false ∧
    (∀ q ∈ s'.literals c, s'.value q = some false) ∧
    ∃ q ∈ s'.literals c, s'.levels q.var = s'.decisionLevel
  implied : ∀ (i : ℕ) (l : Lit), s'.trail[i]? = some l → l ∉ s.trail → ∃ c,
    s'.reasons l.var = some c ∧
    s'.Active c ∧ s'.clauseIsShadow c = false ∧ l ∈ s'.literals c ∧
    ∀ q ∈ s'.literals c, q ≠ l → s'.value q = some false ∧ ∃ j < i, s'.trail[j]? = some (-q)

/-- A variable of the extended trail was unassigned unless it was on the trail. -/
lemma Extended.unassigned (hp : Extended s s') (h : Core Γ s) (h' : Core Γ s') (hl : l ∈ s'.trail)
    (hn : l ∉ s.trail) : s.assignments l.var = none := by
  by_contra hne
  have hE : l.var ∉ s.eliminatedVariables := hp.eliminated ▸ h'.trail.var_notMem hl
  have hv' := h'.trail.value_of_mem hl
  cases hv : s.value l with
  | none => exact hne (TrailState.value_eq_none_iff.1 hv)
  | some b =>
    rw [hp.trail.value hv] at hv'
    obtain rfl : b = true := Option.some.inj hv'
    exact hn ((h.trail.mem_iff hE).2 hv)

lemma Propagated.implied_correct (hp : Propagated s s') (h : Core Γ s) (h' : Core Γ s') {i : ℕ}
    (hi : s'.trail[i]? = some l) (hn : l ∉ s.trail) : ∃ c, s'.reasons l.var = some c ∧
    s'.Active c ∧ s'.clauseIsShadow c = false ∧ l ∈ s'.literals c ∧
    ∀ q ∈ s'.literals c, q ≠ l → s'.value q = some false ∧ ∃ j < i, s'.trail[j]? = some (-q) := by
  have hmem := List.mem_of_getElem? hi
  obtain ⟨c, hr, hc, hsh⟩ := hp.implied l.var (hp.unassigned h h' hmem hn) (by
    rw [h'.trail.assigned l hmem]
    simp)
  obtain ⟨-, hlc, hothers⟩ := h'.reason i l c hi hr
  refine ⟨c, hr, hp.db.active.2 hc, (hp.isShadow c).trans hsh, hlc, fun q hq hql => ?_⟩
  obtain ⟨j, hj, hjq⟩ := hothers q hq hql
  exact ⟨TrailState.value_neg_eq_true_iff.1 (h'.trail.value_of_mem (List.mem_of_getElem? hjq)),
    j, hj, hjq⟩

lemma Conflict.correct {X : ClauseRef → Lit → Prop} (h : Conflict Γ X c s) : s.Active c ∧
    s.clauseIsShadow c = false ∧ (∀ q ∈ s.literals c, s.value q = some false) ∧
    ∃ q ∈ s.literals c, s.levels q.var = s.decisionLevel := by
  obtain ⟨p, -, hlev, hw, -⟩ := h.source
  exact ⟨h.active, h.visible, h.falsified, -p, List.mem_of_mem_take hw, hlev⟩

/-- Propagation in a state in which every clause is watched. -/
lemma propagateInternal_correct (O : Oracle) (h : Core Γ s)
    (hset : s.Watchful s.Done X) (hign : ∀ c, mode.ignored = some c → X c)
    (hX : ∀ c, s.Active c → s.clauseIsShadow c = false → ¬ X c) :
    PropagationCorrect s (s.propagateInternal O mode).1 (s.propagateInternal O mode).2 := by
  obtain ⟨hp, hok⟩ := propagateInternal_spec (X := fun _ _ => True) O h
    (fun _ _ _ _ hX => absurd trivial hX) fun c l (_ : mode.ignored = some c) _ => trivial
  have hw := propagateInternal_watchful O h hset hign
  generalize s.propagateInternal O mode = r at hp hok hw
  obtain ⟨conflict, s'⟩ := r
  dsimp only at hp hok hw ⊢
  have hcore' : Core Γ s' := by
    cases conflict with
    | none => exact hok.1
    | some c => exact (show Conflict Γ _ c s' from hok).core
  refine ⟨?_, ?_, fun i l hi hn => hp.implied_correct h hcore' hi hn⟩
  · rintro rfl hstop c hc hsh
    obtain ⟨-, -, hhead⟩ := hok
    have hnf := Watchful.not_falsified hw hcore' (hhead.resolve_right hstop) hc hsh
      (hX c (hp.db.active.1 hc) ((hp.isShadow c).symm.trans hsh))
    rw [Falsified] at hnf
    push Not at hnf
    exact hnf
  · rintro c rfl
    exact Conflict.correct hok

/-! ### Backtracking -/

/-- Backtracking that frees the watches of which nothing is claimed. -/
lemma Watchful.cancelUntil (hset : s.Watchful D X) (h : Core Γ s) (O : Oracle) {level : ℕ}
    (hlevel : level < s.decisionLevel) (hD : ∀ l, s.Done l → s.levels l.var ≤ level → D l) :
    (s.cancelUntil O level).Watchful (s.cancelUntil O level).Done X := by
  have hc := cancelled_cancelUntil O s level
  intro c hact hX hd
  have hact' : s.Active c := by rwa [hc.db] at hact
  rw [hc.db] at hd
  have hdone : ∀ l ∈ s.watched c, s.Done l ∧ s.levels l.var ≤ level := fun l hl => by
    obtain ⟨h1, h2⟩ := (h.done_cancelUntil O level).1 (hd l hl)
    exact ⟨h1, h2.resolve_right (Nat.not_le.2 hlevel)⟩
  have hlev : ∀ l ∈ s.watched c, (s.cancelUntil O level).levels l.var = s.levels l.var :=
    fun l hl => (h.kept_cancelUntil O hlevel (hdone l hl).1.mem (hdone l hl).2).2
  have hold := hset c hact' hX fun l hl => hD l (hdone l hl).1 (hdone l hl).2
  constructor
  · intro hs
    rw [hc.isShadow] at hs
    obtain ⟨q, hq, hv, l, hl, hle⟩ := hold.visible hs
    have hmem := (h.trail.mem_iff (h.active_var hact' hq)).2 hv
    obtain ⟨h1, h2⟩ := h.kept_cancelUntil O hlevel hmem (hle.trans (hdone l hl).2)
    exact ⟨q, by rw [hc.literals]; exact hq, h1, l, by rw [hc.db]; exact hl,
      by rw [h2, hlev l hl]; exact hle⟩
  · intro hs h0
    rw [hc.isShadow] at hs
    rw [hc.db] at h0
    refine (hold.shadow hs fun l hl => hlev l hl ▸ h0 l hl).imp
      (fun hr => hr.cancelUntil h hact' O hlevel) fun hall q hq => ?_
    rw [hc.literals] at hq
    exact (hall q hq).cancelUntil h hact' (List.mem_of_mem_drop hq) O hlevel

lemma Watchful.cancelUntil_done (hset : s.Watchful s.Done X) (h : Core Γ s) (O : Oracle)
    (level : ℕ) : (s.cancelUntil O level).Watchful (s.cancelUntil O level).Done X := by
  rcases Nat.lt_or_ge level s.decisionLevel with hlt | hge
  · exact hset.cancelUntil h O hlt fun _ hd _ => hd
  · rwa [cancelUntil_of_le O hge]

/-- Backtracking out of the level of a conflict: the watches whose scan was cut short are
unassigned again. -/
lemma PropagateWatchful.cancelUntil (hset : PropagateWatchful X s (some c)) (h : Core Γ s)
    (O : Oracle) {level : ℕ} (hlevel : level < s.decisionLevel) :
    (s.cancelUntil O level).Watchful (s.cancelUntil O level).Done X := by
  obtain ⟨p, -, hlev, hset⟩ := hset
  refine hset.cancelUntil h O hlevel fun l hd hle => ⟨hd, ?_⟩
  rintro rfl
  rw [Literal.var_neg, hlev] at hle
  omega

/-! ### Assignments and clauses -/

lemma Watchful.assign {n : ℕ} {E : Set ℕ} (hset : s.Watchful s.Done X)
    (ht : s.toTrailState.Ok n E) (savePhase : Bool) (hl : s.value l = none)
    (r : Option ClauseRef) : (s.assign savePhase l r).Watchful (s.assign savePhase l r).Done X := by
  intro c hc hX hD
  have hD' : ∀ q ∈ s.watched c, s.Done q := fun q hq => (TrailState.done_push ht r).1 (hD q hq)
  refine (hset c hc hX hD').of_extended (extended_assign s savePhase hl r) (fun q hq => ?_)
    (fun _ => .rfl) fun _ => .rfl
  rw [ht.done_value (hD' q hq)]
  simp

lemma Watchful.newLevel (hset : s.Watchful s.Done X) : s.newLevel.Watchful s.newLevel.Done X :=
  fun c hc hX hD => ⟨(hset c hc hX hD).visible, (hset c hc hX hD).shadow⟩

/-- A clause is added: it needs a watch that waits. -/
lemma Watchful.addClauseToDb {literals : List Lit} {learned : Bool} (hset : s.Watchful s.Done X)
    (h : Core Γ s)
    (hnew : (∀ l ∈ literals.take 2, s.Done l) → ∃ q ∈ literals, s.value q = some true ∧
      ∃ l ∈ literals.take 2, s.levels q.var ≤ s.levels l.var) :
    (s.addClauseToDb literals learned).Watchful (s.addClauseToDb literals learned).Done X := by
  intro c hc hX hD
  rcases ClauseDb.active_add.1 hc with hact | rfl
  · have hclause : (s.addClauseToDb literals learned).clause c = s.clause c :=
      ClauseDb.add_clause_of_allocated hact.1
    have hlits : (s.addClauseToDb literals learned).literals c = s.literals c :=
      literals_addClauseToDb hact.1
    rw [ClauseDb.watched, hclause] at hD
    obtain ⟨h1, h2⟩ := hset c hact hX hD
    constructor
    · rw [isShadow_addClauseToDb, hlits, ClauseDb.watched, hclause]
      exact h1
    · rw [isShadow_addClauseToDb, RootTrue, hlits, ClauseDb.watched, hclause]
      exact h2
  · have hlits : (s.addClauseToDb literals learned).literals (s.nextReference literals) = literals :=
      literals_addClauseToDb_next
    have hw : (s.addClauseToDb literals learned).watched (s.nextReference literals) =
        literals.take 2 := congrArg (List.take 2) hlits
    rw [hw] at hD
    constructor
    · rw [hlits, hw]
      exact fun _ => hnew hD
    · rw [isShadow_addClauseToDb, h.not_isShadow_next]
      simp

end Solver

end Satrap
