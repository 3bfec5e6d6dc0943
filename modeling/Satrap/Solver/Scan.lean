/-
# Unit propagation keeps the invariant

`visitWatch_spec` says what one visit of a watch does to the invariant, case by case as the
code has them; the scan of a watch list, a round of the loop, and the loop follow by
induction.  During a scan the list taken out is put back in thought: the invariant is stated
for the state with the kept and the pending watches as its list (`withList`).
-/
import Satrap.Solver.Propagate
import Satrap.Solver.Invariant

namespace Satrap

open Logic

namespace Solver

variable {P : Prop}
variable {Γ : Set (List Lit)} {s s' : Solver} {c d : ClauseRef} {l q p f : Lit}
  {X : ClauseRef → Lit → Prop} {D : Lit → Prop} {mode : PropagationMode}

/-! ### What propagation leaves alone -/

/-- The trail is extended and literals are reordered; the session stays. -/
structure Extended (s s' : Solver) : Prop where
  trail : TrailState.Grown s.toTrailState s'.toTrailState
  db : ClauseDb.Same s.toClauseDb s'.toClauseDb
  session : s'.toSession = s.toSession

namespace Extended

variable (h : Extended s s')
include h

lemma config : s'.config = s.config := congrArg Session.config h.session

lemma variableCount : s'.variableCount = s.variableCount :=
  congrArg Session.variableCount h.session

lemma records : s'.eliminationRecords = s.eliminationRecords :=
  congrArg Session.eliminationRecords h.session

lemma eliminated : s'.eliminatedVariables = s.eliminatedVariables := by
  rw [eliminatedVariables, h.records, eliminatedVariables]

lemma controlActive : s'.searchControlActive = s.searchControlActive :=
  congrArg Session.searchControlActive h.session

lemma transfer : s'.usesTransferBranching = s.usesTransferBranching := by
  rw [usesTransferBranching, h.config, usesTransferBranching]

lemma isShadow (c : ClauseRef) : s'.clauseIsShadow c = s.clauseIsShadow c := by
  cases c with
  | binary i => rfl
  | long i =>
    have := h.db.shadow i
    simp only [clauseIsShadow, h.config, ne_eq, this]

lemma mem_literals : q ∈ s'.literals c ↔ q ∈ s.literals c := h.db.mem

lemma rootFalse (hq : s.RootFalse q) : s'.RootFalse q :=
  ⟨h.trail.value hq.1, (h.trail.levels (by rw [hq.1]; simp)).trans hq.2⟩

lemma rootTrue (hc : s.RootTrue c) : s'.RootTrue c := by
  obtain ⟨q, hq, hv, h0⟩ := hc
  exact ⟨q, h.mem_literals.2 hq, h.trail.value hv,
    (h.trail.levels (by rw [hv]; simp)).trans h0⟩

end Extended

lemma extended_assign (s : Solver) (savePhase : Bool) (hl : s.value l = none)
    (r : Option ClauseRef) : Extended s (s.assign savePhase l r) :=
  ⟨TrailState.grown_push hl r, .refl _, rfl⟩

/-- Propagation changes, of the rest, only phases and counters, and what it assigns has a
clause in force as reason. -/
structure Propagated (s s' : Solver) : Prop extends Extended s s' where
  order : s'.order = s.order
  transferOrder : s'.transferOrder = s.transferOrder
  vmtf : s'.vmtf = s.vmtf
  seen : s'.seen = s.seen
  conflicts : s'.conflicts = s.conflicts
  deferred : s'.shadowDeferredRootConflict = s.shadowDeferredRootConflict
  proof : s'.proof = s.proof
  implied : ∀ v, s.assignments v = none → s'.assignments v ≠ none →
    ∃ c, s'.reasons v = some c ∧ s.Active c ∧ s.clauseIsShadow c = false

namespace Propagated

lemma refl (s : Solver) : Propagated s s :=
  ⟨⟨.refl _, .refl _, rfl⟩, rfl, rfl, rfl, rfl, rfl, rfl, rfl, fun _ hn hv => absurd hn hv⟩

lemma trans {s₁ s₂ s₃ : Solver} (h : Propagated s₁ s₂) (h' : Propagated s₂ s₃) :
    Propagated s₁ s₃ :=
  ⟨⟨h.trail.trans h'.trail, h.db.trans h'.db, h'.session.trans h.session⟩,
    h'.order.trans h.order, h'.transferOrder.trans h.transferOrder, h'.vmtf.trans h.vmtf,
    h'.seen.trans h.seen, h'.conflicts.trans h.conflicts, h'.deferred.trans h.deferred,
    h'.proof.trans h.proof, fun v hn hv => by
      by_cases hn' : s₂.assignments v = none
      · obtain ⟨c, hr, hact, hsh⟩ := h'.implied v hn' hv
        exact ⟨c, hr, h.db.active.1 hact, h.isShadow c ▸ hsh⟩
      · obtain ⟨c, hr, hc⟩ := h.implied v hn hn'
        exact ⟨c, (h'.trail.same v hn').2.2.trans hr, hc⟩⟩

lemma withDb (s : Solver) {db : ClauseDb} (h : ClauseDb.Same s.toClauseDb db) :
    Propagated s (s.withDb db) :=
  ⟨⟨.refl _, h, rfl⟩, rfl, rfl, rfl, rfl, rfl, rfl, rfl, fun _ hn hv => absurd hn hv⟩

lemma assign (s : Solver) (savePhase : Bool) (hl : s.value l = none) (hc : s.Active c)
    (hsh : s.clauseIsShadow c = false) : Propagated s (s.assign savePhase l (some c)) := by
  refine ⟨extended_assign s savePhase hl _, rfl, rfl, rfl, rfl, rfl, rfl, rfl,
    fun v hn hv => ?_⟩
  have hv' : Function.update s.assignments l.var (some l.positive) v ≠ none := hv
  have hvl : v = l.var := by
    by_contra hne
    rw [Function.update_of_ne hne] at hv'
    exact hv' hn
  refine ⟨c, ?_, hc, hsh⟩
  show Function.update s.reasons l.var (some c) v = some c
  rw [hvl, Function.update_self]

end Propagated

/-- Triggering an observed clause changes its state, and it stays observed. -/
lemma triggerShadowClause_eq (s : Solver) (c : ClauseRef) :
    ∃ states, s.triggerShadowClause c =
        s.withDb { s.toClauseDb with shadowStates := states } ∧
      ClauseDb.Same s.toClauseDb { s.toClauseDb with shadowStates := states } := by
  cases c with
  | binary i => exact ⟨s.shadowStates, rfl, .refl _⟩
  | long i =>
    rw [triggerShadowClause]
    split
    · next hobs =>
      refine ⟨_, rfl, rfl, rfl, fun _ => .rfl, fun _ => rfl, fun _ => rfl, rfl, fun j => ?_⟩
      by_cases hj : j = i
      · simp [hj, hobs]
      · simp [Function.update_of_ne hj]
    · exact ⟨s.shadowStates, rfl, .refl _⟩

/-! ### The state during a scan -/

/-- The state with the given watches as list of `f`. -/
def withList (s : Solver) (f : Lit) (ws : List Watch) : Solver :=
  s.withDb (s.toClauseDb.setWatches f ws)

/-- The scan of the watches of `-p`, with `kept` and `pending` as in the source.  `D` are the
literals that had been propagated before. -/
structure Scanning (Γ : Set (List Lit)) (X : ClauseRef → Lit → Prop) (D : Lit → Prop) (p : Lit)
    (kept pending : List Watch) (s : Solver) : Prop where
  core : Core Γ (s.withList (-p) (kept ++ pending))
  done : ∀ l, s.Done l ↔ D l ∨ l = -p
  fresh : ¬ D (-p)
  level : s.levels p.var = s.decisionLevel
  settled : s.Settled D X
  progress : ∀ c, s.Active c → -p ∈ s.watched c → ¬ X c (-p) →
    (∃ w ∈ pending, w.clause = c) ∨ s.SettledAt D c (-p)

namespace Scanning

variable {kept pending : List Watch} {w : Watch}

lemma mem_trail (h : Scanning Γ X D p kept pending s) : p ∈ s.trail := by
  obtain ⟨i, -, hi⟩ := (h.done (-p)).2 (.inr rfl)
  exact neg_neg p ▸ List.mem_of_getElem? hi

lemma value_neg (h : Scanning Γ X D p kept pending s) : s.value (-p) = some false := by
  rw [TrailState.value_neg_eq_false_iff]
  exact h.core.trail.value_of_mem h.mem_trail

lemma value_of_prop (h : Scanning Γ X D p kept pending s) (hl : D l) :
    s.value l = some false :=
  h.core.trail.done_value ((h.done l).2 (.inl hl))

lemma level_le (h : Scanning Γ X D p kept pending s) (hv : s.value q = some true)
    (hq : q.var ∉ s.eliminatedVariables) : s.levels q.var ≤ s.levels p.var := by
  rw [h.level]
  exact h.core.trail.level_le ((h.core.trail.mem_iff hq).2 hv)

/-- A true literal makes a clause harmless at the literal being propagated, since that is of
the current level. -/
lemma settledAt_of_true (h : Scanning Γ X D p kept pending s) (hc : s.Active c)
    (hq : q ∈ s.literals c) (hv : s.value q = some true) : s.SettledAt D c (-p) := by
  have hle := h.level_le hv (h.core.active_var hc hq)
  have hroot : s.levels (-p).var = 0 → s.RootTrue c := fun h0 =>
    ⟨q, hq, hv, Nat.le_zero.1 (hle.trans h0.le)⟩
  exact ⟨fun _ => ⟨q, hq, hv, hle⟩, fun _ h0 => .inl (hroot h0), fun _ h0 => .inl (hroot h0)⟩

end Scanning

/-! ### Transport of the watch invariant -/

/-- Being harmless survives propagation, as long as the watched literals stay. -/
lemma SettledAt.of_extended (h : s.SettledAt D c l) (hp : Extended s s')
    (hl : s.value l ≠ none) (hw : ∀ q, q ∈ s'.watched c ↔ q ∈ s.watched c)
    (hrest : ∀ q, q ∈ (s'.literals c).drop 2 ↔ q ∈ (s.literals c).drop 2) :
    s'.SettledAt D c l := by
  have hlev : s'.levels l.var = s.levels l.var := hp.trail.levels hl
  refine ⟨fun hle => ?_, fun hs h0 => ?_, fun hs h0 => ?_⟩
  · obtain ⟨q, hq, hv, hle⟩ := h.original ((hp.db.learned c).symm.trans hle)
    refine ⟨q, hp.mem_literals.2 hq, hp.trail.value hv, ?_⟩
    rw [hp.trail.levels (by rw [hv]; simp), hlev]
    exact hle
  · exact (h.active ((hp.isShadow c).symm.trans hs) (hlev.symm.trans h0)).imp hp.rootTrue
      fun hall => ⟨fun q hq => hall.1 q ((hw q).1 hq),
        fun q hq => hp.rootFalse (hall.2 q (hp.mem_literals.1 hq))⟩
  · refine (h.shadow ((hp.isShadow c).symm.trans hs) (hlev.symm.trans h0)).imp hp.rootTrue
      fun hall q hq => hp.rootFalse (hall q ((hrest q).1 hq))

namespace Scanning

variable {kept pending kept' pending' : List Watch} {w : Watch}

lemma transport (h : Scanning Γ X D p kept pending s) (hp : Propagated s s')
    (hcore : Core Γ (s'.withList (-p) (kept' ++ pending')))
    (hdone : ∀ l, s'.Done l ↔ s.Done l) (hw : ∀ c q, q ∈ s'.watched c ↔ q ∈ s.watched c)
    (hrest : ∀ c q, q ∈ (s'.literals c).drop 2 ↔ q ∈ (s.literals c).drop 2)
    (hpend : pending'.map Watch.clause = pending.map Watch.clause) :
    Scanning Γ X D p kept' pending' s' := by
  have hD : ∀ q, D q → s.value q ≠ none := fun q hq => by rw [h.value_of_prop hq]; simp
  have hneg : s.value (-p) ≠ none := by rw [h.value_neg]; simp
  refine ⟨hcore, fun l => (hdone l).trans (h.done l), h.fresh, ?_, ?_, ?_⟩
  · rw [show p.var = (-p).var from rfl, hp.trail.levels hneg, hp.trail.decisionLevel]
    exact h.level
  · intro c hc l hl hX hDl
    exact (h.settled c (hp.db.active.1 hc) l ((hw c l).1 hl) hX hDl).of_extended hp.toExtended
      (hD l hDl) (hw c) (hrest c)
  · intro c hc hf hX
    refine (h.progress c (hp.db.active.1 hc) ((hw c _).1 hf) hX).imp ?_ fun hs =>
      hs.of_extended hp.toExtended hneg (hw c) (hrest c)
    rintro ⟨v, hv, rfl⟩
    have : v.clause ∈ pending'.map Watch.clause := hpend ▸ List.mem_map_of_mem hv
    obtain ⟨v', hv', he⟩ := List.mem_map.1 this
    exact ⟨v', hv', he⟩

/-- The watch of a deleted clause is dropped. -/
lemma drop (h : Scanning Γ X D p kept (w :: pending) s)
    (hd : (s.clause w.clause).deleted = true) : Scanning Γ X D p kept pending s := by
  have hcore : Core Γ (s.withList (-p) (kept ++ pending)) :=
    h.core.withDb ((ClauseDb.same_setWatches _ _ _).symm.trans (ClauseDb.same_setWatches _ _ _))
      (h.core.db.scan_drop hd)
  refine ⟨hcore, h.done, h.fresh, h.level, h.settled, fun c hc hf hX => ?_⟩
  refine (h.progress c hc hf hX).imp_left ?_
  rintro ⟨v, hv, rfl⟩
  rcases List.mem_cons.1 hv with rfl | hv
  · exact absurd hc.2 (by simp [hd])
  · exact ⟨v, hv, rfl⟩

/-- The watch is kept as it is, its clause being harmless. -/
lemma keep (h : Scanning Γ X D p kept (w :: pending) s)
    (hc : s.Active w.clause → ¬ X w.clause (-p) → s.SettledAt D w.clause (-p)) :
    Scanning Γ X D p (kept ++ [w]) pending s := by
  refine ⟨by simpa using h.core, h.done, h.fresh, h.level, h.settled, fun c hca hf hX => ?_⟩
  rcases h.progress c hca hf hX with ⟨v, hv, rfl⟩ | hs
  · rcases List.mem_cons.1 hv with rfl | hv
    · exact .inr (hc hca hX)
    · exact .inl ⟨v, hv, rfl⟩
  · exact .inr hs

lemma watch_sound (h : Scanning Γ X D p kept (w :: pending) s) :
    s.Allocated w.clause ∧ ((s.clause w.clause).deleted = false →
      -p ∈ s.watched w.clause ∧ w.blocker ∈ s.literals w.clause ∧ w.blocker ≠ -p) :=
  h.core.db.scan_sound

lemma active (h : Scanning Γ X D p kept (w :: pending) s)
    (hd : (s.clause w.clause).deleted = false) : s.Active w.clause := ⟨h.watch_sound.1, hd⟩

/-- An unassigned literal is enqueued, the clause at hand being its reason. -/
lemma assign (h : Scanning Γ X D p kept pending s) (savePhase : Bool) (hl : s.value l = none)
    (hf : s.Forces c l) (hc : s.Active c) (hsh : s.clauseIsShadow c = false) :
    Scanning Γ X D p kept pending (s.assign savePhase l (some c)) := by
  refine h.transport (.assign s savePhase hl hc hsh) ?_ ?_ (fun _ _ => .rfl) (fun _ _ => .rfl) rfl
  · exact h.core.assign savePhase hl (h.core.db.lt c hf.1 l hf.2.1)
      (fun d hd => by cases hd; exact hf) (by simp)
  · exact fun q => TrailState.done_push h.core.trail (some c)

/-- The watched literals of the clause at hand are exchanged, or its blocker changes. -/
lemma reorder {b : Lit} {literals : List Lit} (h : Scanning Γ X D p kept (w :: pending) s)
    (hp : literals.Perm (s.literals w.clause))
    (hw : ∀ l, l ∈ literals.take 2 ↔ l ∈ s.watched w.clause)
    (hrest : ∀ l, l ∈ literals.drop 2 ↔ l ∈ (s.literals w.clause).drop 2)
    (hb : b ∈ literals) (hbp : b ≠ -p) :
    Scanning Γ X D p kept (⟨w.clause, b⟩ :: pending) (s.reorder w.clause literals) := by
  have hs := ClauseDb.same_setLiterals hp
  have hclause : ∀ c, ((s.reorder w.clause literals).clause c).literals =
      if c = w.clause then literals else (s.clause c).literals := by
    intro c
    rw [Solver.reorder, ClauseDb.setLiterals_clause]
    split <;> rfl
  refine h.transport (.withDb s hs) ?_ (fun _ => .rfl) (fun c q => ?_) (fun c q => ?_) rfl
  · exact h.core.withDb ((ClauseDb.same_setWatches _ _ _).symm.trans
      (hs.trans (ClauseDb.same_setWatches _ _ _))) (h.core.db.scan_keep hp hw hb hbp)
  · rw [ClauseDb.watched, hclause]
    split
    · next hc => rw [hc]; exact hw q
    · rfl
  · show q ∈ ((s.reorder w.clause literals).clause c).literals.drop 2 ↔ _
    rw [hclause]
    split
    · next hc => rw [hc]; exact hrest q
    · rfl

/-- The watch moves to an unwatched literal that is not false. -/
lemma move {first r : Lit} {k : ℕ} {rest : List Lit}
    (h : Scanning Γ X D p kept (w :: pending) s)
    (hd : (s.clause w.clause).deleted = false)
    (hl : s.literals w.clause = first :: -p :: rest) (hk : rest[k]? = some r)
    (hr : s.value r ≠ some false) :
    Scanning Γ X D p kept pending
      (s.withDb ((s.toClauseDb.setLiterals w.clause
        (first :: r :: rest.set k (-p))).pushWatch r ⟨w.clause, first⟩)) := by
  have hact := h.active hd
  have hwatched : ∀ l, l = first ∨ l = -p ↔ l ∈ s.watched w.clause := by
    intro l
    rw [ClauseDb.watched, show (s.clause w.clause).literals = _ from hl]
    simp
  have hdb := h.core.db.scan_move hd (.of_eq hl.symm) hwatched hk
  have hperm : (first :: r :: rest.set k (-p)).Perm (s.literals w.clause) := by
    rw [hl]
    exact (ClauseDb.perm_cons_set (-p) hk).cons first
  have hs : ClauseDb.Same s.toClauseDb
      ((s.toClauseDb.setLiterals w.clause (first :: r :: rest.set k (-p))).pushWatch r
        ⟨w.clause, first⟩) :=
    (ClauseDb.same_setLiterals hperm).trans (ClauseDb.same_pushWatch _ _ _)
  set s' := s.withDb ((s.toClauseDb.setLiterals w.clause
    (first :: r :: rest.set k (-p))).pushWatch r ⟨w.clause, first⟩) with hs'
  have hp : Propagated s s' := .withDb s hs
  have hnd : (first :: -p :: rest).Nodup :=
    hl ▸ List.Nodup.of_map _ (h.core.db.nodup w.clause hact.1)
  have hclause : ∀ c, s'.literals c =
      if c = w.clause then first :: r :: rest.set k (-p) else s.literals c := by
    intro c
    show ((s.toClauseDb.setLiterals w.clause _).clause c).literals = _
    rw [ClauseDb.setLiterals_clause]
    split <;> rfl
  have hrrest : r ∈ rest := List.mem_of_getElem? hk
  have hD : ∀ q, D q → s.value q ≠ none := fun q hq => by rw [h.value_of_prop hq]; simp
  have hother : ∀ c, c ≠ w.clause → s'.watched c = s.watched c := fun c hc => by
    show (s'.literals c).take 2 = (s.literals c).take 2
    rw [hclause, if_neg hc]
  have hself : s'.watched w.clause = [first, r] := by
    show (s'.literals w.clause).take 2 = _
    rw [hclause, if_pos rfl]
    rfl
  refine ⟨?_, h.done, h.fresh, h.level, fun c hc l hlw hX hDl => ?_, fun c hc hf hX => ?_⟩
  · exact h.core.withDb ((ClauseDb.same_setWatches _ _ _).symm.trans
      (hs.trans (ClauseDb.same_setWatches _ _ _))) hdb
  · by_cases hcw : c = w.clause
    · subst hcw
      rw [hself] at hlw
      have hlr : l ≠ r := fun he => hr (he ▸ h.value_of_prop hDl)
      obtain rfl : l = first := by simpa [hlr] using hlw
      have hold := h.settled w.clause hact l ((hwatched l).1 (.inl rfl)) hX hDl
      have hroot : s.clauseIsShadow w.clause = false → s.levels l.var = 0 →
          s.RootTrue w.clause := fun hsh h0 =>
        (hold.active hsh h0).resolve_right fun hall =>
          h.fresh (hall.1 (-p) ((hwatched _).1 (.inr rfl)))
      have hroot' : s.clauseIsShadow w.clause = true → s.levels l.var = 0 →
          s.RootTrue w.clause := fun hsh h0 =>
        (hold.shadow hsh h0).resolve_right fun hall =>
          hr (hall r (by rw [hl]; exact hrrest)).1
      refine ⟨fun hle => ?_, fun hsh h0 => .inl (hp.rootTrue (hroot hsh h0)),
        fun hsh h0 => .inl (hp.rootTrue (hroot' hsh h0))⟩
      obtain ⟨q, hq, hv, hle⟩ := hold.original ((hs.learned _).symm.trans hle)
      exact ⟨q, hp.mem_literals.2 hq, hv, hle⟩
    · refine (h.settled c (hs.active.1 hc) l (hother c hcw ▸ hlw) hX hDl).of_extended hp.toExtended
        (hD l hDl) (fun q => by rw [hother c hcw]) (fun q => ?_)
      rw [hclause, if_neg hcw]
  · by_cases hcw : c = w.clause
    · subst hcw
      rw [hself] at hf
      rcases List.mem_pair.1 hf with hf | hf
      · simp [hf] at hnd
      · simp only [List.nodup_cons] at hnd
        exact absurd (hf ▸ hrrest) hnd.2.1
    · rcases h.progress c (hs.active.1 hc) (hother c hcw ▸ hf) hX with ⟨v, hv, rfl⟩ | hsa
      · rcases List.mem_cons.1 hv with rfl | hv
        · exact absurd rfl hcw
        · exact .inl ⟨v, hv, rfl⟩
      · refine .inr (hsa.of_extended hp.toExtended (by rw [h.value_neg]; simp)
          (fun q => by rw [hother c hcw]) (fun q => ?_))
        rw [hclause, if_neg hcw]

/-- A shadow clause is triggered. -/
lemma trigger (h : Scanning Γ X D p kept pending s) (c : ClauseRef) :
    Scanning Γ X D p kept pending (s.triggerShadowClause c) ∧
      Propagated s (s.triggerShadowClause c) := by
  obtain ⟨states, he, hs⟩ := triggerShadowClause_eq s c
  have hp := Propagated.withDb s hs
  rw [he]
  refine ⟨h.transport hp ?_ (fun _ => .rfl) (fun _ _ => .rfl) (fun _ _ => .rfl) rfl, hp⟩
  have hdb := h.core.db
  have hview : ClauseDb.Same (s.withList (-p) (kept ++ pending)).toClauseDb
      (({ s.toClauseDb with shadowStates := states }).setWatches (-p) (kept ++ pending)) :=
    (ClauseDb.same_setWatches _ _ _).symm.trans (hs.trans (ClauseDb.same_setWatches _ _ _))
  exact h.core.withDb hview (hdb.of_same hview hdb.sound hdb.complete hdb.once)

end Scanning

/-! ### One visit -/

/-- All literals of the clause are false. -/
def Falsified (s : Solver) (c : ClauseRef) : Prop := ∀ q ∈ s.literals c, s.value q = some false

lemma Propagated.falsified (h : Propagated s s') (hc : s.Falsified c) : s'.Falsified c :=
  fun q hq => h.trail.value (hc q (h.mem_literals.1 hq))

lemma falsifiedSecond_spec {literals : List Lit} (hlen : 2 ≤ literals.length)
    (hnd : literals.Nodup) (hf : f ∈ literals.take 2) :
    ∃ first rest, falsifiedSecond f literals = first :: f :: rest ∧ first ≠ f ∧
      (first :: f :: rest).Perm literals ∧
      (∀ l, l ∈ (first :: f :: rest).take 2 ↔ l ∈ literals.take 2) ∧
      literals.drop 2 = rest := by
  match literals, hlen with
  | a :: b :: rest, _ =>
    have hab : a ≠ b := by
      rintro rfl
      simp at hnd
    have hf' : f = a ∨ f = b := by simpa using hf
    by_cases ha : a = f
    · refine ⟨b, rest, by rw [falsifiedSecond, if_pos ha, ha], fun hb => hab (ha.trans hb.symm),
        ha ▸ List.Perm.swap _ _ _, fun l => by simp [ha]; tauto, rfl⟩
    · have hb : f = b := hf'.resolve_left fun he => ha he.symm
      exact ⟨a, rest, by rw [falsifiedSecond, if_neg ha, hb], hb ▸ hab, hb ▸ .refl _,
        fun l => by simp [hb], rfl⟩

/-- The outcome of a visit fits the state it leaves. -/
def VisitOk (Γ : Set (List Lit)) (X : ClauseRef → Lit → Prop) (D : Lit → Prop) (p : Lit)
    (kept pending : List Watch) (c : ClauseRef) : WatchOutcome × Solver → Prop
  | (.drop, s) => Scanning Γ X D p kept pending s
  | (.keep w, s) => Scanning Γ X D p (kept ++ [w]) pending s
  | (.conflict w, s) => w.clause = c ∧ Scanning Γ X D p kept (w :: pending) s ∧
      s.Active c ∧ s.clauseIsShadow c = false ∧ s.Falsified c

section Visit

variable {kept pending : List Watch} {w : Watch}

lemma enqueueInternal_of_none (savePhase : Bool) (hl : s.value l = none)
    (r : Option ClauseRef) :
    s.enqueueInternal savePhase l r = (true, s.assign savePhase l r) := by
  simp only [enqueueInternal, hl]

/-- Binary clauses are never observed. -/
lemma isShadow_binary (hb : c.isBinary = true) : s.clauseIsShadow c = false := by
  cases c with
  | long i => simp [ClauseRef.isBinary] at hb
  | binary i => rfl

/-- The literal is enqueued and its clause kept. -/
lemma Scanning.enqueue (h : Scanning Γ X D p kept (w :: pending) s) (savePhase : Bool)
    (hd : (s.clause w.clause).deleted = false) (hsh : s.clauseIsShadow w.clause = false)
    (hl : l ∈ s.literals w.clause) (hv : s.value l ≠ some false)
    (hothers : ∀ q ∈ s.literals w.clause, q ≠ l → s.value q = some false) :
    Scanning Γ X D p (kept ++ [w]) pending
        (s.enqueueInternal savePhase l (some w.clause)).2 ∧
      Propagated s (s.enqueueInternal savePhase l (some w.clause)).2 ∧
      (s.enqueueInternal savePhase l (some w.clause)).2.toClauseDb = s.toClauseDb := by
  have hact := h.active hd
  cases hval : s.value l with
  | none =>
    rw [enqueueInternal_of_none savePhase hval]
    have hforces : s.Forces w.clause l := ⟨hact.1, hl, fun q hq hql =>
      (h.core.trail.neg_mem_iff (h.core.active_var hact hq)).2 (hothers q hq hql)⟩
    have h' := h.assign savePhase hval hforces hact hsh
    exact ⟨h'.keep fun hc _ => h'.settledAt_of_true hc hl (TrailState.value_push_self _),
      .assign s savePhase hval hact hsh, rfl⟩
  | some b =>
    cases b with
    | false => exact absurd hval hv
    | true =>
      rw [enqueueInternal, hval]
      exact ⟨h.keep fun hc _ => h.settledAt_of_true hc hl hval, .refl s, rfl⟩

/-- No replacement for the falsified watch has been found. -/
lemma findIdx_none {rest : List Lit}
    (hn : (rest.findIdx? fun l => decide (s.value l ≠ some false)) = none) :
    ∀ q ∈ rest, s.value q = some false := by
  intro q hq
  have := List.findIdx?_eq_none_iff.1 hn q hq
  simpa using this

lemma visitUnblocked_spec (mode : PropagationMode)
    (h : Scanning Γ X D p kept (w :: pending) s)
    (hd : (s.clause w.clause).deleted = false) {first : Lit} {rest : List Lit}
    (hl : s.literals w.clause = first :: -p :: rest) (hw : w.blocker = first)
    (hfirst : s.value first ≠ some true) :
    VisitOk Γ X D p kept pending w.clause (visitUnblocked mode w.clause first (-p) rest s) ∧
      Propagated s (visitUnblocked mode w.clause first (-p) rest s).2 ∧
      (∀ d, d ≠ w.clause →
        (visitUnblocked mode w.clause first (-p) rest s).2.clause d = s.clause d) ∧
      (s.clauseIsShadow w.clause = false → s.Falsified w.clause →
        ∃ v s', visitUnblocked mode w.clause first (-p) rest s = (.conflict v, s')) := by
  have hact := h.active hd
  have hwe : w = ⟨w.clause, first⟩ := by rw [← hw]
  rw [visitUnblocked]
  split
  · next k hk =>
    obtain ⟨hkl, hkv, -⟩ := List.findIdx?_eq_some_iff_getElem.1 hk
    have hget : rest[k]? = some (rest.getD k (-p)) := by
      rw [List.getD_eq_getElem?_getD, List.getElem?_eq_getElem hkl, Option.getD_some]
    have hr : s.value (rest.getD k (-p)) ≠ some false := by
      rw [List.getD_eq_getElem?_getD, List.getElem?_eq_getElem hkl, Option.getD_some]
      simpa using hkv
    have hs : ClauseDb.Same s.toClauseDb ((s.toClauseDb.setLiterals w.clause
        (first :: rest.getD k (-p) :: rest.set k (-p))).pushWatch (rest.getD k (-p))
          ⟨w.clause, first⟩) := by
      refine (ClauseDb.same_setLiterals ?_).trans (ClauseDb.same_pushWatch _ _ _)
      rw [show (s.clause w.clause).literals = _ from hl]
      exact (ClauseDb.perm_cons_set (-p) hget).cons first
    refine ⟨h.move hd hl hget hr, .withDb s hs, fun d hdw => ?_, fun _ hf => ?_⟩
    · show (s.toClauseDb.setLiterals w.clause _).clause d = _
      rw [ClauseDb.setLiterals_clause, if_neg hdw]
    · refine absurd (hf _ ?_) hr
      rw [hl]
      exact List.mem_cons_of_mem _ (List.mem_cons_of_mem _ (List.mem_of_getElem? hget))
  · next hnone =>
    have hrest := findIdx_none hnone
    have hmem : ∀ q ∈ s.literals w.clause, q ≠ first → s.value q = some false := by
      intro q hq hqf
      rw [hl] at hq
      rcases List.mem_cons.1 hq with rfl | hq
      · exact absurd rfl hqf
      · rcases List.mem_cons.1 hq with rfl | hq
        · exact h.value_neg
        · exact hrest q hq
    have hfmem : first ∈ s.literals w.clause := by rw [hl]; simp
    split
    · next hsh =>
      have hsettled : s.SettledAt D w.clause (-p) := by
        refine ⟨fun hle => ?_, fun hsh' => by rw [hsh] at hsh'; simp at hsh',
          fun _ h0 => .inr fun q hq => ?_⟩
        · exfalso
          cases hc : w.clause with
          | binary i => rw [hc] at hsh; simp [clauseIsShadow] at hsh
          | long i =>
            rw [hc] at hsh hle
            simp only [clauseIsShadow, Bool.and_eq_true, decide_eq_true_eq] at hsh
            have := (h.core.db.shadow i hsh.2).2
            have hle' : (s.clause (.long i)).learned = true := this
            rw [hle] at hle'
            simp at hle'
        · rw [hl] at hq
          have hqv := hrest q hq
          refine ⟨hqv, ?_⟩
          have hq' : q ∈ s.literals w.clause := by
            rw [hl]; exact List.mem_cons_of_mem _ (List.mem_cons_of_mem _ hq)
          have hneg := (h.core.trail.neg_mem_iff (h.core.active_var hact hq')).2 hqv
          have hle := h.core.trail.level_le hneg
          have h0' : s.decisionLevel = 0 := h.level.symm.trans h0
          exact Nat.le_zero.1 (hle.trans (le_of_eq h0'))
      have hk := h.keep fun _ _ => hsettled
      refine ⟨?_, ?_, ?_, fun hsh' => by rw [hsh] at hsh'; simp at hsh'⟩
      · show Scanning Γ X D p (kept ++ [⟨w.clause, first⟩]) pending _
        rw [← hwe]
        split
        · exact hk
        · exact (hk.trigger w.clause).1
      · show Propagated s (if _ then _ else _)
        split
        · exact .refl s
        · exact (h.trigger w.clause).2
      · intro d hdw
        show (if (mode.probing || mode.vivification) = true then s
          else s.triggerShadowClause w.clause).clause d = _
        split
        · rfl
        · cases w.clause with
          | binary i => rfl
          | long i => rw [triggerShadowClause]; split <;> rfl
    · next hsh =>
      have hsh' : s.clauseIsShadow w.clause = false := by simpa using hsh
      split
      · next hff =>
        refine ⟨⟨rfl, hwe ▸ h, hact, hsh', fun q hq => ?_⟩, .refl s, fun _ _ => rfl,
          fun _ _ => ⟨_, _, rfl⟩⟩
        by_cases hqf : q = first
        · rw [hqf]; exact hff
        · exact hmem q hq hqf
      · next hff =>
        obtain ⟨h1, h2, h3⟩ := h.enqueue mode.savePhase hd hsh' hfmem hff hmem
        refine ⟨?_, h2, fun d _ => congrArg (fun db => db.clause d) h3,
          fun _ hf => absurd (hf first hfmem) hff⟩
        show Scanning Γ X D p (kept ++ [⟨w.clause, first⟩]) pending _
        rw [← hwe]
        exact h1

/-- The literals of a binary clause other than the falsified watch are its blocker. -/
lemma Scanning.eq_blocker (h : Scanning Γ X D p kept (w :: pending) s)
    (hd : (s.clause w.clause).deleted = false) (hb : w.clause.isBinary = true)
    (hq : q ∈ s.literals w.clause) (hqp : q ≠ -p) : q = w.blocker := by
  obtain ⟨hf, hbl, hbp⟩ := h.watch_sound.2 hd
  have hact := h.active hd
  have hlen := (h.core.db.length w.clause hact.1).2.1 hb
  have hlen' : (s.literals w.clause).length = 2 := hlen
  obtain ⟨a, b, hab⟩ := List.length_eq_two.1 hlen'
  rw [ClauseDb.watched, show (s.clause w.clause).literals = _ from hab] at hf
  rw [hab] at hbl hq
  simp only [List.take_succ_cons, List.take_zero, List.mem_cons, List.not_mem_nil,
    or_false] at hf hbl hq
  grind

/-- **One visit of the scan.** -/
lemma visitWatch_spec (h : Scanning Γ X D p kept (w :: pending) s)
    (hign : ∀ c, mode.ignored = some c → X c (-p)) :
    VisitOk Γ X D p kept pending w.clause (visitWatch mode (-p) w s) ∧
      Propagated s (visitWatch mode (-p) w s).2 ∧
      (∀ d, d ≠ w.clause → (visitWatch mode (-p) w s).2.clause d = s.clause d) ∧
      ((s.clause w.clause).deleted = false → s.clauseIsShadow w.clause = false →
        s.Falsified w.clause → mode.ignored ≠ some w.clause →
        ∃ v s', visitWatch mode (-p) w s = (.conflict v, s')) := by
  rw [visitWatch]
  split
  · next hd =>
    exact ⟨h.drop hd, .refl s, fun _ _ => rfl, fun hd' => by rw [hd] at hd'; simp at hd'⟩
  next hd =>
  have hd : (s.clause w.clause).deleted = false := by simpa using hd
  obtain ⟨hf, hbl, hbp⟩ := h.watch_sound.2 hd
  have hact := h.active hd
  split
  · next hi =>
    exact ⟨h.keep fun _ hX => absurd (hign _ hi) hX, .refl s, fun _ _ => rfl,
      fun _ _ _ hi' => absurd hi hi'⟩
  next hi =>
  split
  · next hbin =>
    have hbin : w.clause.isBinary = true := (Bool.and_eq_true _ _ ▸ hbin).1
    have hothers : ∀ q ∈ s.literals w.clause, q ≠ w.blocker → s.value q = some false := by
      intro q hq hqb
      by_cases hqp : q = -p
      · rw [hqp]; exact h.value_neg
      · exact absurd (h.eq_blocker hd hbin hq hqp) hqb
    split
    · next hv =>
      exact ⟨h.keep fun hc _ => h.settledAt_of_true hc hbl hv, .refl s, fun _ _ => rfl,
        fun _ _ hfa _ => by rw [hfa _ hbl] at hv; simp at hv⟩
    · next hv =>
      refine ⟨⟨rfl, h, hact, isShadow_binary hbin, fun q hq => ?_⟩, .refl s, fun _ _ => rfl,
        fun _ _ _ _ => ⟨_, _, rfl⟩⟩
      by_cases hqb : q = w.blocker
      · rw [hqb]; exact hv
      · exact hothers q hq hqb
    · next hv =>
      obtain ⟨h1, h2, h3⟩ := h.enqueue mode.savePhase hd (isShadow_binary hbin) hbl
        (by rw [hv]; simp) hothers
      exact ⟨h1, h2, fun d _ => congrArg (fun db => db.clause d) h3,
        fun _ _ hfa _ => by rw [hfa _ hbl] at hv; simp at hv⟩
  next =>
  split
  · next hv =>
    exact ⟨h.keep fun hc _ => h.settledAt_of_true hc hbl hv, .refl s, fun _ _ => rfl,
      fun _ _ hfa _ => by rw [hfa _ hbl] at hv; simp at hv⟩
  next =>
  have hlen : 2 ≤ (s.clause w.clause).literals.length := (h.core.db.length w.clause hact.1).1
  have hnd : (s.clause w.clause).literals.Nodup :=
    List.Nodup.of_map _ (h.core.db.nodup w.clause hact.1)
  obtain ⟨first, rest, heq, hfp, hperm, htake, hdrop⟩ := falsifiedSecond_spec hlen hnd hf
  rw [heq]
  have h' : Scanning Γ X D p kept (⟨w.clause, first⟩ :: pending)
      (s.reorder w.clause (first :: -p :: rest)) :=
    h.reorder hperm htake (fun l => by rw [literals, hdrop]; rfl) (by simp) hfp
  set s₁ := s.reorder w.clause (first :: -p :: rest) with hs₁
  have hp₁ : Propagated s s₁ := .withDb s (ClauseDb.same_setLiterals hperm)
  have hclause : ∀ d, s₁.clause d = if d = w.clause then
      { s.clause w.clause with literals := first :: -p :: rest } else s.clause d :=
    fun d => ClauseDb.setLiterals_clause _ _ _
  have hl₁ : s₁.literals w.clause = first :: -p :: rest := by
    show (s₁.clause w.clause).literals = _
    rw [hclause, if_pos rfl]
  have hd₁ : (s₁.clause w.clause).deleted = false := by
    rw [hclause, if_pos rfl]
    exact hd
  have hfmem : first ∈ s₁.literals w.clause := by rw [hl₁]; simp
  have hother : ∀ d, d ≠ w.clause → s₁.clause d = s.clause d := fun d hdw => by
    rw [hclause, if_neg hdw]
  dsimp only
  split
  · next hbin =>
    have hothers : ∀ q ∈ s₁.literals w.clause, q ≠ first → s₁.value q = some false := by
      intro q hq hqf
      by_cases hqp : q = -p
      · rw [hqp]; exact h'.value_neg
      · exact absurd (h'.eq_blocker hd₁ hbin hq hqp) hqf
    split
    · next hv =>
      refine ⟨⟨rfl, h', h'.active hd₁, isShadow_binary hbin, fun q hq => ?_⟩, hp₁, hother,
        fun _ _ _ _ => ⟨_, _, rfl⟩⟩
      by_cases hqf : q = first
      · rw [hqf]; exact hv
      · exact hothers q hq hqf
    · next hv =>
      obtain ⟨h1, h2, h3⟩ := h'.enqueue mode.savePhase hd₁ (isShadow_binary hbin) hfmem hv
        hothers
      refine ⟨h1, hp₁.trans h2, fun d hdw => ?_, fun _ _ hfa _ =>
        absurd ((hp₁.falsified hfa) first hfmem) hv⟩
      exact (congrArg (fun db => db.clause d) h3).trans (hother d hdw)
  · next hbin =>
    split
    · next hv =>
      refine ⟨h'.keep fun hc _ => h'.settledAt_of_true hc hfmem hv, hp₁, hother,
        fun _ _ hfa _ => ?_⟩
      have := (hp₁.falsified hfa) first hfmem
      rw [hv] at this
      simp at this
    · next hv =>
      obtain ⟨h1, h2, h3, h4⟩ := visitUnblocked_spec mode h' hd₁ hl₁ rfl hv
      exact ⟨h1, hp₁.trans h2, fun d hdw => (h3 d hdw).trans (hother d hdw),
        fun _ hsh hfa _ => h4 ((hp₁.isShadow _).trans hsh) (hp₁.falsified hfa)⟩

/-! ### The scan -/

/-- A clause found false ends the scan at its watch. -/
structure ScanConflict (Γ : Set (List Lit)) (X : ClauseRef → Lit → Prop) (D : Lit → Prop)
    (p : Lit) (ws : List Watch) (c : ClauseRef) (s : Solver) : Prop where
  active : s.Active c
  visible : s.clauseIsShadow c = false
  falsified : s.Falsified c
  scanning : ∃ kept w pending, ws = kept ++ w :: pending ∧ w.clause = c ∧
    Scanning Γ X D p kept (w :: pending) s

/-- What a scan comes to, for the watches `ws` of the list afterwards. -/
def ScanOk (Γ : Set (List Lit)) (X : ClauseRef → Lit → Prop) (D : Lit → Prop) (p : Lit)
    (ws : List Watch) (s : Solver) : Option ClauseRef → Prop
  | none => Scanning Γ X D p ws [] s
  | some c => ScanConflict Γ X D p ws c s

lemma scanWatches_spec (hign : ∀ c, mode.ignored = some c → X c (-p)) :
    ∀ (pending kept : List Watch) (s : Solver), Scanning Γ X D p kept pending s →
      Propagated s (scanWatches mode (-p) pending s).2.2 ∧
      ScanOk Γ X D p (kept ++ (scanWatches mode (-p) pending s).2.1)
        (scanWatches mode (-p) pending s).2.2 (scanWatches mode (-p) pending s).1 := by
  intro pending
  induction pending with
  | nil => exact fun kept s h => ⟨.refl s, by simpa [scanWatches, ScanOk] using h⟩
  | cons w pending ih =>
    intro kept s h
    obtain ⟨hok, hp, -, -⟩ := visitWatch_spec h hign
    rw [scanWatches]
    split
    · next s' he =>
      rw [he] at hok hp
      obtain ⟨h1, h2⟩ := ih kept s' hok
      exact ⟨hp.trans h1, h2⟩
    · next w' s' he =>
      rw [he] at hok hp
      obtain ⟨h1, h2⟩ := ih (kept ++ [w']) s' hok
      refine ⟨hp.trans h1, ?_⟩
      rw [List.append_assoc] at h2
      exact h2
    · next w' s' he =>
      rw [he] at hok hp
      obtain ⟨h1, h2, h3, h4, h5⟩ := hok
      rw [← h1] at h3 h4 h5
      exact ⟨hp, h3, h4, h5, kept, w', pending, rfl, rfl, h2⟩

lemma scanWatches_clause (hign : ∀ c, mode.ignored = some c → X c (-p)) :
    ∀ (pending kept : List Watch) (s : Solver), Scanning Γ X D p kept pending s →
      ∀ d, d ∉ pending.map Watch.clause →
        (scanWatches mode (-p) pending s).2.2.clause d = s.clause d := by
  intro pending
  induction pending with
  | nil => exact fun _ _ _ _ _ => rfl
  | cons w pending ih =>
    intro kept s h d hd
    simp only [List.map_cons, List.mem_cons, not_or] at hd
    obtain ⟨hok, -, hcl, -⟩ := visitWatch_spec h hign
    have hcl := hcl d hd.1
    rw [scanWatches]
    split
    · next s' he =>
      rw [he] at hok hcl
      exact (ih kept s' hok d hd.2).trans hcl
    · next w' s' he =>
      rw [he] at hok hcl
      exact (ih (kept ++ [w']) s' hok d hd.2).trans hcl
    · next w' s' he =>
      rw [he] at hcl
      exact hcl

/-- A scan that comes to a clause already false does not miss it. -/
lemma scanWatches_ne_none (hign : ∀ c, mode.ignored = some c → X c (-p))
    (hci : mode.ignored ≠ some c) :
    ∀ (pending kept : List Watch) (s : Solver), Scanning Γ X D p kept pending s →
      c ∈ pending.map Watch.clause → s.Active c → s.clauseIsShadow c = false →
      s.Falsified c → (scanWatches mode (-p) pending s).1 ≠ none := by
  intro pending
  induction pending with
  | nil => exact fun _ _ _ hc => by simp at hc
  | cons w pending ih =>
    intro kept s h hc hact hsh hfa
    obtain ⟨hok, hp, -, hmiss⟩ := visitWatch_spec h hign
    have hnext : ∀ {kept' s'}, Scanning Γ X D p kept' pending s' → Propagated s s' →
        w.clause ≠ c → (scanWatches mode (-p) pending s').1 ≠ none := by
      intro kept' s' hs' hp' hwc
      refine ih kept' s' hs' ?_ (hp'.db.active.2 hact) ((hp'.isShadow c).trans hsh)
        (hp'.falsified hfa)
      simpa [Ne.symm hwc] using hc
    have hw : w.clause = c →
        ∃ v s', visitWatch mode (-p) w s = (.conflict v, s') := by
      rintro rfl
      exact hmiss hact.2 hsh hfa hci
    rw [scanWatches]
    split
    · next s' he =>
      rw [he] at hok hp
      refine hnext hok hp fun hwc => ?_
      obtain ⟨v, s'', he'⟩ := hw hwc
      rw [he] at he'
      simp at he'
    · next w' s' he =>
      rw [he] at hok hp
      refine hnext hok hp fun hwc => ?_
      obtain ⟨v, s'', he'⟩ := hw hwc
      rw [he] at he'
      simp at he'
    · simp

end Visit

/-! ### One round -/

/-- The stop signal is all that polling may change, besides the clock. -/
lemma propagated_poll (O : Oracle) (s : Solver) : Propagated s (s.pollSearchStop O).2 := by
  rw [pollSearchStop]
  split
  · exact .refl s
  · split
    · exact .refl s
    · exact ⟨⟨.refl _, .refl _, rfl⟩, rfl, rfl, rfl, rfl, rfl, rfl, rfl,
        fun _ hn hv => absurd hn hv⟩

lemma poll_eq (O : Oracle) (s : Solver) : ∃ n r,
    (s.pollSearchStop O).2 = { s with clock := n, stopReason := r } := by
  rw [pollSearchStop]
  split
  · exact ⟨s.clock, s.stopReason, rfl⟩
  · split
    · exact ⟨s.clock, s.stopReason, rfl⟩
    · exact ⟨_, _, rfl⟩

lemma poll_some {O : Oracle} {r : UnknownReason} (h : (s.pollSearchStop O).1 = some r) :
    s.searchControlActive = true ∧ (s.pollSearchStop O).2.stopReason = some r := by
  rw [pollSearchStop] at h ⊢
  split at h
  · simp at h
  · next hc =>
    rw [if_neg hc]
    have hc' : s.searchControlActive = true := by simpa using hc
    cases hr : s.stopReason with
    | some reason =>
      simp only [hr] at h ⊢
      exact ⟨hc', h⟩
    | none =>
      simp only [hr] at h ⊢
      exact ⟨hc', h⟩

/-- A conflict: an active clause is false, one of its watches being the literal whose
propagation was cut short by it. -/
structure Conflict (Γ : Set (List Lit)) (X : ClauseRef → Lit → Prop) (c : ClauseRef)
    (s : Solver) : Prop where
  core : Core Γ s
  active : s.Active c
  visible : s.clauseIsShadow c = false
  falsified : s.Falsified c
  source : ∃ p ∈ s.trail, s.levels p.var = s.decisionLevel ∧ -p ∈ s.watched c ∧ s.Done (-p) ∧
    s.Settled (fun q => s.Done q ∧ q ≠ -p) X

lemma Core.scanning (h : Core Γ s) (hset : s.Settled s.Done X)
    (hp : s.trail[s.propagationHead]? = some p) (mode : PropagationMode) :
    Scanning Γ X s.Done p [] (s.watches (-p)) (s.beginScan mode (-p)) := by
  have hdb : (s.toClauseDb.setWatches (-p) []).setWatches (-p) ([] ++ s.watches (-p)) =
      s.toClauseDb := by
    rw [List.nil_append, ClauseDb.setWatches, ClauseDb.setWatches]
    congr
    rw [Function.update_idem, Function.update_eq_self]
  have hcore := h.advance hp
  refine ⟨?_, fun l => TrailState.done_advance hp, ?_, ?_, ?_, ?_⟩
  · have hsame : ClauseDb.Same s.toClauseDb ((s.toClauseDb.setWatches (-p) []).setWatches (-p)
        ([] ++ s.watches (-p))) := by rw [hdb]; exact .refl _
    have hview := hcore.withDb hsame (by rw [hdb]; exact h.db)
    exact ⟨hview.trail, hview.db, hview.reason, hview.entailed, hview.root, hview.deferred,
      hview.branching, hview.seen⟩
  · rintro ⟨i, hi, hq⟩
    rw [neg_neg] at hq
    exact absurd (h.trail.getElem?_inj hq hp rfl) (Nat.ne_of_lt hi)
  · show s.levels p.var = s.decisionLevel
    rw [h.trail.level _ _ hp]
    exact h.trail.levelAt_of_head_le le_rfl
  · intro c hc l hl hX hD
    have hold := hset c hc l hl hX hD
    exact ⟨hold.original, hold.active, hold.shadow⟩
  · intro c hc hf _
    obtain ⟨w, hw, rfl⟩ := h.db.complete c hc (-p) hf
    exact .inl ⟨w, hw, rfl⟩

lemma SettledAt.mono {D' : Lit → Prop} (h : s.SettledAt D c l) (hD : ∀ q, D q → D' q) :
    s.SettledAt D' c l :=
  ⟨h.original, fun hs h0 => (h.active hs h0).imp_right fun hall =>
    ⟨fun q hq => hD q (hall.1 q hq), hall.2⟩, h.shadow⟩

lemma propagateLiteral_spec (mode : PropagationMode) (h : Core Γ s) (hset : s.Settled s.Done X)
    (hp : s.trail[s.propagationHead]? = some p)
    (hign : ∀ c, mode.ignored = some c → X c (-p)) :
    Propagated s (s.propagateLiteral mode p).2 ∧
      (s.propagationHead < (s.propagateLiteral mode p).2.propagationHead) ∧
      match (s.propagateLiteral mode p).1 with
      | none => Core Γ (s.propagateLiteral mode p).2 ∧
          (s.propagateLiteral mode p).2.Settled (s.propagateLiteral mode p).2.Done X
      | some c => Conflict Γ X c (s.propagateLiteral mode p).2 := by
  have hscan := h.scanning hset hp mode
  obtain ⟨hprop, hok⟩ := scanWatches_spec hign _ _ _ hscan
  rw [propagateLiteral]
  generalize scanWatches mode (-p) (s.watches (-p)) (s.beginScan mode (-p)) = r at hprop hok
  obtain ⟨conflict, retained, s'⟩ := r
  have hbegin : Propagated s (s.beginScan mode (-p)) :=
    ⟨⟨TrailState.grown_advance _, ClauseDb.same_setWatches _ _ _, rfl⟩, rfl, rfl, rfl, rfl, rfl,
      rfl, rfl, fun _ hn hv => absurd hn hv⟩
  have hend : Propagated s' { s' with toClauseDb := s'.toClauseDb.setWatches (-p) retained } :=
    .withDb s' (ClauseDb.same_setWatches _ _ _)
  refine ⟨(hbegin.trans hprop).trans hend, ?_, ?_⟩
  · have : s.propagationHead + 1 ≤ s'.propagationHead := hprop.trail.head
    exact this
  · cases conflict with
    | none =>
      have hs : Scanning Γ X s.Done p retained [] s' := hok
      have hcore : Core Γ (s'.withList (-p) retained) := by
        have := hs.core
        rwa [List.append_nil] at this
      refine ⟨hcore, fun c hc l hl hX hD => ?_⟩
      have hmono : ∀ q, s.Done q → s'.Done q := fun q hq => (hs.done q).2 (.inl hq)
      have hsa : s'.SettledAt s'.Done c l := by
        rcases (hs.done l).1 hD with hD | rfl
        · exact (hs.settled c hc l hl hX hD).mono hmono
        · refine ((hs.progress c hc hl hX).resolve_left ?_).mono hmono
          rintro ⟨w, hw, -⟩
          simp at hw
      exact ⟨hsa.original, hsa.active, hsa.shadow⟩
    | some c =>
      obtain ⟨hact, hsh, hfa, kept, w, pending, hws, hwc, hs⟩ := hok
      subst hwc
      rw [List.nil_append] at hws
      subst hws
      refine ⟨hs.core, hact, hsh, hfa, p, hs.mem_trail, hs.level,
        (hs.watch_sound.2 hact.2).1, (hs.done _).2 (.inr rfl), fun d hd l hl hX hD => ?_⟩
      obtain ⟨hD, hlp⟩ := hD
      have hsa := hs.settled d hd l hl hX (((hs.done l).1 hD).resolve_right hlp)
      have hmono : ∀ q, s.Done q → s'.Done q ∧ q ≠ -p := fun q hq =>
        ⟨(hs.done q).2 (.inl hq), fun he => hs.fresh (he ▸ hq)⟩
      have hsa' := hsa.mono hmono
      exact ⟨hsa'.original, hsa'.active, hsa'.shadow⟩

/-! ### The loop -/

lemma Core.trail_length_le (h : Core Γ s) : s.trail.length ≤ s.variableCount := by
  have hsub : s.trail.map Literal.var ⊆ List.range s.variableCount := by
    intro v hv
    obtain ⟨l, hl, rfl⟩ := List.mem_map.1 hv
    refine List.mem_range.2 (h.trail.lt _ ?_)
    rw [h.trail.assigned l hl]
    simp
  simpa using (h.trail.nodup.subperm hsub).length_le

lemma Core.poll (h : Core Γ s) (O : Oracle) : Core Γ (s.pollSearchStop O).2 := by
  obtain ⟨n, r, he⟩ := poll_eq O s
  rw [he]
  exact ⟨h.trail, h.db, h.reason, h.entailed, h.root, h.deferred, h.branching, h.seen⟩

lemma Settled.poll (h : s.Settled D X) (O : Oracle) :
    (s.pollSearchStop O).2.Settled D X := by
  obtain ⟨n, r, he⟩ := poll_eq O s
  rw [he]
  exact fun c hc l hl hX hD =>
    ⟨(h c hc l hl hX hD).original, (h c hc l hl hX hD).active, (h c hc l hl hX hD).shadow⟩

/-- What propagation comes to. -/
def PropagateOk (Γ : Set (List Lit)) (X : ClauseRef → Lit → Prop) (s : Solver) :
    Option ClauseRef → Prop
  | none => Core Γ s ∧ s.Settled s.Done X ∧
      (s.propagationHead = s.trail.length ∨
        s.searchControlActive = true ∧ s.stopReason ≠ none)
  | some c => Conflict Γ X c s

lemma propagateLoop_spec (O : Oracle) (hign : ∀ c l, mode.ignored = some c → ¬ s.Done l → X c l) :
    ∀ (fuel : ℕ) (s' : Solver), Propagated s s' → Core Γ s' → s'.Settled s'.Done X →
      s'.variableCount < fuel + s'.propagationHead →
      Propagated s (propagateLoop O mode fuel s').2 ∧
        PropagateOk Γ X (propagateLoop O mode fuel s').2 (propagateLoop O mode fuel s').1 := by
  intro fuel
  induction fuel with
  | zero =>
    intro s' _ h _ hfuel
    have := h.trail.head_le.trans h.trail_length_le
    omega
  | succ fuel ih =>
    intro s' hs h hset hfuel
    rw [propagateLoop]
    split
    · next hnone =>
      have hge := List.getElem?_eq_none_iff.1 hnone
      exact ⟨hs, h, hset, .inl (le_antisymm h.trail.head_le hge)⟩
    · next p hp =>
      have hpoll := propagated_poll O s'
      split
      · next r s₁ he =>
        have h1 : s₁ = (s'.pollSearchStop O).2 := by rw [he]
        obtain ⟨hctl, hstop⟩ := poll_some (O := O) (s := s') (r := r) (by rw [he])
        rw [h1]
        refine ⟨hs.trans hpoll, h.poll O, ?_, .inr ⟨?_, by rw [hstop]; simp⟩⟩
        · obtain ⟨n, r', he'⟩ := poll_eq O s'
          have := hset.poll O
          rw [he'] at this ⊢
          exact this
        · rw [hpoll.controlActive]
          exact hctl
      · next s₁ he =>
        have h1 : s₁ = (s'.pollSearchStop O).2 := by rw [he]
        obtain ⟨n, r', he'⟩ := poll_eq O s'
        have hcore₁ : Core Γ s₁ := h1 ▸ h.poll O
        have hset₁ : s₁.Settled s₁.Done X := by
          have := hset.poll O
          rw [h1]
          rw [he'] at this ⊢
          exact this
        have hp₁ : s₁.trail[s₁.propagationHead]? = some p := by rw [h1, he']; exact hp
        have hs₁ : Propagated s s₁ := h1 ▸ hs.trans hpoll
        have hhead₁ : s₁.propagationHead = s'.propagationHead := by rw [h1, he']
        obtain ⟨hprop, hlt, hok⟩ := propagateLiteral_spec mode hcore₁ hset₁ hp₁
          fun c hc => hign c _ hc fun hd => by
            obtain ⟨i, hi, hq⟩ := hs₁.trail.done hd
            rw [neg_neg] at hq
            exact absurd (hcore₁.trail.getElem?_inj hq hp₁ rfl) (Nat.ne_of_lt hi)
        split
        · next c s₂ he₂ =>
          rw [he₂] at hprop hok
          exact ⟨hs₁.trans hprop, hok⟩
        · next s₂ he₂ =>
          rw [he₂] at hprop hok hlt
          have hlt' : s₁.propagationHead < s₂.propagationHead := hlt
          refine ih s₂ (hs₁.trans hprop) hok.1 hok.2 ?_
          have hv : s₂.variableCount = s'.variableCount :=
            hprop.variableCount.trans (by rw [h1]; exact hpoll.variableCount)
          omega

/-- **Propagation keeps the invariant.** -/
lemma propagateInternal_spec (O : Oracle) (h : Core Γ s) (hset : s.Settled s.Done X)
    (hign : ∀ c l, mode.ignored = some c → ¬ s.Done l → X c l) :
    Propagated s (s.propagateInternal O mode).2 ∧
      PropagateOk Γ X (s.propagateInternal O mode).2 (s.propagateInternal O mode).1 :=
  propagateLoop_spec O hign _ s (.refl s) h hset (by omega)

/-! ### Conflicts at the root -/

/-- A conflict at the root leaves a false clause one watch of which has yet to be
propagated. -/
lemma Conflict.pending (h : Conflict Γ (exempt P) c s) (hP : P) (h0 : s.decisionLevel = 0) :
    s.Pending := by
  obtain ⟨p, hp, hlev, hw, -, hset⟩ := h.source
  have hroot : ∀ q ∈ s.literals c, s.RootFalse q := by
    intro q hq
    refine ⟨h.falsified q hq, ?_⟩
    have hneg := (h.core.trail.neg_mem_iff (h.core.active_var h.active hq)).2 (h.falsified q hq)
    have hle := h.core.trail.level_le hneg
    rw [h0] at hle
    exact Nat.le_zero.1 hle
  refine ⟨c, h.active, h.visible, hroot, ?_⟩
  obtain ⟨a, b, rest, hl, hab⟩ := h.core.db.exists_eq h.active.1
  have hmem : ∀ l, l ∈ s.watched c ↔ l = a ∨ l = b := by
    intro l
    rw [ClauseDb.watched, hl]
    simp
  -- the watch other than the one whose propagation found the conflict
  have hother : ∃ l ∈ s.watched c, l ≠ -p := by
    rcases (hmem (-p)).1 hw with he | he
    · exact ⟨b, (hmem b).2 (.inr rfl), fun hb => hab (by rw [← he, hb])⟩
    · exact ⟨a, (hmem a).2 (.inl rfl), fun ha => hab (by rw [← he, ha])⟩
  obtain ⟨l, hlw, hlp⟩ := hother
  refine ⟨l, hlw, fun hd => ?_⟩
  have hlc : l ∈ s.literals c := List.mem_of_mem_take hlw
  rcases (hset c h.active l hlw (fun hX => hX hP) ⟨hd, hlp⟩).active h.visible (hroot l hlc).2 with
    ⟨q, hq, hv, -⟩ | hall
  · rw [h.falsified q hq] at hv
    simp at hv
  · exact (hall.1 (-p) hw).2 rfl

/-- A round that finds no conflict does not pass over a pending one. -/
lemma propagateLiteral_pending (mode : PropagationMode) (h : Core Γ s) (hset : s.Settled s.Done X)
    (hp : s.trail[s.propagationHead]? = some p) (hign : mode.ignored = none)
    (hnone : (s.propagateLiteral mode p).1 = none) (hpend : s.Pending) :
    (s.propagateLiteral mode p).2.Pending := by
  obtain ⟨c, hact, hsh, hroot, l, hl, hnd⟩ := hpend
  have hscan := h.scanning hset hp mode
  have hign' : ∀ d, mode.ignored = some d → X d (-p) := by simp [hign]
  obtain ⟨hprop, -, -⟩ := propagateLiteral_spec mode h hset hp hign'
  have hnotin : c ∉ (s.watches (-p)).map Watch.clause := fun hmem =>
    scanWatches_ne_none (c := c) hign' (by simp [hign]) _ _ _ hscan hmem hact hsh
      (fun q hq => (hroot q hq).1) hnone
  have hclause : (s.propagateLiteral mode p).2.clause c = s.clause c :=
    scanWatches_clause hign' _ _ _ hscan c hnotin
  have hlp : l ≠ -p := by
    rintro rfl
    obtain ⟨w, hw, rfl⟩ := h.db.complete c hact (-p) hl
    exact hnotin (List.mem_map_of_mem hw)
  refine ⟨c, hprop.db.active.2 hact, (hprop.isShadow c).trans hsh,
    fun q hq => hprop.rootFalse (hroot q (hprop.mem_literals.1 hq)), l, ?_, ?_⟩
  · rw [ClauseDb.watched, hclause]
    exact hl
  · obtain ⟨hprop', hok⟩ := scanWatches_spec hign' _ _ _ hscan
    have hnone' : (scanWatches mode (-p) (s.watches (-p)) (s.beginScan mode (-p))).1 = none :=
      hnone
    rw [hnone'] at hok
    exact fun hd => (((hok : Scanning _ _ _ _ _ _ _).done l).1 hd).elim hnd hlp

lemma propagateLoop_pending (O : Oracle) (hign : mode.ignored = none) :
    ∀ (fuel : ℕ) (s : Solver), Core Γ s → s.Settled s.Done X →
      s.searchControlActive = false → s.Pending → s.variableCount < fuel + s.propagationHead →
      (propagateLoop O mode fuel s).1 ≠ none := by
  intro fuel
  induction fuel with
  | zero =>
    intro s h _ _ _ hfuel
    have := h.trail.head_le.trans h.trail_length_le
    omega
  | succ fuel ih =>
    intro s h hset hctl hpend hfuel
    rw [propagateLoop]
    have hpoll : s.pollSearchStop O = (none, s) := by simp [pollSearchStop, hctl]
    split
    · next hnone =>
      exfalso
      obtain ⟨c, hact, -, hroot, l, hl, hnd⟩ := hpend
      have hlc : l ∈ s.literals c := List.mem_of_mem_take hl
      obtain ⟨i, hi⟩ := List.mem_iff_getElem?.1 (h.rootFalse_mem hact hlc (hroot l hlc))
      have hge := List.getElem?_eq_none_iff.1 hnone
      exact hnd ⟨i, (List.getElem?_eq_some_iff.1 hi).1.trans_le hge, hi⟩
    · next p hp =>
      rw [hpoll]
      obtain ⟨hprop, hlt, hok⟩ := propagateLiteral_spec mode h hset hp
        (by simp [hign])
      dsimp only
      split
      · simp
      · next s' he =>
        rw [he] at hprop hlt hok
        have hlt' : s.propagationHead < s'.propagationHead := hlt
        have hv : s'.variableCount = s.variableCount := hprop.variableCount
        refine ih s' hok.1 hok.2 (hprop.controlActive.trans hctl) ?_ (by omega)
        have := propagateLiteral_pending mode h hset hp hign (by rw [he]) hpend
        rwa [he] at this

/-- **A pending root conflict is found by the next propagation that is not stopped.** -/
lemma propagateInternal_pending (O : Oracle) (h : Core Γ s) (hset : s.Settled s.Done X)
    (hctl : s.searchControlActive = false) (hpend : s.Pending) (hign : mode.ignored = none) :
    (s.propagateInternal O mode).1 ≠ none :=
  propagateLoop_pending O hign _ s h hset hctl hpend (by omega)

end Solver

end Satrap
