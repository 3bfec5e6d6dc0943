/-
# Root closure after simplification

When probing, vivification and subsumption have succeeded, no active clause should be false or
unit under the root assignment.  Subsumption watches the clauses it makes at their first two
literals, so this holds of a run in which these are never false at the root, and fails of others:
the implied literal of a clause that is unit when it is made is never propagated.
-/
import Satrap.Solver.FirstQuery

namespace Satrap

open Logic

namespace Solver

variable {P : Prop} {Γ : Set (List Lit)} {O : Oracle} {config : SolverConfig} {client : Client}
  {s s' t : Solver} {c d : ClauseRef}

/-- All literals but the unassigned `u` are false. -/
def UnitFor (t : TrailState) (literals : List Lit) (u : Lit) : Prop :=
  t.value u = none ∧ ∀ q ∈ literals, q ≠ u → t.value q = some false

/-- No active clause is false or unit. -/
def RootClosed (s : Solver) : Prop :=
  ∀ c, s.Active c → ¬ (∀ q ∈ s.literals c, s.value q = some false) ∧
    ∀ u ∈ s.literals c, ¬ UnitFor s.toTrailState (s.literals c) u

/-- There is a true literal, or two are unassigned. -/
def Opened (t : TrailState) (literals : List Lit) : Prop :=
  (∃ q ∈ literals, t.value q = some true) ∨
    ∃ q ∈ literals, ∃ r ∈ literals, q ≠ r ∧ t.value q = none ∧ t.value r = none

lemma opened_iff {t : TrailState} {literals : List Lit} : Opened t literals ↔
    ¬ (∀ q ∈ literals, t.value q = some false) ∧ ∀ u ∈ literals, ¬ UnitFor t literals u := by
  constructor
  · rintro (⟨q, hq, hqt⟩ | ⟨q, hq, r, hr, hne, hqn, hrn⟩)
    · refine ⟨fun hf => by simp [hf q hq] at hqt, fun u hu hunit => ?_⟩
      by_cases hqu : q = u
      · rw [hqu, hunit.1] at hqt
        simp at hqt
      · simp [hunit.2 q hq hqu] at hqt
    · refine ⟨fun hf => by simp [hf q hq] at hqn, fun u hu hunit => ?_⟩
      by_cases hqu : q = u
      · simp [hunit.2 r hr fun h => hne (hqu.trans h.symm)] at hrn
      · simp [hunit.2 q hq hqu] at hqn
  · rintro ⟨hnotFalse, hnotUnit⟩
    by_contra hopen
    obtain ⟨htrue, htwo⟩ := not_or.1 hopen
    have hfalse : ∀ q ∈ literals, t.value q ≠ none → t.value q = some false := by
      intro q hq hv
      obtain ⟨b, hb⟩ := Option.ne_none_iff_exists'.1 hv
      cases b with
      | true => exact absurd ⟨q, hq, hb⟩ htrue
      | false => exact hb
    by_cases hex : ∃ u ∈ literals, t.value u = none
    · obtain ⟨u, hu, hun⟩ := hex
      exact hnotUnit u hu ⟨hun, fun q hq hqu => hfalse q hq fun hqn =>
        htwo ⟨q, hq, u, hu, hqu, hqn, hun⟩⟩
    · exact hnotFalse fun q hq => hfalse q hq fun hqn => hex ⟨q, hq, hqn⟩

lemma rootClosed_iff : s.RootClosed ↔ ∀ c, s.Active c → Opened s.toTrailState (s.literals c) :=
  forall₂_congr fun _ _ => opened_iff.symm

/-- With everything propagated, the watch invariant closes the clauses. -/
lemma Prepared.rootClosed (h : Prepared True Γ s) (hun : Unlearned s) : s.RootClosed := by
  refine rootClosed_iff.2 fun c hc => ?_
  have horig : s.Original c := ⟨hc, hun c hc.1⟩
  obtain ⟨a, b, rest, hab, hne⟩ := h.core.db.exists_eq hc.1
  -- a watched literal that is assigned comes with a true literal
  have hwatch : ∀ q ∈ [a, b], s.value q ≠ none → ∃ r ∈ s.literals c, s.value r = some true := by
    intro q hq
    refine h.settled.exists_true h.core h.head horig ?_ fun hn => hn trivial
    rw [ClauseDb.watched, hab]
    simpa using hq
  by_cases ha : s.value a = none
  · by_cases hb : s.value b = none
    · exact .inr ⟨a, by simp [literals, hab], b, by simp [literals, hab],
        fun h => hne (congrArg Literal.var h), ha, hb⟩
    · exact .inl (hwatch b (by simp) hb)
  · exact .inl (hwatch a (by simp) ha)

/-- **Root closure**: when no strengthening makes a clause whose watches are false at the root, no
active clause is false or unit after the passes. -/
theorem simplify_rootClosed (h : FirstQuery O config client s) (hsighted : SightedSimplification O s)
    (hr : s.simplify O = (true, s')) : s'.RootClosed := by
  obtain ⟨-, -, hun, -, Γ, -, hp⟩ := h.prepared
  obtain ⟨hok, hst⟩ := simplify_spec hp trivial O id fun _ => hsighted
  rw [hr] at hok hst
  cases hok with
  | done _ hp' _ => exact hp'.rootClosed (hun.of_stored (hst rfl))

/-- **The replacement of a clause** by a stronger one leaves the clauses closed exactly when the
stronger clause has a true literal or two unassigned ones. -/
theorem installStrengthened_rootClosed_iff {propagate : Solver → Option ClauseRef × Solver}
    (h : s.RootClosed) {literals : List Lit} (hlen : 2 ≤ literals.length) :
    (installStrengthened propagate c literals s).2.RootClosed ↔ Opened s.toTrailState literals := by
  obtain ⟨a, b, rest, rfl⟩ : ∃ a b rest, literals = a :: b :: rest := by
    match literals, hlen with
    | a :: b :: rest, _ => exact ⟨a, b, rest, rfl⟩
  set s₁ := (s.proofAdd (a :: b :: rest)).markClauseDeleted c
  have hstate : (installStrengthened propagate c (a :: b :: rest) s).2 =
      s₁.addClauseToDb (a :: b :: rest) false := rfl
  have hnew : (s₁.addClauseToDb (a :: b :: rest) false).literals
      (s₁.nextReference (a :: b :: rest)) = a :: b :: rest := literals_addClauseToDb_next
  rw [hstate, rootClosed_iff]
  constructor
  · intro hclosed
    have hopened := hclosed _ (ClauseDb.active_add.2 (.inr rfl))
    rwa [hnew] at hopened
  · intro hopened d hd
    rcases ClauseDb.active_add.1 hd with hd₁ | rfl
    · have hd₀ : s.Active d := (ClauseDb.active_delete.1 hd₁).1
      have hold : (s₁.addClauseToDb (a :: b :: rest) false).literals d = s.literals d :=
        (literals_addClauseToDb hd₁.1).trans literals_markClauseDeleted
      rw [hold]
      exact rootClosed_iff.1 h d hd₀
    · rwa [hnew]

/-- The clause `a ∨ b ∨ c` loses `a` to `¬a ∨ b`, and nothing is assigned. -/
def sightedClauses : List (List Lit) :=
  [[⟨0, true⟩, ⟨1, true⟩, ⟨2, true⟩], [⟨0, false⟩, ⟨1, true⟩]]

lemma sighted_sightedClauses : SightedSimplification .quiet
    (firstQueryState .quiet { clauseSubsumption := true } sightedClauses) := by
  have hstart : (firstQueryState .quiet { clauseSubsumption := true } sightedClauses).probeAndVivify
      .quiet = (true, firstQueryState .quiet { clauseSubsumption := true } sightedClauses) := rfl
  have hschedule : (firstQueryState .quiet { clauseSubsumption := true }
      sightedClauses).subsumptionSchedule = [.binary 0, .long 0] := by decide +kernel
  have htargets : subsumptionTargets (firstQueryState .quiet { clauseSubsumption := true }
      sightedClauses).subsumptionOccurrences ((firstQueryState .quiet { clauseSubsumption := true }
        sightedClauses).literals (.binary 0)) = [.binary 0, .long 0, .binary 0] := by decide +kernel
  have hopen : ∀ q ∈ (firstQueryState .quiet { clauseSubsumption := true } sightedClauses).literals
      (.long 0), (firstQueryState .quiet { clauseSubsumption := true } sightedClauses).value q = none :=
    by decide +kernel
  have hdeleted : ((subsumeScheduled .quiet (firstQueryState .quiet { clauseSubsumption := true }
      sightedClauses).subsumptionLiteralTouchBudget (firstQueryState .quiet
        { clauseSubsumption := true } sightedClauses).subsumptionOccurrences (.binary 0)
        (firstQueryState .quiet { clauseSubsumption := true } sightedClauses)).2.clause
          (.long 0)).deleted = true := by decide +kernel
  generalize firstQueryState .quiet { clauseSubsumption := true } sightedClauses = s at *
  rintro - s' hs' c t ht
  obtain rfl : s = s' := congrArg Prod.snd (hstart.symm.trans hs')
  rw [hschedule] at ht
  cases ht with
  | here =>
    rintro - d visited t hcompared pivot hstrengthened -
    rw [htargets] at hcompared
    cases hcompared with
    | here => exact absurd rfl hstrengthened.target.1
    | later hstep hcompared =>
      rw [subsumeTarget] at hstep
      split at hstep
      · simp at hstep
      rw [if_pos (.inl rfl)] at hstep
      obtain ⟨rfl, rfl⟩ := Prod.mk.inj (Prod.mk.inj hstep).2
      cases hcompared with
      | here => exact .inr fun q hq => hopen q (List.mem_of_mem_filter (List.mem_of_mem_take hq))
      | later _ hcompared =>
        cases hcompared with
        | here => exact absurd rfl hstrengthened.target.1
        | later _ h => cases h
  | later hstep ht =>
    cases ht with
    | here =>
      intro hopen'
      rw [hstep, hopen'] at hdeleted
      simp at hdeleted
    | later _ h => cases h

theorem simplify_rootClosed_strengthened :
    ((firstQueryState .quiet { clauseSubsumption := true } sightedClauses).simplify
      .quiet).2.RootClosed := by
  have hfirst : FirstQuery .quiet { clauseSubsumption := true } ⟨sightedClauses, [], []⟩
      (firstQueryState .quiet { clauseSubsumption := true } sightedClauses) :=
    firstQuery_withClauses (by decide) (by decide) (by decide)
  have hanswer : ((firstQueryState .quiet { clauseSubsumption := true } sightedClauses).simplify
      .quiet).1 = true := by decide +kernel
  exact simplify_rootClosed hfirst sighted_sightedClauses (Prod.ext hanswer rfl)

/-- A clause that is watched although a watch is false at the root: `a ∨ b ∨ c ∨ d` loses `a` to
`¬a ∨ b` while `c` and `d` are false. -/
def blindClauses : List (List Lit) :=
  [[⟨0, true⟩, ⟨1, true⟩, ⟨2, true⟩, ⟨3, true⟩], [⟨0, false⟩, ⟨1, true⟩], [⟨2, false⟩], [⟨3, false⟩]]

/-- The passes succeed, and the new clause `b ∨ c ∨ d` is unit. -/
theorem simplify_not_rootClosed : ∃ s s',
    FirstQuery .quiet { clauseSubsumption := true } ⟨blindClauses, [], []⟩ s ∧
      s.simplify .quiet = (true, s') ∧ ¬ s'.RootClosed := by
  have hfirst : FirstQuery .quiet { clauseSubsumption := true } ⟨blindClauses, [], []⟩
      (firstQueryState .quiet { clauseSubsumption := true } blindClauses) :=
    firstQuery_withClauses (by decide) (by decide) (by decide)
  have hanswer : ((firstQueryState .quiet { clauseSubsumption := true } blindClauses).simplify
      .quiet).1 = true := by decide +kernel
  refine ⟨_, _, hfirst, Prod.ext hanswer rfl, fun hclosed => ?_⟩
  have hactive : ((firstQueryState .quiet { clauseSubsumption := true } blindClauses).simplify
      .quiet).2.Active (.long 1) := ⟨by decide +kernel, by decide +kernel⟩
  refine (hclosed _ hactive).2 ⟨1, true⟩ (by decide +kernel) ⟨by decide +kernel, ?_⟩
  decide +kernel

end Solver

end Satrap
