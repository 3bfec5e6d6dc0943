/-
# Failed assumptions

An assumption that is false when its turn comes refutes the query.  The walk along the trail
from the false literal collects the assumptions that made it false: with the clauses they
already have no model (`FailedCore`).
-/
import Satrap.Solver.Descent

namespace Satrap

open Logic

namespace Solver

variable {Γ : Set (List Lit)} {s : Solver} {c : ClauseRef} {l q p : Lit} {A : List Lit}

/-- Assumptions, none repeated and in the order of `A`, that the clauses refute. -/
structure FailedCore (Γ : Set (List Lit)) (A core : List Lit) : Prop where
  sublist : core.Sublist A
  nodup : core.Nodup
  refutes : ∀ m, Models m Γ → ¬ ∀ a ∈ core, a.Holds m

lemma FailedCore.refutes_all {core : List Lit} (h : FailedCore Γ A core) :
    ∀ m, Models m Γ → ¬ ∀ a ∈ A, a.Holds m := fun m hm hA =>
  h.refutes m hm fun a ha => hA a (h.sublist.subset ha)

/-! ### The marks -/

lemma markAntecedents_seen {t : TrailState} {p : Lit} {v : ℕ} :
    ∀ (literals : List Lit) (seen : ℕ → Bool), markAntecedents t p literals seen v = true →
      seen v = true ∨ ∃ q ∈ literals, q.var = v ∧ q.var ≠ p.var ∧ 0 < t.levels q.var := by
  intro literals
  induction literals with
  | nil => exact fun _ h => .inl h
  | cons q literals ih =>
    intro seen h
    rw [markAntecedents, List.foldl_cons] at h
    rcases ih _ h with h | ⟨r, hr, hv⟩
    · split at h
      · next hq =>
        by_cases hvq : v = q.var
        · exact .inr ⟨q, by simp, hvq.symm, hq⟩
        · exact .inl (by simpa [Function.update_of_ne hvq] using h)
      · exact .inl h
    · exact .inr ⟨r, by simp [hr], hv⟩

lemma markAntecedents_of_seen {t : TrailState} {v : ℕ} :
    ∀ (literals : List Lit) (seen : ℕ → Bool), seen v = true →
      markAntecedents t p literals seen v = true := by
  intro literals
  induction literals with
  | nil => exact fun _ h => h
  | cons q literals ih =>
    intro seen h
    rw [markAntecedents, List.foldl_cons]
    refine ih _ ?_
    split
    · by_cases hvq : v = q.var
      · rw [hvq, Function.update_self]
      · rwa [Function.update_of_ne hvq]
    · exact h

lemma markAntecedents_of_mem {t : TrailState} :
    ∀ (literals : List Lit) (seen : ℕ → Bool), q ∈ literals → q.var ≠ p.var →
      0 < t.levels q.var → markAntecedents t p literals seen q.var = true := by
  intro literals
  induction literals with
  | nil => exact fun _ h => absurd h List.not_mem_nil
  | cons r literals ih =>
    intro seen h hne h0
    rw [markAntecedents, List.foldl_cons]
    rcases List.mem_cons.1 h with rfl | h
    · refine markAntecedents_of_seen literals _ ?_
      rw [if_pos ⟨hne, h0⟩, Function.update_self]
    · exact ih _ h hne h0

/-! ### The walk -/

/-- What the walk has yet to visit is the trail above the root, up to some literal. -/
def Unwalked (s : Solver) (rev : List Lit) : Prop :=
  s.trail.take (s.target 0) ++ rev.reverse <+: s.trail

namespace Unwalked

variable {rev : List Lit}

lemma tail (h : Unwalked s (p :: rev)) : Unwalked s rev := by
  rw [Unwalked, List.reverse_cons, ← List.append_assoc] at h
  exact (List.prefix_append _ _).trans h

lemma mem (h : Unwalked s rev) (hq : q ∈ rev) : q ∈ s.trail := by
  obtain ⟨u, hu⟩ := h
  rw [← hu]
  simp [hq]

lemma all (s : Solver) : Unwalked s (s.trail.drop (s.target 0)).reverse := by
  rw [Unwalked, List.reverse_reverse]
  exact (List.take_append_drop _ _).symm ▸ List.prefix_rfl

lemma mem_all (h : Core Γ s) (hlevel : 0 < s.decisionLevel) (hq : q ∈ s.trail)
    (h0 : 0 < s.levels q.var) : q ∈ (s.trail.drop (s.target 0)).reverse := by
  obtain ⟨j, hj⟩ := List.mem_iff_getElem?.1 hq
  have hge : s.target 0 ≤ j := by
    by_contra hlt
    have := (h.trail.levelAt_le_iff hlevel j).2 (Nat.lt_of_not_le hlt)
    rw [← h.trail.level j _ hj] at this
    omega
  rw [List.mem_reverse, List.mem_iff_getElem?]
  exact ⟨j - s.target 0, by rw [List.getElem?_drop, Nat.add_sub_cancel' hge, hj]⟩

lemma length_take (h : Core Γ s) (hlevel : 0 < s.decisionLevel) :
    (s.trail.take (s.target 0)).length = s.target 0 := by
  have := (h.trail.target_le_head hlevel).trans h.trail.head_le
  rw [List.length_take]
  omega

lemma getElem? (hun : Unwalked s (p :: rev)) (h : Core Γ s) (hlevel : 0 < s.decisionLevel) :
    s.trail[s.target 0 + rev.length]? = some p := by
  have hlen := length_take h hlevel
  obtain ⟨u, hu⟩ := hun
  rw [List.reverse_cons, ← List.append_assoc] at hu
  rw [← hu, List.append_assoc, List.getElem?_append_right (by simp)]
  simp [hlen]

lemma var_ne (hun : Unwalked s (p :: rev)) (h : Core Γ s) (hq : q ∈ rev) : q.var ≠ p.var := by
  obtain ⟨u, hu⟩ := hun
  have hnd := h.trail.nodup
  rw [← hu, List.reverse_cons, List.map_append, List.map_append, List.map_append] at hnd
  have hdis := List.disjoint_of_nodup_append (List.nodup_append'.1 (List.nodup_append'.1 hnd).1).2.1
  intro he
  exact hdis (List.mem_map_of_mem (List.mem_reverse.2 hq)) (by simp [he])

/-- The walk meets literals above the root only. -/
lemma level_pos (hun : Unwalked s (p :: rev)) (h : Core Γ s) (hlevel : 0 < s.decisionLevel) :
    0 < s.levels p.var := by
  have hp := hun.getElem? h hlevel
  by_contra hn
  have hlt := (h.trail.levelAt_le_iff hlevel (s.target 0 + rev.length)).1 (by
    rw [← h.trail.level _ p hp]
    omega)
  omega

/-- The antecedents above the root are visited later. -/
lemma antecedent (hun : Unwalked s (p :: rev)) (h : Core Γ s) (hlevel : 0 < s.decisionLevel)
    (hr : s.reasons p.var = some c) (hq : q ∈ s.literals c) (hqp : q.var ≠ p.var)
    (h0 : 0 < s.levels q.var) : -q ∈ rev := by
  have hlen := length_take h hlevel
  obtain ⟨-, -, hothers⟩ := h.reason _ p c (hun.getElem? h hlevel) hr
  obtain ⟨j, hj, hjq⟩ := hothers q hq fun he => hqp (he ▸ rfl)
  have hge : s.target 0 ≤ j := by
    by_contra hlt
    have := (h.trail.levelAt_le_iff hlevel j).2 (Nat.lt_of_not_le hlt)
    rw [← h.trail.level j _ hjq, Literal.var_neg] at this
    omega
  obtain ⟨u, hu⟩ := hun.tail
  rw [← hu, List.getElem?_append_left (by simpa [hlen] using hj),
    List.getElem?_append_right (by omega)] at hjq
  exact List.mem_reverse.1 (List.mem_of_getElem? hjq)

end Unwalked

/-- The walk for the core takes back all the marks it sets. -/
lemma coreLoop_seen (h : Core Γ s) (hlevel : 0 < s.decisionLevel) {failed : ℕ} :
    ∀ (rev : List Lit) (seen : ℕ → Bool) (conflict : List Lit), Unwalked s rev →
      (∀ v, seen v = true → v = failed ∨ ∃ l ∈ rev, l.var = v) →
      ∀ v, (coreLoop s rev seen conflict).1 v = true → v = failed := by
  intro rev
  induction rev with
  | nil =>
    intro seen conflict _ hseen v hv
    exact (hseen v hv).resolve_right (by simp)
  | cons p rev ih =>
    intro seen conflict hun hseen v hv
    have hseen' : ∀ v, Function.update seen p.var false v = true →
        v = failed ∨ ∃ l ∈ rev, l.var = v := by
      intro v hv
      by_cases hvp : v = p.var
      · simp [hvp] at hv
      · rcases hseen v (by simpa [Function.update_of_ne hvp] using hv) with hf | ⟨l, hl, rfl⟩
        · exact .inl hf
        · rcases List.mem_cons.1 hl with rfl | hl
          · exact absurd rfl hvp
          · exact .inr ⟨l, hl, rfl⟩
    rw [coreLoop] at hv
    split at hv
    · split at hv
      · next c hr =>
        refine ih _ conflict hun.tail (fun w hw => ?_) v hv
        rcases markAntecedents_seen _ _ hw with hw | ⟨q, hq, rfl, hqp, h0⟩
        · exact hseen' w hw
        · exact .inr ⟨-q, hun.antecedent h hlevel hr hq hqp h0, rfl⟩
      · exact ih _ _ hun.tail hseen' v hv
    · next hp =>
      refine ih seen conflict hun.tail (fun w hw => ?_) v hv
      refine (hseen w hw).imp_right ?_
      rintro ⟨l, hl, rfl⟩
      rcases List.mem_cons.1 hl with rfl | hl
      · exact absurd hw hp
      · exact ⟨l, hl, rfl⟩

lemma subset_coreLoop : ∀ (rev : List Lit) (seen : ℕ → Bool) (conflict : List Lit),
    conflict ⊆ (coreLoop s rev seen conflict).2 := by
  intro rev
  induction rev with
  | nil => exact fun _ _ => List.Subset.refl _
  | cons p rev ih =>
    intro seen conflict
    rw [coreLoop]
    split
    · split
      · exact ih _ _
      · exact List.Subset.trans (List.subset_append_left conflict [-p]) (ih _ _)
    · exact ih _ _

/-- **The marked literals follow** from the clauses and the decisions that the walk collects. -/
lemma coreLoop_holds (h : Core Γ s) (hlevel : 0 < s.decisionLevel) {m : ℕ → Bool}
    (hm : Models m Γ) : ∀ (rev : List Lit) (seen : ℕ → Bool) (conflict : List Lit),
      Unwalked s rev →
      (∀ q ∈ s.trail, s.reasons q.var = none → 0 < s.levels q.var →
        -q ∈ (coreLoop s rev seen conflict).2 → q.Holds m) →
      ∀ q ∈ rev, seen q.var = true → q.Holds m := by
  intro rev
  induction rev with
  | nil => exact fun _ _ _ _ q hq => absurd hq List.not_mem_nil
  | cons p rev ih =>
    intro seen conflict hun hdec q hq hsq
    have hpt := hun.mem List.mem_cons_self
    have hrest : ∀ r ∈ rev, seen r.var = true → Function.update seen p.var false r.var = true := by
      intro r hr hsr
      rwa [Function.update_of_ne (hun.var_ne h hr)]
    rw [coreLoop] at hdec
    split at hdec
    · split at hdec
      · next c hr =>
        have hmarked := ih _ conflict hun.tail hdec
        obtain ⟨hc, hpc, hothers⟩ := h.reason _ p c (hun.getElem? h hlevel) hr
        rcases List.mem_cons.1 hq with rfl | hq
        · -- the antecedents hold, at the root or because they are marked
          refine (h.entailed c hc m hm).holds_of_others fun r hrc hne => ?_
          obtain ⟨j, -, hjr⟩ := hothers r hrc hne
          have hrt := List.mem_of_getElem? hjr
          rcases Nat.eq_zero_or_pos (s.levels r.var) with h0 | h0
          · exact h.holds_root hm hrt (by simpa using h0)
          · have hvar : r.var ≠ q.var := fun he =>
              hne (List.inj_on_of_nodup_map (h.db.nodup c hc) hrc hpc he)
            exact hmarked (-r) (hun.antecedent h hlevel hr hrc hvar h0)
              (markAntecedents_of_mem (q := r) _ _ hrc hvar h0)
        · exact hmarked q hq (markAntecedents_of_seen _ _ (hrest q hq hsq))
      · next hr =>
        rcases List.mem_cons.1 hq with rfl | hq
        · exact hdec q hpt hr (hun.level_pos h hlevel) (subset_coreLoop _ _ _ (by simp))
        · exact ih _ _ hun.tail hdec q hq (hrest q hq hsq)
    · next hp =>
      rcases List.mem_cons.1 hq with rfl | hq
      · exact absurd hsq hp
      · exact ih _ _ hun.tail hdec q hq hsq

/-! ### The core -/

/-- The last loop of `analyze_failed_assumption`. -/
def collect (conflict A core : List Lit) : List Lit :=
  A.foldl (fun core a => if -a ∈ conflict ∧ a ∉ core then core ++ [a] else core) core

/-- It picks the assumptions that the conflict speaks of, in order and none twice. -/
lemma collect_spec (conflict : List Lit) : ∀ (A core done : List Lit), core.Sublist done →
    core.Nodup → (∀ a ∈ done, -a ∈ conflict → a ∈ core) →
    (collect conflict A core).Sublist (done ++ A) ∧ (collect conflict A core).Nodup ∧
      ∀ a ∈ done ++ A, -a ∈ conflict → a ∈ collect conflict A core := by
  intro A
  induction A with
  | nil =>
    intro core done h1 h2 h3
    exact ⟨by simpa [collect] using h1, h2, by simpa [collect] using h3⟩
  | cons a A ih =>
    intro core done h1 h2 h3
    have key := ih (if -a ∈ conflict ∧ a ∉ core then core ++ [a] else core) (done ++ [a])
    rw [List.append_assoc, List.singleton_append] at key
    refine key ?_ ?_ ?_
    · split
      · exact h1.append (.refl [a])
      · exact h1.trans (List.sublist_append_left done [a])
    · split
      · next ha => exact h2.append (by simp) (by simpa using ha.2)
      · exact h2
    · intro b hb hbc
      rcases List.mem_append.1 hb with hb | hb
      · have := h3 b hb hbc
        split
        · exact List.mem_append_left _ this
        · exact this
      · obtain rfl := List.mem_singleton.1 hb
        split
        · simp
        · next hn => exact by_contra fun hnb => hn ⟨hbc, hnb⟩

/-- The analysis of a failed assumption leaves the state as it was. -/
lemma analyzeFailedAssumption_frame (h : Core Γ s) (failed : Lit) (A : List Lit) :
    ∃ seen : ℕ → Bool, (s.analyzeFailedAssumption failed A).2 = { s with seen := seen } ∧
      ∀ v, seen v = false := by
  rw [analyzeFailedAssumption]
  split
  next seen conflict hloop =>
  refine ⟨_, rfl, fun v => ?_⟩
  by_cases hv : v = failed.var
  · rw [hv, Function.update_self]
  rw [Function.update_of_ne hv]
  by_contra hs
  have hs : seen v = true := by simpa using hs
  split at hloop
  · next h0 =>
    obtain ⟨rfl, -⟩ := Prod.mk.inj hloop
    refine hv (coreLoop_seen h h0 _ _ _ (.all s) (fun w hw => ?_) v hs)
    by_contra hw'
    rw [Function.update_of_ne (not_or.1 hw').1, h.seen] at hw
    simp at hw
  · obtain ⟨rfl, -⟩ := Prod.mk.inj hloop
    rw [h.seen] at hs
    simp at hs

/-- **The analysis of a failed assumption** finds assumptions that the clauses refute. -/
lemma analyzeFailedAssumption_spec (h : Core Γ s) (hA : Aligned A s.toTrailState) {failed : Lit}
    (ha : A[s.decisionLevel]? = some failed) (hE : failed.var ∉ s.eliminatedVariables)
    (hf : s.value failed = some false) :
    FailedCore Γ A (s.analyzeFailedAssumption failed A).1 := by
  have hlt := (List.getElem?_eq_some_iff.1 ha).1
  have hneg := (h.trail.neg_mem_iff hE).2 hf
  rw [analyzeFailedAssumption]
  split
  next seen conflict hloop =>
  obtain ⟨h1, h2, h3⟩ := collect_spec conflict A [] [] .slnil .nil (by simp)
  rw [List.nil_append] at h1 h3
  refine ⟨h1, h2, fun m hm hcore => ?_⟩
  have hself : -failed ∈ conflict := by
    split at hloop
    · obtain ⟨-, rfl⟩ := Prod.mk.inj hloop
      exact subset_coreLoop _ _ _ (by simp)
    · obtain ⟨-, rfl⟩ := Prod.mk.inj hloop
      simp
  refine Literal.holds_neg.1 ?_ (hcore failed (h3 failed (List.mem_of_getElem? ha) hself))
  rcases Nat.eq_zero_or_pos (s.levels failed.var) with h0 | h0
  · exact h.holds_root hm hneg h0
  · have hlevel : 0 < s.decisionLevel := h0.trans_le (by simpa using h.trail.level_le hneg)
    rw [if_pos hlevel] at hloop
    obtain ⟨-, rfl⟩ := Prod.mk.inj hloop
    refine coreLoop_holds h hlevel hm _ (Function.update s.seen failed.var true) [-failed]
      (.all s) (fun q hq hr hq0 hqc => ?_) (-failed) ?_
      (by rw [Literal.var_neg, Function.update_self])
    · -- a decision this low on the trail is an assumption
      have hqA : q ∈ A := by
        rcases hA.decided q hq hr with hd | hd | hd
        · omega
        · have := h.trail.level_le hq
          omega
        · exact hd
      exact hcore q (h3 q hqA hqc)
    · exact Unwalked.mem_all h hlevel hneg (by simpa using h0)

end Solver

end Satrap
