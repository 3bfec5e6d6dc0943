/-
# Difference constraints

A difference constraint bounds the value at one vertex by the value at another plus a weight, in
any ordered abelian group.  Relaxing the constraints in passes over their list, all distances
being zero at the start, reaches a solution after as many passes as there are vertices but one,
or there is no solution.

A distance is always the weight of a walk that ends at its vertex.  While there is a solution no
walk can return to a vertex with less weight than it had there, so that these walks visit every
vertex once; and after `k` passes no walk of `k` edges is lighter than the distance.
-/
import Mathlib.Algebra.Order.Field.Basic
import Mathlib.Algebra.Order.Floor.Ring
import Mathlib.Algebra.Order.Group.Defs
import Mathlib.Algebra.Order.Monoid.Prod
import Mathlib.Data.Finset.Card
import Mathlib.Order.Iterate
import Mathlib.Tactic.Abel
import Mathlib.Tactic.Linarith
import Mathlib.Tactic.Ring

namespace Satrap.Logic

/-- The value at the target is at most the value at the source plus the weight. -/
structure Difference (ι G : Type*) where
  source : ι
  target : ι
  weight : G

namespace Difference

variable {ι G : Type*} [AddCommGroup G] [LinearOrder G]
  {edges : List (Difference ι G)} {e : Difference ι G} {d d' f : ι → G} {p : List ι} {u v : ι} {g : G}

/-- The values meet the constraint. -/
def Met (e : Difference ι G) (d : ι → G) : Prop := d e.target ≤ d e.source + e.weight

/-- The values meet all constraints. -/
def Solves (edges : List (Difference ι G)) (d : ι → G) : Prop := ∀ e ∈ edges, e.Met d

/-- The distances once a constraint has been enforced at its target. -/
def relax [DecidableEq ι] (d : ι → G) (e : Difference ι G) : ι → G :=
  if d e.source + e.weight < d e.target then Function.update d e.target (d e.source + e.weight) else d

/-- The distances after all constraints have been enforced in turn. -/
def pass [DecidableEq ι] (edges : List (Difference ι G)) (d : ι → G) : ι → G := edges.foldl relax d

/-! ### One pass -/

section

variable [DecidableEq ι]

lemma relax_of_met (h : e.Met d) : relax d e = d := if_neg h.not_gt

lemma relax_le (d : ι → G) (e : Difference ι G) (v : ι) : relax d e v ≤ d v := by
  rw [relax]
  split
  · next hlt =>
    by_cases hv : v = e.target
    · rw [hv, Function.update_self]
      exact hlt.le
    · rw [Function.update_of_ne hv]
  · exact le_rfl

lemma relax_target (d : ι → G) (e : Difference ι G) :
    relax d e e.target ≤ d e.source + e.weight := by
  rw [relax]
  split
  · rw [Function.update_self]
  · next hle => exact not_lt.1 hle

lemma pass_le (edges : List (Difference ι G)) (d : ι → G) (v : ι) : pass edges d v ≤ d v := by
  induction edges generalizing d with
  | nil => exact le_rfl
  | cons e rest ih => exact (ih (relax d e)).trans (relax_le d e v)

/-- What holds of the distances and survives every relaxation holds after a pass. -/
lemma pass_induct {P : (ι → G) → Prop} (hstep : ∀ d, ∀ e ∈ edges, P d → P (relax d e)) (h : P d) :
    P (pass edges d) := by
  induction edges generalizing d with
  | nil => exact h
  | cons e rest ih =>
    exact ih (fun d e' he' => hstep d e' (List.mem_cons_of_mem e he')) (hstep d e List.mem_cons_self h)

lemma pass_of_solves (h : Solves edges d) : pass edges d = d :=
  pass_induct (P := fun d' => d' = d) (fun _ e he heq => heq ▸ relax_of_met (heq ▸ h e he)) rfl

/-- After a pass every target is within one edge of what its source was before. -/
lemma pass_target [IsOrderedAddMonoid G] (he : e ∈ edges) (d : ι → G) :
    pass edges d e.target ≤ d e.source + e.weight := by
  induction edges generalizing d with
  | nil => cases he
  | cons first rest ih =>
    rcases List.mem_cons.1 he with rfl | he
    · exact (pass_le rest (relax d e) e.target).trans (relax_target d e)
    · exact (ih he (relax d first)).trans (add_le_add_left (relax_le d first e.source) e.weight)

end

/-! ### Walks -/

/-- A walk along the edges, its last vertex first, with the sum of its weights, none of whose
vertices is farther than the part of the walk that leads there. -/
inductive Walk (edges : List (Difference ι G)) (d : ι → G) : List ι → G → Prop
  | start {v : ι} (h : d v ≤ 0) : Walk edges d [v] 0
  | step {p : List ι} {g : G} {e : Difference ι G} (hwalk : Walk edges d (e.source :: p) g)
      (he : e ∈ edges) (h : d e.target ≤ g + e.weight) :
      Walk edges d (e.target :: e.source :: p) (g + e.weight)

lemma Walk.mono (h : Walk edges d p g) (hle : ∀ v, d' v ≤ d v) : Walk edges d' p g := by
  induction h with
  | start h => exact .start ((hle _).trans h)
  | step _ he h ih => exact .step ih he ((hle _).trans h)

lemma Walk.subset {vertices : Finset ι} (h : Walk edges d (v :: p) g) (hv : v ∈ vertices)
    (hvertices : ∀ e ∈ edges, e.source ∈ vertices) : ∀ w ∈ v :: p, w ∈ vertices := by
  generalize hq : v :: p = q at h
  induction h generalizing v p with
  | start h =>
    obtain ⟨rfl, rfl⟩ := List.cons.inj hq
    simpa using hv
  | @step p g e _ he h ih =>
    obtain ⟨rfl, rfl⟩ := List.cons.inj hq
    intro w hw
    rcases List.mem_cons.1 hw with rfl | hw
    · exact hv
    · exact ih (hvertices e he) rfl w hw

variable [IsOrderedAddMonoid G]

/-- A solution bounds from below the weight of a walk beyond each of its vertices. -/
lemma Walk.le (h : Walk edges d (u :: p) g) (hf : Solves edges f) (hv : v ∈ u :: p) :
    d v + (f u - f v) ≤ g := by
  generalize hq : u :: p = q at h
  rw [hq] at hv
  induction h generalizing u p with
  | @start w h =>
    obtain ⟨rfl, rfl⟩ := List.cons.inj hq
    rw [List.mem_singleton.1 hv, sub_self, add_zero]
    exact h
  | @step p g e _ he h ih =>
    obtain ⟨rfl, rfl⟩ := List.cons.inj hq
    rcases List.mem_cons.1 hv with rfl | hv
    · rwa [sub_self, add_zero]
    · calc d v + (f e.target - f v) ≤ d v + (f e.source + e.weight - f v) := by
            gcongr
            exact hf e he
        _ = d v + (f e.source - f v) + e.weight := by abel
        _ ≤ g + e.weight := add_le_add_left (ih hv rfl) e.weight

/-- Every distance is the weight of a walk without repetitions. -/
def Attained (edges : List (Difference ι G)) (d : ι → G) : Prop :=
  ∀ v, ∃ p, Walk edges d (v :: p) (d v) ∧ (v :: p).Nodup

/-- The walk to the source of a violated constraint extends to its target. -/
lemma Attained.extend (h : Attained edges d) (hf : Solves edges f) (he : e ∈ edges)
    (hlt : d e.source + e.weight < d e.target) :
    ∃ p, Walk edges d (e.source :: p) (d e.source) ∧ (e.target :: e.source :: p).Nodup := by
  obtain ⟨p, hwalk, hnodup⟩ := h e.source
  refine ⟨p, hwalk, List.nodup_cons.2 ⟨fun hmem => ?_, hnodup⟩⟩
  have hle : d e.target + (f e.source - f e.target) ≤ d e.source := hwalk.le hf hmem
  have hbound : d e.target ≤ d e.source + e.weight :=
    calc d e.target = d e.target + (f e.source - f e.target) + (f e.target - f e.source) := by abel
      _ ≤ d e.source + (f e.source + e.weight - f e.source) := by
          gcongr
          exact hf e he
      _ = d e.source + e.weight := by abel
  exact hbound.not_gt hlt

variable [DecidableEq ι]

lemma Attained.relax (h : Attained edges d) (hf : Solves edges f) (he : e ∈ edges) :
    Attained edges (relax d e) := by
  by_cases hlt : d e.source + e.weight < d e.target
  swap
  · rwa [relax_of_met (not_lt.1 hlt)]
  obtain ⟨p, hwalk, hnodup⟩ := h.extend hf he hlt
  have hle := relax_le d e
  intro v
  by_cases hv : v = e.target
  · have hnew : Difference.relax d e v = d e.source + e.weight := by
      rw [hv, Difference.relax, if_pos hlt, Function.update_self]
    rw [hnew, hv]
    exact ⟨_, .step (hwalk.mono hle) he (relax_target d e), hnodup⟩
  · have hold : Difference.relax d e v = d v := by
      rw [Difference.relax, if_pos hlt, Function.update_of_ne hv]
    obtain ⟨q, hq, hq'⟩ := h v
    exact ⟨q, hold ▸ hq.mono hle, hq'⟩

lemma attained_iterate (hf : Solves edges f) (k : ℕ) : Attained edges ((pass edges)^[k] 0) := by
  induction k with
  | zero => exact fun v => ⟨[], .start le_rfl, List.nodup_singleton v⟩
  | succ k ih =>
    rw [Function.iterate_succ_apply']
    exact pass_induct (fun d e he h => h.relax hf he) ih

/-- After `k` passes no walk of at most `k` edges is lighter than the distance. -/
lemma iterate_le {k : ℕ} (h : Walk edges d (v :: p) g) (hk : p.length ≤ k) :
    (pass edges)^[k] 0 v ≤ g := by
  generalize hq : v :: p = q at h
  induction h generalizing v p k with
  | @start w _ =>
    induction k with
    | zero => exact le_rfl
    | succ k ih =>
      rw [Function.iterate_succ_apply']
      exact (pass_le edges _ v).trans (ih (by simp [(List.cons.inj hq).2]))
  | @step p' g e _ he _ ih =>
    obtain ⟨rfl, rfl⟩ := List.cons.inj hq
    rw [List.length_cons] at hk
    obtain ⟨k, rfl⟩ : ∃ j, k = j + 1 := ⟨k - 1, by omega⟩
    rw [Function.iterate_succ_apply']
    exact (pass_target he _).trans (add_le_add_left (ih (by omega) rfl) e.weight)

/-- **Relaxation decides difference constraints.**  They have a solution exactly when the
distances after as many passes as there are vertices but one are a solution. -/
theorem exists_solves_iff {vertices : Finset ι}
    (hsource : ∀ e ∈ edges, e.source ∈ vertices) (htarget : ∀ e ∈ edges, e.target ∈ vertices) :
    (∃ f, Solves edges f) ↔ Solves edges ((pass edges)^[vertices.card - 1] 0) := by
  refine ⟨fun ⟨f, hf⟩ e he => ?_, fun h => ⟨_, h⟩⟩
  by_contra hlt
  set d := (pass edges)^[vertices.card - 1] 0 with hd
  rw [Met, not_le] at hlt
  obtain ⟨p, hwalk, hnodup⟩ := (attained_iterate hf _).extend hf he hlt
  have hstep : Walk edges (relax d e) (e.target :: e.source :: p) (d e.source + e.weight) :=
    .step (hwalk.mono (relax_le d e)) he (relax_target d e)
  have hshort : (e.target :: e.source :: p).length ≤ vertices.card := by
    rw [← List.toFinset_card_of_nodup hnodup]
    refine Finset.card_le_card fun w hw => ?_
    exact hstep.subset (htarget e he) hsource w (List.mem_toFinset.1 hw)
  simp only [List.length_cons] at hshort
  have hle : d e.target ≤ d e.source + e.weight := iterate_le hstep (by simp only [List.length_cons]; omega)
  exact hle.not_gt hlt

/-! ### Strict constraints

Over a field a strict constraint is one whose weight is less by an infinitesimal: pairs of a number
and a count of infinitesimals are compared lexicographically. -/

section

variable {ι K : Type*} [Field K] [LinearOrder K]

/-- The values meet the constraint, strictly when the flag is set. -/
def MetStrictly (e : Difference ι (K × Bool)) (f : ι → K) : Prop :=
  if e.weight.2 then f e.target < f e.source + e.weight.1 else f e.target ≤ f e.source + e.weight.1

/-- The constraint with an infinitesimal in the place of the flag. -/
def infinitesimal (e : Difference ι (K × Bool)) : Difference ι (K ×ₗ ℤ) :=
  ⟨e.source, e.target, toLex (e.weight.1, if e.weight.2 then -1 else 0)⟩

lemma met_infinitesimal {e : Difference ι (K × Bool)} {d : ι → K ×ₗ ℤ} :
    (infinitesimal e).Met d ↔
      (ofLex (d e.target)).1 < (ofLex (d e.source)).1 + e.weight.1 ∨
        (ofLex (d e.target)).1 = (ofLex (d e.source)).1 + e.weight.1 ∧
          (ofLex (d e.target)).2 ≤ (ofLex (d e.source)).2 + if e.weight.2 then -1 else 0 :=
  Prod.Lex.le_iff

/-- Some positive number is so small that each of its multiples stays below its limit. -/
lemma exists_small [IsStrictOrderedRing K] (limits : List (K × K)) (h : ∀ p ∈ limits, 0 < p.2) :
    ∃ δ > 0, ∀ p ∈ limits, δ * p.1 < p.2 := by
  induction limits with
  | nil => exact ⟨1, one_pos, by simp⟩
  | cons p rest ih =>
    obtain ⟨δ, hδ, hrest⟩ := ih fun q hq => h q (List.mem_cons_of_mem p hq)
    have hlimit : 0 < p.2 := h p List.mem_cons_self
    have hpos : 0 < |p.1| + 1 := by positivity
    have hshrink (q : K × K) (hq : 0 < q.2) {δ' : K} (hδ' : δ' * q.1 < q.2) {δ'' : K}
        (h0 : 0 < δ'') (hle : δ'' ≤ δ') : δ'' * q.1 < q.2 := by
      rcases le_or_gt q.1 0 with hneg | hpos
      · exact (mul_nonpos_of_nonneg_of_nonpos h0.le hneg).trans_lt hq
      · exact (mul_le_mul_of_nonneg_right hle hpos.le).trans_lt hδ'
    refine ⟨min δ (p.2 / (|p.1| + 1)), lt_min hδ (div_pos hlimit hpos), fun q hq => ?_⟩
    have h0 : 0 < min δ (p.2 / (|p.1| + 1)) := lt_min hδ (div_pos hlimit hpos)
    rcases List.mem_cons.1 hq with rfl | hq
    · have hδ' : q.2 / (|q.1| + 1) * q.1 < q.2 := by
        rw [div_mul_eq_mul_div, div_lt_iff₀ hpos]
        nlinarith [le_abs_self q.1]
      exact hshrink q hlimit hδ' h0 (min_le_right _ _)
    · exact hshrink q (h q (List.mem_cons_of_mem p hq)) (hrest q hq) h0 (min_le_left _ _)

/-- **Infinitesimals stand for strictness.** -/
theorem exists_metStrictly_iff [IsStrictOrderedRing K] {edges : List (Difference ι (K × Bool))} :
    (∃ f, ∀ e ∈ edges, e.MetStrictly f) ↔ ∃ d, Solves (edges.map infinitesimal) d := by
  constructor
  · rintro ⟨f, hf⟩
    refine ⟨fun v => toLex (f v, 0), ?_⟩
    intro edge hm
    obtain ⟨e, he, rfl⟩ := List.mem_map.1 hm
    have hmet := hf e he
    rw [MetStrictly] at hmet
    rw [met_infinitesimal]
    split at hmet
    · exact .inl hmet
    · next hs =>
      rcases hmet.lt_or_eq with hlt | heq
      · exact .inl hlt
      · exact .inr ⟨heq, by simp [hs]⟩
  · rintro ⟨d, hd⟩
    set a := fun v => (ofLex (d v)).1 with ha
    set k := fun v => ((ofLex (d v)).2 : K) with hk
    obtain ⟨δ, hδ, hsmall⟩ := exists_small
      ((edges.filter fun e => decide (a e.target < a e.source + e.weight.1)).map fun e =>
        (k e.target - k e.source, a e.source + e.weight.1 - a e.target)) (by
          rintro p hp
          obtain ⟨e, he, rfl⟩ := List.mem_map.1 hp
          exact sub_pos.2 (of_decide_eq_true (List.mem_filter.1 he).2))
    refine ⟨fun v => a v + δ * k v, fun e he => ?_⟩
    have hmet := met_infinitesimal.1 (hd _ (List.mem_map_of_mem he))
    rcases hmet with hlt | ⟨heq, hle⟩
    · have hroom : δ * (k e.target - k e.source) < a e.source + e.weight.1 - a e.target :=
        hsmall _ (List.mem_map.2 ⟨e, List.mem_filter.2 ⟨he, by simpa using hlt⟩, rfl⟩)
      have hstrict : a e.target + δ * k e.target < a e.source + δ * k e.source + e.weight.1 := by
        rw [mul_sub] at hroom
        linarith
      rw [MetStrictly]
      split
      · exact hstrict
      · exact hstrict.le
    · have heq : a e.target = a e.source + e.weight.1 := heq
      rw [MetStrictly]
      split
      · next hs =>
        rw [if_pos hs] at hle
        have hle : k e.target + 1 ≤ k e.source := by
          have hint : (ofLex (d e.target)).2 + 1 ≤ (ofLex (d e.source)).2 := by omega
          simpa only [hk, Int.cast_add, Int.cast_one] using Int.cast_mono (R := K) hint
        nlinarith
      · next hs =>
        rw [if_neg hs, add_zero] at hle
        have hle : k e.target ≤ k e.source := by
          exact Int.cast_mono hle
        nlinarith

/-- Constraints with integral weights have an integral solution as soon as they have any. -/
theorem exists_integral_iff [IsStrictOrderedRing K] [FloorRing K] {edges : List (Difference ι ℤ)} :
    (∃ f, Solves edges f) ↔
      ∃ d, Solves (edges.map fun e => infinitesimal ⟨e.source, e.target, ((e.weight : K), false)⟩) d := by
  constructor
  · rintro ⟨f, hf⟩
    refine ⟨fun v => toLex ((f v : K), 0), ?_⟩
    intro edge hm
    obtain ⟨e, he, rfl⟩ := List.mem_map.1 hm
    rw [met_infinitesimal]
    rcases (hf e he).lt_or_eq with hlt | heq
    · have hlt : (f e.target : K) < f e.source + e.weight := by exact_mod_cast hlt
      exact .inl hlt
    · have heq : (f e.target : K) = f e.source + e.weight := by exact_mod_cast heq
      exact .inr ⟨heq, by simp⟩
  · rintro ⟨d, hd⟩
    refine ⟨fun v => ⌊(ofLex (d v)).1⌋, fun e he => ?_⟩
    have hmet := met_infinitesimal.1 (hd _ (List.mem_map_of_mem he))
    have hle : (ofLex (d e.target)).1 ≤ (ofLex (d e.source)).1 + (e.weight : K) := by
      rcases hmet with hlt | ⟨heq, -⟩
      · exact hlt.le
      · exact heq.le
    rw [Met, ← Int.floor_add_intCast]
    exact Int.floor_mono hle

end

end Difference

end Satrap.Logic
