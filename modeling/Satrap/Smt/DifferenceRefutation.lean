/-
# Difference refutations

The relaxation of difference constraints with lexicographic distances says that they are
unsatisfiable exactly when they have no solution: over the integers always, and over the rationals
as long as the counters of infinitesimals, which saturate, are not exhausted.
-/
import Mathlib.Algebra.Group.Subgroup.Ker
import Satrap.Logic.Differences
import Satrap.Smt.RealRefutation

namespace Satrap.Smt

open Logic

/-! ### Relaxation -/

section

variable {d : ℕ → ℚ × ℤ} {edge : ProofDifferenceEdge} {edges : List ProofDifferenceEdge}
  {changed : Bool} {k s n : ℕ}

/-- The constraint that an edge stands for. -/
def ProofDifferenceEdge.lex (edge : ProofDifferenceEdge) : Difference ℕ (ℚ ×ₗ ℤ) :=
  ⟨edge.source, edge.target, toLex (edge.weight, edge.epsilon)⟩

/-- The distances in their lexicographic order. -/
def lexed (d : ℕ → ℚ × ℤ) : ℕ → ℚ ×ₗ ℤ := fun v => toLex (d v)

/-- The counters of infinitesimals have not gone below a depth. -/
def Shallow (k : ℕ) (d : ℕ → ℚ × ℤ) : Prop := ∀ v, -(k : ℤ) ≤ (d v).2 ∧ (d v).2 ≤ 0

/-- An edge takes a counter down by at most one step. -/
def ProofDifferenceEdge.Within (s : ℕ) (edge : ProofDifferenceEdge) : Prop :=
  -(s : ℤ) ≤ edge.epsilon ∧ edge.epsilon ≤ 0

lemma saturatingAdd_eq {a b : ℤ} (h : -2 ^ 63 ≤ a + b) (h' : a + b < 2 ^ 63) :
    saturatingAdd a b = a + b := by
  rw [saturatingAdd, min_eq_right (by omega), max_eq_right h]

/-- While no counter saturates an edge is relaxed, and a change means that it was not met. -/
lemma relaxProofEdge_spec (changed : Bool) (h : Shallow k d) (he : edge.Within s)
    (hk : k + s ≤ 2 ^ 63) :
    lexed (relaxProofEdge (d, changed) edge).1 = Difference.relax (lexed d) edge.lex ∧
      Shallow (k + s) (relaxProofEdge (d, changed) edge).1 ∧
      ((relaxProofEdge (d, changed) edge).2 = false ↔ changed = false ∧ edge.lex.Met (lexed d)) := by
  obtain ⟨hlow, hhigh⟩ := h edge.source
  obtain ⟨helow, hehigh⟩ := he
  have hsum : saturatingAdd (d edge.source).2 edge.epsilon = (d edge.source).2 + edge.epsilon :=
    saturatingAdd_eq (by omega) (by omega)
  have hcandidate : lexed d edge.source + toLex (edge.weight, edge.epsilon) =
      toLex ((d edge.source).1 + edge.weight, (d edge.source).2 + edge.epsilon) := rfl
  rw [relaxProofEdge, Difference.relax, Difference.Met]
  simp only [hsum, ProofDifferenceEdge.lex, hcandidate]
  by_cases hlt : (d edge.source).1 + edge.weight < (d edge.target).1 ∨
      (d edge.source).1 + edge.weight = (d edge.target).1 ∧
        (d edge.source).2 + edge.epsilon < (d edge.target).2
  · have hlex : toLex ((d edge.source).1 + edge.weight, (d edge.source).2 + edge.epsilon) <
        lexed d edge.target := Prod.Lex.lt_iff.2 hlt
    rw [if_pos hlt, if_pos hlex]
    refine ⟨?_, fun v => ?_, by simp [hlex]⟩
    · ext v : 1
      dsimp only
      by_cases hv : v = edge.target
      · rw [hv, lexed, Function.update_self, Function.update_self]
      · rw [lexed, Function.update_of_ne hv, Function.update_of_ne hv, lexed]
    · have hold := h v
      dsimp only
      by_cases hv : v = edge.target
      · rw [hv, Function.update_self]
        dsimp only
        omega
      · rw [Function.update_of_ne hv]
        omega
  · have hlex : ¬ toLex ((d edge.source).1 + edge.weight, (d edge.source).2 + edge.epsilon) <
        lexed d edge.target := fun h => hlt (Prod.Lex.lt_iff.1 h)
    rw [if_neg hlt, if_neg hlex]
    refine ⟨rfl, fun v => ?_, by simp [not_lt.1 hlex]⟩
    have hold := h v
    dsimp only
    omega

/-- A pass without a change means that all edges are met. -/
lemma foldl_relaxProofEdge (changed : Bool) (h : Shallow k d) (he : ∀ edge ∈ edges, edge.Within s)
    (hk : k + s * edges.length ≤ 2 ^ 63) :
    lexed (edges.foldl relaxProofEdge (d, changed)).1 =
        Difference.pass (edges.map ProofDifferenceEdge.lex) (lexed d) ∧
      Shallow (k + s * edges.length) (edges.foldl relaxProofEdge (d, changed)).1 ∧
      ((edges.foldl relaxProofEdge (d, changed)).2 = false ↔
        changed = false ∧ Difference.Solves (edges.map ProofDifferenceEdge.lex) (lexed d)) := by
  induction edges generalizing d changed k with
  | nil => exact ⟨rfl, by simpa using h, by simp [Difference.Solves]⟩
  | cons edge rest ih =>
    rw [List.length_cons, Nat.mul_add_one] at hk ⊢
    obtain ⟨hrelax, hshallow, hflag⟩ :=
      relaxProofEdge_spec changed h (he edge List.mem_cons_self) (by omega)
    obtain ⟨hpass, hdeep, hend⟩ := ih (relaxProofEdge (d, changed) edge).2 hshallow
      (fun e hm => he e (List.mem_cons_of_mem edge hm)) (by omega)
    rw [List.foldl_cons]
    refine ⟨?_, ?_, ?_⟩
    · rw [hpass, hrelax]
      rfl
    · have hsum : k + s + s * rest.length = k + (s * rest.length + s) := by omega
      rwa [hsum] at hdeep
    · rw [hend, hflag, hrelax]
      simp only [Difference.Solves, List.map_cons, List.forall_mem_cons, and_assoc]
      constructor
      · rintro ⟨hch, hmet, hrest⟩
        rw [Difference.relax_of_met hmet] at hrest
        exact ⟨hch, hmet, hrest⟩
      · rintro ⟨hch, hmet, hrest⟩
        rw [Difference.relax_of_met hmet]
        exact ⟨hch, hmet, hrest⟩

/-- The passes go on to the last one exactly when none of them finds all edges met. -/
lemma proofDifferencePasses_iff_forall (h : Shallow k d) (he : ∀ edge ∈ edges, edge.Within s)
    (hk : k + s * edges.length * n ≤ 2 ^ 63) :
    proofDifferencePasses edges n d = true ↔ 0 < n ∧ ∀ i < n, ¬ Difference.Solves
      (edges.map ProofDifferenceEdge.lex)
      ((Difference.pass (edges.map ProofDifferenceEdge.lex))^[i] (lexed d)) := by
  induction n generalizing d k with
  | zero => simp [proofDifferencePasses]
  | succ n ih =>
    rw [Nat.mul_add_one] at hk
    obtain ⟨hpass, hshallow, hflag⟩ := foldl_relaxProofEdge false h he (by omega)
    have ih := ih hshallow (by omega)
    rw [hpass] at ih
    rw [proofDifferencePasses]
    generalize edges.foldl relaxProofEdge (d, false) = result at *
    obtain ⟨d', changed⟩ := result
    dsimp only at *
    cases changed with
    | false =>
      have hsolved := (hflag.1 rfl).2
      simp only [Bool.not_false, if_true, Bool.false_eq_true, false_iff]
      exact fun ⟨_, hno⟩ => hno 0 n.succ_pos hsolved
    | true =>
      have hunsolved : ¬ Difference.Solves (edges.map ProofDifferenceEdge.lex) (lexed d) :=
        fun hs => by simpa using hflag.2 ⟨rfl, hs⟩
      simp only [Bool.not_true, Bool.false_eq_true, if_false]
      split
      · next hn =>
        subst hn
        refine iff_of_true rfl ⟨Nat.one_pos, fun i hi => ?_⟩
        obtain rfl : i = 0 := by omega
        exact hunsolved
      · next hn =>
        rw [ih]
        constructor
        · rintro ⟨-, hno⟩
          refine ⟨n.succ_pos, fun i hi => ?_⟩
          cases i with
          | zero => exact hunsolved
          | succ i => exact hno i (by omega)
        · rintro ⟨-, hno⟩
          exact ⟨by omega, fun i hi => hno (i + 1) (by omega)⟩

/-- **The passes decide the edges** as long as no counter saturates. -/
lemma proofDifferencePasses_iff (hn : 0 < n)
    (hends : ∀ edge ∈ edges, edge.source < n ∧ edge.target < n)
    (he : ∀ edge ∈ edges, edge.Within s) (hk : s * edges.length * n ≤ 2 ^ 63) :
    proofDifferencePasses edges n (fun _ => (0, 0)) = true ↔
      ¬ ∃ f, Difference.Solves (edges.map ProofDifferenceEdge.lex) f := by
  have hzero : lexed (fun _ => (0, 0)) = 0 := rfl
  have hends' : ∀ e ∈ edges.map ProofDifferenceEdge.lex,
      e.source ∈ Finset.range n ∧ e.target ∈ Finset.range n := by
    intro e hm
    obtain ⟨edge, hedge, rfl⟩ := List.mem_map.1 hm
    exact ⟨Finset.mem_range.2 (hends edge hedge).1, Finset.mem_range.2 (hends edge hedge).2⟩
  rw [proofDifferencePasses_iff_forall (k := 0) (fun _ => by simp) he (by omega), hzero]
  constructor
  · rintro ⟨-, hno⟩ hsolvable
    have hlast := (Difference.exists_solves_iff (fun e hm => (hends' e hm).1)
      fun e hm => (hends' e hm).2).1 hsolvable
    rw [Finset.card_range] at hlast
    exact hno (n - 1) (by omega) hlast
  · exact fun hno => ⟨hn, fun i _ hs => hno ⟨_, hs⟩⟩

end

/-! ### Constraints as edges -/

section

variable {V : Type} [LinearOrder V] {constraints : List (ProofLinearConstraint V)}
  {c : ProofLinearConstraint V} {sort : ProofSort} {index : V → ℕ} {origin : ℕ}
  {edge : ProofDifferenceEdge} {edges : List ProofDifferenceEdge}

/-- The values of the vertices agree with those of the variables, the origin being zero. -/
structure Placed (index : V → ℕ) (origin : ℕ) (vars : List V) (x : V → ℚ) (f : ℕ → ℚ) : Prop where
  at_index : ∀ v ∈ vars, f (index v) = x v
  at_origin : f origin = 0

/-- The variables of a constraint. -/
def ProofLinearConstraint.vars (c : ProofLinearConstraint V) : List V :=
  c.expression.coefficients.map Prod.fst

/-- A vertex of a constraint. -/
def Vertex (index : V → ℕ) (origin : ℕ) (c : ProofLinearConstraint V) (w : ℕ) : Prop :=
  w = origin ∨ ∃ v ∈ c.vars, w = index v

omit [LinearOrder V] in
/-- The value of an expression is a multiple of the difference of its vertices. -/
lemma differenceEnds_ok {positive negative : ℕ} {scale : ℚ}
    (h : differenceEnds c index origin = .ok (positive, negative, scale)) :
    0 < scale ∧ Vertex index origin c negative ∧ Vertex index origin c positive ∧
      ∀ x f, Placed index origin c.vars x f →
        c.expression.evaluate x = scale * (f positive - f negative) + c.expression.constant := by
  have hvalue (x : V → ℚ) : c.expression.evaluate x =
      c.expression.constant + weightedSum x c.expression.coefficients := rfl
  rw [differenceEnds] at h
  split at h
  · next v a hcoefficients =>
    have hv : v ∈ c.vars := by simp [ProofLinearConstraint.vars, hcoefficients]
    split at h
    · next ha =>
      cases h
      refine ⟨ha, .inl rfl, .inr ⟨v, hv, rfl⟩, fun x f hf => ?_⟩
      rw [hvalue, hcoefficients, weightedSum_cons, weightedSum_nil, hf.at_index v hv, hf.at_origin]
      ring
    split at h
    · next ha =>
      cases h
      refine ⟨neg_pos.2 ha, .inr ⟨v, hv, rfl⟩, .inl rfl, fun x f hf => ?_⟩
      rw [hvalue, hcoefficients, weightedSum_cons, weightedSum_nil, hf.at_index v hv, hf.at_origin]
      ring
    · cases h
  · next v a w b hcoefficients =>
    have hv : v ∈ c.vars := by simp [ProofLinearConstraint.vars, hcoefficients]
    have hw : w ∈ c.vars := by simp [ProofLinearConstraint.vars, hcoefficients]
    split at h
    · next ha =>
      cases h
      refine ⟨ha.1, .inr ⟨w, hw, rfl⟩, .inr ⟨v, hv, rfl⟩, fun x f hf => ?_⟩
      rw [hvalue, hcoefficients, weightedSum_cons, weightedSum_cons, weightedSum_nil,
        hf.at_index v hv, hf.at_index w hw, ha.2]
      ring
    split at h
    · next hb =>
      cases h
      refine ⟨hb.1, .inr ⟨v, hv, rfl⟩, .inr ⟨w, hw, rfl⟩, fun x f hf => ?_⟩
      rw [hvalue, hcoefficients, weightedSum_cons, weightedSum_cons, weightedSum_nil,
        hf.at_index v hv, hf.at_index w hw, hb.2]
      ring
    · cases h
  · cases h

/-- The bound that a constraint sets the difference of its vertices. -/
def ProofLinearConstraint.difference (c : ProofLinearConstraint V) (positive negative : ℕ)
    (scale : ℚ) : Difference ℕ (ℚ × Bool) :=
  ⟨negative, positive, (-c.expression.constant / scale, c.strict)⟩

/-- The bound with its weight rounded, when the values are integers. -/
def rounded (sort : ProofSort) (e : Difference ℕ (ℚ × Bool)) : Difference ℕ (ℚ × Bool) :=
  match sort with
  | .int =>
    ⟨e.source, e.target, (((if e.weight.2 then ⌈e.weight.1⌉ - 1 else ⌊e.weight.1⌋ : ℤ) : ℚ), false)⟩
  | _ => e

omit [LinearOrder V] in
/-- An edge says of the vertices what its constraint says of the variables. -/
lemma proofDifferenceEdge_ok (h : proofDifferenceEdge c sort index origin = .ok edge) :
    ∃ e : Difference ℕ (ℚ × Bool), edge.lex = (rounded sort e).infinitesimal ∧
      Vertex index origin c e.source ∧ Vertex index origin c e.target ∧
      ∀ x f, Placed index origin c.vars x f → (c.Holds x ↔ e.MetStrictly f) := by
  rw [proofDifferenceEdge] at h
  split at h
  · cases h
  next positive negative scale hends =>
  obtain ⟨hscale, hnegative, hpositive, hvalue⟩ := differenceEnds_ok hends
  refine ⟨c.difference positive negative scale, ?_, hnegative, hpositive, fun x f hf => ?_⟩
  · dsimp only at h
    split at h
    · cases h
      rfl
    · cases h
      rfl
    · cases h
  · rw [ProofLinearConstraint.Holds, hvalue x f hf, Difference.MetStrictly,
      ProofLinearConstraint.difference]
    dsimp only
    split
    · rw [← sub_lt_iff_lt_add', lt_div_iff₀ hscale]
      constructor <;> intro h <;> linarith
    · rw [← sub_le_iff_le_add', le_div_iff₀ hscale]
      constructor <;> intro h <;> linarith

omit [LinearOrder V] in
lemma Placed.mono {vars vars' : List V} {x : V → ℚ} {f : ℕ → ℚ} (h : Placed index origin vars x f)
    (hsub : vars' ⊆ vars) : Placed index origin vars' x f :=
  ⟨fun v hv => h.at_index v (hsub hv), h.at_origin⟩

omit [LinearOrder V] in
/-- The bounds that edges stand for: they hold of the vertices when the constraints hold of the
variables. -/
structure Bounding (sort : ProofSort) (index : V → ℕ) (origin : ℕ)
    (constraints : List (ProofLinearConstraint V)) (edges : List ProofDifferenceEdge)
    (bounds : List (Difference ℕ (ℚ × Bool))) : Prop where
  length : edges.length ≤ constraints.length
  edges : edges.map ProofDifferenceEdge.lex = bounds.map fun e => (rounded sort e).infinitesimal
  vertices : ∀ e ∈ bounds, ∃ c ∈ constraints,
    Vertex index origin c e.source ∧ Vertex index origin c e.target
  holds : ∀ x f, Placed index origin (constraints.flatMap ProofLinearConstraint.vars) x f →
    (HoldAll constraints x ↔ ∀ e ∈ bounds, e.MetStrictly f)

omit [LinearOrder V] in
lemma proofDifferenceEdges_ok {result : Option (List ProofDifferenceEdge)}
    (h : proofDifferenceEdges sort index origin constraints = .ok result) :
    match result with
    | none => ∀ x, ¬ HoldAll constraints x
    | some edges => ∃ bounds, Bounding sort index origin constraints edges bounds := by
  induction constraints generalizing result with
  | nil =>
    cases h
    exact ⟨[], le_rfl, rfl, by simp, by simp [HoldAll]⟩
  | cons c rest ih =>
    have hall (x : V → ℚ) : HoldAll (c :: rest) x ↔ c.Holds x ∧ HoldAll rest x := by
      simp [HoldAll]
    have hfirst {x : V → ℚ} {f : ℕ → ℚ} (hf : Placed index origin
        ((c :: rest).flatMap ProofLinearConstraint.vars) x f) :
        Placed index origin c.vars x f ∧
          Placed index origin (rest.flatMap ProofLinearConstraint.vars) x f := by
      rw [List.flatMap_cons] at hf
      exact ⟨hf.mono (List.subset_append_left _ _), hf.mono (List.subset_append_right _ _)⟩
    rw [proofDifferenceEdges] at h
    split at h
    · next hconstant =>
      split at h
      · next hsat =>
        have ih := ih h
        cases result with
        | none => exact fun x hx => ih x ((hall x).1 hx).2
        | some edges =>
          obtain ⟨bounds, hlength, hedges, hvertices, hholds⟩ := ih
          refine ⟨bounds, hlength.trans (Nat.le_succ _), hedges, fun e he => ?_, fun x f hf => ?_⟩
          · obtain ⟨d, hd, hends⟩ := hvertices e he
            exact ⟨d, List.mem_cons_of_mem c hd, hends⟩
          · rw [hall, ← hholds x f (hfirst hf).2, ProofLinearConstraint.holds_iff_satisfied hconstant]
            exact ⟨And.right, fun hx => ⟨hsat, hx⟩⟩
      · next hsat =>
        cases h
        exact fun x hx => hsat ((ProofLinearConstraint.holds_iff_satisfied hconstant).1 ((hall x).1 hx).1)
    split at h
    · cases h
    next edge hedge =>
    obtain ⟨e, hlex, hsource, htarget, hmet⟩ := proofDifferenceEdge_ok hedge
    cases hrest : proofDifferenceEdges sort index origin rest with
    | error err =>
      rw [hrest] at h
      cases h
    | ok result' =>
      rw [hrest] at h
      cases h
      have ih := ih hrest
      cases result' with
      | none => exact fun x hx => ih x ((hall x).1 hx).2
      | some edges =>
        obtain ⟨bounds, hlength, hedges, hvertices, hholds⟩ := ih
        refine ⟨e :: bounds, Nat.succ_le_succ hlength, ?_, fun e' he' => ?_, fun x f hf => ?_⟩
        · rw [List.map_cons, List.map_cons, hlex, hedges]
        · rcases List.mem_cons.1 he' with rfl | he'
          · exact ⟨c, List.mem_cons_self, hsource, htarget⟩
          · obtain ⟨d, hd, hends⟩ := hvertices e' he'
            exact ⟨d, List.mem_cons_of_mem c hd, hends⟩
        · rw [hall, List.forall_mem_cons, hmet x f (hfirst hf).1, hholds x f (hfirst hf).2]

/-! ### Solutions -/

/-- The variables have values in a group exactly when the vertices have. -/
lemma Bounding.exists_iff {bounds : List (Difference ℕ (ℚ × Bool))} {vars : List V}
    (h : Bounding sort (vars.idxOf ·) vars.length constraints edges bounds)
    (hvars : constraints.flatMap ProofLinearConstraint.vars ⊆ vars) (S : AddSubgroup ℚ) :
    (∃ x, (∀ v, x v ∈ S) ∧ HoldAll constraints x) ↔
      ∃ f : ℕ → ℚ, (∀ i, f i ∈ S) ∧ ∀ e ∈ bounds, e.MetStrictly f := by
  constructor
  · rintro ⟨x, hx, hholds⟩
    refine ⟨fun i => if hi : i < vars.length then x vars[i] else 0, fun i => ?_, ?_⟩
    · dsimp only
      split
      · exact hx _
      · exact S.zero_mem
    · refine (h.holds x _ ⟨fun v hv => ?_, dif_neg (lt_irrefl _)⟩).1 hholds
      rw [dif_pos (List.idxOf_lt_length_iff.2 (hvars hv)), List.getElem_idxOf]
  · rintro ⟨f, hf, hmet⟩
    refine ⟨fun v => f (vars.idxOf v) - f vars.length, fun v => S.sub_mem (hf _) (hf _), ?_⟩
    refine (h.holds _ (fun i => f i - f vars.length) ⟨fun v _ => rfl, sub_self _⟩).2
      fun e he => ?_
    have hedge := hmet e he
    rw [Difference.MetStrictly] at hedge ⊢
    split at hedge
    · next hs =>
      rw [if_pos hs]
      linarith
    · next hs =>
      rw [if_neg hs]
      linarith

/-- The vertices of the edges are the variables and the origin. -/
lemma Bounding.lt {bounds : List (Difference ℕ (ℚ × Bool))} {vars : List V}
    (h : Bounding sort (vars.idxOf ·) vars.length constraints edges bounds)
    (hvars : constraints.flatMap ProofLinearConstraint.vars ⊆ vars) :
    ∀ edge ∈ edges, edge.source < vars.length + 1 ∧ edge.target < vars.length + 1 := by
  intro edge hedge
  have hlex : edge.lex ∈ bounds.map fun e => (rounded sort e).infinitesimal :=
    h.edges ▸ List.mem_map_of_mem hedge
  obtain ⟨e, he, heq⟩ := List.mem_map.1 hlex
  obtain ⟨c, hc, hsource, htarget⟩ := h.vertices e he
  have hbound {w : ℕ} (hw : Vertex (vars.idxOf ·) vars.length c w) : w < vars.length + 1 := by
    rcases hw with rfl | ⟨v, hv, rfl⟩
    · exact Nat.lt_succ_self _
    · exact (List.idxOf_lt_length_iff.2 (hvars (List.mem_flatMap.2 ⟨c, hc, hv⟩))).trans
        (Nat.lt_succ_self _)
  have hends : (rounded sort e).source = e.source ∧ (rounded sort e).target = e.target := by
    cases sort <;> exact ⟨rfl, rfl⟩
  have hs : edge.source = e.source := (congrArg Difference.source heq).symm.trans hends.1
  have ht : edge.target = e.target := (congrArg Difference.target heq).symm.trans hends.2
  exact ⟨hs ▸ hbound hsource, ht ▸ hbound htarget⟩

omit [LinearOrder V] in
/-- The counters of infinitesimals of the edges. -/
lemma Bounding.epsilon {bounds : List (Difference ℕ (ℚ × Bool))}
    (h : Bounding sort index origin constraints edges bounds) :
    ∀ edge ∈ edges, edge.Within (if sort = .int then 0 else 1) := by
  intro edge hedge
  have hlex : edge.lex ∈ bounds.map fun e => (rounded sort e).infinitesimal :=
    h.edges ▸ List.mem_map_of_mem hedge
  obtain ⟨e, -, heq⟩ := List.mem_map.1 hlex
  have hepsilon : edge.epsilon = if (rounded sort e).weight.2 then -1 else 0 :=
    (congrArg (fun d : Difference ℕ (ℚ ×ₗ ℤ) => (ofLex d.weight).2) heq).symm
  rw [ProofDifferenceEdge.Within, hepsilon]
  split
  · next hsort =>
    rw [hsort, rounded]
    simp
  · split <;> simp

/-- The vertices of the constraints: their variables and the origin. -/
def vertexCount (constraints : List (ProofLinearConstraint V)) : ℕ :=
  (constraintVariables constraints).length + 1

lemma vars_subset_constraintVariables :
    constraints.flatMap ProofLinearConstraint.vars ⊆ constraintVariables constraints :=
  fun _ hv => mem_sortedSet.2 hv

/-- An integer is below a number, or at most a number, as the rounded bound says. -/
lemma metStrictly_iff_rounded {e : Difference ℕ (ℚ × Bool)} {f : ℕ → ℤ} :
    e.MetStrictly (fun i => (f i : ℚ)) ↔ Difference.Met
      ⟨e.source, e.target, if e.weight.2 then ⌈e.weight.1⌉ - 1 else ⌊e.weight.1⌋⟩ f := by
  rw [Difference.MetStrictly, Difference.Met]
  split
  · rw [← sub_lt_iff_lt_add', ← Int.cast_sub, ← Int.lt_ceil]
    dsimp only
    omega
  · rw [← sub_le_iff_le_add', ← Int.cast_sub, ← Int.le_floor]
    dsimp only
    omega

/-- What the decider says, once the constraints are translated to edges. -/
lemma differenceConstraintsUnsat_cases {b : Bool}
    (hr : differenceConstraintsUnsat constraints sort = .ok b) :
    (b = true ∧ ∀ x, ¬ HoldAll constraints x) ∨
      ∃ edges bounds, Bounding sort ((constraintVariables constraints).idxOf ·)
          (constraintVariables constraints).length constraints edges bounds ∧
        b = proofDifferencePasses edges (vertexCount constraints) fun _ => (0, 0) := by
  rw [differenceConstraintsUnsat] at hr
  split at hr
  · cases hr
  dsimp only at hr
  split at hr
  · cases hr
  · next hedges =>
    cases hr
    exact .inl ⟨rfl, proofDifferenceEdges_ok hedges⟩
  · next edges hedges =>
    cases hr
    obtain ⟨bounds, hbounds⟩ := proofDifferenceEdges_ok hedges
    exact .inr ⟨edges, bounds, hbounds, rfl⟩

/-- **Integer difference refutations are exact.** -/
lemma differenceConstraintsUnsat_int_iff {b : Bool}
    (hr : differenceConstraintsUnsat constraints .int = .ok b) :
    b = true ↔ ∀ x : V → ℤ, ¬ HoldAll constraints fun v => x v := by
  rcases differenceConstraintsUnsat_cases hr with ⟨rfl, hno⟩ | ⟨edges, bounds, h, rfl⟩
  · exact iff_of_true rfl fun x => hno _
  have hsolutions := h.exists_iff vars_subset_constraintVariables (Int.castAddHom ℚ).range
  have hvars : (∃ x, (∀ v, x v ∈ (Int.castAddHom ℚ).range) ∧ HoldAll constraints x) ↔
      ∃ x : V → ℤ, HoldAll constraints fun v => x v := by
    constructor
    · rintro ⟨x, hx, hholds⟩
      choose y hy using hx
      have hcast : (fun v => (y v : ℚ)) = x := funext hy
      exact ⟨y, hcast ▸ hholds⟩
    · rintro ⟨x, hholds⟩
      exact ⟨_, fun v => ⟨x v, rfl⟩, hholds⟩
  have hvertices : (∃ f, (∀ i, f i ∈ (Int.castAddHom ℚ).range) ∧ ∀ e ∈ bounds, e.MetStrictly f) ↔
      ∃ f, Difference.Solves (bounds.map fun e => (⟨e.source, e.target,
        if e.weight.2 then ⌈e.weight.1⌉ - 1 else ⌊e.weight.1⌋⟩ : Difference ℕ ℤ)) f := by
    constructor
    · rintro ⟨f, hf, hmet⟩
      choose g hg using hf
      refine ⟨g, fun e hm => ?_⟩
      obtain ⟨e, he, rfl⟩ := List.mem_map.1 hm
      refine metStrictly_iff_rounded.1 ?_
      have hcast : (fun i => (g i : ℚ)) = f := funext hg
      rw [hcast]
      exact hmet e he
    · rintro ⟨f, hsolves⟩
      refine ⟨fun i => f i, fun i => ⟨f i, rfl⟩, fun e he => ?_⟩
      exact metStrictly_iff_rounded.2 (hsolves _ (List.mem_map_of_mem he))
  have hepsilon : ∀ edge ∈ edges, edge.Within 0 := h.epsilon
  rw [proofDifferencePasses_iff (n := vertexCount constraints) (Nat.succ_pos _)
    (h.lt vars_subset_constraintVariables) hepsilon
    (by omega), h.edges, ← not_exists, not_iff_not, ← hvars, hsolutions, hvertices,
    Difference.exists_integral_iff (K := ℚ), List.map_map]
  rfl

/-- **Real difference refutations are exact** while the counters of infinitesimals suffice. -/
lemma differenceConstraintsUnsat_real_iff {b : Bool}
    (hr : differenceConstraintsUnsat constraints .real = .ok b)
    (hsize : constraints.length * vertexCount constraints ≤ 2 ^ 63) :
    b = true ↔ ∀ x, ¬ HoldAll constraints x := by
  rcases differenceConstraintsUnsat_cases hr with ⟨rfl, hno⟩ | ⟨edges, bounds, h, rfl⟩
  · exact iff_of_true rfl hno
  have hsolutions := h.exists_iff vars_subset_constraintVariables ⊤
  simp only [AddSubgroup.mem_top, implies_true, true_and] at hsolutions
  have hepsilon : ∀ edge ∈ edges, edge.Within 1 := h.epsilon
  rw [proofDifferencePasses_iff (n := vertexCount constraints) (Nat.succ_pos _)
    (h.lt vars_subset_constraintVariables) hepsilon,
    h.edges, ← not_exists, not_iff_not, hsolutions, Difference.exists_metStrictly_iff]
  · rfl
  · rw [one_mul]
    exact (Nat.mul_le_mul_right _ h.length).trans hsize

end

end Satrap.Smt
