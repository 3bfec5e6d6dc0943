/-
# Closure under unit propagation

A consistent set of literals is closed under a clause set when it contains the last literal of
every clause whose other literals it refutes.  A clause is unit refutable when no closed set
refutes it.  This is a property of the clause set alone, and it survives what preprocessing does:
clauses may be replaced by stronger ones, a variable may be resolved away, and a product of
clauses may be replaced by the clauses of a new variable.
-/
import Satrap.Logic.Factor
import Satrap.Logic.Resolution

namespace Satrap.Logic

variable {V : Type*} {C C' : Set (List (Literal V))} {T : Literal V → Prop}
  {c d r : List (Literal V)} {l p : Literal V} {v : V}

/-- The set contains a literal of the clause if it refutes the others. -/
def UnitClosed (T : Literal V → Prop) (c : List (Literal V)) : Prop :=
  ∀ l ∈ c, (∀ q ∈ c, q ≠ l → T (-q)) → T l

/-- No literal is in the set together with its negation. -/
def Consistent (T : Literal V → Prop) : Prop := ∀ l, T l → ¬ T (-l)

/-- A consistent set of literals to which no clause adds another. -/
structure Closed (C : Set (List (Literal V))) (T : Literal V → Prop) : Prop where
  consistent : Consistent T
  unit : ∀ c ∈ C, UnitClosed T c

/-- No closed set refutes the clause. -/
def UnitRefutable (C : Set (List (Literal V))) (c : List (Literal V)) : Prop :=
  ∀ T, Closed C T → ∃ q ∈ c, ¬ T (-q)

lemma Closed.mono (h : Closed C' T) (hs : C ⊆ C') : Closed C T :=
  ⟨h.consistent, fun c hc => h.unit c (hs hc)⟩

/-- A consistent closed set does not refute a clause. -/
lemma UnitClosed.exists_open (h : UnitClosed T c) (hT : Consistent T) (hne : c ≠ []) :
    ∃ q ∈ c, ¬ T (-q) := by
  obtain ⟨p, hp⟩ := List.exists_mem_of_ne_nil c hne
  by_contra hall
  push Not at hall
  exact hT p (h p hp fun q hq _ => hall q hq) (hall p hp)

/-- A stronger clause will do. -/
lemma UnitClosed.weaken (h : UnitClosed T d) (hT : Consistent T) (hne : d ≠ [])
    (hsub : ∀ q ∈ d, q ∈ c ∨ T (-q)) : UnitClosed T c := by
  intro l _ hothers
  have hfalse : ∀ q ∈ d, q ≠ l → T (-q) := fun q hq hql =>
    (hsub q hq).elim (fun hqc => hothers q hqc hql) id
  by_cases hld : l ∈ d
  · exact h l hld hfalse
  · obtain ⟨q, hq, hqT⟩ := h.exists_open hT hne
    exact absurd (hfalse q hq fun he => hld (he ▸ hq)) hqT

/-- A clause that contains all but refuted literals of another one is unit refutable. -/
lemma unitRefutable_of_subset (hd : d ∈ C) (hne : d ≠ [])
    (hsub : ∀ q ∈ d, q ∈ c ∨ [-q] ∈ C) : UnitRefutable C c := by
  intro T hT
  obtain ⟨q, hq, hqT⟩ := (hT.unit d hd).exists_open hT.consistent hne
  refine ⟨q, (hsub q hq).resolve_right fun hunit => hqT ?_, hqT⟩
  exact hT.unit _ hunit (-q) (by simp) (by simp)

/-- Closed sets of the new clauses give closed sets of the old ones. -/
lemma UnitRefutable.transfer (h : UnitRefutable C c)
    (hT : ∀ T, Closed C' T → ∃ T', Closed C T' ∧ ∀ q ∈ c, T (-q) → T' (-q)) :
    UnitRefutable C' c := by
  intro T hclosed
  obtain ⟨T', hclosed', hkeep⟩ := hT T hclosed
  obtain ⟨q, hq, hqT⟩ := h T' hclosed'
  exact ⟨q, hq, fun hn => hqT (hkeep q hq hn)⟩

lemma UnitRefutable.mono (h : UnitRefutable C c) (hs : C ⊆ C') : UnitRefutable C' c :=
  h.transfer fun T hT => ⟨T, hT.mono hs, fun _ _ => id⟩

/-! ### Resolving a variable away -/

/-- What stands for a pair of clauses with opposite pivots, as far as a closed set is concerned:
a resolvent without refuted literals, or nothing where the pair has a literal of the set or two
opposite literals. -/
inductive Resolved (C : Set (List (Literal V))) (T : Literal V → Prop) (v : V)
    (c d : List (Literal V)) : Prop
  | resolvent (r : List (Literal V)) (mem : r ∈ C) (nonempty : r ≠ [])
      (resolves : ResolventOf (fun l => T (-l)) v c d r)
  | satisfied (p : Literal V) (mem : p ∈ c ∨ p ∈ d) (var : p.var ≠ v) (holds : T p)
  | tautology (p : Literal V) (mem : p ∈ c ∨ p ∈ d) (neg : -p ∈ c ∨ -p ∈ d) (var : p.var ≠ v)

namespace Resolved

lemma exists_open (h : Resolved C T v c d) (hT : Closed C T) :
    ∃ q, (q ∈ c ∨ q ∈ d) ∧ q.var ≠ v ∧ ¬ T (-q) := by
  cases h with
  | resolvent r hr hne hres =>
    obtain ⟨q, hq, hqT⟩ := (hT.unit r hr).exists_open hT.consistent hne
    obtain ⟨hmem, hv⟩ := hres.mem q hq
    exact ⟨q, hmem, hv, hqT⟩
  | satisfied p hp hv hpT => exact ⟨p, hp, hv, hT.consistent p hpT⟩
  | tautology p hp hn hv =>
    by_cases hpT : T (-p)
    · exact ⟨-p, hn, hv, hT.consistent (-p) hpT⟩
    · exact ⟨p, hp, hv, hpT⟩

lemma unit (h : Resolved C T v c d) (hT : Closed C T)
    (hothers : ∀ q, q ∈ c ∨ q ∈ d → q.var ≠ v → q ≠ l → T (-q)) : T l := by
  cases h with
  | resolvent r hr hne hres =>
    have hfalse : ∀ q ∈ r, q ≠ l → T (-q) := fun q hq =>
      hothers q (hres.mem q hq).1 (hres.mem q hq).2
    by_cases hlr : l ∈ r
    · exact hT.unit r hr l hlr hfalse
    · obtain ⟨q, hq, hqT⟩ := (hT.unit r hr).exists_open hT.consistent hne
      exact absurd (hfalse q hq fun he => hlr (he ▸ hq)) hqT
  | satisfied p hp hv hpT =>
    by_cases hpl : p = l
    · exact hpl ▸ hpT
    · exact absurd (hothers p hp hv hpl) (hT.consistent p hpT)
  | tautology p hp hn hv =>
    by_cases hpl : p = l
    · have := hothers (-p) hn hv fun he => Literal.neg_ne_self p (he.trans hpl.symm)
      rwa [neg_neg, hpl] at this
    · have hpT := hothers p hp hv hpl
      by_cases hnl : -p = l
      · exact hnl ▸ hpT
      · exact absurd (hothers (-p) hn hv hnl) (hT.consistent (-p) hpT)

end Resolved

/-- The set with those literals of the variable that the clauses imply. -/
def completeAt (C : Set (List (Literal V))) (v : V) (T : Literal V → Prop) (l : Literal V) : Prop :=
  (l.var = v → ∃ c ∈ C, l ∈ c ∧ ∀ q ∈ c, q ≠ l → T (-q)) ∧ (l.var ≠ v → T l)

lemma completeAt_of_ne (h : l.var ≠ v) : completeAt C v T l ↔ T l :=
  ⟨fun hl => hl.2 h, fun hl => ⟨fun hv => absurd hv h, fun _ => hl⟩⟩

lemma completeAt_of_eq (h : l.var = v) :
    completeAt C v T l ↔ ∃ c ∈ C, l ∈ c ∧ ∀ q ∈ c, q ≠ l → T (-q) :=
  ⟨fun hl => hl.1 h, fun hl => ⟨fun _ => hl, fun hv => absurd h hv⟩⟩

/-- **Eliminating a variable**: a set that is closed under the other clauses and the resolvents
extends to the variable. -/
lemma Closed.complete (hT : Closed C' T)
    (hother : ∀ c ∈ C, (∀ l ∈ c, l.var ≠ v) → UnitClosed T c)
    (hpivot : ∀ c ∈ C, ∀ l ∈ c, l.var = v → HasPivot l c)
    (hpair : ∀ c ∈ C, ∀ d ∈ C, ⟨v, true⟩ ∈ c → ⟨v, false⟩ ∈ d → Resolved C' T v c d) :
    Closed C (completeAt C v T) := by
  -- two clauses with opposite pivots, in either order
  have hopposite : ∀ c ∈ C, ∀ d ∈ C, ∀ p ∈ c, p.var = v → -p ∈ d →
      Resolved C' T v c d ∨ Resolved C' T v d c := by
    rintro c hc d hd ⟨w, b⟩ hp rfl hn
    cases b with
    | true => exact .inl (hpair c hc d hd hp hn)
    | false => exact .inr (hpair d hd c hc hn hp)
  -- off the variable the other literals of a clause with a pivot are those that are not it
  have hoff : ∀ c ∈ C, ∀ p ∈ c, p.var = v → ∀ q ∈ c, q.var ≠ v → q ≠ p := by
    rintro c - p - rfl q - hqv rfl
    exact hqv rfl
  refine ⟨fun l hl hn => ?_, fun c hc l hl hothers => ?_⟩
  · by_cases hv : l.var = v
    · obtain ⟨c, hc, hlc, hcl⟩ := (completeAt_of_eq hv).1 hl
      obtain ⟨d, hd, hnd, hdn⟩ := (completeAt_of_eq (by simpa using hv)).1 hn
      have hfalse : ∀ q, q ∈ c ∨ q ∈ d → q.var ≠ v → T (-q) := by
        rintro q (hq | hq) hqv
        · exact hcl q hq (hoff c hc l hlc hv q hq hqv)
        · exact hdn q hq (hoff d hd (-l) hnd hv q hq hqv)
      rcases hopposite c hc d hd l hlc hv hnd with h | h
      · obtain ⟨q, hq, hqv, hqT⟩ := h.exists_open hT
        exact hqT (hfalse q hq hqv)
      · obtain ⟨q, hq, hqv, hqT⟩ := h.exists_open hT
        exact hqT (hfalse q hq.symm hqv)
    · rw [completeAt_of_ne hv] at hl
      rw [completeAt_of_ne (by simpa using hv)] at hn
      exact hT.consistent l hl hn
  · have hfalse : ∀ q ∈ c, q ≠ l → q.var ≠ v → T (-q) := fun q hq hql hqv =>
      (completeAt_of_ne (by simpa using hqv)).1 (hothers q hq hql)
    by_cases hnone : ∀ q ∈ c, q.var ≠ v
    · exact (completeAt_of_ne (hnone l hl)).2
        (hother c hc hnone l hl fun q hq hql => hfalse q hq hql (hnone q hq))
    push Not at hnone
    obtain ⟨p, hp, hpv⟩ := hnone
    have hunique : ∀ q ∈ c, q ≠ p → q.var ≠ v := fun q hq hqp hqv =>
      hqp ((hpivot c hc p hp hpv).unique q hq (hqv.trans hpv.symm))
    by_cases hlp : l = p
    · subst hlp
      exact (completeAt_of_eq hpv).2 ⟨c, hc, hl, fun q hq hql => hfalse q hq hql (hunique q hq hql)⟩
    · refine (completeAt_of_ne (hunique l hl hlp)).2 ?_
      obtain ⟨d, hd, hnd, hdn⟩ :=
        (completeAt_of_eq (by simpa using hpv)).1 (hothers p hp fun he => hlp he.symm)
      have hall : ∀ q, q ∈ c ∨ q ∈ d → q.var ≠ v → q ≠ l → T (-q) := by
        rintro q (hq | hq) hqv hql
        · exact hfalse q hq hql hqv
        · exact hdn q hq (hoff d hd (-p) hnd hpv q hq hqv)
      rcases hopposite c hc d hd p hp hpv hnd with h | h
      · exact h.unit hT hall
      · exact h.unit hT fun q hq => hall q hq.symm

/-! ### Factoring a product -/

/-- **Adding a variable**: the clauses of the new variable do what the product does. -/
lemma Closed.unitClosed_product {F : List (Literal V)} {Q : List (List (Literal V))}
    (hT : Closed C T) (hmem : ∀ c ∈ choiceClauses v F Q, ∃ d ∈ C, d.Perm c)
    {f : Literal V} {q : List (Literal V)} (hf : f ∈ F) (hq : q ∈ Q) (hfq : f ∉ q) :
    UnitClosed T (f :: q) := by
  have hclosed : ∀ c ∈ choiceClauses v F Q, UnitClosed T c := by
    intro c hc
    obtain ⟨d, hd, hp⟩ := hmem c hc
    intro l hl hothers
    exact hT.unit d hd l (hp.mem_iff.2 hl) fun q hq => hothers q (hp.mem_iff.1 hq)
  obtain ⟨hF, hQ⟩ := forall_mem_choiceClauses.1 hclosed
  intro l hl hothers
  rcases List.mem_cons.1 hl with rfl | hlq
  · have hfalse : T ⟨v, false⟩ := hQ q hq ⟨v, false⟩ (by simp) fun p hp hne =>
      hothers p (List.mem_cons_of_mem _ ((List.mem_cons.1 hp).resolve_left hne))
        fun he => hfq (he ▸ (List.mem_cons.1 hp).resolve_left hne)
    refine hF l hf l (by simp) fun p hp hne => ?_
    obtain rfl : p = ⟨v, true⟩ := by simpa [hne] using hp
    exact hfalse
  · have hfT : T (-f) := hothers f (by simp) fun he => hfq (he ▸ hlq)
    have htrue : T ⟨v, true⟩ := hF f hf ⟨v, true⟩ (by simp) fun p hp hne => by
      obtain rfl : p = f := by simpa [hne] using hp
      exact hfT
    refine hQ q hq l (List.mem_cons_of_mem _ hlq) fun p hp hne => ?_
    rcases List.mem_cons.1 hp with rfl | hp
    · exact htrue
    · exact hothers p (List.mem_cons_of_mem _ hp) hne

end Satrap.Logic
