/-
# Literals, clauses and entailment

The propositional layer shared by every part of the development: signed variables, clauses
as lists of literals, models and entailment, and the two arguments about unit implication
that a clause-learning solver rests on.  Nothing here knows about a particular solver; the
variables come from an arbitrary type.
-/
import Mathlib.Data.Set.Insert
import Mathlib.Algebra.Group.Defs
import Mathlib.Order.WellFounded

namespace Satrap.Logic

variable {V : Type*}

/-- A Boolean variable with a sign. -/
structure Literal (V : Type*) where
  var : V
  positive : Bool
deriving DecidableEq, Repr

namespace Literal

instance : InvolutiveNeg (Literal V) where
  neg l := ⟨l.var, !l.positive⟩
  neg_neg l := by cases l; simp

@[simp] lemma var_neg (l : Literal V) : (-l).var = l.var := rfl

@[simp] lemma positive_neg (l : Literal V) : (-l).positive = !l.positive := rfl

lemma neg_ne_self (l : Literal V) : -l ≠ l := by
  intro h
  have := congrArg Literal.positive h
  simp at this

lemma ne_neg_self (l : Literal V) : l ≠ -l := (neg_ne_self l).symm

lemma ext_iff' {l k : Literal V} : l = k ↔ l.var = k.var ∧ l.positive = k.positive := by
  cases l; cases k; simp

lemma eq_or_eq_neg_of_var_eq {l k : Literal V} (h : l.var = k.var) : l = k ∨ l = -k := by
  cases l with | mk v b =>
  cases k with | mk w c =>
  obtain rfl : v = w := h
  cases b <;> cases c
  · exact .inl rfl
  · exact .inr rfl
  · exact .inr rfl
  · exact .inl rfl

/-- The literal is true under the assignment. -/
def Holds (m : V → Bool) (l : Literal V) : Prop := m l.var = l.positive

instance (m : V → Bool) (l : Literal V) : Decidable (l.Holds m) :=
  inferInstanceAs (Decidable (_ = _))

lemma holds_neg {m : V → Bool} {l : Literal V} : (-l).Holds m ↔ ¬ l.Holds m := by
  simp only [Holds, var_neg, positive_neg]
  cases m l.var <;> cases l.positive <;> simp

end Literal

/-- Some literal of the clause is true under the assignment. -/
def Sat (m : V → Bool) (c : List (Literal V)) : Prop := ∃ l ∈ c, l.Holds m

instance (m : V → Bool) (c : List (Literal V)) : Decidable (Sat m c) :=
  inferInstanceAs (Decidable (∃ l ∈ c, _))

@[simp] lemma not_sat_nil (m : V → Bool) : ¬ Sat m [] := by simp [Sat]

@[simp] lemma sat_cons {m : V → Bool} {l : Literal V} {c : List (Literal V)} :
    Sat m (l :: c) ↔ l.Holds m ∨ Sat m c := by
  simp [Sat]

lemma Sat.mono {m : V → Bool} {c d : List (Literal V)} (h : Sat m c) (hcd : c ⊆ d) :
    Sat m d := by
  obtain ⟨l, hl, hm⟩ := h
  exact ⟨l, hcd hl, hm⟩

/-- Every clause of the set is true under the assignment. -/
def Models (m : V → Bool) (Γ : Set (List (Literal V))) : Prop := ∀ c ∈ Γ, Sat m c

lemma Models.mono {m : V → Bool} {Γ Δ : Set (List (Literal V))} (h : Models m Δ)
    (hs : Γ ⊆ Δ) : Models m Γ := fun c hc => h c (hs hc)

lemma models_insert {m : V → Bool} {Γ : Set (List (Literal V))} {c : List (Literal V)} :
    Models m (insert c Γ) ↔ Sat m c ∧ Models m Γ := by
  simp [Models]

/-- Every model of the set makes the clause true. -/
def Entails (Γ : Set (List (Literal V))) (c : List (Literal V)) : Prop :=
  ∀ m, Models m Γ → Sat m c

/-- The set has no model. -/
def Unsat (Γ : Set (List (Literal V))) : Prop := ∀ m, ¬ Models m Γ

namespace Entails

variable {Γ Δ : Set (List (Literal V))} {c d : List (Literal V)}

lemma of_mem (h : c ∈ Γ) : Entails Γ c := fun _ hm => hm c h

lemma mono (h : Entails Γ c) (hs : Γ ⊆ Δ) : Entails Δ c := fun m hm => h m (hm.mono hs)

lemma weaken (h : Entails Γ c) (hcd : c ⊆ d) : Entails Γ d := fun m hm => (h m hm).mono hcd

lemma unsat_of_nil (h : Entails Γ []) : Unsat Γ := fun m hm => not_sat_nil m (h m hm)

/-- A clause entailed by the set, all of whose literals are refuted by entailed units,
leaves the set without a model. -/
lemma unsat_of_refuted (h : Entails Γ c) (hc : ∀ l ∈ c, Entails Γ [-l]) : Unsat Γ := by
  intro m hm
  obtain ⟨l, hl, hlm⟩ := h m hm
  have hneg : (-l).Holds m := by simpa using hc l hl m hm
  exact Literal.holds_neg.1 hneg hlm

end Entails

lemma entails_of_unsat {Γ : Set (List (Literal V))} (h : Unsat Γ) (c : List (Literal V)) :
    Entails Γ c := fun m hm => absurd hm (h m)

/-- In a clause that is true under an assignment refuting every literal but `l`, the
literal `l` is the one that is true. -/
lemma Sat.holds_of_others {m : V → Bool} {c : List (Literal V)} {l : Literal V}
    (h : Sat m c) (ho : ∀ q ∈ c, q ≠ l → (-q).Holds m) : l.Holds m := by
  obtain ⟨q, hq, hqm⟩ := h
  by_cases hql : q = l
  · exact hql ▸ hqm
  · exact absurd hqm (Literal.holds_neg.1 (ho q hq hql))

/-- **Implication graphs are sound.**  Let `T` be a set of literals, each of which is
either assumed or the one literal of an entailed clause whose other literals are refuted by
members of `T` of smaller rank.  A model of the clauses in which the assumed members hold
makes all of `T` true. -/
theorem holds_of_implied {Γ : Set (List (Literal V))} {m : V → Bool} (hm : Models m Γ)
    (T : Set (Literal V)) (rank : Literal V → ℕ) (assumed : Set (Literal V))
    (hassumed : ∀ l ∈ assumed, l ∈ T → l.Holds m)
    (hT : ∀ l ∈ T, l ∈ assumed ∨ ∃ c, Entails Γ c ∧
      ∀ q ∈ c, q ≠ l → -q ∈ T ∧ rank (-q) < rank l) :
    ∀ l ∈ T, l.Holds m := by
  intro l
  induction hn : rank l using Nat.strong_induction_on generalizing l with
  | _ n ih =>
    intro hl
    rcases hT l hl with h | ⟨c, hc, hothers⟩
    · exact hassumed l h hl
    · refine (hc m hm).holds_of_others fun q hq hql => ?_
      obtain ⟨hmem, hlt⟩ := hothers q hq hql
      exact ih _ (hn ▸ hlt) _ rfl hmem

end Satrap.Logic
