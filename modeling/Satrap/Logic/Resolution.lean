/-
# Eliminating a variable

A clause set in which one variable is resolved away: an assignment that satisfies every
non-trivial resolvent satisfies, off the variable, all clauses of one sign, so that a value of
the variable completes it to a model of the clauses that were removed.
-/
import Satrap.Logic.Cnf
import Mathlib.Logic.Function.Basic
import Mathlib.Tactic.Common

namespace Satrap.Logic

variable {V : Type*} {m m' : V → Bool} {v : V} {b : Bool} {c d r : List (Literal V)}
  {Γ : Set (List (Literal V))}

/-- The literal is the only one of its variable in the clause. -/
structure HasPivot (l : Literal V) (c : List (Literal V)) : Prop where
  mem : l ∈ c
  unique : ∀ q ∈ c, q.var = l.var → q = l

/-- A literal of another variable makes the clause true. -/
def SatOff (m : V → Bool) (v : V) (c : List (Literal V)) : Prop :=
  ∃ l ∈ c, l.var ≠ v ∧ l.Holds m

lemma SatOff.sat (h : SatOff m v c) (hm : ∀ w, w ≠ v → m' w = m w) : Sat m' c := by
  obtain ⟨l, hl, hv, ht⟩ := h
  exact ⟨l, hl, (hm l.var hv).trans ht⟩

lemma HasPivot.sat (h : HasPivot ⟨v, b⟩ c) (hm : m v = b) : Sat m c := ⟨⟨v, b⟩, h.mem, hm⟩

/-- A true clause is true off the pivot where the pivot is false. -/
lemma HasPivot.satOff (h : HasPivot ⟨v, b⟩ c) (hc : Sat m c) (hm : m v ≠ b) : SatOff m v c := by
  obtain ⟨l, hl, ht⟩ := hc
  refine ⟨l, hl, fun hv => hm ?_, ht⟩
  rw [h.unique l hl hv] at ht
  exact ht

/-- The clause is a consequence of two clauses with opposite pivots: what remains of them without
the pivot and without literals that are refuted. -/
structure ResolventOf (refuted : Literal V → Prop) (v : V) (c d r : List (Literal V)) : Prop where
  mem : ∀ l ∈ r, (l ∈ c ∨ l ∈ d) ∧ l.var ≠ v
  covers : ∀ l, l ∈ c ∨ l ∈ d → l.var ≠ v → l ∈ r ∨ refuted l

namespace ResolventOf

variable {refuted : Literal V → Prop}

lemma sat (h : ResolventOf refuted v c d r) (hc : SatOff m v c ∨ SatOff m v d)
    (hr : ∀ l, refuted l → ¬ l.Holds m) : Sat m r := by
  obtain ⟨l, hl, hv, ht⟩ : ∃ l, (l ∈ c ∨ l ∈ d) ∧ l.var ≠ v ∧ l.Holds m := by
    rcases hc with ⟨l, hl, hv, ht⟩ | ⟨l, hl, hv, ht⟩
    · exact ⟨l, .inl hl, hv, ht⟩
    · exact ⟨l, .inr hl, hv, ht⟩
  exact ⟨l, (h.covers l hl hv).resolve_right fun hf => hr l hf ht, ht⟩

lemma satOff (h : ResolventOf refuted v c d r) (hr : Sat m r) : SatOff m v c ∨ SatOff m v d := by
  obtain ⟨l, hl, ht⟩ := hr
  obtain ⟨hcd, hv⟩ := h.mem l hl
  rcases hcd with hc | hd
  · exact .inl ⟨l, hc, hv, ht⟩
  · exact .inr ⟨l, hd, hv, ht⟩

/-- A resolvent of entailed clauses is entailed. -/
lemma entails (h : ResolventOf refuted v c d r) (hc : HasPivot ⟨v, true⟩ c)
    (hd : HasPivot ⟨v, false⟩ d) (hec : Entails Γ c) (hed : Entails Γ d)
    (hr : ∀ l, refuted l → Entails Γ [-l]) : Entails Γ r := by
  intro m hm
  refine h.sat ?_ fun l hl ht => ?_
  · cases hv : m v with
    | true => exact .inr (hd.satOff (hed m hm) (by simp [hv]))
    | false => exact .inl (hc.satOff (hec m hm) (by simp [hv]))
  · have hneg : (-l).Holds m := by simpa using hr l hl m hm
    exact Literal.holds_neg.1 hneg ht

end ResolventOf

end Satrap.Logic
