/-
# Factoring a product of clauses

The clauses `f ∨ q`, for all literals `f` of one list and all clauses `q` of another, say that
all of the first or all of the second hold.  A variable that occurs in neither list can stand for
the choice: the two lists of clauses below replace the product.
-/
import Satrap.Logic.Cnf
import Mathlib.Logic.Function.Basic
import Mathlib.Tactic.Common

namespace Satrap.Logic

variable {V : Type*} {m m' : V → Bool} {p : V} {F : List (Literal V)} {Q : List (List (Literal V))}

/-! ### Conservative extensions -/

/-- More clauses, such that every model of the given ones can be changed outside the variables `U`
to a model of all. -/
structure Conservative (U : Set V) (Γ Δ : Set (List (Literal V))) : Prop where
  subset : Γ ⊆ Δ
  extend : ∀ m, Models m Γ → ∃ m', (∀ v ∈ U, m' v = m v) ∧ Models m' Δ

lemma Conservative.refl (U : Set V) (Γ : Set (List (Literal V))) : Conservative U Γ Γ :=
  ⟨subset_rfl, fun m hm => ⟨m, fun _ _ => rfl, hm⟩⟩

lemma Conservative.mono {U U' : Set V} {Γ Δ : Set (List (Literal V))} (h : Conservative U Γ Δ)
    (hU : U' ⊆ U) : Conservative U' Γ Δ where
  subset := h.subset
  extend m hm := by
    obtain ⟨m', hagree, hm'⟩ := h.extend m hm
    exact ⟨m', fun v hv => hagree v (hU hv), hm'⟩

lemma Conservative.trans {U : Set V} {Γ Δ E : Set (List (Literal V))} (h : Conservative U Γ Δ)
    (h' : Conservative U Δ E) : Conservative U Γ E where
  subset := h.subset.trans h'.subset
  extend m hm := by
    obtain ⟨m₁, hagree₁, hm₁⟩ := h.extend m hm
    obtain ⟨m₂, hagree₂, hm₂⟩ := h'.extend m₁ hm₁
    exact ⟨m₂, fun v hv => (hagree₂ v hv).trans (hagree₁ v hv), hm₂⟩

/-! ### The choice between two lists -/

/-- All literals of the first list hold, or all clauses of the second. -/
def Choice (m : V → Bool) (F : List (Literal V)) (Q : List (List (Literal V))) : Prop :=
  (∀ f ∈ F, f.Holds m) ∨ ∀ q ∈ Q, Sat m q

/-- The product of the lists says that there is such a choice. -/
lemma product_iff_choice :
    (∀ f ∈ F, ∀ q ∈ Q, f.Holds m ∨ Sat m q) ↔ Choice m F Q := by
  constructor
  · intro h
    by_cases hF : ∀ f ∈ F, f.Holds m
    · exact .inl hF
    · push Not at hF
      obtain ⟨f, hf, hfm⟩ := hF
      exact .inr fun q hq => (h f hf q hq).resolve_left hfm
  · rintro (h | h) f hf q hq
    · exact .inl (h f hf)
    · exact .inr (h q hq)

/-- The clauses by which the variable stands for the choice: the first list holds where it is
false, the second where it is true. -/
def choiceClauses (p : V) (F : List (Literal V)) (Q : List (List (Literal V))) :
    List (List (Literal V)) :=
  (F.map fun f => [⟨p, true⟩, f]) ++ Q.map fun q => ⟨p, false⟩ :: q

lemma forall_mem_choiceClauses {R : List (Literal V) → Prop} :
    (∀ c ∈ choiceClauses p F Q, R c) ↔
      (∀ f ∈ F, R [⟨p, true⟩, f]) ∧ ∀ q ∈ Q, R (⟨p, false⟩ :: q) := by
  simp [choiceClauses, or_imp, forall_and]

/-- The clauses of the variable make a choice. -/
lemma choice_of_choiceClauses (h : ∀ c ∈ choiceClauses p F Q, Sat m c) : Choice m F Q := by
  obtain ⟨hF, hQ⟩ := forall_mem_choiceClauses.1 h
  cases hp : m p with
  | false => exact .inl fun f hf => by simpa [Literal.Holds, hp] using hF f hf
  | true => exact .inr fun q hq => by simpa [Literal.Holds, hp] using hQ q hq

variable [DecidableEq V]

lemma holds_update_of_ne {b : Bool} {l : Literal V} (h : l.var ≠ p) :
    l.Holds (Function.update m p b) ↔ l.Holds m := by
  rw [Literal.Holds, Function.update_of_ne h, Literal.Holds]

lemma sat_update_of_ne {b : Bool} {c : List (Literal V)} (h : ∀ l ∈ c, l.var ≠ p) :
    Sat (Function.update m p b) c ↔ Sat m c := by
  constructor
  · rintro ⟨l, hl, ht⟩
    exact ⟨l, hl, (holds_update_of_ne (h l hl)).1 ht⟩
  · rintro ⟨l, hl, ht⟩
    exact ⟨l, hl, (holds_update_of_ne (h l hl)).2 ht⟩

/-- A choice gives the variable a value. -/
lemma exists_choiceClauses (h : Choice m F Q) (hF : ∀ f ∈ F, f.var ≠ p)
    (hQ : ∀ q ∈ Q, ∀ l ∈ q, l.var ≠ p) :
    ∃ b, ∀ c ∈ choiceClauses p F Q, Sat (Function.update m p b) c := by
  rcases h with h | h
  · refine ⟨false, forall_mem_choiceClauses.2 ⟨fun f hf => ?_, fun q _ => ?_⟩⟩
    · exact ⟨f, by simp, (holds_update_of_ne (hF f hf)).2 (h f hf)⟩
    · exact ⟨⟨p, false⟩, by simp, Function.update_self ..⟩
  · refine ⟨true, forall_mem_choiceClauses.2 ⟨fun f _ => ?_, fun q hq => ?_⟩⟩
    · exact ⟨⟨p, true⟩, by simp, Function.update_self ..⟩
    · exact ((sat_update_of_ne (hQ q hq)).2 (h q hq)).mono (List.subset_cons_self _ _)

end Satrap.Logic
