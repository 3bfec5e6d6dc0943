/-
# Definitional extensions

Some of the variables stand for atoms, the others are defined by clauses.  In a definitional
extension every assignment of the atoms extends to exactly one assignment of the variables in
the clauses.  A fresh variable may come to stand for an atom, or be defined by a gate: clauses
that say when its literal holds in terms of literals whose meaning is known.
-/
import Satrap.Logic.Cnf
import Mathlib.Logic.Function.Basic
import Mathlib.Tactic.Common

namespace Satrap.Logic

variable {V A : Type*} {m m' : V → Bool} {E E' : List (List (Literal V))}
  {gate : Literal V → List (List (Literal V))}
  {atoms atoms' : A → Option (Literal V)} {U U' : Set V} {l q output : Literal V} {v : V} {a : A} {ρ : A → Bool}

/-- Every clause of the list is true under the assignment. -/
def AllSat (m : V → Bool) (E : List (List (Literal V))) : Prop := ∀ c ∈ E, Sat m c

lemma allSat_append : AllSat m (E ++ E') ↔ AllSat m E ∧ AllSat m E' := by
  simp only [AllSat, List.mem_append, or_imp, forall_and]

lemma AllSat.mono (h : AllSat m E') (hsub : E ⊆ E') : AllSat m E := fun c hc => h c (hsub hc)

lemma Literal.Holds.congr (h : m l.var = m' l.var) : l.Holds m ↔ l.Holds m' := by
  rw [Literal.Holds, Literal.Holds, h]

lemma Literal.var_eq_of_holds (h : l.Holds m ↔ l.Holds m') : m l.var = m' l.var := by
  rw [Literal.Holds, Literal.Holds] at h
  revert h
  cases m l.var <;> cases m' l.var <;> cases l.positive <;> simp

/-- Clauses do not see variables that are not in them. -/
lemma AllSat.congr (h : AllSat m E) (hm : ∀ c ∈ E, ∀ l ∈ c, m l.var = m' l.var) : AllSat m' E := by
  intro c hc
  obtain ⟨l, hl, hlm⟩ := h c hc
  exact ⟨l, hl, (Literal.Holds.congr (hm c hc l hl)).1 hlm⟩

/-- The literals of the atoms have the values of the atoms. -/
def Follows (atoms : A → Option (Literal V)) (ρ : A → Bool) (m : V → Bool) : Prop :=
  ∀ a l, atoms a = some l → (l.Holds m ↔ ρ a = true)

/-- Wherever the clauses hold, the literal has the value of a predicate on the atoms. -/
def Stands (atoms : A → Option (Literal V)) (E : List (List (Literal V))) (l : Literal V)
    (value : (A → Bool) → Prop) : Prop :=
  ∀ ρ m, Follows atoms ρ m → AllSat m E → (l.Holds m ↔ value ρ)

lemma Follows.mono (h : Follows atoms' ρ m) (hsub : ∀ a l, atoms a = some l → atoms' a = some l) :
    Follows atoms ρ m := fun a l ha => h a l (hsub a l ha)

lemma Stands.mono {value : (A → Bool) → Prop} (h : Stands atoms E l value)
    (hsub : ∀ a l, atoms a = some l → atoms' a = some l) (hE : E ⊆ E') :
    Stands atoms' E' l value := fun ρ m hf hm => h ρ m (hf.mono hsub) (hm.mono hE)

lemma Stands.neg {value : (A → Bool) → Prop} (h : Stands atoms E l value) :
    Stands atoms E (-l) fun ρ => ¬ value ρ := fun ρ m hf hm => by
  rw [Literal.holds_neg, h ρ m hf hm]

/-! ### Gates -/

/-- The clauses say when the output holds. -/
def Defines (clauses : List (List (Literal V))) (output : Literal V) (value : (V → Bool) → Prop) :
    Prop :=
  ∀ m, AllSat m clauses ↔ (output.Holds m ↔ value m)

/-- The output and all inputs. -/
def andGate (inputs : List (Literal V)) (output : Literal V) : List (List (Literal V)) :=
  (inputs.map fun input => [-output, input]) ++ [output :: inputs.map fun input => -input]

/-- The output and any input. -/
def orGate (inputs : List (Literal V)) (output : Literal V) : List (List (Literal V)) :=
  (inputs.map fun input => [-input, output]) ++ [-output :: inputs]

/-- The output and the difference of two inputs. -/
def xorGate (left right output : Literal V) : List (List (Literal V)) :=
  [[left, right, -output], [-left, -right, -output], [left, -right, output],
    [-left, right, output]]

/-- The output and the equality of two inputs. -/
def iffGate (left right output : Literal V) : List (List (Literal V)) :=
  [[left, right, output], [-left, -right, output], [left, -right, -output],
    [-left, right, -output]]

/-- The output and the choice between two inputs. -/
def iteGate (condition thenInput elseInput output : Literal V) : List (List (Literal V)) :=
  [[-condition, -thenInput, output], [-condition, thenInput, -output],
    [condition, -elseInput, output], [condition, elseInput, -output]]

/-- The clauses made for an output define it by a value of the inputs. -/
structure IsGate (inputs : List (Literal V)) (gate : Literal V → List (List (Literal V)))
    (value : (V → Bool) → Prop) : Prop where
  defines : ∀ output, Defines (gate output) output value
  vars : ∀ output, ∀ c ∈ gate output, ∀ l ∈ c, l.var = output.var ∨ ∃ i ∈ inputs, l.var = i.var
  congr : ∀ m m', (∀ i ∈ inputs, i.Holds m ↔ i.Holds m') → (value m ↔ value m')

lemma sat_map_neg {inputs : List (Literal V)} :
    Sat m (inputs.map fun input => -input) ↔ ¬ ∀ input ∈ inputs, input.Holds m := by
  simp only [Sat, List.mem_map, exists_exists_and_eq_and, Literal.holds_neg, not_forall, exists_prop]

/-- The gate of an output that always holds. -/
lemma unitGate_isGate : IsGate (V := V) [] (fun output => [[output]]) fun _ => True where
  defines output m := by simp [AllSat]
  vars := by simp
  congr := by simp

lemma andGate_isGate (inputs : List (Literal V)) :
    IsGate inputs (andGate inputs) fun m => ∀ input ∈ inputs, input.Holds m where
  defines output m := by
    have hforward : AllSat m (inputs.map fun input => [-output, input]) ↔
        (output.Holds m → ∀ input ∈ inputs, input.Holds m) := by
      simp only [AllSat, List.forall_mem_map, sat_cons, not_sat_nil, or_false, Literal.holds_neg,
        ← imp_iff_not_or]
      exact ⟨fun h ho i hi => h i hi ho, fun h i hi ho => h ho i hi⟩
    have hbackward : AllSat m [output :: inputs.map fun input => -input] ↔
        ((∀ input ∈ inputs, input.Holds m) → output.Holds m) := by
      simp only [AllSat, List.forall_mem_singleton, sat_cons, sat_map_neg]
      tauto
    rw [andGate, allSat_append, hforward, hbackward]
    exact iff_def.symm
  vars output c hc l hl := by
    rcases List.mem_append.1 hc with hc | hc
    · obtain ⟨i, hi, rfl⟩ := List.mem_map.1 hc
      obtain rfl | rfl : l = _ ∨ l = _ := by simpa using hl
      · exact .inl rfl
      · exact .inr ⟨l, hi, rfl⟩
    · obtain rfl := List.mem_singleton.1 hc
      rcases List.mem_cons.1 hl with rfl | hl
      · exact .inl rfl
      · obtain ⟨i, hi, rfl⟩ := List.mem_map.1 hl
        exact .inr ⟨i, hi, rfl⟩
  congr m m' h := forall₂_congr h

lemma orGate_isGate (inputs : List (Literal V)) :
    IsGate inputs (orGate inputs) fun m => ∃ input ∈ inputs, input.Holds m where
  defines output m := by
    have hforward : AllSat m (inputs.map fun input => [-input, output]) ↔
        ((∃ input ∈ inputs, input.Holds m) → output.Holds m) := by
      simp only [AllSat, List.forall_mem_map, sat_cons, not_sat_nil, or_false, Literal.holds_neg,
        ← imp_iff_not_or]
      refine ⟨?_, fun h i hi him => h ⟨i, hi, him⟩⟩
      rintro h ⟨i, hi, him⟩
      exact h i hi him
    have hbackward : AllSat m [-output :: inputs] ↔
        (output.Holds m → ∃ input ∈ inputs, input.Holds m) := by
      simp only [AllSat, List.forall_mem_singleton, sat_cons, Literal.holds_neg, ← imp_iff_not_or]
      exact Iff.rfl
    rw [orGate, allSat_append, hforward, hbackward]
    exact and_comm.trans iff_def.symm
  vars output c hc l hl := by
    rcases List.mem_append.1 hc with hc | hc
    · obtain ⟨i, hi, rfl⟩ := List.mem_map.1 hc
      obtain rfl | rfl : l = _ ∨ l = _ := by simpa using hl
      · exact .inr ⟨i, hi, rfl⟩
      · exact .inl rfl
    · obtain rfl := List.mem_singleton.1 hc
      rcases List.mem_cons.1 hl with rfl | hl
      · exact .inl rfl
      · exact .inr ⟨l, hl, rfl⟩
  congr m m' h := exists_congr fun i => and_congr_right (h i)

section Binary

variable {condition left right : Literal V}

lemma xorGate_isGate : IsGate [left, right] (xorGate left right)
    fun m => ¬ (left.Holds m ↔ right.Holds m) where
  defines output m := by
    simp only [AllSat, xorGate, List.forall_mem_cons, sat_cons, not_sat_nil, Literal.holds_neg,
      List.not_mem_nil, false_implies, implies_true]
    tauto
  vars output := by simp [xorGate]
  congr m m' h := by simp only [h left (by simp), h right (by simp)]

lemma iffGate_isGate : IsGate [left, right] (iffGate left right)
    fun m => (left.Holds m ↔ right.Holds m) where
  defines output m := by
    simp only [AllSat, iffGate, List.forall_mem_cons, sat_cons, not_sat_nil, Literal.holds_neg,
      List.not_mem_nil, false_implies, implies_true]
    tauto
  vars output := by simp [iffGate]
  congr m m' h := by simp only [h left (by simp), h right (by simp)]

lemma iteGate_isGate : IsGate [condition, left, right] (iteGate condition left right) fun m =>
    (condition.Holds m → left.Holds m) ∧ (¬ condition.Holds m → right.Holds m) where
  defines output m := by
    simp only [AllSat, iteGate, List.forall_mem_cons, sat_cons, not_sat_nil, Literal.holds_neg,
      List.not_mem_nil, false_implies, implies_true]
    tauto
  vars output := by simp [iteGate]
  congr m m' h := by
    simp only [h condition (by simp), h left (by simp), h right (by simp)]

end Binary

/-! ### Extensions -/

/-- The clauses extend every assignment of the atoms to exactly one assignment of their
variables, all of them among the variables in use. -/
structure Definitional (atoms : A → Option (Literal V)) (U : Set V)
    (E : List (List (Literal V))) : Prop where
  atom_mem : ∀ a l, atoms a = some l → l.var ∈ U
  injective : ∀ a b l q, atoms a = some l → atoms b = some q → l.var = q.var → a = b
  mem : ∀ c ∈ E, ∀ l ∈ c, l.var ∈ U
  extend : ∀ ρ, ∃ m, Follows atoms ρ m ∧ AllSat m E
  determined : ∀ ρ m m', Follows atoms ρ m → Follows atoms ρ m' → AllSat m E → AllSat m' E →
    ∀ c ∈ E, ∀ l ∈ c, m l.var = m' l.var

namespace Definitional

lemma empty : Definitional (fun _ : A => none) U ([] : List (List (Literal V))) where
  atom_mem := by simp
  injective := by simp
  mem := by simp
  extend ρ := ⟨fun _ => false, by simp [Follows], by simp [AllSat]⟩
  determined := by simp

variable (h : Definitional atoms U E)
include h

lemma mono (hU : U ⊆ U') : Definitional atoms U' E :=
  ⟨fun a l ha => hU (h.atom_mem a l ha), h.injective, fun c hc l hl => hU (h.mem c hc l hl), h.extend,
    h.determined⟩

variable [DecidableEq V]

/-- A fresh variable may have any value. -/
lemma extend_fresh (hv : v ∉ U) (ρ : A → Bool) (b : (V → Bool) → Bool) :
    ∃ m, Follows atoms ρ m ∧ AllSat m E ∧
      Follows atoms ρ (Function.update m v (b m)) ∧ AllSat (Function.update m v (b m)) E := by
  obtain ⟨m, hf, hm⟩ := h.extend ρ
  have hne : ∀ w ∈ U, m w = Function.update m v (b m) w := by
    intro w hw
    rw [Function.update_of_ne]
    rintro rfl
    exact hv hw
  refine ⟨m, hf, hm, fun a l ha => ?_, hm.congr fun c hc l hl => hne _ (h.mem c hc l hl)⟩
  rw [← Literal.Holds.congr (hne _ (h.atom_mem a l ha))]
  exact hf a l ha

/-- A fresh variable comes to stand for an atom. -/
lemma addAtom [DecidableEq A] (hv : v ∉ U) (ha : atoms a = none) :
    Definitional (Function.update atoms a (some ⟨v, true⟩)) (insert v U) E := by
  have hcases : ∀ {b l}, Function.update atoms a (some ⟨v, true⟩) b = some l →
      (b = a ∧ l = ⟨v, true⟩) ∨ (b ≠ a ∧ atoms b = some l) := by
    intro b l hb
    by_cases hba : b = a
    · subst hba
      rw [Function.update_self] at hb
      exact .inl ⟨rfl, (Option.some.inj hb).symm⟩
    · rw [Function.update_of_ne hba] at hb
      exact .inr ⟨hba, hb⟩
  have hold : ∀ {ρ m}, Follows (Function.update atoms a (some ⟨v, true⟩)) ρ m → Follows atoms ρ m := by
    refine fun hf => hf.mono fun b l hb => ?_
    rw [Function.update_of_ne, hb]
    rintro rfl
    rw [ha] at hb
    simp at hb
  refine ⟨fun b l hb => ?_, fun b b' l q hb hb' hlq => ?_,
    fun c hc l hl => .inr (h.mem c hc l hl), fun ρ => ?_,
    fun ρ m m' hf hf' => h.determined ρ m m' (hold hf) (hold hf')⟩
  · obtain ⟨-, rfl⟩ | ⟨-, hb⟩ := hcases hb
    · exact .inl rfl
    · exact .inr (h.atom_mem b l hb)
  · rcases hcases hb with ⟨rfl, rfl⟩ | ⟨-, h₁⟩ <;> rcases hcases hb' with ⟨rfl, rfl⟩ | ⟨-, h₂⟩
    · rfl
    · have hvq : v = q.var := hlq
      exact absurd (h.atom_mem b' q h₂) (hvq ▸ hv)
    · have hlv : l.var = v := hlq
      exact absurd (h.atom_mem b l h₁) (hlv.symm ▸ hv)
    · exact h.injective b b' l q h₁ h₂ hlq
  · obtain ⟨m, -, -, hf, hm⟩ := h.extend_fresh hv ρ fun _ => ρ a
    refine ⟨_, fun b l hb => ?_, hm⟩
    obtain ⟨rfl, rfl⟩ | ⟨-, hb⟩ := hcases hb
    · simp [Literal.Holds]
    · exact hf b l hb

/-- **A gate defines a fresh variable.** -/
lemma define {inputs : List (Literal V)} {value : (V → Bool) → Prop} {f : (A → Bool) → Prop}
    (hv : v ∉ U) (hgate : IsGate inputs gate value)
    (hinputs : ∀ i ∈ inputs, i.var ∈ U ∧ ∃ g, Stands atoms E i g)
    (hf : ∀ ρ m, Follows atoms ρ m → AllSat m E → (value m ↔ f ρ)) :
    Definitional atoms (insert v U) (E ++ gate ⟨v, true⟩) ∧
      Stands atoms (E ++ gate ⟨v, true⟩) ⟨v, true⟩ f := by
  classical
  obtain ⟨hdef, hvars, hvalue⟩ := hgate
  have hdef := hdef ⟨v, true⟩
  have hvars := hvars ⟨v, true⟩
  have hstands : Stands atoms (E ++ gate ⟨v, true⟩) ⟨v, true⟩ f := by
    intro ρ m hfol hm
    obtain ⟨hm, hg⟩ := allSat_append.1 hm
    rw [(hdef m).1 hg, hf ρ m hfol hm]
  refine ⟨⟨fun a l ha => .inr (h.atom_mem a l ha), h.injective, fun c hc l hl => ?_, fun ρ => ?_,
    fun ρ m m' hfol hfol' hm hm' c hc l hl => ?_⟩, hstands⟩
  · rcases List.mem_append.1 hc with hc | hc
    · exact .inr (h.mem c hc l hl)
    · rcases hvars c hc l hl with hv | ⟨i, hi, hli⟩
      · exact .inl hv
      · exact .inr (hli ▸ (hinputs i hi).1)
  · -- the value of the gate is that of its inputs, which the fresh variable is not among
    obtain ⟨m, -, -, hfol, hm⟩ := h.extend_fresh hv ρ fun m => decide (value m)
    refine ⟨_, hfol, allSat_append.2 ⟨hm, (hdef _).2 ?_⟩⟩
    rw [Literal.Holds, Function.update_self, decide_eq_true_iff]
    refine hvalue _ _ fun i hi => Literal.Holds.congr ?_
    rw [Function.update_of_ne]
    rintro hiv
    exact hv (hiv ▸ (hinputs i hi).1)
  · have hE := (allSat_append.1 hm).1
    have hE' := (allSat_append.1 hm').1
    rcases List.mem_append.1 hc with hc | hc
    · exact h.determined ρ m m' hfol hfol' hE hE' c hc l hl
    · rcases hvars c hc l hl with hlv | ⟨i, hi, hli⟩
      · rw [hlv]
        exact Literal.var_eq_of_holds (l := ⟨v, true⟩)
          ((hstands ρ m hfol hm).trans (hstands ρ m' hfol' hm').symm)
      · obtain ⟨-, g, hg⟩ := hinputs i hi
        rw [hli]
        exact Literal.var_eq_of_holds ((hg ρ m hfol hE).trans (hg ρ m' hfol' hE').symm)

end Definitional

end Satrap.Logic
