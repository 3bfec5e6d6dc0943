/-
# Operations keep the invariant

Every operation on the term store keeps `TermStore.Ok` and only extends the tables, also when it
fails.  `Keeps` is closed under the ways in which operations are put together, so that for most
of them it follows from their text; the operations that write to a table are looked at one by
one.
-/
import Satrap.Smt.Evaluation

namespace Satrap.Smt

open Logic TermStore TermM

variable {α β : Type} {s s' : TermStore}

/-- The operation keeps the invariant and extends the store, whatever its outcome. -/
class Keeps (x : TermM α) : Prop where
  spec : ∀ s : TermStore, s.Ok → Spec False x s fun _ _ => True

namespace Keeps

/-- An operation with a specification on every store in order. -/
lemma of_spec {x : TermM α} {Q : TermStore → α → TermStore → Prop}
    (h : ∀ s : TermStore, s.Ok → Spec False x s (Q s)) : Keeps x :=
  ⟨fun s hs => (h s hs).weaken fun _ _ _ _ _ => trivial⟩

instance pure (a : α) : Keeps (pure a : TermM α) := ⟨fun _ h => .pure h trivial⟩

instance fail (message : String) : Keeps (TermM.fail message : TermM α) :=
  ⟨fun _ h => .fail h id⟩

instance get : Keeps TermM.get := ⟨fun s h => ⟨.refl s, h, trivial⟩⟩

instance okOr (message : String) (a : Option α) : Keeps (TermM.okOr message a) :=
  ⟨fun _ h => .okOr h False.elim fun _ _ => trivial⟩

instance bind (x : TermM α) (f : α → TermM β) [hx : Keeps x] [hf : ∀ a, Keeps (f a)] :
    Keeps (x >>= f) :=
  ⟨fun s h => .bind (hx.spec s h) fun a s' _ h' _ => (hf a).spec s' h'⟩

lemma of_bind {x : TermM α} {f : α → TermM β} [Keeps x] (hf : ∀ a, Keeps (f a)) :
    Keeps (x >>= f) := .bind x f

/-- A specification for the first operation. -/
lemma bind_spec {x : TermM α} {f : α → TermM β} {Q : TermStore → α → TermStore → Prop}
    (hx : ∀ s : TermStore, s.Ok → Spec False x s (Q s))
    (hf : ∀ s a s', s.Extends s' → s'.Ok → Q s a s' → Spec False (f a) s' fun _ _ => True) :
    Keeps (x >>= f) :=
  ⟨fun s h => .bind (hx s h) fun a s' he h' hq => hf s a s' he h' hq⟩

instance ite (p : Prop) [Decidable p] (x y : TermM α) [hx : Keeps x] [hy : Keeps y] :
    Keeps (if p then x else y) := by
  split
  · exact hx
  · exact hy

instance collect (f : α → TermM β) [hf : ∀ a, Keeps (f a)] (list : List α) :
    Keeps (TermM.collect f list) := by
  induction list with
  | nil => exact .pure []
  | cons a rest ih => exact .bind (f a) _

instance each (f : α → TermM Unit) [hf : ∀ a, Keeps (f a)] (list : List α) :
    Keeps (TermM.each f list) := by
  induction list with
  | nil => exact .pure ()
  | cons a rest ih => exact .bind (f a) _

instance loop (f : β → α → TermM β) [hf : ∀ b a, Keeps (f b a)] (b : β) (list : List α) :
    Keeps (TermM.loop f b list) := by
  induction list generalizing b with
  | nil => exact .pure b
  | cons a rest ih => exact .bind (f b a) _

end Keeps

/-! ### Terms -/

instance (length : ℕ) (message : String) : Keeps (checkIndex length message) := by
  unfold checkIndex
  infer_instance

instance (term : TermId) : Keeps (sortOf term) := by
  unfold sortOf
  infer_instance

instance (term : TermId) : Keeps (sortId term) := by
  unfold sortId
  infer_instance

instance (term : TermId) : Keeps (requireBool term) := by
  unfold requireBool
  infer_instance

instance (term : TermId) : Keeps (bitvecBits term) :=
  .of_spec fun _ h => bitvecBits_spec h False.elim

instance (term : TermId) : Keeps (bitvecWidth term) :=
  .of_spec fun _ h => bitvecWidth_spec h False.elim

instance (sort : SmtSort) : Keeps (sortIdFor sort) :=
  .of_spec fun _ h => sortIdFor_spec h False.elim

instance : Keeps freshSymbol := .of_spec fun _ h => freshSymbol_spec h

instance (term : TermId) : Keeps (mkNot term) :=
  .of_spec fun _ h => mkNot_spec (ρ := fun _ => false) h False.elim

instance (terms : List TermId) : Keeps (mkAnd terms) :=
  .of_spec fun _ h => mkAnd_spec (ρ := fun _ => false) h False.elim

instance (terms : List TermId) : Keeps (mkOr terms) :=
  .of_spec fun _ h => mkOr_spec (ρ := fun _ => false) h False.elim

instance (left right : TermId) : Keeps (mkXor left right) :=
  .of_spec fun _ h => mkXor_spec (ρ := fun _ => false) h False.elim False.elim

instance (left right : TermId) : Keeps (mkIff left right) :=
  .of_spec fun _ h => mkIff_spec (ρ := fun _ => false) h False.elim False.elim

instance (terms : List TermId) : Keeps (implies terms) := by
  unfold implies
  infer_instance

instance (width : ℕ) : Keeps (checkWidth width) := by
  unfold checkWidth
  infer_instance

instance (bits : List TermId) : Keeps (makeBitvec bits) :=
  .of_spec fun _ h => makeBitvec_spec h False.elim

end Satrap.Smt
