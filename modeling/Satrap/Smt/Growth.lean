/-
# Parsing only adds terms

Whatever its outcome, a run of the parser keeps the term store in order and only extends it.
-/
import Satrap.Smt.Session
import Satrap.Smt.Operators

namespace Satrap.Smt

open CommandM TermStore

variable {α β : Type}

/-- The computation keeps the store in order and extends it, whatever its outcome. -/
class Grows (x : ParseM α) : Prop where
  later : ∀ s r s', s.Ok → x s = some (r, s') → Later s s'

namespace Grows

instance ofExcept (result : Except CommandError α) : Grows (ofExcept result) where
  later s r s' hs h := by
    obtain ⟨-, rfl⟩ := Prod.mk.inj (Option.some.inj h)
    exact ⟨hs, hs, .refl s⟩

instance liftM (result : Except CommandError α) : Grows (liftM result : ParseM α) :=
  ofExcept result

instance pure (a : α) : Grows (pure a : ParseM α) := ofExcept (.ok a)

instance fail (e : CommandError) : Grows (fail e : ParseM α) := ofExcept (.error e)

instance reject (message : Text) : Grows (reject message : ParseM α) :=
  ofExcept (.error (.message message))

instance exhausted : Grows (exhausted : ParseM α) where
  later _ _ _ _ h := nomatch h

instance bind (x : ParseM α) (f : α → ParseM β) [hx : Grows x] [hf : ∀ a, Grows (f a)] :
    Grows (x >>= f) where
  later s r s' hs h := by
    dsimp only [Bind.bind] at h
    split at h
    · have hfirst := hx.later _ _ _ hs ‹_›
      exact hfirst.trans ((hf _).later _ _ _ hfirst.after h)
    · obtain ⟨-, rfl⟩ := Prod.mk.inj (Option.some.inj h)
      exact hx.later _ _ _ hs ‹_›
    · exact nomatch h

instance ite (p : Prop) [Decidable p] (x y : ParseM α) [hx : Grows x] [hy : Grows y] :
    Grows (if p then x else y) := by
  split
  · exact hx
  · exact hy

instance lift (x : TermM α) [hx : Keeps x] : Grows (lift x) where
  later s r s' hs h := by
    obtain ⟨hextends, hok, -⟩ := hx.spec s hs
    unfold Smt.lift at h
    split at h <;> rename_i heq <;> rw [heq] at hextends hok <;>
      obtain ⟨-, rfl⟩ := Prod.mk.inj (Option.some.inj h) <;> exact ⟨hs, hok, hextends⟩

instance collect (f : α → ParseM β) [hf : ∀ a, Grows (f a)] (list : List α) :
    Grows (collect f list) := by
  induction list with
  | nil => exact Grows.pure []
  | cons a rest ih => exact Grows.bind _ _

end Grows

lemma growing_operators : OperatorClosed Grows where
  lift _ _ := inferInstance
  reject _ := inferInstance
  bind _ _ _ := inferInstance

/-! ### Sorts -/

instance (T : Tables) (items : List SExpr) : Grows (parseBitvecSort T items) := by
  unfold parseBitvecSort
  refine @Grows.bind _ _ _ _ _ fun _ => @Grows.bind _ _ _ _ _ ?_
  rintro ⟨underscore, constructor, index⟩
  infer_instance

instance (T : Tables) (symbol : Text) : Grows (parseSortSymbol T symbol) := by
  unfold parseSortSymbol
  infer_instance

instance (T : Tables) (index element : SmtSort) : Grows (arraySortOf T index element) := by
  unfold arraySortOf
  infer_instance

instance (T : Tables) (e : SExpr) : Grows (parseSort T e) := by
  induction e using parseSort.induct with
  | case1 a =>
    unfold parseSort
    infer_instance
  | case2 constructor index element hindex helement =>
    unfold parseSort
    infer_instance
  | case3 items h =>
    rw [parseSort.eq_3 T items h]
    infer_instance

/-! ### Terms -/

instance (T : Tables) (symbol : Text) (locals : Locals) : Grows (parseSymbol T symbol locals) := by
  unfold parseSymbol
  infer_instance

instance (literal : List Char) : Keeps (bitvecFromBinary literal) :=
  keeps_of_discard (Operation.keeps 0 (.bitvecFromBinary literal))

instance (literal : List Char) : Keeps (bitvecFromHexadecimal literal) :=
  keeps_of_discard (Operation.keeps 0 (.bitvecFromHexadecimal literal))

instance (value : ℤ) : Keeps (arithmeticInteger value) :=
  keeps_of_discard (Operation.keeps 0 (.arithmeticConstant .int value))

instance (value : ℚ) : Keeps (arithmeticReal value) :=
  keeps_of_discard (Operation.keeps 0 (.arithmeticConstant .real value))

instance (T : Tables) (a : Atom) (locals : Locals) : Grows (parseAtomTerm T a locals) := by
  unfold parseAtomTerm
  split <;> infer_instance

instance (T : Tables) (items : List SExpr) : Grows (parseIndexedConstant T items) := by
  unfold parseIndexedConstant
  refine @Grows.bind _ _ _ _ _ fun _ => @Grows.bind _ _ _ _ _ ?_
  rintro ⟨_, constructor, index⟩
  refine @Grows.bind _ _ _ _ _ fun name => ?_
  split <;> infer_instance

instance (T : Tables) (arguments : List SExpr) (locals : Locals) :
    Grows (parseAbstractValue T arguments locals) := by
  unfold parseAbstractValue
  refine @Grows.bind _ _ _ _ _ ?_
  rintro ⟨value, ascription⟩
  infer_instance

section Nested

variable (parse : SExpr → Locals → ParseM TermId) [hparse : ∀ e locals, Grows (parse e locals)]

instance (T : Tables) (identifier arguments : List SExpr) (locals : Locals) :
    Grows (parseIndexedApplication parse T identifier arguments locals) := by
  have hindexed := growing_operators.applyIndexed
  unfold parseIndexedApplication
  refine @Grows.bind _ _ _ _ _ fun _ => ?_
  split <;> infer_instance

instance (T : Tables) (identifier arguments : List SExpr) (locals : Locals) :
    Grows (parseQualifiedApplication parse T identifier arguments locals) := by
  unfold parseQualifiedApplication
  refine @Grows.bind _ _ _ _ _ fun _ => @Grows.bind _ _ _ _ _ ?_
  rintro ⟨_, name, ascription⟩
  dsimp only
  refine @Grows.ite _ _ _ _ _ _ (@Grows.bind _ _ _ _ _ fun argument =>
    @Grows.bind _ _ _ _ _ fun sort => ?_)
  split <;> infer_instance

instance (locals : Locals) (bindings : List SExpr) (scope : Table TermId) :
    Grows (parseBindings parse locals bindings scope) := by
  induction bindings generalizing scope with
  | nil => exact Grows.pure scope
  | cons binding rest ih =>
    unfold parseBindings
    refine @Grows.bind _ _ _ _ _ fun _ => @Grows.bind _ _ _ _ _ ?_
    rintro ⟨symbol, value⟩
    infer_instance

instance (arguments : List SExpr) (locals : Locals) : Grows (parseLet parse arguments locals) := by
  unfold parseLet
  refine @Grows.bind _ _ _ _ _ ?_
  rintro ⟨bindings, body⟩
  infer_instance

instance (name : Text) (arguments : List TermId) (domain : List SmtSort) :
    Grows (checkDomain name arguments domain) := by
  unfold checkDomain
  infer_instance

instance (name : Text) (definition : Definition) (arguments : List TermId) :
    Grows (instantiate parse name definition arguments) := by
  unfold instantiate
  infer_instance

instance (T : Tables) (name : Text) (arguments : List TermId) :
    Grows (applyFunction parse T name arguments) := by
  unfold applyFunction
  split <;> infer_instance

instance (depth : ℕ) (T : Tables) (name : Text) (arguments : List TermId) :
    Grows (applyWord parse depth T name arguments) := by
  unfold applyWord
  split
  · exact growing_operators.operatorOf ‹_› arguments
  · infer_instance

instance (depth : ℕ) (T : Tables) (head : SExpr) (arguments : List SExpr) (locals : Locals) :
    Grows (parseApplication parse depth T head arguments locals) := by
  unfold parseApplication
  refine @Grows.bind _ _ _ _ _ fun operator => @Grows.ite _ _ _ _ _ inferInstance
    (@Grows.ite _ _ _ _ _ ?_ inferInstance)
  split <;> infer_instance

instance (depth : ℕ) (T : Tables) (e : SExpr) (locals : Locals) :
    Grows (parseTermWith parse depth T e locals) := by
  unfold parseTermWith
  split <;> infer_instance

end Nested

instance (depth : ℕ) (T : Tables) (calls : ℕ) (e : SExpr) (locals : Locals) :
    Grows (parseTerm depth T calls e locals) := by
  induction calls generalizing e locals with
  | zero => exact Grows.exhausted
  | succ calls ih => exact inferInstanceAs (Grows (parseTermWith _ depth T e locals))

end Satrap.Smt
