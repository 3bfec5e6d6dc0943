/-
# Expansions are stable

A successful run of the parser has looked up every name of its expression, and those of the bodies
it has expanded.  Under larger tables, with more nested calls at hand and with other terms for the
same local names the parser therefore does the same, and does not run out of calls.
-/
import Satrap.Smt.Operators

namespace Satrap.Smt

open CommandM

variable {σ α β : Type}

/-! ### Computations that end -/

namespace CommandM

/-- The computation does not run out of calls. -/
class Total (x : CommandM σ α) : Prop where
  ne_none : ∀ s, x s ≠ none

namespace Total

instance pure (a : α) : Total (pure a : CommandM σ α) := ⟨fun _ => nofun⟩

instance ofExcept (result : Except CommandError α) : Total (ofExcept result : CommandM σ α) :=
  ⟨fun _ => nofun⟩

instance liftM (result : Except CommandError α) : Total (liftM result : CommandM σ α) :=
  ⟨fun _ => nofun⟩

instance fail (e : CommandError) : Total (fail e : CommandM σ α) := ⟨fun _ => nofun⟩

instance reject (message : Text) : Total (reject message : CommandM σ α) := ⟨fun _ => nofun⟩

instance bind (x : CommandM σ α) (f : α → CommandM σ β) [hx : Total x] [hf : ∀ a, Total (f a)] :
    Total (x >>= f) where
  ne_none s := by
    dsimp only [Bind.bind]
    split
    · exact (hf _).ne_none _
    · exact nofun
    · exact absurd ‹_› (hx.ne_none s)

instance ite (p : Prop) [Decidable p] (x y : CommandM σ α) [hx : Total x] [hy : Total y] :
    Total (if p then x else y) := by
  split
  · exact hx
  · exact hy

lemma collect {f : α → CommandM σ β} {list : List α} (hf : ∀ a ∈ list, Total (f a)) :
    Total (collect f list) := by
  induction list with
  | nil => exact Total.pure []
  | cons a rest ih =>
    have ha := hf a List.mem_cons_self
    have hrest := ih fun b hb => hf b (List.mem_cons_of_mem _ hb)
    exact Total.bind _ _

end Total

/-- A run of two computations that succeeds. -/
lemma bind_eq_ok {x : CommandM σ α} {f : α → CommandM σ β} {s s' : σ} {b : β}
    (h : (x >>= f) s = some (.ok b, s')) :
    ∃ a s₁, x s = some (.ok a, s₁) ∧ f a s₁ = some (.ok b, s') := by
  dsimp only [Bind.bind] at h
  split at h
  · exact ⟨_, _, ‹_›, h⟩
  · simp at h
  · simp at h

lemma ofExcept_eq_ok {result : Except CommandError α} {s s' : σ} {a : α}
    (h : (ofExcept result : CommandM σ α) s = some (.ok a, s')) : result = .ok a ∧ s' = s := by
  obtain ⟨hr, hs⟩ := Prod.mk.inj (Option.some.inj h)
  exact ⟨hr, hs.symm⟩

lemma pure_eq_ok {s s' : σ} {a b : α} (h : (pure a : CommandM σ α) s = some (.ok b, s')) :
    b = a ∧ s' = s := by
  obtain ⟨hr, hs⟩ := Prod.mk.inj (Option.some.inj h)
  exact ⟨(Except.ok.inj hr).symm, hs.symm⟩

end CommandM

instance (x : TermM α) : Total (lift x) where
  ne_none s := by
    unfold lift
    split <;> exact nofun

/-! ### Tables -/

/-- What the first tables know, the second know as well; logic and option are the same. -/
structure Within (T T' : Tables) : Prop where
  logic : T'.logic = T.logic
  produceProofs : T'.produceProofs = T.produceProofs
  bindings : ∀ name term, T.bindings.lookup name = some term → T'.bindings.lookup name = some term
  functions : ∀ name function, T.functions.lookup name = some function →
    T'.functions.lookup name = some function
  sorts : ∀ name sort, T.sorts.lookup name = some sort → T'.sorts.lookup name = some sort

namespace Within

variable {T T' T₁ T₂ T₃ : Tables}

lemma refl (T : Tables) : Within T T := ⟨rfl, rfl, fun _ _ => id, fun _ _ => id, fun _ _ => id⟩

lemma trans (h : Within T₁ T₂) (h' : Within T₂ T₃) : Within T₁ T₃ where
  logic := h'.logic.trans h.logic
  produceProofs := h'.produceProofs.trans h.produceProofs
  bindings name term hn := h'.bindings name term (h.bindings name term hn)
  functions name function hn := h'.functions name function (h.functions name function hn)
  sorts name sort hn := h'.sorts name sort (h.sorts name sort hn)

end Within

/-- The two lists of scopes have the same local names. -/
def SameNames (locals locals' : Locals) : Prop :=
  ∀ name, (locals.find name).isSome = (locals'.find name).isSome

lemma SameNames.refl (locals : Locals) : SameNames locals locals := fun _ => rfl

lemma SameNames.trans {locals₁ locals₂ locals₃ : Locals} (h : SameNames locals₁ locals₂)
    (h' : SameNames locals₂ locals₃) : SameNames locals₁ locals₃ :=
  fun name => (h name).trans (h' name)

/-! ### Stable families of computations -/

/-- A computation that depends on tables, on the calls at hand and on local names does the same
under larger tables, with more calls and with other terms for the local names, and it ends. -/
def Settles (T : Tables) (locals : Locals) (calls : ℕ) (F : Tables → ℕ → Locals → ParseM α) :
    Prop :=
  ∀ T', Within T T' → ∀ n, calls ≤ n → ∀ locals', SameNames locals locals' →
    F T' n locals' = F T calls locals' ∧ Total (F T calls locals')

namespace Settles

variable {T T' : Tables} {locals : Locals} {calls : ℕ} {F : Tables → ℕ → Locals → ParseM α}
  {G : α → Tables → ℕ → Locals → ParseM β}

lemma mono {calls' : ℕ} (h : Settles T locals calls F) (hc : calls ≤ calls') :
    Settles T locals calls' F := by
  intro T' hT n hn locals' hl
  obtain ⟨heq, htotal⟩ := h T' hT n (hc.trans hn) locals' hl
  have hsame := (h T (.refl T) calls' hc locals' hl).1
  exact ⟨heq.trans hsame.symm, hsame ▸ htotal⟩

/-- Under larger tables the computation is as stable. -/
lemma within (h : Settles T locals calls F) (hT : Within T T') : Settles T' locals calls F := by
  intro T₁ h₁ n hn locals' hl
  obtain ⟨heq, htotal⟩ := h T₁ (hT.trans h₁) n hn locals' hl
  have hsame := (h T' hT calls le_rfl locals' hl).1
  exact ⟨heq.trans hsame.symm, hsame ▸ htotal⟩

lemma congr_locals {locals' : Locals} (h : Settles T locals calls F)
    (hl : SameNames locals locals') : Settles T locals' calls F :=
  fun T' hT n hn locals₁ h₁ => h T' hT n hn locals₁ (hl.trans h₁)

/-- The computation is run with local names of its own. -/
lemma inside {locals' : Locals} (h : Settles T locals' calls F) :
    Settles T locals calls fun T n _ => F T n locals' :=
  fun T' hT n hn _ _ => h T' hT n hn locals' (.refl locals')

lemma const (x : ParseM α) [hx : Total x] : Settles T locals calls fun _ _ _ => x :=
  fun _ _ _ _ _ _ => ⟨rfl, hx⟩

/-- The computation depends on the logic only. -/
lemma logic (f : Option Text → ParseM α) [hf : Total (f T.logic)] :
    Settles T locals calls fun T _ _ => f T.logic :=
  fun _ hT _ _ _ _ => ⟨congrArg f hT.logic, hf⟩

/-- The second computation is only run on results of the first. -/
lemma bind_of (P : α → Prop) (hF : Settles T locals calls F)
    (hP : ∀ locals', SameNames locals locals' → ∀ s a s',
      F T calls locals' s = some (.ok a, s') → P a)
    (hG : ∀ a, P a → Settles T locals calls (G a)) :
    Settles T locals calls fun T n locals => F T n locals >>= fun a => G a T n locals := by
  intro T' hT n hn locals' hl
  obtain ⟨heq, htotal⟩ := hF T' hT n hn locals' hl
  refine ⟨?_, ⟨fun s => ?_⟩⟩
  · funext s
    dsimp only [Bind.bind]
    rw [heq]
    cases hr : F T calls locals' s with
    | none => rfl
    | some result =>
      obtain ⟨_ | a, s₁⟩ := result
      · rfl
      · exact congrFun ((hG a (hP locals' hl s a s₁ hr)) T' hT n hn locals' hl).1 s₁
  · dsimp only [Bind.bind]
    cases hr : F T calls locals' s with
    | none => exact absurd hr (htotal.ne_none s)
    | some result =>
      obtain ⟨_ | a, s₁⟩ := result
      · exact nofun
      · exact ((hG a (hP locals' hl s a s₁ hr)) T (.refl T) calls le_rfl locals' hl).2.ne_none s₁

lemma bind (hF : Settles T locals calls F) (hG : ∀ a, Settles T locals calls (G a)) :
    Settles T locals calls fun T n locals => F T n locals >>= fun a => G a T n locals :=
  bind_of (fun _ => True) hF (fun _ _ _ _ _ _ => trivial) fun a _ => hG a

/-- A check comes first. -/
lemma check {result : Except CommandError α} (hG : ∀ a, result = .ok a →
    Settles T locals calls (G a)) : Settles T locals calls fun T n locals =>
      (liftM result : ParseM α) >>= fun a => G a T n locals := by
  cases result with
  | error e => exact fun _ _ _ _ _ _ => ⟨rfl, inferInstanceAs (Total (fail e))⟩
  | ok a => exact hG a rfl

/-- A check that has passed. -/
lemma ok_bind {result : Except CommandError α} {a : α} (hr : result = .ok a)
    (hG : Settles T locals calls (G a)) :
    Settles T locals calls fun T n locals =>
      (liftM result : ParseM α) >>= fun a => G a T n locals :=
  .check fun _ ha => Except.ok.inj (hr.symm.trans ha) ▸ hG

/-- The computation depends on the tables only. -/
lemma of_tables {f : Tables → ParseM α} (h : ∀ T', Within T T' → f T' = f T)
    [ht : Total (f T)] : Settles T locals calls fun T _ _ => f T :=
  fun T' hT _ _ _ _ => ⟨h T' hT, ht⟩

end Settles

/-! ### Sorts -/

variable {T T' : Tables} {s s' : TermStore}

lemma parseSortSymbol_total (T : Tables) (symbol : Text) : Total (parseSortSymbol T symbol) := by
  unfold parseSortSymbol
  infer_instance

lemma parseBitvecSort_total (T : Tables) (items : List SExpr) :
    Total (parseBitvecSort T items) := by
  unfold parseBitvecSort
  refine @Total.bind _ _ _ _ _ _ fun _ => @Total.bind _ _ _ _ _ _ ?_
  rintro ⟨underscore, constructor, index⟩
  infer_instance

lemma parseSort_total (T : Tables) (e : SExpr) : Total (parseSort T e) := by
  have hs := parseSortSymbol_total T
  have hb := parseBitvecSort_total T
  have ha : ∀ index element, Total (arraySortOf T index element) := by
    unfold arraySortOf
    infer_instance
  induction e using parseSort.induct with
  | case1 a =>
    unfold parseSort
    infer_instance
  | case2 constructor index element hindex helement =>
    unfold parseSort
    infer_instance
  | case3 items h =>
    rw [parseSort.eq_3 T items h]
    infer_instance

lemma demand_eq_ok {message : Text} {a : Option α} {b : α} (h : demand message a = .ok b) :
    a = some b := by
  cases a with
  | none => exact nomatch h
  | some a => exact congrArg some (Except.ok.inj h)

lemma parseSortSymbol_within {symbol : Text} {sort : SmtSort} (hT : Within T T')
    (h : parseSortSymbol T symbol s = some (.ok sort, s')) :
    parseSortSymbol T' symbol = parseSortSymbol T symbol := by
  unfold parseSortSymbol at h ⊢
  split_ifs at h ⊢ with hbool hint hreal
  · rfl
  · rw [hT.logic]
  · rw [hT.logic]
  · have hsort := demand_eq_ok (ofExcept_eq_ok h).1
    rw [hT.sorts symbol sort hsort, hsort]

lemma parseBitvecSort_within {items : List SExpr} (hT : Within T T') :
    parseBitvecSort T' items = parseBitvecSort T items := by
  unfold parseBitvecSort
  rw [hT.logic]

/-- A sort that was read under some tables is the same under larger ones. -/
lemma parseSort_within {e : SExpr} {sort : SmtSort} (hT : Within T T')
    (h : parseSort T e s = some (.ok sort, s')) : parseSort T' e = parseSort T e := by
  have hb : ∀ items, parseBitvecSort T' items = parseBitvecSort T items :=
    fun _ => parseBitvecSort_within hT
  induction e using parseSort.induct generalizing s s' sort with
  | case1 a =>
    unfold parseSort at h ⊢
    obtain ⟨_, _, _, h⟩ := bind_eq_ok h
    obtain ⟨symbol, s₁, hsymbol, h⟩ := bind_eq_ok h
    rw [demand_eq_ok (ofExcept_eq_ok hsymbol).1, hT.logic]
    refine congrArg _ (funext fun _ => ?_)
    exact parseSortSymbol_within hT h
  | case2 constructor index element hindex helement =>
    unfold parseSort at h ⊢
    obtain ⟨_, _, _, h⟩ := bind_eq_ok h
    split_ifs at h ⊢ with harray
    · obtain ⟨_, _, _, h⟩ := bind_eq_ok h
      obtain ⟨_, _, hi, h⟩ := bind_eq_ok h
      obtain ⟨_, _, he, h⟩ := bind_eq_ok h
      simp only [hT.logic, hindex hi, helement he, arraySortOf, hT.produceProofs]
    · simp only [hT.logic, hb]
  | case3 items hitems =>
    rw [parseSort.eq_3 T items hitems, parseSort.eq_3 T' items hitems]
    simp only [hT.logic, hb]

/-! ### Terms -/

lemma totalOperators : OperatorClosed Total where
  lift _ _ := inferInstance
  reject _ := inferInstance
  bind _ _ _ := inferInstance

variable {depth calls : ℕ} {locals : Locals}

lemma parseSymbol_settles {symbol : Text} {term : TermId}
    (h : parseSymbol T symbol locals s = some (.ok term, s')) :
    Settles T locals calls fun T _ locals => parseSymbol T symbol locals := by
  intro T' hT n hn locals' hl
  unfold parseSymbol at h ⊢
  refine ⟨?_, inferInstance⟩
  split_ifs at h ⊢
  · rfl
  · rfl
  · rfl
  · dsimp only
    have hfound := demand_eq_ok (ofExcept_eq_ok h).1
    have hname := hl symbol
    cases hlocal : locals'.find symbol with
    | some value => rfl
    | none =>
      rw [hlocal, Option.isSome_none, Option.isSome_eq_false_iff, Option.isNone_iff_eq_none] at hname
      rw [hname, Option.none_or] at hfound
      rw [Option.none_or, Option.none_or, hfound, hT.bindings symbol term hfound]

lemma parseAtomTerm_settles {a : Atom} {term : TermId}
    (h : parseAtomTerm T a locals s = some (.ok term, s')) :
    Settles T locals calls fun T _ locals => parseAtomTerm T a locals := by
  obtain ⟨text, kind⟩ := a
  cases kind with
  | binary =>
    exact .logic fun logic => do
      requireBitvectors logic
      lift (bitvecFromBinary (charsOf text))
  | hexadecimal =>
    exact .logic fun logic => do
      requireBitvectors logic
      lift (bitvecFromHexadecimal (charsOf text))
  | numeral =>
    exact .logic fun logic => do
      requireArithmeticLogic logic
      let value ← demand (bytesOf "invalid integer numeral") (naturalOf text)
      lift (arithmeticInteger value)
  | decimal =>
    exact .logic fun logic => do
      requireArithmeticLogic logic
      let value ← demand (bytesOf "invalid real decimal") (rationalFromDecimal text)
      lift (arithmeticReal value)
  | symbol => exact parseSymbol_settles h
  | _ => exact .const (reject (bytesOf "term application must be a list"))

lemma parseAtomTerm_total (T : Tables) (a : Atom) (locals : Locals) :
    Total (parseAtomTerm T a locals) := by
  have hsymbol : Total (parseSymbol T a.text locals) := by
    unfold parseSymbol
    infer_instance
  unfold parseAtomTerm
  split <;> infer_instance

lemma parseIndexedConstant_total (T : Tables) (items : List SExpr) :
    Total (parseIndexedConstant T items) := by
  unfold parseIndexedConstant
  refine @Total.bind _ _ _ _ _ _ fun _ => @Total.bind _ _ _ _ _ _ ?_
  rintro ⟨_, constructor, index⟩
  refine @Total.bind _ _ _ _ _ _ fun name => ?_
  split <;> infer_instance

lemma parseIndexedConstant_settles (items : List SExpr) :
    Settles T locals calls fun T _ _ => parseIndexedConstant T items := by
  have htotal := parseIndexedConstant_total T items
  refine .of_tables fun T' hT => ?_
  unfold parseIndexedConstant
  rw [hT.logic]

lemma parseAbstractValue_settles {arguments : List SExpr} {term : TermId}
    (h : parseAbstractValue T arguments locals s = some (.ok term, s')) :
    Settles T locals calls fun T _ locals => parseAbstractValue T arguments locals := by
  unfold parseAbstractValue at h ⊢
  obtain ⟨⟨value, ascription⟩, _, hpair, h⟩ := bind_eq_ok h
  obtain ⟨name, _, hname, h⟩ := bind_eq_ok h
  refine .ok_bind (ofExcept_eq_ok hpair).1 (.ok_bind (ofExcept_eq_ok hname).1 ?_)
  split_ifs at h ⊢ with hat
  · exact .const _
  obtain ⟨found, _, hfound, h⟩ := bind_eq_ok h
  obtain ⟨sort, _, hsort, h⟩ := bind_eq_ok h
  have htotal := parseSort_total T ascription
  refine .bind (fun _ _ _ _ _ _ => ⟨rfl, inferInstance⟩) fun term => ?_
  exact .bind (.of_tables fun T' hT => parseSort_within hT hsort) fun sort => .const _

section Nested

variable {parse : SExpr → Locals → ParseM TermId} {F : α → Tables → ℕ → Locals → ParseM β}

/-- The family of computations settles with enough calls. -/
def Settling (T : Tables) (locals : Locals) (F : Tables → ℕ → Locals → ParseM α) : Prop :=
  ∃ calls, Settles T locals calls F

lemma Settling.bind {F : Tables → ℕ → Locals → ParseM α} {G : α → Tables → ℕ → Locals → ParseM β}
    (hF : Settling T locals F) (hG : ∃ calls, ∀ a, Settles T locals calls (G a)) :
    Settling T locals fun T n locals => F T n locals >>= fun a => G a T n locals := by
  obtain ⟨m, hF⟩ := hF
  obtain ⟨n, hG⟩ := hG
  exact ⟨max m n, (hF.mono (le_max_left m n)).bind fun a => (hG a).mono (le_max_right m n)⟩

lemma exists_settles_all {list : List α} (h : ∀ a ∈ list, Settling T locals (F a)) :
    ∃ calls, ∀ a ∈ list, Settles T locals calls (F a) := by
  induction list with
  | nil => exact ⟨0, nofun⟩
  | cons a rest ih =>
    obtain ⟨m, ha⟩ := h a List.mem_cons_self
    obtain ⟨n, hrest⟩ := ih fun b hb => h b (List.mem_cons_of_mem _ hb)
    refine ⟨max m n, List.forall_mem_cons.2 ⟨ha.mono (le_max_left m n), fun b hb => ?_⟩⟩
    exact (hrest b hb).mono (le_max_right m n)

lemma Settles.collect {list : List α} (h : ∀ a ∈ list, Settles T locals calls (F a)) :
    Settles T locals calls fun T n locals => collect (fun a => F a T n locals) list := by
  induction list with
  | nil => exact .const (pure [])
  | cons a rest ih =>
    obtain ⟨ha, hrest⟩ := List.forall_mem_cons.1 h
    exact ha.bind fun b => (ih hrest).bind fun bs => .const (pure (b :: bs))

lemma collect_eq_ok {f : α → CommandM σ β} {list : List α} {bs : List β} {s s' : σ}
    (h : collect f list s = some (.ok bs, s')) :
    ∀ a ∈ list, ∃ s₁ b s₂, f a s₁ = some (.ok b, s₂) := by
  induction list generalizing bs s s' with
  | nil => exact nofun
  | cons a rest ih =>
    obtain ⟨b, s₁, ha, h⟩ := bind_eq_ok h
    obtain ⟨bs, s₂, hrest, -⟩ := bind_eq_ok h
    exact List.forall_mem_cons.2 ⟨⟨s, b, s₁, ha⟩, ih hrest⟩

/-- The expression is understood: with enough calls at hand it means the same under larger tables,
with any terms for the local names. -/
def Understood (depth : ℕ) (T : Tables) (locals : Locals) (e : SExpr) : Prop :=
  Settling T locals fun T n locals => parseTerm depth T n e locals

/-- What the parser of nested terms reads is understood. -/
def Understands (depth : ℕ) (T : Tables) (parse : SExpr → Locals → ParseM TermId) : Prop :=
  ∀ e locals s term s', parse e locals s = some (.ok term, s') → Understood depth T locals e

/-- Applications whose arguments are understood. -/
lemma arguments_settle {arguments : List SExpr} {terms : List TermId}
    (hparse : Understands depth T parse)
    (h : collect (fun e => parse e locals) arguments s = some (.ok terms, s')) :
    Settling T locals fun T n locals =>
      collect (fun e => parseTerm depth T n e locals) arguments := by
  obtain ⟨m, hall⟩ := exists_settles_all (F := fun e T n locals => parseTerm depth T n e locals)
    fun e he => by
      obtain ⟨s₁, term, s₂, hterm⟩ := collect_eq_ok h e he
      exact hparse e locals s₁ term s₂ hterm
  exact ⟨m, .collect hall⟩

lemma parseIndexedApplication_settles {identifier arguments : List SExpr} {term : TermId}
    (hparse : Understands depth T parse)
    (h : parseIndexedApplication parse T identifier arguments locals s = some (.ok term, s')) :
    Settling T locals fun T n locals =>
      parseIndexedApplication (parseTerm depth T n) T identifier arguments locals := by
  unfold parseIndexedApplication at h ⊢
  obtain ⟨_, _, _, h⟩ := bind_eq_ok h
  refine .bind ⟨0, .logic fun logic => liftM (requireBitvectors logic)⟩ ?_
  split at h
  · rename_i head name index indices _
    obtain ⟨argument, _, hargument, h⟩ := bind_eq_ok h
    obtain ⟨operator, _, hoperator, h⟩ := bind_eq_ok h
    obtain ⟨term, _, hterm, h⟩ := bind_eq_ok h
    obtain ⟨m, hm⟩ := hparse _ _ _ _ _ hterm
    refine ⟨m, fun _ => .ok_bind (ofExcept_eq_ok hargument).1
      (.ok_bind (ofExcept_eq_ok hoperator).1 (hm.bind fun term => ?_))⟩
    have htotal := totalOperators.applyIndexed operator (index :: indices) term
    exact .const _
  · exact nomatch h

lemma parseQualifiedApplication_settles {identifier arguments : List SExpr} {term : TermId}
    (hparse : Understands depth T parse)
    (h : parseQualifiedApplication parse T identifier arguments locals s = some (.ok term, s')) :
    Settling T locals fun T n locals =>
      parseQualifiedApplication (parseTerm depth T n) T identifier arguments locals := by
  unfold parseQualifiedApplication at h ⊢
  obtain ⟨_, _, _, h⟩ := bind_eq_ok h
  obtain ⟨⟨_, name, ascription⟩, _, hidentifier, h⟩ := bind_eq_ok h
  refine .bind ⟨0, .logic fun logic => liftM (requireArrays logic)⟩ ?_
  dsimp only at h
  split_ifs at h with hconst
  · exact nomatch h
  obtain ⟨argument, _, hargument, h⟩ := bind_eq_ok h
  obtain ⟨sort, _, hsort, h⟩ := bind_eq_ok h
  have hunderstood : Understood depth T locals argument := by
    cases sort with
    | array sort =>
      obtain ⟨value, _, hvalue, -⟩ := bind_eq_ok h
      exact hparse _ _ _ _ _ hvalue
    | _ => exact nomatch h
  obtain ⟨m, hm⟩ := hunderstood
  have htotal := parseSort_total T ascription
  refine ⟨m, fun _ => .ok_bind (ofExcept_eq_ok hidentifier).1 ?_⟩
  simp only [if_neg hconst]
  refine .ok_bind (ofExcept_eq_ok hargument).1
    (.bind (.of_tables fun T' hT => parseSort_within hT hsort) fun sort => ?_)
  cases sort with
  | array sort => exact hm.bind fun value => .const _
  | _ => exact .const (reject _)

/-- The names of a scope. -/
lemma sameNames_cons {scope scope' : Table TermId} {locals locals' : Locals}
    (hscope : ∀ name, name ∈ scope ↔ name ∈ scope') (hl : SameNames locals locals') :
    SameNames (scope :: locals) (scope' :: locals') := by
  intro name
  have hname := hscope name
  rw [← AList.lookup_isSome, ← AList.lookup_isSome] at hname
  have h := hl name
  unfold Locals.find at h ⊢
  rw [List.findSome?_cons, List.findSome?_cons]
  cases hfirst : scope.lookup name <;> cases hsecond : scope'.lookup name <;>
    simp_all

/-- The names that the bindings of a `let` bind. -/
def bindingNames : List SExpr → List Text
  | [] => []
  | .list (symbol :: _) :: rest => symbol.symbol.toList ++ bindingNames rest
  | _ :: rest => bindingNames rest

lemma expectTwo_eq_ok {items : List SExpr} {name : String} {first second : SExpr}
    (h : expectTwo items name = .ok (first, second)) : items = [first, second] := by
  unfold expectTwo at h
  split at h
  · obtain ⟨rfl, rfl⟩ := Prod.mk.inj (Except.ok.inj h)
    rfl
  · exact nomatch h

lemma expectOne_eq_ok {items : List SExpr} {name : Text} {item : SExpr}
    (h : expectOne items name = .ok item) : items = [item] := by
  unfold expectOne at h
  split at h
  · rw [Except.ok.inj h]
  · exact nomatch h

lemma expectList_eq_ok {e : SExpr} {role : String} {items : List SExpr}
    (h : expectList e role = .ok items) : e = .list items := by
  cases e with
  | atom a => exact nomatch h
  | list items' => exact congrArg SExpr.list (Except.ok.inj h)

lemma mem_parseBindings {bindings : List SExpr} {scope scope' : Table TermId}
    (h : parseBindings parse locals bindings scope s = some (.ok scope', s')) (name : Text) :
    name ∈ scope' ↔ name ∈ scope ∨ name ∈ bindingNames bindings := by
  induction bindings generalizing scope s with
  | nil =>
    obtain ⟨rfl, -⟩ := pure_eq_ok h
    simp [bindingNames]
  | cons binding rest ih =>
    obtain ⟨pair, _, hpair, h⟩ := bind_eq_ok h
    obtain ⟨⟨symbol, value⟩, _, htwo, h⟩ := bind_eq_ok h
    obtain ⟨bound, _, hbound, h⟩ := bind_eq_ok h
    split_ifs at h with hold
    · exact nomatch h
    obtain ⟨term, _, _, h⟩ := bind_eq_ok h
    rw [expectList_eq_ok (ofExcept_eq_ok hpair).1, expectTwo_eq_ok (ofExcept_eq_ok htwo).1]
    rw [ih h, AList.mem_insert, bindingNames, demand_eq_ok (ofExcept_eq_ok hbound).1]
    simp only [Option.toList_some, List.singleton_append, List.mem_cons]
    tauto

lemma parseBindings_settle {bindings : List SExpr} {scope scope₁ : Table TermId}
    (hparse : Understands depth T parse)
    (h : parseBindings parse locals bindings scope s = some (.ok scope₁, s')) :
    ∃ calls, ∀ scope', (∀ name, name ∈ scope' ↔ name ∈ scope) →
      Settles T locals calls fun T n locals =>
        parseBindings (parseTerm depth T n) locals bindings scope' := by
  induction bindings generalizing scope s with
  | nil => exact ⟨0, fun scope' _ => .const (pure scope')⟩
  | cons binding rest ih =>
    obtain ⟨pair, _, hpair, h⟩ := bind_eq_ok h
    obtain ⟨⟨symbol, value⟩, _, htwo, h⟩ := bind_eq_ok h
    obtain ⟨bound, _, hbound, h⟩ := bind_eq_ok h
    split_ifs at h with hold
    · exact nomatch h
    obtain ⟨term, _, hterm, h⟩ := bind_eq_ok h
    obtain ⟨m, hm⟩ := hparse _ _ _ _ _ hterm
    obtain ⟨n, hn⟩ := ih h
    refine ⟨max m n, fun scope' hscope => ?_⟩
    have hnew : ¬ (scope'.lookup bound).isSome := by
      rw [AList.lookup_isSome, hscope, ← AList.lookup_isSome]
      exact hold
    refine .ok_bind (ofExcept_eq_ok hpair).1 (.ok_bind (ofExcept_eq_ok htwo).1
      (.ok_bind (ofExcept_eq_ok hbound).1 ?_))
    simp only [if_neg hnew]
    refine (hm.mono (le_max_left m n)).bind fun term' =>
      (hn _ fun name => ?_).mono (le_max_right m n)
    rw [AList.mem_insert, AList.mem_insert, hscope]

lemma parseLet_settles {arguments : List SExpr} {term : TermId}
    (hparse : Understands depth T parse)
    (h : parseLet parse arguments locals s = some (.ok term, s')) :
    Settling T locals fun T n locals => parseLet (parseTerm depth T n) arguments locals := by
  unfold parseLet at h ⊢
  obtain ⟨⟨bindings, body⟩, _, harguments, h⟩ := bind_eq_ok h
  obtain ⟨items, _, hitems, h⟩ := bind_eq_ok h
  obtain ⟨scope, _, hscope, h⟩ := bind_eq_ok h
  obtain ⟨m, hm⟩ := parseBindings_settle hparse hscope
  obtain ⟨n, hn⟩ := hparse _ _ _ _ _ h
  refine ⟨max m n, .ok_bind (ofExcept_eq_ok harguments).1 (.ok_bind (ofExcept_eq_ok hitems).1 ?_)⟩
  refine .bind_of (fun scope' => ∀ name, name ∈ scope' ↔ name ∈ scope)
    ((hm ∅ fun _ => Iff.rfl).mono (le_max_left m n)) (fun _ _ _ _ _ hrun name => ?_)
    fun scope' hnames => ?_
  · rw [mem_parseBindings hrun, mem_parseBindings hscope]
  · intro T' hT k hk locals' hl
    exact (hn.mono (le_max_right m n)) T' hT k hk (scope' :: locals')
      (sameNames_cons (fun name => (hnames name).symm) hl)

lemma mem_parameterScope {parameters : List Text} {arguments : List TermId} (scope : Table TermId)
    (hlength : arguments.length = parameters.length) (name : Text) :
    name ∈ (parameters.zip arguments).foldl (fun scope pair => scope.insert pair.1 pair.2) scope ↔
      name ∈ scope ∨ name ∈ parameters := by
  induction parameters generalizing scope arguments with
  | nil => simp
  | cons parameter rest ih =>
    cases arguments with
    | nil => exact nomatch hlength
    | cons argument others =>
      rw [List.zip_cons_cons, List.foldl_cons, ih _ (Nat.succ.inj hlength), AList.mem_insert,
        List.mem_cons]
      tauto

/-- Two scopes of the same parameters have the same names. -/
lemma sameNames_parameterScope {parameters : List Text} {arguments arguments' : List TermId}
    (h : arguments.length = parameters.length) (h' : arguments'.length = parameters.length) :
    SameNames [parameterScope parameters arguments] [parameterScope parameters arguments'] := by
  refine sameNames_cons (fun name => ?_) (.refl [])
  rw [parameterScope, parameterScope, mem_parameterScope ∅ h, mem_parameterScope ∅ h']

instance (name : Text) (arguments : List TermId) (domain : List SmtSort) :
    Total (checkDomain name arguments domain) := by
  unfold checkDomain
  have hpair : ∀ pair ∈ arguments.zip domain, Total (do
      if (← lift (sortOf pair.1)) ≠ pair.2 then
        reject (named "argument to `" name "` does not have its declared sort")
      else pure () : ParseM Unit) := fun _ _ => inferInstance
  have h := Total.collect hpair
  exact Total.bind _ _

/-- The body is understood under the tables, with any arguments for the parameters. -/
def Definition.UnderstoodAt (depth : ℕ) (T : Tables) (calls : ℕ) (definition : Definition) :
    Prop :=
  ∀ arguments : List TermId, arguments.length = definition.parameters.length →
    Settles T [parameterScope definition.parameters arguments] calls fun T n locals =>
      parseTerm depth T n definition.body locals

/-- The body is understood under the tables. -/
def Definition.Understood (depth : ℕ) (T : Tables) (definition : Definition) : Prop :=
  ∃ calls, definition.UnderstoodAt depth T calls

lemma Definition.Understood.of_instance {definition : Definition} {arguments : List TermId}
    (h : Smt.Understood depth T [parameterScope definition.parameters arguments] definition.body)
    (hlength : arguments.length = definition.parameters.length) :
    definition.Understood depth T := by
  obtain ⟨calls, h⟩ := h
  exact ⟨calls, fun arguments' hlength' =>
    h.congr_locals (sameNames_parameterScope hlength hlength')⟩

lemma Definition.UnderstoodAt.within {definition : Definition}
    (h : definition.UnderstoodAt depth T calls) (hT : Within T T') :
    definition.UnderstoodAt depth T' calls :=
  fun arguments hlength => (h arguments hlength).within hT

/-- An application of a function whose body is understood. -/
lemma instantiate_settles {definition : Definition} (h : definition.UnderstoodAt depth T calls)
    (name : Text) (arguments : List TermId) :
    Settles T locals calls fun T n _ =>
      instantiate (parseTerm depth T n) name definition arguments := by
  unfold instantiate
  split_ifs with hlength
  · exact .const _
  · rw [not_not] at hlength
    refine .bind (.const _) fun _ => .bind (.inside (h arguments hlength)) fun _ => .const _

lemma Definition.Understood.of_instantiate {definition : Definition} {name : Text}
    {arguments : List TermId} {term : TermId} (hparse : Understands depth T parse)
    (h : instantiate parse name definition arguments s = some (.ok term, s')) :
    definition.Understood depth T := by
  unfold instantiate at h
  split_ifs at h with hlength
  · exact nomatch h
  obtain ⟨_, _, _, h⟩ := bind_eq_ok h
  obtain ⟨result, _, hresult, h⟩ := bind_eq_ok h
  exact .of_instance (hparse _ _ _ _ _ hresult) (not_not.1 hlength)

lemma applyFunction_settles {name : Text} {arguments : List TermId} {term : TermId}
    (hparse : Understands depth T parse)
    (h : applyFunction parse T name arguments s = some (.ok term, s')) :
    ∃ calls, ∀ arguments, Settles T locals calls fun T n _ =>
      applyFunction (parseTerm depth T n) T name arguments := by
  unfold applyFunction at h
  cases hname : T.functions.lookup name with
  | none =>
    rw [hname] at h
    exact nomatch h
  | some function =>
    rw [hname] at h
    have hfound : ∀ T', Within T T' → T'.functions.lookup name = some function :=
      fun T' hT => hT.functions name function hname
    cases function with
    | declared function =>
      refine ⟨0, fun arguments T' hT n _ locals' _ => ?_⟩
      unfold applyFunction
      dsimp only
      rw [hfound T' hT, hname]
      exact ⟨rfl, inferInstanceAs (Total (lift _))⟩
    | defined definition =>
      obtain ⟨m, hm⟩ := Definition.Understood.of_instantiate hparse h
      refine ⟨m, fun arguments T' hT n hn locals' hl => ?_⟩
      unfold applyFunction
      dsimp only
      rw [hfound T' hT, hname]
      exact instantiate_settles hm name arguments T' hT n hn locals' hl

lemma applyWord_settles {name : Text} {arguments : List TermId} {term : TermId}
    (hparse : Understands depth T parse)
    (h : applyWord parse depth T name arguments s = some (.ok term, s')) :
    ∃ calls, ∀ arguments, Settles T locals calls fun T n _ =>
      applyWord (parseTerm depth T n) depth T name arguments := by
  unfold applyWord at h
  cases hname : operatorOf depth T.logic name with
  | some operator =>
    refine ⟨0, fun arguments T' hT n _ locals' _ => ?_⟩
    unfold applyWord
    dsimp only
    rw [hT.logic, hname]
    exact ⟨rfl, totalOperators.operatorOf hname arguments⟩
  | none =>
    rw [hname] at h
    obtain ⟨m, hm⟩ : ∃ calls, ∀ arguments, Settles T locals calls fun T n _ =>
        applyFunction (parseTerm depth T n) T name arguments := applyFunction_settles hparse h
    refine ⟨m, fun arguments T' hT n hn locals' hl => ?_⟩
    unfold applyWord
    dsimp only
    rw [hT.logic, hname]
    exact hm arguments T' hT n hn locals' hl

lemma parseApplication_settles {head : SExpr} {arguments : List SExpr} {term : TermId}
    (hparse : Understands depth T parse)
    (h : parseApplication parse depth T head arguments locals s = some (.ok term, s')) :
    Settling T locals fun T n locals =>
      parseApplication (parseTerm depth T n) depth T head arguments locals := by
  unfold parseApplication at h ⊢
  obtain ⟨operator, _, hoperator, h⟩ := bind_eq_ok h
  have hhead := (ofExcept_eq_ok hoperator).1
  split_ifs at h with hlet hannotation has
  · obtain ⟨m, hm⟩ := parseLet_settles hparse h
    refine ⟨m, .ok_bind hhead ?_⟩
    simpa only [if_pos hlet] using hm
  · cases arguments with
    | nil => exact nomatch h
    | cons argument rest =>
      obtain ⟨m, hm⟩ := hparse _ _ _ _ _ h
      refine ⟨m, .ok_bind hhead ?_⟩
      simpa only [if_neg hlet, if_pos hannotation] using hm
  · refine ⟨0, .ok_bind hhead ?_⟩
    simpa only [if_neg hlet, if_neg hannotation, if_pos has] using parseAbstractValue_settles h
  · obtain ⟨terms, _, hterms, h⟩ := bind_eq_ok h
    have hall := (arguments_settle hparse hterms).bind (applyWord_settles hparse h)
    obtain ⟨m, hm⟩ := hall
    refine ⟨m, .ok_bind hhead ?_⟩
    simpa only [if_neg hlet, if_neg hannotation, if_neg has] using hm

/-- One call of the parser understands what it reads, if the nested calls do. -/
lemma parseTermWith_settles {e : SExpr} {term : TermId} (hparse : Understands depth T parse)
    (h : parseTermWith parse depth T e locals s = some (.ok term, s')) :
    Settling T locals fun T n locals => parseTermWith (parseTerm depth T n) depth T e locals := by
  unfold parseTermWith at h ⊢
  split at h
  · exact ⟨0, parseAtomTerm_settles h⟩
  · exact nomatch h
  · rename_i identifier arguments _
    split_ifs at h ⊢ with hindexed has
    · exact parseIndexedApplication_settles hparse h
    · exact parseQualifiedApplication_settles hparse h
    · exact nomatch h
  · rename_i a arguments _
    split_ifs at h ⊢ with hindexed
    · exact ⟨0, parseIndexedConstant_settles _⟩
    · exact parseApplication_settles hparse h

end Nested

/-- What the parser reads it understands. -/
theorem parseTerm_understands (depth calls : ℕ) (T : Tables) :
    Understands depth T (parseTerm depth T calls) := by
  induction calls with
  | zero => exact fun _ _ _ _ _ h => nomatch h
  | succ calls ih =>
    intro e locals s term s' h
    obtain ⟨m, hm⟩ := parseTermWith_settles ih h
    refine ⟨m + 1, fun T' hT n hn locals' hl => ?_⟩
    obtain ⟨n, rfl⟩ : ∃ k, n = k + 1 := ⟨n - 1, by omega⟩
    exact hm T' hT n (by omega) locals' hl

/-! ### Every run ends -/

/-- With the given calls at hand the parser does not run out of calls on the expression, and more
calls make no difference. -/
def EndsAt (depth : ℕ) (T : Tables) (calls : ℕ) (e : SExpr) : Prop :=
  ∀ locals, Settles T [] calls fun _ n _ => parseTerm depth T n e locals

/-- The parser ends on the expression. -/
def Ends (depth : ℕ) (T : Tables) (e : SExpr) : Prop := ∃ calls, EndsAt depth T calls e

lemma EndsAt.mono {m n : ℕ} {e : SExpr} (h : EndsAt depth T m e) (hmn : m ≤ n) :
    EndsAt depth T n e := fun locals => (h locals).mono hmn

lemma exists_endsAt_all {list : List SExpr} (h : ∀ e ∈ list, Ends depth T e) :
    ∃ calls, ∀ e ∈ list, EndsAt depth T calls e := by
  induction list with
  | nil => exact ⟨0, nofun⟩
  | cons e rest ih =>
    obtain ⟨m, he⟩ := h e List.mem_cons_self
    obtain ⟨n, hrest⟩ := ih fun e he => h e (List.mem_cons_of_mem _ he)
    refine ⟨max m n, List.forall_mem_cons.2 ⟨he.mono (le_max_left m n), fun e he => ?_⟩⟩
    exact (hrest e he).mono (le_max_right m n)

lemma parseBindings_ends {bindings : List SExpr}
    (h : ∀ symbol value, .list [symbol, value] ∈ bindings → Ends depth T value) :
    ∃ calls, ∀ locals scope, Settles T [] calls fun _ n _ =>
      parseBindings (parseTerm depth T n) locals bindings scope := by
  induction bindings with
  | nil => exact ⟨0, fun _ scope => .const (pure scope)⟩
  | cons binding rest ih =>
    obtain ⟨n, hrest⟩ := ih fun symbol value hmem =>
      h symbol value (List.mem_cons_of_mem _ hmem)
    have hvalue : ∃ calls, ∀ symbol value, binding = .list [symbol, value] →
        EndsAt depth T calls value := by
      by_cases hpair : ∃ symbol value, binding = .list [symbol, value]
      · obtain ⟨symbol, value, rfl⟩ := hpair
        obtain ⟨m, hm⟩ := h symbol value List.mem_cons_self
        refine ⟨m, fun symbol' value' heq => ?_⟩
        obtain ⟨-, rfl⟩ : symbol = symbol' ∧ value = value' := by simpa using heq
        exact hm
      · exact ⟨0, fun symbol value heq => absurd ⟨symbol, value, heq⟩ hpair⟩
    obtain ⟨m, hm⟩ := hvalue
    refine ⟨max m n, fun locals scope => .check fun pair hlist => .check ?_⟩
    rintro ⟨symbol, value⟩ htwo
    refine .check fun name _ => ?_
    have hbinding : binding = .list [symbol, value] := by
      rw [expectList_eq_ok hlist, expectTwo_eq_ok htwo]
    split_ifs
    · exact .const _
    · exact ((hm symbol value hbinding locals).mono (le_max_left m n)).bind fun term =>
        (hrest locals _).mono (le_max_right m n)

lemma parseLet_ends (arguments : List SExpr)
    (hbody : ∀ bindings body, arguments = [bindings, body] → Ends depth T body)
    (hvalue : ∀ bindings body symbol value, arguments = [.list bindings, body] →
      .list [symbol, value] ∈ bindings → Ends depth T value) :
    ∃ calls, ∀ locals, Settles T [] calls fun _ n _ =>
      parseLet (parseTerm depth T n) arguments locals := by
  by_cases hpair : ∃ bindings body, arguments = [.list bindings, body]
  · obtain ⟨bindings, body, rfl⟩ := hpair
    obtain ⟨m, hm⟩ := hbody _ _ rfl
    obtain ⟨n, hn⟩ := parseBindings_ends fun symbol value => hvalue bindings body symbol value rfl
    refine ⟨max m n, fun locals => ?_⟩
    exact ((hn locals ∅).mono (le_max_right m n)).bind fun scope =>
      (hm (scope :: locals)).mono (le_max_left m n)
  · refine ⟨0, fun locals => .check ?_⟩
    rintro ⟨bindings, body⟩ htwo
    refine .check fun items hlist => absurd ⟨items, body, ?_⟩ hpair
    rw [expectTwo_eq_ok htwo, expectList_eq_ok hlist]

lemma parseIndexedApplication_ends {identifier arguments : List SExpr}
    (h : ∀ e ∈ arguments, Ends depth T e) :
    ∃ calls, ∀ locals, Settles T [] calls fun _ n _ =>
      parseIndexedApplication (parseTerm depth T n) T identifier arguments locals := by
  obtain ⟨m, hall⟩ := exists_endsAt_all h
  refine ⟨m, fun locals => .check fun _ _ => ?_⟩
  split
  · rename_i index indices
    refine .check fun argument hargument => .check fun operator _ =>
      (hall argument ?_ locals).bind fun term => ?_
    · rw [expectOne_eq_ok hargument]
      exact List.mem_cons_self
    · have htotal := totalOperators.applyIndexed operator (index :: indices) term
      exact .const _
  · exact .const _

lemma parseQualifiedApplication_ends {identifier arguments : List SExpr}
    (h : ∀ e ∈ arguments, Ends depth T e) :
    ∃ calls, ∀ locals, Settles T [] calls fun _ n _ =>
      parseQualifiedApplication (parseTerm depth T n) T identifier arguments locals := by
  obtain ⟨m, hall⟩ := exists_endsAt_all h
  refine ⟨m, fun locals => .check fun _ _ => .check ?_⟩
  rintro ⟨_, name, ascription⟩ _
  dsimp only
  split_ifs
  · exact .const _
  · refine .check fun argument hargument => ?_
    have htotal := parseSort_total T ascription
    refine .bind (.const _) fun sort => ?_
    cases sort with
    | array sort =>
      refine (hall argument ?_ locals).bind fun value => .const _
      rw [expectOne_eq_ok hargument]
      exact List.mem_cons_self
    | _ => exact .const (reject _)

section Ends

variable (hT : ∀ name definition, T.functions.lookup name = some (.defined definition) →
  definition.Understood depth T)

include hT

lemma applyWord_ends (name : Text) : ∃ calls, ∀ arguments, Settles T [] calls fun _ n _ =>
    applyWord (parseTerm depth T n) depth T name arguments := by
  unfold applyWord applyFunction
  cases hword : operatorOf depth T.logic name with
  | some operator =>
    refine ⟨0, fun arguments => ?_⟩
    have htotal := totalOperators.operatorOf hword arguments
    exact .const _
  | none =>
    cases hname : T.functions.lookup name with
    | none => exact ⟨0, fun arguments => .const (reject _)⟩
    | some function =>
      cases function with
      | declared function => exact ⟨0, fun arguments => .const (lift _)⟩
      | defined definition =>
        obtain ⟨calls, h⟩ := hT name definition hname
        exact ⟨calls, fun arguments _ _ n hn locals hl =>
          instantiate_settles h name arguments T (.refl T) n hn locals hl⟩

lemma parseApplication_ends {head : SExpr} {arguments : List SExpr}
    (h : ∀ e, sizeOf e < sizeOf (SExpr.list (head :: arguments)) → Ends depth T e) :
    ∃ calls, ∀ locals, Settles T [] calls fun _ n _ =>
      parseApplication (parseTerm depth T n) depth T head arguments locals := by
  have harguments : ∀ e ∈ arguments, Ends depth T e := fun e he => h e (by
    have := List.sizeOf_lt_of_mem he
    simp only [SExpr.list.sizeOf_spec, List.cons.sizeOf_spec]
    omega)
  obtain ⟨k, hlet⟩ := parseLet_ends arguments
    (fun bindings body heq => harguments body (by simp [heq]))
    (fun bindings body symbol value heq hmem => h value (by
      have := List.sizeOf_lt_of_mem hmem
      simp only [heq, SExpr.list.sizeOf_spec, List.cons.sizeOf_spec] at this ⊢
      omega))
  obtain ⟨l, hall⟩ := exists_endsAt_all harguments
  obtain ⟨p, hword⟩ := applyWord_ends hT (head.word.getD [])
  refine ⟨max k (max l p), fun locals => .check fun operator hoperator => ?_⟩
  rw [demand_eq_ok hoperator, Option.getD_some] at hword
  split_ifs
  · exact (hlet locals).mono (le_max_left k _)
  · cases arguments with
    | nil => exact .const (reject _)
    | cons argument rest =>
      exact (hall argument List.mem_cons_self locals).mono
        ((le_max_left l p).trans (le_max_right k _))
  · have htotal : Total (parseAbstractValue T arguments locals) := by
      unfold parseAbstractValue
      refine @Total.bind _ _ _ _ _ _ ?_
      rintro ⟨value, ascription⟩
      have hsort := parseSort_total T ascription
      infer_instance
    exact .const _
  · refine .bind (F := fun _ n _ => collect (fun e => parseTerm depth T n e locals) arguments)
      (.mono (.collect fun e he => hall e he locals) ((le_max_left l p).trans (le_max_right k _)))
      fun terms => (hword terms).mono ((le_max_right l p).trans (le_max_right k _))

/-- The parser ends on every expression, if the bodies of all defined functions are understood. -/
theorem parseTerm_ends (e : SExpr) : Ends depth T e := by
  induction hsize : sizeOf e using Nat.strong_induction_on generalizing e with
  | h size ih =>
    have hsub : ∀ e', sizeOf e' < sizeOf e → Ends depth T e' := fun e' he =>
      ih (sizeOf e') (hsize ▸ he) e' rfl
    have hone : ∃ calls, ∀ locals, Settles T [] calls fun _ n _ =>
        parseTermWith (parseTerm depth T n) depth T e locals := by
      obtain a | _ | ⟨a | identifier, arguments⟩ := e
      · refine ⟨0, fun locals => ?_⟩
        have htotal := parseAtomTerm_total T a locals
        exact .const (parseAtomTerm T a locals)
      · exact ⟨0, fun _ => .const (reject _)⟩
      · simp only [parseTermWith]
        split_ifs
        · have htotal := parseIndexedConstant_total T (.atom a :: arguments)
          exact ⟨0, fun _ => .const _⟩
        · exact parseApplication_ends hT hsub
      · have harguments : ∀ e ∈ arguments, Ends depth T e := fun e he => hsub e (by
          have := List.sizeOf_lt_of_mem he
          simp only [SExpr.list.sizeOf_spec, List.cons.sizeOf_spec]
          omega)
        simp only [parseTermWith]
        split_ifs
        · exact parseIndexedApplication_ends harguments
        · exact parseQualifiedApplication_ends harguments
        · exact ⟨0, fun _ => .const (reject _)⟩
    obtain ⟨calls, h⟩ := hone
    refine ⟨calls + 1, fun locals T' hT n hn locals' hl => ?_⟩
    obtain ⟨n, rfl⟩ : ∃ k, n = k + 1 := ⟨n - 1, by omega⟩
    exact h locals T' hT n (by omega) locals' hl

end Ends

end Satrap.Smt
