/-
# The encoding is a definitional extension

Whatever happens to the solver between two encodings, every assignment of the encoded atoms
extends to exactly one assignment of the other variables in the encoding clauses, and under it
the literal of a term has the value of the term.  The solver keeps the encoding clauses for
good: no scope guards them.
-/
import Satrap.Smt.Encode
import Satrap.Smt.History
import Satrap.Solver.Cores

namespace Satrap

open Logic

/-! ### The solver keeps what it has been given -/

namespace Solver

variable {O : Oracle} {config : SolverConfig} {clauses : List (List Lit)} {s s' : Solver}

/-- Clauses can still be added: no pass that cannot be undone has run. -/
def Unlocked (s : Solver) : Prop := ¬ (s.started = true ∧ s.irreversible = true)

/-- The solver is between operations and has taken the clauses outside of all scopes. -/
structure Provided (config : SolverConfig) (clauses : List (List Lit)) (s : Solver) : Prop where
  config : s.config = config
  valid : ∃ Γ, Valid (s.started = false) Γ s ∧ ∀ c ∈ clauses, c ∈ Γ
  selectors : ∀ l ∈ s.scopeSelectors, l.var < s.externalVariableCount
  reversible : s.started = true → s.config.Reversible

lemma provided_withConfig (config : SolverConfig) : Provided config [] (withConfig config) where
  config := rfl
  valid := ⟨∅, (represents_withConfig config).valid, by simp⟩
  selectors := by simp [withConfig]
  reversible := by simp [withConfig]

namespace Provided

variable (h : Provided config clauses s)
include h

/-- A step that keeps the scopes and the clauses. -/
lemma step {Γ : Set (List Lit)} (hm : Mutated s s') (hv : Valid (s.started = false) Γ s')
    (hc : ∀ c ∈ clauses, c ∈ Γ) : Provided config clauses s' where
  config := hm.config.trans h.config
  valid := ⟨Γ, by rwa [hm.started], hc⟩
  selectors l hl := (h.selectors l (hm.scopeSelectors ▸ hl)).trans_le hm.count
  reversible hs := hm.config ▸ h.reversible (hm.started ▸ hs)

lemma unlocked : s.Unlocked := by
  rintro ⟨hs, hirr⟩
  obtain ⟨h1, h2⟩ := h.reversible hs
  rw [irreversible, h1, h2] at hirr
  simp at hirr

lemma newVariable (O : Oracle) :
    (∃ e, s.newVariable O = (.error e, s)) ∨
      ∃ s', s.newVariable O = (.ok s.externalVariableCount, s') ∧ Provided config clauses s' ∧
        s.externalVariableCount < s'.externalVariableCount := by
  obtain ⟨Γ, hv, hc⟩ := h.valid
  obtain ⟨hm, hv'⟩ := tryReserveVariables_spec hv O (s.externalVariableCount + 1)
  rw [Solver.newVariable]
  split
  · exact .inl ⟨_, rfl⟩
  rw [tryReserveVariables, if_neg (Nat.not_succ_le_self _)] at hm hv' ⊢
  by_cases hmax : maxVariables < s.externalVariableCount + 1
  · rw [if_pos hmax]
    exact .inl ⟨_, rfl⟩
  by_cases hmut : (s.started && s.irreversible) = true
  · rw [if_neg hmax, if_pos hmut]
    exact .inl ⟨_, rfl⟩
  rw [if_neg hmax, if_neg hmut] at hm hv' ⊢
  exact .inr ⟨_, rfl, h.step hm hv' hc, Nat.lt_succ_self _⟩

lemma addEncodingClause (O : Oracle) {literals : List Lit}
    (hlt : ∀ l ∈ literals, l.var < s.externalVariableCount) :
    ∃ b s', s.addEncodingClause O literals = (.ok b, s') ∧
      Provided config (clauses ++ [literals]) s' ∧
      s.externalVariableCount ≤ s'.externalVariableCount := by
  obtain ⟨Γ, hv, hc⟩ := h.valid
  obtain ⟨hm, hspec⟩ := addClauseInternal_spec hv O literals false .encoding
  have hok : ∃ b, (s.addClauseInternal O literals false .encoding).1 = .ok b := by
    rw [addClauseInternal, if_neg fun hb => h.unlocked (by simpa using hb)]
    have hreq : requiredVariables literals ≤ (s.prepareIncrementalMutation O).externalVariableCount := by
      rw [prepare_count]
      exact requiredVariables_le hlt
    simp only [guarded, Bool.false_eq_true, if_false, not_lt.2 hreq, false_and]
    exact ⟨_, rfl⟩
  obtain ⟨b, hb⟩ := hok
  rw [hb] at hspec
  refine ⟨b, (s.addClauseInternal O literals false .encoding).2, Prod.ext hb rfl, ?_, hm.count⟩
  have hmem : ∀ c ∈ clauses ++ [literals], c ∈ insert (s.guarded false literals) Γ := by
    intro c hc'
    rcases List.mem_append.1 hc' with hc' | hc'
    · exact .inr (hc c hc')
    · exact .inl (List.mem_singleton.1 hc')
  have h' := h.step hm hspec.1 fun c hc' => hmem c (List.mem_append_left _ hc')
  exact ⟨h'.config, ⟨_, by rw [hm.started]; exact hspec.1, hmem⟩, h'.selectors, h'.reversible⟩

/-- What the client does keeps the clauses. -/
lemma perform {operation : Operation} {response : Response} {fuel : ℕ}
    (hquery : ∀ assumptions limits, operation = .solveAssuming assumptions limits →
      config.Reversible)
    (he : operation.perform O fuel s = some (response, s')) :
    Provided config clauses s' ∧ s.externalVariableCount ≤ s'.externalVariableCount := by
  obtain ⟨Γ, hv, hc⟩ := h.valid
  cases operation with
  | addClause literals =>
    obtain ⟨hm, hspec⟩ := addClauseInternal_spec hv O literals true .formula
    rw [Operation.perform, tryAddClause] at he
    generalize s.addClauseInternal O literals true .formula = r at hm hspec he
    obtain ⟨e | b, s₁⟩ := r
    · obtain ⟨rfl, rfl⟩ := Prod.mk.inj (Option.some.inj he)
      exact ⟨h.step hm hspec hc, hm.count⟩
    · obtain ⟨rfl, rfl⟩ := Prod.mk.inj (Option.some.inj he)
      exact ⟨h.step hm hspec.1 fun c hc' => .inr (hc c hc'), hm.count⟩
  | reserveVariables count =>
    obtain ⟨hm, hspec⟩ := tryReserveVariables_spec hv O count
    rw [Operation.perform] at he
    generalize s.tryReserveVariables O count = r at hm hspec he
    obtain ⟨e | b, s₁⟩ := r <;> obtain ⟨rfl, rfl⟩ := Prod.mk.inj (Option.some.inj he) <;>
      exact ⟨h.step hm hspec hc, hm.count⟩
  | pushLevels levels =>
    rw [Operation.perform] at he
    rcases pushLevels_spec hv O levels with ⟨e, hr⟩ | ⟨s₁, hr, hv', hcount, hsel, hcfg, hst⟩
    · rw [hr] at he
      obtain ⟨rfl, rfl⟩ := Prod.mk.inj (Option.some.inj he)
      exact ⟨h, le_rfl⟩
    · rw [hr] at he
      obtain ⟨rfl, rfl⟩ := Prod.mk.inj (Option.some.inj he)
      refine ⟨⟨hcfg.trans h.config, ⟨Γ, by rwa [hst], hc⟩, fun l hl => ?_,
        fun hs => hcfg ▸ h.reversible (hst ▸ hs)⟩, by omega⟩
      rw [hsel] at hl
      rcases List.mem_append.1 hl with hl | hl
      · exact (h.selectors l hl).trans_le (by omega)
      · obtain ⟨v, hv, rfl⟩ := List.mem_map.1 hl
        have hlt := List.mem_range'_1.1 hv
        show v < _
        omega
  | pop levels =>
    rw [Operation.perform] at he
    rcases pop_spec hv O levels h.selectors with ⟨e, hr⟩ | ⟨s₁, hr, -, hv', hsel, hcfg, hst, hcount⟩
    · rw [hr] at he
      obtain ⟨rfl, rfl⟩ := Prod.mk.inj (Option.some.inj he)
      exact ⟨h, le_rfl⟩
    · rw [hr] at he
      obtain ⟨rfl, rfl⟩ := Prod.mk.inj (Option.some.inj he)
      refine ⟨⟨hcfg.trans h.config, ⟨_, by rwa [hst], fun c hc' => Or.inl (hc c hc')⟩,
        fun l hl => ?_, fun hs => hcfg ▸ h.reversible (hst ▸ hs)⟩, hcount⟩
      rw [hsel] at hl
      exact (h.selectors l (List.mem_of_mem_take hl)).trans_le hcount
  | solveAssuming assumptions limits =>
    rw [Operation.perform, Option.map_eq_some_iff] at he
    obtain ⟨⟨result, s₁⟩, hr, he⟩ := he
    obtain ⟨rfl, rfl⟩ := Prod.mk.inj he
    have hrev := hquery assumptions limits rfl
    have hsafe : QuerySafe O (s.started = false) False Γ assumptions s :=
      .of_reversible hv id (by simp) (h.config ▸ hrev) False.elim
    obtain ⟨-, hv', hstarted, hcfg, hsel, hcount, -⟩ :=
      solveAssumingWithLimits_spec hv hsafe.weaker hsafe.passes h.selectors hsafe.present hr
    have hvalid : Valid (s₁.started = false) Γ s₁ := by
      rcases hstarted with rfl | hstarted
      · exact hv
      · exact hv'.weaken fun hn => absurd hn (by simp [hstarted])
    exact ⟨⟨hcfg.trans h.config, ⟨Γ, hvalid, hc⟩, fun l hl => hcount ▸ h.selectors l (hsel ▸ hl),
      fun _ => hcfg ▸ h.config ▸ hrev⟩, hcount.ge⟩

/-- The clauses are in force: the active clauses and the root literals of a consistent solver
make them true. -/
lemma inForce (hcons : s.consistent = true) {m : ℕ → Bool}
    (hm : Satisfies m s) : AllSat m clauses := by
  obtain ⟨Γ, hv, hc⟩ := h.valid
  have hrecords : s.eliminationRecords = [] := by
    by_contra hne
    exact h.unlocked (hv.records hne)
  obtain ⟨m', hext, hm'⟩ := (hv.consistent hcons).2 m hm.1 hm.2
  rw [extendModel, hrecords] at hext
  obtain rfl : m = m' := Option.some.inj hext
  exact fun c hc' => hm' c (hc c hc')

end Provided

end Solver

/-! ### The encoder -/

namespace Smt

open EncodeM

variable {O : Oracle} {config : SolverConfig} {terms terms' : TermStore} {e e' : Encoding}
  {t : TermId} {l : Lit} {α β : Type}

/-- The literal is in use and has the value wherever the encoding clauses hold. -/
def Encoding.Means (e : Encoding) (l : Lit) (value : (SymbolId → Bool) → Prop) : Prop :=
  l.var < e.solver.externalVariableCount ∧ Stands e.encoder.atomLiterals e.clauses l value

/-- The invariant of the encoder: the clauses it has written are a definitional extension of the
atoms it knows, and the literals it keeps have the values of their terms. -/
structure EncodingOk (config : SolverConfig) (terms : TermStore) (e : Encoding) : Prop where
  store : terms.Ok
  provided : e.solver.Provided config e.clauses
  definitional : Definitional e.encoder.atomLiterals
    {v | v < e.solver.externalVariableCount} e.clauses
  cached : ∀ t l, e.encoder.termLiterals t = some l →
    terms.IsBool t ∧ e.Means l fun ρ => terms.evaluate ρ t = true
  truth : ∀ l, e.encoder.truthLiteral = some l → e.Means l fun _ => True

/-- No atom, no clause and no variable has been lost. -/
structure Encoding.Extends (e e' : Encoding) : Prop where
  atoms : ∀ a l, e.encoder.atomLiterals a = some l → e'.encoder.atomLiterals a = some l
  clauses : e.clauses ⊆ e'.clauses
  count : e.solver.externalVariableCount ≤ e'.solver.externalVariableCount

lemma Encoding.Extends.refl (e : Encoding) : e.Extends e :=
  ⟨fun _ _ h => h, fun _ h => h, le_rfl⟩

lemma Encoding.Extends.trans {e₁ : Encoding} (h : e.Extends e₁) (h' : e₁.Extends e') :
    e.Extends e' :=
  ⟨fun a l ha => h'.atoms a l (h.atoms a l ha), fun _ hc => h'.clauses (h.clauses hc),
    h.count.trans h'.count⟩

lemma Encoding.Means.mono {value : (SymbolId → Bool) → Prop} (h : e.Means l value)
    (he : e.Extends e') : e'.Means l value :=
  ⟨h.1.trans_le he.count, h.2.mono he.atoms he.clauses⟩

/-- Where the step does not panic it keeps the invariant, and what it returns is as stated. -/
def Encodes (config : SolverConfig) (terms : TermStore) (x : EncodeM α) (e : Encoding)
    (Q : α → Encoding → Prop) : Prop :=
  ∀ r e', x e = some (r, e') →
    EncodingOk config terms e' ∧ e.Extends e' ∧ ∀ a, r = .ok a → Q a e'

lemma Encodes.pure {a : α} {Q : α → Encoding → Prop} (h : EncodingOk config terms e) (hQ : Q a e) :
    Encodes config terms (pure a) e Q := by
  intro r e' he
  obtain ⟨rfl, rfl⟩ := Prod.mk.inj (Option.some.inj he)
  exact ⟨h, .refl _, fun b hb => Except.ok.inj hb ▸ hQ⟩

lemma bind_ok {x : EncodeM α} {f : α → EncodeM β} {a : α} (hx : x e = some (.ok a, e')) :
    (x >>= f) e = f a e' := by
  dsimp only [Bind.bind]
  rw [hx]

lemma bind_error {x : EncodeM α} {f : α → EncodeM β} {err : IncrementalError}
    (hx : x e = some (.error err, e')) : (x >>= f) e = some (.error err, e') := by
  dsimp only [Bind.bind]
  rw [hx]

lemma bind_none {x : EncodeM α} {f : α → EncodeM β} (hx : x e = none) : (x >>= f) e = none := by
  dsimp only [Bind.bind]
  rw [hx]

lemma Encodes.bind {x : EncodeM α} {f : α → EncodeM β} {Q : α → Encoding → Prop}
    {R : β → Encoding → Prop} (hx : Encodes config terms x e Q)
    (hf : ∀ a e₁, EncodingOk config terms e₁ → e.Extends e₁ → Q a e₁ →
      Encodes config terms (f a) e₁ R) : Encodes config terms (x >>= f) e R := by
  intro r e' he
  cases hxe : x e with
  | none =>
    rw [bind_none hxe] at he
    simp at he
  | some p =>
    obtain ⟨err | a, e₁⟩ := p
    · obtain ⟨h₁, hext, -⟩ := hx _ _ hxe
      rw [bind_error hxe] at he
      obtain ⟨rfl, rfl⟩ := Prod.mk.inj (Option.some.inj he)
      exact ⟨h₁, hext, by simp⟩
    · obtain ⟨h₁, hext, hQ⟩ := hx _ _ hxe
      rw [bind_ok hxe] at he
      obtain ⟨h₂, hext', hR⟩ := hf a e₁ h₁ hext (hQ a rfl) r e' he
      exact ⟨h₂, hext.trans hext', hR⟩

lemma Encodes.weaken {x : EncodeM α} {Q R : α → Encoding → Prop} (hx : Encodes config terms x e Q)
    (hQ : ∀ a e', Q a e' → R a e') : Encodes config terms x e R := fun r e' he =>
  have h := hx r e' he
  ⟨h.1, h.2.1, fun a ha => hQ a e' (h.2.2 a ha)⟩

/-! ### Gates -/

/-- The clauses of a gate are all taken. -/
lemma each_encodingClause (O : Oracle) : ∀ (clauses : List (List Lit)) (e : Encoding),
    e.solver.Provided config e.clauses →
    (∀ c ∈ clauses, ∀ l ∈ c, l.var < e.solver.externalVariableCount) →
    ∃ s', each (encodingClause O) clauses e =
        some (.ok (), { e with solver := s', clauses := e.clauses ++ clauses }) ∧
      s'.Provided config (e.clauses ++ clauses) ∧
      e.solver.externalVariableCount ≤ s'.externalVariableCount := by
  intro clauses
  induction clauses with
  | nil =>
    intro e h _
    rw [List.append_nil]
    exact ⟨e.solver, rfl, h, le_rfl⟩
  | cons c clauses ih =>
    intro e h hlt
    obtain ⟨hc, hlt⟩ := List.forall_mem_cons.1 hlt
    obtain ⟨b, s₁, hadd, h₁, hcount⟩ := h.addEncodingClause O hc
    have hstep : encodingClause O c e =
        some (.ok (), { e with solver := s₁, clauses := e.clauses ++ [c] }) := by
      rw [encodingClause, hadd]
    obtain ⟨s', he, h', hcount'⟩ := ih { e with solver := s₁, clauses := e.clauses ++ [c] } h₁
      fun d hd l hl => (hlt d hd l hl).trans_le hcount
    refine ⟨s', ?_, by simpa using h', hcount.trans hcount'⟩
    rw [each, bind_ok hstep, he]
    simp

variable {inputs : List Lit} {gate : Lit → List (List Lit)} {value : (ℕ → Bool) → Prop}
  {f : (SymbolId → Bool) → Prop}

/-- **A gate keeps the invariant** and defines its output. -/
lemma encodeGate_encodes (h : EncodingOk config terms e) (hgate : IsGate inputs gate value)
    (hinputs : ∀ i ∈ inputs, ∃ g, e.Means i g)
    (hf : ∀ ρ m, Follows e.encoder.atomLiterals ρ m → AllSat m e.clauses → (value m ↔ f ρ)) :
    Encodes config terms (encodeGate O gate) e fun l e' => e'.Means l f := by
  rcases h.provided.newVariable O with ⟨err, hnew⟩ | ⟨s₁, hnew, hs₁, hlt⟩
  · intro r e' he
    have hfresh : freshLiteral O e = some (.error err, e) := by rw [freshLiteral, hnew]
    have hfail : encodeGate O gate e = some (.error err, e) := by
      rw [encodeGate, bind_error hfresh]
    rw [hfail] at he
    obtain ⟨rfl, rfl⟩ := Prod.mk.inj (Option.some.inj he)
    exact ⟨h, .refl _, by simp⟩
  · intro r e' he
    set v := e.solver.externalVariableCount with hv
    have hvars : ∀ c ∈ gate ⟨v, true⟩, ∀ l ∈ c, l.var < s₁.externalVariableCount := by
      intro c hc l hl
      rcases hgate.vars ⟨v, true⟩ c hc l hl with hlv | ⟨i, hi, hli⟩
      · rw [hlv]
        exact hlt
      · obtain ⟨g, hg⟩ := hinputs i hi
        rw [hli]
        exact hg.1.trans hlt
    obtain ⟨s', heach, hs', hcount⟩ :=
      each_encodingClause O (gate ⟨v, true⟩) { e with solver := s₁ } hs₁ hvars
    have hfresh : freshLiteral O e = some (.ok ⟨v, true⟩, { e with solver := s₁ }) := by
      rw [freshLiteral, hnew]
    have hrun : encodeGate O gate e =
        some (.ok ⟨v, true⟩, { e with solver := s', clauses := e.clauses ++ gate ⟨v, true⟩ }) := by
      rw [encodeGate, bind_ok hfresh, bind_ok heach]
      rfl
    rw [hrun] at he
    obtain ⟨rfl, rfl⟩ := Prod.mk.inj (Option.some.inj he)
    have hext : e.Extends { e with solver := s', clauses := e.clauses ++ gate ⟨v, true⟩ } :=
      ⟨fun _ _ h => h, List.subset_append_left _ _, hlt.le.trans hcount⟩
    obtain ⟨hdef, hstands⟩ := h.definitional.define (v := v) (by simp [hv]) hgate
      (fun i hi => ⟨(hinputs i hi).elim fun g hg => hg.1, (hinputs i hi).imp fun g hg => hg.2⟩) hf
    refine ⟨⟨h.store, hs', hdef.mono ?_, fun t l ht => ?_, fun l hl => (h.truth l hl).mono hext⟩,
      hext, ?_⟩
    · rintro w (rfl | hw)
      · exact hlt.trans_le hcount
      · exact (Set.mem_setOf.1 hw).trans (hlt.trans_le hcount)
    · exact (h.cached t l ht).imp_right fun hm => hm.mono hext
    · rintro a ha
      obtain rfl := Except.ok.inj ha
      exact ⟨hlt.trans_le hcount, hstands⟩

/-! ### Literals of atoms and of truth -/

lemma Encodes.of_get {g : Encoding → EncodeM α} {Q : α → Encoding → Prop}
    (h : Encodes config terms (g e) e Q) : Encodes config terms (get >>= g) e Q :=
  fun r e' he => h r e' he

lemma Encodes.modify {g : BoolEncoder → BoolEncoder} {Q : Unit → Encoding → Prop}
    (h : EncodingOk config terms { e with encoder := g e.encoder })
    (hext : e.Extends { e with encoder := g e.encoder })
    (hQ : Q () { e with encoder := g e.encoder }) :
    Encodes config terms (modify g) e Q := by
  intro r e' he
  obtain ⟨rfl, rfl⟩ := Prod.mk.inj (Option.some.inj he)
  exact ⟨h, hext, fun _ _ => hQ⟩

lemma truthLiteral_encodes (h : EncodingOk config terms e) :
    Encodes config terms (truthLiteral O) e fun l e' => e'.Means l fun _ => True := by
  refine .of_get ?_
  cases ht : e.encoder.truthLiteral with
  | some l => exact .pure h (h.truth l ht)
  | none =>
    refine (encodeGate_encodes h unitGate_isGate (by simp) fun _ _ _ _ => Iff.rfl).bind ?_
    intro l e₁ h₁ _ hl
    have hext : e₁.Extends
        { e₁ with encoder := { e₁.encoder with truthLiteral := some l } } :=
      ⟨fun _ _ h => h, fun _ h => h, le_rfl⟩
    have h₂ : EncodingOk config terms
        { e₁ with encoder := { e₁.encoder with truthLiteral := some l } } :=
      ⟨h₁.store, h₁.provided, h₁.definitional, h₁.cached, fun q hq => Option.some.inj hq ▸ hl⟩
    exact (Encodes.modify (Q := fun _ e' => e'.Means l fun _ => True) h₂ hext hl).bind
      fun _ _ h₃ _ hq => .pure h₃ hq

lemma encodeAtom_encodes (h : EncodingOk config terms e) (symbol : SymbolId) :
    Encodes config terms (encodeAtom O symbol) e fun l e' =>
      e'.Means l fun ρ => ρ symbol = true := by
  refine .of_get ?_
  cases ha : e.encoder.atomLiterals symbol with
  | some l =>
    refine .pure h ⟨h.definitional.atom_mem symbol l ha, fun ρ m hf _ => hf symbol l ha⟩
  | none =>
    dsimp only
    rcases h.provided.newVariable O with ⟨err, hnew⟩ | ⟨s₁, hnew, hs₁, hlt⟩
    · have hfresh : freshLiteral O e = some (.error err, e) := by rw [freshLiteral, hnew]
      intro r e' he
      rw [bind_error hfresh] at he
      obtain ⟨rfl, rfl⟩ := Prod.mk.inj (Option.some.inj he)
      exact ⟨h, .refl _, by simp⟩
    · set v := e.solver.externalVariableCount with hv
      have hfresh : freshLiteral O e = some (.ok ⟨v, true⟩, { e with solver := s₁ }) := by
        rw [freshLiteral, hnew]
      intro r e' he
      rw [bind_ok hfresh] at he
      obtain ⟨rfl, rfl⟩ := Prod.mk.inj (Option.some.inj he)
      have hatoms : ∀ a l, e.encoder.atomLiterals a = some l →
          Function.update e.encoder.atomLiterals symbol (some ⟨v, true⟩) a = some l := by
        intro a l hl
        rw [Function.update_of_ne, hl]
        rintro rfl
        rw [ha] at hl
        simp at hl
      have hext : e.Extends ⟨{ e.encoder with
          atomLiterals := Function.update e.encoder.atomLiterals symbol (some ⟨v, true⟩) }, s₁,
          e.clauses⟩ := ⟨hatoms, fun _ h => h, hlt.le⟩
      have hdef : Definitional
          (Function.update e.encoder.atomLiterals symbol (some ⟨v, true⟩))
          {w | w < s₁.externalVariableCount} e.clauses := by
        refine (h.definitional.addAtom (v := v) (by simp [hv]) ha).mono ?_
        rintro w (rfl | hw)
        · exact hlt
        · exact (Set.mem_setOf.1 hw).trans hlt
      refine ⟨⟨h.store, hs₁, hdef, fun t l ht => ?_, fun l hl => (h.truth l hl).mono hext⟩, hext, ?_⟩
      · exact (h.cached t l ht).imp_right fun hm => hm.mono hext
      · rintro a hl
        obtain rfl := Except.ok.inj hl
        exact ⟨hlt, fun ρ m hf _ => hf symbol _ (Function.update_self ..)⟩

/-! ### Terms -/

/-- The literal has the value of the term. -/
def Encoding.Denotes (e : Encoding) (terms : TermStore) (t : TermId) (l : Lit) : Prop :=
  e.Means l fun ρ => terms.evaluate ρ t = true

variable {member : TermId → EncodeM Lit} {items : List TermId}

/-- The given step encodes each of the terms. -/
def EncodesAll (config : SolverConfig) (terms : TermStore) (member : TermId → EncodeM Lit)
    (items : List TermId) : Prop :=
  ∀ t ∈ items, ∀ e, EncodingOk config terms e →
    Encodes config terms (member t) e fun l e' => e'.Denotes terms t l

/-- The literals have the values of the terms. -/
def Encoding.DenotesAll (e : Encoding) (terms : TermStore) (items : List TermId)
    (inputs : List Lit) : Prop :=
  List.Forall₂ (e.Denotes terms) items inputs

lemma Encoding.DenotesAll.mono (h : e.DenotesAll terms items inputs) (he : e.Extends e') :
    e'.DenotesAll terms items inputs := List.Forall₂.imp (fun _ _ hd => hd.mono he) h

lemma Encoding.DenotesAll.means (h : e.DenotesAll terms items inputs) :
    ∀ i ∈ inputs, ∃ g, e.Means i g := by
  induction h with
  | nil => simp
  | cons hd _ ih => exact List.forall_mem_cons.2 ⟨⟨_, hd⟩, ih⟩

lemma collect_encodes : ∀ (items : List TermId) (e : Encoding),
    EncodesAll config terms member items → EncodingOk config terms e →
    Encodes config terms (collect member items) e fun inputs e' =>
      e'.DenotesAll terms items inputs := by
  intro items
  induction items with
  | nil => exact fun e _ h => .pure h .nil
  | cons t items ih =>
    intro e hall h
    obtain ⟨ht, hall⟩ := List.forall_mem_cons.1 hall
    exact (ht e h).bind fun l e₁ h₁ _ hl => (ih e₁ hall h₁).bind fun inputs e₂ h₂ hext hi =>
      .pure h₂ (.cons (hl.mono hext) hi)

/-- A gate over the literals of terms. -/
lemma encodeGate_members (h : EncodingOk config terms e) (hi : e.DenotesAll terms items inputs)
    (hgate : IsGate inputs gate value)
    (hf : ∀ ρ m, List.Forall₂ (fun t l => l.Holds m ↔ terms.evaluate ρ t = true) items inputs →
      (value m ↔ f ρ)) :
    Encodes config terms (encodeGate O gate) e fun l e' => e'.Means l f := by
  refine encodeGate_encodes h hgate hi.means fun ρ m hfol hm =>
    hf ρ m (List.Forall₂.imp (fun t l hd => hd.2 ρ m hfol hm) hi)

lemma forall_of_forall₂ {P : TermId → Prop} {R : Lit → Prop}
    (h : List.Forall₂ (fun t l => R l ↔ P t) items inputs) :
    (∀ l ∈ inputs, R l) ↔ ∀ t ∈ items, P t := by
  induction h with
  | nil => simp
  | cons h _ ih => simp only [List.forall_mem_cons, h, ih]

/-- One step of the encoding. -/
lemma encodeKind_encodes (h : EncodingOk config terms e) (kind : TermKind)
    (hall : EncodesAll config terms member kind.members) :
    Encodes config terms (encodeKind O member kind) e fun l e' =>
      e'.Means l fun ρ => kind.value ρ (terms.evaluate ρ) = true := by
  cases kind with
  | bool value =>
    refine (truthLiteral_encodes h).bind fun l e₁ h₁ _ hl => .pure h₁ ?_
    cases value with
    | true => exact ⟨hl.1, fun ρ m hf hm => (hl.2 ρ m hf hm).trans (by simp [TermKind.value])⟩
    | false => exact ⟨hl.1, fun ρ m hf hm => (hl.2.neg ρ m hf hm).trans (by simp [TermKind.value])⟩
  | atom symbol => exact encodeAtom_encodes h symbol
  | theoryEquality symbol _ _ => exact encodeAtom_encodes h symbol
  | arithmeticPredicate symbol _ _ => exact encodeAtom_encodes h symbol
  | not inner =>
    refine (hall inner (by simp [TermKind.members]) e h).bind fun l e₁ h₁ _ hl => .pure h₁ ?_
    exact ⟨hl.1, fun ρ m hf hm => (hl.2.neg ρ m hf hm).trans (by simp [TermKind.value])⟩
  | and items =>
    refine (collect_encodes items e hall h).bind fun inputs e₁ h₁ _ hi => ?_
    refine encodeGate_members h₁ hi (andGate_isGate _) fun ρ m ht => ?_
    rw [forall_of_forall₂ ht, TermKind.value, List.all_eq_true]
  | or items =>
    refine (collect_encodes items e hall h).bind fun inputs e₁ h₁ _ hi => ?_
    refine encodeGate_members h₁ hi (orGate_isGate _) fun ρ m ht => ?_
    have hnot : (∀ l ∈ inputs, ¬ l.Holds m) ↔ ∀ t ∈ items, ¬ terms.evaluate ρ t = true :=
      forall_of_forall₂ (List.Forall₂.imp (fun _ _ hd => not_congr hd) ht)
    rw [TermKind.value, List.any_eq_true]
    simpa using not_congr hnot
  | xor left right =>
    refine (hall left (by simp [TermKind.members]) e h).bind fun l e₁ h₁ _ hl =>
      (hall right (by simp [TermKind.members]) e₁ h₁).bind fun q e₂ h₂ hext₂ hq => ?_
    refine encodeGate_members h₂ (.cons (hl.mono hext₂) (.cons hq .nil)) xorGate_isGate
      fun ρ m ht => ?_
    simp only [List.forall₂_cons, List.forall₂_nil_left_iff, and_true] at ht
    rw [ht.1, ht.2, TermKind.value]
    cases terms.evaluate ρ left <;> cases terms.evaluate ρ right <;> simp
  | iff left right =>
    refine (hall left (by simp [TermKind.members]) e h).bind fun l e₁ h₁ _ hl =>
      (hall right (by simp [TermKind.members]) e₁ h₁).bind fun q e₂ h₂ hext₂ hq => ?_
    refine encodeGate_members h₂ (.cons (hl.mono hext₂) (.cons hq .nil)) iffGate_isGate
      fun ρ m ht => ?_
    simp only [List.forall₂_cons, List.forall₂_nil_left_iff, and_true] at ht
    rw [ht.1, ht.2, TermKind.value]
    cases terms.evaluate ρ left <;> cases terms.evaluate ρ right <;> simp
  | ite condition thenTerm elseTerm =>
    refine (hall condition (by simp [TermKind.members]) e h).bind fun c e₁ h₁ _ hc =>
      (hall thenTerm (by simp [TermKind.members]) e₁ h₁).bind fun l e₂ h₂ hext₂ hl =>
      (hall elseTerm (by simp [TermKind.members]) e₂ h₂).bind fun q e₃ h₃ hext₃ hq => ?_
    refine encodeGate_members h₃ (.cons (hc.mono (hext₂.trans hext₃)) (.cons (hl.mono hext₃)
      (.cons hq .nil))) iteGate_isGate fun ρ m ht => ?_
    simp only [List.forall₂_cons, List.forall₂_nil_left_iff, and_true] at ht
    rw [ht.1, ht.2.1, ht.2.2, TermKind.value]
    cases terms.evaluate ρ condition <;> simp
  | _ => exact fun r e' he => absurd he (by simp [encodeKind, EncodeM.unreachable])

/-- **Encoding keeps the invariant**, and the literal it returns is that of the term.  The
induction is on the depth; the members of a compound term are Boolean terms. -/
lemma encodeWithin_encodes : ∀ (depth : ℕ) (t : TermId) (e : Encoding), terms.IsBool t →
    EncodingOk config terms e →
    Encodes config terms (encodeWithin O terms depth t) e fun l e' => e'.Denotes terms t l := by
  intro depth
  induction depth with
  | zero => exact fun t e _ _ r e' he => absurd he (by simp [encodeWithin, EncodeM.unreachable])
  | succ depth ih =>
    intro t e ht h
    refine .of_get ?_
    cases hl : e.encoder.termLiterals t with
    | some l => exact .pure h (h.cached t l hl).2
    | none =>
      have hall : EncodesAll config terms (encodeWithin O terms depth)
          (terms.node t).kind.members := fun m hm e₁ h₁ =>
        ih m e₁ (h.store.members_isBool ht.lt hm).2 h₁
      refine (encodeKind_encodes h _ hall).bind fun l e₁ h₁ _ hmeans => ?_
      have hd : e₁.Denotes terms t l :=
        ⟨hmeans.1, fun ρ m hf hm => (hmeans.2 ρ m hf hm).trans
          (iff_of_eq (congrArg (· = true) (h.store.evaluate_eq ht.lt).symm))⟩
      have hext : e₁.Extends { e₁ with encoder := { e₁.encoder with
          termLiterals := Function.update e₁.encoder.termLiterals t (some l) } } :=
        ⟨fun _ _ h => h, fun _ h => h, le_rfl⟩
      have h₂ : EncodingOk config terms { e₁ with encoder := { e₁.encoder with
          termLiterals := Function.update e₁.encoder.termLiterals t (some l) } } := by
        refine ⟨h₁.store, h₁.provided, h₁.definitional, fun u q hq => ?_, h₁.truth⟩
        dsimp only at hq
        by_cases hu : u = t
        · subst hu
          rw [Function.update_self] at hq
          exact Option.some.inj hq ▸ ⟨ht, hd⟩
        · rw [Function.update_of_ne hu] at hq
          exact h₁.cached u q hq
      exact (Encodes.modify (Q := fun _ e' => e'.Denotes terms t l) h₂ hext hd).bind
        fun _ _ h₃ _ hq => .pure h₃ hq

/-! ### Runs -/

/-- What a client has come to that encodes terms and works on the solver in between: the store of
the last encoded term, the encoding, and the literals that have been returned.  Terms are built
and rolled back between two encodings, but not those that have been encoded; a client that makes
queries has switched off the passes that cannot be undone. -/
inductive Encoded (O : Oracle) (config : SolverConfig) :
    TermStore → Encoding → List (TermId × Lit) → Prop
  | start : Encoded O config .new ⟨{}, Solver.withConfig config, []⟩ []
  | encode {terms terms' : TermStore} {e e' : Encoding} {returned : List (TermId × Lit)}
      {t : TermId} {result : Except IncrementalError Lit}
      (run : Encoded O config terms e returned) (built : Built terms terms')
      (boolean : terms'.IsBool t) (encoded : Smt.encode O terms' t e = some (result, e')) :
      Encoded O config terms' e' (returned ++ result.toOption.toList.map fun l => (t, l))
  | perform {terms : TermStore} {e : Encoding} {returned : List (TermId × Lit)}
      {operation : Satrap.Operation} {response : Response} {fuel : ℕ} {s' : Solver}
      (run : Encoded O config terms e returned)
      (query : ∀ assumptions limits, operation = .solveAssuming assumptions limits →
        config.Reversible)
      (performed : operation.perform O fuel e.solver = some (response, s')) :
      Encoded O config terms { e with solver := s' } returned

lemma EncodingOk.later (h : EncodingOk config terms e) (hl : terms.Later terms') :
    EncodingOk config terms' e where
  store := hl.after
  provided := h.provided
  definitional := h.definitional
  cached t l ht := by
    obtain ⟨hb, hlt, hs⟩ := h.cached t l ht
    refine ⟨hl.grown.isBool hb, hlt, fun ρ m hf hm => (hs ρ m hf hm).trans ?_⟩
    exact iff_of_eq (congrArg (· = true) (hl.before.evaluate_extends hl.after hl.grown t hb.lt).symm)
  truth := h.truth

lemma Encoding.Denotes.later (h : e.Denotes terms t l) (ht : terms.IsBool t)
    (hl : terms.Later terms') : e.Denotes terms' t l :=
  ⟨h.1, fun ρ m hf hm => (h.2 ρ m hf hm).trans
    (iff_of_eq (congrArg (· = true) (hl.before.evaluate_extends hl.after hl.grown t ht.lt).symm))⟩

lemma ok_of_toOption {result : Except IncrementalError Lit} (h : result.toOption = some l) :
    result = .ok l := by
  cases result with
  | error err => simp [Except.toOption] at h
  | ok q => rw [show q = l by simpa [Except.toOption] using h]

/-- **A run keeps the invariant**, and all returned literals have the values of their terms. -/
lemma Encoded.ok {returned : List (TermId × Lit)} (h : Encoded O config terms e returned) :
    EncodingOk config terms e ∧ ∀ p ∈ returned, terms.IsBool p.1 ∧ e.Denotes terms p.1 p.2 := by
  induction h with
  | start =>
    exact ⟨⟨ok_new, Solver.provided_withConfig config, .empty, by simp, by simp⟩, by simp⟩
  | encode _ built boolean encoded ih =>
    obtain ⟨hok, hret⟩ := ih
    have hl := built.later hok.store
    obtain ⟨hok', hext, hQ⟩ := encodeWithin_encodes _ _ _ boolean (hok.later hl) _ _ encoded
    refine ⟨hok', fun p hp => ?_⟩
    rcases List.mem_append.1 hp with hp | hp
    · obtain ⟨hb, hd⟩ := hret p hp
      exact ⟨hl.grown.isBool hb, (hd.later hb hl).mono hext⟩
    · obtain ⟨l, hl', rfl⟩ := List.mem_map.1 hp
      exact ⟨boolean, hQ l (ok_of_toOption (by simpa using hl'))⟩
  | @perform terms e returned operation response fuel s' _ query performed ih =>
    obtain ⟨hok, hret⟩ := ih
    obtain ⟨hinst, hcount⟩ := hok.provided.perform query performed
    have hext : e.Extends { e with solver := s' } := ⟨fun _ _ h => h, fun _ h => h, hcount⟩
    refine ⟨⟨hok.store, hinst, hok.definitional.mono fun v hv => ?_, fun t l ht => ?_, fun l hl => ?_⟩,
      fun p hp => (hret p hp).imp_right fun hd => hd.mono hext⟩
    · exact (Set.mem_setOf.1 hv).trans_le hcount
    · exact (hok.cached t l ht).imp_right fun hm => hm.mono hext
    · exact (hok.truth l hl).mono hext

lemma evaluateBool_eq {ρ : SymbolId → Bool} (ht : terms.IsBool t) :
    evaluateBool ρ t terms = (.ok (terms.evaluate ρ t), terms) := by
  obtain ⟨node, hn, hs⟩ := ht
  have hid : sortId t terms = (.ok boolSort, terms) := by
    show TermM.okOr _ ((terms.nodes[t]?).map TermNode.sort) terms = _
    rw [hn, Option.map_some, hs]
    rfl
  have hbool : requireBool t terms = (.ok (), terms) := by
    rw [requireBool, TermM.bind_ok hid, if_pos rfl]
    rfl
  rw [evaluateBool, TermM.bind_ok hbool]
  rfl

/-- The variable occurs in an encoding clause and stands for no atom. -/
def Encoding.Auxiliary (e : Encoding) (v : ℕ) : Prop :=
  (∃ c ∈ e.clauses, ∃ l ∈ c, l.var = v) ∧ ∀ a l, e.encoder.atomLiterals a = some l → l.var ≠ v

/-- The assignment gives the literals of the encoded atoms the given values and makes all
encoding clauses true. -/
def Encoding.Agrees (e : Encoding) (ρ : SymbolId → Bool) (m : ℕ → Bool) : Prop :=
  Follows e.encoder.atomLiterals ρ m ∧ AllSat m e.clauses

/-- **The encoding is a definitional extension** after every run: every assignment of the atoms
has exactly one extension to the auxiliary variables, under it the returned literals have the
values of their terms, and the active clauses of the solver still imply the encoding clauses,
whatever scopes have been closed. -/
theorem encoded_definitional {returned : List (TermId × Lit)}
    (h : Encoded O config terms e returned) :
    (∀ ρ, (∃ m, e.Agrees ρ m) ∧
      (∀ m m', e.Agrees ρ m → e.Agrees ρ m' → ∀ v, e.Auxiliary v → m v = m' v) ∧
      ∀ m, e.Agrees ρ m → ∀ t l, (t, l) ∈ returned →
        (l.Holds m ↔ evaluateBool ρ t terms = (.ok true, terms))) ∧
    (e.solver.consistent = true → ∀ m, Solver.Satisfies m e.solver → AllSat m e.clauses) := by
  obtain ⟨hok, hret⟩ := h.ok
  refine ⟨fun ρ => ⟨hok.definitional.extend ρ, ?_, ?_⟩, fun hcons m =>
    hok.provided.inForce hcons⟩
  · rintro m m' ⟨hf, hm⟩ ⟨hf', hm'⟩ v ⟨⟨c, hc, l, hl, rfl⟩, -⟩
    exact hok.definitional.determined ρ m m' hf hf' hm hm' c hc l hl
  · rintro m ⟨hf, hm⟩ t l hp
    obtain ⟨hb, hd⟩ := hret _ hp
    rw [hd.2 ρ m hf hm, evaluateBool_eq hb]
    simp

/-- Two atoms and their difference. -/
def xorStore : TermStore :=
  ((Operation.xor 2 3).run 1 ((Operation.freshTerm .bool).run 1
    ((Operation.freshTerm .bool).run 1 .new).2).2).2

/-- The difference is encoded inside a scope, which is then closed. -/
theorem encoded_definitional_xor : ∃ e, Encoded .quiet {} xorStore e [(4, ⟨3, true⟩)] ∧
    e.clauses.length = 4 ∧ e.solver.scopeSelectors = [] ∧
    ∀ ρ m, e.Agrees ρ m → (m 3 = true ↔ evaluateBool ρ 4 xorStore = (.ok true, xorStore)) := by
  have hperform : (Satrap.Operation.pushLevels 1).perform .quiet 0 (Solver.withConfig {}) =
      some (.done, ((Solver.withConfig {}).pushLevels .quiet 1).2) := rfl
  obtain ⟨s, hpush, hs⟩ : ∃ s, Encoded .quiet {} .new ⟨{}, s, []⟩ [] ∧
      s = ((Solver.withConfig {}).pushLevels .quiet 1).2 :=
    ⟨_, Encoded.start.perform (by simp) hperform, rfl⟩
  have hrun : (encode .quiet xorStore 4 ⟨{}, s, []⟩).map (fun r => (r.1.toOption,
      r.2.clauses.length,
      (Satrap.Operation.respond (r.2.solver.pop .quiet 1)).2.scopeSelectors)) =
      some (some ⟨3, true⟩, 4, []) := by
    rw [hs]
    decide +kernel
  obtain ⟨⟨result, e⟩, he, hr⟩ := Option.map_eq_some_iff.1 hrun
  simp only [Prod.mk.injEq] at hr
  obtain ⟨hr, hlen, hsel⟩ := hr
  have hbuilt : Built .new xorStore := .step 1 _ (.step 1 _ (.step 1 _ (.refl _)))
  have henc := hpush.encode hbuilt ⟨⟨boolSort, .xor 2 3⟩, by decide, rfl⟩ he
  rw [hr] at henc
  have hperform : (Satrap.Operation.pop 1).perform .quiet 0 e.solver =
      some ((Satrap.Operation.respond (e.solver.pop .quiet 1)).1,
        (Satrap.Operation.respond (e.solver.pop .quiet 1)).2) := rfl
  have hpop := henc.perform (by simp) hperform
  exact ⟨_, hpop, hlen, hsel, fun ρ m hm =>
    ((encoded_definitional hpop).1 ρ).2.2 m hm 4 ⟨3, true⟩ (by simp)⟩

end Smt

end Satrap
