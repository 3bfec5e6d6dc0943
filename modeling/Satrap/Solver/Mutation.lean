/-
# The mutating operations

What `add_clause`, `reserve_variables`, `push` and `pop` do to a valid solver: adding a clause
adds its guarded form, closing a scope adds the negation of its selector.  An operation that
fails changes nothing that matters.
-/
import Satrap.Solver.Validity

namespace Satrap

open Logic

namespace Solver

variable {P : Prop}
variable {Γ Δ : Set (List Lit)} {O : Oracle} {s s' : Solver} {c d : ClauseRef} {l q : Lit}
  {A literals : List Lit}

/-- What a mutation leaves alone. -/
structure Mutated (s s' : Solver) : Prop where
  config : s'.config = s.config
  started : s'.started = s.started
  scopeSelectors : s'.scopeSelectors = s.scopeSelectors
  count : s.externalVariableCount ≤ s'.externalVariableCount

namespace Mutated

lemma refl (s : Solver) : Mutated s s := ⟨rfl, rfl, rfl, le_rfl⟩

lemma trans {s₁ s₂ s₃ : Solver} (h : Mutated s₁ s₂) (h' : Mutated s₂ s₃) : Mutated s₁ s₃ :=
  ⟨h'.config.trans h.config, h'.started.trans h.started,
    h'.scopeSelectors.trans h.scopeSelectors, h.count.trans h'.count⟩

lemma of_added (h : Added s s') : Mutated s s' := by
  rw [Added] at h
  constructor <;> rw [h]

lemma prepare (O : Oracle) (s : Solver) : Mutated s (s.prepareIncrementalMutation O) := by
  have hsession : (if s.started then s.cancelUntil O 0 else s).toSession = s.toSession := by
    split
    · exact (cancelled_cancelUntil O s 0).session
    · rfl
  constructor <;> rw [prepareIncrementalMutation] <;> dsimp only <;> rw [hsession]

lemma growExternal (O : Oracle) {count : ℕ} (h : s.externalVariableCount ≤ count) :
    Mutated s (s.growExternal O count) := by
  obtain ⟨n, b, v, he, -, -⟩ := growVariables_eq O s count
  rw [Solver.growExternal, he]
  exact ⟨rfl, rfl, rfl, h⟩

end Mutated

lemma growExternal_count (O : Oracle) (s : Solver) (count : ℕ) :
    (s.growExternal O count).externalVariableCount = count := rfl

lemma lt_requiredVariables {l : Lit} (hl : l ∈ literals) : l.var < requiredVariables literals := by
  have hmono : ∀ (ls : List Lit) (n : ℕ), n ≤ ls.foldl (fun n l => max n (l.var + 1)) n := by
    intro ls
    induction ls with
    | nil => exact fun _ => le_rfl
    | cons q ls ih => exact fun n => (Nat.le_max_left _ _).trans (ih _)
  have hind : ∀ (ls : List Lit) (n : ℕ), l ∈ ls →
      l.var < ls.foldl (fun n l => max n (l.var + 1)) n := by
    intro ls
    induction ls with
    | nil => exact fun _ hl => absurd hl List.not_mem_nil
    | cons q ls ih =>
      intro n hl
      rcases List.mem_cons.1 hl with rfl | hl
      · exact (Nat.lt_of_lt_of_le (Nat.lt_succ_self _) (Nat.le_max_right n _)).trans_le (hmono _ _)
      · exact ih _ hl
  exact hind literals 0 hl

lemma prepare_count (O : Oracle) (s : Solver) :
    (s.prepareIncrementalMutation O).externalVariableCount = s.externalVariableCount := by
  rw [prepareIncrementalMutation]
  dsimp only
  split
  · exact congrArg Session.externalVariableCount (cancelled_cancelUntil O s 0).session
  · rfl

/-- **Adding a clause** adds its guarded form. -/
lemma addClauseInternal_spec (h : Valid P Γ s) (O : Oracle) (literals : List Lit) (guard : Bool)
    (kind : ProofClauseKind) :
    Mutated s (s.addClauseInternal O literals guard kind).2 ∧
      match (s.addClauseInternal O literals guard kind).1 with
      | .ok _ => Valid P (insert (s.guarded guard literals) Γ)
          (s.addClauseInternal O literals guard kind).2 ∧
          (s.addClauseInternal O literals guard kind).2.cachedResult = none
      | .error _ => Valid P Γ (s.addClauseInternal O literals guard kind).2 := by
  rw [addClauseInternal]
  split
  · exact ⟨.refl s, h⟩
  next hmut =>
  have hm := h.prepareIncrementalMutation O fun hb => hmut (by simp [hb.1, hb.2])
  have hp := Mutated.prepare O s
  have hguard : (s.prepareIncrementalMutation O).guarded guard literals =
      s.guarded guard literals := by
    rw [guarded, hp.scopeSelectors, guarded]
  dsimp only
  rw [hguard]
  generalize s.prepareIncrementalMutation O = s₁ at hm hp
  generalize s.guarded guard literals = ls
  split
  · exact ⟨hp, hm.toValid⟩
  obtain ⟨s₂, hs₂, hm₂, hp₂, hv₂⟩ : ∃ s₂, (if s₁.externalVariableCount < requiredVariables ls then
      s₁.growExternal O (requiredVariables ls) else s₁) = s₂ ∧ Mutable P Γ s₂ ∧ Mutated s₁ s₂ ∧
      ∀ l ∈ ls, l.var < s₂.externalVariableCount := by
    refine ⟨_, rfl, ?_⟩
    split
    · next hlt =>
      exact ⟨hm.growExternal O hlt.le, .growExternal O hlt.le, fun l hl => lt_requiredVariables hl⟩
    · next hlt => exact ⟨hm, .refl s₁, fun l hl => (lt_requiredVariables hl).trans_le (by omega)⟩
  rw [hs₂]
  obtain ⟨h1, h2, h3⟩ := addNormalized_spec hm₂ O kind hv₂
  exact ⟨(hp.trans hp₂).trans (.of_added h3), h1, h2⟩

lemma requiredVariables_le {n : ℕ} (h : ∀ l ∈ literals, l.var < n) :
    requiredVariables literals ≤ n := by
  have hind : ∀ (ls : List Lit) (k : ℕ), (∀ l ∈ ls, l.var < n) → k ≤ n →
      ls.foldl (fun n l => max n (l.var + 1)) k ≤ n := by
    intro ls
    induction ls with
    | nil => exact fun _ _ hk => hk
    | cons q ls ih =>
      intro k hls hk
      exact ih _ (fun l hl => hls l (List.mem_cons_of_mem q hl))
        (Nat.max_le.2 ⟨hk, hls q List.mem_cons_self⟩)
  exact hind literals 0 h (Nat.zero_le n)

/-- A clause over the known variables is taken unless preprocessing forbids it. -/
lemma addClauseInternal_ok (O : Oracle) {guard : Bool} (kind : ProofClauseKind)
    (hirr : s.irreversible = false)
    (hv : ∀ l ∈ s.guarded guard literals, l.var < s.externalVariableCount) :
    ∃ b, (s.addClauseInternal O literals guard kind).1 = .ok b := by
  have hp := Mutated.prepare O s
  have hguard : (s.prepareIncrementalMutation O).guarded guard literals =
      s.guarded guard literals := by
    rw [guarded, hp.scopeSelectors, guarded]
  have hle := requiredVariables_le hv
  rw [addClauseInternal, if_neg (by simp [hirr])]
  dsimp only
  rw [hguard, prepare_count, if_neg (by omega)]
  exact ⟨_, rfl⟩

/-- **Reserving variables** changes nothing for the clauses. -/
lemma tryReserveVariables_spec (h : Valid P Γ s) (O : Oracle) (count : ℕ) :
    Mutated s (s.tryReserveVariables O count).2 ∧ Valid P Γ (s.tryReserveVariables O count).2 := by
  rw [tryReserveVariables]
  split
  · exact ⟨.refl s, h⟩
  next hlt =>
  split
  · exact ⟨.refl s, h⟩
  split
  · exact ⟨.refl s, h⟩
  next hmut =>
  have hm := h.prepareIncrementalMutation O fun hb => hmut (by simp [hb.1, hb.2])
  have hp := Mutated.prepare O s
  have hle : (s.prepareIncrementalMutation O).externalVariableCount ≤ count := by
    rw [prepare_count]
    omega
  exact ⟨hp.trans (.growExternal O hle), (hm.growExternal O hle).toValid⟩

/-- The selectors of `levels` scopes opened when there are `first` variables. -/
def newSelectors (first levels : ℕ) : List Lit :=
  (List.range' first levels).map fun v => ⟨v, true⟩

lemma Valid.withSelectors (h : Valid P Γ s) (hc : s.cachedResult = none) (selectors : List Lit) :
    Valid P Γ { s with scopeSelectors := selectors } := by
  have ha : Alike s { s with scopeSelectors := selectors } :=
    ⟨rfl, rfl, rfl, rfl, rfl, rfl, rfl, rfl⟩
  exact ⟨h.count, h.vars, h.idle, h.fresh, h.records,
    fun hc => ⟨ha.resting (h.consistent hc).1, ha.complete (h.consistent hc).2⟩, h.refuted,
    h.cached, h.coreless, fun hr => by simp [hc] at hr⟩

/-- **Opening scopes** takes fresh variables as selectors. -/
lemma pushLevels_spec (h : Valid P Γ s) (O : Oracle) (levels : ℕ) :
    (∃ e, s.pushLevels O levels = (.error e, s)) ∨
      ∃ s', s.pushLevels O levels = (.ok (), s') ∧ Valid P Γ s' ∧
        s'.externalVariableCount = s.externalVariableCount + levels ∧
        s'.scopeSelectors = s.scopeSelectors ++ newSelectors s.externalVariableCount levels ∧
        s'.config = s.config ∧ s'.started = s.started := by
  rw [pushLevels]
  split
  · exact .inl ⟨_, rfl⟩
  next hcheck =>
  split
  · next h0 => exact .inr ⟨s, rfl, h, by simp [h0], by simp [h0, newSelectors], rfl, rfl⟩
  next h0 =>
  have hmut : ¬ (s.started = true ∧ s.irreversible = true) := by
    rintro ⟨-, hirr⟩
    rw [checkPushLevels, if_neg h0, if_pos hirr] at hcheck
    simp at hcheck
  have hm := h.prepareIncrementalMutation O hmut
  have hp := Mutated.prepare O s
  have hle : (s.prepareIncrementalMutation O).externalVariableCount ≤
      s.externalVariableCount + levels := by
    rw [prepare_count]
    omega
  have hm' := hm.growExternal O hle
  have hp' := Mutated.growExternal O hle
  refine .inr ⟨_, rfl, hm'.toValid.withSelectors hm'.uncached _, rfl, ?_, hp'.config.trans hp.config,
    hp'.started.trans hp.started⟩
  dsimp only
  rw [hp'.scopeSelectors, hp.scopeSelectors]
  rfl

/-- The clauses once the scopes with these selectors have been closed. -/
def closeScopes (Γ : Set (List Lit)) (selectors : List Lit) : Set (List Lit) :=
  Γ ∪ {c | ∃ l ∈ selectors, c = [-l]}

lemma closeScopes_insert (Γ : Set (List Lit)) (closed : List Lit) (l : Lit) :
    closeScopes (insert [-l] Γ) closed = closeScopes Γ (closed ++ [l]) := by
  ext c
  constructor
  · rintro ((rfl | hc) | ⟨q, hq, rfl⟩)
    · exact .inr ⟨l, by simp, rfl⟩
    · exact .inl hc
    · exact .inr ⟨q, by simp [hq], rfl⟩
  · rintro (hc | ⟨q, hq, rfl⟩)
    · exact .inl (.inr hc)
    · rcases List.mem_append.1 hq with hq | hq
      · exact .inr ⟨q, hq, rfl⟩
      · exact .inl (.inl (by rw [List.mem_singleton.1 hq]))

/-- Closing scopes drops the innermost selectors and asserts their negations. -/
lemma popScopes_spec (O : Oracle) (closed : List Lit) :
    ∀ (remaining : List Lit) (Γ : Set (List Lit)) (s : Solver),
    Valid P Γ s → s.cachedResult = none → s.irreversible = false →
    s.scopeSelectors = remaining ++ closed →
    (∀ l ∈ s.scopeSelectors, l.var < s.externalVariableCount) →
    ∃ s', s.popScopes O closed.length = (.ok (), s') ∧ Valid P (closeScopes Γ closed) s' ∧
      s'.scopeSelectors = remaining ∧ s'.config = s.config ∧ s'.started = s.started ∧
      s.externalVariableCount ≤ s'.externalVariableCount := by
  induction closed using List.reverseRecOn with
  | nil =>
    intro remaining Γ s h hcache hirr hsel hlt
    refine ⟨s, rfl, ?_, by simpa using hsel, rfl, rfl, le_rfl⟩
    simpa [closeScopes] using h
  | append_singleton closed l ih =>
    intro remaining Γ s h hcache hirr hsel hlt
    have hlast : s.scopeSelectors.getLast? = some l := by simp [hsel]
    have hdrop : s.scopeSelectors.dropLast = remaining ++ closed := by
      rw [hsel, ← List.append_assoc, List.dropLast_concat]
    have h₁ := h.withSelectors hcache (remaining ++ closed)
    have hlt₁ : ∀ q ∈ [-l], q.var < s.externalVariableCount := fun q hq => by
      rw [List.mem_singleton.1 hq]
      exact hlt l (by simp [hsel])
    obtain ⟨hm, hv⟩ := addClauseInternal_spec h₁ O [-l] false .administrative
    obtain ⟨b, hok⟩ : ∃ b, (Solver.addClauseInternal O [-l] false .administrative
        { s with scopeSelectors := remaining ++ closed }).1 = .ok b :=
      addClauseInternal_ok O .administrative hirr hlt₁
    rw [hok] at hv
    rw [List.length_append, List.length_singleton, popScopes, hlast]
    dsimp only
    rw [hdrop]
    generalize Solver.addClauseInternal O [-l] false .administrative
      { s with scopeSelectors := remaining ++ closed } = r at hm hv hok
    obtain ⟨e, s₁⟩ := r
    dsimp only at hm hv hok
    subst hok
    have hirr₁ : s₁.irreversible = false := by
      rw [irreversible, hm.config]
      exact hirr
    obtain ⟨s', he, hval, hs', hcfg, hst, hcount⟩ := ih remaining _ s₁ hv.1 hv.2 hirr₁ hm.scopeSelectors
      fun q hq => by
        rw [hm.scopeSelectors] at hq
        refine (hlt q ?_).trans_le hm.count
        rw [hsel, ← List.append_assoc]
        exact List.mem_append_left [l] hq
    refine ⟨s', he, ?_, hs', hcfg.trans hm.config, hst.trans hm.started, hm.count.trans hcount⟩
    have hval' : Valid P (closeScopes (insert [-l] Γ) closed) s' := hval
    rwa [closeScopes_insert] at hval'

/-- **Closing scopes** drops the innermost selectors and asserts their negations. -/
lemma pop_spec (h : Valid P Γ s) (O : Oracle) (levels : ℕ)
    (hlt : ∀ l ∈ s.scopeSelectors, l.var < s.externalVariableCount) :
    (∃ e, s.pop O levels = (.error e, s)) ∨
      ∃ s', s.pop O levels = (.ok (), s') ∧ levels ≤ s.scopeSelectors.length ∧
        Valid P (closeScopes Γ (s.scopeSelectors.drop (s.scopeSelectors.length - levels))) s' ∧
        s'.scopeSelectors = s.scopeSelectors.take (s.scopeSelectors.length - levels) ∧
        s'.config = s.config ∧ s'.started = s.started ∧
        s.externalVariableCount ≤ s'.externalVariableCount := by
  rw [pop]
  split
  · exact .inl ⟨_, rfl⟩
  next hle =>
  split
  · next h0 =>
    subst h0
    refine .inr ⟨s, rfl, Nat.zero_le _, ?_, by simp, rfl, rfl, le_rfl⟩
    simpa [closeScopes] using h
  split
  · exact .inl ⟨_, rfl⟩
  next h0 hirr =>
  have hm := h.prepareIncrementalMutation O fun hb => hirr hb.2
  have hp := Mutated.prepare O s
  have hlen : (s.scopeSelectors.drop (s.scopeSelectors.length - levels)).length = levels := by
    rw [List.length_drop]
    omega
  obtain ⟨s', he, hval, hs', hcfg, hst, hcount⟩ := popScopes_spec O
    (s.scopeSelectors.drop (s.scopeSelectors.length - levels))
    (s.scopeSelectors.take (s.scopeSelectors.length - levels)) Γ (s.prepareIncrementalMutation O)
    hm.toValid hm.uncached (by rw [irreversible, hp.config]; simpa [irreversible] using hirr)
    (by rw [hp.scopeSelectors, List.take_append_drop])
    (by rw [hp.scopeSelectors, prepare_count]; exact hlt)
  rw [hlen] at he
  exact .inr ⟨s', he, by omega, hval, hs', hcfg.trans hp.config, hst.trans hp.started,
    hp.count.trans hcount⟩

end Solver

end Satrap
