/-
# Rollback

`rollback` undoes every table entry after entry.  It never panics on a store that has grown from
the one of the checkpoint, and gives back that store exactly.
-/
import Satrap.Smt.Store

namespace Satrap.Smt

open Logic TermStore TermM

variable {s s' : TermStore}

/-! ### Unwinding a table -/

/-- Popping the entries above a length keeps what holds of a table and its index. -/
lemma unwind_of_pop {α σ : Type} (undo : α → σ → Option σ) (Inv : List α → σ → Prop)
    (hpop : ∀ table a index, Inv (table ++ [a]) index → ∃ index', undo a index = some index' ∧
      Inv table index') {table table' : List α} (hp : table <+: table') {index : σ}
    (h : Inv table' index) :
    ∃ index', unwind undo table' table.length index = some index' ∧ Inv table index' := by
  obtain ⟨suffix, rfl⟩ := hp
  rw [unwind, List.drop_left]
  exact foldlM_reverse_pop (fun index a => undo a index) Inv hpop table suffix index h

lemma removeKey_of_some {κ ν : Type} [DecidableEq κ] {key : κ} {index : κ → Option ν} {value : ν}
    (h : index key = some value) : removeKey key index = some (Function.update index key none) := by
  rw [removeKey, h, Option.isSome_some, if_pos rfl]

/-- The keys of the popped entries are removed. -/
lemma unwind_removeKey {α κ ν : Type} [DecidableEq κ] (key : α → κ)
    (entries : List α → List (κ × ν))
    (hentries : ∀ table a, ∃ value, entries (table ++ [a]) = entries table ++ [(key a, value)])
    {table table' : List α} (hp : table <+: table') {index index' : κ → Option ν}
    (h' : Indexes index' (entries table')) (h : Indexes index (entries table)) :
    unwind (fun a => removeKey (key a)) table' table.length index' = some index := by
  obtain ⟨index'', hunwind, hindex⟩ := unwind_of_pop (fun a => removeKey (key a))
    (fun table index => Indexes index (entries table)) (fun table a index hi => by
      obtain ⟨value, he⟩ := hentries table a
      rw [he] at hi
      obtain ⟨hpopped, hkey⟩ := hi.pop
      exact ⟨_, removeKey_of_some hkey, hpopped⟩) hp h'
  rw [hunwind, hindex.eq, h.eq]

lemma entries_positions {κ : Type} (table : List κ) (a : κ) :
    ∃ value, positions (table ++ [a]) = positions table ++ [(a, value)] :=
  ⟨_, positions_append table a⟩

/-! ### The reads of arrays -/

lemma readsOf_append (log : List (TermId × TermId)) (entry : TermId × TermId) :
    readsOf (log ++ [entry]) =
      Function.update (readsOf log) entry.1 (some (((readsOf log entry.1).getD []) ++ [entry.2])) := by
  funext array
  rw [readsOf, List.filter_append, List.map_append]
  by_cases ha : array = entry.1
  · subst ha
    rw [Function.update_self]
    have hone : ([entry].filter fun e => decide (e.1 = entry.1)).map Prod.snd = [entry.2] := by simp
    rw [hone, readsOf]
    split
    · next heq => simp at heq
    · cases (log.filter fun e => decide (e.1 = entry.1)).map Prod.snd <;> rfl
  · have hnone : ([entry].filter fun e => decide (e.1 = array)).map Prod.snd = [] := by
      simp [Ne.symm ha]
    rw [Function.update_of_ne ha, hnone, List.append_nil]
    rfl

lemma readsOf_ne_nil {log : List (TermId × TermId)} {array : TermId} :
    readsOf log array ≠ some [] := by
  rw [readsOf]
  split
  · simp
  · next heq => simpa using heq

lemma undoRead_append (log : List (TermId × TermId)) (entry : TermId × TermId) :
    undoRead entry (readsOf (log ++ [entry])) = some (readsOf log) := by
  rw [undoRead, readsOf_append, Function.update_self]
  dsimp only
  rw [List.getLast?_concat, if_neg (by simp), List.dropLast_concat]
  cases hr : readsOf log entry.1 with
  | none =>
    rw [Option.getD_none, if_pos List.isEmpty_nil, ← hr, Function.update_idem,
      Function.update_eq_self]
  | some indices =>
    have hne : ¬ indices.isEmpty = true := by
      rw [List.isEmpty_iff]
      rintro rfl
      exact readsOf_ne_nil hr
    rw [Option.getD_some, if_neg hne, ← hr, Function.update_idem, Function.update_eq_self]

/-! ### The maps of the applications -/

/-- What holds of the applications and their maps. -/
structure ApplicationsIndexed (s : TermStore) (applications : List Application)
    (maps : ApplicationMaps) : Prop where
  results : Indexes maps.1 (applications.map applicationEntry)
  byResult : Indexes maps.2.1 (positions (applications.map Application.result))
  byBit : Indexes maps.2.2 (applications.flatMap s.bitEntries)

/-- The keys of a block of entries are removed one by one. -/
lemma removeKeys {κ ν : Type} [DecidableEq κ] {entries : List (κ × ν)} : ∀ (block : List (κ × ν))
    (index : κ → Option ν), Indexes index (entries ++ block) → ∃ index',
      (block.map Prod.fst).foldlM (fun index key => removeKey key index) index = some index' ∧
        Indexes index' entries
  | [], index, h => ⟨index, rfl, by simpa using h⟩
  | entry :: block, index, h => by
    obtain ⟨hkey, hrest⟩ := h.remove
    obtain ⟨index', hfold, hindex⟩ := removeKeys block _ hrest
    refine ⟨index', ?_, hindex⟩
    rw [List.map_cons, List.foldlM_cons, removeKey_of_some hkey]
    exact hfold

lemma undoBits_append (h : s.Ok) {applications : List Application} {a : Application}
    {byBit : TermId → Option (TermId × ℕ)}
    (hi : Indexes byBit ((applications ++ [a]).flatMap s.bitEntries)) :
    ∃ byBit', s.undoBits a.result byBit = some byBit' ∧
      Indexes byBit' (applications.flatMap s.bitEntries) := by
  rw [List.flatMap_append, List.flatMap_singleton] at hi
  rw [undoBits]
  split
  · next width hs =>
    obtain ⟨bits, hb, -⟩ := bits_of_sort h hs
    have hentries : s.bitEntries a = bits.zipIdx.map fun e => (e.1, a.result, e.2) := by
      rw [bitEntries, hs, hb]
      rfl
    obtain ⟨byBit', hfold, hindex⟩ := removeKeys _ _ hi
    refine ⟨byBit', ?_, hindex⟩
    have hkeys : (s.bitEntries a).map Prod.fst = bits := by
      rw [hentries, List.map_map]
      exact List.zipIdx_map_fst 0 bits
    rw [hb]
    rw [hkeys] at hfold
    exact hfold
  · next hs =>
    have hentries : s.bitEntries a = [] := by
      rw [bitEntries]
      split
      · next width hw => exact absurd hw (hs width)
      · rfl
    rw [hentries, List.append_nil] at hi
    exact ⟨byBit, rfl, hi⟩

lemma undoApplication_append (h : s.Ok) {applications : List Application} {a : Application}
    {maps : ApplicationMaps} (hi : ApplicationsIndexed s (applications ++ [a]) maps) :
    ∃ maps', s.undoApplication a maps = some maps' ∧ ApplicationsIndexed s applications maps' := by
  obtain ⟨hresults, hbyResult, hbyBit⟩ := hi
  obtain ⟨byBit', hundo, hbyBit'⟩ := undoBits_append h hbyBit
  rw [List.map_append, List.map_singleton] at hresults hbyResult
  rw [positions_append] at hbyResult
  obtain ⟨hresults', hkey⟩ := hresults.pop
  obtain ⟨hbyResult', hkey'⟩ := hbyResult.pop
  refine ⟨(Function.update maps.1 (a.function, a.arguments) none,
    Function.update maps.2.1 a.result none, byBit'), ?_, ⟨hresults', hbyResult', hbyBit'⟩⟩
  rw [undoApplication, hundo]
  have hne : ¬ maps.1 (a.function, a.arguments) ≠ some a.result := not_not.2 hkey
  change (if maps.1 (a.function, a.arguments) ≠ some a.result then none
    else removeKey a.result maps.2.1 >>= fun byResult =>
      some (Function.update maps.1 (a.function, a.arguments) none, byResult, byBit')) = _
  rw [if_neg hne, removeKey_of_some hkey']
  rfl

/-! ### The whole store -/

section

variable (h : s.Ok) (h' : s'.Ok) (he : s.Extends s')
include h h' he

lemma unwind_applications :
    unwind s'.undoApplication s'.applications s.applications.length
      (s'.applicationResults, s'.applicationByResult, s'.applicationByBit) =
      some (s.applicationResults, s.applicationByResult, s.applicationByBit) := by
  have hi : ApplicationsIndexed s' s'.applications
      (s'.applicationResults, s'.applicationByResult, s'.applicationByBit) :=
    ⟨h'.results, h'.byResult, h'.byBit⟩
  obtain ⟨⟨results, byResult, byBit⟩, hunwind, hr, hbr, hbb⟩ := unwind_of_pop s'.undoApplication
    (ApplicationsIndexed s') (fun table a maps hi => undoApplication_append h' hi) he.applications hi
  have hbits : s.applications.flatMap s'.bitEntries = s.applications.flatMap s.bitEntries :=
    List.flatMap_congr fun a ha => h.bitEntries_extends he (h.applications a ha).live
  rw [hbits] at hbb
  rw [hunwind, Option.some.injEq, Prod.mk.injEq, Prod.mk.injEq]
  exact ⟨hr.eq.trans h.results.eq.symm, hbr.eq.trans h.byResult.eq.symm,
    hbb.eq.trans h.byBit.eq.symm⟩

lemma unwind_ites :
    unwind s'.undoArithmeticIte s'.arithmeticItes s.arithmeticItes.length s'.arithmeticIteTerms =
      some s.arithmeticIteTerms := by
  obtain ⟨index, hunwind, hi, -⟩ := unwind_of_pop s'.undoArithmeticIte
    (fun table index => Indexes index (table.map s'.iteEntry) ∧
      ∀ item ∈ table, item.result < s'.nodes.length)
    (fun table item index hi => by
      obtain ⟨hindex, hlive⟩ := hi
      rw [List.map_append] at hindex
      obtain ⟨hpopped, hkey⟩ := hindex.pop
      have hitem := hlive item (by simp)
      refine ⟨Function.update index (s'.iteEntry item).1 none, ?_, hpopped,
        fun i hi => hlive i (by simp [hi])⟩
      have hsort : s'.sort? item.result = some ((s'.sort? item.result).getD .bool) := by
        rw [sort?, List.getElem?_eq_getElem hitem]
        rfl
      rw [undoArithmeticIte, hsort]
      exact removeKey_of_some hkey) he.arithmeticItes ⟨h'.ites, h'.ites_live⟩
  have hentries : s.arithmeticItes.map s'.iteEntry = s.arithmeticItes.map s.iteEntry :=
    List.map_congr_left fun item hitem => h.iteEntry_extends he (h.ites_live item hitem)
  rw [hentries] at hi
  rw [hunwind, hi.eq, h.ites.eq]

lemma unwind_equalities :
    unwind (fun equality : TheoryEquality =>
      removeKey (orderedPair equality.left equality.right)) s'.theoryEqualities
      s.theoryEqualities.length s'.theoryEqualityTerms = some s.theoryEqualityTerms := by
  obtain ⟨index, hunwind, hi, -⟩ := unwind_of_pop
    (fun e : TheoryEquality => removeKey (orderedPair e.left e.right))
    (fun table index => Indexes index (table.map equalityEntry) ∧ ∀ e ∈ table, e.left ≤ e.right)
    (fun table e index hi => by
      obtain ⟨hindex, hordered⟩ := hi
      rw [List.map_append] at hindex
      obtain ⟨hpopped, hkey⟩ := hindex.pop
      refine ⟨Function.update index (equalityEntry e).1 none, ?_, hpopped,
        fun e' he' => hordered e' (by simp [he'])⟩
      rw [orderedPair, if_pos (hordered e (by simp))]
      exact removeKey_of_some hkey) he.theoryEqualities ⟨h'.equalities, h'.ordered⟩
  rw [hunwind, hi.eq, h.equalities.eq]

end

/-- Rolling back to a store that has only grown gives back that store. -/
theorem rollback_eq (h : s.Ok) (h' : s'.Ok) (he : s.Extends s') :
    s'.rollback s.checkpoint = some s := by
  have hreads : unwind undoRead s'.arrayReadLog s.checkpoint.arrayReadLog s'.arrayReads =
      some s.arrayReads := by
    obtain ⟨reads, hunwind, hr⟩ := unwind_of_pop undoRead (fun log reads => reads = readsOf log)
      (fun log entry reads hr => ⟨_, hr ▸ undoRead_append log entry, rfl⟩) he.arrayReadLog h'.reads
    exact hunwind.trans (by rw [hr, h.reads])
  have hselects : unwind removeKey s'.arraySemanticSelectLog s.checkpoint.arraySemanticSelectLog
      s'.arraySemanticSelects = some s.arraySemanticSelects :=
    unwind_removeKey id _ (fun table t => ⟨(), List.map_append⟩) he.arraySemanticSelectLog
      h'.selects h.selects
  have harrays : unwind (fun signature : ArraySignature =>
      removeKey (signature.index, signature.element)) s'.arraySorts s.checkpoint.arraySorts
      s'.arraySortIds = some s.arraySortIds :=
    unwind_removeKey signatureKey (fun table => positions (table.map signatureKey))
      (fun table a => ⟨_, by rw [List.map_append]; exact positions_append _ _⟩)
      he.arraySorts h'.arraySortIds h.arraySortIds
  have hites : unwind s'.undoArithmeticIte s'.arithmeticItes s.checkpoint.arithmeticItes
      s'.arithmeticIteTerms = some s.arithmeticIteTerms := unwind_ites h h' he
  have hpredicates : unwind (fun predicate : ArithmeticPredicate =>
      removeKey (predicate.expression, predicate.strict)) s'.arithmeticPredicates
      s.checkpoint.arithmeticPredicates s'.arithmeticPredicateTerms =
      some s.arithmeticPredicateTerms :=
    unwind_removeKey (fun p : ArithmeticPredicate => (p.expression, p.strict)) _
      (fun table p => ⟨p.term, List.map_append⟩) he.arithmeticPredicates h'.predicates h.predicates
  have hexpressions : unwind removeKey s'.arithmeticExpressions s.checkpoint.arithmeticExpressions
      s'.arithmeticExpressionIds = some s.arithmeticExpressionIds :=
    unwind_removeKey id _ entries_positions he.arithmeticExpressions h'.expressionIds
      h.expressionIds
  have hequalities : unwind (fun equality : TheoryEquality =>
      removeKey (orderedPair equality.left equality.right)) s'.theoryEqualities
      s.checkpoint.theoryEqualities s'.theoryEqualityTerms = some s.theoryEqualityTerms :=
    unwind_equalities h h' he
  have happlications : unwind s'.undoApplication s'.applications s.checkpoint.applications
      (s'.applicationResults, s'.applicationByResult, s'.applicationByBit) =
      some (s.applicationResults, s.applicationByResult, s.applicationByBit) :=
    unwind_applications h h' he
  have hnodes : unwind removeKey s'.nodes s.checkpoint.nodes s'.interned = some s.interned :=
    unwind_removeKey id _ entries_positions he.nodes h'.interned h.interned
  have hsorts : unwind removeKey s'.sorts s.checkpoint.sorts s'.sortIds = some s.sortIds :=
    unwind_removeKey id _ entries_positions he.sorts h'.sortIds h.sortIds
  rw [rollback, hreads, Option.bind_eq_bind, Option.bind_some, hselects, Option.bind_eq_bind,
    Option.bind_some, harrays, Option.bind_eq_bind, Option.bind_some, hites, Option.bind_eq_bind,
    Option.bind_some, hpredicates, Option.bind_eq_bind, Option.bind_some, hexpressions,
    Option.bind_eq_bind, Option.bind_some, hequalities, Option.bind_eq_bind, Option.bind_some,
    happlications, Option.bind_eq_bind, Option.bind_some]
  dsimp only
  rw [hnodes, Option.bind_eq_bind, Option.bind_some, hsorts, Option.bind_eq_bind, Option.bind_some]
  have htake : ∀ {α : Type} {table table' : List α}, table <+: table' →
      table'.take table.length = table := by
    rintro α table table' ⟨suffix, rfl⟩
    exact List.take_left
  simp only [checkpoint, htake he.nodes, htake he.sorts, htake he.functions,
    htake he.applications, htake he.theoryEqualities, htake he.ufItes,
    htake he.arithmeticExpressions, htake he.arithmeticVariableSorts,
    htake he.arithmeticPredicates, htake he.arithmeticItes, htake he.arraySorts,
    htake he.arrayAxioms, htake he.arraySemanticSelectLog, htake he.arrayReadLog]

end Satrap.Smt
