/-
# The clause database invariant

`ClauseDb.Ok` says that the stored clauses are proper (at least two literals, no variable
twice) and that the watch lists and the first two literals of the clauses describe each
other.  The lemmas after it follow the four things the solver does to the database: it adds
a clause, deletes one, swaps literals of one, and moves a watch.
-/
import Satrap.Solver.State

namespace Satrap

open Logic

namespace ClauseDb

variable {db db' : ClauseDb} {n : ℕ} {E : Set ℕ} {c d : ClauseRef} {l f : Lit}

/-- The stored clause takes part in propagation and elimination. -/
def Active (db : ClauseDb) (c : ClauseRef) : Prop :=
  db.Allocated c ∧ (db.clause c).deleted = false

/-- A stored clause as given or derived by a root pass. -/
def Original (db : ClauseDb) (c : ClauseRef) : Prop :=
  db.Active c ∧ (db.clause c).learned = false

/-- The two watched literals of a clause. -/
def watched (db : ClauseDb) (c : ClauseRef) : List Lit := (db.clause c).literals.take 2

/-- The database of a solver with `n` variables, of which those in `E` have been eliminated. -/
structure Ok (db : ClauseDb) (n : ℕ) (E : Set ℕ) : Prop where
  length : ∀ c, db.Allocated c → 2 ≤ (db.clause c).literals.length ∧
    (c.isBinary = true ↔ (db.clause c).literals.length = 2)
  nodup : ∀ c, db.Allocated c → ((db.clause c).literals.map Literal.var).Nodup
  lt : ∀ c, db.Allocated c → ∀ l ∈ (db.clause c).literals, l.var < n
  avoid : ∀ c, db.Allocated c → (db.clause c).deleted = false ∨ (db.clause c).learned = true →
    ∀ l ∈ (db.clause c).literals, l.var ∉ E
  sound : ∀ l, ∀ w ∈ db.watches l, db.Allocated w.clause ∧
    ((db.clause w.clause).deleted = false →
      l ∈ db.watched w.clause ∧ w.blocker ∈ (db.clause w.clause).literals ∧ w.blocker ≠ l)
  complete : ∀ c, db.Active c → ∀ l ∈ db.watched c, ∃ w ∈ db.watches l, w.clause = c
  once : ∀ l, ((db.watches l).map Watch.clause).Nodup
  shadow : ∀ i, db.shadowStates i ≠ .active → i < db.longCount ∧ (db.clause (.long i)).learned
  observed : ∀ i ∈ db.shadowClauses, i < db.longCount ∧ (db.clause (.long i)).learned

lemma mem_clauseReferences : c ∈ db.clauseReferences ↔ db.Allocated c := by
  cases c <;> simp [clauseReferences, Allocated]

namespace Ok

variable (h : db.Ok n E)
include h

lemma exists_eq (hc : db.Allocated c) :
    ∃ first second rest, (db.clause c).literals = first :: second :: rest ∧
      first.var ≠ second.var := by
  have hlen := (h.length c hc).1
  match hl : (db.clause c).literals with
  | [] => simp [hl] at hlen
  | [_] => simp [hl] at hlen
  | first :: second :: rest =>
    have hnd := h.nodup c hc
    rw [hl] at hnd
    simp only [List.map_cons, List.nodup_cons, List.mem_cons, not_or] at hnd
    exact ⟨first, second, rest, rfl, hnd.1.1⟩

lemma var_inj (hc : db.Allocated c) {p q : Lit} (hp : p ∈ (db.clause c).literals)
    (hq : q ∈ (db.clause c).literals) (hv : p.var = q.var) : p = q :=
  List.inj_on_of_nodup_map (h.nodup c hc) hp hq hv

end Ok

/-! ### Adding a clause -/

lemma not_allocated_next (db : ClauseDb) (literals : List Lit) :
    ¬ db.Allocated (db.nextReference literals) := by
  rw [nextReference]
  split <;> simp [Allocated]

/-- The database after a clause has been stored and attached. -/
def add (db : ClauseDb) (literals : List Lit) (learned : Bool) : ClauseDb :=
  (db.allocate literals learned).attach (db.nextReference literals)

section Add

variable {literals : List Lit} {learned : Bool}

@[simp] lemma attach_clause (db : ClauseDb) (c : ClauseRef) : (db.attach c).clause = db.clause := by
  rw [attach]; split <;> rfl

@[simp] lemma attach_longCount (db : ClauseDb) (c : ClauseRef) :
    (db.attach c).longCount = db.longCount := by rw [attach]; split <;> rfl

@[simp] lemma attach_binaryCount (db : ClauseDb) (c : ClauseRef) :
    (db.attach c).binaryCount = db.binaryCount := by rw [attach]; split <;> rfl

@[simp] lemma attach_shadowStates (db : ClauseDb) (c : ClauseRef) :
    (db.attach c).shadowStates = db.shadowStates := by rw [attach]; split <;> rfl

@[simp] lemma attach_shadowClauses (db : ClauseDb) (c : ClauseRef) :
    (db.attach c).shadowClauses = db.shadowClauses := by rw [attach]; split <;> rfl

lemma add_clause : (db.add literals learned).clause =
    Function.update db.clause (db.nextReference literals) ⟨literals, learned, false⟩ := by
  rw [add, attach_clause]
  rfl

@[simp] lemma add_shadowStates : (db.add literals learned).shadowStates = db.shadowStates := by
  rw [add, attach_shadowStates]
  rfl

@[simp] lemma add_shadowClauses :
    (db.add literals learned).shadowClauses = db.shadowClauses := by
  rw [add, attach_shadowClauses]
  rfl

lemma allocated_add : (db.add literals learned).Allocated c ↔
    db.Allocated c ∨ c = db.nextReference literals := by
  by_cases hlen : literals.length = 2 <;> cases c <;>
    simp only [add, Allocated, attach_longCount, attach_binaryCount, allocate, nextReference, hlen,
      if_true, if_false, reduceCtorEq, or_false, ClauseRef.long.injEq,
      ClauseRef.binary.injEq] <;> omega

lemma add_clause_of_allocated (hc : db.Allocated c) :
    (db.add literals learned).clause c = db.clause c := by
  rw [add_clause, Function.update_of_ne]
  rintro rfl
  exact not_allocated_next _ _ hc

lemma add_clause_next : (db.add literals learned).clause (db.nextReference literals) =
    ⟨literals, learned, false⟩ := by
  rw [add_clause, Function.update_self]

lemma add_watches {first second : Lit} {rest : List Lit} (hne : first ≠ second) :
    (db.add (first :: second :: rest) learned).watches l =
      db.watches l ++
        (if l = first then [⟨db.nextReference (first :: second :: rest), second⟩]
        else if l = second then [⟨db.nextReference (first :: second :: rest), first⟩]
        else []) := by
  simp only [add, attach, allocate, Function.update_self, pushWatch, Function.update_apply]
  grind

lemma active_add : (db.add literals learned).Active c ↔
    db.Active c ∨ c = db.nextReference literals := by
  simp only [Active, allocated_add]
  constructor
  · rintro ⟨hc | rfl, hd⟩
    · rw [add_clause_of_allocated hc] at hd
      exact .inl ⟨hc, hd⟩
    · exact .inr rfl
  · rintro (⟨hc, hd⟩ | rfl)
    · exact ⟨.inl hc, by rw [add_clause_of_allocated hc]; exact hd⟩
    · exact ⟨.inr rfl, by rw [add_clause_next]⟩

lemma Ok.add (h : db.Ok n E) (hlen : 2 ≤ literals.length)
    (hnodup : (literals.map Literal.var).Nodup) (hlt : ∀ l ∈ literals, l.var < n)
    (havoid : ∀ l ∈ literals, l.var ∉ E) : (db.add literals learned).Ok n E := by
  obtain ⟨first, second, rest, rfl⟩ : ∃ first second rest,
      literals = first :: second :: rest := by
    match literals, hlen with
    | first :: second :: rest, _ => exact ⟨first, second, rest, rfl⟩
  have hne : first ≠ second := by
    rintro rfl
    simp at hnodup
  set new := db.nextReference (first :: second :: rest) with hnew
  have hfresh : ¬ db.Allocated new := not_allocated_next _ _
  have hold : ∀ c, db.Allocated c →
      (db.add (first :: second :: rest) learned).clause c = db.clause c :=
    fun c hc => add_clause_of_allocated hc
  have hself : (db.add (first :: second :: rest) learned).clause new =
      ⟨first :: second :: rest, learned, false⟩ := add_clause_next
  refine ⟨?_, ?_, ?_, ?_, ?_, ?_, ?_, ?_, ?_⟩
  · intro c hc
    rcases allocated_add.1 hc with hc | rfl
    · rw [hold c hc]
      exact h.length c hc
    · rw [← hnew, hself]
      refine ⟨hlen, ?_⟩
      rw [hnew, nextReference]
      split <;> simp_all [ClauseRef.isBinary]
  · intro c hc
    rcases allocated_add.1 hc with hc | rfl
    · rw [hold c hc]
      exact h.nodup c hc
    · rwa [← hnew, hself]
  · intro c hc
    rcases allocated_add.1 hc with hc | rfl
    · rw [hold c hc]
      exact h.lt c hc
    · rwa [← hnew, hself]
  · intro c hc
    rcases allocated_add.1 hc with hc | rfl
    · rw [hold c hc]
      exact h.avoid c hc
    · rw [← hnew, hself]
      exact fun _ => havoid
  · intro l w hw
    rw [add_watches hne, List.mem_append] at hw
    rcases hw with hw | hw
    · obtain ⟨hw1, hw2⟩ := h.sound l w hw
      rw [watched, hold _ hw1]
      exact ⟨allocated_add.2 (.inl hw1), hw2⟩
    · have hcase : (l = first ∧ w = ⟨new, second⟩) ∨ (l = second ∧ w = ⟨new, first⟩) := by
        split_ifs at hw <;> simp_all
      rcases hcase with ⟨rfl, rfl⟩ | ⟨rfl, rfl⟩ <;>
        refine ⟨allocated_add.2 (.inr rfl), fun _ => ?_⟩ <;>
        simp [watched, hself, hne, Ne.symm hne]
  · intro c hc l hl
    simp only [add_watches hne]
    rcases active_add.1 hc with hc | rfl
    · rw [watched, hold c hc.1] at hl
      obtain ⟨w, hw, he⟩ := h.complete c hc l hl
      exact ⟨w, List.mem_append_left _ hw, he⟩
    · rw [watched, ← hnew, hself] at hl
      simp only [List.take_succ_cons, List.take_zero, List.mem_cons, List.not_mem_nil,
        or_false] at hl
      rcases hl with rfl | rfl
      · exact ⟨⟨new, second⟩, by simp [hnew], rfl⟩
      · exact ⟨⟨new, first⟩, by simp [hnew, Ne.symm hne], rfl⟩
  · intro l
    rw [add_watches hne, List.map_append]
    refine List.nodup_append.2 ⟨h.once l, by split_ifs <;> simp, ?_⟩
    intro c hc d hd
    have hd' : d = new := by split_ifs at hd <;> simp_all
    obtain ⟨w, hw, rfl⟩ := List.mem_map.1 hc
    rintro rfl
    exact hfresh (hd' ▸ (h.sound l w hw).1)
  · intro i hi
    rw [add_shadowStates] at hi
    obtain ⟨h1, h2⟩ := h.shadow i hi
    rw [hold (.long i) h1]
    exact ⟨(allocated_add (c := .long i)).2 (.inl h1), h2⟩
  · intro i hi
    rw [add_shadowClauses] at hi
    obtain ⟨h1, h2⟩ := h.observed i hi
    rw [hold (.long i) h1]
    exact ⟨(allocated_add (c := .long i)).2 (.inl h1), h2⟩

end Add

/-! ### Changing a clause or a watch list -/

lemma Ok.mono (h : db.Ok n E) {m : ℕ} (hm : n ≤ m) : db.Ok m E :=
  { h with lt := fun c hc l hl => (h.lt c hc l hl).trans_le hm }

lemma delete_clause : (db.delete c).clause d =
    if d = c then { db.clause c with deleted := true } else db.clause d := by
  rw [delete]
  exact Function.update_apply _ _ _ _

lemma active_delete : (db.delete c).Active d ↔ db.Active d ∧ d ≠ c := by
  simp only [Active, delete_clause]
  have : (db.delete c).Allocated d ↔ db.Allocated d := by cases d <;> rfl
  rw [this]
  split <;> simp_all

@[simp] lemma delete_literals : ((db.delete c).clause d).literals = (db.clause d).literals := by
  rw [delete_clause]
  split <;> simp_all

@[simp] lemma delete_learned : ((db.delete c).clause d).learned = (db.clause d).learned := by
  rw [delete_clause]
  split <;> simp_all

@[simp] lemma allocated_delete : (db.delete c).Allocated d ↔ db.Allocated d := by
  cases d <;> rfl

lemma deleted_delete (hd : ((db.delete c).clause d).deleted = false) :
    (db.clause d).deleted = false := by
  rw [delete_clause] at hd
  split at hd <;> simp_all

lemma Ok.delete (h : db.Ok n E) (c : ClauseRef) : (db.delete c).Ok n E where
  length d hd := by simpa using h.length d (by simpa using hd)
  nodup d hd := by simpa using h.nodup d (by simpa using hd)
  lt d hd := by simpa using h.lt d (by simpa using hd)
  avoid d hd hdl := by
    rw [delete_literals]
    refine h.avoid d (allocated_delete.1 hd) (hdl.imp deleted_delete fun hl => ?_)
    rwa [delete_learned] at hl
  sound l w hw := by
    obtain ⟨h1, h2⟩ := h.sound l w hw
    refine ⟨by simpa using h1, fun hd => ?_⟩
    simpa [watched] using h2 (deleted_delete hd)
  complete d hd l hl :=
    h.complete d (active_delete.1 hd).1 l (by simpa [watched] using hl)
  once := h.once
  shadow i hi := ⟨(h.shadow i hi).1, by simpa using (h.shadow i hi).2⟩
  observed i hi := ⟨(h.observed i hi).1, by simpa using (h.observed i hi).2⟩

/-- Two databases with the same clauses up to the order of their literals. -/
structure Same (db db' : ClauseDb) : Prop where
  longCount : db'.longCount = db.longCount
  binaryCount : db'.binaryCount = db.binaryCount
  literals : ∀ c, (db'.clause c).literals.Perm (db.clause c).literals
  learned : ∀ c, (db'.clause c).learned = (db.clause c).learned
  deleted : ∀ c, (db'.clause c).deleted = (db.clause c).deleted
  observed : db'.shadowClauses = db.shadowClauses
  shadow : ∀ i, db'.shadowStates i = .active ↔ db.shadowStates i = .active

namespace Same

lemma refl (db : ClauseDb) : Same db db :=
  ⟨rfl, rfl, fun _ => .rfl, fun _ => rfl, fun _ => rfl, rfl, fun _ => .rfl⟩

lemma trans {db₁ db₂ db₃ : ClauseDb} (h : Same db₁ db₂) (h' : Same db₂ db₃) : Same db₁ db₃ :=
  ⟨h'.longCount.trans h.longCount, h'.binaryCount.trans h.binaryCount,
    fun c => (h'.literals c).trans (h.literals c), fun c => (h'.learned c).trans (h.learned c),
    fun c => (h'.deleted c).trans (h.deleted c), h'.observed.trans h.observed,
    fun i => (h'.shadow i).trans (h.shadow i)⟩

variable (h : Same db db')
include h

lemma symm : Same db' db :=
  ⟨h.longCount.symm, h.binaryCount.symm, fun c => (h.literals c).symm,
    fun c => (h.learned c).symm, fun c => (h.deleted c).symm, h.observed.symm,
    fun i => (h.shadow i).symm⟩

lemma allocated : db'.Allocated c ↔ db.Allocated c := by
  cases c <;> simp only [Allocated, h.longCount, h.binaryCount]

lemma active : db'.Active c ↔ db.Active c := by
  rw [Active, Active, h.allocated, h.deleted]

lemma original : db'.Original c ↔ db.Original c := by
  rw [Original, Original, h.active, h.learned]

lemma mem : l ∈ (db'.clause c).literals ↔ l ∈ (db.clause c).literals :=
  (h.literals c).mem_iff

end Same

/-- A database with the same clauses is as proper when its watches fit them. -/
lemma Ok.of_same (h : db.Ok n E) (hs : Same db db')
    (hsound : ∀ l, ∀ w ∈ db'.watches l, db'.Allocated w.clause ∧
      ((db'.clause w.clause).deleted = false →
        l ∈ db'.watched w.clause ∧ w.blocker ∈ (db'.clause w.clause).literals ∧
          w.blocker ≠ l))
    (hcomplete : ∀ c, db'.Active c → ∀ l ∈ db'.watched c, ∃ w ∈ db'.watches l, w.clause = c)
    (honce : ∀ l, ((db'.watches l).map Watch.clause).Nodup) : db'.Ok n E where
  length c hc := by
    rw [(hs.literals c).length_eq]
    exact h.length c (hs.allocated.1 hc)
  nodup c hc := ((hs.literals c).map _).nodup_iff.2 (h.nodup c (hs.allocated.1 hc))
  lt c hc l hl := h.lt c (hs.allocated.1 hc) l (hs.mem.1 hl)
  avoid c hc hd l hl := by
    rw [hs.deleted, hs.learned] at hd
    exact h.avoid c (hs.allocated.1 hc) hd l (hs.mem.1 hl)
  sound := hsound
  complete := hcomplete
  once := honce
  shadow i hi := by
    obtain ⟨h1, h2⟩ := h.shadow i fun he => hi ((hs.shadow i).2 he)
    rw [hs.longCount, hs.learned]
    exact ⟨h1, h2⟩
  observed i hi := by
    rw [hs.observed] at hi
    rw [hs.longCount, hs.learned]
    exact h.observed i hi

/-- Exchanging a literal with one of the list. -/
lemma perm_cons_set {r : Lit} {rest : List Lit} {k : ℕ} (f : Lit) (hk : rest[k]? = some r) :
    (r :: rest.set k f).Perm (f :: rest) := by
  obtain ⟨hkl, hkr⟩ := List.getElem?_eq_some_iff.1 hk
  have hsplit : rest = rest.take k ++ r :: rest.drop (k + 1) := by
    rw [← hkr, List.cons_getElem_drop_succ, List.take_append_drop]
  have hsplit' : rest.set k f = rest.take k ++ f :: rest.drop (k + 1) := by
    rw [List.set_eq_take_append_cons_drop, if_pos hkl]
  rw [hsplit']
  conv_rhs => rw [hsplit]
  refine (List.perm_middle.cons r).trans (.trans ?_ (List.perm_middle.cons f).symm)
  exact List.Perm.swap _ _ _

/-! ### Changes during a scan

While the watch list of `f` is scanned, the stored list is empty and the watches that were
kept, `kept`, together with those still to be visited stand for it. -/

section Scan

variable {kept pending : List Watch} {w : Watch} {literals : List Lit}

lemma setWatches_watches (db : ClauseDb) (f : Lit) (ws : List Watch) :
    (db.setWatches f ws).watches l = if l = f then ws else db.watches l :=
  Function.update_apply _ _ _ _

lemma setLiterals_clause (db : ClauseDb) (c : ClauseRef) (literals : List Lit) :
    (db.setLiterals c literals).clause d =
      if d = c then { db.clause c with literals := literals } else db.clause d :=
  Function.update_apply _ _ _ _

lemma same_setWatches (db : ClauseDb) (f : Lit) (ws : List Watch) : Same db (db.setWatches f ws) :=
  ⟨rfl, rfl, fun _ => .rfl, fun _ => rfl, fun _ => rfl, rfl, fun _ => .rfl⟩

lemma same_pushWatch (db : ClauseDb) (l : Lit) (w : Watch) : Same db (db.pushWatch l w) :=
  ⟨rfl, rfl, fun _ => .rfl, fun _ => rfl, fun _ => rfl, rfl, fun _ => .rfl⟩

lemma same_setLiterals (hp : literals.Perm (db.clause c).literals) :
    Same db (db.setLiterals c literals) := by
  refine ⟨rfl, rfl, fun d => ?_, fun d => ?_, fun d => ?_, rfl, fun _ => .rfl⟩ <;>
    rw [setLiterals_clause] <;> split <;> simp_all

variable (h : (db.setWatches f (kept ++ w :: pending)).Ok n E)
include h

lemma Ok.scan_sound : db.Allocated w.clause ∧ ((db.clause w.clause).deleted = false →
    f ∈ db.watched w.clause ∧ w.blocker ∈ (db.clause w.clause).literals ∧ w.blocker ≠ f) := by
  have hw := h.sound f w (by simp [setWatches_watches])
  exact ⟨(same_setWatches _ _ _).allocated.1 hw.1, hw.2⟩

/-- A watch of a deleted clause leaves the list. -/
lemma Ok.scan_drop (hd : (db.clause w.clause).deleted = true) :
    (db.setWatches f (kept ++ pending)).Ok n E := by
  refine h.of_same ((same_setWatches _ _ _).symm.trans (same_setWatches _ _ _)) ?_ ?_ ?_
  · intro l v hv
    refine h.sound l v ?_
    rw [setWatches_watches] at hv ⊢
    split at hv <;> simp_all <;> tauto
  · intro c hc l hl
    obtain ⟨v, hv, rfl⟩ := h.complete c hc l hl
    refine ⟨v, ?_, rfl⟩
    have hne : v ≠ w := by
      rintro rfl
      exact absurd hc.2 (by simpa [setWatches] using hd)
    rw [setWatches_watches] at hv ⊢
    split at hv <;> simp_all
  · intro l
    have := h.once l
    rw [setWatches_watches] at this ⊢
    split at this
    · rw [if_pos ‹_›]
      refine this.sublist (List.Sublist.map _ ?_)
      exact (List.Sublist.refl kept).append (List.sublist_cons_self w pending)
    · rwa [if_neg ‹_›]

/-- A watch stays with another blocker, its clause possibly with its watched literals
exchanged. -/
lemma Ok.scan_keep {b : Lit} (hp : literals.Perm (db.clause w.clause).literals)
    (ht : ∀ l, l ∈ literals.take 2 ↔ l ∈ db.watched w.clause) (hb : b ∈ literals) (hbf : b ≠ f) :
    ((db.setLiterals w.clause literals).setWatches f
      (kept ++ ⟨w.clause, b⟩ :: pending)).Ok n E := by
  have hs := same_setLiterals hp
  have hwatched : ∀ c l, l ∈ (db.setLiterals w.clause literals).watched c ↔
      l ∈ db.watched c := by
    intro c l
    rw [watched, setLiterals_clause]
    split
    · next he => rw [he]; exact ht l
    · rfl
  refine h.of_same ((same_setWatches _ _ _).symm.trans (hs.trans (same_setWatches _ _ _))) ?_ ?_ ?_
  · intro l v hv
    have hcase : (l = f ∧ v = ⟨w.clause, b⟩) ∨
        v ∈ (db.setWatches f (kept ++ w :: pending)).watches l := by
      rw [setWatches_watches] at hv ⊢
      split at hv
      · rcases List.mem_append.1 hv with hv | hv
        · exact .inr (by simp [*])
        · rcases List.mem_cons.1 hv with rfl | hv
          · exact .inl ⟨‹_›, rfl⟩
          · exact .inr (by simp [*])
      · next hlf => exact .inr (by rw [if_neg hlf]; exact hv)
    rcases hcase with ⟨rfl, rfl⟩ | hv
    · obtain ⟨h1, h2⟩ := h.scan_sound
      refine ⟨(hs.trans (same_setWatches _ _ _)).allocated.2 h1, fun hd => ?_⟩
      have hd' : (db.clause w.clause).deleted = false :=
        ((hs.trans (same_setWatches _ _ _)).deleted _).symm.trans hd
      refine ⟨(hwatched _ _).2 (h2 hd').1, ?_, hbf⟩
      show b ∈ ((db.setLiterals w.clause literals).clause w.clause).literals
      rw [setLiterals_clause, if_pos rfl]
      exact hb
    · obtain ⟨h1, h2⟩ := h.sound l v hv
      refine ⟨(hs.trans (same_setWatches _ _ _)).allocated.2
        ((same_setWatches _ _ _).allocated.1 h1), fun hd => ?_⟩
      have hd' : (db.clause v.clause).deleted = false :=
        ((hs.trans (same_setWatches _ _ _)).deleted _).symm.trans hd
      obtain ⟨h3, h4, h5⟩ := h2 hd'
      exact ⟨(hwatched _ _).2 h3, hs.mem.2 h4, h5⟩
  · intro c hc l hl
    have hc' : db.Active c := (hs.trans (same_setWatches _ _ _)).active.1 hc
    obtain ⟨v, hv, rfl⟩ := h.complete c ((same_setWatches _ _ _).active.2 hc') l
      ((hwatched _ _).1 hl)
    rw [setWatches_watches] at hv
    simp only [setWatches_watches]
    split at hv
    · rw [if_pos ‹_›]
      rcases List.mem_append.1 hv with hv | hv
      · exact ⟨v, by simp [hv], rfl⟩
      · rcases List.mem_cons.1 hv with rfl | hv
        · exact ⟨⟨v.clause, b⟩, by simp, rfl⟩
        · exact ⟨v, by simp [hv], rfl⟩
    · rw [if_neg ‹_›]
      exact ⟨v, hv, rfl⟩
  · intro l
    have := h.once l
    rw [setWatches_watches] at this ⊢
    split at this
    · rw [if_pos ‹_›]
      simpa using this
    · rw [if_neg ‹_›]
      exact this

/-- The watch moves from `f` to an unwatched literal of its clause. -/
lemma Ok.scan_move {first r : Lit} {k : ℕ} {rest : List Lit}
    (hactive : (db.clause w.clause).deleted = false)
    (hperm : (first :: f :: rest).Perm (db.clause w.clause).literals)
    (ht : ∀ l, l = first ∨ l = f ↔ l ∈ db.watched w.clause) (hk : rest[k]? = some r) :
    (((db.setLiterals w.clause (first :: r :: rest.set k f)).pushWatch r
      ⟨w.clause, first⟩).setWatches f (kept ++ pending)).Ok n E := by
  have hcalloc := h.scan_sound.1
  have hnd : (first :: f :: rest).Nodup :=
    hperm.nodup_iff.2 (List.Nodup.of_map _ (h.nodup w.clause hcalloc))
  have hrmem : r ∈ rest := List.mem_of_getElem? hk
  have hrf : r ≠ f := by
    rintro rfl
    simp only [List.nodup_cons] at hnd
    exact hnd.2.1 hrmem
  have hrfirst : r ≠ first := by
    rintro rfl
    simp only [List.nodup_cons, List.mem_cons, not_or] at hnd
    exact hnd.1.2 hrmem
  have hfirst : first ≠ f := by
    rintro rfl
    simp at hnd
  have hset := perm_cons_set f hk
  have hs : Same db (db.setLiterals w.clause (first :: r :: rest.set k f)) :=
    same_setLiterals ((hset.cons first).trans hperm)
  set db' := ((db.setLiterals w.clause (first :: r :: rest.set k f)).pushWatch r
    ⟨w.clause, first⟩).setWatches f (kept ++ pending) with hdb'
  have hs' : Same db db' := (hs.trans (same_pushWatch _ _ _)).trans (same_setWatches _ _ _)
  have hlits : (db'.clause w.clause).literals = first :: r :: rest.set k f := by
    show ((db.setLiterals w.clause (first :: r :: rest.set k f)).clause w.clause).literals = _
    rw [setLiterals_clause, if_pos rfl]
  have hother : ∀ c, c ≠ w.clause → db'.clause c = db.clause c := by
    intro c hc
    show (db.setLiterals w.clause (first :: r :: rest.set k f)).clause c = _
    rw [setLiterals_clause, if_neg hc]
  have hwatched : ∀ l, l ∈ db'.watched w.clause ↔ l = first ∨ l = r := by
    intro l
    rw [watched, hlits]
    simp
  have hwatches : ∀ l, db'.watches l = if l = f then kept ++ pending else
      if l = r then db.watches r ++ [⟨w.clause, first⟩] else db.watches l := by
    intro l
    rw [hdb', setWatches_watches]
    simp only [pushWatch, setLiterals, Function.update_apply]
  have hw0 : ∀ l, (db.setWatches f (kept ++ w :: pending)).watches l =
      if l = f then kept ++ w :: pending else db.watches l := fun l =>
    setWatches_watches _ _ _
  have honce := h.once
  refine h.of_same ((same_setWatches _ _ _).symm.trans hs') ?_ ?_ ?_
  · intro l v hv
    have hcase : (l = r ∧ v = ⟨w.clause, first⟩) ∨
        ((l ≠ f ∨ v.clause ≠ w.clause) ∧
          v ∈ (db.setWatches f (kept ++ w :: pending)).watches l) := by
      rw [hwatches] at hv
      rw [hw0]
      by_cases hlf : l = f
      · rw [if_pos hlf] at hv ⊢
        have hnd := honce l
        rw [hw0, if_pos hlf] at hnd
        refine .inr ⟨.inr fun hvw => ?_, by simp at hv ⊢; tauto⟩
        have hmem : w.clause ∈ (kept ++ pending).map Watch.clause :=
          hvw ▸ List.mem_map_of_mem hv
        rw [List.map_append, List.map_cons] at hnd
        rw [List.map_append] at hmem
        have := (List.nodup_middle.1 hnd)
        exact (List.nodup_cons.1 this).1 hmem
      · rw [if_neg hlf] at hv ⊢
        by_cases hlr : l = r
        · rw [if_pos hlr] at hv
          rcases List.mem_append.1 hv with hv | hv
          · exact .inr ⟨.inl hlf, hlr ▸ hv⟩
          · exact .inl ⟨hlr, List.mem_singleton.1 hv⟩
        · rw [if_neg hlr] at hv
          exact .inr ⟨.inl hlf, hv⟩
    rcases hcase with ⟨rfl, rfl⟩ | ⟨hne, hv⟩
    · refine ⟨hs'.allocated.2 hcalloc, fun _ => ⟨(hwatched _).2 (.inr rfl), ?_, hrfirst.symm⟩⟩
      rw [hlits]
      simp
    · obtain ⟨h1, h2⟩ := h.sound l v hv
      refine ⟨hs'.allocated.2 ((same_setWatches _ _ _).allocated.1 h1), fun hd => ?_⟩
      obtain ⟨h3, h4, h5⟩ := h2 ((hs'.deleted _).symm.trans hd)
      refine ⟨?_, hs'.mem.2 h4, h5⟩
      by_cases hvw : v.clause = w.clause
      · rw [hvw]
        have hlw : l ∈ db.watched w.clause := by
          have := h3
          rwa [hvw] at this
        rcases (ht l).2 hlw with hl | hl
        · exact (hwatched l).2 (.inl hl)
        · exact absurd hl (hne.resolve_right fun h => h hvw)
      · show l ∈ ((db'.clause v.clause).literals).take 2
        rw [hother _ hvw]
        exact h3
  · intro c hc l hl
    have hc' := hs'.active.1 hc
    have hold := h.complete c ((same_setWatches _ _ _).active.2 hc') l
    by_cases hcw : c = w.clause
    · subst hcw
      rcases (hwatched l).1 hl with rfl | rfl
      · obtain ⟨v, hv, hvc⟩ := hold ((ht l).1 (.inl rfl))
        rw [hw0, if_neg hfirst] at hv
        exact ⟨v, by rw [hwatches, if_neg hfirst, if_neg hrfirst.symm]; exact hv, hvc⟩
      · exact ⟨⟨w.clause, first⟩, by rw [hwatches, if_neg hrf, if_pos rfl]; simp, rfl⟩
    · have hl' : l ∈ db.watched c := by
        have : l ∈ ((db'.clause c).literals).take 2 := hl
        rwa [hother _ hcw] at this
      obtain ⟨v, hv, rfl⟩ := hold hl'
      refine ⟨v, ?_, rfl⟩
      rw [hw0] at hv
      rw [hwatches]
      split at hv
      · rw [if_pos ‹_›]
        have : v ≠ w := fun he => hcw (congrArg Watch.clause he)
        simp at hv ⊢
        tauto
      · rw [if_neg ‹_›]
        split
        · next he => simp [← he, hv]
        · exact hv
  · intro l
    have hnd := honce l
    rw [hw0] at hnd
    rw [hwatches]
    by_cases hlf : l = f
    · rw [if_pos hlf] at hnd ⊢
      refine hnd.sublist (List.Sublist.map _ ?_)
      exact (List.Sublist.refl kept).append (List.sublist_cons_self w pending)
    · rw [if_neg hlf] at hnd ⊢
      by_cases hlr : l = r
      · rw [if_pos hlr, List.map_append]
        rw [hlr] at hnd
        refine List.nodup_append.2 ⟨hnd, by simp, ?_⟩
        intro a ha b hb
        obtain ⟨v, hv, rfl⟩ := List.mem_map.1 ha
        have hb' : b = w.clause := by simpa using hb
        rintro rfl
        have hv0 : v ∈ (db.setWatches f (kept ++ w :: pending)).watches r := by
          rw [hw0, if_neg hrf]
          exact hv
        have hrw := ((h.sound r v hv0).2 (by
          show (db.clause v.clause).deleted = false
          rw [hb']; exact hactive)).1
        have hrw' : r ∈ db.watched w.clause := by
          have := hrw
          rwa [hb'] at this
        rcases (ht r).2 hrw' with he | he
        · exact hrfirst he
        · exact hrf he
      · rw [if_neg hlr]
        exact hnd

end Scan

end ClauseDb

end Satrap
