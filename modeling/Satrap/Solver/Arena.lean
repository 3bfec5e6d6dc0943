/-
# The clause arena

The literals of the long clauses stand one after another in the clause arena, and a clause knows
its start and its length.  A deleted clause leaves its literals behind as garbage, which
`compact_clause_arena` removes by moving the live clauses down.  It starts from the lowest garbage
clause and its start only, so that it needs the live clauses to lie in the order of their
references, with nothing but garbage in between; the clauses that were deleted before an earlier
compaction have no literals in the arena any more, but keep their old starts.
-/
import Satrap.Logic.Slices
import Satrap.Solver.State
import Mathlib.Algebra.BigOperators.Group.Finset.Basic
import Mathlib.Algebra.Order.BigOperators.Group.Finset
import Mathlib.Tactic.NormNum

namespace Satrap

open Logic

/-- `usize::MAX`, which is also `u64::MAX`. -/
def usizeMax : ℕ := 2 ^ 64 - 1

/-- `saturating_add`. -/
def saturatingAdd (a b : ℕ) : ℕ := min (a + b) usizeMax

/-- A clause of length at least three, as `Clause` stores it. -/
structure LongClause where
  start : ℕ
  length : ℕ
  learned : Bool
  deleted : Bool

/-- The statistics about the arena. -/
structure ArenaStats where
  arenaCompactions : ℕ
  arenaMovedLiterals : ℕ
  arenaReclaimedLiterals : ℕ
  peakArenaLiterals : ℕ
  arenaLiterals : ℕ
  arenaGarbageLiterals : ℕ

/-- The clauses of the solver as they are stored. -/
structure Arena where
  compactClauseArena : Bool
  clauseArena : List Lit
  clause : ℕ → LongClause
  count : ℕ
  binaryLiterals : List (Lit × Lit)
  binaryDeleted : List Bool
  arenaGarbageLiterals : ℕ
  arenaGarbageClause : ℕ
  arenaGarbageStart : ℕ
  stats : ArenaStats

namespace Arena

/-- No clauses. -/
def new (compactClauseArena : Bool) : Arena where
  compactClauseArena := compactClauseArena
  clauseArena := []
  clause := fun _ => ⟨0, 0, false, false⟩
  count := 0
  binaryLiterals := []
  binaryDeleted := []
  arenaGarbageLiterals := 0
  arenaGarbageClause := usizeMax
  arenaGarbageStart := usizeMax
  stats := ⟨0, 0, 0, 0, 0, 0⟩

/-- `allocate_clause`; `none` where a length does not fit a `u32`, a reference does not fit 31
bits or the arena does not fit a vector of literals of four bytes. -/
def allocateClause (a : Arena) (literals : List Lit) (learned : Bool) :
    Option (ClauseRef × Arena) :=
  match literals with
  | [first, second] =>
    if a.binaryLiterals.length < 2 ^ 31 - 1 then
      some (.binary a.binaryLiterals.length,
        { a with
          binaryLiterals := a.binaryLiterals ++ [(first, second)]
          binaryDeleted := a.binaryDeleted ++ [false] })
    else none
  | literals =>
    let start := a.clauseArena.length
    if literals.length < 2 ^ 32 ∧ 4 * (start + literals.length) < 2 ^ 63 ∧ a.count < 2 ^ 31 - 1 then
      let clauseArena := a.clauseArena ++ literals
      some (.long a.count,
        { a with
          clauseArena := clauseArena
          stats :=
            if a.compactClauseArena then
              { a.stats with
                arenaLiterals := clauseArena.length
                peakArenaLiterals := max a.stats.peakArenaLiterals clauseArena.length }
            else a.stats
          clause := Function.update a.clause a.count ⟨start, literals.length, learned, false⟩
          count := a.count + 1 })
    else none

/-- `mark_clause_deleted`, of a clause that is there and not deleted yet; `none` also where its
literals, which are written to the proof, leave the arena. -/
def markClauseDeleted (a : Arena) : ClauseRef → Option Arena
  | .binary index =>
    if a.binaryDeleted[index]? = some false then
      some { a with binaryDeleted := a.binaryDeleted.set index true }
    else none
  | .long index =>
    let metadata := a.clause index
    if index < a.count ∧ metadata.deleted = false ∧
        metadata.start + metadata.length ≤ a.clauseArena.length then
      let a :=
        if a.compactClauseArena then
          let garbage := saturatingAdd a.arenaGarbageLiterals metadata.length
          { a with
            arenaGarbageLiterals := garbage
            arenaGarbageClause := min a.arenaGarbageClause index
            arenaGarbageStart := min a.arenaGarbageStart metadata.start
            stats := { a.stats with arenaGarbageLiterals := garbage } }
        else a
      some { a with clause := Function.update a.clause index { metadata with deleted := true } }
    else none

/-- What propagation does to the literals of a live clause: two of them change places. -/
def swapLiterals (a : Arena) (index i j : ℕ) : Option Arena :=
  let metadata := a.clause index
  if index < a.count ∧ metadata.deleted = false ∧ i < metadata.length ∧ j < metadata.length then
    match a.clauseArena[metadata.start + i]?, a.clauseArena[metadata.start + j]? with
    | some p, some q =>
      some { a with clauseArena :=
        (a.clauseArena.set (metadata.start + i) q).set (metadata.start + j) p }
    | _, _ => none
  else none

/-- The state of the loop of `compact_clause_arena`. -/
structure Compaction where
  clauseArena : List Lit
  clause : ℕ → LongClause
  write : ℕ
  moved : ℕ

/-- The body of the loop, for one clause. -/
def compactClause (c : Compaction) (clause : ℕ) : Option Compaction :=
  if (c.clause clause).deleted then some c
  else
    let oldStart := (c.clause clause).start
    let length := (c.clause clause).length
    let place (clauseArena : List Lit) (moved : ℕ) : Compaction :=
      ⟨clauseArena, Function.update c.clause clause { c.clause clause with start := c.write },
        c.write + length, moved⟩
    if oldStart ≠ c.write then
      (copyWithin c.clauseArena oldStart length c.write).map fun clauseArena =>
        place clauseArena (saturatingAdd c.moved length)
    else some (place c.clauseArena c.moved)

/-- The loop before its first pass. -/
def compactionStart (a : Arena) : Compaction :=
  ⟨a.clauseArena, a.clause, a.arenaGarbageStart, 0⟩

/-- The first passes of the loop, over so many clauses from the lowest garbage clause on. -/
def compactPasses (a : Arena) (passes : ℕ) : Option Compaction :=
  (List.range' a.arenaGarbageClause passes).foldlM compactClause a.compactionStart

/-- What `compact_clause_arena` does behind its loop. -/
def truncate (a : Arena) (c : Compaction) : Arena :=
  let reclaimed := a.clauseArena.length - c.write
  { a with
    clauseArena := c.clauseArena.take c.write
    clause := c.clause
    stats := { a.stats with
      arenaCompactions := saturatingAdd a.stats.arenaCompactions 1
      arenaMovedLiterals := saturatingAdd a.stats.arenaMovedLiterals c.moved
      arenaReclaimedLiterals := saturatingAdd a.stats.arenaReclaimedLiterals reclaimed
      arenaLiterals := c.write
      arenaGarbageLiterals := 0 }
    arenaGarbageLiterals := 0
    arenaGarbageClause := usizeMax
    arenaGarbageStart := usizeMax }

/-- `compact_clause_arena`; `none` where a copy leaves the arena or the length underflows. -/
def compact (a : Arena) : Option Arena :=
  if a.arenaGarbageLiterals = 0 then some a
  else
    match a.compactPasses (a.count - a.arenaGarbageClause) with
    | none => none
    | some c => if c.write ≤ a.clauseArena.length then some (a.truncate c) else none

/-- The clause is there and not deleted. -/
def Live (a : Arena) (k : ℕ) : Prop := k < a.count ∧ (a.clause k).deleted = false

/-- The literals of a clause. -/
def literals (a : Arena) (k : ℕ) : List Lit :=
  slice a.clauseArena (a.clause k).start (a.clause k).length

/-- The histories of the arena: clauses are allocated and deleted, propagation permutes their
literals, and the arena is compacted. -/
inductive Reachable (compactClauseArena : Bool) : Arena → Prop
  | new : Reachable compactClauseArena (new compactClauseArena)
  | allocate {a a' : Arena} {literals : List Lit} {learned : Bool} {reference : ClauseRef}
      (h : Reachable compactClauseArena a)
      (he : a.allocateClause literals learned = some (reference, a')) :
      Reachable compactClauseArena a'
  | delete {a a' : Arena} {reference : ClauseRef} (h : Reachable compactClauseArena a)
      (he : a.markClauseDeleted reference = some a') : Reachable compactClauseArena a'
  | swap {a a' : Arena} {index i j : ℕ} (h : Reachable compactClauseArena a)
      (he : a.swapLiterals index i j = some a') : Reachable compactClauseArena a'
  | compact {a a' : Arena} (h : Reachable compactClauseArena a) (he : a.compact = some a') :
      Reachable compactClauseArena a'

/-! ### Where the clauses lie -/

/-- The literals that the clauses of a set take among those before one. -/
def offset (size : ℕ → ℕ) (held : ℕ → Bool) (k : ℕ) : ℕ :=
  ∑ j ∈ Finset.range k, if held j then size j else 0

section Offset

variable {size : ℕ → ℕ} {held held' : ℕ → Bool} {i j k : ℕ}

lemma offset_succ (size : ℕ → ℕ) (held : ℕ → Bool) (k : ℕ) :
    offset size held (k + 1) = offset size held k + if held k then size k else 0 :=
  Finset.sum_range_succ _ k

lemma offset_mono (hjk : j ≤ k) : offset size held j ≤ offset size held k :=
  Finset.sum_le_sum_of_subset (Finset.range_mono hjk)

/-- The literals of a clause of the set end before those of the next one. -/
lemma offset_add_le (hj : held j = true) (hjk : j < k) :
    offset size held j + size j ≤ offset size held k := by
  have h := offset_succ size held j
  rw [if_pos hj] at h
  rw [← h]
  exact offset_mono hjk

lemma offset_le (h : ∀ j < k, held j = true → held' j = true) :
    offset size held k ≤ offset size held' k := by
  refine Finset.sum_le_sum fun j hj => ?_
  by_cases hh : held j = true
  · rw [if_pos hh, if_pos (h j (Finset.mem_range.1 hj) hh)]
  · rw [if_neg hh]
    exact Nat.zero_le _

lemma offset_congr {size' : ℕ → ℕ} (h : ∀ j < k, held j = held' j)
    (hs : ∀ j < k, size j = size' j) : offset size held k = offset size' held' k := by
  refine Finset.sum_congr rfl fun j hj => ?_
  rw [h j (Finset.mem_range.1 hj), hs j (Finset.mem_range.1 hj)]

/-- One more clause in the set. -/
lemma offset_update (hi : held i = false) (hik : i < k) :
    offset size (Function.update held i true) k = offset size held k + size i := by
  induction k with
  | zero => exact absurd hik (Nat.not_lt_zero i)
  | succ k ih =>
    rw [offset_succ, offset_succ]
    by_cases hk : i = k
    · subst hk
      have hbelow : offset size (Function.update held i true) i = offset size held i :=
        offset_congr (fun j hj => Function.update_of_ne (by omega) _ _) fun _ _ => rfl
      rw [hbelow, Function.update_self, if_pos rfl, hi]
      simp
    · rw [ih (by omega), Function.update_of_ne (Ne.symm hk)]
      omega

/-- A set is made of two parts. -/
lemma offset_split (p : ℕ → Bool) (h : ∀ j < k, p j = true → held j = true) :
    offset size held k = offset size p k + offset size (fun j => held j && !p j) k := by
  rw [offset, offset, offset, ← Finset.sum_add_distrib]
  refine Finset.sum_congr rfl fun j hj => ?_
  have hj := h j (Finset.mem_range.1 hj)
  cases hp : p j with
  | true => simp [hj hp]
  | false => simp

end Offset

variable {a a' : Arena} {held : ℕ → Bool} {i j k : ℕ}

/-- The length of a clause. -/
def size (a : Arena) (k : ℕ) : ℕ := (a.clause k).length

/-- The clause is not deleted. -/
def kept (a : Arena) (k : ℕ) : Bool := !(a.clause k).deleted

/-- The clause is deleted, and its literals are still in the arena. -/
def garbage (a : Arena) (held : ℕ → Bool) (k : ℕ) : Bool := held k && !a.kept k

/-- The arena consists of the literals of the clauses in a set, in the order of their references;
the live clauses are among them. -/
structure Layout (a : Arena) (held : ℕ → Bool) : Prop where
  live : ∀ k < a.count, a.kept k = true → held k = true
  start : ∀ k < a.count, held k = true → (a.clause k).start = offset a.size held k
  length : a.clauseArena.length = offset a.size held a.count
  bound : 4 * a.clauseArena.length < 2 ^ 63
  count : a.count < 2 ^ 31

/-- The lowest garbage clause and its start are recorded. -/
def Lowest (a : Arena) (held : ℕ → Bool) : Prop :=
  ((∀ k < a.count, a.garbage held k = false) ∧ a.arenaGarbageClause = usizeMax ∧
      a.arenaGarbageStart = usizeMax) ∨
    ∃ k < a.count, a.garbage held k = true ∧ (∀ j < k, a.garbage held j = false) ∧
      a.arenaGarbageClause = k ∧ a.arenaGarbageStart = (a.clause k).start

/-- The garbage is recorded. -/
structure Tallied (a : Arena) (held : ℕ → Bool) : Prop where
  literals : a.arenaGarbageLiterals = offset a.size (a.garbage held) a.count
  lowest : Lowest a held
  stats : a.stats.arenaGarbageLiterals = a.arenaGarbageLiterals

/-- Nothing is recorded. -/
structure Untallied (a : Arena) : Prop where
  literals : a.arenaGarbageLiterals = 0
  stats : a.stats.arenaGarbageLiterals = 0

/-- The clauses lie in the arena, and the garbage is recorded when the arena is compacted. -/
def Ok (a : Arena) : Prop :=
  ∃ held, Layout a held ∧ (a.compactClauseArena = true → Tallied a held) ∧
    (a.compactClauseArena = false → Untallied a)

lemma kept_iff : a.kept k = true ↔ (a.clause k).deleted = false := by simp [kept]

lemma Live.kept (h : a.Live k) : a.kept k = true := kept_iff.2 h.2

lemma garbage_eq_true : a.garbage held k = true ↔ held k = true ∧ a.kept k = false := by
  simp [garbage]

/-- Different live clauses lie apart. -/
lemma Layout.apart (h : Layout a held) (hj : a.Live j) (hk : a.Live k) (hjk : j < k) :
    (a.clause j).start + a.size j ≤ (a.clause k).start := by
  have hheld := h.live j hj.1 hj.kept
  rw [h.start j hj.1 hheld, h.start k hk.1 (h.live k hk.1 hk.kept)]
  exact offset_add_le hheld hjk

lemma Layout.inside (h : Layout a held) (hk : k < a.count) (hheld : held k = true) :
    (a.clause k).start + a.size k ≤ a.clauseArena.length := by
  rw [h.start k hk hheld, h.length]
  exact offset_add_le hheld hk

/-! ### The operations keep the layout -/

lemma ok_new (enabled : Bool) : (new enabled).Ok := by
  have hnone : ∀ k, ¬ k < (new enabled).count := fun k => Nat.not_lt_zero k
  refine ⟨fun _ => false, ⟨fun k hk => absurd hk (hnone k), fun k hk => absurd hk (hnone k), rfl,
    ?_, ?_⟩, fun _ => ⟨rfl, .inl ⟨fun k hk => absurd hk (hnone k), rfl, rfl⟩, rfl⟩,
    fun _ => ⟨rfl, rfl⟩⟩
  · norm_num [new]
  · norm_num [new]

/-- The second arena is the first with one more long clause. -/
structure Pushed (a a' : Arena) (literals : List Lit) : Prop where
  config : a'.compactClauseArena = a.compactClauseArena
  arena : a'.clauseArena = a.clauseArena ++ literals
  count : a'.count = a.count + 1
  same : ∀ k < a.count, a'.clause k = a.clause k
  start : (a'.clause a.count).start = a.clauseArena.length
  length : (a'.clause a.count).length = literals.length
  deleted : (a'.clause a.count).deleted = false
  garbageLiterals : a'.arenaGarbageLiterals = a.arenaGarbageLiterals
  garbageClause : a'.arenaGarbageClause = a.arenaGarbageClause
  garbageStart : a'.arenaGarbageStart = a.arenaGarbageStart
  stats : a'.stats.arenaGarbageLiterals = a.stats.arenaGarbageLiterals
  bound : 4 * a'.clauseArena.length < 2 ^ 63
  limit : a'.count < 2 ^ 31

/-- A new clause lies behind all others. -/
lemma Pushed.ok {literals : List Lit} (h : Pushed a a' literals) (hok : a.Ok) : a'.Ok := by
  obtain ⟨held, hl, ht, hu⟩ := hok
  have hheld (k : ℕ) (hk : k < a.count) : Function.update held a.count true k = held k :=
    Function.update_of_ne (by omega) _ _
  have hlast : Function.update held a.count true a.count = true := Function.update_self _ _ _
  have hsize (k : ℕ) (hk : k < a.count) : a'.size k = a.size k := by rw [size, size, h.same k hk]
  have hoffset (k : ℕ) (hk : k ≤ a.count) :
      offset a'.size (Function.update held a.count true) k = offset a.size held k :=
    offset_congr (fun j hj => hheld j (by omega)) (fun j hj => hsize j (by omega))
  have hcase {k : ℕ} (hk : k < a'.count) : k < a.count ∨ k = a.count := by
    rw [h.count] at hk
    omega
  have hgarbage (k : ℕ) (hk : k < a.count) :
      a'.garbage (Function.update held a.count true) k = a.garbage held k := by
    rw [garbage, garbage, hheld k hk, kept, kept, h.same k hk]
  have hlive : a'.garbage (Function.update held a.count true) a.count = false := by
    simp [garbage, kept, h.deleted]
  refine ⟨Function.update held a.count true, ⟨fun k hk hkept => ?_, fun k hk hh => ?_, ?_,
    h.bound, h.limit⟩, fun hc => ?_, fun hc => ?_⟩
  · rcases hcase hk with hk | rfl
    · rw [hheld k hk]
      rw [kept, h.same k hk] at hkept
      exact hl.live k hk hkept
    · exact hlast
  · rcases hcase hk with hk | rfl
    · rw [h.same k hk, hoffset k hk.le]
      exact hl.start k hk (hheld k hk ▸ hh)
    · rw [h.start, hoffset a.count le_rfl, hl.length]
  · rw [h.arena, List.length_append, h.count, offset_succ, hoffset a.count le_rfl, if_pos hlast,
      hl.length, size, h.length]
  · obtain ⟨h1, h2, h3⟩ := ht (h.config ▸ hc)
    refine ⟨?_, ?_, by rw [h.stats, h.garbageLiterals, h3]⟩
    · rw [h.garbageLiterals, h1, h.count, offset_succ, hlive]
      exact (offset_congr (fun j hj => (hgarbage j hj).symm) fun j hj => (hsize j hj).symm)
    · rcases h2 with ⟨h4, h5, h6⟩ | ⟨k, hk, h4, h5, h6, h7⟩
      · refine .inl ⟨fun k hk => ?_, h.garbageClause.trans h5, h.garbageStart.trans h6⟩
        rcases hcase hk with hk | rfl
        · exact (hgarbage k hk).trans (h4 k hk)
        · exact hlive
      · refine .inr ⟨k, by rw [h.count]; omega, (hgarbage k hk).trans h4,
          fun j hj => (hgarbage j (by omega)).trans (h5 j hj), h.garbageClause.trans h6, ?_⟩
        rw [h.garbageStart, h7, h.same k hk]
  · obtain ⟨h1, h2⟩ := hu (h.config ▸ hc)
    exact ⟨h.garbageLiterals.trans h1, h.stats.trans h2⟩

/-- The second arena has the clauses and the literals of the first. -/
structure SameClauses (a a' : Arena) : Prop where
  config : a'.compactClauseArena = a.compactClauseArena
  arena : a'.clauseArena.length = a.clauseArena.length
  count : a'.count = a.count
  clause : a'.clause = a.clause
  garbageLiterals : a'.arenaGarbageLiterals = a.arenaGarbageLiterals
  garbageClause : a'.arenaGarbageClause = a.arenaGarbageClause
  garbageStart : a'.arenaGarbageStart = a.arenaGarbageStart
  stats : a'.stats = a.stats

lemma SameClauses.ok (h : SameClauses a a') (hok : a.Ok) : a'.Ok := by
  obtain ⟨held, hl, ht, hu⟩ := hok
  have hsize : a'.size = a.size := by
    funext k
    rw [size, size, h.clause]
  have hkept : a'.kept = a.kept := by
    funext k
    rw [kept, kept, h.clause]
  have hgarbage : a'.garbage held = a.garbage held := by
    funext k
    rw [garbage, garbage, hkept]
  refine ⟨held, ⟨?_, ?_, ?_, by rw [h.arena]; exact hl.bound, by rw [h.count]; exact hl.count⟩,
    fun hc => ?_, fun hc => ?_⟩
  · rw [h.count, hkept]
    exact hl.live
  · rw [h.count, h.clause, hsize]
    exact hl.start
  · rw [h.arena, h.count, hsize]
    exact hl.length
  · obtain ⟨h1, h2, h3⟩ := ht (h.config ▸ hc)
    refine ⟨by rw [h.garbageLiterals, hsize, hgarbage, h.count, h1], ?_,
      by rw [h.stats, h.garbageLiterals, h3]⟩
    rw [Lowest, hgarbage, h.count, h.garbageClause, h.garbageStart, h.clause]
    exact h2
  · obtain ⟨h1, h2⟩ := hu (h.config ▸ hc)
    exact ⟨h.garbageLiterals.trans h1, by rw [h.stats, h2]⟩

/-- A binary clause goes beside the arena, any other one behind it. -/
lemma allocateClause_cases {literals : List Lit} {learned : Bool} {reference : ClauseRef}
    (he : a.allocateClause literals learned = some (reference, a')) :
    (∃ b, reference = .binary b ∧ SameClauses a a') ∨
      (reference = .long a.count ∧ Pushed a a' literals ∧
        (a'.clause a.count).learned = learned) := by
  unfold allocateClause at he
  split at he
  · split at he
    · obtain ⟨rfl, rfl⟩ := Prod.mk.inj (Option.some.inj he)
      exact .inl ⟨_, rfl, rfl, rfl, rfl, rfl, rfl, rfl, rfl, rfl⟩
    · simp at he
  · dsimp only at he
    by_cases hfits : literals.length < 2 ^ 32 ∧
        4 * (a.clauseArena.length + literals.length) < 2 ^ 63 ∧ a.count < 2 ^ 31 - 1
    · rw [if_pos hfits] at he
      obtain ⟨-, hbound, hcount⟩ := hfits
      obtain ⟨rfl, rfl⟩ := Prod.mk.inj (Option.some.inj he)
      refine .inr ⟨rfl, ⟨rfl, rfl, rfl, fun k hk => Function.update_of_ne (Nat.ne_of_lt hk) _ _, ?_,
        ?_, ?_, rfl, rfl, rfl, ?_, by rw [List.length_append]; exact hbound, by dsimp only; omega⟩,
        ?_⟩
      · simp only [Function.update_self]
      · simp only [Function.update_self]
      · simp only [Function.update_self]
      · dsimp only
        split <;> rfl
      · simp only [Function.update_self]
    · rw [if_neg hfits] at he
      simp at he

lemma ok_allocateClause {literals : List Lit} {learned : Bool} {reference : ClauseRef}
    (hok : a.Ok) (he : a.allocateClause literals learned = some (reference, a')) : a'.Ok := by
  obtain ⟨b, -, h⟩ | ⟨-, h, -⟩ := allocateClause_cases he
  · exact h.ok hok
  · exact h.ok hok

/-- The second arena is the first with a live clause deleted. -/
structure Deleted (a a' : Arena) (i : ℕ) : Prop where
  config : a'.compactClauseArena = a.compactClauseArena
  live : a.Live i
  arena : a'.clauseArena = a.clauseArena
  count : a'.count = a.count
  others : ∀ k, k ≠ i → a'.clause k = a.clause k
  start : (a'.clause i).start = (a.clause i).start
  length : (a'.clause i).length = (a.clause i).length
  deleted : (a'.clause i).deleted = true
  tally : a.compactClauseArena = true →
    a'.arenaGarbageLiterals = saturatingAdd a.arenaGarbageLiterals (a.size i) ∧
      a'.arenaGarbageClause = min a.arenaGarbageClause i ∧
      a'.arenaGarbageStart = min a.arenaGarbageStart (a.clause i).start ∧
      a'.stats.arenaGarbageLiterals = a'.arenaGarbageLiterals
  untallied : a.compactClauseArena = false →
    a'.arenaGarbageLiterals = a.arenaGarbageLiterals ∧ a'.stats = a.stats

/-- A deleted clause becomes garbage. -/
lemma Deleted.ok (h : Deleted a a' i) (hok : a.Ok) : a'.Ok := by
  obtain ⟨held, hl, ht, hu⟩ := hok
  obtain ⟨hi, hdel⟩ := h.live
  have hheld : held i = true := hl.live i hi h.live.kept
  have hsize : a'.size = a.size := by
    funext k
    by_cases hk : k = i
    · rw [hk]
      exact h.length
    · rw [size, size, h.others k hk]
  have hstart (k : ℕ) : (a'.clause k).start = (a.clause k).start := by
    by_cases hk : k = i
    · rw [hk, h.start]
    · rw [h.others k hk]
  have hnew : a.garbage held i = false := by simp [garbage, kept, hdel]
  have hgarbage : a'.garbage held = Function.update (a.garbage held) i true := by
    funext k
    by_cases hk : k = i
    · subst hk
      simp [garbage, kept, h.deleted, hheld]
    · rw [Function.update_of_ne hk, garbage, garbage, kept, kept, h.others k hk]
  refine ⟨held, ⟨fun k hk hkept => ?_, fun k hk hh => ?_, ?_, by rw [h.arena]; exact hl.bound,
    by rw [h.count]; exact hl.count⟩, fun hc => ?_, fun hc => ?_⟩
  · by_cases hki : k = i
    · rw [hki, hheld]
    · rw [kept, h.others k hki] at hkept
      exact hl.live k (h.count ▸ hk) hkept
  · rw [hstart, hsize]
    exact hl.start k (h.count ▸ hk) hh
  · rw [h.arena, h.count, hsize]
    exact hl.length
  · have hc := h.config ▸ hc
    obtain ⟨h1, h2, h3⟩ := ht hc
    obtain ⟨h4, h5, h6, h7⟩ := h.tally hc
    have hsum : offset a.size (Function.update (a.garbage held) i true) a.count =
        offset a.size (a.garbage held) a.count + a.size i := offset_update hnew hi
    -- The garbage takes no more literals than there are, so that its sum does not saturate.
    have hle : offset a.size (Function.update (a.garbage held) i true) a.count ≤
        offset a.size held a.count := by
      refine offset_le fun j _ hj => ?_
      by_cases hji : j = i
      · rw [hji, hheld]
      · rw [Function.update_of_ne hji] at hj
        exact (garbage_eq_true.1 hj).1
    have hbound := hl.bound
    have hlen := hl.length
    refine ⟨?_, ?_, h7⟩
    · rw [h4, h1, hsize, hgarbage, h.count, hsum, saturatingAdd, usizeMax]
      omega
    · rw [Lowest, hgarbage, h.count, h5, h6]
      have hcount := hl.count
      have hin := hl.inside hi hheld
      rcases h2 with ⟨h8, h9, h10⟩ | ⟨k, hk, h8, h9, h10, h11⟩
      · refine .inr ⟨i, hi, Function.update_self _ _ _, fun j hj => ?_, ?_, ?_⟩
        · rw [Function.update_of_ne (by omega)]
          exact h8 j (by omega)
        · rw [h9, usizeMax]
          omega
        · rw [h10, hstart, usizeMax]
          omega
      · have hkheld := (garbage_eq_true.1 h8).1
        have hne : k ≠ i := by
          rintro rfl
          rw [hnew] at h8
          simp at h8
        rw [h10, h11]
        rcases Nat.lt_or_gt_of_ne hne with hlt | hlt
        · refine .inr ⟨k, hk, by rw [Function.update_of_ne hne, h8], fun j hj => ?_, by omega, ?_⟩
          · rw [Function.update_of_ne (by omega), h9 j hj]
          · have : offset a.size held k ≤ offset a.size held i := offset_mono hlt.le
            rw [hstart, hl.start k hk hkheld, hl.start i hi hheld]
            omega
        · refine .inr ⟨i, hi, Function.update_self _ _ _, fun j hj => ?_, by omega, ?_⟩
          · rw [Function.update_of_ne (by omega), h9 j (by omega)]
          · have : offset a.size held i ≤ offset a.size held k := offset_mono hlt.le
            rw [hstart, hl.start k hk hkheld, hl.start i hi hheld]
            omega
  · have hc := h.config ▸ hc
    obtain ⟨h1, h2⟩ := hu hc
    obtain ⟨h3, h4⟩ := h.untallied hc
    exact ⟨h3.trans h1, by rw [h4, h2]⟩

/-- The mark of a binary clause is beside the arena, that of any other one in its metadata. -/
lemma markClauseDeleted_cases {reference : ClauseRef}
    (he : a.markClauseDeleted reference = some a') :
    (∃ b, reference = .binary b ∧ SameClauses a a') ∨
      ∃ i, reference = .long i ∧ Deleted a a' i ∧
        (a'.clause i).learned = (a.clause i).learned := by
  cases reference with
  | binary index =>
    rw [markClauseDeleted] at he
    split at he
    · obtain rfl := Option.some.inj he
      exact .inl ⟨index, rfl, rfl, rfl, rfl, rfl, rfl, rfl, rfl, rfl⟩
    · simp at he
  | long index =>
    rw [markClauseDeleted] at he
    dsimp only at he
    split at he
    · next hlive =>
      obtain rfl := Option.some.inj he
      refine .inr ⟨index, rfl, ⟨?_, ⟨hlive.1, hlive.2.1⟩, ?_, ?_, fun k hk => ?_, ?_, ?_, ?_,
        fun hc => ?_, fun hc => ?_⟩, ?_⟩
      · dsimp only
        split <;> rfl
      · dsimp only
        split <;> rfl
      · dsimp only
        split <;> rfl
      · refine (Function.update_of_ne hk _ _).trans ?_
        split <;> rfl
      · simp only [Function.update_self]
      · simp only [Function.update_self]
      · simp only [Function.update_self]
      · simp [hc, size]
      · simp [hc]
      · simp only [Function.update_self]
    · simp at he

lemma ok_markClauseDeleted {reference : ClauseRef} (hok : a.Ok)
    (he : a.markClauseDeleted reference = some a') : a'.Ok := by
  obtain ⟨b, -, h⟩ | ⟨i, -, h, -⟩ := markClauseDeleted_cases he
  · exact h.ok hok
  · exact h.ok hok

/-- A live clause is deleted. -/
lemma Ok.exists_delete (hok : a.Ok) (hk : a.Live k) : ∃ a',
    a.markClauseDeleted (.long k) = some a' ∧ a'.Ok ∧ a'.compactClauseArena = a.compactClauseArena ∧ a'.count = a.count ∧
    a'.clause = Function.update a.clause k { a.clause k with deleted := true } := by
  obtain ⟨held, hl, -⟩ := id hok
  have hfits : (a.clause k).start + (a.clause k).length ≤ a.clauseArena.length :=
    hl.inside hk.1 (hl.live k hk.1 hk.kept)
  cases hc : a.compactClauseArena with
  | true =>
    have he := markClauseDeleted.eq_def a (.long k)
    simp only [hk.1, hk.2, true_and, hc, if_true] at he
    rw [if_pos hfits] at he
    exact ⟨_, he, ok_markClauseDeleted hok he, rfl, rfl, rfl⟩
  | false =>
    have he := markClauseDeleted.eq_def a (.long k)
    simp only [hk.1, hk.2, true_and, hc, if_false, Bool.false_eq_true] at he
    rw [if_pos hfits] at he
    exact ⟨_, he, ok_markClauseDeleted hok he, rfl, rfl, rfl⟩

lemma sameClauses_swapLiterals (he : a.swapLiterals k i j = some a') : SameClauses a a' := by
  rw [swapLiterals] at he
  split at he
  · split at he
    · obtain rfl := Option.some.inj he
      exact ⟨rfl, by simp, rfl, rfl, rfl, rfl, rfl, rfl⟩
    · simp at he
  · simp at he

lemma ok_swapLiterals (hok : a.Ok) (he : a.swapLiterals k i j = some a') : a'.Ok :=
  (sameClauses_swapLiterals he).ok hok

/-! ### The loop of the compaction -/

/-- The loop before the clause `k`: the live clauses before it lie where the live clauses alone
put them, and nothing is changed from its own literals on. -/
structure Compacting (a : Arena) (held : ℕ → Bool) (k : ℕ) (c : Compaction) : Prop where
  write : c.write = offset a.size a.kept k
  arena : c.clauseArena.length = a.clauseArena.length
  size : ∀ j, (c.clause j).length = a.size j
  deleted : ∀ j, (c.clause j).deleted = (a.clause j).deleted
  learned : ∀ j, (c.clause j).learned = (a.clause j).learned
  start : ∀ j < k, a.kept j = true → (c.clause j).start = offset a.size a.kept j
  moved : ∀ j < k, a.kept j = true →
    slice c.clauseArena (offset a.size a.kept j) (a.size j) = a.literals j
  later : ∀ j, k ≤ j → c.clause j = a.clause j
  rest : ∀ i, offset a.size held k ≤ i → c.clauseArena[i]? = a.clauseArena[i]?

variable {c c' : Compaction}

/-- The live clauses before one take no more than all clauses in the arena. -/
lemma Layout.kept_le (h : Layout a held) (hk : k ≤ a.count) :
    offset a.size a.kept k ≤ offset a.size held k :=
  offset_le fun j hj hkept => h.live j (by omega) hkept

/-- The loop starts at the lowest garbage clause, before which nothing moves. -/
lemma Layout.compacting_start (h : Layout a held) (hk : k < a.count)
    (hgarbage : a.garbage held k = true) (hlow : ∀ j < k, a.garbage held j = false)
    (hstart : a.arenaGarbageStart = (a.clause k).start) :
    Compacting a held k a.compactionStart := by
  have hsame : ∀ j < k, a.kept j = held j := by
    intro j hj
    have hnot := hlow j hj
    cases hkept : a.kept j with
    | true => exact (h.live j (by omega) hkept).symm
    | false => simpa [garbage, hkept] using hnot
  have hoffset (j : ℕ) (hj : j ≤ k) : offset a.size a.kept j = offset a.size held j :=
    offset_congr (fun i hi => hsame i (by omega)) fun _ _ => rfl
  have hplace (j : ℕ) (hj : j < k) (hkept : a.kept j = true) :
      (a.clause j).start = offset a.size a.kept j := by
    rw [hoffset j hj.le]
    exact h.start j (by omega) (hsame j hj ▸ hkept)
  refine ⟨?_, rfl, fun _ => rfl, fun _ => rfl, fun _ => rfl, hplace, fun j hj hkept => ?_,
    fun _ _ => rfl, fun _ _ => rfl⟩
  · rw [hoffset k le_rfl, ← h.start k hk (garbage_eq_true.1 hgarbage).1]
    exact hstart
  · rw [← hplace j hj hkept]
    rfl

/-- What one pass of the loop does to a live clause. -/
lemma Compacting.pass (hc : Compacting a held k c) (h : Layout a held) (hk : k < a.count)
    (hkept : a.kept k = true) {clauseArena : List Lit} {moved : ℕ}
    (hlen : clauseArena.length = a.clauseArena.length)
    (hself : slice clauseArena c.write (a.size k) = a.literals k)
    (hbefore : ∀ j < k, a.kept j = true →
      slice clauseArena (offset a.size a.kept j) (a.size j) =
        slice c.clauseArena (offset a.size a.kept j) (a.size j))
    (hrest : ∀ i, offset a.size held (k + 1) ≤ i → clauseArena[i]? = c.clauseArena[i]?) :
    Compacting a held (k + 1) ⟨clauseArena,
      Function.update c.clause k { c.clause k with start := c.write },
      c.write + (c.clause k).length, moved⟩ := by
  have hheld := h.live k hk hkept
  refine ⟨?_, hlen, fun j => ?_, fun j => ?_, fun j => ?_, fun j hj hj' => ?_,
    fun j hj hj' => ?_, fun j hj => ?_, fun i hi => ?_⟩
  · dsimp only
    rw [offset_succ, if_pos hkept, hc.write, hc.size]
  · by_cases hjk : j = k
    · subst hjk
      simpa using hc.size j
    · simpa [hjk] using hc.size j
  · by_cases hjk : j = k
    · subst hjk
      simpa using hc.deleted j
    · simpa [hjk] using hc.deleted j
  · by_cases hjk : j = k
    · subst hjk
      simpa using hc.learned j
    · simpa [hjk] using hc.learned j
  · by_cases hjk : j = k
    · subst hjk
      simpa using hc.write
    · simpa [hjk] using hc.start j (by omega) hj'
  · by_cases hjk : j = k
    · subst hjk
      rw [← hc.write]
      exact hself
    · have hlt : j < k := by omega
      exact (hbefore j hlt hj').trans (hc.moved j hlt hj')
  · have hne : j ≠ k := by omega
    simpa [hne] using hc.later j (by omega)
  · refine (hrest i hi).trans (hc.rest i (le_trans ?_ hi))
    exact offset_mono (Nat.le_succ k)

/-- A pass never fails: the clause is moved down, over garbage only. -/
lemma Compacting.step (hc : Compacting a held k c) (h : Layout a held) (hk : k < a.count) :
    ∃ c', compactClause c k = some c' ∧ Compacting a held (k + 1) c' := by
  rw [compactClause, hc.deleted]
  cases hdel : (a.clause k).deleted with
  | true =>
    have hkept : a.kept k = false := by simp [kept, hdel]
    refine ⟨c, if_pos rfl, ⟨?_, hc.arena, hc.size, hc.deleted, hc.learned,
      fun j hj hj' => ?_, fun j hj hj' => ?_, fun j hj => hc.later j (by omega),
      fun i hi => hc.rest i ?_⟩⟩
    · rw [offset_succ, hkept, hc.write]
      rfl
    · by_cases hjk : j = k
      · subst hjk
        rw [hkept] at hj'
        simp at hj'
      · exact hc.start j (by omega) hj'
    · by_cases hjk : j = k
      · subst hjk
        rw [hkept] at hj'
        simp at hj'
      · exact hc.moved j (by omega) hj'
    · exact (offset_mono (Nat.le_succ k)).trans hi
  | false =>
    have hkept : a.kept k = true := by simp [kept, hdel]
    have hheld := h.live k hk hkept
    have hold : (c.clause k).start = offset a.size held k := by
      rw [hc.later k le_rfl, h.start k hk hheld]
    have hlen : (c.clause k).length = a.size k := hc.size k
    have hle : c.write ≤ (c.clause k).start := by
      rw [hc.write, hold]
      exact h.kept_le hk.le
    have hnext : offset a.size held (k + 1) = (c.clause k).start + a.size k := by
      rw [offset_succ, if_pos hheld, hold]
    have hinside : (c.clause k).start + a.size k ≤ a.clauseArena.length := by
      rw [h.length, ← hnext]
      exact offset_mono hk
    have hsource : slice c.clauseArena (c.clause k).start (a.size k) = a.literals k := by
      rw [literals, hc.later k le_rfl]
      refine slice_congr fun i hi => hc.rest _ ?_
      rw [← hc.later k le_rfl, hold]
      omega
    rw [if_neg (by simp)]
    by_cases hmove : (c.clause k).start ≠ c.write
    · obtain ⟨clauseArena, hcopy⟩ : ∃ clauseArena, copyWithin c.clauseArena (c.clause k).start
          (c.clause k).length c.write = some clauseArena :=
        exists_copyWithin (by rw [hlen, hc.arena]; exact hinside) (by rw [hlen, hc.arena]; omega)
      dsimp only
      rw [if_pos hmove, hcopy]
      refine ⟨_, rfl, hc.pass h hk hkept ((length_copyWithin hcopy).trans hc.arena) ?_ ?_ ?_⟩
      · rw [← hlen, slice_copyWithin hcopy, hlen, hsource]
      · intro j hj hj'
        refine slice_copyWithin_of_disjoint hcopy (.inl ?_)
        rw [hc.write]
        exact offset_add_le hj' hj
      · intro i hi
        rw [getElem?_copyWithin hcopy, if_neg (by omega)]
    · have hstay : (c.clause k).start = c.write := not_not.1 hmove
      dsimp only
      rw [if_neg hmove]
      exact ⟨_, rfl, hc.pass h hk hkept hc.arena (hstay ▸ hsource) (fun _ _ _ => rfl)
        fun _ _ => rfl⟩

/-- The passes of the loop never fail. -/
lemma Layout.compactPasses (h : Layout a held) {first : ℕ} (hfirst : a.arenaGarbageClause = first)
    (hstart : Compacting a held first a.compactionStart) (passes : ℕ)
    (hle : first + passes ≤ a.count) :
    ∃ c, a.compactPasses passes = some c ∧ Compacting a held (first + passes) c := by
  induction passes with
  | zero => exact ⟨_, rfl, hstart⟩
  | succ passes ih =>
    obtain ⟨c, he, hc⟩ := ih (by omega)
    obtain ⟨c', he', hc'⟩ := hc.step h (by omega)
    refine ⟨c', ?_, hc'⟩
    rw [Arena.compactPasses, List.range'_1_concat, List.foldlM_append, hfirst]
    rw [Arena.compactPasses, hfirst] at he
    rw [he]
    simpa using he'

/-! ### The whole compaction -/

/-- The live clauses lie inside the arena, apart from each other. -/
structure Sound (a : Arena) : Prop where
  inside : ∀ k, a.Live k → (a.clause k).start + a.size k ≤ a.clauseArena.length
  apart : ∀ j k, a.Live j → a.Live k → j ≠ k →
    (a.clause j).start + a.size j ≤ (a.clause k).start ∨
      (a.clause k).start + a.size k ≤ (a.clause j).start

/-- Before every pass of the loop, the clause goes to a place at or below its own, and ends before
the literals of the clauses that have not been moved yet. -/
def NeverOverwrites (a : Arena) : Prop :=
  ∀ passes c, a.arenaGarbageLiterals ≠ 0 → a.arenaGarbageClause + passes < a.count →
    a.compactPasses passes = some c → a.Live (a.arenaGarbageClause + passes) →
    c.write ≤ (c.clause (a.arenaGarbageClause + passes)).start ∧
      ∀ j, a.arenaGarbageClause + passes < j → a.Live j → c.clause j = a.clause j ∧
        slice c.clauseArena (a.clause j).start (a.size j) = a.literals j ∧
        c.write + a.size (a.arenaGarbageClause + passes) ≤ (a.clause j).start

/-- The second arena is the first with its garbage removed. -/
structure Compacted (a a' : Arena) : Prop where
  config : a'.compactClauseArena = a.compactClauseArena
  count : a'.count = a.count
  size : a'.size = a.size
  deleted : ∀ k, (a'.clause k).deleted = (a.clause k).deleted
  learned : ∀ k, (a'.clause k).learned = (a.clause k).learned
  literals : ∀ k, a.Live k → a'.literals k = a.literals k
  length : a'.clauseArena.length + a.arenaGarbageLiterals = a.clauseArena.length
  garbageLiterals : a'.arenaGarbageLiterals = 0
  garbageStats : a'.stats.arenaGarbageLiterals = 0

lemma Layout.sound (h : Layout a held) : a.Sound := by
  refine ⟨fun k hk => h.inside hk.1 (h.live k hk.1 hk.kept), fun j k hj hk hne => ?_⟩
  rcases Nat.lt_or_gt_of_ne hne with hlt | hlt
  · exact .inl (h.apart hj hk hlt)
  · exact .inr (h.apart hk hj hlt)

/-- Garbage is recorded only while there is some, and then the loop starts at the lowest. -/
lemma Ok.compacting (h : a.Ok) (hne : a.arenaGarbageLiterals ≠ 0) :
    ∃ held, Layout a held ∧ Tallied a held ∧ a.arenaGarbageClause < a.count ∧
      Compacting a held a.arenaGarbageClause a.compactionStart := by
  obtain ⟨held, hl, ht, hu⟩ := h
  cases hc : a.compactClauseArena with
  | false => exact absurd (hu hc).literals hne
  | true =>
    have ht := ht hc
    rcases ht.lowest with ⟨hnone, -, -⟩ | ⟨k, hk, hgarbage, hlow, hclause, hstart⟩
    · refine absurd ?_ hne
      rw [ht.literals]
      refine Finset.sum_eq_zero fun j hj => ?_
      rw [hnone j (Finset.mem_range.1 hj)]
      rfl
    · rw [hclause]
      exact ⟨held, hl, ht, hk, hl.compacting_start hk hgarbage hlow hstart⟩

lemma Ok.neverOverwrites (h : a.Ok) : a.NeverOverwrites := by
  intro passes c hne hlt he hlive
  obtain ⟨held, hl, -, -, hstart⟩ := h.compacting hne
  obtain ⟨c', he', hc⟩ := hl.compactPasses rfl hstart passes hlt.le
  rw [he] at he'
  obtain rfl := Option.some.inj he'
  have hheld := hl.live _ hlt hlive.kept
  have hwrite : c.write ≤ (a.clause (a.arenaGarbageClause + passes)).start := by
    rw [hc.write, hl.start _ hlt hheld]
    exact hl.kept_le hlt.le
  refine ⟨by rw [hc.later _ le_rfl]; exact hwrite, fun j hj hlivej => ⟨hc.later j hj.le, ?_, ?_⟩⟩
  · refine slice_congr fun i hi => hc.rest _ ?_
    rw [hl.start j hlivej.1 (hl.live j hlivej.1 hlivej.kept)]
    exact (offset_mono hj.le).trans (Nat.le_add_right _ _)
  · have := hl.apart hlive hlivej hj
    omega

/-- The compaction of a layout: it does not fail, and leaves the live clauses alone. -/
lemma Ok.compact (h : a.Ok) : ∃ a', a.compact = some a' ∧ Compacted a a' ∧ a'.Ok := by
  by_cases hne : a.arenaGarbageLiterals = 0
  · have hstats : a.stats.arenaGarbageLiterals = 0 := by
      obtain ⟨held, -, ht, hu⟩ := h
      cases hc : a.compactClauseArena with
      | true => exact (ht hc).stats.trans hne
      | false => exact (hu hc).stats
    exact ⟨a, if_pos hne, ⟨rfl, rfl, rfl, fun _ => rfl, fun _ => rfl, fun _ _ => rfl,
      by rw [hne]; rfl, hne, hstats⟩, h⟩
  · obtain ⟨held, hl, ht, hlt, hstart⟩ := h.compacting hne
    obtain ⟨c, he, hc⟩ := hl.compactPasses rfl hstart (a.count - a.arenaGarbageClause) (by omega)
    rw [show a.arenaGarbageClause + (a.count - a.arenaGarbageClause) = a.count by omega] at hc
    have hsplit : offset a.size held a.count = offset a.size a.kept a.count +
        offset a.size (a.garbage held) a.count := offset_split a.kept hl.live
    have htotal : c.write + a.arenaGarbageLiterals = a.clauseArena.length := by
      rw [hc.write, ht.literals, hl.length, hsplit]
    have hle : c.write ≤ a.clauseArena.length := by omega
    have hbound := hl.bound
    have hcompact : a.compact = some (a.truncate c) := by
      rw [Arena.compact, if_neg hne, he]
      exact if_pos hle
    have hlength : (a.truncate c).clauseArena.length = c.write := by
      rw [truncate, List.length_take, hc.arena, Nat.min_eq_left hle]
    refine ⟨_, hcompact, ?_, a.kept,
      ⟨fun k _ hk => ?_, fun k hk hh => ?_, ?_, ?_, hl.count⟩,
      fun _ => ⟨?_, .inl ⟨fun k _ => ?_, rfl, rfl⟩, rfl⟩, fun _ => ⟨rfl, rfl⟩⟩
    · refine ⟨rfl, rfl, funext hc.size, hc.deleted, hc.learned, fun k hk => ?_, ?_, rfl, rfl⟩
      · have hend : offset a.size a.kept k + a.size k ≤ offset a.size a.kept a.count :=
          offset_add_le hk.kept hk.1
        rw [← hc.write] at hend
        rw [← hc.moved k hk.1 hk.kept, literals]
        simp only [truncate]
        rw [hc.start k hk.1 hk.kept, hc.size]
        exact slice_take hend
      · rw [hlength, htotal]
    · -- The clauses in the arena are now the live ones.
      rw [kept, truncate, hc.deleted] at hk
      exact hk
    · exact (hc.start k hk hh).trans (offset_congr (fun _ _ => rfl) fun j _ => (hc.size j).symm)
    · rw [hlength, hc.write]
      exact offset_congr (fun _ _ => rfl) fun j _ => (hc.size j).symm
    · rw [hlength]
      omega
    · refine (Finset.sum_eq_zero fun j _ => ?_).symm
      simp [garbage, kept, truncate, hc.deleted]
    · simp [garbage, kept, truncate, hc.deleted]

lemma Reachable.ok {enabled : Bool} (h : Reachable enabled a) : a.Ok := by
  induction h with
  | new => exact ok_new enabled
  | allocate _ he ih => exact ok_allocateClause ih he
  | delete _ he ih => exact ok_markClauseDeleted ih he
  | swap _ he ih => exact ok_swapLiterals ih he
  | compact _ he ih =>
    obtain ⟨a', he', -, hok⟩ := ih.compact
    rw [he] at he'
    obtain rfl := Option.some.inj he'
    exact hok

/-- **Compaction is transparent.**  In every history of the arena the live clauses lie apart inside
it; a compaction does not fail, copies nothing over literals that have not been moved, leaves the
literals of the live clauses as they are, and removes as many literals as are recorded as
garbage. -/
theorem compact_transparent {enabled : Bool} (h : Reachable enabled a) :
    a.Sound ∧ a.NeverOverwrites ∧ ∃ a', a.compact = some a' ∧ Compacted a a' ∧ a'.Sound := by
  obtain ⟨a', he, hcompacted, held, hl, -⟩ := h.ok.compact
  obtain ⟨held₀, hl₀, -⟩ := h.ok
  exact ⟨hl₀.sound, h.ok.neverOverwrites, a', he, hcompacted, hl.sound⟩

/-- Two clauses of which the first is deleted. -/
theorem compact_transparent_two : ∃ a : Arena, a.arenaGarbageLiterals = 3 ∧
    a.clauseArena.length = 7 ∧ a.Sound ∧ a.NeverOverwrites ∧
    ∃ a', a.compact = some a' ∧ Compacted a a' ∧ a'.Sound := by
  have h0 : Reachable true (Arena.new true) := .new
  have h1 := h0.allocate (show (Arena.new true).allocateClause
    [⟨0, true⟩, ⟨1, true⟩, ⟨2, true⟩] true = some (.long 0, _) from rfl)
  have h2 := h1.allocate (show Arena.allocateClause _
    [⟨3, true⟩, ⟨0, false⟩, ⟨1, true⟩, ⟨2, false⟩] false = some (.long 1, _) from rfl)
  have h3 := h2.delete (show Arena.markClauseDeleted _ (.long 0) = some _ from rfl)
  exact ⟨_, rfl, rfl, compact_transparent h3⟩

end Arena

end Satrap
