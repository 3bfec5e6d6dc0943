/-
# Merging classes with reasons

A partition of the numbers below a size by parents, as in a union-find structure without path
compression, together with a graph whose edges carry the reasons for the merges.  Numbers are in
one class exactly when they have been merged, and an explanation of two numbers of one class
consists of reasons of merges and is enough for their equality.
-/
import Mathlib.Data.Finset.Card
import Mathlib.Logic.Function.Iterate
import Mathlib.Logic.Relation

namespace Satrap.Logic

/-- An edge of the graph, with the reason for the merge. -/
structure Edge (ρ : Type) where
  target : ℕ
  reason : List ρ

/-- The partition and the graph of its merges. -/
structure Merging (ρ : Type) where
  size : ℕ
  parent : ℕ → ℕ
  rank : ℕ → ℕ
  graph : ℕ → List (Edge ρ)

namespace Merging

variable {ρ : Type} (m : Merging ρ)

/-- Every number is alone in its class. -/
def discrete (size : ℕ) : Merging ρ := ⟨size, id, fun _ => 0, fun _ => []⟩

/-- The root above a number, if it is reached in fewer steps than given. -/
def findWithin : ℕ → ℕ → Option ℕ
  | 0, _ => none
  | steps + 1, i => if m.parent i = i then some i else findWithin steps (m.parent i)

/-- The root above a number. -/
def find (i : ℕ) : Option ℕ := m.findWithin m.size i

/-- One root gets the other as its parent. -/
def attach (cap root other : ℕ) : Merging ρ :=
  { m with
    parent := Function.update m.parent other root
    rank := if m.rank root = m.rank other then
      Function.update m.rank root (min cap (m.rank root + 1)) else m.rank }

/-- An edge between two numbers, in both directions. -/
def connect (left right : ℕ) (reason : List ρ) : Merging ρ :=
  { m with
    graph := fun i =>
      if i = left then m.graph i ++ [⟨right, reason⟩]
      else if i = right then m.graph i ++ [⟨left, reason⟩]
      else m.graph i }

variable [DecidableEq ρ]

/-- Merge the classes of two numbers; says whether they were different.  The root of lower rank
gets the other as its parent. -/
def union (cap left right : ℕ) (reason : List ρ) : Option (Bool × Merging ρ) := do
  let leftRoot ← m.find left
  let rightRoot ← m.find right
  if leftRoot = rightRoot then some (false, m)
  else
    let m := m.connect left right reason.eraseDups
    if m.rank leftRoot < m.rank rightRoot then some (true, m.attach cap rightRoot leftRoot)
    else some (true, m.attach cap leftRoot rightRoot)

/-- The node and the edge through which every node of the graph was found. -/
abbrev Previous : Type := ℕ → Option (ℕ × ℕ)

/-- The edges of a node lead to new nodes. -/
def scan (node : ℕ) : List (Edge ρ) → ℕ → List ℕ → Previous → List ℕ × Previous
  | [], _, queue, previous => (queue, previous)
  | edge :: rest, i, queue, previous =>
    if (previous edge.target).isNone then
      scan node rest (i + 1) (queue ++ [edge.target]) (Function.update previous edge.target (some (node, i)))
    else scan node rest (i + 1) queue previous

/-- Breadth-first search for a node. -/
def search (goal : ℕ) : ℕ → List ℕ → Previous → Option Previous
  | _, [], previous => some previous
  | 0, _ :: _, _ => none
  | steps + 1, node :: queue, previous =>
    if node = goal then some previous
    else
      let (queue, previous) := scan node (m.graph node) 0 queue previous
      search goal steps queue previous

/-- The reasons of the edges on the way back to the start. -/
def trace (start : ℕ) (previous : Previous) : ℕ → ℕ → Option (List ρ)
  | 0, node => if node = start then some [] else none
  | steps + 1, node =>
    if node = start then some []
    else do
      let (parent, i) ← previous node
      let edge ← (m.graph parent)[i]?
      let rest ← trace start previous steps parent
      some (edge.reason ++ rest)

/-- The reasons for the equality of two numbers. -/
def explain (left right : ℕ) : Option (List ρ) :=
  if left = right then some []
  else do
    let previous ← m.search right m.size [left]
      (Function.update (fun _ => none) left (some (left, 0)))
    let explanation ← m.trace left previous m.size right
    some explanation.eraseDups

/-! ### Roots -/

/-- The root is reached from the number in the given number of steps. -/
inductive Leads (parent : ℕ → ℕ) : ℕ → ℕ → ℕ → Prop
  | root {r : ℕ} (h : parent r = r) : Leads parent r 0 r
  | step {i k r : ℕ} (h : parent i ≠ i) (hnext : Leads parent (parent i) k r) :
      Leads parent i (k + 1) r

namespace Leads

variable {parent : ℕ → ℕ} {i k k' r r' : ℕ}

lemma isRoot (h : Leads parent i k r) : parent r = r := by
  induction h with
  | root h => exact h
  | step _ _ ih => exact ih

lemma unique (h : Leads parent i k r) (h' : Leads parent i k' r') : k = k' ∧ r = r' := by
  induction h generalizing k' with
  | root h =>
    cases h' with
    | root _ => exact ⟨rfl, rfl⟩
    | step hne _ => exact absurd h hne
  | step hne _ ih =>
    cases h' with
    | root h => exact absurd h hne
    | step _ h' =>
      obtain ⟨rfl, rfl⟩ := ih h'
      exact ⟨rfl, rfl⟩

lemma iterate (h : Leads parent i k r) {j : ℕ} (hj : j ≤ k) :
    Leads parent (parent^[j] i) (k - j) r := by
  induction j generalizing i k with
  | zero => exact h
  | succ j ih =>
    cases h with
    | root _ => exact absurd hj (Nat.not_succ_le_zero j)
    | step _ hnext =>
      rw [Function.iterate_succ_apply, Nat.add_sub_add_right]
      exact ih hnext (Nat.le_of_succ_le_succ hj)

/-- Numbers on the way to the root do not repeat. -/
lemma lt_size {size : ℕ} (h : Leads parent i k r) (hbounded : ∀ i < size, parent i < size)
    (hi : i < size) : k < size := by
  have hmaps : ∀ j, parent^[j] i < size := fun j => by
    induction j with
    | zero => exact hi
    | succ j ih =>
      rw [Function.iterate_succ_apply']
      exact hbounded _ ih
  have hinjective : Set.InjOn (fun j => parent^[j] i) (Finset.range (k + 1)) := by
    intro a ha b hb hab
    rw [Finset.coe_range, Set.mem_Iio] at ha hb
    have heq : parent^[a] i = parent^[b] i := hab
    have hsteps := (heq ▸ h.iterate (Nat.le_of_lt_succ ha)).unique (h.iterate (Nat.le_of_lt_succ hb))
    omega
  have hcard := Finset.card_le_card_of_injOn (t := Finset.range size) _
    (fun j _ => Finset.coe_range size ▸ Set.mem_Iio.2 (hmaps j)) hinjective
  rwa [Finset.card_range, Finset.card_range] at hcard

lemma root_lt {size : ℕ} (h : Leads parent i k r) (hbounded : ∀ i < size, parent i < size)
    (hi : i < size) : r < size := by
  induction h with
  | root _ => exact hi
  | step _ _ ih => exact ih (hbounded _ hi)

/-- A root has got another root as its parent. -/
lemma update {root other : ℕ} (h : Leads parent i k r) (hroot : parent root = root)
    (hother : parent other = other) (hne : root ≠ other) :
    Leads (Function.update parent other root) i (if r = other then k + 1 else k)
      (if r = other then root else r) := by
  have hstays : Function.update parent other root root = root := by
    rw [Function.update_of_ne hne, hroot]
  induction h with
  | @root r h =>
    split_ifs with hr
    · subst hr
      refine .step ?_ ?_
      · rwa [Function.update_self]
      · rw [Function.update_self]
        exact .root hstays
    · exact .root (by rw [Function.update_of_ne hr, h])
  | @step i k r hi _ ih =>
    have hnot : i ≠ other := by
      rintro rfl
      exact hi hother
    have hparent : Function.update parent other root i = parent i := Function.update_of_ne hnot _ _
    have hmoves : Function.update parent other root i ≠ i := by rwa [hparent]
    have hnext := Leads.step hmoves (by rw [hparent]; exact ih)
    split_ifs at hnext ⊢ <;> exact hnext

end Leads

variable {m : Merging ρ} {i j k r : ℕ}

omit [DecidableEq ρ] in
lemma findWithin_of_leads (h : Leads m.parent i k r) {steps : ℕ} (hk : k < steps) :
    m.findWithin steps i = some r := by
  induction h generalizing steps with
  | root h =>
    obtain ⟨steps, rfl⟩ : ∃ n, steps = n + 1 := ⟨steps - 1, by omega⟩
    rw [findWithin, if_pos h]
  | step hne _ ih =>
    obtain ⟨steps, rfl⟩ : ∃ n, steps = n + 1 := ⟨steps - 1, by omega⟩
    rw [findWithin, if_neg hne]
    exact ih (by omega)

/-- Some edge leads from the first number to the second. -/
def Adjacent (m : Merging ρ) (i j : ℕ) : Prop := ∃ e ∈ m.graph i, e.target = j

/-- Edges lead from the first number to the second. -/
abbrev Linked (m : Merging ρ) : ℕ → ℕ → Prop := Relation.ReflTransGen m.Adjacent

/-- Parents lead to roots, and numbers of one class are linked. -/
structure Ok (m : Merging ρ) : Prop where
  bounded : ∀ i < m.size, m.parent i < m.size
  rooted : ∀ i < m.size, ∃ k r, Leads m.parent i k r
  edges : ∀ i < m.size, ∀ e ∈ m.graph i, e.target < m.size
  linked : ∀ i < m.size, ∀ k r, Leads m.parent i k r → m.Linked i r ∧ m.Linked r i

omit [DecidableEq ρ] in
lemma ok_discrete (size : ℕ) : (discrete size : Merging ρ).Ok where
  bounded _ hi := hi
  rooted i _ := ⟨0, i, .root rfl⟩
  edges _ _ _ he := absurd he List.not_mem_nil
  linked i _ k r h := by
    obtain ⟨rfl, rfl⟩ := h.unique (.root rfl)
    exact ⟨.refl, .refl⟩

/-- The numbers are in one class. -/
def Same (m : Merging ρ) (i j : ℕ) : Prop := m.find i = m.find j

instance (m : Merging ρ) (i j : ℕ) : Decidable (m.Same i j) := decEq _ _

namespace Ok

omit [DecidableEq ρ]

lemma find_eq (h : m.Ok) (hi : i < m.size) (hleads : Leads m.parent i k r) :
    m.find i = some r := findWithin_of_leads hleads (hleads.lt_size h.bounded hi)

lemma exists_find (h : m.Ok) (hi : i < m.size) :
    ∃ k r, Leads m.parent i k r ∧ r < m.size ∧ m.find i = some r := by
  obtain ⟨k, r, hleads⟩ := h.rooted i hi
  exact ⟨k, r, hleads, hleads.root_lt h.bounded hi, h.find_eq hi hleads⟩

/-- Numbers of one class are linked. -/
lemma linked_of_same (h : m.Ok) (hi : i < m.size) (hj : j < m.size) (hsame : m.Same i j) :
    m.Linked i j := by
  obtain ⟨k, r, hleads, -, hfind⟩ := h.exists_find hi
  obtain ⟨k', r', hleads', -, hfind'⟩ := h.exists_find hj
  obtain rfl : r = r' := Option.some.inj (hfind.symm.trans (hsame.trans hfind'))
  exact (h.linked i hi k r hleads).1.trans (h.linked j hj k' r hleads').2

end Ok

/-! ### Merges -/

/-- The number of classes. -/
def classes (m : Merging ρ) : ℕ := ((Finset.range m.size).filter fun i => m.parent i = i).card

omit [DecidableEq ρ] in
lemma classes_le (m : Merging ρ) : m.classes ≤ m.size := by
  have := Finset.card_filter_le (Finset.range m.size) fun i => m.parent i = i
  rwa [Finset.card_range] at this

/-- What a merge does. -/
structure Merged (m : Merging ρ) (left right : ℕ) (reason : List ρ) (changed : Bool)
    (m' : Merging ρ) : Prop where
  ok : m'.Ok
  size : m'.size = m.size
  differ : changed = true ↔ ¬ m.Same left right
  same : ∀ i < m.size, ∀ j < m.size, m'.Same i j ↔
    m.Same i j ∨ m.Same i left ∧ m.Same j right ∨ m.Same i right ∧ m.Same j left
  edges : ∀ i, ∀ e ∈ m'.graph i, e ∈ m.graph i ∨
    i = left ∧ e = ⟨right, reason.eraseDups⟩ ∨ i = right ∧ e = ⟨left, reason.eraseDups⟩
  kept : changed = false → m' = m
  fewer : changed = true → m'.classes < m.classes

omit [DecidableEq ρ] in
lemma mem_connect {left right : ℕ} {reason : List ρ} {e : Edge ρ} :
    e ∈ (m.connect left right reason).graph i ↔ e ∈ m.graph i ∨
      i = left ∧ e = ⟨right, reason⟩ ∨ i ≠ left ∧ i = right ∧ e = ⟨left, reason⟩ := by
  unfold connect
  dsimp only
  split_ifs with hleft hright
  · simp [hleft]
  · subst hright
    simp [hleft]
  · simp [hleft, hright]

omit [DecidableEq ρ] in
lemma linked_connect (left right : ℕ) (reason : List ρ) (h : m.Linked i j) :
    (m.connect left right reason).Linked i j := by
  refine Relation.ReflTransGen.mono ?_ _ _ h
  rintro a b ⟨e, he, htarget⟩
  exact ⟨e, mem_connect.2 (.inl he), htarget⟩

omit [DecidableEq ρ] in
lemma classes_attach (cap : ℕ) {root other : ℕ} (hother : m.parent other = other)
    (hne : root ≠ other) (hlt : other < m.size) : (m.attach cap root other).classes < m.classes := by
  have hparent : (m.attach cap root other).parent = Function.update m.parent other root := rfl
  refine Finset.card_lt_card ((Finset.ssubset_iff_of_subset fun i hi => ?_).2 ⟨other, ?_, ?_⟩)
  · rw [Finset.mem_filter, hparent] at hi
    have hio : i ≠ other := by
      rintro rfl
      rw [Function.update_self] at hi
      exact hne hi.2
    rw [Function.update_of_ne hio] at hi
    exact Finset.mem_filter.2 hi
  · exact Finset.mem_filter.2 ⟨Finset.mem_range.2 hlt, hother⟩
  · rw [Finset.mem_filter, hparent, Function.update_self]
    exact fun h => hne h.2

omit [DecidableEq ρ] in
/-- Of two linked roots one gets the other as its parent. -/
lemma Ok.attach (h : m.Ok) (cap : ℕ) {root other : ℕ} (hroot : m.parent root = root)
    (hother : m.parent other = other) (hne : root ≠ other) (hlt : root < m.size)
    (hlinked : m.Linked root other) (hlinked' : m.Linked other root) :
    (m.attach cap root other).Ok ∧ ∀ i < m.size, ∀ k r, Leads m.parent i k r →
      (m.attach cap root other).find i = some (if r = other then root else r) := by
  have hbounded : ∀ i < m.size, (m.attach cap root other).parent i < m.size := by
    intro i hi
    by_cases hio : i = other
    · subst hio
      show Function.update m.parent i root i < m.size
      rw [Function.update_self]
      exact hlt
    · show Function.update m.parent other root i < m.size
      rw [Function.update_of_ne hio]
      exact h.bounded i hi
  have hok : (m.attach cap root other).Ok := by
    refine ⟨hbounded, fun i hi => ?_, h.edges, fun i hi k r hleads => ?_⟩
    · obtain ⟨k, r, hleads⟩ := h.rooted i hi
      exact ⟨_, _, hleads.update hroot hother hne⟩
    · obtain ⟨k₀, r₀, hleads₀⟩ := h.rooted i hi
      obtain ⟨-, rfl⟩ := hleads.unique (hleads₀.update hroot hother hne)
      obtain ⟨hforth, hback⟩ := h.linked i hi k₀ r₀ hleads₀
      by_cases hr : r₀ = other
      · rw [if_pos hr]
        subst hr
        exact ⟨hforth.trans hlinked', hlinked.trans hback⟩
      · rw [if_neg hr]
        exact ⟨hforth, hback⟩
  exact ⟨hok, fun i hi k r hleads => hok.find_eq hi (hleads.update hroot hother hne)⟩

omit [DecidableEq ρ] in
lemma same_iff (h : m.Ok) {k' r' : ℕ} (hi : i < m.size) (hj : j < m.size)
    (hleads : Leads m.parent i k r) (hleads' : Leads m.parent j k' r') :
    m.Same i j ↔ r = r' := by
  unfold Same
  rw [h.find_eq hi hleads, h.find_eq hj hleads', Option.some_inj]

/-- Merging succeeds, and merges the two classes and no others. -/
lemma union_merged (h : m.Ok) {left right : ℕ} (hleft : left < m.size) (hright : right < m.size)
    (cap : ℕ) (reason : List ρ) :
    ∃ changed m', m.union cap left right reason = some (changed, m') ∧
      Merged m left right reason changed m' := by
  obtain ⟨k, leftRoot, hleads, hlt, hfind⟩ := h.exists_find hleft
  obtain ⟨k', rightRoot, hleads', hlt', hfind'⟩ := h.exists_find hright
  have hsame := same_iff h hleft hright hleads hleads'
  unfold union
  rw [hfind, hfind']
  dsimp only [Option.bind_eq_bind, Option.bind_some]
  by_cases heq : leftRoot = rightRoot
  · rw [if_pos heq]
    refine ⟨false, m, rfl, h, rfl, ?_, fun i hi j hj => ?_, fun _ _ he => .inl he, fun _ => rfl,
      nofun⟩
    · simp [hsame, heq]
    · have hone := hsame.2 heq
      refine ⟨.inl, ?_⟩
      rintro (hij | ⟨hil, hjr⟩ | ⟨hir, hjl⟩)
      · exact hij
      · exact hil.trans (hone.trans hjr.symm)
      · exact hir.trans (hone.symm.trans hjl.symm)
  rw [if_neg heq]
  set n := m.connect left right reason.eraseDups with hn
  have hok : n.Ok := by
    refine ⟨h.bounded, h.rooted, fun i hi e he => ?_, fun i hi k r hleads => ?_⟩
    · rcases mem_connect.1 he with hold | ⟨-, rfl⟩ | ⟨-, -, rfl⟩
      · exact h.edges i hi e hold
      · exact hright
      · exact hleft
    · exact (h.linked i hi k r hleads).imp (linked_connect _ _ _) (linked_connect _ _ _)
  have hne : left ≠ right := by
    rintro rfl
    exact heq (hleads.unique hleads').2
  have hacross : n.Linked left right ∧ n.Linked right left :=
    ⟨.single ⟨_, mem_connect.2 (.inr (.inl ⟨rfl, rfl⟩)), rfl⟩,
      .single ⟨_, mem_connect.2 (.inr (.inr ⟨hne.symm, rfl, rfl⟩)), rfl⟩⟩
  obtain ⟨hup, hdown⟩ := hok.linked left hleft k leftRoot hleads
  obtain ⟨hup', hdown'⟩ := hok.linked right hright k' rightRoot hleads'
  have hforth : n.Linked leftRoot rightRoot := hdown.trans (hacross.1.trans hup')
  have hback : n.Linked rightRoot leftRoot := hdown'.trans (hacross.2.trans hup)
  have hedges : ∀ i, ∀ e ∈ n.graph i, e ∈ m.graph i ∨
      i = left ∧ e = ⟨right, reason.eraseDups⟩ ∨ i = right ∧ e = ⟨left, reason.eraseDups⟩ :=
    fun i e he => (mem_connect.1 he).imp_right (Or.imp_right And.right)
  -- Whichever root is attached, the numbers below the two roots come together.
  have hmerged : ∀ {root other : ℕ}, (root = leftRoot ∧ other = rightRoot ∨
      root = rightRoot ∧ other = leftRoot) → (n.attach cap root other).Ok → (∀ i < n.size, ∀ k r,
      Leads n.parent i k r → (n.attach cap root other).find i =
        some (if r = other then root else r)) →
      (n.attach cap root other).classes < n.classes →
      Merged m left right reason true (n.attach cap root other) := by
    intro root other hroots hok' hfinds hfewer
    refine ⟨hok', rfl, by simp [hsame, heq], fun i hi j hj => ?_, hedges, nofun, fun _ => hfewer⟩
    obtain ⟨ki, ri, hi'⟩ := h.rooted i hi
    obtain ⟨kj, rj, hj'⟩ := h.rooted j hj
    rw [same_iff h hi hj hi' hj', same_iff h hi hleft hi' hleads, same_iff h hj hright hj' hleads',
      same_iff h hi hright hi' hleads', same_iff h hj hleft hj' hleads]
    unfold Same
    rw [hfinds i hi ki ri hi', hfinds j hj kj rj hj', Option.some_inj]
    rcases hroots with ⟨rfl, rfl⟩ | ⟨rfl, rfl⟩ <;> split_ifs <;> omega
  by_cases hrank : n.rank leftRoot < n.rank rightRoot
  · rw [if_pos hrank]
    obtain ⟨hok', hfinds⟩ := hok.attach cap hleads'.isRoot hleads.isRoot (Ne.symm heq) hlt' hback
      hforth
    exact ⟨true, _, rfl, hmerged (.inr ⟨rfl, rfl⟩) hok' hfinds
      (classes_attach cap hleads.isRoot (Ne.symm heq) hlt)⟩
  · rw [if_neg hrank]
    obtain ⟨hok', hfinds⟩ := hok.attach cap hleads.isRoot hleads'.isRoot heq hlt hforth hback
    exact ⟨true, _, rfl, hmerged (.inl ⟨rfl, rfl⟩) hok' hfinds
      (classes_attach cap hleads'.isRoot heq hlt')⟩

/-! ### Explanations -/

/-- The graph's edges are justified: their reasons give the relation. -/
def Justified (m : Merging ρ) (R : ℕ → ℕ → Prop) (Q : ρ → Prop) : Prop :=
  ∀ i < m.size, ∀ e ∈ m.graph i, (∀ l ∈ e.reason, Q l) → R i e.target

/-- What has been found from the start, in the order in which it was found. -/
structure Found (m : Merging ρ) (start : ℕ) (found : List ℕ) (previous : Previous) : Prop where
  nodup : found.Nodup
  bounded : ∀ i ∈ found, i < m.size
  start_mem : start ∈ found
  mem_iff : ∀ i, i ∈ found ↔ (previous i).isSome
  back : ∀ before node after, found = before ++ node :: after → node ≠ start →
    ∃ p ∈ before, ∃ i e, previous node = some (p, i) ∧ (m.graph p)[i]? = some e ∧ e.target = node

section Search

omit [DecidableEq ρ]

variable {start goal node : ℕ} {found queue done : List ℕ} {previous : Previous}

lemma Found.begin (h : start < m.size) (pair : ℕ × ℕ) :
    Found m start [start] (Function.update (fun _ => none) start (some pair)) where
  nodup := List.nodup_singleton start
  bounded i hi := List.mem_singleton.1 hi ▸ h
  start_mem := List.mem_singleton_self start
  mem_iff i := by
    rw [List.mem_singleton, Function.update_apply]
    split_ifs with hi <;> simp [hi]
  back before node after hfound hne := by
    cases before with
    | nil => exact absurd (List.cons.inj hfound).1.symm hne
    | cons a before =>
      have := (List.cons.inj hfound).2
      simp at this

lemma Found.length_le (h : Found m start found previous) : found.length ≤ m.size := by
  have hsub : found.toFinset ⊆ Finset.range m.size := fun i hi =>
    Finset.mem_range.2 (h.bounded i (List.mem_toFinset.1 hi))
  have := Finset.card_le_card hsub
  rwa [List.toFinset_card_of_nodup h.nodup, Finset.card_range] at this

/-- A new node is found. -/
lemma Found.push (h : Found m start found previous) {p i : ℕ} {e : Edge ρ} (hp : p ∈ found)
    (he : (m.graph p)[i]? = some e) (hbound : e.target < m.size)
    (hnew : (previous e.target).isNone) :
    Found m start (found ++ [e.target])
      (Function.update previous e.target (some (p, i))) := by
  have hnot : e.target ∉ found := by
    rw [h.mem_iff]
    simpa using hnew
  refine ⟨?_, ?_, List.mem_append_left _ h.start_mem, fun j => ?_, ?_⟩
  · exact List.nodup_append.2 ⟨h.nodup, List.nodup_singleton _, by
      rintro a ha b hb rfl
      exact hnot (List.mem_singleton.1 hb ▸ ha)⟩
  · intro j hj
    rcases List.mem_append.1 hj with hold | hlast
    · exact h.bounded j hold
    · exact List.mem_singleton.1 hlast ▸ hbound
  · rw [List.mem_append, List.mem_singleton, Function.update_apply]
    split_ifs with hj
    · simp [hj]
    · rw [← h.mem_iff]
      simp [hj]
  · intro before node after hfound hne
    rcases List.eq_nil_or_concat after with rfl | ⟨after, last, rfl⟩
    · obtain ⟨rfl, hlast⟩ := List.append_inj' hfound rfl
      obtain rfl := (List.cons.inj hlast).1
      exact ⟨p, hp, i, e, Function.update_self _ _ _, he, rfl⟩
    · rw [List.concat_eq_append, ← List.cons_append, ← List.append_assoc] at hfound
      obtain ⟨rfl, -⟩ := List.append_inj' hfound rfl
      obtain ⟨q, hq, j, e', hprevious, he', htarget⟩ := h.back before node after rfl hne
      refine ⟨q, hq, j, e', ?_, he', htarget⟩
      have hnode : node ≠ e.target := by
        rintro rfl
        exact hnot (List.mem_append_right _ List.mem_cons_self)
      rw [Function.update_of_ne hnode, hprevious]

/-- The edges of a node have been followed. -/
lemma scan_found (hok : m.Ok) (hnode : node ∈ done) (edges before : List (Edge ρ))
    (hgraph : m.graph node = before ++ edges) (h : Found m start (done ++ queue) previous) :
    ∃ queue' previous', scan node edges before.length queue previous = (queue', previous') ∧
      Found m start (done ++ queue') previous' ∧ queue <+: queue' ∧
      ∀ e ∈ edges, e.target ∈ done ++ queue' := by
  induction edges generalizing before queue previous with
  | nil => exact ⟨queue, previous, rfl, h, List.prefix_refl _, nofun⟩
  | cons edge rest ih =>
    have hmem : edge ∈ m.graph node := by
      rw [hgraph]
      exact List.mem_append_right _ List.mem_cons_self
    have hgraph' : m.graph node = (before ++ [edge]) ++ rest := by
      rw [hgraph, List.append_assoc, List.singleton_append]
    have hlength : before.length + 1 = (before ++ [edge]).length := by
      rw [List.length_append, List.length_singleton]
    unfold scan
    rw [hlength]
    split_ifs with hnew
    · have hedge : (m.graph node)[before.length]? = some edge := by
        rw [hgraph, List.getElem?_append_right le_rfl, Nat.sub_self]
        rfl
      have hlt : node < m.size := h.bounded node (List.mem_append_left _ hnode)
      have hpush := h.push (List.mem_append_left _ hnode) hedge (hok.edges node hlt edge hmem) hnew
      rw [List.append_assoc] at hpush
      obtain ⟨queue', previous', heq, hfound, hlonger, hall⟩ := ih _ hgraph' hpush
      refine ⟨queue', previous', heq, hfound, (List.prefix_append _ _).trans hlonger, ?_⟩
      refine List.forall_mem_cons.2 ⟨List.mem_append_right _ (hlonger.subset ?_), hall⟩
      exact List.mem_append_right _ (List.mem_singleton_self _)
    · obtain ⟨queue', previous', heq, hfound, hlonger, hall⟩ := ih _ hgraph' h
      refine ⟨queue', previous', heq, hfound, hlonger, List.forall_mem_cons.2 ⟨?_, hall⟩⟩
      have hold : edge.target ∈ done ++ queue := by
        rw [h.mem_iff, Option.isSome_iff_ne_none]
        simpa using hnew
      rcases List.mem_append.1 hold with hdone | hqueue
      · exact List.mem_append_left _ hdone
      · exact List.mem_append_right _ (hlonger.subset hqueue)

/-- The search ends, with the goal or with all that can be reached. -/
lemma search_found (hok : m.Ok) (goal steps : ℕ) (hsteps : m.size ≤ done.length + steps)
    (h : Found m start (done ++ queue) previous)
    (hclosed : ∀ i ∈ done, ∀ e ∈ m.graph i, e.target ∈ done ++ queue) :
    ∃ previous' found', m.search goal steps queue previous = some previous' ∧
      Found m start found' previous' ∧
      (goal ∈ found' ∨ ∀ i ∈ found', ∀ e ∈ m.graph i, e.target ∈ found') := by
  induction steps generalizing done queue previous with
  | zero =>
    cases queue with
    | nil =>
      rw [List.append_nil] at h hclosed
      exact ⟨previous, done, rfl, h, .inr hclosed⟩
    | cons node queue =>
      have := h.length_le
      rw [List.length_append, List.length_cons] at this
      omega
  | succ steps ih =>
    cases queue with
    | nil =>
      rw [List.append_nil] at h hclosed
      exact ⟨previous, done, rfl, h, .inr hclosed⟩
    | cons node queue =>
      unfold search
      split_ifs with hgoal
      · refine ⟨previous, _, rfl, h, .inl ?_⟩
        exact hgoal ▸ List.mem_append_right _ List.mem_cons_self
      · rw [List.append_cons] at h hclosed
        have hnode : node ∈ done ++ [node] := List.mem_append_right _ (List.mem_singleton_self _)
        obtain ⟨queue', previous', heq, hfound, hlonger, hall⟩ :=
          scan_found hok hnode (m.graph node) [] rfl h
        rw [List.length_nil] at heq
        rw [heq]
        refine ih (by rw [List.length_append, List.length_singleton]; omega) hfound ?_
        intro i hi e he
        rcases List.mem_append.1 hi with hdone | hlast
        · rcases List.mem_append.1 (hclosed i hdone e he) with hleft | hright
          · exact List.mem_append_left _ hleft
          · exact List.mem_append_right _ (hlonger.subset hright)
        · exact hall e (List.mem_singleton.1 hlast ▸ he)

/-- The way back from what has been found to the start gives reasons. -/
lemma trace_found (h : Found m start found previous) {before after : List ℕ}
    (hsplit : found = before ++ node :: after) (steps : ℕ) (hsteps : before.length ≤ steps) :
    ∃ reasons, m.trace start previous steps node = some reasons ∧
      (∀ l ∈ reasons, ∃ i < m.size, ∃ e ∈ m.graph i, l ∈ e.reason) ∧
      ∀ R Q, Equivalence R → m.Justified R Q → (∀ l ∈ reasons, Q l) → R start node := by
  induction steps generalizing node before after with
  | zero =>
    unfold trace
    obtain rfl : before = [] := List.eq_nil_of_length_eq_zero (Nat.le_zero.1 hsteps)
    by_cases hnode : node = start
    · rw [if_pos hnode]
      exact ⟨[], rfl, nofun, fun R Q hR _ _ => hnode ▸ hR.refl start⟩
    · obtain ⟨p, hp, -⟩ := h.back _ _ _ hsplit hnode
      exact absurd hp List.not_mem_nil
  | succ steps ih =>
    unfold trace
    by_cases hnode : node = start
    · rw [if_pos hnode]
      exact ⟨[], rfl, nofun, fun R Q hR _ _ => hnode ▸ hR.refl start⟩
    rw [if_neg hnode]
    obtain ⟨p, hp, i, e, hprevious, he, rfl⟩ := h.back _ _ _ hsplit hnode
    obtain ⟨front, back, rfl⟩ := List.append_of_mem hp
    have hfront : front.length ≤ steps := by
      rw [List.length_append, List.length_cons] at hsteps
      omega
    have hsplit' : found = front ++ p :: (back ++ e.target :: after) := by
      rw [hsplit, List.append_assoc, List.cons_append]
    obtain ⟨reasons, htrace, hreasons, hjustify⟩ := ih hsplit' hfront
    have hlt : p < m.size := h.bounded p (by rw [hsplit']; simp)
    have hmem : e ∈ m.graph p := List.mem_of_getElem? he
    rw [hprevious]
    dsimp only [Option.bind_eq_bind, Option.bind_some]
    rw [he]
    dsimp only [Option.bind_some]
    rw [htrace]
    refine ⟨_, rfl, ?_, fun R Q hR hQ hall => ?_⟩
    · intro l hl
      rcases List.mem_append.1 hl with hfirst | hrest
      · exact ⟨p, hlt, e, hmem, hfirst⟩
      · exact hreasons l hrest
    · refine hR.trans (hjustify R Q hR hQ fun l hl => hall l (List.mem_append_right _ hl)) ?_
      exact hQ p hlt e hmem fun l hl => hall l (List.mem_append_left _ hl)

end Search

/-- Numbers of one class have an explanation: reasons of merges that give every equivalence in
which the merges are justified. -/
theorem explain_same (h : m.Ok) {left right : ℕ} (hleft : left < m.size) (hright : right < m.size)
    (hsame : m.Same left right) :
    ∃ reasons, m.explain left right = some reasons ∧
      (∀ l ∈ reasons, ∃ i < m.size, ∃ e ∈ m.graph i, l ∈ e.reason) ∧
      ∀ R Q, Equivalence R → m.Justified R Q → (∀ l ∈ reasons, Q l) → R left right := by
  unfold explain
  by_cases hne : left = right
  · rw [if_pos hne]
    exact ⟨[], rfl, nofun, fun R Q hR _ _ => hne ▸ hR.refl left⟩
  rw [if_neg hne]
  have hbegin : Found m left ([] ++ [left]) _ := Found.begin hleft (left, 0)
  obtain ⟨previous, found, hsearch, hfound, hreached⟩ :=
    search_found h right m.size (by simp) hbegin nofun
  have hgoal : right ∈ found := by
    rcases hreached with hgoal | hclosed
    · exact hgoal
    · have hall : ∀ j, m.Linked left j → j ∈ found := fun j hj => by
        induction hj with
        | refl => exact hfound.start_mem
        | tail _ hadjacent ih =>
          obtain ⟨e, he, rfl⟩ := hadjacent
          exact hclosed _ ih e he
      exact hall right (h.linked_of_same hleft hright hsame)
  obtain ⟨before, after, hsplit⟩ := List.append_of_mem hgoal
  have hbefore : before.length ≤ m.size := by
    have := hfound.length_le
    rw [hsplit, List.length_append] at this
    omega
  obtain ⟨reasons, htrace, hreasons, hjustify⟩ := trace_found hfound hsplit m.size hbefore
  rw [hsearch]
  dsimp only [Option.bind_eq_bind, Option.bind_some]
  rw [htrace]
  refine ⟨_, rfl, fun l hl => hreasons l (List.mem_eraseDups.1 hl), fun R Q hR hQ hall => ?_⟩
  exact hjustify R Q hR hQ fun l hl => hall l (List.mem_eraseDups.2 hl)

end Merging

end Satrap.Logic
