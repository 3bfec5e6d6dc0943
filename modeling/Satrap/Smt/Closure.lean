/-
# The partition of the terms

A `Closure` keeps the terms of a check in classes.  A merge joins two classes and no others, a
question about two terms is answered by their classes, and an explanation of two terms of one class
is enough for every reading of the terms that the reasons of the merges justify.  The numbers that
the model gives to the terms of a sort tell the classes apart.
-/
import Satrap.Smt.Uf

namespace Satrap.Smt

open Logic TermStore TermM

variable {s : TermStore} {c c' : Closure} {t u : TermId} {i j : ℕ} {reason : List SignedTerm}

namespace Closure

/-- The terms are different and numbered by their places. -/
structure Ok (c : Closure) : Prop where
  merging : c.merging.Ok
  size : c.merging.size = c.terms.length
  nodup : c.terms.Nodup

/-- The terms are in one class. -/
def Joined (c : Closure) (t u : TermId) : Prop :=
  ∃ i j : ℕ, c.terms[i]? = some t ∧ c.terms[j]? = some u ∧ c.merging.Same i j

/-- The terms have the same reading if the reasons of merges hold. -/
def Explains {γ : Type} (c : Closure) (g : TermId → γ) (Q : SignedTerm → Prop) : Prop :=
  c.merging.Justified (fun i j => (c.terms[i]?).map g = (c.terms[j]?).map g) Q

/-- Every reason of a merge has the property. -/
def Uses (c : Closure) (P : SignedTerm → Prop) : Prop :=
  ∀ i < c.merging.size, ∀ e ∈ c.merging.graph i, ∀ l ∈ e.reason, P l

lemma ok_new {terms : List TermId} (hnodup : terms.Nodup) : (new terms).Ok :=
  ⟨Merging.ok_discrete _, rfl, hnodup⟩

lemma uses_new (terms : List TermId) (P : SignedTerm → Prop) : (new terms).Uses P :=
  fun _ _ _ he => absurd he List.not_mem_nil

lemma explains_new {γ : Type} (terms : List TermId) (g : TermId → γ) (Q : SignedTerm → Prop) :
    (new terms).Explains g Q := fun _ _ _ he => absurd he List.not_mem_nil

lemma Joined.mem_left (h : c.Joined t u) : t ∈ c.terms := by
  obtain ⟨i, -, hi, -⟩ := h
  exact List.mem_of_getElem? hi

lemma Joined.mem_right (h : c.Joined t u) : u ∈ c.terms := by
  obtain ⟨-, j, -, hj, -⟩ := h
  exact List.mem_of_getElem? hj

lemma Joined.symm (h : c.Joined t u) : c.Joined u t := by
  obtain ⟨i, j, hi, hj, hsame⟩ := h
  exact ⟨j, i, hj, hi, Eq.symm hsame⟩

lemma joined_refl (ht : t ∈ c.terms) : c.Joined t t := by
  obtain ⟨i, hi⟩ := List.mem_iff_getElem?.1 ht
  exact ⟨i, i, hi, hi, rfl⟩

/-- What a merge does to the classes. -/
structure Joins (c : Closure) (t u : TermId) (reason : List SignedTerm) (changed : Bool)
    (c' : Closure) : Prop where
  ok : c'.Ok
  terms : c'.terms = c.terms
  joined : ∀ a b, c'.Joined a b ↔
    c.Joined a b ∨ c.Joined a t ∧ c.Joined b u ∨ c.Joined a u ∧ c.Joined b t
  kept : changed = false → c' = c
  fewer : changed = true → c'.merging.classes < c.merging.classes
  uses : ∀ P, c.Uses P → (∀ l ∈ reason, P l) → c'.Uses P
  explains : ∀ {γ : Type} (g : TermId → γ) Q, c.Explains g Q →
    ((∀ l ∈ reason, Q l) → g t = g u) → c'.Explains g Q

namespace Ok

variable (h : c.Ok)
include h

lemma index_eq (hi : c.terms[i]? = some t) : c.index t = some i := by
  obtain ⟨hlt, rfl⟩ := List.getElem?_eq_some_iff.1 hi
  refine List.idxOf?_eq_some_iff.2 ⟨hlt, rfl, fun j hj heq => ?_⟩
  exact hj.ne (h.nodup.getElem_inj_iff.1 heq)

lemma place_lt (hi : c.terms[i]? = some t) : i < c.merging.size := by
  rw [h.size]
  exact (List.getElem?_eq_some_iff.1 hi).1

lemma place_unique (hi : c.terms[i]? = some t) (hj : c.terms[j]? = some t) : i = j :=
  Option.some.inj ((h.index_eq hi).symm.trans (h.index_eq hj))

lemma joined_iff (hi : c.terms[i]? = some t) (hj : c.terms[j]? = some u) :
    c.Joined t u ↔ c.merging.Same i j := by
  refine ⟨?_, fun hsame => ⟨i, j, hi, hj, hsame⟩⟩
  rintro ⟨i', j', hi', hj', hsame⟩
  rwa [h.place_unique hi hi', h.place_unique hj hj']

lemma joined_trans {v : TermId} (htu : c.Joined t u) (huv : c.Joined u v) : c.Joined t v := by
  obtain ⟨i, j, hi, hj, hsame⟩ := htu
  obtain ⟨j', k, hj', hk, hsame'⟩ := huv
  obtain rfl := h.place_unique hj hj'
  exact ⟨i, k, hi, hk, Eq.trans hsame hsame'⟩

/-- The class of a term is a place whose class it is. -/
lemma root_eq (hi : c.terms[i]? = some t) :
    ∃ r < c.merging.size, c.root t = some r ∧ c.merging.find i = some r ∧
      c.merging.find r = some r := by
  obtain ⟨k, r, hleads, hlt, hfind⟩ := h.merging.exists_find (h.place_lt hi)
  refine ⟨r, hlt, ?_, hfind, h.merging.find_eq hlt (.root hleads.isRoot)⟩
  rw [root, h.index_eq hi]
  exact hfind

lemma equivalent_eq (ht : t ∈ c.terms) (hu : u ∈ c.terms) :
    ∃ b, c.equivalent t u = some b ∧ (b = true ↔ c.Joined t u) := by
  obtain ⟨i, hi⟩ := List.mem_iff_getElem?.1 ht
  obtain ⟨j, hj⟩ := List.mem_iff_getElem?.1 hu
  obtain ⟨r, -, hroot, hfind, -⟩ := h.root_eq hi
  obtain ⟨r', -, hroot', hfind', -⟩ := h.root_eq hj
  refine ⟨decide (r = r'), ?_, ?_⟩
  · rw [equivalent, hroot, hroot']
    rfl
  · rw [h.joined_iff hi hj, Merging.Same, hfind, hfind', decide_eq_true_iff, Option.some_inj]

/-- A merge joins the classes of two terms. -/
lemma union_joins (ht : t ∈ c.terms) (hu : u ∈ c.terms) (reason : List SignedTerm) :
    ∃ changed c', c.union t u reason = some (changed, c') ∧ Joins c t u reason changed c' := by
  obtain ⟨i, hi⟩ := List.mem_iff_getElem?.1 ht
  obtain ⟨j, hj⟩ := List.mem_iff_getElem?.1 hu
  obtain ⟨changed, m, hm, hmerged⟩ :=
    Merging.union_merged h.merging (h.place_lt hi) (h.place_lt hj) 255 reason
  have hok : ({ c with merging := m } : Closure).Ok :=
    ⟨hmerged.ok, hmerged.size.trans h.size, h.nodup⟩
  refine ⟨changed, { c with merging := m }, ?_, hok, rfl, fun a b => ?_, fun hc => ?_,
    hmerged.fewer, fun P hP hall k hk e he l hl => ?_, fun g Q hg himp k hk e he hall => ?_⟩
  · rw [union, h.index_eq hi, h.index_eq hj]
    dsimp only [Option.bind_eq_bind, Option.bind_some]
    rw [hm]
    rfl
  · by_cases hab : a ∈ c.terms ∧ b ∈ c.terms
    · obtain ⟨k, hk⟩ := List.mem_iff_getElem?.1 hab.1
      obtain ⟨n, hn⟩ := List.mem_iff_getElem?.1 hab.2
      rw [hok.joined_iff hk hn, h.joined_iff hk hn, h.joined_iff hk hi, h.joined_iff hn hj,
        h.joined_iff hk hj, h.joined_iff hn hi]
      exact hmerged.same k (h.place_lt hk) n (h.place_lt hn)
    · refine ⟨fun hjoined => absurd ⟨hjoined.mem_left, hjoined.mem_right⟩ hab, ?_⟩
      rintro (hjoined | ⟨hat, hbu⟩ | ⟨hau, hbt⟩)
      · exact absurd ⟨hjoined.mem_left, hjoined.mem_right⟩ hab
      · exact absurd ⟨hat.mem_left, hbu.mem_left⟩ hab
      · exact absurd ⟨hau.mem_left, hbt.mem_left⟩ hab
  · rw [hmerged.kept hc]
  · rcases hmerged.edges k e he with hold | ⟨-, rfl⟩ | ⟨-, rfl⟩
    · exact hP k (hmerged.size ▸ hk) e hold l hl
    · exact hall l (List.mem_eraseDups.1 hl)
    · exact hall l (List.mem_eraseDups.1 hl)
  · have hreason : (∀ l ∈ reason.eraseDups, Q l) → g t = g u := fun hall =>
      himp fun l hl => hall l (List.mem_eraseDups.2 hl)
    rcases hmerged.edges k e he with hold | ⟨rfl, rfl⟩ | ⟨rfl, rfl⟩
    · exact hg k (hmerged.size ▸ hk) e hold hall
    · show (c.terms[k]?).map g = (c.terms[j]?).map g
      rw [hi, hj, Option.map_some, Option.map_some, hreason hall]
    · show (c.terms[k]?).map g = (c.terms[i]?).map g
      rw [hi, hj, Option.map_some, Option.map_some, hreason hall]

/-- An explanation consists of reasons of merges, and is enough. -/
lemma explain_joined (hjoined : c.Joined t u) :
    ∃ reasons, c.explain t u = some reasons ∧ (∀ P, c.Uses P → ∀ l ∈ reasons, P l) ∧
      ∀ {γ : Type} (g : TermId → γ) Q, c.Explains g Q → (∀ l ∈ reasons, Q l) → g t = g u := by
  obtain ⟨i, j, hi, hj, hsame⟩ := hjoined
  unfold explain
  split
  · next heq => exact ⟨[], rfl, fun _ _ => nofun, fun g _ _ _ => congrArg g heq⟩
  obtain ⟨reasons, heq, hreasons, hjustify⟩ :=
    Merging.explain_same h.merging (h.place_lt hi) (h.place_lt hj) hsame
  refine ⟨reasons, ?_, fun P hP l hl => ?_, fun g Q hg hall => ?_⟩
  · rw [h.index_eq hi, h.index_eq hj]
    exact heq
  · obtain ⟨k, hk, e, he, hle⟩ := hreasons l hl
    exact hP k hk e he l hle
  · have hread := hjustify (fun k n => (c.terms[k]?).map g = (c.terms[n]?).map g) Q
      ⟨fun _ => rfl, Eq.symm, Eq.trans⟩ hg hall
    rwa [hi, hj, Option.map_some, Option.map_some, Option.some_inj] at hread

end Ok

/-! ### Numbers for the classes -/

/-- The numbers that have been given to the terms at the places. -/
structure Numbered (s : TermStore) (c : Closure) (done : List (TermId × ℕ)) (n : Numbering) :
    Prop where
  values : ∀ entry ∈ done, ∀ sort r, s.sort? entry.1 = some sort → sort.isAbstract = true →
    c.merging.find entry.2 = some r →
      ∃ v, n.values entry.1 = some v ∧ n.classValues (sort, r) = some v
  injective : ∀ sort r r' v, n.classValues (sort, r) = some v → n.classValues (sort, r') = some v →
    r = r'
  below : ∀ sort r v, n.classValues (sort, r) = some v → v < n.nextBySort sort
  bound : ∀ sort, n.nextBySort sort ≤ done.length

lemma number_numbered (h : c.Ok) {done : List (TermId × ℕ)} {n : Numbering} {entry : TermId × ℕ}
    (hn : Numbered s c done n) (hentry : c.terms[entry.2]? = some entry.1)
    (hdone : ∀ e ∈ done, e.1 ≠ entry.1) (hsort : ∃ sort, s.sort? entry.1 = some sort)
    (hlen : done.length + 1 < maxIndex) :
    ∃ n', number s c n entry = some n' ∧ Numbered s c (done ++ [entry]) n' := by
  obtain ⟨sort, hsort⟩ := hsort
  obtain ⟨r, -, -, hfind, -⟩ := h.root_eq hentry
  have hbound : ∀ sort, n.nextBySort sort ≤ (done ++ [entry]).length := fun sort => by
    rw [List.length_append, List.length_singleton]
    exact (hn.bound sort).trans (Nat.le_succ _)
  rw [number, hsort]
  dsimp only [Option.bind_eq_bind, Option.bind_some]
  cases habstract : sort.isAbstract with
  | false =>
    refine ⟨n, rfl, ⟨fun e he sort' r' hs ha hf => ?_, hn.injective, hn.below, hbound⟩⟩
    rcases List.mem_append.1 he with he | he
    · exact hn.values e he sort' r' hs ha hf
    · rw [List.mem_singleton.1 he, hsort, Option.some_inj] at hs
      rw [← hs, habstract] at ha
      exact absurd ha Bool.false_ne_true
  | true =>
    rw [hfind]
    have hold : ∀ {classValues : SmtSort × ℕ → Option ℕ} {v : ℕ},
        (∀ key v, n.classValues key = some v → classValues key = some v) →
        classValues (sort, r) = some v → ∀ e ∈ done ++ [entry], ∀ sort' r',
          s.sort? e.1 = some sort' →
        sort'.isAbstract = true → c.merging.find e.2 = some r' →
        ∃ v', Function.update n.values entry.1 (some v) e.1 = some v' ∧
          classValues (sort', r') = some v' := by
      intro classValues v hmono hnew e he sort' r' hs ha hf
      rcases List.mem_append.1 he with he | he
      · obtain ⟨v', hv, hc⟩ := hn.values e he sort' r' hs ha hf
        exact ⟨v', by rwa [Function.update_of_ne (hdone e he)], hmono _ _ hc⟩
      · rw [List.mem_singleton.1 he] at hs hf ⊢
        obtain rfl : sort = sort' := Option.some.inj (hsort.symm.trans hs)
        obtain rfl : r = r' := Option.some.inj (hfind.symm.trans hf)
        exact ⟨v, Function.update_self _ _ _, hnew⟩
    cases hclass : n.classValues (sort, r) with
    | some v =>
      refine ⟨{ n with values := Function.update n.values entry.1 (some v) }, by simp [hclass],
        hold (fun _ _ => id) hclass, hn.injective, hn.below, hbound⟩
    | none =>
      have hnext : n.nextBySort sort + 1 < maxIndex :=
        (Nat.succ_le_succ (hn.bound sort)).trans_lt hlen
      refine ⟨{
        classValues := Function.update n.classValues (sort, r) (some (n.nextBySort sort))
        nextBySort := Function.update n.nextBySort sort (n.nextBySort sort + 1)
        values := Function.update n.values entry.1 (some (n.nextBySort sort)) }, ?_, ?_, ?_, ?_, ?_⟩
      · simp [hclass, Nat.min_eq_right (Nat.le_sub_one_of_lt hnext)]
      · refine hold (fun key v hv => ?_) (Function.update_self _ _ _)
        have hne : key ≠ (sort, r) := by
          rintro rfl
          simp [hclass] at hv
        exact (Function.update_of_ne hne _ _).trans hv
      · -- the number of a new class is above those of its sort
        intro sort' r₁ r₂ v h₁ h₂
        dsimp only at h₁ h₂
        rw [Function.update_apply] at h₁ h₂
        have hfresh : ∀ r', n.classValues (sort, r') ≠ some (n.nextBySort sort) := fun r' hr' =>
          lt_irrefl _ (hn.below sort r' _ hr')
        split_ifs at h₁ h₂ with heq₁ heq₂ heq₂
        · exact (Prod.ext_iff.1 heq₁).2.trans (Prod.ext_iff.1 heq₂).2.symm
        · obtain ⟨rfl, rfl⟩ := Prod.ext_iff.1 heq₁
          exact absurd (h₂.trans h₁.symm) (hfresh r₂)
        · obtain ⟨rfl, rfl⟩ := Prod.ext_iff.1 heq₂
          exact absurd (h₁.trans h₂.symm) (hfresh r₁)
        · exact hn.injective sort' r₁ r₂ v h₁ h₂
      · intro sort' r' v hv
        dsimp only at hv ⊢
        rw [Function.update_apply] at hv ⊢
        split_ifs at hv ⊢ with hsame hkey hkey
        · have := Option.some.inj hv
          omega
        · subst hsame
          exact (hn.below sort' r' v hv).trans (Nat.lt_succ_self _)
        · exact absurd (Prod.ext_iff.1 hkey).1 hsame
        · exact hn.below sort' r' v hv
      · intro sort'
        dsimp only
        rw [Function.update_apply, List.length_append, List.length_singleton]
        split_ifs
        · exact Nat.succ_le_succ (hn.bound sort)
        · exact (hn.bound sort').trans (Nat.le_succ _)

lemma foldlM_numbered (h : c.Ok) (hsort : ∀ t ∈ c.terms, ∃ sort, s.sort? t = some sort)
    (hlen : c.terms.length < maxIndex) {rest : List (TermId × ℕ)} {done : List (TermId × ℕ)}
    {n : Numbering} (hsplit : c.terms.zipIdx = done ++ rest) (hn : Numbered s c done n) :
    ∃ n', rest.foldlM (number s c) n = some n' ∧ Numbered s c c.terms.zipIdx n' := by
  induction rest generalizing done n with
  | nil => exact ⟨n, rfl, by rwa [hsplit, List.append_nil]⟩
  | cons entry rest ih =>
    have hmem : entry ∈ c.terms.zipIdx := by simp [hsplit]
    have hplace : c.terms[entry.2]? = some entry.1 := List.mem_zipIdx_iff_getElem?.1 hmem
    have hnodup : (c.terms.zipIdx.map Prod.fst).Nodup := by
      rw [List.zipIdx_map_fst]
      exact h.nodup
    have hdone : ∀ e ∈ done, e.1 ≠ entry.1 := by
      rw [hsplit, List.map_append, List.map_cons] at hnodup
      intro e he heq
      exact (List.nodup_append.1 hnodup).2.2 _ (List.mem_map_of_mem he) _ List.mem_cons_self heq
    have hlength : done.length + 1 < maxIndex := by
      have := congrArg List.length hsplit
      simp only [List.length_zipIdx, List.length_append, List.length_cons] at this
      omega
    obtain ⟨n', heq, hn'⟩ := number_numbered h hn hplace hdone
      (hsort _ (List.mem_of_getElem? hplace)) hlength
    rw [List.foldlM_cons, heq]
    exact ih (by rw [hsplit, List.append_assoc, List.singleton_append]) hn'

/-- The numbers of the model tell the classes of a sort apart. -/
lemma model_spec (h : c.Ok) (hsort : ∀ t ∈ c.terms, ∃ sort, s.sort? t = some sort)
    (hlen : c.terms.length < maxIndex) :
    ∃ model, c.model s = some model ∧ ∀ t ∈ c.terms, ∀ u ∈ c.terms, ∀ sort,
      s.sort? t = some sort → s.sort? u = some sort → sort.isAbstract = true →
        (model.values t).isSome ∧ (model.values t = model.values u ↔ c.Joined t u) := by
  have hstart : Numbered s c [] ⟨fun _ => none, fun _ => 0, fun _ => none⟩ :=
    ⟨nofun, nofun, nofun, fun _ => le_rfl⟩
  obtain ⟨n, heq, hn⟩ := foldlM_numbered h hsort hlen (List.nil_append _).symm hstart
  refine ⟨⟨n.values, []⟩, by rw [model, heq]; rfl, fun t ht u hu sort hst hsu habstract => ?_⟩
  obtain ⟨i, hi⟩ := List.mem_iff_getElem?.1 ht
  obtain ⟨j, hj⟩ := List.mem_iff_getElem?.1 hu
  obtain ⟨r, -, -, hfind, -⟩ := h.root_eq hi
  obtain ⟨r', -, -, hfind', -⟩ := h.root_eq hj
  obtain ⟨v, hv, hclass⟩ := hn.values (t, i) (List.mem_zipIdx_iff_getElem?.2 hi) sort r
    hst habstract
    hfind
  obtain ⟨v', hv', hclass'⟩ := hn.values (u, j) (List.mem_zipIdx_iff_getElem?.2 hj) sort r' hsu
    habstract hfind'
  refine ⟨by simp [hv], ?_⟩
  rw [h.joined_iff hi hj, Merging.Same, hfind, hfind']
  show n.values t = n.values u ↔ _
  rw [hv, hv', Option.some_inj, Option.some_inj]
  refine ⟨?_, ?_⟩
  · rintro rfl
    exact hn.injective sort r r' v hclass hclass'
  · rintro rfl
    exact Option.some.inj (hclass.symm.trans hclass')

end Closure

end Satrap.Smt
