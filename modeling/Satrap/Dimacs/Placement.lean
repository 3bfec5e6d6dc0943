/-
# Where the parser reports its errors

`parse` on every byte string: whether it returns, which place an error is reported at, the range
of its arithmetic, and the vector it asks for.  It fails in two ways.  The vector is asked for
with the number of clauses that the header declares, before a clause is seen, so that a number
that does not fit panics.  And the jump of a `%` trailer to the end of the input leaves the line
where it was, so that an error at the end of the input is reported at a column which the line of
the trailer does not have when more lines follow it.
-/
import Satrap.Dimacs.Documented

namespace Satrap.Dimacs

/-! ### Places -/

/-- The place behind one more byte: a line feed starts a line, any other byte is a column. -/
def advance (place : ℕ × ℕ) (b : UInt8) : ℕ × ℕ :=
  if b = newline then (place.1 + 1, 1) else (place.1, place.2 + 1)

/-- The line and the column behind a text. -/
def placeBehind (text : Text) : ℕ × ℕ := text.foldl advance (1, 1)

/-- The line and the column are those of a byte of the input, or of its end. -/
def PlacedIn (input : Text) (line column : ℕ) : Prop :=
  ∃ before, before <+: input ∧ placeBehind before = (line, column)

/-- What is left of a text from the first line on that starts with `%`. -/
def trailer : Bool → Text → Text
  | _, [] => []
  | start, b :: rest =>
    if start = true ∧ b = ascii '%' then b :: rest else trailer (decide (b = newline)) rest

/-- The input goes on behind the line of its trailer. -/
def TrailerFollowed (input : Text) : Prop := newline ∈ trailer true input

section Places

variable {b : UInt8} {text rest w : Text}

lemma foldl_advance (w : Text) (hw : newline ∉ w) (place : ℕ × ℕ) :
    w.foldl advance place = (place.1, place.2 + w.length) := by
  induction w generalizing place with
  | nil => rfl
  | cons b w ih =>
    rw [List.mem_cons, not_or] at hw
    rw [List.foldl_cons, ih hw.2, advance, if_neg (Ne.symm hw.1), List.length_cons]
    ext
    · rfl
    · dsimp only
      omega

lemma placeBehind_append (before : Text) (hw : newline ∉ w) :
    placeBehind (before ++ w) = ((placeBehind before).1, (placeBehind before).2 + w.length) := by
  rw [placeBehind, List.foldl_append, foldl_advance w hw]
  rfl

lemma placeBehind_snoc (before : Text) (b : UInt8) :
    placeBehind (before ++ [b]) = advance (placeBehind before) b := by
  rw [placeBehind, List.foldl_append]
  rfl

lemma line_le_foldl (w : Text) (place : ℕ × ℕ) : place.1 ≤ (w.foldl advance place).1 := by
  induction w generalizing place with
  | nil => exact le_rfl
  | cons b w ih =>
    refine le_trans ?_ (ih (advance place b))
    rw [advance]
    split <;> simp

lemma line_le_append (before w : Text) :
    (placeBehind before).1 ≤ (placeBehind (before ++ w)).1 := by
  rw [placeBehind, placeBehind, List.foldl_append]
  exact line_le_foldl w _

/-- No place of a line is further right than the line feed that ends it. -/
lemma column_le {before line after x : Text} (hline : newline ∉ line)
    (hx : x <+: before ++ line ++ newline :: after)
    (he : (placeBehind x).1 = (placeBehind before).1) :
    (placeBehind x).2 ≤ (placeBehind before).2 + line.length := by
  have hend := placeBehind_append before hline
  rcases List.prefix_or_prefix_of_prefix hx (List.prefix_append (before ++ line) _) with h | h
  · obtain ⟨y, hy⟩ := h
    by_cases hn : newline ∈ y
    · -- A line feed in between would make the line of `x` smaller.
      obtain ⟨u, v, rfl, -⟩ := List.eq_append_cons_of_mem hn
      have h1 : (placeBehind x).1 < (placeBehind (x ++ u ++ [newline])).1 := by
        rw [placeBehind_snoc, advance, if_pos rfl]
        exact Nat.lt_succ_of_le (line_le_append x u)
      have h2 := line_le_append (x ++ u ++ [newline]) v
      have h3 : x ++ u ++ [newline] ++ v = before ++ line := by rw [← hy]; simp
      rw [h3, hend] at h2
      dsimp only at h2
      omega
    · have h1 := placeBehind_append x hn
      rw [hy, hend, Prod.mk.injEq] at h1
      omega
  · obtain ⟨z, rfl⟩ := h
    cases z with
    | nil =>
      rw [List.append_nil, hend]
    | cons c z =>
      obtain ⟨t, ht⟩ := hx
      rw [List.append_assoc, List.append_assoc, List.append_assoc, List.append_cancel_left_eq,
        List.append_cancel_left_eq, List.cons_append, List.cons.injEq] at ht
      have h1 := line_le_append (before ++ line ++ [newline]) z
      have h2 : before ++ line ++ [newline] ++ z = before ++ line ++ c :: z := by
        rw [ht.1]
        simp
      rw [h2, he, placeBehind_snoc, advance, if_pos rfl, hend] at h1
      dsimp only at h1
      omega

@[simp] lemma trailer_nil (start : Bool) : trailer start [] = [] := by
  cases start <;> rfl

lemma trailer_of_ne (hb : b ≠ ascii '%') (start : Bool) (rest : Text) :
    trailer start (b :: rest) = trailer (decide (b = newline)) rest := by
  cases start <;> simp [trailer, hb]

lemma trailer_false (w : Text) (hw : newline ∉ w) (rest : Text) :
    trailer false (w ++ rest) = trailer false rest := by
  induction w with
  | nil => rfl
  | cons b w ih =>
    rw [List.mem_cons, not_or] at hw
    rw [List.cons_append, trailer, if_neg (by simp), decide_eq_false (Ne.symm hw.1), ih hw.2]

lemma trailer_word (hne : w ≠ []) (hw : newline ∉ w) {start : Bool}
    (h : ¬ (start = true ∧ w.head? = some (ascii '%'))) (rest : Text) :
    trailer start (w ++ rest) = trailer false rest := by
  cases w with
  | nil => exact absurd rfl hne
  | cons b w =>
    rw [List.mem_cons, not_or] at hw
    rw [List.cons_append, trailer, if_neg (by simpa using h), decide_eq_false (Ne.symm hw.1),
      trailer_false w hw.2]

end Places

/-! ### The places of the lexer -/

namespace Lexer

variable {input rest text : Text} {l : Lexer} {b : UInt8}

/-- The lexers that the loops of the parser pass through: each moves past one byte, or jumps to
the end. -/
inductive Met (input : Text) : Lexer → Prop
  | new : Met input (new input)
  | pass {l : Lexer} {b : UInt8} {rest : Text} (h : Met input l) (hl : l.rest = b :: rest) :
    Met input (l.pass b rest)
  | jump {l : Lexer} (h : Met input l) :
    Met input { l with rest := [], position := l.position + l.rest.length }

/-- The lexer knows its place, and the trailer is still to come. -/
structure Tracked (input : Text) (l : Lexer) : Prop where
  met : Met input l
  ok : l.Ok
  place : ∃ before, input = before ++ l.rest ∧ l.position = before.length ∧
    placeBehind before = (l.line, l.column)
  trailing : trailer l.atStart l.rest = trailer true input

/-- The lexer has stopped at the trailer, or at the end of the input when there is none, with the
position at the end. -/
structure Halted (input : Text) (l : Lexer) : Prop where
  ok : l.Ok
  position : l.position = input.length
  place : ∃ before, input = before ++ trailer true input ∧ l.lineStart ≤ before.length ∧
    placeBehind before = (l.line, before.length - l.lineStart + 1)

/-- The numbers that a lexer computes with are no larger than the input. -/
structure Bounded (input : Text) (l : Lexer) : Prop where
  lineStart : l.lineStart ≤ l.position
  position : l.position + l.rest.length = input.length
  line : l.line ≤ l.position + 1

lemma Met.bounded (h : Met input l) : l.Bounded input := by
  induction h with
  | new => exact ⟨Nat.le_refl 0, by simp [Lexer.new], by simp [Lexer.new]⟩
  | @pass l b rest h hl ih =>
    obtain ⟨h1, h2, h3⟩ := ih
    rw [hl, List.length_cons] at h2
    refine ⟨?_, by show l.position + 1 + rest.length = _; omega, ?_⟩
    · show (if b = newline then l.position + 1 else l.lineStart) ≤ l.position + 1
      split <;> omega
    · show (if b = newline then l.line + 1 else l.line) ≤ l.position + 1 + 1
      split <;> omega
  | @jump l h ih =>
    obtain ⟨h1, h2, h3⟩ := ih
    exact ⟨by dsimp only; omega, by simpa using h2, by dsimp only; omega⟩

lemma Tracked.new (input : Text) : Tracked input (new input) :=
  ⟨.new, Nat.le_refl 0, ⟨[], rfl, rfl, rfl⟩, rfl⟩

lemma Tracked.placed (h : Tracked input l) : PlacedIn input l.line l.column := by
  obtain ⟨before, hin, -, hplace⟩ := h.place
  exact ⟨before, ⟨l.rest, hin.symm⟩, hplace⟩

/-- A byte that does not start the trailer is passed. -/
lemma Tracked.pass (h : Tracked input l) (hl : l.rest = b :: rest)
    (hb : ¬ (l.atStart = true ∧ b = ascii '%')) : Tracked input (l.pass b rest) := by
  obtain ⟨before, hin, hpos, hplace⟩ := h.place
  obtain ⟨hok, hstart⟩ := h.ok.pass b rest
  refine ⟨h.met.pass hl, hok, ⟨before ++ [b], by rw [hin, hl]; simp [Lexer.pass],
    by simp [Lexer.pass, hpos], ?_⟩, ?_⟩
  · have hle : l.lineStart ≤ l.position := h.ok
    rw [placeBehind_snoc, hplace, advance]
    split
    · next hn => simp [Lexer.pass, column, hn]
    · next hn =>
      simp only [Lexer.pass, column, hn, if_false, Prod.mk.injEq, true_and]
      omega
  · rw [hstart, ← h.trailing, hl, trailer, if_neg hb]
    rfl

lemma Tracked.skipBlanks : ∀ (text : Text) {l : Lexer}, l.rest = text → Tracked input l →
    Tracked input (Lexer.skipBlanks text l) := by
  intro text
  induction text with
  | nil => exact fun _ h => h
  | cons b text ih =>
    intro l hl h
    rw [Lexer.skipBlanks]
    split
    · next hb =>
      refine ih rfl (h.pass hl ?_)
      rintro ⟨-, rfl⟩
      simp [isAsciiWhitespace, ascii] at hb
    · exact h

/-- Inside a line everything up to its end is passed. -/
lemma Tracked.skipLine : ∀ (text : Text) {l : Lexer}, l.rest = text → Tracked input l →
    l.atStart = false → Tracked input (Lexer.skipLine text l) := by
  intro text
  induction text with
  | nil => exact fun _ h _ => h
  | cons b text ih =>
    intro l hl h hmid
    have hpass := h.pass hl (by simp [hmid])
    rw [Lexer.skipLine]
    split
    · exact hpass
    · next hb => exact ih rfl hpass ((h.ok.pass b text).2.trans (by simpa using hb))

/-- A word that is not the trailer is passed. -/
lemma Tracked.behind (h : Tracked input l) {w : Text} (hne : w ≠ []) (hw : newline ∉ w)
    (hl : l.rest = w ++ rest) (ht : ¬ (l.atStart = true ∧ w.head? = some (ascii '%'))) :
    Tracked input (l.behind w) ∧ (l.behind w).atStart = false := by
  induction w generalizing l with
  | nil => exact absurd rfl hne
  | cons b w ih =>
    rw [List.mem_cons, not_or] at hw
    have hpass : Tracked input (l.pass b (w ++ rest)) := h.pass hl (by simpa using ht)
    have hmid : (l.pass b (w ++ rest)).atStart = false :=
      (h.ok.pass b _).2.trans (decide_eq_false (Ne.symm hw.1))
    have hbehind : l.behind (b :: w) = (l.pass b (w ++ rest)).behind w := by
      simp only [Lexer.behind, Lexer.pass, hl, Ne.symm hw.1, if_false, List.length_cons,
        List.cons_append, List.drop_succ_cons, mk.injEq, true_and, and_true]
      omega
    rw [hbehind]
    cases w with
    | nil => exact ⟨hpass, hmid⟩
    | cons c w => exact ih hpass (by simp) hw.2 rfl (fun h => by rw [hmid] at h; simp at h)

/-- The jump to the end stops at the trailer. -/
lemma Tracked.halted (h : Tracked input l)
    (ht : l.atStart = true ∧ l.rest.head? = some (ascii '%')) :
    Halted input { l with rest := [], position := l.position + l.rest.length } := by
  obtain ⟨before, hin, hpos, hplace⟩ := h.place
  have hle : l.lineStart ≤ l.position := h.ok
  have htrail : trailer true input = l.rest := by
    rw [← h.trailing]
    cases hl : l.rest with
    | nil => rw [trailer_nil]
    | cons b rest => rw [trailer, if_pos (by simpa [hl] using ht)]
  refine ⟨hle.trans (Nat.le_add_right _ _), by simp [hin, hpos], before, by rw [htrail, ← hin],
    hpos ▸ hle, ?_⟩
  rw [hplace, column, hpos]

/-- At the end of the input there was no trailer. -/
lemma Tracked.halted_of_nil (h : Tracked input l) (hl : l.rest = []) : Halted input l := by
  obtain ⟨before, hin, hpos, hplace⟩ := h.place
  have htrail := h.trailing
  rw [hl, trailer_nil] at htrail
  rw [hl, List.append_nil] at hin
  refine ⟨h.ok, by rw [hpos, hin], before, by rw [← htrail, List.append_nil, hin],
    hpos ▸ h.ok, ?_⟩
  rw [hplace, column, hpos]

/-- The end of the input is reported in its place unless lines follow the trailer. -/
lemma Halted.placed_iff (h : Halted input l) :
    PlacedIn input l.line l.column ↔ ¬ TrailerFollowed input := by
  obtain ⟨hok, hpos, before, hin, hle, hplace⟩ := h
  have hlen := congrArg List.length hin
  rw [List.length_append] at hlen
  rw [TrailerFollowed]
  constructor
  · rintro ⟨x, hx, hxp⟩ hn
    obtain ⟨u, v, huv, hu⟩ := List.eq_append_cons_of_mem hn
    rw [huv, ← List.append_assoc] at hin
    have hcol := column_le hu (hin ▸ hx) (by rw [hxp, hplace])
    rw [hxp, hplace] at hcol
    rw [huv, List.length_append, List.length_cons] at hlen
    simp only [column] at hcol
    omega
  · intro hn
    refine ⟨input, List.prefix_rfl, ?_⟩
    nth_rewrite 1 [hin]
    rw [placeBehind_append before hn, hplace, column, hpos, Prod.mk.injEq]
    exact ⟨rfl, by omega⟩

lemma newline_notMem {w : Text} (hw : ∀ b ∈ w, isAsciiWhitespace b = false) : newline ∉ w :=
  fun h => ne_newline_of_blank (hw _ h) rfl

/-- A token is delivered at its place; without one the lexer has stopped. -/
lemma Tracked.nextLoop : ∀ (fuel : ℕ) {l : Lexer}, Tracked input l → l.rest.length < fuel →
    ((nextLoop fuel l).1 = none → Halted input (nextLoop fuel l).2) ∧
      ∀ t, (nextLoop fuel l).1 = some t → PlacedIn input t.line t.column ∧
        Tracked input (nextLoop fuel l).2 := by
  intro fuel
  induction fuel with
  | zero => exact fun _ h => absurd h (Nat.not_lt_zero _)
  | succ fuel ih =>
    intro l h hfuel
    have hskip := Tracked.skipBlanks l.rest rfl h
    obtain ⟨-, -, hvisible, hshort⟩ := skipBlanks_spec l.rest l rfl h.ok
    rw [Lexer.nextLoop, skipAsciiWhitespace]
    generalize Lexer.skipBlanks l.rest l = l' at hskip hvisible hshort
    dsimp only
    split
    · next hnil => exact ⟨fun _ => hskip.halted_of_nil hnil, fun t ht => by simp at ht⟩
    · next c rest hcons =>
      obtain ⟨hne, hw, hsplit, -⟩ := word_spec hcons (hvisible c (by rw [hcons]; rfl))
      have hhead : l'.rest.head? = l'.word.head? := by
        rw [hsplit]
        exact List.head?_append_of_ne_nil _ hne
      have hcol := column_eq_one hskip.ok
      split
      · next hc =>
        -- A comment is not the trailer, and the lexer stays inside its line.
        have hpercent : ¬ (l'.atStart = true ∧ l'.word.head? = some (ascii '%')) := by
          rintro ⟨-, hp⟩
          have hct : some (ascii '%') ≠ some (ascii 'c') := by decide
          rcases (by simpa [isComment, hp, hct] using hc : l'.word = [ascii 'c']) with hword
          rw [hword] at hp
          exact hct hp.symm
        obtain ⟨hbehind, hmid⟩ := hskip.behind hne (newline_notMem hw) hsplit hpercent
        have hline := Tracked.skipLine _ rfl hbehind hmid
        obtain ⟨-, -, hle⟩ := skipToNextLine_spec hbehind.ok
        have hlen : (l'.behind l'.word).rest.length < l'.rest.length := by
          have := congrArg List.length hsplit
          have := List.length_pos_of_ne_nil hne
          simp only [List.length_append] at *
          omega
        exact ih hline (by omega)
      · split
        · next ht =>
          have htrailer : l'.atStart = true ∧ l'.rest.head? = some (ascii '%') := by
            simpa [isTrailer, hcol, hhead] using ht
          exact ⟨fun _ => hskip.halted htrailer, fun t ht => by simp at ht⟩
        · next ht =>
          have htrailer : ¬ (l'.atStart = true ∧ l'.word.head? = some (ascii '%')) := by
            simpa [isTrailer, hcol] using ht
          refine ⟨fun hn => by simp at hn, fun t ht => ?_⟩
          obtain rfl := Option.some.inj ht
          exact ⟨hskip.placed, (hskip.behind hne (newline_notMem hw) hsplit htrailer).1⟩

/-- The tokens to come and the places of what is delivered. -/
lemma Tracked.nextToken (h : Tracked input l) :
    (l.nextToken.1 = none → Halted input l.nextToken.2) ∧
      ∀ t, l.nextToken.1 = some t → PlacedIn input t.line t.column ∧
        Tracked input l.nextToken.2 :=
  Tracked.nextLoop _ h (Nat.lt_succ_self _)

end Lexer

/-! ### The tokens on which the input ends too early -/

/-- The token ends a clause. -/
def isEnd (w : Text) : Bool := decide (parseU64 (splitSign w).2 = some 0)

/-- The last token, if there is one, ends a clause. -/
def closed (start : Bool) (ts : List Text) : Bool := ts.foldl (fun _ w => isEnd w) start

/-- The tokens of the clauses are literals of the declared variables and ends of at most as many
clauses as remain, but not all of these clauses are there, or one more is left open. -/
structure RunsOut (count remaining : ℕ) (start : Bool) (ts : List Text) : Prop where
  integer : ∀ w ∈ ts, ∃ z, IntegerToken w z ∧ z.natAbs ≤ count
  clauses : ts.countP isEnd ≤ remaining
  short : ¬ (ts.countP isEnd = remaining ∧ closed start ts = true)

/-- The tokens are the first ones of a header. -/
def CutShort : List Text → Prop
  | [] => True
  | [a] => a = bytesOf "p"
  | [a, b] => a = bytesOf "p" ∧ b = bytesOf "cnf"
  | [a, b, v] => a = bytesOf "p" ∧ b = bytesOf "cnf" ∧ ∃ n ≤ maxVariables, Numeral v n
  | _ => False

/-- The tokens start with a header that declares so many variables and clauses. -/
def Declares (ts : List Text) (count expected : ℕ) (rest : List Text) : Prop :=
  ∃ v c, ts = bytesOf "p" :: bytesOf "cnf" :: v :: c :: rest ∧ Numeral v count ∧
    count ≤ maxVariables ∧ Numeral c expected ∧ expected < 2 ^ 64

/-- The input ends in the header, or among clauses that can be asked for. -/
def Unfinished (ts : List Text) : Prop :=
  CutShort ts ∨ ∃ count expected rest, Declares ts count expected rest ∧ Fits expected ∧
    RunsOut count expected true rest

section Tokens

variable {w : Text} {z : ℤ} {ts rest rest' : List Text}
  {count count' remaining expected expected' : ℕ}
  {start : Bool}

lemma isEnd_iff : isEnd w = true ↔ IntegerToken w 0 := by
  rw [isEnd, decide_eq_true_iff, parseU64_eq_some, integerToken_iff]
  constructor
  · rintro ⟨h, -⟩
    exact ⟨0, h, by simp⟩
  · rintro ⟨n, hn, hz⟩
    obtain rfl : n = 0 := by
      split_ifs at hz <;> omega
    exact ⟨hn, by norm_num⟩

lemma isEnd_eq_false (h : IntegerToken w z) (hz : z ≠ 0) : isEnd w = false := by
  rw [← Bool.not_eq_true, isEnd_iff]
  exact fun h0 => hz (h.inj h0)

lemma runsOut_nil : RunsOut count remaining start [] ↔ ¬ (remaining = 0 ∧ start = true) := by
  constructor
  · rintro ⟨-, -, h⟩ ⟨h1, h2⟩
    exact h ⟨by rw [h1]; rfl, h2⟩
  · intro h
    exact ⟨by simp, by simp, fun ⟨h1, h2⟩ => h ⟨h1.symm, h2⟩⟩

/-- An end takes one of the remaining clauses. -/
lemma runsOut_end (h : IntegerToken w 0) :
    RunsOut count remaining start (w :: ts) ↔
      0 < remaining ∧ RunsOut count (remaining - 1) true ts := by
  have hend : isEnd w = true := isEnd_iff.2 h
  constructor
  · rintro ⟨h1, h2, h3⟩
    rw [List.countP_cons_of_pos hend] at h2 h3
    refine ⟨by omega, fun x hx => h1 x (List.mem_cons_of_mem _ hx), by omega, ?_⟩
    rintro ⟨h4, h5⟩
    exact h3 ⟨by omega, by rwa [closed, List.foldl_cons, hend]⟩
  · rintro ⟨hpos, h1, h2, h3⟩
    refine ⟨?_, by rw [List.countP_cons_of_pos hend]; omega, ?_⟩
    · intro x hx
      rcases List.mem_cons.1 hx with rfl | hx
      · exact ⟨0, h, by simp⟩
      · exact h1 x hx
    · rintro ⟨h4, h5⟩
      rw [List.countP_cons_of_pos hend] at h4
      rw [closed, List.foldl_cons, hend] at h5
      exact h3 ⟨by omega, h5⟩

/-- A literal leaves its clause open. -/
lemma runsOut_literal (h : IntegerToken w z) (hz : z ≠ 0) (hle : z.natAbs ≤ count) :
    RunsOut count remaining start (w :: ts) ↔ RunsOut count remaining false ts := by
  have hend := isEnd_eq_false h hz
  have hcount : (w :: ts).countP isEnd = ts.countP isEnd :=
    List.countP_cons_of_neg (by simp [hend])
  have hclosed : closed start (w :: ts) = closed false ts := by
    rw [closed, List.foldl_cons, hend, closed]
  constructor
  · rintro ⟨h1, h2, h3⟩
    rw [hcount] at h2 h3
    rw [hclosed] at h3
    exact ⟨fun x hx => h1 x (List.mem_cons_of_mem _ hx), h2, h3⟩
  · rintro ⟨h1, h2, h3⟩
    refine ⟨?_, hcount ▸ h2, by rwa [hcount, hclosed]⟩
    intro x hx
    rcases List.mem_cons.1 hx with rfl | hx
    · exact ⟨z, h, hle⟩
    · exact h1 x hx

lemma Declares.unique (h : Declares ts count expected rest)
    (h' : Declares ts count' expected' rest') :
    count = count' ∧ expected = expected' ∧ rest = rest' := by
  obtain ⟨v, c, rfl, hv, -, hc, -⟩ := h
  obtain ⟨v', c', heq, hv', -, hc', -⟩ := h'
  simp only [List.cons.injEq, true_and] at heq
  obtain ⟨rfl, rfl, rfl⟩ := heq
  exact ⟨hv.value.symm.trans hv'.value, hc.value.symm.trans hc'.value, rfl⟩

lemma CutShort.not_declares (h : CutShort ts) : ¬ Declares ts count expected rest := by
  rintro ⟨v, c, rfl, -⟩
  exact h

/-- Behind a header the input ends among the clauses. -/
lemma Declares.unfinished (h : Declares ts count expected rest) (hfits : Fits expected) :
    Unfinished ts ↔ RunsOut count expected true rest := by
  constructor
  · rintro (hcut | ⟨count', expected', rest', h', -, hruns⟩)
    · exact absurd h hcut.not_declares
    · obtain ⟨rfl, rfl, rfl⟩ := h.unique h'
      exact hruns
  · exact fun hruns => .inr ⟨_, _, _, h, hfits, hruns⟩

end Tokens

/-! ### The places of the errors -/

/-- An error is reported in its place. -/
def Sound (input : Text) {α : Type} (r : Except ParseError α) : Prop :=
  ∀ e, r = .error e → PlacedIn input e.line e.column

section Errors

variable {input : Text} {α : Type} {l l' : Lexer} {t : Token} {w : Text} {ts : List Text}
  {message : String} {count expected : ℕ}

lemma sound_ok (a : α) : Sound input (.ok a) := fun _ h => by simp at h

lemma sound_error {e : ParseError} :
    Sound (α := α) input (.error e) ↔ PlacedIn input e.line e.column :=
  ⟨fun h => h e rfl, fun h _ he => Except.error.inj he ▸ h⟩

lemma sound_atToken (h : PlacedIn input t.line t.column) (message : String) :
    Sound (α := α) input (.error (.atToken t message)) := sound_error.2 h

lemma sound_eof (h : l.Halted input) (message : String) :
    Sound (α := α) input (.error (.eof l message)) ↔ ¬ TrailerFollowed input :=
  sound_error.trans h.placed_iff

/-- Where a token is required and none is left, the end of the input is reported. -/
lemma nextRequired_nil (h : l.Tracked input) (hf : l.follow = []) (message : String) :
    ∃ l', nextRequired l message = .error (.eof l' message) ∧ l'.Halted input := by
  obtain ⟨hhalt, -⟩ := h.nextToken
  obtain ⟨-, hsome⟩ := Lexer.nextToken_spec h.ok
  rw [nextRequired]
  cases hnext : l.nextToken with
  | mk r k =>
    rw [hnext] at hhalt hsome
    cases r with
    | none => exact ⟨k, rfl, hhalt rfl⟩
    | some t =>
      obtain ⟨h1, -⟩ := hsome t rfl
      rw [hf] at h1
      simp at h1

/-- A token that is required is delivered at its place. -/
lemma nextRequired_cons (h : l.Tracked input) (hf : l.follow = w :: ts) (message : String) :
    ∃ t l', nextRequired l message = .ok (t, l') ∧ t.bytes = w ∧
      PlacedIn input t.line t.column ∧ l'.Tracked input ∧ l'.follow = ts := by
  obtain ⟨-, htrack⟩ := h.nextToken
  obtain ⟨hnone, hsome⟩ := Lexer.nextToken_spec h.ok
  rw [nextRequired]
  cases hnext : l.nextToken with
  | mk r k =>
    rw [hnext] at hnone hsome htrack
    cases r with
    | none =>
      rw [hnone rfl] at hf
      simp at hf
    | some t =>
      obtain ⟨h1, -⟩ := hsome t rfl
      obtain ⟨h2, h3⟩ := htrack t rfl
      rw [hf, List.cons.injEq] at h1
      exact ⟨t, k, rfl, h1.1.symm, h2, h3, h1.2.symm⟩

lemma sound_expectToken (h : PlacedIn input t.line t.column) (want : Text) (message : String) :
    Sound input (expectToken t want message) := by
  rw [expectToken]
  split
  · exact sound_ok ()
  · exact sound_atToken h message

lemma sound_parseUsize (h : PlacedIn input t.line t.column) (description : String) :
    Sound input (parseUsize t description) := by
  rw [parseUsize]
  split
  · exact sound_ok _
  · exact sound_atToken h _

lemma sound_parseI64 (h : PlacedIn input t.line t.column) : Sound input (parseI64 t) := by
  rw [parseI64]
  dsimp only
  split
  · exact sound_atToken h _
  · split_ifs
    · exact sound_ok _
    · exact sound_atToken h _
    · exact sound_ok _
    · exact sound_ok _

/-- Of a sequence of two steps, the first fails in its place or the second decides. -/
lemma sound_bind {β : Type} {x : Except ParseError α} {f : α → Except ParseError β} {p : Prop}
    (hx : Sound input x) (hbad : ∀ e, x = .error e → p)
    (hgood : ∀ a, x = .ok a → (Sound input (f a) ↔ p)) : Sound input (x >>= f) ↔ p := by
  cases x with
  | error e => exact ⟨fun _ => hbad e rfl, fun _ => sound_error.2 (sound_error.1 hx)⟩
  | ok a => exact hgood a rfl

/-- A required token: the end of the input is reported, or the token decides. -/
lemma sound_required {β : Type} {f : Token × Lexer → Except ParseError β} {q : List Text → Prop}
    (h : l.Tracked input) (hnil : q [])
    (hcons : ∀ t l', PlacedIn input t.line t.column → l'.Tracked input →
      (Sound input (f (t, l')) ↔ (TrailerFollowed input → ¬ q (t.bytes :: l'.follow)))) :
    Sound input (nextRequired l message >>= f) ↔ (TrailerFollowed input → ¬ q l.follow) := by
  cases hf : l.follow with
  | nil =>
    obtain ⟨l', he, hhalt⟩ := nextRequired_nil h hf message
    rw [he]
    refine (sound_eof hhalt message).trans ⟨fun hn ht => absurd ht hn, fun hn ht => hn ht hnil⟩
  | cons w ts =>
    obtain ⟨t, l', he, rfl, hplace, htrack, rfl⟩ := nextRequired_cons h hf message
    rw [he]
    exact hcons t l' hplace htrack

/-- An error in the header is reported in its place, unless the input ends in the header and
lines follow the trailer. -/
lemma sound_parseHeader (h : l.Tracked input) :
    Sound input (parseHeader l) ↔ (TrailerFollowed input → ¬ CutShort l.follow) := by
  refine sound_required (q := CutShort) h trivial fun a l₁ ha h₁ => ?_
  refine sound_bind (sound_expectToken ha _ _) (fun e he _ hcut => ?_) fun _ hp => ?_
  · rw [expectToken] at he
    split at he
    · simp at he
    · next hne =>
      rcases hl : l₁.follow with _ | ⟨b, _ | ⟨v, _ | _⟩⟩ <;> rw [hl] at hcut
      · exact hne hcut
      · exact hne hcut.1
      · exact hne hcut.1
      · exact hcut
  rw [expectToken_eq_ok] at hp
  refine sound_required (q := fun ts => CutShort (a.bytes :: ts)) h₁ hp fun b l₂ hb h₂ => ?_
  refine sound_bind (sound_expectToken hb _ _) (fun e he _ hcut => ?_) fun _ hcnf => ?_
  · rw [expectToken] at he
    split at he
    · simp at he
    · next hne =>
      rcases hl : l₂.follow with _ | ⟨v, _ | _⟩ <;> rw [hl] at hcut
      · exact hne hcut.2
      · exact hne hcut.2.1
      · exact hcut
  rw [expectToken_eq_ok] at hcnf
  refine sound_required (q := fun ts => CutShort (a.bytes :: b.bytes :: ts)) h₂ ⟨hp, hcnf⟩
    fun v l₃ hv h₃ => ?_
  have hlarge {n : ℕ} (hn : Numeral v.bytes n) (hlim : n ≤ maxVariables) :
      parseUsize v "variable count" = .ok n :=
    parseUsize_eq_ok.2 ⟨hn, hlim.trans_lt (by norm_num [maxVariables])⟩
  refine sound_bind (sound_parseUsize hv _) (fun e he _ hcut => ?_) fun n hn => ?_
  · cases hl : l₃.follow with
    | nil =>
      rw [hl] at hcut
      obtain ⟨-, -, n, hlim, hn⟩ := hcut
      rw [hlarge hn hlim] at he
      simp at he
    | cons c ts =>
      rw [hl] at hcut
      exact hcut
  split
  · next hbig =>
    refine ⟨fun _ _ hcut => ?_, fun _ => sound_atToken hv _⟩
    cases hl : l₃.follow with
    | nil =>
      rw [hl] at hcut
      obtain ⟨-, -, k, hlim, hk⟩ := hcut
      rw [hlarge hk hlim, Except.ok.injEq] at hn
      omega
    | cons c ts =>
      rw [hl] at hcut
      exact hcut
  · next hlim =>
    refine sound_required (q := fun ts => CutShort (a.bytes :: b.bytes :: v.bytes :: ts)) h₃
      ⟨hp, hcnf, n, not_lt.1 hlim, (parseUsize_eq_ok.1 hn).1⟩ fun c l₄ hc h₄ => ?_
    exact sound_bind (sound_parseUsize hc _) (fun e _ _ hcut => hcut) fun k _ =>
      ⟨fun _ _ hcut => hcut, fun _ => sound_ok _⟩

/-- The header that is read is the one declared, and the lexer is behind it. -/
lemma parseHeader_tracked (h : l.Tracked input) {l' : Lexer}
    (he : parseHeader l = .ok (count, expected, l')) : l'.Tracked input ∧
      Declares l.follow count expected l'.follow := by
  obtain ⟨-, hlim, v, c, hf, hv, hc⟩ := parseHeader_ok h.ok he
  obtain ⟨a, l₁, h1, hb1, -, ht1, hf1⟩ := nextRequired_cons h hf "expected `p cnf` header"
  obtain ⟨b, l₂, h2, hb2, -, ht2, hf2⟩ := nextRequired_cons ht1 hf1 "expected `cnf` after `p`"
  obtain ⟨v', l₃, h3, hb3, -, ht3, hf3⟩ := nextRequired_cons ht2 hf2 "expected variable count"
  obtain ⟨c', l₄, h4, hb4, -, ht4, hf4⟩ := nextRequired_cons ht3 hf3 "expected clause count"
  simp only [parseHeader, h1, h2, h3, bind_eq_ok, Except.ok.injEq, exists_eq_left'] at he
  obtain ⟨-, -, -, -, n, hn, he⟩ := he
  split at he
  · simp at he
  simp only [h4, bind_eq_ok, Except.ok.injEq, exists_eq_left', Prod.mk.injEq] at he
  obtain ⟨k, hk, rfl, rfl, rfl⟩ := he
  exact ⟨ht4, v, c, hf, hv, hlim, hc, (parseUsize_eq_ok.1 hk).2⟩

/-- An error among the clauses is reported in its place, unless the input ends too early and
lines follow the trailer. -/
lemma sound_readClauses (hcount : count ≤ maxVariables) : ∀ (fuel : ℕ) (l : Lexer)
    (clauses : List (List Lit)) (clause : List Lit), l.Tracked input → l.rest.length < fuel →
    clauses.length ≤ expected →
    (Sound input (readClauses count expected fuel l clauses clause) ↔
      (TrailerFollowed input →
        ¬ RunsOut count (expected - clauses.length) clause.isEmpty l.follow)) := by
  intro fuel
  induction fuel with
  | zero => exact fun _ _ _ _ h => absurd h (Nat.not_lt_zero _)
  | succ fuel ih =>
    intro l clauses clause h hfuel hle
    obtain ⟨hnone, hsome⟩ := Lexer.nextToken_spec h.ok
    obtain ⟨hhalt, htrack⟩ := h.nextToken
    rw [readClauses]
    split
    · next l' he =>
      rw [he] at hnone hhalt
      rw [hnone rfl, runsOut_nil, not_not]
      have heof := fun message => sound_eof (α := Formula) (hhalt rfl) message
      split
      · next hne => rw [heof]; simp_all
      · next hnil =>
        split
        · next hlen =>
          rw [heof]
          have hmissing : expected - clauses.length ≠ 0 := by
            have : clauses.length ≠ expected := hlen
            omega
          simp [hmissing]
        · next hlen => simp_all [sound_ok]
    · next t l' he =>
      rw [he] at hsome htrack
      obtain ⟨hfollow, -, hlen⟩ := hsome t rfl
      obtain ⟨hplace, htracked⟩ := htrack t rfl
      have hlen' : l'.rest.length < fuel := by
        have : l'.rest.length < l.rest.length := hlen
        omega
      rw [hfollow]
      have hnot {p : Prop} (hbad : ¬ RunsOut count (expected - clauses.length) clause.isEmpty
          (t.bytes :: l'.follow)) (hp : p) : p ↔ (TrailerFollowed input →
            ¬ RunsOut count (expected - clauses.length) clause.isEmpty (t.bytes :: l'.follow)) :=
        ⟨fun _ _ => hbad, fun _ => hp⟩
      split
      · next e hvalue =>
        refine hnot (fun hruns => ?_) (sound_error.2 (sound_parseI64 hplace e hvalue))
        obtain ⟨z, hz, hzle⟩ := hruns.integer t.bytes (by simp)
        have hok : parseI64 t = .ok z := parseI64_eq_ok.2 ⟨hz, by
          rw [maxVariables] at hcount
          omega⟩
        rw [hok] at hvalue
        simp at hvalue
      next value hvalue =>
      obtain ⟨htoken, -⟩ := parseI64_eq_ok.1 hvalue
      split
      · next hzero =>
        subst hzero
        split
        · next hmore =>
          refine hnot (fun hruns => ?_) (sound_atToken hplace _)
          have := ((runsOut_end htoken).1 hruns).1
          omega
        · next hmore =>
          rw [ih l' _ _ htracked hlen' (by simpa using not_lt.1 hmore), runsOut_end htoken,
            List.length_append, List.length_singleton, List.isEmpty_nil, Nat.sub_add_eq]
          have hpos : 0 < expected - clauses.length := by omega
          simp only [hpos, true_and]
      · next hzero =>
        split
        · next hbig =>
          refine hnot (fun hruns => ?_) (sound_atToken hplace _)
          obtain ⟨z, hz, hzle⟩ := hruns.integer t.bytes (by simp)
          obtain rfl := hz.inj htoken
          omega
        · next hbig =>
          have hlit : fromDimacs value = some ⟨value.natAbs - 1, decide (0 < value)⟩ := by
            rw [fromDimacs, if_neg]
            omega
          simp only [hlit]
          rw [ih l' _ _ htracked hlen' hle, runsOut_literal htoken hzero (not_lt.1 hbig),
            List.isEmpty_eq_false_iff.2 (by simp)]

end Errors

/-! ### What stands at the place of a token -/

/-- The text does not go on with the word before it. -/
def Stops (text : Text) : Prop := ∀ b ∈ text.head?, isAsciiWhitespace b = true

section Replacement

variable {w text after : Text} {ts : List Text} {start : Bool} {n : ℕ}

/-- A word that is a token wherever it stands. -/
structure Plain (w : Text) : Prop where
  ne_nil : w ≠ []
  visible : ∀ b ∈ w, isAsciiWhitespace b = false
  unmarked : Unmarked w

lemma Numeral.plain (h : Numeral w n) : Plain w := ⟨h.ne_nil, h.visible, h.unmarked⟩

lemma Plain.follow (h : Plain w) (hstop : Stops after) (start : Bool) :
    follow start (w ++ after) = w :: follow false after := by
  obtain ⟨hc, hp⟩ := h.unmarked
  have hlone : w ≠ [ascii 'c'] := by
    rintro rfl
    exact hc rfl
  rw [follow_word h.ne_nil h.visible hstop, if_neg (by simp [hlone, hc]), if_neg (by simp [hp])]

/-- The first token of a text with what stands before and behind it: with another word in its
place, or something else behind it, the text is read in the same way. -/
structure Reads (start : Bool) (text : Text) (w : Text) (ts : List Text) (before after : Text) :
    Prop where
  eq : text = before ++ (w ++ after)
  ne_nil : w ≠ []
  visible : ∀ b ∈ w, isAsciiWhitespace b = false
  stops : Stops after
  rest : follow false after = ts
  same : ∀ after', Stops after' → follow start (before ++ (w ++ after')) = w :: follow false after'
  replaced : ∀ w' after', Plain w' → Stops after' →
    follow start (before ++ (w' ++ after')) = w' :: follow false after'

/-- A line that ends is skipped whatever comes behind it. -/
lemma exists_line (text : Text) : (∃ line, text = line ++ afterLine text ∧
    ∀ text', afterLine (line ++ text') = text') ∨ afterLine text = [] := by
  induction text with
  | nil => exact .inr rfl
  | cons b text ih =>
    by_cases hb : b = newline
    · subst hb
      exact .inl ⟨[newline], by rw [afterLine_newline]; rfl, fun _ => afterLine_newline _⟩
    · rw [afterLine_cons hb]
      rcases ih with ⟨line, h1, h2⟩ | h
      · refine .inl ⟨b :: line, by rw [List.cons_append, ← h1], fun text' => ?_⟩
        rw [List.cons_append, afterLine_cons hb, h2]
      · exact .inr h

lemma exists_word {b : UInt8} (hb : isAsciiWhitespace b = false) (text : Text) :
    ∃ w after, b :: text = w ++ after ∧ w ≠ [] ∧ (∀ c ∈ w, isAsciiWhitespace c = false) ∧
      Stops after := by
  refine ⟨(b :: text).takeWhile fun c => !isAsciiWhitespace c,
    (b :: text).dropWhile fun c => !isAsciiWhitespace c, List.takeWhile_append_dropWhile.symm,
    by simp [hb], fun c hc => by simpa using List.mem_takeWhile_imp hc, fun c hc => ?_⟩
  have h := List.head?_dropWhile_not (fun c => !isAsciiWhitespace c) (b :: text)
  rw [Option.mem_def.1 hc] at h
  simpa using h

/-- Every first token stands somewhere in the text. -/
lemma exists_reads : ∀ (n : ℕ) (text : Text) (start : Bool), text.length ≤ n →
    follow start text = w :: ts → ∃ before after, Reads start text w ts before after := by
  intro n
  induction n with
  | zero =>
    intro text start hn hf
    rw [List.length_eq_zero_iff.1 (Nat.le_zero.1 hn), follow_nil] at hf
    simp at hf
  | succ n ih =>
    intro text start hn hf
    cases text with
    | nil =>
      rw [follow_nil] at hf
      simp at hf
    | cons b text =>
      rw [List.length_cons] at hn
      by_cases hb : isAsciiWhitespace b = true
      · rw [follow_blank hb] at hf
        obtain ⟨before, after, h⟩ := ih text _ (by omega) hf
        exact ⟨b :: before, after, by rw [h.eq]; rfl, h.ne_nil, h.visible, h.stops, h.rest,
          fun after' hs => by rw [List.cons_append, follow_blank hb, h.same after' hs],
          fun w' after' hw hs => by
            rw [List.cons_append, follow_blank hb, h.replaced w' after' hw hs]⟩
      obtain ⟨x, rest, hx, hne, hvis, hstop⟩ := exists_word (Bool.eq_false_iff.2 hb) text
      rw [hx, follow_word hne hvis hstop] at hf
      split at hf
      · next hc =>
        -- The comment ends with its line; the token stands in what follows.
        rcases exists_line rest with ⟨line, hline, hskip⟩ | hnil
        · rw [← follow_true] at hf
          have hlen := congrArg List.length hx
          have hlen' := congrArg List.length hline
          have hpos := List.length_pos_of_ne_nil hne
          rw [List.length_cons, List.length_append] at hlen
          rw [List.length_append] at hlen'
          obtain ⟨before, after, h⟩ := ih (afterLine rest) true (by omega) hf
          have hlines : Stops (line ++ afterLine rest) := hline ▸ hstop
          have hfollow (y : Text) : follow start (x ++ line ++ before ++ y) =
              follow true (before ++ y) := by
            have hs : Stops (line ++ (before ++ y)) := by
              intro c hc
              cases line with
              | nil =>
                have h0 := hskip [newline]
                rw [List.nil_append, afterLine_newline] at h0
                simp at h0
              | cons a line => exact hlines c hc
            rw [List.append_assoc, List.append_assoc, follow_word hne hvis hs, if_pos hc, hskip,
              follow_true]
          refine ⟨x ++ line ++ before, after, ?_, h.ne_nil, h.visible, h.stops, h.rest,
            fun after' hs => (hfollow _).trans (h.same after' hs),
            fun w' after' hw hs => (hfollow _).trans (h.replaced w' after' hw hs)⟩
          rw [hx, hline, h.eq]
          simp
        · have hempty : tokens [] = [] := rfl
          rw [hnil, hempty] at hf
          simp at hf
      · next hc =>
        split at hf
        · simp at hf
        · next hp =>
          obtain ⟨rfl, rfl⟩ := List.cons.inj hf
          exact ⟨[], rest, hx, hne, hvis, hstop, rfl,
            fun after' hs => by
              rw [List.nil_append, follow_word hne hvis hs, if_neg hc, if_neg hp],
            fun w' after' hw hs => hw.follow hs start⟩

/-- Behind a token the next one is reached over a blank. -/
lemma Reads.stops_before {before : Text} (h : Reads start text w ts before after)
    (hs : Stops text) (w' y : Text) : Stops (before ++ (w' ++ y)) := by
  intro c hc
  cases before with
  | nil =>
    obtain ⟨b, w, rfl⟩ := List.exists_cons_of_ne_nil h.ne_nil
    have h1 := hs b (by rw [h.eq]; rfl)
    rw [h.visible b (by simp)] at h1
    simp at h1
  | cons b before => exact hs c (by rw [h.eq]; exact hc)

/-- The declared number of clauses stands somewhere in the input, and every other number can
stand there. -/
lemma Declares.exists_count {input : Text} {count expected : ℕ} {rest : List Text}
    (h : Declares (tokens input) count expected rest) :
    ∃ before c after, input = before ++ c ++ after ∧ Numeral c expected ∧
      ∀ c' k, Numeral c' k → k < 2 ^ 64 →
        Declares (tokens (before ++ c' ++ after)) count k rest := by
  obtain ⟨v, c, hf, hv, hlim, hc, hbig⟩ := h
  rw [← follow_true] at hf
  obtain ⟨b₁, a₁, h₁⟩ := exists_reads _ input true le_rfl hf
  obtain ⟨b₂, a₂, h₂⟩ := exists_reads _ a₁ false le_rfl h₁.rest
  obtain ⟨b₃, a₃, h₃⟩ := exists_reads _ a₂ false le_rfl h₂.rest
  obtain ⟨b₄, a₄, h₄⟩ := exists_reads _ a₃ false le_rfl h₃.rest
  refine ⟨b₁ ++ bytesOf "p" ++ b₂ ++ bytesOf "cnf" ++ b₃ ++ v ++ b₄, c, a₄, ?_, hc,
    fun c' k hk hlt => ⟨v, c', ?_, hv, hlim, hk, hlt⟩⟩
  · rw [h₁.eq, h₂.eq, h₃.eq, h₄.eq]
    simp
  · have hs₄ := h₄.stops_before h₃.stops c' a₄
    have hs₃ := h₃.stops_before h₂.stops v (b₄ ++ (c' ++ a₄))
    have hs₂ := h₂.stops_before h₁.stops (bytesOf "cnf") (b₃ ++ (v ++ (b₄ ++ (c' ++ a₄))))
    have hin : b₁ ++ bytesOf "p" ++ b₂ ++ bytesOf "cnf" ++ b₃ ++ v ++ b₄ ++ c' ++ a₄ =
        b₁ ++ (bytesOf "p" ++ (b₂ ++ (bytesOf "cnf" ++ (b₃ ++ (v ++ (b₄ ++ (c' ++ a₄))))))) := by
      simp only [List.append_assoc]
    rw [hin, ← follow_true, h₁.same _ hs₂, h₂.same _ hs₃, h₃.same _ hs₄,
      h₄.replaced c' a₄ hk.plain h₄.stops, h₄.rest]

end Replacement

/-! ### The whole parser -/

/-- The number of clauses that `parse` asks a vector for. -/
def request (input : Text) : Option ℕ :=
  match parseHeader (Lexer.new input) with
  | .error _ => none
  | .ok (_, expected, _) => some expected

/-- The vector that is asked for is as large as a number of the input says, whatever number stands
there. -/
def Dictated (input : Text) : Prop :=
  ∃ before c after n, input = before ++ c ++ after ∧ Numeral c n ∧ request input = some n ∧
    ∀ c' k, Numeral c' k → k < 2 ^ 64 → request (before ++ c' ++ after) = some k

/-- The arithmetic of the parser stays in the range of its types: an input is shorter than
`2 ^ 63`, the digits and the sign of a number are taken apart in `u64` and `i64`, and a literal is
packed into 32 bits. -/
structure InRange (input : Text) : Prop where
  lexer : ∀ l, Lexer.Met input l → l.Bounded input
  digit : ∀ b, isAsciiDigit b = true → 48 ≤ b.toNat
  natural : ∀ w n, parseU64 w = some n → n < 2 ^ 64
  integer : ∀ t z, parseI64 t = .ok z → -2 ^ 63 ≤ z ∧ z < 2 ^ 63
  literal : ∀ z l, fromDimacs z = some l → 2 * l.var + 1 < 2 ^ 32

/-- The parser returns, an error of its is placed in the input, its arithmetic stays in range, and
no vector is asked for that a number of the input dictates. -/
structure Safe (input : Text) : Prop where
  returns : ∃ r, parse input = some r
  placed : ∀ e, parse input = some (.error e) → PlacedIn input e.line e.column
  arithmetic : InRange input
  allocation : ¬ Dictated input

/-- The input has a header that is read to its end. -/
def HasHeader (input : Text) : Prop :=
  ∃ count expected rest, Declares (tokens input) count expected rest

section Whole

variable {input : Text} {count expected : ℕ} {rest : List Text}

lemma inRange (input : Text) : InRange input where
  lexer := fun _ h => h.bounded
  digit := fun b hb => by
    rw [isAsciiDigit, Bool.and_eq_true, decide_eq_true_iff] at hb
    exact hb.1
  natural := fun _ _ h => (parseU64_eq_some.1 h).2
  integer := fun _ _ h => (parseI64_eq_ok.1 h).2
  literal := fun _ _ h => by
    have := (fromDimacs_eq_some.1 h).2
    rw [maxVariables] at this
    omega

/-- A header that the tokens start with is read. -/
lemma Declares.parseHeader (h : Declares (tokens input) count expected rest) :
    ∃ l, Dimacs.parseHeader (Lexer.new input) = .ok (count, expected, l) ∧ l.Tracked input ∧
      l.follow = rest := by
  obtain ⟨v, c, hf, hv, hlim, hc, hbig⟩ := h
  have hfollow : (Lexer.new input).follow = tokens input := follow_true input
  obtain ⟨l, he, -, hrest⟩ := parseHeader_of_follow (Lexer.Tracked.new input).ok
    (hfollow.trans hf) hv hlim hc hbig
  exact ⟨l, he, (parseHeader_tracked (.new input) he).1, hrest⟩

lemma declares_of_parseHeader {l : Lexer}
    (he : Dimacs.parseHeader (Lexer.new input) = .ok (count, expected, l)) :
    Declares (tokens input) count expected l.follow := by
  have hfollow : (Lexer.new input).follow = tokens input := follow_true input
  exact hfollow ▸ (parseHeader_tracked (.new input) he).2

lemma request_eq_some {n : ℕ} :
    request input = some n ↔ ∃ count rest, Declares (tokens input) count n rest := by
  constructor
  · intro h
    rw [request] at h
    split at h
    · simp at h
    · next count expected l he =>
      obtain rfl := Option.some.inj h
      exact ⟨count, l.follow, declares_of_parseHeader he⟩
  · rintro ⟨count, rest, h⟩
    obtain ⟨l, he, -⟩ := h.parseHeader
    rw [request, he]

/-- A vector is asked for exactly when a header is read, and then the header dictates it. -/
lemma dictated_iff : Dictated input ↔ HasHeader input := by
  constructor
  · rintro ⟨before, c, after, n, -, -, h, -⟩
    obtain ⟨count, rest, h⟩ := request_eq_some.1 h
    exact ⟨count, n, rest, h⟩
  · rintro ⟨count, expected, rest, h⟩
    obtain ⟨before, c, after, hin, hc, hall⟩ := h.exists_count
    exact ⟨before, c, after, expected, hin, hc, request_eq_some.2 ⟨count, rest, h⟩,
      fun c' k hk hlt => request_eq_some.2 ⟨count, rest, hall c' k hk hlt⟩⟩

lemma returns_iff : (∃ r, parse input = some r) ↔
    ∀ count expected rest, Declares (tokens input) count expected rest → Fits expected := by
  constructor
  · rintro ⟨r, hr⟩ count expected rest h
    obtain ⟨l, he, -⟩ := h.parseHeader
    rw [parse, he] at hr
    by_contra hfits
    simp [hfits] at hr
  · intro h
    rw [parse]
    split
    · exact ⟨_, rfl⟩
    · next count expected l he =>
      rw [if_pos (h count expected _ (declares_of_parseHeader he))]
      exact ⟨_, rfl⟩

/-- The errors are placed unless the input ends too early and lines follow the trailer. -/
lemma placed_iff : (∀ e, parse input = some (.error e) → PlacedIn input e.line e.column) ↔
    ¬ (TrailerFollowed input ∧ Unfinished (tokens input)) := by
  have hfollow : (Lexer.new input).follow = tokens input := follow_true input
  have hheader := sound_parseHeader (.new input)
  rw [hfollow] at hheader
  rw [not_and]
  cases he : parseHeader (Lexer.new input) with
  | error e =>
    have hparse : parse input = some (.error e) := by rw [parse, he]
    have hnone : ∀ count expected rest, ¬ Declares (tokens input) count expected rest := by
      intro count expected rest h
      obtain ⟨l, hok, -⟩ := h.parseHeader
      rw [he] at hok
      simp at hok
    have hunfinished : Unfinished (tokens input) ↔ CutShort (tokens input) := by
      refine ⟨fun h => h.resolve_right ?_, .inl⟩
      rintro ⟨_, _, _, hd, -⟩
      exact hnone _ _ _ hd
    rw [hunfinished, ← hheader, he, sound_error, hparse]
    exact ⟨fun h => h e rfl, fun h e' he' => by
      obtain rfl := Except.error.inj (Option.some.inj he')
      exact h⟩
  | ok r =>
    obtain ⟨count, expected, l⟩ := r
    have hd := declares_of_parseHeader he
    obtain ⟨htrack, -⟩ := parseHeader_tracked (.new input) he
    by_cases hfits : Fits expected
    · have hparse : parse input =
          some (readClauses count expected (l.rest.length + 1) l [] []) := by
        rw [parse, he]
        exact if_pos hfits
      have hlim : count ≤ maxVariables := by
        obtain ⟨v, c, -, -, hlim, -⟩ := hd
        exact hlim
      rw [hd.unfinished hfits]
      refine Iff.trans ?_ (sound_readClauses hlim _ l [] [] htrack (Nat.lt_succ_self _)
        (Nat.zero_le _))
      rw [hparse]
      exact ⟨fun h e he => h e (congrArg some he), fun h e he => h e (Option.some.inj he)⟩
    · have hparse : parse input = none := by
        rw [parse, he]
        exact if_neg hfits
      have hnot : ¬ Unfinished (tokens input) := by
        rintro (hcut | ⟨count', expected', rest', hd', hfits', -⟩)
        · exact hcut.not_declares hd
        · exact hfits ((hd.unique hd').2.1 ▸ hfits')
      simp [hparse, hnot]

end Whole

/-- **When the parser is safe.**  It panics exactly on a header whose number of clauses does not
fit, it misplaces an error exactly when the input ends too early and lines follow the trailer, and
every header dictates the vector that is asked for. -/
theorem parse_safe_iff (input : Text) :
    (Safe input ↔ ¬ HasHeader input ∧ ¬ (TrailerFollowed input ∧ CutShort (tokens input))) ∧
      ((∃ r, parse input = some r) ↔ ∀ count expected rest,
        Declares (tokens input) count expected rest → Fits expected) ∧
      ((∀ e, parse input = some (.error e) → PlacedIn input e.line e.column) ↔
        ¬ (TrailerFollowed input ∧ Unfinished (tokens input))) ∧
      InRange input ∧ (Dictated input ↔ HasHeader input) := by
  refine ⟨⟨?_, ?_⟩, returns_iff, placed_iff, inRange input, dictated_iff⟩
  · rintro ⟨-, hplaced, -, halloc⟩
    refine ⟨fun h => halloc (dictated_iff.2 h), fun ⟨ht, hcut⟩ => ?_⟩
    exact placed_iff.1 hplaced ⟨ht, .inl hcut⟩
  · rintro ⟨hheader, hcut⟩
    refine ⟨returns_iff.2 fun count expected rest h => absurd ⟨count, expected, rest, h⟩ hheader,
      placed_iff.2 ?_, inRange input, fun h => hheader (dictated_iff.1 h)⟩
    rintro ⟨ht, h | ⟨count, expected, rest, hd, -⟩⟩
    · exact hcut ⟨ht, h⟩
    · exact hheader ⟨count, expected, rest, hd⟩

/-- A header that declares too many clauses. -/
def oversized : Text := bytesOf "p cnf 0 18446744073709551615"

/-- An input whose trailer is not its last line and comes too early. -/
def interrupted : Text := bytesOf "p cnf 0 1\n%\nabc\n"

/-- The parser panics on the first input, and reports an error outside the second. -/
theorem parse_unsafe : parse oversized = none ∧ ¬ Safe oversized ∧
    ∃ e, parse interrupted = some (.error e) ∧ ¬ PlacedIn interrupted e.line e.column := by
  have hnone : parse oversized = none := by
    rw [← Option.isNone_iff_eq_none]
    decide +kernel
  refine ⟨hnone, fun h => ?_, ⟨2, 7, "header declares 1 clauses, but input contains 0"⟩, by rfl, ?_⟩
  · obtain ⟨r, hr⟩ := h.returns
    rw [hnone] at hr
    simp at hr
  · rintro ⟨before, hpre, hplace⟩
    have hmem := (List.mem_inits before interrupted).2 hpre
    have hall : ∀ x ∈ interrupted.inits, placeBehind x ≠ (2, 7) := by decide +kernel
    exact hall before hmem hplace

end Satrap.Dimacs
