/-
# The DIMACS lexer

The tokens of a DIMACS text, as `Lexer::next_token` delivers them one by one.  A `c` token
drops the rest of its line, a token that starts a line with `c` is a comment, and a token that
starts a line with `%` ends the input.

What the lexer delivers is described line by line: `tokens_eq` says that its tokens are those
of the lines up to the trailer, with the comments left out.
-/
import Satrap.Text.Bytes
import Mathlib.Data.List.TakeWhile
import Mathlib.Tactic.Common

namespace Satrap.Dimacs

/-- `u8::is_ascii_whitespace`. -/
def isAsciiWhitespace (b : UInt8) : Bool := b = 32 || b = 9 || b = 10 || b = 12 || b = 13

/-! ### The lexer -/

/-- The part of the input that is left, and the place it starts at. -/
structure Lexer where
  rest : Text
  position : ℕ
  line : ℕ
  lineStart : ℕ

/-- A token with the place it starts at. -/
structure Token where
  bytes : Text
  line : ℕ
  column : ℕ

namespace Lexer

/-- `Lexer::new`. -/
def new (input : Text) : Lexer := ⟨input, 0, 1, 0⟩

/-- Move past one byte, which may end a line. -/
def pass (l : Lexer) (b : UInt8) (rest : Text) : Lexer :=
  ⟨rest, l.position + 1, if b = newline then l.line + 1 else l.line,
    if b = newline then l.position + 1 else l.lineStart⟩

/-- The loop of `skip_ascii_whitespace`, over what is left of the input. -/
def skipBlanks : Text → Lexer → Lexer
  | [], l => l
  | b :: rest, l => if isAsciiWhitespace b then skipBlanks rest (l.pass b rest) else l

/-- `skip_ascii_whitespace`. -/
def skipAsciiWhitespace (l : Lexer) : Lexer := skipBlanks l.rest l

/-- The loop of `skip_to_next_line`, over what is left of the input. -/
def skipLine : Text → Lexer → Lexer
  | [], l => l
  | b :: rest, l => if b = newline then l.pass b rest else skipLine rest (l.pass b rest)

/-- `skip_to_next_line`. -/
def skipToNextLine (l : Lexer) : Lexer := skipLine l.rest l

/-- The lexer behind the token it is at. -/
def behind (l : Lexer) (bytes : Text) : Lexer :=
  { l with rest := l.rest.drop bytes.length, position := l.position + bytes.length }

/-- The bytes up to the next blank. -/
def word (l : Lexer) : Text := l.rest.takeWhile fun b => !isAsciiWhitespace b

/-- The column of the place the lexer is at. -/
def column (l : Lexer) : ℕ := l.position - l.lineStart + 1

/-- The token is a comment: a `c`, or a token that starts a line with `c`. -/
def isComment (column : ℕ) (bytes : Text) : Bool :=
  decide (bytes = [ascii 'c']) || decide (column = 1) && decide (bytes.head? = some (ascii 'c'))

/-- The token is the trailer: it starts a line with `%`. -/
def isTrailer (column : ℕ) (bytes : Text) : Bool :=
  decide (column = 1) && decide (bytes.head? = some (ascii '%'))

/-- The loop of `next_token`.  The first argument bounds the number of comments. -/
def nextLoop : ℕ → Lexer → Option Token × Lexer
  | 0, l => (none, l)
  | fuel + 1, l =>
    let l := l.skipAsciiWhitespace
    match l.rest with
    | [] => (none, l)
    | _ :: _ =>
      let bytes := l.word
      if isComment l.column bytes then nextLoop fuel (l.behind bytes).skipToNextLine
      else if isTrailer l.column bytes then
        (none, { l with rest := [], position := l.position + l.rest.length })
      else (some ⟨bytes, l.line, l.column⟩, l.behind bytes)

/-- `Lexer::next_token`. -/
def nextToken (l : Lexer) : Option Token × Lexer := nextLoop (l.rest.length + 1) l

end Lexer

/-! ### Lines -/

/-- The lines of a text. -/
def lines (text : Text) : List Text := text.splitOn newline

/-- The words of a line. -/
def words (line : Text) : List Text :=
  (line.splitOnP isAsciiWhitespace).filter fun w => !w.isEmpty

/-- The words before a lone `c`. -/
def uncommented (line : Text) : List Text :=
  (words line).takeWhile fun w => decide (w ≠ [ascii 'c'])

/-- The tokens of a line for the lexer, which takes the line for a comment when its first
byte is a `c`. -/
def lineTokens (line : Text) : List Text :=
  if line.head? = some (ascii 'c') then [] else uncommented line

/-- The tokens of the lines before the first that starts with `%`. -/
def linesTokens (ls : List Text) : List Text :=
  (ls.takeWhile fun line => decide (line.head? ≠ some (ascii '%'))).flatMap lineTokens

/-- The tokens of a text. -/
def tokens (text : Text) : List Text := linesTokens (lines text)

section Words

variable {b : UInt8} {text rest w : Text}

lemma isAsciiWhitespace_newline : isAsciiWhitespace newline = true := rfl

lemma lines_ne_nil (text : Text) : lines text ≠ [] := List.splitOn_ne_nil _ _

@[simp] lemma lines_nil : lines [] = [[]] := rfl

lemma lines_newline (text : Text) : lines (newline :: text) = [] :: lines text := by
  rw [lines, List.splitOn_cons_eq_if_modifyHead]
  simp [lines]

lemma lines_cons (hb : b ≠ newline) (text : Text) :
    lines (b :: text) = (lines text).modifyHead (b :: ·) := by
  rw [lines, List.splitOn_cons_eq_if_modifyHead]
  simp [lines, hb]

@[simp] lemma words_nil : words [] = [] := rfl

lemma words_blank (hb : isAsciiWhitespace b = true) (text : Text) :
    words (b :: text) = words text := by
  rw [words, List.splitOnP_cons_eq_if_modifyHead, if_pos hb]
  simp [words]

lemma words_append (hne : w ≠ []) (hw : ∀ b ∈ w, isAsciiWhitespace b = false)
    (hstop : ∀ b ∈ rest.head?, isAsciiWhitespace b = true) : words (w ++ rest) = w :: words rest := by
  cases rest with
  | nil =>
    rw [List.append_nil, words, List.splitOnP_eq_singleton hw]
    simp [hne]
  | cons b rest =>
    have hb := hstop b rfl
    rw [words_blank hb, words, List.splitOnP_append_cons_of_forall_mem hw b hb]
    simp [words, hne]

lemma ne_newline_of_blank (hb : isAsciiWhitespace b = false) : b ≠ newline := by
  rintro rfl
  simp [isAsciiWhitespace_newline] at hb

lemma lines_append (hw : ∀ b ∈ w, isAsciiWhitespace b = false) (text : Text) :
    lines (w ++ text) = (lines text).modifyHead (w ++ ·) := by
  induction w with
  | nil => cases h : lines text <;> simp [h]
  | cons b w ih =>
    rw [List.cons_append, lines_cons (ne_newline_of_blank (hw b (by simp))),
      ih fun c hc => hw c (by simp [hc]), List.modifyHead_modifyHead]
    rfl

lemma head?_of_lines {first : Text} {others : List Text} (h : lines text = first :: others) :
    ∀ b ∈ first.head?, b ∈ text.head? := by
  cases text with
  | nil =>
    simp only [lines_nil, List.cons.injEq] at h
    simp [← h.1]
  | cons c text =>
    by_cases hc : c = newline
    · subst hc
      rw [lines_newline, List.cons.injEq] at h
      simp [← h.1]
    · rw [lines_cons hc] at h
      obtain ⟨a, as, ha⟩ := List.exists_cons_of_ne_nil (lines_ne_nil text)
      rw [ha, List.modifyHead_cons, List.cons.injEq] at h
      simp [← h.1]

/-- The text after the line it starts in. -/
def afterLine (text : Text) : Text := (text.dropWhile fun b => decide (b ≠ newline)).drop 1

@[simp] lemma linesTokens_nil : linesTokens [] = [] := rfl

lemma afterLine_newline (text : Text) : afterLine (newline :: text) = text := by
  simp [afterLine]

lemma afterLine_cons (hb : b ≠ newline) (text : Text) :
    afterLine (b :: text) = afterLine text := by
  simp [afterLine, hb]

lemma tokens_afterLine : ∀ (text : Text) {first : Text} {others : List Text},
    lines text = first :: others → tokens (afterLine text) = linesTokens others := by
  intro text
  induction text with
  | nil =>
    intro first others h
    simp only [lines_nil, List.cons.injEq, List.nil_eq] at h
    obtain ⟨-, rfl⟩ := h
    rfl
  | cons b text ih =>
    intro first others h
    by_cases hb : b = newline
    · subst hb
      rw [lines_newline, List.cons.injEq] at h
      rw [afterLine_newline, tokens, h.2]
    · rw [lines_cons hb] at h
      obtain ⟨a, as, ha⟩ := List.exists_cons_of_ne_nil (lines_ne_nil text)
      rw [ha, List.modifyHead_cons, List.cons.injEq] at h
      rw [afterLine_cons hb, ih ha, h.2]

/-- The tokens of a text that may start inside a line. -/
def follow (start : Bool) (text : Text) : List Text :=
  match lines text with
  | [] => []
  | first :: others =>
    if start then linesTokens (first :: others) else uncommented first ++ linesTokens others

lemma follow_true (text : Text) : follow true text = tokens text := by
  rw [follow, tokens]
  cases lines text <;> rfl

@[simp] lemma follow_nil (start : Bool) : follow start [] = [] := by
  cases start <;> rfl

/-- A blank is skipped; after a line feed a line starts. -/
lemma follow_blank (hb : isAsciiWhitespace b = true) (start : Bool) (text : Text) :
    follow start (b :: text) = follow (decide (b = newline)) text := by
  obtain ⟨first, others, h⟩ := List.exists_cons_of_ne_nil (lines_ne_nil text)
  by_cases hn : b = newline
  · subst hn
    simp only [decide_true, follow_true, tokens]
    rw [follow, lines_newline]
    cases start <;> rfl
  · have hc : b ≠ ascii 'c' := by rintro rfl; simp [isAsciiWhitespace, ascii] at hb
    have ht : b ≠ ascii '%' := by rintro rfl; simp [isAsciiWhitespace, ascii] at hb
    rw [follow, follow, lines_cons hn, h, List.modifyHead_cons]
    cases start <;> simp [linesTokens, lineTokens, uncommented, words_blank hb, hn, hc, ht]

/-- At a word the tokens go on with the word, unless it is a comment or the trailer. -/
lemma follow_word (hne : w ≠ []) (hw : ∀ b ∈ w, isAsciiWhitespace b = false)
    (hstop : ∀ b ∈ rest.head?, isAsciiWhitespace b = true) (start : Bool) :
    follow start (w ++ rest) =
      if w = [ascii 'c'] ∨ start = true ∧ w.head? = some (ascii 'c') then tokens (afterLine rest)
      else if start = true ∧ w.head? = some (ascii '%') then []
      else w :: follow false rest := by
  obtain ⟨first, others, h⟩ := List.exists_cons_of_ne_nil (lines_ne_nil rest)
  have hafter := tokens_afterLine rest h
  have hwords := words_append hne hw fun b hb => hstop b (head?_of_lines h b hb)
  have hhead : (w ++ first).head? = w.head? := by
    cases w with
    | nil => exact absurd rfl hne
    | cons b w => rfl
  rw [follow, follow, lines_append hw, h, List.modifyHead_cons]
  dsimp only
  by_cases hc : w = [ascii 'c']
  · have hlone : uncommented (w ++ first) = [] := by
      rw [uncommented, hwords]
      simp [hc]
    have hct : some (ascii 'c') ≠ some (ascii '%') := by decide
    rw [if_pos (Or.inl hc), hafter, hlone]
    cases start with
    | false => rfl
    | true => simp [linesTokens, lineTokens, hc, hct]
  · have hmore : uncommented (w ++ first) = w :: uncommented first := by
      rw [uncommented, hwords]
      simp [uncommented, hc]
    rw [hmore]
    cases start with
    | false => simp [hc]
    | true =>
      by_cases hcs : w.head? = some (ascii 'c')
      · have hct : some (ascii 'c') ≠ some (ascii '%') := by decide
        simp [linesTokens, lineTokens, hhead, hcs, hafter, hct]
      · by_cases hts : w.head? = some (ascii '%')
        · have hct : some (ascii '%') ≠ some (ascii 'c') := by decide
          simp [linesTokens, hhead, hts, hc, hct]
        · simp [linesTokens, lineTokens, hhead, hcs, hts, hc, hmore]

end Words

/-! ### What the lexer delivers -/

namespace Lexer

variable {l : Lexer} {b : UInt8} {rest text : Text}

/-- The line starts at or before the place the lexer is at. -/
def Ok (l : Lexer) : Prop := l.lineStart ≤ l.position

/-- The lexer is at the start of a line. -/
def atStart (l : Lexer) : Bool := decide (l.position = l.lineStart)

/-- The tokens still to come. -/
def follow (l : Lexer) : List Text := Dimacs.follow l.atStart l.rest

lemma column_eq_one (h : l.Ok) : l.column = 1 ↔ l.atStart = true := by
  rw [column, atStart, decide_eq_true_iff]
  unfold Ok at h
  omega

lemma Ok.pass (h : l.Ok) (b : UInt8) (rest : Text) :
    (l.pass b rest).Ok ∧ (l.pass b rest).atStart = decide (b = newline) := by
  unfold Ok at h
  by_cases hb : b = newline
  · simp [Lexer.pass, Ok, atStart, hb]
  · constructor
    · simp only [Lexer.pass, Ok, hb, if_false]
      omega
    · simp only [Lexer.pass, atStart, hb, if_false, decide_false, decide_eq_false_iff_not]
      omega

lemma skipBlanks_spec : ∀ (text : Text) (l : Lexer), l.rest = text → l.Ok →
    (skipBlanks text l).Ok ∧ (skipBlanks text l).follow = l.follow ∧
      (∀ b ∈ (skipBlanks text l).rest.head?, isAsciiWhitespace b = false) ∧
      (skipBlanks text l).rest.length ≤ text.length := by
  intro text
  induction text with
  | nil => exact fun l hl h => ⟨h, rfl, by simp [skipBlanks, hl], by simp [skipBlanks, hl]⟩
  | cons b text ih =>
    intro l hl h
    rw [skipBlanks]
    split
    · next hb =>
      obtain ⟨hok, hstart⟩ := h.pass b text
      obtain ⟨h1, h2, h3, h4⟩ := ih (l.pass b text) rfl hok
      refine ⟨h1, h2.trans ?_, h3, h4.trans (Nat.le_succ _)⟩
      rw [follow, follow, hstart, hl, follow_blank hb]
      rfl
    · next hb => exact ⟨h, rfl, by simpa [hl] using hb, by rw [hl]⟩

lemma skipLine_spec : ∀ (text : Text) (l : Lexer), l.rest = text → l.Ok →
    (skipLine text l).Ok ∧ (skipLine text l).rest = afterLine text ∧
      ((skipLine text l).atStart = true ∨ afterLine text = []) := by
  intro text
  induction text with
  | nil => exact fun l hl h => ⟨h, hl, .inr rfl⟩
  | cons b text ih =>
    intro l hl h
    obtain ⟨hok, hstart⟩ := h.pass b text
    rw [skipLine]
    split
    · next hb =>
      subst hb
      rw [afterLine_newline]
      exact ⟨hok, rfl, .inl (by simpa using hstart)⟩
    · next hb =>
      rw [afterLine_cons hb]
      exact ih _ rfl hok

lemma skipToNextLine_spec (h : l.Ok) :
    l.skipToNextLine.Ok ∧ l.skipToNextLine.follow = tokens (afterLine l.rest) ∧
      l.skipToNextLine.rest.length ≤ l.rest.length := by
  obtain ⟨h1, h2, h3⟩ := skipLine_spec l.rest l rfl h
  have h2' : l.skipToNextLine.rest = afterLine l.rest := h2
  refine ⟨h1, ?_, ?_⟩
  · rw [follow, h2']
    rcases h3 with h3 | h3
    · rw [← follow_true]
      exact congrArg (Dimacs.follow · _) h3
    · rw [h3, follow_nil]
      rfl
  · rw [h2', afterLine, List.length_drop]
    have := (List.dropWhile_sublist (l := l.rest) fun b => decide (b ≠ newline)).length_le
    omega

/-- The word the lexer is at, and what comes behind it. -/
lemma word_spec {c : UInt8} (hl : l.rest = c :: rest) (hc : isAsciiWhitespace c = false) :
    l.word ≠ [] ∧ (∀ b ∈ l.word, isAsciiWhitespace b = false) ∧
      l.rest = l.word ++ (l.behind l.word).rest ∧
      ∀ b ∈ (l.behind l.word).rest.head?, isAsciiWhitespace b = true := by
  have hdrop : (l.behind l.word).rest = l.rest.dropWhile fun b => !isAsciiWhitespace b := by
    have h := List.takeWhile_append_dropWhile (p := fun b => !isAsciiWhitespace b) (l := l.rest)
    show l.rest.drop l.word.length = _
    nth_rewrite 1 [← h]
    exact List.drop_left
  refine ⟨by simp [word, hl, hc], fun b hb => ?_, ?_, ?_⟩
  · simpa using List.mem_takeWhile_imp hb
  · rw [hdrop, word, List.takeWhile_append_dropWhile]
  · intro b hb
    rw [hdrop] at hb
    have h := List.head?_dropWhile_not (fun b => !isAsciiWhitespace b) l.rest
    rw [Option.mem_def.1 hb] at h
    simpa using h

/-- One call of `next_token` delivers the first of the tokens to come. -/
lemma nextLoop_spec : ∀ (fuel : ℕ) (l : Lexer), l.Ok → l.rest.length < fuel →
    ((nextLoop fuel l).1 = none → l.follow = []) ∧
      ∀ t, (nextLoop fuel l).1 = some t → l.follow = t.bytes :: (nextLoop fuel l).2.follow ∧
        (nextLoop fuel l).2.Ok ∧ (nextLoop fuel l).2.rest.length < l.rest.length := by
  intro fuel
  induction fuel with
  | zero => exact fun l _ h => absurd h (Nat.not_lt_zero _)
  | succ fuel ih =>
    intro l hok hfuel
    obtain ⟨h1, h2, h3, h4⟩ := skipBlanks_spec l.rest l rfl hok
    rw [nextLoop, skipAsciiWhitespace, ← h2]
    generalize skipBlanks l.rest l = l' at h1 h3 h4
    dsimp only
    split
    · next hnil => exact ⟨fun _ => by rw [follow, hnil, follow_nil], fun t ht => by simp at ht⟩
    · next c rest hcons =>
      obtain ⟨hne, hw, hsplit, hstop⟩ := word_spec hcons (h3 c (by rw [hcons]; rfl))
      have hword := follow_word hne hw hstop l'.atStart
      rw [← hsplit] at hword
      have hlen : (l'.behind l'.word).rest.length < l'.rest.length := by
        have := congrArg List.length hsplit
        have := List.length_pos_of_ne_nil hne
        simp only [List.length_append] at *
        omega
      have hbehind : (l'.behind l'.word).Ok := h1.trans (Nat.le_add_right _ _)
      have hcol := column_eq_one h1
      split
      · next hc =>
        obtain ⟨hl, hf, hle⟩ := skipToNextLine_spec hbehind
        have hcomment : l'.word = [ascii 'c'] ∨
            l'.atStart = true ∧ l'.word.head? = some (ascii 'c') := by
          simpa [isComment, hcol] using hc
        rw [if_pos hcomment, ← hf] at hword
        obtain ⟨h5, h6⟩ := ih _ hl (by omega)
        refine ⟨fun hn => hword.trans (h5 hn), fun t ht => ?_⟩
        obtain ⟨h7, h8, h9⟩ := h6 t ht
        exact ⟨hword.trans h7, h8, by omega⟩
      · next hc =>
        have hcomment : ¬ (l'.word = [ascii 'c'] ∨
            l'.atStart = true ∧ l'.word.head? = some (ascii 'c')) := by
          simpa [isComment, hcol] using hc
        rw [if_neg hcomment] at hword
        split
        · next ht =>
          have htrailer : l'.atStart = true ∧ l'.word.head? = some (ascii '%') := by
            simpa [isTrailer, hcol] using ht
          rw [if_pos htrailer] at hword
          exact ⟨fun _ => hword, fun t ht => by simp at ht⟩
        · next ht =>
          have htrailer : ¬ (l'.atStart = true ∧ l'.word.head? = some (ascii '%')) := by
            simpa [isTrailer, hcol] using ht
          rw [if_neg htrailer] at hword
          refine ⟨fun hn => by simp at hn, fun t ht => ?_⟩
          obtain rfl := Option.some.inj ht
          refine ⟨hword.trans ?_, hbehind, by dsimp only; omega⟩
          have hmid : (l'.behind l'.word).atStart = false := by
            have := List.length_pos_of_ne_nil hne
            have h1' : l'.lineStart ≤ l'.position := h1
            exact decide_eq_false (by show ¬ l'.position + l'.word.length = l'.lineStart; omega)
          rw [follow, hmid]

end Lexer

end Satrap.Dimacs
