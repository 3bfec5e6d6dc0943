/-
# The documented DIMACS format

The format as the parser documents it: a lone `c` drops the rest of its line, a line whose
first token starts with `c` is dropped, and a line whose first token starts with `%` ends the
text.  The lexer looks at the first byte of a line instead, so the two readings differ on the
texts with an indented comment or trailer, and nowhere else.
-/
import Satrap.Dimacs.Parser

namespace Satrap.Dimacs

/-! ### The documented reading -/

/-- The first byte of the first word of a line. -/
def firstByte (line : Text) : Option UInt8 := (words line).head?.bind List.head?

/-- The tokens of a line, which is a comment when its first word starts with `c`. -/
def documentedLine (line : Text) : List Text :=
  if firstByte line = some (ascii 'c') then [] else uncommented line

/-- The tokens of the lines before the first whose first word starts with `%`. -/
def documentedTokens (text : Text) : List Text :=
  ((lines text).takeWhile fun line => decide (firstByte line ≠ some (ascii '%'))).flatMap
    documentedLine

/-- A comment line or a trailer with blanks in front of it. -/
structure IndentedLine (line : Text) : Prop where
  blank : ∃ b ∈ line.head?, isAsciiWhitespace b = true
  marked : firstByte line = some (ascii '%') ∨
    firstByte line = some (ascii 'c') ∧ (words line).head? ≠ some [ascii 'c']

/-- Some line in front of the trailer is an indented comment or trailer. -/
def Indented (text : Text) : Prop :=
  ∃ line ∈ (lines text).takeWhile fun line => decide (line.head? ≠ some (ascii '%')),
    IndentedLine line

section Line

variable {line text : Text} {b : UInt8}

lemma firstByte_of_blank (hb : isAsciiWhitespace b = true) (line : Text) :
    firstByte (b :: line) = firstByte line := by
  rw [firstByte, words_blank hb, firstByte]

/-- A line that does not start with a blank starts with its first word. -/
lemma firstByte_of_head (hb : isAsciiWhitespace b = false) (line : Text) :
    firstByte (b :: line) = some b := by
  have hsplit := List.takeWhile_append_dropWhile (p := fun b => !isAsciiWhitespace b)
    (l := b :: line)
  rw [List.takeWhile_cons_of_pos (by simpa using hb)] at hsplit
  rw [firstByte, ← hsplit, words_append (by simp)]
  · rfl
  · intro c hc
    rcases List.mem_cons.1 hc with rfl | hc
    · exact hb
    · simpa using List.mem_takeWhile_imp hc
  · intro c hc
    have h := List.head?_dropWhile_not (fun b => !isAsciiWhitespace b) (b :: line)
    rw [Option.mem_def.1 hc] at h
    simpa using h

/-- A visible first byte is the first byte of the first word. -/
lemma firstByte_eq (hb : isAsciiWhitespace b = false) (h : line.head? = some b) :
    firstByte line = some b := by
  cases line with
  | nil => simp at h
  | cons c line =>
    obtain rfl := Option.some.inj h
    exact firstByte_of_head hb line

/-- The two readings of a line agree unless it is indented. -/
lemma head?_eq_iff (h : ¬ IndentedLine line) :
    (line.head? = some (ascii '%') ↔ firstByte line = some (ascii '%')) ∧
      lineTokens line = documentedLine line := by
  cases line with
  | nil => exact ⟨by simp [firstByte], rfl⟩
  | cons b line =>
    by_cases hb : isAsciiWhitespace b = true
    · have hmark := mt (IndentedLine.mk ⟨b, rfl, hb⟩) h
      rw [not_or] at hmark
      have hc : b ≠ ascii 'c' := by rintro rfl; simp [isAsciiWhitespace, ascii] at hb
      have ht : b ≠ ascii '%' := by rintro rfl; simp [isAsciiWhitespace, ascii] at hb
      refine ⟨by simp [ht, hmark.1], ?_⟩
      rw [lineTokens, documentedLine, if_neg (by simpa using hc)]
      split
      · next hfirst =>
        have hlone := not_not.1 (not_and.1 hmark.2 hfirst)
        rw [uncommented]
        cases hw : words (b :: line) with
        | nil => rfl
        | cons w ws =>
          rw [hw] at hlone
          simp [Option.some.inj hlone]
      · rfl
    · have hfirst := firstByte_of_head (by simpa using hb) line
      refine ⟨by rw [hfirst]; rfl, ?_⟩
      rw [lineTokens, documentedLine, hfirst]
      rfl

/-- Without indented comments the lexer reads what is documented. -/
lemma tokens_eq_documented (h : ¬ Indented text) : tokens text = documentedTokens text := by
  rw [Indented] at h
  rw [tokens, linesTokens, documentedTokens]
  generalize lines text = ls at h
  induction ls with
  | nil => rfl
  | cons line ls ih =>
    by_cases ht : line.head? = some (ascii '%')
    · have hfirst := firstByte_eq (by decide) ht
      simp [ht, hfirst]
    · have hrest : ∀ q, q ∈ ls.takeWhile (fun line => decide (line.head? ≠ some (ascii '%'))) →
          q ∈ (line :: ls).takeWhile fun line => decide (line.head? ≠ some (ascii '%')) := by
        intro q hq
        rw [List.takeWhile_cons_of_pos (by simpa using ht)]
        exact List.mem_cons_of_mem _ hq
      have hline : ¬ IndentedLine line := fun hi => h ⟨line, by
        rw [List.takeWhile_cons_of_pos (by simpa using ht)]
        exact List.mem_cons_self, hi⟩
      have hindented : ¬ ∃ q ∈ ls.takeWhile (fun line => decide (line.head? ≠ some (ascii '%'))),
          IndentedLine q := by
        rintro ⟨q, hq, hi⟩
        exact h ⟨q, hrest q hq, hi⟩
      obtain ⟨hiff, heq⟩ := head?_eq_iff hline
      rw [List.takeWhile_cons_of_pos (by simpa using ht), List.takeWhile_cons_of_pos
        (by simpa using mt hiff.2 ht), List.flatMap_cons, List.flatMap_cons, heq,
        ih hindented]

end Line

/-! ### The tokens of the grammar -/

section Grammar

variable {w : Text} {n : ℕ} {z : ℤ} {ts text : List Text} {f g : Formula}

/-- The first bytes of tokens that no comment and no trailer starts with. -/
def Unmarked (w : Text) : Prop :=
  w.head? ≠ some (ascii 'c') ∧ w.head? ≠ some (ascii '%')

lemma Numeral.unmarked (h : Numeral w n) : Unmarked w := by
  cases w with
  | nil => exact absurd rfl h.ne_nil
  | cons b w =>
    have hb := h.digit b (by simp)
    constructor <;> intro he <;> obtain rfl := Option.some.inj he <;> exact absurd hb (by decide)

lemma IntegerToken.unmarked (h : IntegerToken w z) : Unmarked w := by
  rcases h with h | h | h
  · exact h.unmarked
  · constructor <;> simp [ascii]
  · constructor <;> simp [ascii]

lemma ClauseList.unmarked {count : ℕ} {cs : List (List Lit)} (h : ClauseList count ts cs) :
    ∀ w ∈ ts, Unmarked w := by
  induction h with
  | nil => simp
  | zero hw _ ih => exact List.forall_mem_cons.2 ⟨hw.unmarked, ih⟩
  | literal hw _ _ ih => exact List.forall_mem_cons.2 ⟨hw.unmarked, ih⟩

/-- Only the second token starts with `c`, and none with `%`. -/
lemma Grammar.shape (h : Grammar ts f) : ∃ a rest, ts = a :: bytesOf "cnf" :: rest ∧
    Unmarked a ∧ ∀ w ∈ rest, Unmarked w := by
  obtain ⟨hv, -, hc, hcs⟩ := h
  exact ⟨_, _, rfl, ⟨by decide, by decide⟩, List.forall_mem_cons.2
    ⟨hv.unmarked, List.forall_mem_cons.2 ⟨hc.unmarked, hcs.unmarked⟩⟩⟩

lemma Grammar.count_cnf (h : Grammar ts f) : ts.count (bytesOf "cnf") = 1 := by
  obtain ⟨a, rest, rfl, ha, hrest⟩ := h.shape
  have hcnf : ¬ Unmarked (bytesOf "cnf") := fun hu => hu.1 (by decide)
  have h0 : rest.count (bytesOf "cnf") = 0 :=
    List.count_eq_zero.2 fun hmem => hcnf (hrest _ hmem)
  have hne : a ≠ bytesOf "cnf" := fun he => hcnf (he ▸ ha)
  rw [List.count_cons_of_ne hne, List.count_cons_self, h0]

lemma Grammar.eq_cnf (h : Grammar ts f) (hw : w ∈ ts) :
    w.head? ≠ some (ascii '%') ∧ (w.head? = some (ascii 'c') → w = bytesOf "cnf") := by
  obtain ⟨a, rest, rfl, ha, hrest⟩ := h.shape
  rcases List.mem_cons.1 hw with rfl | hw
  · exact ⟨ha.2, fun hc => absurd hc ha.1⟩
  rcases List.mem_cons.1 hw with rfl | hw
  · exact ⟨by decide, fun _ => rfl⟩
  · exact ⟨(hrest w hw).2, fun hc => absurd hc (hrest w hw).1⟩

end Grammar

/-- Two lines that both hold the word give it twice. -/
lemma two_le_count {α β : Type} [BEq β] [LawfulBEq β] {ls : List α} {f : α → List β} {a b : α}
    {w : β}
    (ha : a ∈ ls) (hb : b ∈ ls) (hab : a ≠ b) (hwa : w ∈ f a) (hwb : w ∈ f b) :
    2 ≤ (ls.flatMap f).count w := by
  obtain ⟨pre, post, rfl⟩ := List.append_of_mem ha
  have h1 : 0 < (f a).count w := List.count_pos_iff.2 hwa
  have h2 : 0 < (pre.flatMap f).count w + (post.flatMap f).count w := by
    rcases List.mem_append.1 hb with hb | hb
    · have : 0 < (pre.flatMap f).count w :=
        List.count_pos_iff.2 (List.mem_flatMap.2 ⟨b, hb, hwb⟩)
      omega
    · have : 0 < (post.flatMap f).count w := List.count_pos_iff.2
        (List.mem_flatMap.2 ⟨b, (List.mem_cons.1 hb).resolve_left (Ne.symm hab), hwb⟩)
      omega
  rw [List.flatMap_append, List.flatMap_cons, List.count_append, List.count_append]
  omega

lemma mem_takeWhile_of_imp {α : Type} {p q : α → Bool} (hpq : ∀ a, p a = true → q a = true)
    {a : α} : ∀ {ls : List α}, a ∈ ls.takeWhile p → a ∈ ls.takeWhile q := by
  intro ls
  induction ls with
  | nil => exact id
  | cons b ls ih =>
    intro ha
    by_cases hb : p b = true
    · rw [List.takeWhile_cons_of_pos hb] at ha
      rw [List.takeWhile_cons_of_pos (hpq b hb)]
      exact List.mem_cons.2 ((List.mem_cons.1 ha).imp_right ih)
    · rw [List.takeWhile_cons_of_neg hb] at ha
      simp at ha

/-- A text with an indented comment or trailer cannot be a formula in both readings. -/
lemma Indented.not_both {text : Text} {f g : Formula} (h : Indented text)
    (hf : Grammar (tokens text) f) : ¬ Grammar (documentedTokens text) g := by
  intro hg
  obtain ⟨line, hline, ⟨b, hb, hblank⟩, hmark⟩ := h
  have hhead : line.head? ≠ some (ascii 'c') := by
    rintro he
    rw [Option.mem_def.1 hb, Option.some.injEq] at he
    subst he
    simp [isAsciiWhitespace, ascii] at hblank
  have hlt : lineTokens line = uncommented line := if_neg hhead
  obtain ⟨w, ws, hws⟩ : ∃ w ws, words line = w :: ws := by
    cases hw : words line with
    | nil => simp [firstByte, hw] at hmark
    | cons w ws => exact ⟨w, ws, rfl⟩
  simp only [firstByte, hws, List.head?_cons, Option.bind_some, ne_eq, Option.some.injEq]
    at hmark
  have hlone : w ≠ [ascii 'c'] := by
    rintro rfl
    rcases hmark with hmark | hmark
    · exact absurd hmark (by decide)
    · exact hmark.2 rfl
  have hw : w ∈ lineTokens line := by
    rw [hlt, uncommented, hws, List.takeWhile_cons_of_pos (by simpa using hlone)]
    exact List.mem_cons_self
  have hshape := hf.eq_cnf (List.mem_flatMap.2 ⟨line, hline, hw⟩)
  rcases hmark with hmark | ⟨hmark, -⟩
  · exact hshape.1 hmark
  -- the first word is the `cnf` of the header, which the documented reading takes from a line
  -- of its own
  obtain rfl := hshape.2 hmark
  have hcnf : bytesOf "cnf" ∈ documentedTokens text := by
    rw [← List.count_pos_iff, hg.count_cnf]
    exact Nat.one_pos
  obtain ⟨line', hline', hw'⟩ := List.mem_flatMap.1 hcnf
  rw [documentedLine] at hw'
  split at hw'
  · simp at hw'
  next hfirst =>
  have hcode : lineTokens line' = uncommented line' :=
    if_neg fun he => hfirst (firstByte_eq (by decide) he)
  have hne : line ≠ line' := by
    rintro rfl
    exact hfirst (by rw [firstByte, hws]; exact hmark)
  have htwo := two_le_count (f := lineTokens) hline
    (mem_takeWhile_of_imp (fun q hq => by
      have hq : firstByte q ≠ some (ascii '%') := by simpa using hq
      simpa using mt (firstByte_eq (by decide)) hq) hline') hne hw (hcode ▸ hw')
  have hone := hf.count_cnf
  rw [tokens, linesTokens] at hone
  omega

/-! ### Printing -/

/-- The digits of a number. -/
def printNat (n : ℕ) : Text :=
  if n = 0 then [ascii '0'] else (Nat.digits 10 n).reverse.map fun d => (48 + d).toUInt8

/-- An integer with its sign. -/
def printInt (z : ℤ) : Text :=
  if z < 0 then ascii '-' :: printNat z.natAbs else printNat z.natAbs

/-- A clause on a line of its own. -/
def printClause (c : List Lit) : Text :=
  (c.flatMap fun l => printInt (toDimacs l) ++ [ascii ' ']) ++ [ascii '0', newline]

/-- A formula in DIMACS. -/
def printFormula (f : Formula) : Text :=
  bytesOf "p" ++ ascii ' ' :: (bytesOf "cnf" ++ ascii ' ' :: (printNat f.variableCount ++
    ascii ' ' :: (printNat f.clauses.length ++ newline :: f.clauses.flatMap printClause)))

section Print

variable {w text : Text} {n count : ℕ}

lemma isAsciiDigit_toUInt8 : ∀ d < 10,
    isAsciiDigit (48 + d).toUInt8 = true ∧ digitValue (48 + d).toUInt8 = d := by
  decide

lemma numeral_printNat (n : ℕ) : Numeral (printNat n) n := by
  rw [printNat]
  split
  · next h =>
    subst h
    exact ⟨by simp, by decide +kernel, by decide⟩
  · next h =>
    have hlt : ∀ d ∈ Nat.digits 10 n, d < 10 := fun d => Nat.digits_lt_base (by norm_num)
    refine ⟨by simpa [Nat.digits_eq_nil_iff_eq_zero] using h, fun b hb => ?_, ?_⟩
    · obtain ⟨d, hd, rfl⟩ := List.mem_map.1 hb
      exact (isAsciiDigit_toUInt8 d (hlt d (List.mem_reverse.1 hd))).1
    · rw [decimalValue, List.foldl_map, List.foldl_reverse]
      refine Eq.trans ?_ (Nat.ofDigits_digits 10 n)
      rw [Nat.ofDigits_eq_foldr]
      generalize Nat.digits 10 n = ds at hlt
      induction ds with
      | nil => rfl
      | cons d ds ih =>
        rw [List.foldr_cons, List.foldr_cons, ih fun e he => hlt e (List.mem_cons_of_mem _ he),
          (isAsciiDigit_toUInt8 d (hlt d List.mem_cons_self)).2]
        push_cast
        ring

lemma integerToken_printInt (z : ℤ) : IntegerToken (printInt z) z := by
  rw [printInt]
  have hn := numeral_printNat z.natAbs
  split
  · next hz =>
    have h := IntegerToken.minus hn
    rwa [show -(z.natAbs : ℤ) = z by omega] at h
  · next hz =>
    have h := IntegerToken.plain hn
    rwa [show (z.natAbs : ℤ) = z by omega] at h

lemma isAsciiWhitespace_digit {b : UInt8} (hb : isAsciiDigit b = true) :
    isAsciiWhitespace b = false := by
  by_contra h
  simp only [Bool.not_eq_false, isAsciiWhitespace, Bool.or_eq_true, decide_eq_true_eq] at h
  rcases h with (((rfl | rfl) | rfl) | rfl) | rfl <;> exact absurd hb (by decide)

lemma Numeral.visible (h : Numeral w n) : ∀ b ∈ w, isAsciiWhitespace b = false :=
  fun b hb => isAsciiWhitespace_digit (h.digit b hb)

lemma IntegerToken.visible {z : ℤ} (h : IntegerToken w z) :
    w ≠ [] ∧ ∀ b ∈ w, isAsciiWhitespace b = false := by
  rcases h with h | h | h
  · exact ⟨h.ne_nil, h.visible⟩
  · exact ⟨by simp, List.forall_mem_cons.2 ⟨by decide, h.visible⟩⟩
  · exact ⟨by simp, List.forall_mem_cons.2 ⟨by decide, h.visible⟩⟩

/-- A printed word with a blank behind it is the next token. -/
lemma follow_printed (hne : w ≠ []) (hw : ∀ b ∈ w, isAsciiWhitespace b = false)
    (hu : Unmarked w) {b : UInt8} (hb : isAsciiWhitespace b = true) (start : Bool) (text : Text) :
    follow start (w ++ b :: text) = w :: follow (decide (b = newline)) text := by
  rw [follow_word hne hw (fun c hc => by obtain rfl := Option.some.inj hc; exact hb),
    if_neg, if_neg, follow_blank hb]
  · exact fun h => hu.2 h.2
  · rintro (rfl | h)
    · exact hu.1 rfl
    · exact hu.1 h.2

/-- The tokens of a printed clause. -/
lemma follow_printClause (c : List Lit) (start : Bool) (text : Text) :
    follow start (printClause c ++ text) =
      c.map (fun l => printInt (toDimacs l)) ++ [ascii '0'] :: follow true text := by
  induction c generalizing start with
  | nil =>
    exact follow_printed (w := [ascii '0']) (b := newline) (by simp) (by decide +kernel)
      ⟨by decide, by decide⟩ rfl start text
  | cons l c ih =>
    have h := integerToken_printInt (toDimacs l)
    have happ : printClause (l :: c) ++ text =
        printInt (toDimacs l) ++ ascii ' ' :: (printClause c ++ text) := by
      simp [printClause]
    rw [happ, follow_printed h.visible.1 h.visible.2 h.unmarked (by decide), ih]
    rfl

/-- Printed clauses spell themselves. -/
lemma clauseList_printed {cs : List (List Lit)} (h : ∀ c ∈ cs, ∀ l ∈ c, l.var < count)
    (start : Bool) : ClauseList count (follow start (cs.flatMap printClause)) cs := by
  induction cs generalizing start with
  | nil =>
    rw [List.flatMap_nil, follow_nil]
    exact .nil
  | cons c cs ih =>
    obtain ⟨hc, hcs⟩ := List.forall_mem_cons.1 h
    rw [List.flatMap_cons, follow_printClause]
    clear h
    induction c with
    | nil => exact .zero (.plain ⟨by simp, by decide +kernel, by decide⟩) (ih hcs true)
    | cons l c ihc =>
      obtain ⟨hl, hc⟩ := List.forall_mem_cons.1 hc
      exact .literal (integerToken_printInt _) hl (ihc hc)

/-- A printed formula is in the grammar when its literals are in its range. -/
lemma grammar_printFormula {f : Formula} (hlim : f.variableCount ≤ maxVariables)
    (h : ∀ c ∈ f.clauses, ∀ l ∈ c, l.var < f.variableCount) :
    Grammar (tokens (printFormula f)) f := by
  have hv := numeral_printNat f.variableCount
  have hc := numeral_printNat f.clauses.length
  have hcnf : ∀ text, follow false (bytesOf "cnf" ++ ascii ' ' :: text) =
      bytesOf "cnf" :: follow false text := fun text => by
    rw [follow_word (by decide) (by decide +kernel) (by simp; decide), if_neg (by decide),
      if_neg (by simp), follow_blank (by decide)]
    rfl
  rw [← follow_true, printFormula,
    follow_printed (by decide) (by decide +kernel) ⟨by decide, by decide⟩ (by decide),
    show decide (ascii ' ' = newline) = false by decide, hcnf,
    follow_printed hv.ne_nil hv.visible hv.unmarked (by decide),
    follow_printed hc.ne_nil hc.visible hc.unmarked rfl]
  exact .intro hv hlim hc (clauseList_printed h _)

end Print

/-! ### The parser against the documentation -/

lemma ClauseList.range {count : ℕ} {ts : List Text} {cs : List (List Lit)}
    (h : ClauseList count ts cs) : ∀ c ∈ cs, ∀ l ∈ c, l.var < count := by
  induction h with
  | nil => simp
  | zero _ _ ih => exact List.forall_mem_cons.2 ⟨by simp, ih⟩
  | literal _ hl _ ih =>
    obtain ⟨hc, hcs⟩ := List.forall_mem_cons.1 ih
    exact List.forall_mem_cons.2 ⟨List.forall_mem_cons.2 ⟨hl, hc⟩, hcs⟩

lemma Grammar.range {ts : List Text} {f : Formula} (h : Grammar ts f) :
    f.variableCount ≤ maxVariables ∧ ∀ c ∈ f.clauses, ∀ l ∈ c, l.var < f.variableCount := by
  obtain ⟨-, hlim, -, hcs⟩ := h
  exact ⟨hlim, hcs.range⟩

/-- The texts on which the parser is as documented: an indented comment or trailer must not
matter, as the text is no formula whether such lines are kept or dropped, and the declared
number of clauses must fit a vector. -/
structure Conforming (text : Text) : Prop where
  indented : Indented text → ∀ f, ¬ Grammar (documentedTokens text) f ∧
    ¬ (Grammar (tokens text) f ∧ Fits f.clauses.length)
  fits : ∀ f, Grammar (documentedTokens text) f → Fits f.clauses.length

/-- A formula that DIMACS can express and a vector can hold. -/
structure Printable (f : Formula) : Prop where
  limit : f.variableCount ≤ maxVariables
  range : ∀ c ∈ f.clauses, ∀ l ∈ c, l.var < f.variableCount
  fits : Fits f.clauses.length

/-- **The parser accepts exactly the documented format on the conforming texts**, and reads a
printed formula back exactly when the formula is printable. -/
theorem parse_iff_documented (text : Text) (f : Formula) :
    ((∀ f, parse text = some (.ok f) ↔ Grammar (documentedTokens text) f) ↔ Conforming text) ∧
      (parse (printFormula f) = some (.ok f) ↔ Printable f) := by
  refine ⟨⟨fun h => ⟨fun hi f => ⟨fun hdoc => ?_, fun hcode => ?_⟩,
    fun f hdoc => (parse_eq_ok.1 ((h f).2 hdoc)).2⟩, fun h f => ?_⟩, ⟨fun h => ?_,
      fun h => parse_eq_ok.2 ⟨grammar_printFormula h.limit h.range, h.fits⟩⟩⟩
  · exact hi.not_both (parse_eq_ok.1 ((h f).2 hdoc)).1 hdoc
  · exact hi.not_both hcode.1 ((h f).1 (parse_eq_ok.2 hcode))
  · rw [parse_eq_ok]
    by_cases hi : Indented text
    · obtain ⟨hdoc, hcode⟩ := h.indented hi f
      exact ⟨fun hf => absurd hf hcode, fun hf => absurd hf hdoc⟩
    · rw [tokens_eq_documented hi]
      exact ⟨And.left, fun hf => ⟨hf, h.fits f hf⟩⟩
  · obtain ⟨hg, hfits⟩ := parse_eq_ok.1 h
    exact ⟨hg.range.1, hg.range.2, hfits⟩

/-- The comment in the second line of this text is indented. -/
def indentedComment : Text := bytesOf "p cnf 1 1\n c===\n1 0\n"

/-- The documented format drops the indented comment, and the parser rejects it. -/
theorem indentedComment_rejected :
    ¬ ∀ f, parse indentedComment = some (.ok f) ↔ Grammar (documentedTokens indentedComment) f := by
  intro h
  have hts : documentedTokens indentedComment =
      bytesOf "p" :: bytesOf "cnf" :: [ascii '1'] :: [ascii '1'] :: [[ascii '1'], [ascii '0']] := by
    decide
  have hdoc : Grammar (documentedTokens indentedComment) ⟨1, [[⟨0, true⟩]]⟩ := by
    rw [hts]
    exact .intro ⟨by simp, by decide +kernel, by decide⟩ (by decide)
      ⟨by simp, by decide +kernel, by decide⟩
      (.literal (l := ⟨0, true⟩)
        (.plain (n := 1) ⟨by simp, by decide +kernel, by decide⟩) (by decide)
        (.zero (.plain ⟨by simp, by decide +kernel, by decide⟩) .nil))
  have hcode := (parse_eq_ok.1 ((h _).2 hdoc)).1
  have hmem : bytesOf "c===" ∈ tokens indentedComment := by decide
  exact absurd ((hcode.eq_cnf hmem).2 (by decide)) (by decide)

end Satrap.Dimacs
