/-
# Recovery after a syntax error

The reader keeps the number of open lists at an error and closes them with a second scanner
before it reads on.  What the second scanner has to find is the end of the command under the
lexical structure of SMT-LIB, in which parentheses in strings, quoted symbols and comments do
not count.  `Closes` says where that end is; `firstFault` finds the first malformed atom.

The reader finds the end of the command after every error but one: an atom swallows quotes and
bars, so behind a malformed atom that leaves a string or a quoted symbol open the second
scanner starts in the wrong place.
-/
import Satrap.Smt.Rendering

namespace Satrap.Smt

/-! ### The lexical structure -/

/-- Where a byte of the input stands. -/
inductive Mode where
  | normal
  | comment
  | string
  | quoted
deriving DecidableEq

/-- The mode behind a byte.  A doubled quote in a string closes it and opens it again. -/
def Mode.step : Mode → UInt8 → Mode
  | .normal, b =>
    if b = ascii '"' then .string else if b = ascii '|' then .quoted
    else if b = ascii ';' then .comment else .normal
  | .comment, b => if b = newline then .normal else .comment
  | .string, b => if b = ascii '"' then .normal else .string
  | .quoted, b => if b = ascii '|' then .normal else .quoted

/-- The mode behind a text. -/
def Mode.run (m : Mode) (text : Text) : Mode := text.foldl Mode.step m

/-- The number of open lists behind a byte. -/
def nesting (m : Mode) (depth : ℕ) (b : UInt8) : ℕ :=
  if m = .normal ∧ b = ascii '(' then depth + 1
  else if m = .normal ∧ b = ascii ')' then depth - 1
  else depth

/-- The text closes the open lists, the last of them with its last byte. -/
def Closes : Mode → ℕ → Text → Prop
  | _, depth, [] => depth = 0
  | m, depth, b :: rest => 0 < depth ∧ Closes (m.step b) (nesting m depth b) rest

instance decidableCloses : ∀ (m : Mode) (depth : ℕ) (text : Text), Decidable (Closes m depth text)
  | _, depth, [] => inferInstanceAs (Decidable (depth = 0))
  | m, depth, b :: rest =>
    have := decidableCloses (m.step b) (nesting m depth b) rest
    inferInstanceAs (Decidable (0 < depth ∧ _))

/-- A command: a list that is closed by the last byte of the text. -/
def Command (text : Text) : Prop :=
  ∃ rest, text = ascii '(' :: rest ∧ Closes .normal 1 rest

/-! ### The first malformed atom -/

/-- The bytes of a string literal and the number of bytes up to its end; the first argument
says whether a quote has just been passed. -/
def readString : Bool → Text → Option (Text × ℕ)
  | true, [] => some ([], 0)
  | true, b :: rest =>
    if b = ascii '"' then (readString false rest).map fun p => (b :: p.1, p.2 + 1)
    else some ([], 0)
  | false, [] => none
  | false, b :: rest =>
    if b = ascii '"' then (readString true rest).map fun p => (p.1, p.2 + 1)
    else if isPrintableOrWhitespace b then
      (readString false rest).map fun p => (b :: p.1, p.2 + 1)
    else none

/-- The bytes of a quoted symbol and the number of bytes up to its end. -/
def readQuoted : Text → Option (Text × ℕ)
  | [] => none
  | b :: rest =>
    if b = ascii '|' then some ([], 1)
    else if b = ascii '\\' then none
    else if isPrintableOrWhitespace b then (readQuoted rest).map fun p => (b :: p.1, p.2 + 1)
    else none

/-- The text behind the comment it starts in. -/
def behindComment : Text → Text
  | [] => []
  | b :: rest => if b = newline then rest else behindComment rest

lemma behindComment_length : ∀ text : Text, (behindComment text).length ≤ text.length := by
  intro text
  induction text with
  | nil => exact le_rfl
  | cons b text ih =>
    rw [behindComment]
    split
    · exact Nat.le_succ _
    · exact ih.trans (Nat.le_succ _)

/-- The first malformed token of a text inside so many lists, if it is an atom: the atom, the
number of lists it stands in, and the text behind it. -/
def firstFault (depth : ℕ) : Text → Option (Text × ℕ × Text)
  | [] => none
  | b :: rest =>
    have := behindComment_length rest
    if isWhitespace b then firstFault depth rest
    else if b = ascii ';' then firstFault depth (behindComment rest)
    else if b = ascii ')' then firstFault (depth - 1) rest
    else if Reader.maxNesting < depth then none
    else if b = ascii '(' then firstFault (depth + 1) rest
    else if b = ascii '"' then
      match readString false rest with
      | some (bytes, n) => if isUtf8 bytes then firstFault depth (rest.drop n) else none
      | none => none
    else if b = ascii '|' then
      match readQuoted rest with
      | some (bytes, n) => if isUtf8 bytes then firstFault depth (rest.drop n) else none
      | none => none
    else
      let atom := b :: rest.takeWhile fun c => !endsAtom c
      let post := rest.drop (rest.takeWhile fun c => !endsAtom c).length
      if isUtf8 atom && (atomKind atom).isSome then firstFault depth post
      else some (atom, depth, post)
termination_by text => text.length
decreasing_by all_goals simp only [List.length_cons, List.length_drop]; omega

/-! ### Texts that close the open lists -/

section Closes

variable {mode : Mode} {depth : ℕ} {b : UInt8} {text rest tail : Text}

lemma Closes.ne_nil (h : Closes mode depth text) (hd : 0 < depth) : text ≠ [] := by
  rintro rfl
  exact absurd h hd.ne'

lemma nesting_of_ne (hm : mode ≠ .normal) : nesting mode depth b = depth := by
  rw [nesting, if_neg fun h => hm h.1, if_neg fun h => hm h.1]

/-- Behind a comment the text is outside again. -/
lemma Closes.behindComment (hd : 0 < depth) : ∀ {text : Text}, Closes .comment depth text →
    Closes .normal depth (behindComment text) ∧
      ∀ tail, Smt.behindComment (text ++ tail) = Smt.behindComment text ++ tail := by
  intro text
  induction text with
  | nil => exact fun h => absurd h hd.ne'
  | cons b text ih =>
    intro h
    have hc := h.2
    rw [nesting_of_ne (by simp), Mode.step] at hc
    by_cases hb : b = newline
    · rw [if_pos hb] at hc
      simp only [Smt.behindComment, hb, if_true, List.cons_append]
      exact ⟨hc, fun _ => trivial⟩
    · rw [if_neg hb] at hc
      obtain ⟨h1, h2⟩ := ih hc
      simp only [Smt.behindComment, hb, if_false, List.cons_append]
      exact ⟨h1, h2⟩

end Closes

section Atoms

variable {mode : Mode} {depth : ℕ} {b : UInt8} {text tail : Text} {kind : AtomKind}

/-! ### Atoms -/

/-- No byte of the text opens a string or a quoted symbol. -/
def Unquoted (text : Text) : Prop := ∀ b ∈ text, b ≠ ascii '"' ∧ b ≠ ascii '|'

lemma unquoted_append {text' : Text} : Unquoted (text ++ text') ↔ Unquoted text ∧ Unquoted text' := by
  simp only [Unquoted, List.mem_append, or_imp, forall_and]
  tauto

lemma unquoted_of_digits (h : text.all isAsciiDigit = true) : Unquoted text := by
  intro b hb
  have hd := List.all_eq_true.1 h b hb
  constructor <;> rintro rfl <;> exact absurd hd (by decide)

lemma unquoted_of_isNumeral (h : isNumeral text = true) : Unquoted text := by
  rw [isNumeral, Bool.or_eq_true, Bool.and_eq_true, decide_eq_true_iff] at h
  rcases h with rfl | ⟨-, h⟩
  · exact unquoted_of_digits (by decide)
  · exact unquoted_of_digits h

lemma unquoted_of_isDecimal (h : isDecimal text = true) : Unquoted text := by
  rw [isDecimal] at h
  split at h
  · simp at h
  next integer fractional hsplit =>
  simp only [Bool.and_eq_true] at h
  have happ : text = integer ++ ascii '.' :: fractional := by
    have htd := List.takeWhile_append_dropWhile (p := fun b => decide (b ≠ ascii '.')) (l := text)
    rw [splitDot] at hsplit
    split at hsplit
    · simp at hsplit
    · next c rest hdrop =>
      obtain ⟨rfl, rfl⟩ := Prod.mk.inj (Option.some.inj hsplit)
      have hdot := List.head?_dropWhile_not (fun b => decide (b ≠ ascii '.')) text
      rw [hdrop] at hdot htd
      have hdot : c = ascii '.' := by simpa using hdot
      exact htd.symm.trans (by rw [hdot])
  rw [happ, unquoted_append]
  refine ⟨unquoted_of_isNumeral h.1.2, List.forall_mem_cons.2 ⟨by decide, ?_⟩⟩
  exact unquoted_of_digits h.2

lemma unquoted_of_symbol (h : text.all isSymbolByte = true) : Unquoted text := fun b hb =>
  have hs := isSymbolByte_spec b (List.all_eq_true.1 h b hb)
  ⟨hs.2.2.1, hs.1.2.1⟩

lemma unquoted_of_behind {second : Char} {p : UInt8 → Bool} (hsecond : Unquoted [ascii second])
    (hp : ∀ b, p b = true → b ≠ ascii '"' ∧ b ≠ ascii '|')
    (h : (digitsBehind '#' second text).any (fun digits => !digits.isEmpty && digits.all p) = true) :
    Unquoted text := by
  match text, h with
  | a :: b :: digits, h =>
    rw [digitsBehind] at h
    split at h
    · next hab =>
      simp only [Option.any_some, Bool.and_eq_true] at h
      refine List.forall_mem_cons.2 ⟨by rw [hab.1]; decide, List.forall_mem_cons.2 ⟨?_, ?_⟩⟩
      · rw [hab.2]
        exact hsecond _ List.mem_cons_self
      · exact fun c hc => hp c (List.all_eq_true.1 h.2 c hc)
    · simp at h

/-- A well-formed atom holds no quote and no bar. -/
lemma unquoted_of_atomKind (h : atomKind text = some kind) : Unquoted text := by
  rw [atomKind] at h
  split_ifs at h with h1 h2 h3 h4 h5 h6 h7 h8
  · exact unquoted_of_isNumeral h1
  · exact unquoted_of_isDecimal h2
  · refine unquoted_of_behind (by simp [Unquoted]; decide) (fun b hb => ?_) h3
    constructor <;> rintro rfl <;> exact absurd hb (by decide)
  · refine unquoted_of_behind (by simp [Unquoted]; decide) (fun b hb => ?_) h4
    constructor <;> rintro rfl <;> exact absurd hb (by decide)
  · cases text with
    | nil => simp at h5
    | cons b text =>
      simp only [List.tail_cons, Bool.or_eq_true, Bool.not_eq_true', not_or,
        Bool.not_eq_false] at h6
      refine List.forall_mem_cons.2 ⟨?_, unquoted_of_symbol h6.2⟩
      rw [Option.some.inj h5]
      decide
  · have hwords : (reservedWords.all fun w => w.all fun b =>
        b != ascii '"' && b != ascii '|') = true := by decide +kernel
    intro b hb
    have hb := List.all_eq_true.1 (List.all_eq_true.1 hwords text (of_decide_eq_true h7)) b hb
    exact (Bool.and_eq_true_iff.1 hb).imp bne_iff_ne.1 bne_iff_ne.1
  · exact unquoted_of_symbol (List.all_eq_true.2 (all_of_isSimpleSymbol h8))

/-- Inside lists the text holds the parenthesis that closes the last of them. -/
lemma Closes.mem : ∀ {text : Text} {mode : Mode} {depth : ℕ}, Closes mode depth text →
    0 < depth → ascii ')' ∈ text := by
  intro text
  induction text with
  | nil => exact fun h hd => absurd h hd.ne'
  | cons b text ih =>
    intro mode depth h hd
    by_cases hb : b = ascii ')'
    · exact hb ▸ List.mem_cons_self
    · refine List.mem_cons_of_mem _ (ih h.2 ?_)
      rw [nesting]
      split_ifs with h1 h2
      · exact Nat.succ_pos _
      · exact absurd h2.2 hb
      · exact hd

/-- An atom inside lists ends inside the command. -/
lemma Closes.takeWhile_append (h : Closes mode depth text) (hd : 0 < depth) (tail : Text) :
    (text ++ tail).takeWhile (fun b => !endsAtom b) = text.takeWhile fun b => !endsAtom b := by
  have hmem := h.mem hd
  clear h
  induction text with
  | nil => simp at hmem
  | cons b text ih =>
    by_cases hb : endsAtom b = true
    · simp [hb]
    · have hne : ascii ')' ≠ b := by
        rintro rfl
        exact hb (by decide)
      simp [hb, ih ((List.mem_cons.1 hmem).resolve_left hne)]

/-- Bytes that are no parentheses leave the lists open. -/
lemma Closes.run : ∀ {text post : Text} {mode : Mode}, (∀ b ∈ text, endsAtom b = false) →
    Closes mode depth (text ++ post) → Closes (mode.run text) depth post := by
  intro text
  induction text with
  | nil => exact fun _ h => h
  | cons b text ih =>
    intro post mode hall h
    obtain ⟨hb, hall⟩ := List.forall_mem_cons.1 hall
    simp only [endsAtom, Bool.or_eq_false_iff, decide_eq_false_iff_not] at hb
    have hn : nesting mode depth b = depth := by
      rw [nesting, if_neg fun h => hb.1.1.2 h.2, if_neg fun h => hb.1.2 h.2]
    have hrest := h.2
    rw [hn] at hrest
    exact ih hall hrest

lemma run_normal : ∀ {text : Text}, (∀ b ∈ text, endsAtom b = false) → Unquoted text →
    Mode.normal.run text = .normal := by
  intro text
  induction text with
  | nil => exact fun _ _ => rfl
  | cons b text ih =>
    intro hall hu
    obtain ⟨hb, hall⟩ := List.forall_mem_cons.1 hall
    obtain ⟨⟨h1, h2⟩, hu⟩ := List.forall_mem_cons.1 hu
    simp only [endsAtom, Bool.or_eq_false_iff, decide_eq_false_iff_not] at hb
    have hstep : Mode.normal.step b = .normal := by simp [Mode.step, h1, h2, hb.2]
    show Mode.run (Mode.normal.step b) text = .normal
    rw [hstep]
    exact ih hall hu

end Atoms

/-! ### Places in the input -/

namespace Reader

variable {r r₁ r' : Reader} {b : UInt8} {text tail rest : Text} {n m : ℕ}

/-- Where the reader is in the input. -/
def place (r : Reader) : Text × ℕ × ℕ := (r.rest, r.line, r.column)

lemma bump_place (h : r.place = r'.place) : r.bump.place = r'.bump.place := by
  obtain ⟨text, line, column, lists, recovery⟩ := r
  obtain ⟨text', line', column', lists', recovery'⟩ := r'
  simp only [place, Prod.mk.injEq] at h
  obtain ⟨rfl, rfl, rfl⟩ := h
  cases text <;> rfl

lemma bumps_place : ∀ (n : ℕ) {r r' : Reader}, r.place = r'.place →
    (bumps n r).place = (bumps n r').place := by
  intro n
  induction n with
  | zero => exact fun h => h
  | succ n ih => exact fun h => ih (bump_place h)

lemma bumps_add : ∀ (n : ℕ) (r : Reader), bumps (n + m) r = bumps m (bumps n r) := by
  intro n
  induction n with
  | zero => exact fun r => by rw [Nat.zero_add]; rfl
  | succ n ih => exact fun r => by rw [Nat.succ_add]; exact ih r.bump

lemma bumps_rest : ∀ (n : ℕ) (r : Reader), (bumps n r).rest = r.rest.drop n := by
  intro n
  induction n with
  | zero => exact fun r => rfl
  | succ n ih =>
    intro r
    rw [bumps, ih]
    cases hr : r.rest with
    | nil => simp [bump, hr]
    | cons b rest => simp [bump, hr]

/-- The second reader is behind the first, in the same input. -/
def Moves (r r' : Reader) : Prop := ∃ n ≤ r.rest.length, r'.place = (bumps n r).place

lemma Moves.refl (r : Reader) : Moves r r := ⟨0, Nat.zero_le _, rfl⟩

lemma Moves.of_place (h : Moves r r₁) (he : r'.place = r₁.place) : Moves r r' := by
  obtain ⟨n, hn, hp⟩ := h
  exact ⟨n, hn, he.trans hp⟩

lemma Moves.trans (h : Moves r r₁) (h' : Moves r₁ r') : Moves r r' := by
  obtain ⟨n, hn, hp⟩ := h
  obtain ⟨m, hm, hp'⟩ := h'
  have hrest : r₁.rest = r.rest.drop n := by
    rw [← bumps_rest]
    exact congrArg Prod.fst hp
  rw [hrest, List.length_drop] at hm
  exact ⟨n + m, by omega, by rw [hp', bumps_place m hp, bumps_add]⟩

lemma Moves.length_le (h : Moves r r') : r'.rest.length ≤ r.rest.length := by
  obtain ⟨n, -, hp⟩ := h
  have hrest : r'.rest = r.rest.drop n := by
    rw [← bumps_rest]
    exact congrArg Prod.fst hp
  rw [hrest, List.length_drop]
  exact Nat.sub_le _ _

lemma moves_bump (h : r.rest = b :: rest) : Moves r r.bump := ⟨1, by simp [h], rfl⟩

lemma moves_bumps (hn : n ≤ r.rest.length) : Moves r (bumps n r) := ⟨n, hn, rfl⟩

/-- Two readers behind the same one with the same bytes left are at the same place. -/
lemma Moves.place_eq (h : Moves r r₁) (h' : Moves r r') (he : r₁.rest = r'.rest) :
    r₁.place = r'.place := by
  obtain ⟨n, hn, hp⟩ := h
  obtain ⟨m, hm, hp'⟩ := h'
  have h1 : r₁.rest = r.rest.drop n := by
    rw [← bumps_rest]
    exact congrArg Prod.fst hp
  have h2 : r'.rest = r.rest.drop m := by
    rw [← bumps_rest]
    exact congrArg Prod.fst hp'
  have hlen := congrArg List.length (h1.symm.trans (he.trans h2))
  simp only [List.length_drop] at hlen
  have hnm : n = m := by omega
  rw [hp, hp', hnm]

/-- The reader has moved up to `text`, with as many lists open as before and no recovery. -/
structure Passed (r r' : Reader) (text : Text) : Prop where
  moves : Moves r r'
  rest : r'.rest = text
  openLists : r'.openLists = r.openLists
  recovery : r'.recovery = r.recovery

lemma Passed.refl (hr : r.rest = text) : Passed r r text := ⟨.refl r, hr, rfl, rfl⟩

lemma Passed.trans {text' : Text} (h : Passed r r₁ text) (h' : Passed r₁ r' text') :
    Passed r r' text' :=
  ⟨h.moves.trans h'.moves, h'.rest, h'.openLists.trans h.openLists,
    h'.recovery.trans h.recovery⟩

lemma passed_bump (h : r.rest = b :: rest) : Passed r r.bump rest :=
  ⟨moves_bump h, (reached_bump h).rest, (reached_bump h).openLists, (reached_bump h).recovery⟩

lemma passed_bumps (text : Text) (h : r.rest = text ++ tail) :
    Passed r (bumps text.length r) tail := by
  have hreach := reached_bumps text r h
  exact ⟨moves_bumps (by simp [h]), hreach.rest, hreach.openLists, hreach.recovery⟩

/-! ### Tokens inside a command -/

variable {mode : Mode} {depth : ℕ} {bytes : Text} {kind : AtomKind}

/-- What a method that reads a token comes to: the reader is behind the token, with an error
only if its bytes are no UTF-8, or it has stopped with a recovery in the given mode. -/
inductive Ended (r : Reader) (depth : ℕ) (tail : Text) (mode : Mode) (recovery : Recovery)
    (kind : AtomKind) : Option (Text × Text) → Except ReadError SExpr × Reader → Prop
  | ok {bytes post : Text} {r' : Reader} (utf8 : isUtf8 bytes = true)
    (closes : Closes .normal depth post) (passed : Passed r r' (post ++ tail)) :
    Ended r depth tail mode recovery kind (some (bytes, post)) (.ok (.atom ⟨bytes, kind⟩), r')
  | invalid {bytes post : Text} {r' : Reader} {e : ReadError} (utf8 : isUtf8 bytes = false)
    (closes : Closes .normal depth post) (passed : Passed r r' (post ++ tail)) :
    Ended r depth tail mode recovery kind (some (bytes, post)) (.error e, r')
  | stopped {post : Text} {r' : Reader} {e : ReadError} (closes : Closes mode depth post)
    (passed : Passed r { r' with recovery := none } (post ++ tail))
    (pending : r'.recovery = some recovery) :
    Ended r depth tail mode recovery kind none (.error e, r')

section Ended

variable {recovery : Recovery} {message : Text} {end' : Option (Text × Text)}
  {result : Except ReadError SExpr × Reader}

lemma ended_finish (hc : Closes .normal depth text) (hr : r.rest = text ++ tail) :
    Ended r depth tail mode recovery kind (some (bytes, text)) (r.finish bytes kind message) := by
  rw [finish]
  split
  · next hu => exact .ok hu hc (.refl hr)
  · next hu => exact .invalid (by simpa using hu) hc (.refl hr)

lemma ended_fail (hrec : r.recovery = none) (hc : Closes mode depth text)
    (hr : r.rest = text ++ tail) :
    Ended r depth tail mode recovery kind none (r.fail recovery message) :=
  .stopped hc ⟨.refl r, hr, rfl, hrec.symm⟩ rfl

lemma Ended.of_passed (hp : Passed r r₁ text)
    (h : Ended r₁ depth tail mode recovery kind end' result) :
    Ended r depth tail mode recovery kind end' result := by
  cases h with
  | ok hu hc h => exact .ok hu hc (hp.trans h)
  | invalid hu hc h => exact .invalid hu hc (hp.trans h)
  | stopped hc h hpend => exact .stopped hc (hp.trans h) hpend

end Ended

/-- A string ends where `readString` finds its end. -/
lemma stringLoop_ended (hd : 0 < depth) : ∀ (text bytes : Text) (quote : Bool) (r : Reader),
    r.recovery = none → r.rest = text ++ tail →
    Closes (if quote then .normal else .string) depth text →
    Ended r depth tail .string .string .string
      ((readString quote text).map fun p => (bytes ++ p.1, text.drop p.2))
      (stringLoop quote (text ++ tail) bytes r) := by
  intro text
  induction text with
  | nil => exact fun _ _ _ _ _ hc => absurd hc hd.ne'
  | cons b text ih =>
    intro bytes quote r hrec hr hc
    have hb : Passed r r.bump (text ++ tail) := passed_bump hr
    have hrec' : r.bump.recovery = none := hb.recovery.trans hrec
    cases quote with
    | true =>
      rw [List.cons_append, stringLoop, readString]
      by_cases hq : b = ascii '"'
      · have hc' : Closes .string depth text := by
          have := hc.2
          rwa [hq] at this
        have h := (ih (bytes ++ [b]) false r.bump hrec' hb.rest hc').of_passed hb
        rw [if_pos hq, if_pos hq, Option.map_map]
        simpa [Function.comp_def] using h
      · rw [if_neg hq, if_neg hq]
        rw [Option.map_some, List.append_nil, List.drop_zero]
        exact ended_finish hc hr
    | false =>
      have hc' := hc.2
      rw [nesting_of_ne (by simp), if_neg (by simp), Mode.step] at hc'
      rw [List.cons_append, stringLoop, readString]
      by_cases hq : b = ascii '"'
      · rw [if_pos hq] at hc'
        have h := (ih bytes true r.bump hrec' hb.rest hc').of_passed hb
        rw [if_pos hq, if_pos hq, Option.map_map]
        simpa [Function.comp_def] using h
      · rw [if_neg hq] at hc' ⊢
        rw [if_neg hq]
        by_cases hp : isPrintableOrWhitespace b = true
        · have h := (ih (bytes ++ [b]) false r.bump hrec' hb.rest hc').of_passed hb
          rw [if_pos hp, if_pos hp, Option.map_map]
          simpa [Function.comp_def] using h
        · rw [if_neg hp, if_neg hp]
          exact (ended_fail hrec' hc' hb.rest).of_passed hb

/-- A quoted symbol ends where `readQuoted` finds its end. -/
lemma quotedLoop_ended (hd : 0 < depth) : ∀ (text bytes : Text) (r : Reader),
    r.recovery = none → r.rest = text ++ tail → Closes .quoted depth text →
    Ended r depth tail .quoted .quotedSymbol .symbol
      ((readQuoted text).map fun p => (bytes ++ p.1, text.drop p.2))
      (quotedLoop (text ++ tail) bytes r) := by
  intro text
  induction text with
  | nil => exact fun _ _ _ _ hc => absurd hc hd.ne'
  | cons b text ih =>
    intro bytes r hrec hr hc
    have hb : Passed r r.bump (text ++ tail) := passed_bump hr
    have hrec' : r.bump.recovery = none := hb.recovery.trans hrec
    have hc' := hc.2
    rw [nesting_of_ne (by simp), Mode.step] at hc'
    rw [List.cons_append, quotedLoop, readQuoted]
    by_cases hbar : b = ascii '|'
    · rw [if_pos hbar] at hc' ⊢
      rw [if_pos hbar]
      simpa using (ended_finish hc' hb.rest).of_passed hb
    · rw [if_neg hbar] at hc' ⊢
      rw [if_neg hbar]
      by_cases hslash : b = ascii '\\'
      · rw [if_pos hslash, if_pos hslash]
        exact (ended_fail hrec' hc' hb.rest).of_passed hb
      · rw [if_neg hslash, if_neg hslash]
        by_cases hp : isPrintableOrWhitespace b = true
        · have h := (ih (bytes ++ [b]) r.bump hrec' hb.rest hc').of_passed hb
          rw [if_pos hp, if_pos hp, Option.map_map]
          simpa [Function.comp_def] using h
        · rw [if_neg hp, if_neg hp]
          exact (ended_fail hrec' hc' hb.rest).of_passed hb

/-! ### Blanks and comments -/

lemma step_blank (hb : isWhitespace b = true) (depth : ℕ) :
    Mode.normal.step b = .normal ∧ nesting .normal depth b = depth := by
  have hne : ∀ c, isWhitespace c = false → b ≠ c := by
    rintro c hc rfl
    rw [hb] at hc
    simp at hc
  simp [Mode.step, nesting, hne (ascii '"') rfl, hne (ascii '|') rfl, hne (ascii ';') rfl,
    hne (ascii '(') rfl, hne (ascii ')') rfl]

lemma firstFault_blank (hb : isWhitespace b = true) :
    firstFault depth (b :: rest) = firstFault depth rest := by
  rw [firstFault, if_pos hb]

lemma firstFault_comment : firstFault depth (ascii ';' :: rest) =
    firstFault depth (behindComment rest) := by
  rw [firstFault, if_neg (by decide), if_pos rfl]

/-- Blanks and comments are skipped up to a byte of the command. -/
lemma triviaLoop_passed (hd : 0 < depth) : ∀ (text : Text) (comment : Bool) (r : Reader),
    r.rest = text ++ tail → Closes (if comment then .comment else .normal) depth text →
    ∃ b rest, Passed r (triviaLoop comment (text ++ tail) r) (b :: rest ++ tail) ∧
      Closes .normal depth (b :: rest) ∧ isWhitespace b = false ∧ b ≠ ascii ';' ∧
      firstFault depth (if comment then behindComment text else text) =
        firstFault depth (b :: rest) := by
  intro text
  induction text with
  | nil => exact fun _ _ _ hc => absurd hc hd.ne'
  | cons b text ih =>
    intro comment r hr hc
    have hb : Passed r r.bump (text ++ tail) := passed_bump hr
    cases comment with
    | true =>
      have hc' := hc.2
      rw [nesting_of_ne (by simp), if_pos rfl, Mode.step] at hc'
      rw [if_pos rfl, List.cons_append, triviaLoop, behindComment]
      by_cases hn : b = newline
      · rw [if_pos hn] at hc'
        obtain ⟨c, rest, hp, h⟩ := ih false r.bump hb.rest hc'
        rw [if_pos hn]
        exact ⟨c, rest, by simpa [hn] using hb.trans hp, h⟩
      · rw [if_neg hn] at hc'
        obtain ⟨c, rest, hp, h⟩ := ih true r.bump hb.rest hc'
        rw [if_neg hn]
        exact ⟨c, rest, by simpa [hn] using hb.trans hp, h⟩
    | false =>
      have hc' := hc.2
      rw [if_neg (by simp)] at hc hc' ⊢
      rw [List.cons_append, triviaLoop]
      by_cases hw : isWhitespace b = true
      · obtain ⟨hstep, hn⟩ := step_blank hw depth
        rw [hstep, hn] at hc'
        obtain ⟨c, rest, hp, h⟩ := ih false r.bump hb.rest hc'
        rw [if_pos hw, firstFault_blank hw]
        exact ⟨c, rest, hb.trans hp, h⟩
      · rw [if_neg hw]
        by_cases hs : b = ascii ';'
        · subst hs
          obtain ⟨c, rest, hp, h⟩ := ih true r.bump hb.rest hc'
          rw [if_pos rfl, firstFault_comment]
          exact ⟨c, rest, hb.trans hp, h⟩
        · rw [if_neg hs]
          exact ⟨b, text, .refl hr, hc, by simpa using hw, hs, rfl⟩

/-! ### Errors inside a command -/

/-- The mode in which a recovery goes on. -/
def modeOf : Option Recovery → Mode
  | some .string => .string
  | some .quotedSymbol => .quoted
  | _ => .normal

/-- An error inside a command, before `next` has set a recovery: the reader knows the mode it
has stopped in, or it is behind the first malformed atom. -/
inductive Failed (r : Reader) (tail : Text) : Option (Text × ℕ × Text) → Reader → Prop
  | known {body : Text} {r' : Reader} (moves : Moves r r') (rest : r'.rest = body ++ tail)
    (lists : 0 < r'.openLists) (recovery : r'.recovery ≠ some .unexpectedClose)
    (closes : Closes (modeOf r'.recovery) r'.openLists body) : Failed r tail none r'
  | atom {text post : Text} {r' : Reader} (moves : Moves r r') (rest : r'.rest = post ++ tail)
    (lists : 0 < r'.openLists) (recovery : r'.recovery = none)
    (closes : Closes (Mode.normal.run text) r'.openLists post) :
    Failed r tail (some (text, r'.openLists, post)) r'

lemma Failed.of_moves {fault : Option (Text × ℕ × Text)} (hm : Moves r r₁)
    (h : Failed r₁ tail fault r') : Failed r tail fault r' := by
  cases h with
  | known hmoves hrest hlists hrec hc => exact .known (hm.trans hmoves) hrest hlists hrec hc
  | atom hmoves hrest hlists hrec hc => exact .atom (hm.trans hmoves) hrest hlists hrec hc

/-- What a call of `parse_expr` inside a command comes to. -/
def ExprSpec (r : Reader) (depth : ℕ) (body tail : Text) :
    Except ReadError SExpr × Reader → Prop
  | (.ok _, r') => ∃ post, Passed r r' (post ++ tail) ∧ post.length < body.length ∧
      Closes .normal depth post ∧ firstFault depth body = firstFault depth post
  | (.error _, r') => Failed r tail (firstFault depth body) r'

/-- What the loop over the items of a list comes to. -/
def ItemsSpec (r : Reader) (depth : ℕ) (body tail : Text) :
    Except ReadError SExpr × Reader → Prop
  | (.ok _, r') => ∃ post, Moves r r' ∧ r'.rest = post ++ tail ∧ r'.openLists = depth ∧
      r'.recovery = none ∧ post.length < body.length ∧ Closes .normal depth post ∧
      firstFault (depth + 1) body = firstFault depth post
  | (.error _, r') => Failed r tail (firstFault (depth + 1) body) r'

section Token

variable {recovery : Recovery} {result : Except ReadError SExpr × Reader}

/-- A string or a quoted symbol inside a command. -/
lemma Ended.exprSpec {read : Option (Text × ℕ)} (hd : 0 < depth) (hlists : r.openLists = depth)
    (hrec : r.recovery = none) (hr : r.rest = b :: rest ++ tail)
    (hmode : modeOf (some recovery) = mode) (hclose : recovery ≠ .unexpectedClose)
    (hfault : firstFault depth (b :: rest) =
      match read with
      | some (bytes, n) => if isUtf8 bytes then firstFault depth (rest.drop n) else none
      | none => none)
    (h : Ended r.bump depth tail mode recovery kind
      (read.map fun p => ([] ++ p.1, rest.drop p.2)) result) :
    ExprSpec r depth (b :: rest) tail result := by
  have hb : Passed r r.bump (rest ++ tail) := passed_bump hr
  generalize hend : (read.map fun p => ([] ++ p.1, rest.drop p.2)) = ends at h
  cases h with
  | ok hu hc hp =>
    cases read with
    | none => simp at hend
    | some p =>
      obtain ⟨bytes, n⟩ := p
      simp only [Option.map_some, List.nil_append, Option.some.injEq, Prod.mk.injEq] at hend
      obtain ⟨rfl, rfl⟩ := hend
      simp only [hu, if_true] at hfault
      exact ⟨_, hb.trans hp, by simp only [List.length_drop, List.length_cons]; omega, hc, hfault⟩
  | invalid hu hc hp =>
    cases read with
    | none => simp at hend
    | some p =>
      obtain ⟨bytes, n⟩ := p
      simp only [Option.map_some, List.nil_append, Option.some.injEq, Prod.mk.injEq] at hend
      obtain ⟨rfl, rfl⟩ := hend
      simp only [hu, Bool.false_eq_true, if_false] at hfault
      have hall := hb.trans hp
      have hl := hall.openLists.trans hlists
      have hn := hall.recovery.trans hrec
      show Failed r tail _ _
      rw [hfault]
      exact .known hall.moves hall.rest (hl ▸ hd) (by rw [hn]; simp) (by rw [hn, hl]; exact hc)
  | stopped hc hp hpend =>
    cases read with
    | some p => simp at hend
    | none =>
      have hall := hb.trans hp
      have hl := hall.openLists.trans hlists
      show Failed r tail _ _
      rw [hfault]
      exact .known (hall.moves.of_place rfl) hall.rest (hl ▸ hd)
        (by rw [hpend]; simpa using hclose) (by
          have hl' : _ = depth := hl
          rw [hpend, hmode, hl']
          exact hc)

/-- An atom inside a command. -/
lemma parseAtom_spec (hd : 0 < depth) (hlists : r.openLists = depth) (hrec : r.recovery = none)
    (hr : r.rest = b :: rest ++ tail) (hc : Closes .normal depth (b :: rest))
    (hends : endsAtom b = false) (hquote : b ≠ ascii '"') (hbar : b ≠ ascii '|')
    (hdepth : depth ≤ maxNesting) :
    ExprSpec r depth (b :: rest) tail r.parseAtom := by
  set text := b :: rest.takeWhile fun c => !endsAtom c with htext
  set post := rest.drop (rest.takeWhile fun c => !endsAtom c).length with hpost
  have hatom : r.atomText = text := by
    rw [atomText, hr, hc.takeWhile_append hd, List.takeWhile_cons_of_pos (by simp [hends])]
  have hsplit : b :: rest = text ++ post := by
    have h := List.takeWhile_append_dropWhile (p := fun c => !endsAtom c) (l := rest)
    have hdrop : (rest.takeWhile (fun c => !endsAtom c) ++ rest.dropWhile fun c => !endsAtom c).drop
        (rest.takeWhile fun c => !endsAtom c).length = rest.dropWhile fun c => !endsAtom c :=
      List.drop_left
    rw [h] at hdrop
    rw [htext, hpost, hdrop, List.cons_append, h]
  have hall : ∀ c ∈ text, endsAtom c = false := by
    refine List.forall_mem_cons.2 ⟨hends, fun c hc => ?_⟩
    simpa using List.mem_takeWhile_imp hc
  have hfault : firstFault depth (b :: rest) =
      if isUtf8 text && (atomKind text).isSome then firstFault depth post
      else some (text, depth, post) := by
    have hws : isWhitespace b = false := (startsExpr_of_not_endsAtom hends).1
    have hsemi := (startsExpr_of_not_endsAtom hends).2
    have hopen : b ≠ ascii '(' := by
      rintro rfl
      exact absurd hends (by decide)
    rw [firstFault]
    simp only [hws, hsemi.1, hsemi.2, not_lt.2 hdepth, hopen, hquote, hbar, Bool.false_eq_true,
      if_false]
    rfl
  have hpassed : Passed r (bumps text.length r) (post ++ tail) := by
    refine passed_bumps text ?_
    rw [hr, hsplit, List.append_assoc]
  have hclose : Closes (Mode.normal.run text) depth post := (hsplit ▸ hc).run hall
  have hfail : isUtf8 text = false ∨ atomKind text = none → ∀ e,
      ExprSpec r depth (b :: rest) tail (.error e, bumps text.length r) := by
    intro hbad e
    have hl := hpassed.openLists.trans hlists
    have hif : firstFault depth (b :: rest) = some (text, (bumps text.length r).openLists, post) := by
      rw [hfault, hl, if_neg]
      rcases hbad with h | h <;> simp [h]
    show Failed r tail _ _
    rw [hif]
    exact .atom hpassed.moves hpassed.rest (hl ▸ hd) (hpassed.recovery.trans hrec)
      (hl.symm ▸ hclose)
  rw [parseAtom, hatom, if_neg (by simp [htext])]
  by_cases hu : isUtf8 text = true
  · rw [if_neg (by simp [hu])]
    cases hk : atomKind text with
    | none =>
      dsimp only
      split
      · exact hfail (.inr hk) _
      · exact hfail (.inr hk) _
    | some kind =>
      refine ⟨post, hpassed, ?_, ?_, by rw [hfault, if_pos (by simp [hu, hk])]⟩
      · rw [hsplit, List.length_append, htext, List.length_cons]
        omega
      · rwa [run_normal hall (unquoted_of_atomKind hk)] at hclose
  · rw [if_pos (by simpa using hu)]
    exact hfail (.inl (by simpa using hu)) _

end Token

/-- **Where the reader stops inside a command.** -/
lemma parse_spec (tail : Text) (fuel : ℕ) :
    (∀ depth r b rest, 0 < depth → r.openLists = depth → r.recovery = none →
      r.rest = b :: rest ++ tail → Closes .normal depth (b :: rest) → StartsExpr b →
      2 * r.rest.length < fuel → ExprSpec r depth (b :: rest) tail (parseExpr fuel depth r)) ∧
    ∀ depth items r body, r.openLists = depth + 1 → r.recovery = none →
      r.rest = body ++ tail → Closes .normal (depth + 1) body → 2 * r.rest.length + 1 < fuel →
      ItemsSpec r depth body tail (parseItems fuel depth items r) := by
  induction fuel with
  | zero =>
    exact ⟨fun _ _ _ _ _ _ _ _ _ _ h => absurd h (Nat.not_lt_zero _),
      fun _ _ _ _ _ _ _ _ h => absurd h (Nat.not_lt_zero _)⟩
  | succ fuel ih =>
    obtain ⟨ihe, ihi⟩ := ih
    constructor
    · intro depth r b rest hd hlists hrec hr hc ⟨hws, hsemi, hclose⟩ hfuel
      rw [parseExpr]
      by_cases hdepth : maxNesting < depth
      · have hfault : firstFault depth (b :: rest) = none := by
          rw [firstFault]
          simp [hws, hsemi, hclose, hdepth]
        rw [if_pos hdepth]
        show Failed r tail _ _
        rw [hfault]
        exact .known (.refl r) hr (hlists ▸ hd) (by simp [hrec]) (by rw [hrec, hlists]; exact hc)
      rw [if_neg hdepth]
      simp only [hr, List.cons_append]
      have hb : Passed r r.bump (rest ++ tail) := passed_bump hr
      by_cases hopen : b = ascii '('
      · subst hopen
        have hmoves : Moves r r.openList := (moves_bump hr).of_place rfl
        have hspec := ihi depth [] r.openList rest (by simp [openList, hlists])
          ((show r.openList.recovery = r.bump.recovery from rfl).trans (hb.recovery.trans hrec))
          hb.rest hc.2 (by
            have hl := congrArg List.length (show r.openList.rest = rest ++ tail from hb.rest)
            have hl' := congrArg List.length hr
            simp only [List.length_append, List.length_cons] at hl hl'
            omega)
        have hfault : firstFault depth (ascii '(' :: rest) = firstFault (depth + 1) rest := by
          rw [firstFault, if_neg (by decide), if_neg (by decide), if_neg (by decide),
            if_neg hdepth, if_pos rfl]
        rw [if_pos rfl]
        revert hspec
        generalize parseItems fuel depth [] r.openList = result
        obtain ⟨e | e, r₁⟩ := result
        · intro hspec
          show Failed r tail _ _
          rw [hfault]
          exact Failed.of_moves hmoves hspec
        · rintro ⟨post, hm, hrest, hl, hn, hlt, hcl, hf⟩
          exact ⟨post, ⟨hmoves.trans hm, hrest, hl.trans hlists.symm, hn.trans hrec.symm⟩,
            hlt.trans (Nat.lt_succ_self _), hcl, hfault.trans hf⟩
      rw [if_neg hopen, if_neg hclose]
      by_cases hquote : b = ascii '"'
      · subst hquote
        rw [if_pos rfl]
        have hend := stringLoop_ended hd rest [] false r.bump (hb.recovery.trans hrec) hb.rest hc.2
        rw [← hb.rest] at hend
        refine (show ExprSpec r depth _ tail (stringLoop false r.bump.rest [] r.bump) from
          hend.exprSpec hd hlists hrec hr (show modeOf (some .string) = .string from rfl)
            (show Recovery.string ≠ .unexpectedClose by simp) ?_)
        rw [firstFault, if_neg (by simp [hws]), if_neg hsemi, if_neg hclose, if_neg hdepth,
          if_neg hopen, if_pos rfl]
      rw [if_neg hquote]
      by_cases hbar : b = ascii '|'
      · subst hbar
        rw [if_pos rfl]
        have hend := quotedLoop_ended hd rest [] r.bump (hb.recovery.trans hrec) hb.rest hc.2
        rw [← hb.rest] at hend
        refine (show ExprSpec r depth _ tail (quotedLoop r.bump.rest [] r.bump) from
          hend.exprSpec hd hlists hrec hr (show modeOf (some .quotedSymbol) = .quoted from rfl)
            (show Recovery.quotedSymbol ≠ .unexpectedClose by simp) ?_)
        rw [firstFault, if_neg (by simp [hws]), if_neg hsemi, if_neg hclose, if_neg hdepth,
          if_neg hopen, if_neg hquote, if_pos rfl]
      rw [if_neg hbar]
      refine parseAtom_spec hd hlists hrec hr hc ?_ hquote hbar (not_lt.1 hdepth)
      simp [endsAtom, hws, hsemi, hclose, hopen]
    · intro depth items r body hlists hrec hr hc hfuel
      obtain ⟨b, rest, hp, hc, hws, hsemi, hfault⟩ :=
        triviaLoop_passed (Nat.succ_pos _) body false r hr hc
      rw [← hr] at hp
      have hp : Passed r r.skipTrivia (b :: rest ++ tail) := hp
      have hfault : firstFault (depth + 1) body = firstFault (depth + 1) (b :: rest) := hfault
      have hlen : r.skipTrivia.rest.length ≤ r.rest.length := hp.moves.length_le
      rw [parseItems]
      simp only [hp.rest, List.cons_append]
      by_cases hclose : b = ascii ')'
      · subst hclose
        have hcl := hc.2
        have hf : firstFault (depth + 1) (ascii ')' :: rest) = firstFault depth rest := by
          rw [firstFault, if_neg (by decide), if_neg (by decide), if_pos rfl]
          rfl
        have hb := passed_bump hp.rest
        rw [if_pos rfl]
        refine ⟨rest, (hp.moves.trans hb.moves).of_place rfl, hb.rest, ?_, ?_, ?_, hcl,
          hfault.trans hf⟩
        · show r.skipTrivia.openLists - 1 = depth
          rw [hp.openLists, hlists]
          rfl
        · exact hb.recovery.trans (hp.recovery.trans hrec)
        · have hl := congrArg List.length hp.rest
          have hl' := congrArg List.length hr
          simp only [List.length_append, List.length_cons] at hl hl'
          omega
      · rw [if_neg hclose]
        have hspec := ihe (depth + 1) r.skipTrivia b rest (Nat.succ_pos _)
          (hp.openLists.trans hlists) (hp.recovery.trans hrec) hp.rest hc ⟨hws, hsemi, hclose⟩
          (by omega)
        revert hspec
        generalize parseExpr fuel (depth + 1) r.skipTrivia = result
        obtain ⟨e | e, r₁⟩ := result
        · intro hspec
          show Failed r tail _ _
          rw [hfault]
          exact Failed.of_moves hp.moves hspec
        · rintro ⟨post, hpost, hlt, hcl, hf⟩
          have hall := hp.trans hpost
          have hlen' := hpost.moves.length_le
          have hl := congrArg List.length hp.rest
          have hl' := congrArg List.length hr
          have hl₁ := congrArg List.length hpost.rest
          simp only [List.length_append, List.length_cons] at hl hl' hl₁ hlt
          have hspec := ihi depth (items ++ [e]) r₁ post (hall.openLists.trans hlists)
            (hall.recovery.trans hrec) hall.rest hcl (by omega)
          dsimp only
          revert hspec
          generalize parseItems fuel depth (items ++ [e]) r₁ = result
          obtain ⟨e | e, r₂⟩ := result
          · intro hspec
            show Failed r tail _ _
            rw [hfault, hf]
            exact Failed.of_moves hall.moves hspec
          · rintro ⟨post', hm, hrest, hlists', hn, hlt', hcl', hf'⟩
            exact ⟨post', hall.moves.trans hm, hrest, hlists', hn, by omega, hcl',
              hfault.trans (hf.trans hf')⟩

end Reader

end Satrap.Smt
