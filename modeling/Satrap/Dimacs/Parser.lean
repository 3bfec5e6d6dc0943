/-
# The DIMACS parser

`parse` and what it calls, and the grammar it is to accept: a `p cnf` header followed by the
declared number of clauses, each a list of integer literals ended by a zero.  The parser
accepts a text exactly when its tokens are in the grammar and the declared number of clauses
fits a vector.
-/
import Satrap.Dimacs.Lexer
import Satrap.Solver.State
import Mathlib.Data.Nat.Digits.Defs

namespace Satrap.Dimacs

/-- `Formula`. -/
structure Formula where
  variableCount : ℕ
  clauses : List (List Lit)
deriving DecidableEq

/-- `ParseError`. -/
structure ParseError where
  line : ℕ
  column : ℕ
  message : String
deriving DecidableEq

/-- `ParseError::at`. -/
def ParseError.atToken (t : Token) (message : String) : ParseError := ⟨t.line, t.column, message⟩

/-- `ParseError::eof`. -/
def ParseError.eof (l : Lexer) (message : String) : ParseError := ⟨l.line, l.column, message⟩

/-! ### Numbers -/

/-- The value of a digit. -/
def digitValue (b : UInt8) : ℕ := b.toNat - 48

/-- One more digit, unless it overflows a `u64`. -/
def pushDigit (value : ℕ) (b : UInt8) : Option ℕ :=
  if !isAsciiDigit b then none
  else if value * 10 < 2 ^ 64 ∧ value * 10 + digitValue b < 2 ^ 64 then
    some (value * 10 + digitValue b)
  else none

/-- `parse_u64`. -/
def parseU64 (bytes : Text) : Option ℕ :=
  if bytes.isEmpty then none else bytes.foldlM pushDigit 0

/-- `parse_usize`, where a `usize` is a `u64`. -/
def parseUsize (t : Token) (description : String) : Except ParseError ℕ :=
  match parseU64 t.bytes with
  | some value => .ok value
  | none => .error (.atToken t ("invalid nonnegative " ++ description))

/-- The sign of a token and the digits behind it. -/
def splitSign : Text → Bool × Text
  | [] => (false, [])
  | b :: rest =>
    if b = ascii '-' then (true, rest) else if b = ascii '+' then (false, rest)
    else (false, b :: rest)

/-- `parse_i64`. -/
def parseI64 (t : Token) : Except ParseError ℤ :=
  let (negative, digits) := splitSign t.bytes
  match parseU64 digits with
  | none => .error (.atToken t "expected an integer literal or `0`")
  | some magnitude =>
    if negative && decide (magnitude = 2 ^ 63) then .ok (-2 ^ 63)
    else if 2 ^ 63 ≤ magnitude then .error (.atToken t "integer literal is out of range")
    else .ok (if negative then -magnitude else magnitude)

/-- `Lit::from_dimacs`. -/
def fromDimacs (value : ℤ) : Option Lit :=
  if value = 0 ∨ maxVariables < value.natAbs then none
  else some ⟨value.natAbs - 1, decide (0 < value)⟩

/-- `Lit::to_dimacs`. -/
def toDimacs (l : Lit) : ℤ := if l.positive then l.var + 1 else -(l.var + 1)

/-! ### The parser -/

/-- `next_required`. -/
def nextRequired (l : Lexer) (message : String) : Except ParseError (Token × Lexer) :=
  match l.nextToken with
  | (some t, l) => .ok (t, l)
  | (none, l) => .error (.eof l message)

/-- `expect_token`. -/
def expectToken (t : Token) (expected : Text) (message : String) : Except ParseError Unit :=
  if t.bytes = expected then .ok () else .error (.atToken t message)

/-- The header: the number of variables, the declared number of clauses, and the lexer behind
it. -/
def parseHeader (l : Lexer) : Except ParseError (ℕ × ℕ × Lexer) := do
  let (problem, l) ← nextRequired l "expected `p cnf` header"
  expectToken problem (bytesOf "p") "expected `p cnf` header"
  let (format, l) ← nextRequired l "expected `cnf` after `p`"
  expectToken format (bytesOf "cnf") "expected `cnf` after `p`"
  let (variablesToken, l) ← nextRequired l "expected variable count"
  let variableCount ← parseUsize variablesToken "variable count"
  if maxVariables < variableCount then
    .error (.atToken variablesToken "variable count exceeds the solver's packed-literal limit")
  else
    let (clausesToken, l) ← nextRequired l "expected clause count"
    let expectedClauses ← parseUsize clausesToken "clause count"
    .ok (variableCount, expectedClauses, l)

/-- The loop of `parse` with the two checks after it.  The first argument bounds the number of
tokens. -/
def readClauses (variableCount expected : ℕ) :
    ℕ → Lexer → List (List Lit) → List Lit → Except ParseError Formula
  | 0, l, _, _ => .error (.eof l "")
  | fuel + 1, l, clauses, clause =>
    match l.nextToken with
    | (none, l) =>
      if !clause.isEmpty then
        .error (.eof l "last clause is missing its terminating `0`")
      else if clauses.length ≠ expected then
        let found := clauses.length
        .error (.eof l s!"header declares {expected} clauses, but input contains {found}")
      else .ok ⟨variableCount, clauses⟩
    | (some t, l) =>
      match parseI64 t with
      | .error e => .error e
      | .ok value =>
        if value = 0 then
          if expected < clauses.length + 1 then
            .error (.atToken t s!"found more than the declared {expected} clauses")
          else readClauses variableCount expected fuel l (clauses ++ [clause]) []
        else if variableCount < value.natAbs then
          .error (.atToken t
            s!"literal {value} exceeds the declared variable range 1..={variableCount}")
        else
          match fromDimacs value with
          | none => .error (.atToken t "literal exceeds the packed-literal range")
          | some literal =>
            readClauses variableCount expected fuel l clauses (clause ++ [literal])

/-- A vector of so many clauses, of 24 bytes each, can be asked for. -/
def Fits (count : ℕ) : Prop := 24 * count < 2 ^ 63

instance (count : ℕ) : Decidable (Fits count) := inferInstanceAs (Decidable (_ < _))

/-- `parse`; `none` where `Vec::with_capacity` panics. -/
def parse (input : Text) : Option (Except ParseError Formula) :=
  match parseHeader (Lexer.new input) with
  | .error e => some (.error e)
  | .ok (variableCount, expected, l) =>
    if Fits expected then some (readClauses variableCount expected (l.rest.length + 1) l [] [])
    else none

/-! ### The grammar -/

/-- The number a sequence of digits stands for. -/
def decimalValue (bytes : Text) : ℕ := bytes.foldl (fun value b => value * 10 + digitValue b) 0

/-- An unsigned number. -/
structure Numeral (bytes : Text) (n : ℕ) : Prop where
  ne_nil : bytes ≠ []
  digit : ∀ b ∈ bytes, isAsciiDigit b = true
  value : decimalValue bytes = n

/-- An integer with an optional sign. -/
inductive IntegerToken : Text → ℤ → Prop
  | plain {bytes : Text} {n : ℕ} (h : Numeral bytes n) : IntegerToken bytes n
  | plus {bytes : Text} {n : ℕ} (h : Numeral bytes n) : IntegerToken (ascii '+' :: bytes) n
  | minus {bytes : Text} {n : ℕ} (h : Numeral bytes n) : IntegerToken (ascii '-' :: bytes) (-n)

/-- The clauses that a list of tokens spells, over so many variables. -/
inductive ClauseList (variableCount : ℕ) : List Text → List (List Lit) → Prop
  | nil : ClauseList variableCount [] []
  | zero {w : Text} {ts : List Text} {cs : List (List Lit)} (h : IntegerToken w 0)
      (rest : ClauseList variableCount ts cs) : ClauseList variableCount (w :: ts) ([] :: cs)
  | literal {w : Text} {ts : List Text} {l : Lit} {c : List Lit} {cs : List (List Lit)}
      (h : IntegerToken w (toDimacs l)) (hl : l.var < variableCount)
      (rest : ClauseList variableCount ts (c :: cs)) :
      ClauseList variableCount (w :: ts) ((l :: c) :: cs)

/-- The tokens are a `p cnf` header and the clauses it declares. -/
inductive Grammar : List Text → Formula → Prop
  | intro {v c : Text} {ts : List Text} {f : Formula} (bound : Numeral v f.variableCount)
      (limit : f.variableCount ≤ maxVariables) (count : Numeral c f.clauses.length)
      (clauses : ClauseList f.variableCount ts f.clauses) :
      Grammar (bytesOf "p" :: bytesOf "cnf" :: v :: c :: ts) f

/-! ### Reading numbers -/

variable {w : Text} {n : ℕ} {z : ℤ}

lemma le_foldl_digits : ∀ (bytes : Text) (acc : ℕ),
    acc ≤ bytes.foldl (fun value b => value * 10 + digitValue b) acc := by
  intro bytes
  induction bytes with
  | nil => exact fun acc => le_rfl
  | cons b bytes ih =>
    intro acc
    refine le_trans ?_ (ih (acc * 10 + digitValue b))
    omega

lemma foldlM_pushDigit : ∀ (bytes : Text) (acc n : ℕ), acc < 2 ^ 64 →
    (bytes.foldlM pushDigit acc = some n ↔ (∀ b ∈ bytes, isAsciiDigit b = true) ∧
      bytes.foldl (fun value b => value * 10 + digitValue b) acc = n ∧ n < 2 ^ 64) := by
  intro bytes
  induction bytes with
  | nil =>
    intro acc n hacc
    simp only [List.foldlM_nil, Option.pure_def, Option.some.injEq, List.not_mem_nil,
      false_imp_iff, implies_true, List.foldl_nil, true_and]
    exact ⟨fun h => ⟨h, h ▸ hacc⟩, And.left⟩
  | cons b bytes ih =>
    intro acc n hacc
    have hle := le_foldl_digits bytes (acc * 10 + digitValue b)
    rw [List.foldlM_cons, pushDigit, List.foldl_cons]
    by_cases hb : isAsciiDigit b = true
    · rw [if_neg (by simp [hb])]
      split
      · next hlt =>
        rw [Option.bind_eq_bind, Option.bind_some, ih _ n hlt.2]
        simp [hb]
      · next hlt =>
        simp only [Option.bind_eq_bind, Option.bind_none, reduceCtorEq, false_iff]
        rintro ⟨-, rfl, hn⟩
        exact hlt ⟨by omega, by omega⟩
    · rw [if_pos (by simpa using hb)]
      simp [hb]

/-- A `u64` is read from its digits. -/
lemma parseU64_eq_some : parseU64 w = some n ↔ Numeral w n ∧ n < 2 ^ 64 := by
  rw [parseU64]
  by_cases hw : w = []
  · subst hw
    simp only [List.isEmpty_nil, if_true, reduceCtorEq, false_iff]
    exact fun h => h.1.ne_nil rfl
  · rw [if_neg (by simpa using hw), foldlM_pushDigit w 0 n (by norm_num)]
    exact ⟨fun ⟨hd, hv, hn⟩ => ⟨⟨hw, hd, hv⟩, hn⟩, fun ⟨h, hn⟩ => ⟨h.digit, h.value, hn⟩⟩

lemma Numeral.head {b : UInt8} {bytes : Text} (h : Numeral (b :: bytes) n) :
    b ≠ ascii '+' ∧ b ≠ ascii '-' := by
  have hb := h.digit b (by simp)
  constructor <;> rintro rfl <;> exact absurd hb (by decide)

/-- An integer is a number behind the sign. -/
lemma integerToken_iff : IntegerToken w z ↔
    ∃ n, Numeral (splitSign w).2 n ∧ z = if (splitSign w).1 then -(n : ℤ) else n := by
  constructor
  · rintro (h | h | h)
    · cases w with
      | nil => exact absurd rfl h.ne_nil
      | cons b bytes => exact ⟨_, by simpa [splitSign, h.head] using h, by simp [splitSign, h.head]⟩
    · exact ⟨_, by simpa [splitSign, ascii] using h, by simp [splitSign, ascii]⟩
    · exact ⟨_, by simpa [splitSign] using h, by simp [splitSign]⟩
  · rintro ⟨n, hn, rfl⟩
    cases w with
    | nil => exact absurd rfl hn.ne_nil
    | cons b bytes =>
      by_cases h1 : b = ascii '-'
      · subst h1
        exact .minus hn
      · by_cases h2 : b = ascii '+'
        · subst h2
          exact .plus hn
        · simp only [splitSign, h1, h2, if_false, Bool.false_eq_true] at hn ⊢
          exact .plain hn

lemma IntegerToken.inj {z' : ℤ} (h : IntegerToken w z) (h' : IntegerToken w z') : z = z' := by
  obtain ⟨n, hn, rfl⟩ := integerToken_iff.1 h
  obtain ⟨n', hn', rfl⟩ := integerToken_iff.1 h'
  rw [← hn.value, ← hn'.value]

/-- An `i64` is read from its sign and digits. -/
lemma parseI64_eq_ok {t : Token} :
    parseI64 t = .ok z ↔ IntegerToken t.bytes z ∧ -2 ^ 63 ≤ z ∧ z < 2 ^ 63 := by
  rw [integerToken_iff, parseI64]
  cases hparse : parseU64 (splitSign t.bytes).2 with
  | none =>
    simp only [hparse, reduceCtorEq, false_iff]
    rintro ⟨⟨n, hn, rfl⟩, h1, h2⟩
    have : parseU64 (splitSign t.bytes).2 = some n := by
      refine parseU64_eq_some.2 ⟨hn, ?_⟩
      split_ifs at h1 h2 <;> omega
    rw [hparse] at this
    simp at this
  | some magnitude =>
    obtain ⟨hn, -⟩ := parseU64_eq_some.1 hparse
    have huniq : ∀ n, Numeral (splitSign t.bytes).2 n ↔ n = magnitude := fun n =>
      ⟨fun h => by rw [← h.value, ← hn.value], fun h => h ▸ hn⟩
    simp only [hparse, huniq, exists_eq_left]
    cases (splitSign t.bytes).1 with
    | true =>
      simp only [Bool.true_and, decide_eq_true_eq, if_true]
      split_ifs with h1 h2
      · simp only [Except.ok.injEq]
        omega
      · simp only [false_iff]
        omega
      · simp only [Except.ok.injEq]
        omega
    | false =>
      simp only [Bool.false_and, Bool.false_eq_true, if_false]
      split_ifs with h2
      · simp only [false_iff]
        omega
      · simp only [Except.ok.injEq]
        omega

/-! ### Literals -/

variable {l : Lit}

lemma toDimacs_ne_zero (l : Lit) : toDimacs l ≠ 0 := by
  rw [toDimacs]
  split_ifs <;> omega

lemma natAbs_toDimacs (l : Lit) : (toDimacs l).natAbs = l.var + 1 := by
  rw [toDimacs]
  split_ifs <;> omega

lemma toDimacs_injective : Function.Injective toDimacs := by
  rintro ⟨v, b⟩ ⟨v', b'⟩ h
  simp only [toDimacs] at h
  cases b <;> cases b' <;> simp at h ⊢ <;> omega

lemma fromDimacs_eq_some : fromDimacs z = some l ↔ z = toDimacs l ∧ l.var < maxVariables := by
  constructor
  · intro h
    rw [fromDimacs] at h
    split_ifs at h with hz
    obtain rfl := Option.some.inj h
    rw [not_or] at hz
    refine ⟨?_, ?_⟩
    · by_cases hpos : 0 < z
      · simp only [toDimacs, hpos, decide_true, if_true]
        omega
      · simp only [toDimacs, hpos, decide_false, Bool.false_eq_true, if_false]
        omega
    · show z.natAbs - 1 < maxVariables
      omega
  · rintro ⟨rfl, hl⟩
    have habs := natAbs_toDimacs l
    rw [fromDimacs, if_neg (by simp only [toDimacs_ne_zero, false_or]; omega), habs]
    have hsign : decide (0 < toDimacs l) = l.positive := by
      rw [toDimacs]
      cases l.positive <;> simp
    rw [hsign]
    rfl

lemma toDimacs_bounds (hl : l.var < maxVariables) :
    -2 ^ 63 ≤ toDimacs l ∧ toDimacs l < 2 ^ 63 := by
  rw [maxVariables] at hl
  rw [toDimacs]
  split_ifs <;> omega

/-! ### The loop -/

/-- The call for a token delivers the first of the tokens to come. -/
lemma Lexer.nextToken_spec {l : Lexer} (h : l.Ok) :
    (l.nextToken.1 = none → l.follow = []) ∧
      ∀ t, l.nextToken.1 = some t → l.follow = t.bytes :: l.nextToken.2.follow ∧
        l.nextToken.2.Ok ∧ l.nextToken.2.rest.length < l.rest.length :=
  nextLoop_spec _ l h (Nat.lt_succ_self _)

section Clauses

variable {count : ℕ} {ts : List Text} {cs cs' : List (List Lit)} {clause : List Lit}

lemma clauseList_nil : ClauseList count [] cs ↔ cs = [] :=
  ⟨fun h => by cases h; rfl, fun h => h ▸ .nil⟩

lemma clauseList_cons : ClauseList count (w :: ts) cs ↔
    (IntegerToken w 0 ∧ ∃ rest, cs = [] :: rest ∧ ClauseList count ts rest) ∨
      ∃ l c rest, cs = (l :: c) :: rest ∧ IntegerToken w (toDimacs l) ∧ l.var < count ∧
        ClauseList count ts (c :: rest) := by
  constructor
  · rintro (_ | ⟨h, hrest⟩ | ⟨h, hl, hrest⟩)
    · exact .inl ⟨h, _, rfl, hrest⟩
    · exact .inr ⟨_, _, _, rfl, h, hl, hrest⟩
  · rintro (⟨h, rest, rfl, hrest⟩ | ⟨l, c, rest, rfl, h, hl, hrest⟩)
    · exact .zero h hrest
    · exact .literal h hl hrest

/-- The clauses to come with the literals already read put in front of the first. -/
def Continues (clause : List Lit) (cs cs' : List (List Lit)) : Prop :=
  (clause = [] ∧ cs = [] ∧ cs' = []) ∨ ∃ c rest, cs = c :: rest ∧ cs' = (clause ++ c) :: rest

lemma continues_nil : Continues [] cs cs' ↔ cs = cs' := by
  constructor
  · rintro (⟨-, rfl, rfl⟩ | ⟨c, rest, rfl, rfl⟩) <;> rfl
  · rintro rfl
    cases cs with
    | nil => exact .inl ⟨rfl, rfl, rfl⟩
    | cons c rest => exact .inr ⟨c, rest, rfl, rfl⟩

lemma continues_end : Continues clause [] cs' ↔ clause = [] ∧ cs' = [] := by
  constructor
  · rintro (⟨h, -, h'⟩ | ⟨c, rest, h, -⟩)
    · exact ⟨h, h'⟩
    · simp at h
  · exact fun ⟨h, h'⟩ => .inl ⟨h, rfl, h'⟩

lemma continues_cons {c : List Lit} :
    Continues clause (c :: cs) cs' ↔ cs' = (clause ++ c) :: cs := by
  constructor
  · rintro (⟨-, h, -⟩ | ⟨c, rest, h, h'⟩)
    · simp at h
    · obtain ⟨rfl, rfl⟩ := List.cons.inj h
      exact h'
  · exact fun h => .inr ⟨c, cs, rfl, h⟩

/-- A token that is no `i64` starts no list of clauses. -/
lemma clauseList_of_error (hcount : count ≤ maxVariables) {t : Token} {e : ParseError}
    (he : parseI64 t = .error e) : ¬ ClauseList count (t.bytes :: ts) cs := by
  have hbad : ∀ z, -2 ^ 63 ≤ z → z < 2 ^ 63 → ¬ IntegerToken t.bytes z := by
    intro z h1 h2 hz
    rw [parseI64_eq_ok.2 ⟨hz, h1, h2⟩] at he
    simp at he
  rw [clauseList_cons]
  rintro (⟨h, -⟩ | ⟨l, c, rest, -, h, hl, -⟩)
  · exact hbad 0 (by norm_num) (by norm_num) h
  · obtain ⟨h1, h2⟩ := toDimacs_bounds (hl.trans_le hcount)
    exact hbad _ h1 h2 h

/-- A zero ends a clause. -/
lemma clauseList_zero (hw : IntegerToken w 0) :
    ClauseList count (w :: ts) cs ↔ ∃ rest, cs = [] :: rest ∧ ClauseList count ts rest := by
  rw [clauseList_cons]
  refine ⟨fun h => ?_, fun h => .inl ⟨hw, h⟩⟩
  rcases h with ⟨-, h⟩ | ⟨l, c, rest, -, h, -⟩
  · exact h
  · exact absurd (h.inj hw) (toDimacs_ne_zero l)

/-- Any other number is a literal of the clause. -/
lemma clauseList_literal {literal : Lit} (hw : IntegerToken w (toDimacs literal)) :
    ClauseList count (w :: ts) cs ↔ literal.var < count ∧
      ∃ c rest, cs = (literal :: c) :: rest ∧ ClauseList count ts (c :: rest) := by
  rw [clauseList_cons]
  constructor
  · rintro (⟨h, -⟩ | ⟨l, c, rest, hcs, h, hl, hrest⟩)
    · exact absurd (hw.inj h) (toDimacs_ne_zero literal)
    · obtain rfl := toDimacs_injective (h.inj hw)
      exact ⟨hl, c, rest, hcs, hrest⟩
  · rintro ⟨hl, c, rest, hcs, hrest⟩
    exact .inr ⟨literal, c, rest, hcs, hw, hl, hrest⟩

/-- The loop succeeds on the tokens that spell the declared number of clauses. -/
lemma readClauses_eq_ok {expected : ℕ} (hcount : count ≤ maxVariables) {f : Formula} :
    ∀ (fuel : ℕ) (l : Lexer) (clauses : List (List Lit)) (clause : List Lit), l.Ok →
      l.rest.length < fuel →
      (readClauses count expected fuel l clauses clause = .ok f ↔
        f.variableCount = count ∧ f.clauses.length = expected ∧
          ∃ cs cs', ClauseList count l.follow cs ∧ Continues clause cs cs' ∧
            f.clauses = clauses ++ cs') := by
  intro fuel
  induction fuel with
  | zero => exact fun l _ _ _ h => absurd h (Nat.not_lt_zero _)
  | succ fuel ih =>
    intro l clauses clause hok hfuel
    obtain ⟨hnone, hsome⟩ := Lexer.nextToken_spec hok
    rw [readClauses]
    split
    · next l' he =>
      rw [he] at hnone
      simp only [hnone rfl, clauseList_nil]
      have hend : (∃ cs cs' : List (List Lit), cs = [] ∧ Continues clause cs cs' ∧
          f.clauses = clauses ++ cs') ↔ clause = [] ∧ f.clauses = clauses := by
        constructor
        · rintro ⟨-, cs', rfl, hcs, hf⟩
          obtain ⟨hclause, rfl⟩ := continues_end.1 hcs
          exact ⟨hclause, by rw [hf, List.append_nil]⟩
        · exact fun ⟨h, hf⟩ =>
            ⟨[], [], rfl, continues_end.2 ⟨h, rfl⟩, by rw [hf, List.append_nil]⟩
      rw [hend]
      split
      · next hne =>
        have hne : clause ≠ [] := by simpa using hne
        simp [hne]
      · next hnil =>
        have hnil : clause = [] := by simpa using hnil
        split
        · next hlen =>
          simp only [reduceCtorEq, false_iff]
          rintro ⟨-, hf, -, hc⟩
          exact hlen (hc ▸ hf)
        · next hlen =>
          have hlen : clauses.length = expected := by simpa using hlen
          simp only [Except.ok.injEq]
          constructor
          · rintro rfl
            exact ⟨rfl, hlen, hnil, rfl⟩
          · rintro ⟨hv, -, -, hc⟩
            obtain ⟨v, cs⟩ := f
            simp_all
    · next t l' he =>
      rw [he] at hsome
      obtain ⟨hfollow, hok', hlen⟩ := hsome t rfl
      rw [hfollow]
      have hlen' : l'.rest.length < fuel := by
        have : l'.rest.length < l.rest.length := hlen
        omega
      split
      · next e hvalue =>
        simp only [reduceCtorEq, false_iff]
        rintro ⟨-, -, cs, cs', hcs, -⟩
        exact clauseList_of_error hcount hvalue hcs
      next value hvalue =>
      obtain ⟨htoken, -⟩ := parseI64_eq_ok.1 hvalue
      split
      · next hzero =>
        subst hzero
        simp only [clauseList_zero htoken]
        split
        · next hmore =>
          simp only [reduceCtorEq, false_iff]
          rintro ⟨-, hf, cs, cs', ⟨rest, rfl, -⟩, hcs, hc⟩
          rw [continues_cons.1 hcs] at hc
          rw [hc, List.length_append, List.length_cons] at hf
          omega
        · rw [ih l' _ _ hok' hlen']
          refine and_congr_right fun _ => and_congr_right fun _ => ⟨?_, ?_⟩
          · rintro ⟨cs, cs', hcs, hcont, hf⟩
            obtain rfl := continues_nil.1 hcont
            exact ⟨_, _, ⟨cs, rfl, hcs⟩, continues_cons.2 rfl, by simp [hf]⟩
          · rintro ⟨cs, cs', ⟨rest, rfl, hrest⟩, hcont, hf⟩
            rw [continues_cons.1 hcont] at hf
            exact ⟨rest, rest, hrest, continues_nil.2 rfl, by simp [hf]⟩
      · next hzero =>
        split
        · next hbig =>
          simp only [reduceCtorEq, false_iff]
          rintro ⟨-, -, cs, cs', hcs, -⟩
          rcases clauseList_cons.1 hcs with ⟨h, -⟩ | ⟨q, c, rest, -, h, hq, -⟩
          · exact hzero (htoken.inj h)
          · obtain rfl := htoken.inj h
            rw [natAbs_toDimacs] at hbig
            omega
        · next hbig =>
          have hlit : fromDimacs value = some ⟨value.natAbs - 1, decide (0 < value)⟩ := by
            rw [fromDimacs, if_neg]
            omega
          simp only [hlit]
          generalize (⟨value.natAbs - 1, decide (0 < value)⟩ : Lit) = literal at hlit
          obtain ⟨rfl, -⟩ := fromDimacs_eq_some.1 hlit
          rw [natAbs_toDimacs] at hbig
          rw [ih l' _ _ hok' hlen']
          simp only [clauseList_literal htoken]
          refine and_congr_right fun _ => and_congr_right fun _ => ⟨?_, ?_⟩
          · rintro ⟨cs, cs', hcs, hcont, hf⟩
            obtain ⟨h, -, -⟩ | ⟨c, rest, rfl, rfl⟩ := hcont
            · simp at h
            · exact ⟨_, _, ⟨by omega, c, rest, rfl, hcs⟩, continues_cons.2 rfl, by simp [hf]⟩
          · rintro ⟨cs, cs', ⟨-, c, rest, rfl, hrest⟩, hcont, hf⟩
            rw [continues_cons.1 hcont] at hf
            exact ⟨_, _, hrest, continues_cons.2 rfl, by simp [hf]⟩

end Clauses

/-! ### The header and the whole text -/

section Parse

variable {l l' : Lexer} {t : Token} {ts : List Text} {message : String}

lemma nextRequired_ok (h : l.Ok) (he : nextRequired l message = .ok (t, l')) :
    l.follow = t.bytes :: l'.follow ∧ l'.Ok := by
  obtain ⟨-, hsome⟩ := Lexer.nextToken_spec h
  rw [nextRequired] at he
  split at he
  · next u k hu =>
    rw [hu] at hsome
    obtain ⟨rfl, rfl⟩ := Prod.mk.inj (Except.ok.inj he)
    obtain ⟨h1, h2, -⟩ := hsome u rfl
    exact ⟨h1, h2⟩
  · simp at he

lemma nextRequired_of_follow (h : l.Ok) (hf : l.follow = w :: ts) (message : String) :
    ∃ t l', nextRequired l message = .ok (t, l') ∧ t.bytes = w ∧ l'.Ok ∧ l'.follow = ts := by
  obtain ⟨hnone, hsome⟩ := Lexer.nextToken_spec h
  rw [nextRequired]
  cases hnext : l.nextToken with
  | mk r k =>
    rw [hnext] at hnone hsome
    cases r with
    | none =>
      rw [hnone rfl] at hf
      simp at hf
    | some t =>
      obtain ⟨h1, h2, -⟩ := hsome t rfl
      rw [hf, List.cons.injEq] at h1
      exact ⟨t, k, rfl, h1.1.symm, h2, h1.2.symm⟩

lemma parseUsize_eq_ok {description : String} :
    parseUsize t description = .ok n ↔ Numeral t.bytes n ∧ n < 2 ^ 64 := by
  rw [← parseU64_eq_some, parseUsize]
  cases parseU64 t.bytes <;> simp

lemma expectToken_eq_ok {expected : Text} :
    expectToken t expected message = .ok () ↔ t.bytes = expected := by
  rw [expectToken]
  split <;> simp_all

lemma bind_eq_ok {ε α β : Type} {x : Except ε α} {f : α → Except ε β} {b : β} :
    x >>= f = .ok b ↔ ∃ a, x = .ok a ∧ f a = .ok b := by
  cases x <;> simp [bind, Except.bind]

/-- What is read as a header is one. -/
lemma parseHeader_ok (h : l.Ok) {count expected : ℕ}
    (he : parseHeader l = .ok (count, expected, l')) :
    l'.Ok ∧ count ≤ maxVariables ∧ ∃ v c,
      l.follow = bytesOf "p" :: bytesOf "cnf" :: v :: c :: l'.follow ∧ Numeral v count ∧
        Numeral c expected := by
  simp only [parseHeader, bind_eq_ok] at he
  obtain ⟨⟨problem, l₁⟩, h1, ⟨⟩, h2, ⟨format, l₂⟩, h3, ⟨⟩, h4, ⟨v, l₃⟩, h5, n, h6, he⟩ := he
  obtain ⟨hf₁, hok₁⟩ := nextRequired_ok h h1
  obtain ⟨hf₂, hok₂⟩ := nextRequired_ok hok₁ h3
  obtain ⟨hf₃, hok₃⟩ := nextRequired_ok hok₂ h5
  split at he
  · simp at he
  next hlim =>
  obtain ⟨⟨c, l₄⟩, h7, he⟩ := bind_eq_ok.1 he
  obtain ⟨hf₄, hok₄⟩ := nextRequired_ok hok₃ h7
  obtain ⟨k, h8, he⟩ := bind_eq_ok.1 he
  simp only [Except.ok.injEq, Prod.mk.injEq] at he
  obtain ⟨rfl, rfl, rfl⟩ := he
  refine ⟨hok₄, not_lt.1 hlim, v.bytes, c.bytes, ?_, (parseUsize_eq_ok.1 h6).1,
    (parseUsize_eq_ok.1 h8).1⟩
  rw [hf₁, hf₂, hf₃, hf₄, expectToken_eq_ok.1 h2, expectToken_eq_ok.1 h4]

/-- A header is read. -/
lemma parseHeader_of_follow (h : l.Ok) {v c : Text} {count expected : ℕ}
    (hf : l.follow = bytesOf "p" :: bytesOf "cnf" :: v :: c :: ts) (hv : Numeral v count)
    (hlim : count ≤ maxVariables) (hc : Numeral c expected) (hbig : expected < 2 ^ 64) :
    ∃ l', parseHeader l = .ok (count, expected, l') ∧ l'.Ok ∧ l'.follow = ts := by
  obtain ⟨t₁, l₁, h1, hb₁, hok₁, hf₁⟩ :=
    nextRequired_of_follow h hf "expected `p cnf` header"
  obtain ⟨t₂, l₂, h2, hb₂, hok₂, hf₂⟩ :=
    nextRequired_of_follow hok₁ hf₁ "expected `cnf` after `p`"
  obtain ⟨t₃, l₃, h3, hb₃, hok₃, hf₃⟩ :=
    nextRequired_of_follow hok₂ hf₂ "expected variable count"
  obtain ⟨t₄, l₄, h4, hb₄, hok₄, hf₄⟩ := nextRequired_of_follow hok₃ hf₃ "expected clause count"
  refine ⟨l₄, ?_, hok₄, hf₄⟩
  have hcount : count < 2 ^ 64 := hlim.trans_lt (by norm_num [maxVariables])
  simp only [parseHeader, bind_eq_ok]
  refine ⟨_, h1, (), expectToken_eq_ok.2 hb₁, _, h2, (), expectToken_eq_ok.2 hb₂, _, h3, count,
    parseUsize_eq_ok.2 ⟨hb₃ ▸ hv, hcount⟩, ?_⟩
  rw [if_neg (not_lt.2 hlim)]
  exact bind_eq_ok.2 ⟨_, h4, bind_eq_ok.2 ⟨expected, parseUsize_eq_ok.2 ⟨hb₄ ▸ hc, hbig⟩, rfl⟩⟩

/-- **The parser accepts the texts whose tokens are in the grammar.** -/
theorem parse_eq_ok {input : Text} {f : Formula} :
    parse input = some (.ok f) ↔ Grammar (tokens input) f ∧ Fits f.clauses.length := by
  have hok : (Lexer.new input).Ok := Nat.le_refl 0
  have hfollow : (Lexer.new input).follow = tokens input := follow_true input
  constructor
  · intro h
    rw [parse] at h
    split at h
    · simp at h
    next count expected l he =>
    obtain ⟨hokl, hlim, v, c, hf, hv, hc⟩ := parseHeader_ok hok he
    split at h
    · next hfits =>
      obtain ⟨rfl, rfl, cs, cs', hcs, hcont, hclauses⟩ :=
        (readClauses_eq_ok hlim _ l [] [] hokl (Nat.lt_succ_self _)).1 (Option.some.inj h)
      obtain rfl := continues_nil.1 hcont
      rw [List.nil_append] at hclauses
      subst hclauses
      rw [← hfollow, hf]
      exact ⟨.intro hv hlim hc hcs, hfits⟩
    · simp at h
  · rintro ⟨hg, hfits⟩
    rw [← hfollow] at hg
    generalize hts : (Lexer.new input).follow = ts at hg
    obtain ⟨hv, hlim, hc, hcs⟩ := hg
    obtain ⟨l, he, hokl, hfl⟩ := parseHeader_of_follow hok hts hv hlim hc (by
      rw [Fits] at hfits
      omega)
    rw [parse, he]
    dsimp only
    rw [if_pos hfits, (readClauses_eq_ok hlim _ l [] [] hokl (Nat.lt_succ_self _)).2
      ⟨rfl, rfl, _, _, hfl ▸ hcs, continues_nil.2 rfl, rfl⟩]

end Parse

end Satrap.Dimacs
