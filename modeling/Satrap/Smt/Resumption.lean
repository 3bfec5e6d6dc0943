/-
# Reading on behind an error

`remainder` is what is left of a text behind the parenthesis that closes the open lists, and the
second scanner of the reader goes exactly there from the mode it is started in.  So the call
behind an error reads what follows the command unless the mode is wrong, which happens behind a
malformed atom that leaves a string or a quoted symbol open.
-/
import Satrap.Smt.Recovery

namespace Satrap.Smt

/-! ### The end of the open lists -/

/-- What is left of a text behind the parenthesis that closes the last of the open lists. -/
def remainder (m : Mode) : ℕ → Text → Text
  | 0, text => text
  | _ + 1, [] => []
  | depth + 1, b :: rest => remainder (m.step b) (nesting m (depth + 1) b) rest
termination_by _ text => text.length

section Remainder

variable {mode : Mode} {depth : ℕ} {b : UInt8} {text tail rest : Text}

@[simp] lemma remainder_zero : remainder mode 0 text = text := by rw [remainder]

lemma remainder_nil : remainder mode depth [] = [] := by cases depth <;> rw [remainder]

lemma remainder_cons (hd : 0 < depth) : remainder mode depth (b :: rest) =
    remainder (mode.step b) (nesting mode depth b) rest := by
  obtain ⟨depth, rfl⟩ := Nat.exists_eq_succ_of_ne_zero hd.ne'
  rw [remainder]

/-- Behind a text that closes the open lists nothing of it is left. -/
lemma Closes.remainder : ∀ {text : Text} {mode : Mode} {depth : ℕ}, Closes mode depth text →
    Smt.remainder mode depth (text ++ tail) = tail := by
  intro text
  induction text with
  | nil =>
    intro mode depth h
    rw [show depth = 0 from h]
    exact remainder_zero
  | cons b text ih => exact fun h => (remainder_cons h.1).trans (ih h.2)

/-- A text closes the open lists at its end, or earlier, or leaves a list open. -/
lemma remainder_cases : ∀ (text : Text) (mode : Mode) (depth : ℕ), Closes mode depth text ∨
    (∃ z ≠ [], z <:+ text ∧ ∀ tail, remainder mode depth (text ++ tail) = z ++ tail) ∨
    ∃ mode' depth', 0 < depth' ∧
      ∀ tail, remainder mode depth (text ++ tail) = remainder mode' depth' tail := by
  intro text
  induction text with
  | nil =>
    intro mode depth
    rcases Nat.eq_zero_or_pos depth with hd | hd
    · exact .inl hd
    · exact .inr (.inr ⟨mode, depth, hd, fun _ => rfl⟩)
  | cons b text ih =>
    intro mode depth
    rcases Nat.eq_zero_or_pos depth with rfl | hd
    · exact .inr (.inl ⟨b :: text, by simp, List.suffix_refl _, fun _ => remainder_zero⟩)
    · simp only [List.cons_append, remainder_cons hd]
      rcases ih (mode.step b) (nesting mode depth b) with h | ⟨z, hz, hsuf, h⟩ | h
      · exact .inl ⟨hd, h⟩
      · exact .inr (.inl ⟨z, hz, hsuf.trans (List.suffix_cons _ _), h⟩)
      · exact .inr (.inr h)

/-- The last byte closes the last list. -/
lemma Closes.getLast : ∀ {text : Text} {mode : Mode} {depth : ℕ}, Closes mode depth text →
    0 < depth → text.getLast? = some (ascii ')') := by
  intro text
  induction text with
  | nil => exact fun h hd => absurd h hd.ne'
  | cons b text ih =>
    intro mode depth h hd
    cases text with
    | nil =>
      have h0 : nesting mode depth b = 0 := h.2
      rw [nesting] at h0
      split_ifs at h0 with h1 h2
      · rw [h2.2]
        rfl
      · exact absurd h0 hd.ne'
    | cons c text =>
      have h0 := h.2.1
      rw [List.getLast?_cons_cons]
      exact ih h.2 h0

end Remainder

namespace Reader

variable {r r₁ r' : Reader} {b : UInt8} {text tail rest : Text} {depth : ℕ} {mode : Mode}

/-! ### The second scanner -/

/-- The reader has moved without a change of what is left behind the open lists. -/
structure Skips (mode : Mode) (r r' : Reader) : Prop where
  moves : Moves r r'
  openLists : r'.openLists = r.openLists
  recovery : r'.recovery = r.recovery
  remainder : 0 < r.openLists →
    remainder mode r.openLists r.rest = Smt.remainder .normal r'.openLists r'.rest

lemma Skips.refl (r : Reader) : Skips .normal r r := ⟨.refl r, rfl, rfl, fun _ => rfl⟩

/-- One byte that is no parenthesis outside strings, and what is skipped behind it. -/
lemma Skips.bump (hr : r.rest = b :: rest) (hn : ∀ depth, nesting mode depth b = depth)
    (h : Skips (mode.step b) r.bump r') : Skips mode r r' := by
  have hb := passed_bump hr
  refine ⟨hb.moves.trans h.moves, h.openLists.trans hb.openLists, h.recovery.trans hb.recovery,
    fun hd => ?_⟩
  rw [hr, remainder_cons hd, hn, ← hb.openLists, ← hb.rest]
  exact h.remainder (hb.openLists.symm ▸ hd)

lemma skips_end (hr : r.rest = []) : Skips mode r r :=
  ⟨.refl r, rfl, rfl, fun _ => by rw [hr, remainder_nil, remainder_nil]⟩

lemma skipStringLoop_skips : ∀ (text : Text) (quote : Bool) (r : Reader), r.rest = text →
    Skips (if quote then .normal else .string) r (skipStringLoop quote text r) := by
  intro text
  induction text with
  | nil =>
    intro quote r hr
    rw [skipStringLoop]
    exact skips_end hr
  | cons b text ih =>
    intro quote r hr
    have hb := passed_bump hr
    cases quote with
    | true =>
      rw [skipStringLoop]
      by_cases hq : b = ascii '"'
      · subst hq
        exact .bump hr (fun _ => rfl) (ih false r.bump hb.rest)
      · rw [if_neg hq]
        exact .refl r
    | false =>
      refine .bump hr (fun _ => nesting_of_ne (by simp)) ?_
      rw [skipStringLoop, if_neg (by simp), Mode.step]
      simpa using ih (decide (b = ascii '"')) r.bump hb.rest

lemma skipQuotedLoop_skips : ∀ (text : Text) (r : Reader), r.rest = text →
    Skips .quoted r (skipQuotedLoop text r) := by
  intro text
  induction text with
  | nil => exact fun r hr => skips_end hr
  | cons b text ih =>
    intro r hr
    refine .bump hr (fun _ => nesting_of_ne (by simp)) ?_
    rw [skipQuotedLoop, Mode.step]
    split
    · exact .refl _
    · exact ih r.bump (passed_bump hr).rest

lemma skipCommentLoop_skips : ∀ (text : Text) (r : Reader), r.rest = text →
    Skips .comment r (skipCommentLoop text r) := by
  intro text
  induction text with
  | nil => exact fun r hr => skips_end hr
  | cons b text ih =>
    intro r hr
    refine .bump hr (fun _ => nesting_of_ne (by simp)) ?_
    rw [skipCommentLoop, Mode.step]
    split
    · exact .refl _
    · exact ih r.bump (passed_bump hr).rest

/-- The reader has closed all lists and is at the end of the last. -/
structure Closed (mode : Mode) (r r' : Reader) : Prop where
  moves : Moves r r'
  openLists : r'.openLists = 0
  recovery : r'.recovery = r.recovery
  rest : r'.rest = remainder mode r.openLists r.rest

lemma Skips.closed (h : Skips mode r r₁) (hd : 0 < r.openLists) (h' : Closed .normal r₁ r') :
    Closed mode r r' :=
  ⟨h.moves.trans h'.moves, h'.openLists, h'.recovery.trans h.recovery,
    h'.rest.trans (h.remainder hd).symm⟩

/-- **The second scanner ends where the open lists end.** -/
lemma skipOpenLists_closed : ∀ (fuel : ℕ) (r : Reader), r.rest.length < fuel →
    Closed .normal r (skipOpenLists fuel r) := by
  intro fuel
  induction fuel with
  | zero => exact fun _ h => absurd h (Nat.not_lt_zero _)
  | succ fuel ih =>
    intro r hfuel
    rw [skipOpenLists]
    by_cases hd : r.openLists = 0
    · rw [if_pos hd]
      exact ⟨.refl r, hd, rfl, by rw [hd, remainder_zero]⟩
    rw [if_neg hd]
    have hd : 0 < r.openLists := Nat.pos_of_ne_zero hd
    cases hr : r.rest with
    | nil =>
      have hplace : ({ r with openLists := 0, rest := [] } : Reader).place = r.place := by
        rw [place, place, hr]
      exact ⟨(Moves.refl r).of_place hplace, rfl, rfl, by rw [hr, remainder_nil]⟩
    | cons b rest =>
      have hb := passed_bump hr
      have hlen : r.bump.rest.length < fuel := by
        rw [hr, List.length_cons] at hfuel
        rw [hb.rest]
        omega
      -- what is skipped behind one byte, and the turns that follow
      have hgo : ∀ {r'}, (∀ depth, nesting .normal depth b = depth) →
          Skips (Mode.normal.step b) r.bump r' → Closed .normal r (skipOpenLists fuel r') :=
        fun hn h => (Skips.bump hr hn h).closed hd (ih _ (h.moves.length_le.trans_lt hlen))
      dsimp only
      split_ifs with h1 h2 h3 h4 h5
      · have h := ih r.openList hlen
        have hmoves : Moves r r.openList := (moves_bump hr).of_place rfl
        refine ⟨hmoves.trans h.moves, h.openLists, h.recovery.trans hb.recovery,
          h.rest.trans ?_⟩
        rw [hr, remainder_cons hd, h1, show r.openList.rest = rest from hb.rest]
        rfl
      · have h := ih r.closeList hlen
        have hmoves : Moves r r.closeList := (moves_bump hr).of_place rfl
        refine ⟨hmoves.trans h.moves, h.openLists, h.recovery.trans hb.recovery,
          h.rest.trans ?_⟩
        rw [hr, remainder_cons hd, h2, show r.closeList.rest = rest from hb.rest]
        rfl
      · subst h3
        exact hgo (fun _ => rfl) (skipStringLoop_skips r.bump.rest false r.bump rfl)
      · subst h4
        exact hgo (fun _ => rfl) (skipQuotedLoop_skips r.bump.rest r.bump rfl)
      · subst h5
        exact hgo (fun _ => rfl) (skipCommentLoop_skips r.bump.rest r.bump rfl)
      · refine hgo (fun depth => by simp [nesting, h1, h2]) ?_
        rw [show Mode.normal.step b = .normal by simp [Mode.step, h3, h4, h5]]
        exact .refl _

/-- Where the pending recovery ends. -/
lemma recoverPending_closed (hd : 0 < r.openLists) (hrec : r.recovery ≠ none)
    (hclose : r.recovery ≠ some .unexpectedClose) :
    Closed (modeOf r.recovery) { r with recovery := none } r.recoverPending := by
  obtain ⟨text, line, column, lists, recovery⟩ := r
  cases recovery with
  | none => exact absurd rfl hrec
  | some recovery =>
    cases recovery with
    | list => exact skipOpenLists_closed _ _ (Nat.lt_succ_self _)
    | string =>
      exact (skipStringLoop_skips text false _ rfl).closed hd
        (skipOpenLists_closed _ _ (Nat.lt_succ_self _))
    | quotedSymbol =>
      exact (skipQuotedLoop_skips text _ rfl).closed hd
        (skipOpenLists_closed _ _ (Nat.lt_succ_self _))
    | unexpectedClose => exact absurd rfl hclose

/-! ### Between two calls -/

/-- The readers before and behind the calls of `next` on an input. -/
inductive Between (input : Text) : Reader → Prop
  | new : Between input (new input)
  | next {r : Reader} : Between input r → Between input r.next.2

/-- The two readers agree on what outlives a call. -/
structure Keeps (r r' : Reader) : Prop where
  openLists : r'.openLists = r.openLists
  recovery : r'.recovery = r.recovery

lemma Keeps.refl (r : Reader) : Keeps r r := ⟨rfl, rfl⟩

lemma Keeps.trans (h : Keeps r r₁) (h' : Keeps r₁ r') : Keeps r r' :=
  ⟨h'.openLists.trans h.openLists, h'.recovery.trans h.recovery⟩

lemma keeps_bump (r : Reader) : Keeps r r.bump := by
  cases hr : r.rest with
  | nil =>
    rw [bump, hr]
    exact .refl r
  | cons b rest => exact ⟨(reached_bump hr).openLists, (reached_bump hr).recovery⟩

lemma keeps_bumps : ∀ (n : ℕ) (r : Reader), Keeps r (bumps n r) := by
  intro n
  induction n with
  | zero => exact .refl
  | succ n ih => exact fun r => (keeps_bump r).trans (ih r.bump)

lemma triviaLoop_keeps : ∀ (text : Text) (comment : Bool) (r : Reader),
    Keeps r (triviaLoop comment text r) := by
  intro text
  induction text with
  | nil =>
    intro comment r
    rw [triviaLoop]
    exact .refl r
  | cons b text ih =>
    intro comment r
    cases comment with
    | true => exact (keeps_bump r).trans (ih _ r.bump)
    | false =>
      rw [triviaLoop]
      split_ifs
      · exact (keeps_bump r).trans (ih _ r.bump)
      · exact (keeps_bump r).trans (ih _ r.bump)
      · exact .refl r

variable {e : SExpr} {bytes : Text}

lemma stringLoop_keeps : ∀ (text bytes : Text) (quote : Bool) (r : Reader),
    stringLoop quote text bytes r = (.ok e, r') → Keeps r r' := by
  intro text
  induction text with
  | nil =>
    intro bytes quote r h
    cases quote with
    | true =>
      obtain ⟨-, -, rfl⟩ := finish_eq_ok h
      exact .refl _
    | false => exact absurd h fail_ne_ok
  | cons b text ih =>
    intro bytes quote r h
    rw [stringLoop.eq_def] at h
    cases quote with
    | true =>
      dsimp only at h
      split at h
      · exact (keeps_bump r).trans (ih _ _ _ h)
      · obtain ⟨-, -, rfl⟩ := finish_eq_ok h
        exact .refl _
    | false =>
      dsimp only at h
      split at h
      · exact (keeps_bump r).trans (ih _ _ _ h)
      · split at h
        · exact (keeps_bump r).trans (ih _ _ _ h)
        · exact absurd h fail_ne_ok

lemma quotedLoop_keeps : ∀ (text bytes : Text) (r : Reader),
    quotedLoop text bytes r = (.ok e, r') → Keeps r r' := by
  intro text
  induction text with
  | nil => exact fun bytes r h => absurd h fail_ne_ok
  | cons b text ih =>
    intro bytes r h
    rw [quotedLoop] at h
    split_ifs at h
    · obtain ⟨-, -, rfl⟩ := finish_eq_ok h
      exact keeps_bump r
    · exact absurd h fail_ne_ok
    · exact (keeps_bump r).trans (ih _ _ h)
    · exact absurd h fail_ne_ok

lemma parseAtom_keeps (h : r.parseAtom = (.ok e, r')) : Keeps r r' := by
  rw [parseAtom] at h
  have hfail : ∀ message, ((bumps r.atomText.length r).error message,
      bumps r.atomText.length r) ≠ (Except.ok e, r') :=
    fun message he => absurd (Prod.mk.inj he).1 (by simp [error])
  split at h
  · exact absurd h (hfail _)
  · split at h
    · exact absurd h (hfail _)
    · split at h
      · exact (Prod.mk.inj h).2 ▸ keeps_bumps _ r
      · split at h <;> exact absurd h (hfail _)

/-- An expression that is read leaves as many lists open as it has found. -/
lemma parse_keeps (fuel : ℕ) :
    (∀ depth r r' e, parseExpr fuel depth r = (.ok e, r') → Keeps r r') ∧
    ∀ depth items r r' e, parseItems fuel depth items r = (.ok e, r') →
      r'.openLists = r.openLists - 1 ∧ r'.recovery = r.recovery := by
  induction fuel with
  | zero =>
    have hfail : ∀ {r r' : Reader} {e : SExpr}, (r.error [], r) ≠ (Except.ok e, r') :=
      fun he => absurd (Prod.mk.inj he).1 (by simp [error])
    constructor
    · exact fun _ _ _ _ h => absurd h hfail
    · exact fun _ _ _ _ _ h => absurd h hfail
  | succ fuel ih =>
    have hfail : ∀ {r r₁ r' : Reader} {e : SExpr} {message : Text},
        (r.error message, r₁) ≠ (Except.ok e, r') :=
      fun he => absurd (Prod.mk.inj he).1 (by simp [error])
    obtain ⟨ihe, ihi⟩ := ih
    constructor
    · intro depth r r' e h
      rw [parseExpr] at h
      split at h
      · exact absurd h hfail
      split at h
      · exact absurd h hfail
      split_ifs at h
      · obtain ⟨hl, hr⟩ := ihi _ _ _ _ _ h
        have hb := keeps_bump r
        exact ⟨hl, hr.trans hb.recovery⟩
      · exact absurd h hfail
      · exact (keeps_bump r).trans (stringLoop_keeps _ _ _ _ h)
      · exact (keeps_bump r).trans (quotedLoop_keeps _ _ _ h)
      · exact parseAtom_keeps h
    · intro depth items r r' e h
      have hs : Keeps r r.skipTrivia := triviaLoop_keeps _ _ _
      rw [parseItems] at h
      split at h
      · exact absurd h hfail
      split at h
      · obtain rfl := (Prod.mk.inj h).2
        exact ⟨congrArg (· - 1) hs.openLists, (keeps_bump _).recovery.trans hs.recovery⟩
      split at h
      · exact absurd (Prod.mk.inj h).1 (by simp)
      · next item r₁ he =>
        have hk := hs.trans (ihe _ _ _ _ he)
        obtain ⟨hl, hr⟩ := ihi _ _ _ _ _ h
        exact ⟨by rw [hl, hk.openLists], hr.trans hk.recovery⟩

lemma recoverPending_of_none (hrec : r.recovery = none) : r.recoverPending = r := by
  rw [recoverPending, hrec]

/-- No list is open behind a recovery. -/
lemma recoverPending_open (h : r.recovery = none → r.openLists = 0) :
    r.recoverPending.openLists = 0 ∧ r.recoverPending.recovery = none := by
  cases hrec : r.recovery with
  | none =>
    rw [recoverPending_of_none hrec]
    exact ⟨h hrec, hrec⟩
  | some recovery =>
    rw [recoverPending, hrec]
    dsimp only
    have hclosed := fun r : Reader => skipOpenLists_closed (r.rest.length + 1) r (Nat.lt_succ_self _)
    refine ⟨(hclosed _).openLists, (hclosed _).recovery.trans ?_⟩
    cases recovery with
    | list => rfl
    | string => exact (skipStringLoop_skips _ false _ rfl).recovery
    | quotedSymbol => exact (skipQuotedLoop_skips _ _ rfl).recovery
    | unexpectedClose => exact (keeps_bump _).recovery

/-- Where a call begins to read. -/
def start (r : Reader) : Reader := r.recoverPending.skipTrivia

/-- **No list is open where a call begins to read.** -/
lemma Between.start {input : Text} (h : Between input r) :
    r.start.openLists = 0 ∧ r.start.recovery = none := by
  have hcalm : r.recovery = none → r.openLists = 0 := by
    induction h with
    | new => exact fun _ => rfl
    | @next r h ih =>
      have hs := recoverPending_open ih
      have hk : Keeps r.recoverPending r.recoverPending.skipTrivia := triviaLoop_keeps _ _ _
      rw [Reader.next]
      split
      · exact fun _ => hk.openLists.trans hs.1
      split
      · next e r₁ he =>
        have hk' := hk.trans ((parse_keeps _).1 _ _ _ _ he)
        exact fun _ => hk'.openLists.trans hs.1
      · split
        · exact fun hn => absurd hn (by simp)
        · next hn => exact fun hrec => Nat.eq_zero_of_not_pos fun hp => hn ⟨hrec, hp⟩
  have hs := recoverPending_open hcalm
  have hk : Keeps r.recoverPending r.start := triviaLoop_keeps _ _ _
  exact ⟨hk.openLists.trans hs.1, hk.recovery.trans hs.2⟩

/-! ### The call behind an error -/

lemma next_congr (h : r.recoverPending = r'.recoverPending) : r.next = r'.next := by
  rw [next, next, h]

/-- Nothing is returned exactly where only blanks and comments are left. -/
lemma next_eq_none_iff : r.next.1 = .ok none ↔ r.start.rest = [] := by
  rw [next, start]
  split
  · next h => exact ⟨fun _ => List.isEmpty_iff.1 h, fun _ => rfl⟩
  · next h =>
    refine iff_of_false (fun he => ?_) fun he => h (List.isEmpty_iff.2 he)
    revert he
    split
    · simp
    · split <;> simp

lemma triviaLoop_rest : ∀ (text : Text) (comment : Bool) (r r' : Reader), r.rest = r'.rest →
    (triviaLoop comment text r).rest = (triviaLoop comment text r').rest := by
  intro text
  induction text with
  | nil =>
    intro comment r r' h
    rw [triviaLoop, triviaLoop, h]
  | cons b text ih =>
    intro comment r r' h
    have hb : r.bump.rest = r'.bump.rest := by
      have h1 := bumps_rest 1 r
      have h2 := bumps_rest 1 r'
      rw [← h] at h2
      exact h1.trans h2.symm
    cases comment with
    | true => exact ih _ _ _ hb
    | false =>
      rw [triviaLoop, triviaLoop]
      split_ifs
      · exact ih _ _ _ hb
      · exact ih _ _ _ hb
      · exact h

lemma skipTrivia_rest (h : r.rest = text) : r.skipTrivia.rest = (new text).skipTrivia.rest := by
  rw [skipTrivia, h]
  exact triviaLoop_rest _ _ _ _ h

/-- A text of blanks and comments that ends in a parenthesis ends in a comment, which goes on
behind it. -/
lemma triviaLoop_comment : ∀ (z : Text) (comment : Bool) (r r' : Reader), r.rest = z →
    r'.rest = z ++ [ascii 'x'] → (z = [] → comment = true) →
    (∀ b ∈ z.getLast?, b = ascii ')') → (triviaLoop comment z r).rest = [] →
    (triviaLoop comment (z ++ [ascii 'x']) r').rest = [] := by
  intro z
  induction z with
  | nil =>
    intro comment r r' hr hr' hc _ _
    obtain rfl := hc rfl
    exact (passed_bump (r := r') hr').rest
  | cons b z ih =>
    intro comment r r' hr hr' hc hlast h
    have hb := passed_bump hr
    have hb' : Passed r' r'.bump (z ++ [ascii 'x']) := passed_bump hr'
    -- the last byte is no blank and does not end a comment
    have hne : z = [] → b = ascii ')' := by
      rintro rfl
      exact hlast b rfl
    have hlast' : ∀ c ∈ z.getLast?, c = ascii ')' := by
      cases z with
      | nil => simp
      | cons c z => rwa [List.getLast?_cons_cons] at hlast
    cases comment with
    | true =>
      refine ih _ _ _ hb.rest hb'.rest (fun hz => ?_) hlast' h
      rw [hne hz]
      decide
    | false =>
      rw [triviaLoop] at h
      rw [List.cons_append, triviaLoop]
      split_ifs at h ⊢ with h1 h2
      · refine ih _ _ _ hb.rest hb'.rest (fun hz => ?_) hlast' h
        exact absurd (hne hz ▸ h1) (by decide)
      · refine ih _ _ _ hb.rest hb'.rest (fun hz => ?_) hlast' h
        exact absurd ((hne hz).symm.trans h2) (by decide)
      · rw [hr] at h
        simp at h

/-- The call behind an error in the command returns what follows the command, on every input
and wherever the reader has come to the command. -/
def Resumes (cmd : Text) : Prop :=
  ∀ (input tail : Text) (r : Reader) (e : ReadError), Between input r →
    r.start.rest = cmd ++ tail → r.next.1 = .error e →
    r.next.2.next = (bumps cmd.length r.start).next

/-- The first malformed atom of the command leaves no string and no quoted symbol open, or what
is behind it closes the command at the same parenthesis. -/
def Recoverable (cmd : Text) : Prop :=
  ∀ atom depth post, firstFault 0 cmd = some (atom, depth, post) →
    Mode.normal.run atom = .normal ∨ Closes .normal depth post

lemma firstFault_command {body : Text} :
    firstFault 0 (ascii '(' :: body) = firstFault 1 body := by
  rw [firstFault, if_neg (by decide), if_neg (by decide), if_neg (by decide), if_neg (by decide),
    if_pos rfl]

/-- The recovery that `next` leaves behind an error. -/
def pending (r : Reader) : Reader :=
  if r.recovery = none ∧ 0 < r.openLists then { r with recovery := some .list } else r

/-- What the call on a command comes to. -/
lemma next_command {body : Text} (hl : r.start.openLists = 0) (hrec : r.start.recovery = none)
    (hrest : r.start.rest = ascii '(' :: body ++ tail) (hc : Closes .normal 1 body) :
    ((∃ e, r.next.1 = Except.ok e) ∧ firstFault 0 (ascii '(' :: body) = none) ∨
    ∃ e r₁, r.next = (.error e, r₁.pending) ∧
      Failed r.start tail (firstFault 0 (ascii '(' :: body)) r₁ := by
  have hb : Passed r.start r.start.bump (body ++ tail) := passed_bump hrest
  have hmoves : Moves r.start r.start.openList := hb.moves.of_place rfl
  have hlen : r.start.rest.length = (body ++ tail).length + 1 := by rw [hrest]; rfl
  have hspec := (parse_spec tail (2 * r.start.rest.length)).2 0 [] r.start.openList body
    (by rw [openList, hl]) (hb.recovery.trans hrec) hb.rest hc (by
      rw [show r.start.openList.rest = body ++ tail from hb.rest]
      omega)
  have hne : ¬ r.start.rest.isEmpty = true := by simp [hrest]
  have hexpr : parseExpr (2 * r.start.rest.length + 1) 0 r.start =
      parseItems (2 * r.start.rest.length) 0 [] r.start.openList := by
    rw [parseExpr, if_neg (Nat.not_lt_zero _)]
    simp only [hrest, List.cons_append, if_true]
  rw [firstFault_command, Reader.next]
  rw [show r.recoverPending.skipTrivia = r.start from rfl, if_neg hne, hexpr]
  revert hspec
  generalize parseItems (2 * r.start.rest.length) 0 [] r.start.openList = result
  obtain ⟨e | e, r₁⟩ := result
  · refine fun hspec => .inr ⟨e, r₁, ?_, hspec.of_moves hmoves⟩
    dsimp only
    rw [pending]
    split <;> rfl
  · rintro ⟨post, -, -, -, -, -, hcl, hf⟩
    have hpost : post = [] := by
      cases post with
      | nil => rfl
      | cons b post => exact absurd hcl.1 (Nat.lt_irrefl 0)
    refine .inl ⟨⟨_, rfl⟩, hf.trans ?_⟩
    rw [hpost, firstFault]

/-- Where the call behind an error goes on. -/
lemma pending_closed (hl : 0 < r.openLists) (hclose : r.recovery ≠ some .unexpectedClose) :
    Moves r r.pending.recoverPending ∧ r.pending.recoverPending.openLists = 0 ∧
      r.pending.recoverPending.recovery = none ∧
      r.pending.recoverPending.rest = remainder (modeOf r.recovery) r.openLists r.rest := by
  rw [pending]
  split
  · next h =>
    have hclosed := recoverPending_closed (r := { r with recovery := some .list }) hl (by simp)
      (by simp)
    rw [h.1]
    have hplace : Moves r { r with recovery := none } := (Moves.refl r).of_place rfl
    exact ⟨hplace.trans hclosed.moves, hclosed.openLists, hclosed.recovery, hclosed.rest⟩
  · next h =>
    have hclosed := recoverPending_closed hl (fun hn => h ⟨hn, hl⟩) hclose
    have hplace : Moves r { r with recovery := none } := (Moves.refl r).of_place rfl
    exact ⟨hplace.trans hclosed.moves, hclosed.openLists, hclosed.recovery, hclosed.rest⟩

/-- The call behind an error resumes behind the command where the second scanner is started in
the right mode. -/
lemma resumes_of_closes {cmd body : Text} (hl : r.openLists = 0) (hrec : r.recovery = none)
    (hrest : r.rest = cmd ++ tail) (hm : Moves r r₁) (hrest₁ : r₁.rest = body ++ tail)
    (hl₁ : 0 < r₁.openLists) (hclose : r₁.recovery ≠ some .unexpectedClose)
    (hc : Closes (modeOf r₁.recovery) r₁.openLists body) :
    r₁.pending.next = (bumps cmd.length r).next := by
  obtain ⟨hmoves, hlists, hnone, hr⟩ := pending_closed hl₁ hclose
  have hb : Passed r (bumps cmd.length r) tail := passed_bumps cmd hrest
  rw [hrest₁, hc.remainder] at hr
  have hplace := (hm.trans hmoves).place_eq hb.moves (hr.trans hb.rest.symm)
  refine next_congr ?_
  rw [recoverPending_of_none (r := bumps cmd.length r) (hb.recovery.trans hrec)]
  have hl' := hb.openLists.trans hl
  have hrec' := hb.recovery.trans hrec
  generalize r₁.pending.recoverPending = r₂ at *
  generalize bumps cmd.length r = r₃ at *
  obtain ⟨text, line, column, lists, recovery⟩ := r₂
  obtain ⟨text', line', column', lists', recovery'⟩ := r₃
  simp only [place, Prod.mk.injEq] at hplace hlists hnone hl' hrec'
  obtain ⟨rfl, rfl, rfl⟩ := hplace
  rw [hlists, hnone, hl', hrec']

/-- **Where the reader resumes.**  Behind an error in a command the next call returns what
follows the command if and only if the first malformed atom leaves no string and no quoted
symbol open, or the command ends at the same parenthesis all the same. -/
theorem next_resumes_iff (cmd : Text) (hcmd : Command cmd) : Resumes cmd ↔ Recoverable cmd := by
  obtain ⟨body, rfl, hc⟩ := hcmd
  constructor
  · intro hres atom depth post hfault
    by_contra hnot
    obtain ⟨hrun, hpost⟩ := not_or.1 hnot
    -- on the command and any tail, the second scanner starts behind the atom
    have hcall : ∀ tail, 0 < depth ∧ Closes (Mode.normal.run atom) depth post ∧
        ((new (remainder .normal depth (post ++ tail))).skipTrivia.rest = [] ↔
          (new tail).skipTrivia.rest = []) := by
      intro tail
      have hstart : (new (ascii '(' :: body ++ tail)).start = new (ascii '(' :: body ++ tail) :=
        skipTrivia_of_starts ⟨ascii '(', rfl, by decide, by decide⟩
      have hrest : (new (ascii '(' :: body ++ tail)).start.rest = ascii '(' :: body ++ tail := by
        rw [hstart]
        rfl
      have hspec := next_command (by rw [hstart]; rfl) (by rw [hstart]; rfl) hrest hc
      rcases hspec with ⟨-, hn⟩ | ⟨e, r₁, hnext, hfailed⟩
      · rw [hn] at hfault
        simp at hfault
      · rw [hfault] at hfailed
        cases hfailed with
        | atom hm hrest₁ hl hrec hcl =>
          have h := hres _ tail (new (ascii '(' :: body ++ tail)) e .new hrest
            (by rw [hnext])
          rw [hnext, hstart] at h
          have hb : Passed _ (bumps (ascii '(' :: body).length (new (ascii '(' :: body ++ tail)))
              tail := passed_bumps (ascii '(' :: body) rfl
          obtain ⟨-, -, -, hr⟩ := pending_closed hl (by rw [hrec]; simp)
          rw [hrest₁, hrec] at hr
          have hnone := next_eq_none_iff (r := r₁.pending)
          rw [h, next_eq_none_iff] at hnone
          have hnone := hnone.symm
          rw [start, start, recoverPending_of_none hb.recovery,
            skipTrivia_rest hb.rest, skipTrivia_rest hr] at hnone
          exact ⟨hl, hcl, hnone⟩
    obtain ⟨hd, hcl, hend⟩ := hcall []
    obtain ⟨-, -, hx⟩ := hcall [ascii 'x']
    have hx := mt hx.1 (by decide)
    rcases remainder_cases post .normal depth with h | ⟨z, hz, hsuf, h⟩ | ⟨mode, depth', hd', h⟩
    · exact hpost h
    · -- what is left of the command is blank, and so ends in a comment
      rw [h, List.append_nil] at hend
      rw [h] at hx
      refine hx (triviaLoop_comment z false (new z) _ rfl rfl (fun h => absurd h hz) ?_
        (hend.2 rfl))
      obtain ⟨w, rfl⟩ := hsuf
      have hlast := hcl.getLast hd
      rw [List.getLast?_append_of_ne_nil _ hz] at hlast
      rw [hlast]
      exact fun b hb => (Option.some.inj hb).symm
    · rw [h, remainder_cons hd', remainder_nil] at hx
      exact hx rfl
  · intro hrec input tail r e hbetween hrest he
    obtain ⟨hl, hnone⟩ := hbetween.start
    rcases next_command hl hnone hrest hc with ⟨⟨e', he'⟩, -⟩ | ⟨e', r₁, hnext, hfailed⟩
    · rw [he] at he'
      simp at he'
    · rw [hnext]
      generalize hfault : firstFault 0 (ascii '(' :: body) = fault at hfailed
      cases hfailed with
      | known hm hrest₁ hl₁ hclose hcl =>
        exact resumes_of_closes hl hnone hrest hm hrest₁ hl₁ hclose hcl
      | atom hm hrest₁ hl₁ hrec₁ hcl =>
        refine resumes_of_closes hl hnone hrest hm hrest₁ hl₁ (by rw [hrec₁]; simp) ?_
        rw [hrec₁]
        rcases hrec _ _ _ hfault with h | h
        · rwa [h] at hcl
        · exact h

/-- A command with a bar inside an atom. -/
def barredAtom : Text := bytesOf "(x a|b) c| d)"

lemma command_barredAtom : Command barredAtom := ⟨_, rfl, by decide⟩

/-- A command with a malformed atom that leaves nothing open. -/
theorem next_resumes_iff_atom : Resumes (bytesOf "(x 0a)") ↔ Recoverable (bytesOf "(x 0a)") :=
  next_resumes_iff (bytesOf "(x 0a)") ⟨_, rfl, by decide⟩

/-- The call behind the error in `(x a|b) c| d)(next)` reads `c|`. -/
theorem barredAtom_not_resumed : ¬ ∀ cmd, Command cmd → Resumes cmd := by
  intro h
  have hres := h barredAtom command_barredAtom (barredAtom ++ bytesOf "(next)")
    (bytesOf "(next)") (new (barredAtom ++ bytesOf "(next)"))
    ⟨1, 7, bytesOf "invalid SMT-LIB token " ++ [96] ++ bytesOf "a|b" ++ [96]⟩ .new rfl rfl
  exact absurd (congrArg (fun result => result.1.isOk) hres) (by decide)

end Reader

end Satrap.Smt
