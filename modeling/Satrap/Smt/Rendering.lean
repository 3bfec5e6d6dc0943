/-
# Rendering expressions

`render` with its quoting, and the proof that it undoes the reader: whatever expression the
reader has returned, its rendering is read back as this expression and nothing else.  What the
reader can return is `Readable`: each atom is of a kind that its text has when it is read again.
-/
import Satrap.Smt.Reader

namespace Satrap.Smt

/-! ### The renderer -/

/-- `quote_string`. -/
def quoteString (text : Text) : Text :=
  ascii '"' :: text.flatMap (fun b => if b = ascii '"' then [b, b] else [b]) ++ [ascii '"']

/-- The symbols that `quote_symbol` prints as they are. -/
def isPlain (symbol : Text) : Bool :=
  !symbol.isEmpty && !isReservedWord symbol && !(symbol.head?.any isAsciiDigit) &&
    symbol.all fun b => isAsciiAlphanumeric b || decide (b ∈ bytesOf "~!@$%^&*_-+=<>.?/")

/-- `quote_symbol`. -/
def quoteSymbol (symbol : Text) : Text :=
  if isPlain symbol then symbol else ascii '|' :: symbol ++ [ascii '|']

/-- `render` for an atom. -/
def renderAtom (a : Atom) : Text :=
  match a.kind with
  | .string => quoteString a.text
  | .symbol => quoteSymbol a.text
  | _ => a.text

mutual

/-- `render`. -/
def render : SExpr → Text
  | .atom a => renderAtom a
  | .list items => ascii '(' :: renderItems items ++ [ascii ')']

/-- The items of a list, joined by blanks. -/
def renderItems : List SExpr → Text
  | [] => []
  | [e] => render e
  | e :: e' :: items => render e ++ ascii ' ' :: renderItems (e' :: items)

end

/-- `get_assertions`, for the asserted expressions. -/
def getAssertions (assertions : List SExpr) : Text :=
  ascii '(' :: renderItems assertions ++ [ascii ')']

/-! ### What can be read -/

/-- The kinds an atom can have. -/
def AtomOk (a : Atom) : Prop :=
  isUtf8 a.text = true ∧
  match a.kind with
  | .string => ∀ b ∈ a.text, isPrintableOrWhitespace b = true
  | .symbol => ∀ b ∈ a.text, isPrintableOrWhitespace b = true ∧ b ≠ ascii '|' ∧ b ≠ ascii '\\'
  | kind => atomKind a.text = some kind ∧
      (∀ b ∈ a.text, endsAtom b = false) ∧ ∃ b ∈ a.text.head?, b ≠ ascii '"' ∧ b ≠ ascii '|'

mutual

/-- An expression that the reader can return at the given depth. -/
def Readable : ℕ → SExpr → Prop
  | depth, .atom a => depth ≤ Reader.maxNesting ∧ AtomOk a
  | depth, .list items => depth ≤ Reader.maxNesting ∧ ReadableItems (depth + 1) items

/-- A list of expressions that the reader can return at the given depth. -/
def ReadableItems : ℕ → List SExpr → Prop
  | _, [] => True
  | depth, e :: items => Readable depth e ∧ ReadableItems depth items

end

lemma readableItems_iff {depth : ℕ} {items : List SExpr} :
    ReadableItems depth items ↔ ∀ e ∈ items, Readable depth e := by
  induction items with
  | nil => simp [ReadableItems]
  | cons e items ih => simp [ReadableItems, ih]

/-! ### Bytes -/

lemma forall_byte {P : UInt8 → Prop} (h : ∀ n < 256, P n.toUInt8) (b : UInt8) : P b := by
  have := h b.toNat b.toNat_lt
  rwa [show b.toNat.toUInt8 = b from UInt8.ofNat_toNat] at this

lemma isSymbolByte_spec : ∀ b : UInt8, isSymbolByte b = true →
    (isPrintableOrWhitespace b = true ∧ b ≠ ascii '|' ∧ b ≠ ascii '\\') ∧ endsAtom b = false ∧
      b ≠ ascii '"' ∧ b ≠ ascii '#' ∧ b ≠ ascii ':' := by
  refine forall_byte ?_
  decide +kernel

lemma isSymbolByte_eq (b : UInt8) : isSymbolByte b =
    (isAsciiAlphanumeric b || decide (b ∈ bytesOf "~!@$%^&*_-+=<>.?/")) := rfl

/-! ### Kinds -/

section Kind

variable {text : Text} {kind : AtomKind}

lemma atomKind_ne_string : atomKind text ≠ some .string := by
  rw [atomKind]
  split_ifs <;> simp

lemma isSimpleSymbol_of_kind (h : atomKind text = some .symbol) : isSimpleSymbol text = true := by
  rw [atomKind] at h
  split_ifs at h <;> first | assumption | simp at h

lemma isPlain_iff : isPlain text = true ↔
    isSimpleSymbol text = true ∧ isReservedWord text = false := by
  simp only [isPlain, isSimpleSymbol, Bool.and_eq_true, Bool.not_eq_true', ← isSymbolByte_eq]
  tauto

lemma all_of_isSimpleSymbol (h : isSimpleSymbol text = true) : ∀ b ∈ text, isSymbolByte b = true := by
  rw [isSimpleSymbol, Bool.and_eq_true] at h
  simpa using h.2

/-- A numeral starts with a digit. -/
lemma head_of_isNumeral (h : isNumeral text = true) : ∃ b ∈ text.head?, isAsciiDigit b = true := by
  rw [isNumeral, Bool.or_eq_true, Bool.and_eq_true, decide_eq_true_iff] at h
  rcases h with rfl | ⟨h, hall⟩
  · exact ⟨_, rfl, by decide⟩
  · cases text with
    | nil => simp at h
    | cons b text =>
      rw [List.all_cons, Bool.and_eq_true] at hall
      exact ⟨b, rfl, hall.1⟩

/-- A decimal starts with a digit. -/
lemma head_of_isDecimal (h : isDecimal text = true) : ∃ b ∈ text.head?, isAsciiDigit b = true := by
  rw [isDecimal] at h
  split at h
  · simp at h
  · next integer fractional hsplit =>
    have hint : integer = text.takeWhile fun b => decide (b ≠ ascii '.') := by
      rw [splitDot] at hsplit
      split at hsplit
      · simp at hsplit
      · exact (Prod.mk.inj (Option.some.inj hsplit)).1.symm
    have hnum : isNumeral integer = true := by
      simp only [Bool.and_eq_true] at h
      exact h.1.2
    obtain ⟨b, hb, hd⟩ := head_of_isNumeral hnum
    refine ⟨b, ?_, hd⟩
    rw [hint, List.head?_takeWhile] at hb
    exact (Option.filter_eq_some_iff.1 hb).1

/-- A symbol that is printed as it is has the kind of a symbol. -/
lemma atomKind_of_isPlain (h : isPlain text = true) : atomKind text = some .symbol := by
  obtain ⟨hs, hr⟩ := isPlain_iff.1 h
  have hall := all_of_isSimpleSymbol hs
  have hdigit : ¬ ∃ b ∈ text.head?, isAsciiDigit b = true := by
    rintro ⟨b, hb, hd⟩
    rw [isSimpleSymbol] at hs
    simp [Option.mem_def.1 hb, hd] at hs
  cases text with
  | nil => simp [isSimpleSymbol] at hs
  | cons b text =>
    obtain ⟨-, -, -, hhash, hcolon⟩ := isSymbolByte_spec b (hall b List.mem_cons_self)
    have hbehind : ∀ c : Char, digitsBehind '#' c (b :: text) = none := by
      intro c
      cases text with
      | nil => rfl
      | cons d text => simp [digitsBehind, hhash]
    rw [atomKind, if_neg fun hn => hdigit (head_of_isNumeral hn),
      if_neg fun hn => hdigit (head_of_isDecimal hn), hbehind, hbehind, if_neg (by simp),
      if_neg (by simp), if_neg (by simpa using hcolon), if_neg (by simp [hr]), if_pos hs]

end Kind

/-! ### What is returned can be read -/

namespace Reader

variable {r r' : Reader} {e : SExpr} {a : Atom} {bytes text : Text}

lemma finish_eq_ok {kind : AtomKind} {message : Text}
    (h : r.finish bytes kind message = (.ok e, r')) :
    e = .atom ⟨bytes, kind⟩ ∧ isUtf8 bytes = true ∧ r' = r := by
  rw [finish] at h
  split at h
  · next hu =>
    obtain ⟨h1, h2⟩ := Prod.mk.inj h
    exact ⟨(Except.ok.inj h1).symm, hu, h2.symm⟩
  · exact absurd (Prod.mk.inj h).1 (by simp [error])

lemma fail_ne_ok {recovery : Recovery} {message : Text} :
    r.fail recovery message ≠ (.ok e, r') := by
  intro h
  exact absurd (Prod.mk.inj h).1 (by simp [error])

lemma stringLoop_ok : ∀ (text bytes : Text) (quote : Bool) (r : Reader),
    (∀ b ∈ bytes, isPrintableOrWhitespace b = true) →
    stringLoop quote text bytes r = (.ok e, r') → ∃ a, e = .atom a ∧ AtomOk a := by
  intro text
  induction text with
  | nil =>
    intro bytes quote r hb h
    cases quote with
    | true =>
      obtain ⟨rfl, hu, -⟩ := finish_eq_ok h
      exact ⟨_, rfl, hu, hb⟩
    | false => exact absurd h fail_ne_ok
  | cons b text ih =>
    intro bytes quote r hb h
    have hpush : isPrintableOrWhitespace b = true →
        ∀ c ∈ bytes ++ [b], isPrintableOrWhitespace c = true := by
      intro hp c hc
      rcases List.mem_append.1 hc with hc | hc
      · exact hb c hc
      · exact List.mem_singleton.1 hc ▸ hp
    cases quote with
    | true =>
      rw [stringLoop] at h
      split at h
      · next hq => exact ih _ _ _ (hpush (by rw [hq]; decide)) h
      · obtain ⟨rfl, hu, -⟩ := finish_eq_ok h
        exact ⟨_, rfl, hu, hb⟩
    | false =>
      rw [stringLoop] at h
      split at h
      · exact ih _ _ _ hb h
      · split at h
        · next hp => exact ih _ _ _ (hpush hp) h
        · exact absurd h fail_ne_ok

lemma quotedLoop_ok : ∀ (text bytes : Text) (r : Reader),
    (∀ b ∈ bytes, isPrintableOrWhitespace b = true ∧ b ≠ ascii '|' ∧ b ≠ ascii '\\') →
    quotedLoop text bytes r = (.ok e, r') → ∃ a, e = .atom a ∧ AtomOk a := by
  intro text
  induction text with
  | nil => exact fun bytes r _ h => absurd h fail_ne_ok
  | cons b text ih =>
    intro bytes r hb h
    rw [quotedLoop] at h
    split at h
    · obtain ⟨rfl, hu, -⟩ := finish_eq_ok h
      exact ⟨_, rfl, hu, hb⟩
    · next h1 =>
      split at h
      · exact absurd h fail_ne_ok
      · next h2 =>
        split at h
        · next hp =>
          refine ih _ _ (fun c hc => ?_) h
          rcases List.mem_append.1 hc with hc | hc
          · exact hb c hc
          · exact List.mem_singleton.1 hc ▸ ⟨hp, h1, h2⟩
        · exact absurd h fail_ne_ok

lemma parseAtom_ok (hquote : ∀ b ∈ r.rest.head?, b ≠ ascii '"' ∧ b ≠ ascii '|')
    (h : r.parseAtom = (.ok e, r')) : ∃ a, e = .atom a ∧ AtomOk a := by
  rw [parseAtom] at h
  split at h
  · exact absurd (Prod.mk.inj h).1 (by simp [error])
  next hne =>
  split at h
  · exact absurd (Prod.mk.inj h).1 (by simp [error])
  next hu =>
  split at h
  · next kind hkind =>
    obtain rfl := (Except.ok.inj (Prod.mk.inj h).1).symm
    have hu : isUtf8 r.atomText = true := by simpa using hu
    have hends : ∀ b ∈ r.atomText, endsAtom b = false := fun b hb => by
      simpa using List.mem_takeWhile_imp hb
    have hhead : ∃ b ∈ r.atomText.head?, b ≠ ascii '"' ∧ b ≠ ascii '|' := by
      cases hr : r.rest with
      | nil => simp [atomText, hr] at hne
      | cons b rest =>
        by_cases hb : endsAtom b = true
        · simp [atomText, hr, hb] at hne
        · exact ⟨b, by simp [atomText, hr, hb], hquote b (by rw [hr]; rfl)⟩
    refine ⟨_, rfl, hu, ?_⟩
    cases kind with
    | symbol =>
      have hall := all_of_isSimpleSymbol (isSimpleSymbol_of_kind hkind)
      exact fun b hb => (isSymbolByte_spec b (hall b hb)).1
    | string => exact absurd hkind atomKind_ne_string
    | _ => exact ⟨hkind, hends, hhead⟩
  · split at h <;> exact absurd (Prod.mk.inj h).1 (by simp [error])

/-- Whatever is returned can be read at its depth. -/
lemma parse_ok (fuel : ℕ) :
    (∀ depth r e r', parseExpr fuel depth r = (.ok e, r') → Readable depth e) ∧
    ∀ depth items r e r', depth ≤ maxNesting → ReadableItems (depth + 1) items →
      parseItems fuel depth items r = (.ok e, r') → Readable depth e := by
  induction fuel with
  | zero =>
    constructor
    · intro depth r e r' h
      exact absurd (Prod.mk.inj h).1 (by simp [error])
    · intro depth items r e r' _ _ h
      exact absurd (Prod.mk.inj h).1 (by simp [error])
  | succ fuel ih =>
    obtain ⟨ihe, ihi⟩ := ih
    constructor
    · intro depth r e r' h
      rw [parseExpr] at h
      split at h
      · exact absurd (Prod.mk.inj h).1 (by simp [error])
      next hdepth =>
      have hdepth := not_lt.1 hdepth
      have hatom : (∃ a, e = .atom a ∧ AtomOk a) → Readable depth e := by
        rintro ⟨a, rfl, ha⟩
        exact ⟨hdepth, ha⟩
      split at h
      · exact absurd (Prod.mk.inj h).1 (by simp [error])
      next b rest hrest =>
      split at h
      · exact ihi depth [] _ e r' hdepth trivial h
      split at h
      · exact absurd (Prod.mk.inj h).1 (by simp [error])
      split at h
      · exact hatom (stringLoop_ok _ [] _ _ (by simp) h)
      next h1 =>
      split at h
      · exact hatom (quotedLoop_ok _ [] _ (by simp) h)
      next h2 =>
      exact hatom (parseAtom_ok (by rw [hrest]; simpa using ⟨h1, h2⟩) h)
    · intro depth items r e r' hdepth hitems h
      rw [parseItems] at h
      split at h
      · exact absurd (Prod.mk.inj h).1 (by simp [error])
      next b rest hrest =>
      split at h
      · obtain rfl := (Except.ok.inj (Prod.mk.inj h).1).symm
        exact ⟨hdepth, hitems⟩
      split at h
      · exact absurd (Prod.mk.inj h).1 (by simp)
      · next item r₁ he =>
        have hitem := ihe _ _ _ _ he
        refine ihi depth (items ++ [item]) _ e r' hdepth ?_ h
        rw [readableItems_iff] at hitems ⊢
        intro q hq
        rcases List.mem_append.1 hq with hq | hq
        · exact hitems q hq
        · exact List.mem_singleton.1 hq ▸ hitem

/-! ### What can be read is read back -/

/-- An atom that comes before these bytes ends there. -/
def Stops (tail : Text) : Prop := ∀ b ∈ tail.head?, endsAtom b = true

/-- The reader has moved up to `tail`, with as many lists open as before. -/
structure Reached (r r' : Reader) (tail : Text) : Prop where
  rest : r'.rest = tail
  openLists : r'.openLists = r.openLists
  recovery : r'.recovery = r.recovery

variable {r₁ : Reader} {tail : Text} {b : UInt8}

lemma Reached.trans {tail' : Text} (h : Reached r r₁ tail) (h' : Reached r₁ r' tail') :
    Reached r r' tail' :=
  ⟨h'.rest, h'.openLists.trans h.openLists, h'.recovery.trans h.recovery⟩

lemma reached_bump (h : r.rest = b :: tail) : Reached r r.bump tail := by
  constructor <;> simp [bump, h]

lemma reached_bumps : ∀ (text : Text) (r : Reader), r.rest = text ++ tail →
    Reached r (bumps text.length r) tail := by
  intro text
  induction text with
  | nil => exact fun r h => ⟨h, rfl, rfl⟩
  | cons b text ih =>
    intro r h
    have hb : Reached r r.bump (text ++ tail) := reached_bump h
    exact hb.trans (ih r.bump hb.rest)

lemma finish_ok {kind : AtomKind} (hu : isUtf8 bytes = true) (message : Text) :
    r.finish bytes kind message = (.ok (.atom ⟨bytes, kind⟩), r) := by
  rw [finish, if_pos hu]

lemma stringLoop_reads (hstop : Stops tail) : ∀ (text bytes : Text) (r : Reader),
    (∀ b ∈ text, isPrintableOrWhitespace b = true) → isUtf8 (bytes ++ text) = true →
    r.rest = text.flatMap (fun b => if b = ascii '"' then [b, b] else [b]) ++ ascii '"' :: tail →
    ∃ r', stringLoop false r.rest bytes r = (.ok (.atom ⟨bytes ++ text, .string⟩), r') ∧
      Reached r r' tail := by
  intro text
  induction text with
  | nil =>
    intro bytes r _ hu hr
    rw [List.flatMap_nil, List.nil_append] at hr
    have hb := reached_bump hr
    refine ⟨r.bump, ?_, hb⟩
    rw [List.append_nil] at hu ⊢
    rw [hr, stringLoop, if_pos rfl]
    cases tail with
    | nil => exact finish_ok hu _
    | cons c tail =>
      have hc : c ≠ ascii '"' := by
        rintro rfl
        exact absurd (hstop _ rfl) (by decide)
      rw [stringLoop, if_neg hc]
      exact finish_ok hu _
  | cons b text ih =>
    intro bytes r hp hu hr
    obtain ⟨hb, hp⟩ := List.forall_mem_cons.1 hp
    rw [List.flatMap_cons] at hr
    have hassoc : bytes ++ b :: text = bytes ++ [b] ++ text := by simp
    rw [hassoc] at hu ⊢
    by_cases hq : b = ascii '"'
    · rw [if_pos hq, List.append_assoc] at hr
      have h1 : Reached r r.bump _ := reached_bump hr
      have h2 : Reached r.bump r.bump.bump _ := reached_bump h1.rest
      obtain ⟨r', he, hr'⟩ := ih (bytes ++ [b]) r.bump.bump hp hu h2.rest
      refine ⟨r', ?_, (h1.trans h2).trans hr'⟩
      rw [hr, List.cons_append, stringLoop, if_pos hq, List.cons_append, stringLoop, if_pos hq,
        ← he, h2.rest]
      rfl
    · rw [if_neg hq, List.append_assoc] at hr
      have h1 : Reached r r.bump _ := reached_bump hr
      obtain ⟨r', he, hr'⟩ := ih (bytes ++ [b]) r.bump hp hu h1.rest
      refine ⟨r', ?_, h1.trans hr'⟩
      rw [hr, List.cons_append, stringLoop, if_neg hq, if_pos hb, ← he, h1.rest]
      rfl

lemma quotedLoop_reads : ∀ (text bytes : Text) (r : Reader),
    (∀ b ∈ text, isPrintableOrWhitespace b = true ∧ b ≠ ascii '|' ∧ b ≠ ascii '\\') →
    isUtf8 (bytes ++ text) = true → r.rest = text ++ ascii '|' :: tail →
    ∃ r', quotedLoop r.rest bytes r = (.ok (.atom ⟨bytes ++ text, .symbol⟩), r') ∧
      Reached r r' tail := by
  intro text
  induction text with
  | nil =>
    intro bytes r _ hu hr
    rw [List.nil_append] at hr
    refine ⟨r.bump, ?_, reached_bump hr⟩
    rw [List.append_nil] at hu ⊢
    rw [hr, quotedLoop, if_pos rfl]
    exact finish_ok hu _
  | cons b text ih =>
    intro bytes r hp hu hr
    obtain ⟨⟨hb, h1, h2⟩, hp⟩ := List.forall_mem_cons.1 hp
    have hassoc : bytes ++ b :: text = bytes ++ [b] ++ text := by simp
    rw [hassoc] at hu ⊢
    have hbump : Reached r r.bump _ := reached_bump hr
    obtain ⟨r', he, hr'⟩ := ih (bytes ++ [b]) r.bump hp hu hbump.rest
    refine ⟨r', ?_, hbump.trans hr'⟩
    rw [hr, List.cons_append, quotedLoop, if_neg h1, if_neg h2, if_pos hb, ← he, hbump.rest]
    rfl

/-- A bare atom is read back. -/
lemma parseAtom_reads {kind : AtomKind} (hstop : Stops tail) (hne : text ≠ [])
    (hends : ∀ b ∈ text, endsAtom b = false) (hu : isUtf8 text = true)
    (hkind : atomKind text = some kind) (hr : r.rest = text ++ tail) :
    ∃ r', r.parseAtom = (.ok (.atom ⟨text, kind⟩), r') ∧ Reached r r' tail := by
  have htext : r.atomText = text := by
    rw [atomText, hr, List.takeWhile_append_of_pos (by simpa using hends)]
    cases tail with
    | nil => simp
    | cons c tail => simp [hstop c rfl]
  refine ⟨bumps text.length r, ?_, reached_bumps text r hr⟩
  rw [parseAtom, htext, if_neg (by simpa using hne), if_neg (by simp [hu]), hkind]

/-- What starts an expression. -/
def StartsExpr (b : UInt8) : Prop :=
  isWhitespace b = false ∧ b ≠ ascii ';' ∧ b ≠ ascii ')'

instance (b : UInt8) : Decidable (StartsExpr b) := inferInstanceAs (Decidable (_ ∧ _ ∧ _))

lemma startsExpr_of_not_endsAtom (hb : endsAtom b = false) : StartsExpr b := by
  simp only [endsAtom, Bool.or_eq_false_iff, decide_eq_false_iff_not] at hb
  exact ⟨hb.1.1.1, hb.2, hb.1.2⟩

/-- A rendered atom is read back by a call of `parse_expr`. -/
lemma parseExpr_atom (fuel : ℕ) {depth : ℕ} (hstop : Stops tail) (hdepth : depth ≤ maxNesting)
    (ha : AtomOk a) (hr : r.rest = renderAtom a ++ tail) :
    (∃ b ∈ (renderAtom a).head?, StartsExpr b) ∧
      ∃ r', parseExpr (fuel + 1) depth r = (.ok (.atom a), r') ∧ Reached r r' tail := by
  obtain ⟨text, kind⟩ := a
  obtain ⟨hu, hkind⟩ := ha
  have hbare : ∀ {k : AtomKind}, renderAtom ⟨text, kind⟩ = text → atomKind text = some k →
      (∀ b ∈ text, endsAtom b = false) → (∃ b ∈ text.head?, b ≠ ascii '"' ∧ b ≠ ascii '|') →
      (∃ b ∈ (renderAtom ⟨text, kind⟩).head?, StartsExpr b) ∧
        ∃ r', parseExpr (fuel + 1) depth r = (.ok (.atom ⟨text, k⟩), r') ∧ Reached r r' tail := by
    rintro k hrender hk hends ⟨b, hb, hb1, hb2⟩
    rw [hrender] at hr ⊢
    cases text with
    | nil => simp at hb
    | cons c text =>
      obtain rfl := Option.some.inj hb
      have hc := hends c List.mem_cons_self
      refine ⟨⟨c, rfl, startsExpr_of_not_endsAtom hc⟩, ?_⟩
      have hparens : c ≠ ascii '(' ∧ c ≠ ascii ')' := by
        simp only [endsAtom, Bool.or_eq_false_iff, decide_eq_false_iff_not] at hc
        exact ⟨hc.1.1.2, hc.1.2⟩
      obtain ⟨r', he, hr'⟩ := parseAtom_reads hstop (by simp) hends hu hk hr
      refine ⟨r', ?_, hr'⟩
      rw [parseExpr, if_neg (not_lt.2 hdepth)]
      simp only [hr, List.cons_append, hparens.1, hparens.2, hb1, hb2, if_false]
      exact he
  cases kind with
  | string =>
    have hrender : renderAtom ⟨text, .string⟩ = quoteString text := rfl
    rw [hrender, quoteString] at hr ⊢
    refine ⟨⟨_, rfl, by decide⟩, ?_⟩
    have hr : r.rest = ascii '"' :: (text.flatMap (fun b => if b = ascii '"' then [b, b] else [b])
        ++ ascii '"' :: tail) := by simpa using hr
    have hb := reached_bump hr
    obtain ⟨r', he, hr'⟩ := stringLoop_reads hstop text [] r.bump hkind hu hb.rest
    refine ⟨r', ?_, hb.trans hr'⟩
    rw [parseExpr, if_neg (not_lt.2 hdepth)]
    simp only [hr]
    exact he
  | symbol =>
    by_cases hp : isPlain text = true
    · have hall := all_of_isSimpleSymbol (isPlain_iff.1 hp).1
      refine hbare (by simp [renderAtom, quoteSymbol, hp]) (atomKind_of_isPlain hp)
        (fun b hb => (isSymbolByte_spec b (hall b hb)).2.1) ?_
      cases text with
      | nil => simp [isPlain] at hp
      | cons b text =>
        obtain ⟨⟨-, h1, -⟩, -, h2, -⟩ := isSymbolByte_spec b (hall b List.mem_cons_self)
        exact ⟨b, rfl, h2, h1⟩
    · have hrender : renderAtom ⟨text, .symbol⟩ = ascii '|' :: text ++ [ascii '|'] := by
        simp [renderAtom, quoteSymbol, hp]
      rw [hrender] at hr ⊢
      refine ⟨⟨_, rfl, by decide⟩, ?_⟩
      have hr : r.rest = ascii '|' :: (text ++ ascii '|' :: tail) := by simpa using hr
      have hb := reached_bump hr
      obtain ⟨r', he, hr'⟩ := quotedLoop_reads text [] r.bump hkind hu hb.rest
      refine ⟨r', ?_, hb.trans hr'⟩
      rw [parseExpr, if_neg (not_lt.2 hdepth)]
      simp only [hr]
      exact he
  | _ => exact hbare rfl hkind.1 hkind.2.1 hkind.2.2

/-! ### Lists -/

/-- What comes between an item and the next. -/
def separator : List SExpr → Text
  | [] => []
  | _ :: _ => [ascii ' ']

lemma renderItems_cons (e : SExpr) (items : List SExpr) :
    renderItems (e :: items) = render e ++ (separator items ++ renderItems items) := by
  cases items with
  | nil => simp [renderItems, separator]
  | cons e' items => rw [renderItems]; rfl

lemma skipTrivia_of_starts (h : ∃ b ∈ r.rest.head?, isWhitespace b = false ∧ b ≠ ascii ';') :
    r.skipTrivia = r := by
  obtain ⟨b, hb, h1, h2⟩ := h
  rw [skipTrivia]
  cases hr : r.rest with
  | nil => rfl
  | cons c rest =>
    rw [hr] at hb
    obtain rfl := Option.some.inj hb
    rw [triviaLoop, if_neg (by simp [h1]), if_neg h2]

/-- At most one blank is skipped in front of an item or the end of the list. -/
lemma skipTrivia_separator {sep : Text} (hsep : sep = [] ∨ sep = [ascii ' '])
    (hr : r.rest = sep ++ text)
    (h : ∃ b ∈ text.head?, isWhitespace b = false ∧ b ≠ ascii ';') :
    Reached r r.skipTrivia text := by
  rcases hsep with rfl | rfl
  · have hr : r.rest = text := hr
    rw [skipTrivia_of_starts (hr ▸ h)]
    exact ⟨hr, rfl, rfl⟩
  · have hb : Reached r r.bump text := reached_bump hr
    have hskip : r.skipTrivia = r.bump.skipTrivia := by
      rw [skipTrivia, hr, skipTrivia, hb.rest]
      rfl
    rw [hskip, skipTrivia_of_starts (hb.rest ▸ h)]
    exact hb

lemma head_render {depth : ℕ} (h : Readable depth e) : ∃ b ∈ (render e).head?, StartsExpr b := by
  cases e with
  | atom a =>
    have hr : (new (renderAtom a)).rest = renderAtom a ++ [] := (List.append_nil _).symm
    exact (parseExpr_atom 0 (by simp [Stops]) h.1 h.2 hr).1
  | list items => exact ⟨_, rfl, by decide⟩

lemma stops_separator (items : List SExpr) (tail : Text) :
    Stops (separator items ++ (renderItems items ++ ascii ')' :: tail)) := by
  intro b hb
  cases items with
  | nil =>
    obtain rfl := Option.some.inj hb
    decide
  | cons e items =>
    obtain rfl := Option.some.inj hb
    decide

mutual

/-- **A rendered expression is read back**, and the reader is behind it then. -/
theorem parseExpr_reads : ∀ (e : SExpr) (fuel depth : ℕ) (r : Reader) (tail : Text),
    Stops tail → Readable depth e → r.rest = render e ++ tail → 2 * r.rest.length < fuel →
    ∃ r', parseExpr fuel depth r = (.ok e, r') ∧ Reached r r' tail
  | .atom a, 0, _, _, _, _, _, _, hfuel => absurd hfuel (Nat.not_lt_zero _)
  | .atom a, fuel + 1, depth, r, tail, hstop, he, hr, _ =>
    (parseExpr_atom fuel hstop he.1 he.2 hr).2
  | .list items, 0, _, _, _, _, _, _, hfuel => absurd hfuel (Nat.not_lt_zero _)
  | .list items, fuel + 1, depth, r, tail, hstop, he, hr, hfuel => by
    have hr : r.rest = ascii '(' :: (renderItems items ++ ascii ')' :: tail) := by
      simpa [render] using hr
    have hb := reached_bump hr
    have hopen : r.openList.rest = [] ++ (renderItems items ++ ascii ')' :: tail) := hb.rest
    have hlen : 2 * r.openList.rest.length + 1 < fuel := by
      rw [hr, List.length_cons] at hfuel
      rw [hopen, List.nil_append]
      omega
    obtain ⟨r', hitems, hrest, hlists, hrec⟩ :=
      parseItems_reads items [] fuel depth r.openList [] tail (.inl rfl) he.2 hopen hlen
    refine ⟨r', ?_, hrest, hlists.trans (Nat.add_sub_cancel _ _), hrec.trans hb.recovery⟩
    rw [parseExpr, if_neg (not_lt.2 he.1)]
    simp only [hr, if_true]
    exact hitems

/-- The items of a rendered list are read back. -/
theorem parseItems_reads : ∀ (items : List SExpr) (acc : List SExpr) (fuel depth : ℕ)
    (r : Reader) (sep tail : Text), sep = [] ∨ sep = [ascii ' '] →
    ReadableItems (depth + 1) items →
    r.rest = sep ++ (renderItems items ++ ascii ')' :: tail) → 2 * r.rest.length + 1 < fuel →
    ∃ r', parseItems fuel depth acc r = (.ok (.list (acc ++ items)), r') ∧ r'.rest = tail ∧
      r'.openLists = r.openLists - 1 ∧ r'.recovery = r.recovery
  | _, _, 0, _, _, _, _, _, _, _, hfuel => absurd hfuel (Nat.not_lt_zero _)
  | [], acc, fuel + 1, depth, r, sep, tail, hsep, hitems, hr, hfuel => by
    have hskip : Reached r r.skipTrivia (ascii ')' :: tail) :=
      skipTrivia_separator hsep hr ⟨_, rfl, by decide⟩
    have hb := reached_bump hskip.rest
    refine ⟨r.skipTrivia.closeList, ?_, hb.rest, ?_, hb.recovery.trans hskip.recovery⟩
    · rw [parseItems]
      simp only [hskip.rest, if_true, List.append_nil]
    · show r.skipTrivia.openLists - 1 = r.openLists - 1
      rw [hskip.openLists]
  | e :: items, acc, fuel + 1, depth, r, sep, tail, hsep, hitems, hr, hfuel => by
    obtain ⟨he, hitems⟩ := hitems
    obtain ⟨b, hb, hws, hsemi, hclose⟩ := head_render he
    rw [renderItems_cons, List.append_assoc, List.append_assoc] at hr
    obtain ⟨rest, hrest⟩ : ∃ rest, render e = b :: rest := by
      cases hre : render e with
      | nil => simp [hre] at hb
      | cons c rest =>
        rw [hre] at hb
        exact ⟨rest, by rw [Option.some.inj hb]⟩
    have hskip := skipTrivia_separator hsep hr ⟨b, by rw [hrest]; rfl, hws, hsemi⟩
    have hlen : r.skipTrivia.rest.length ≤ r.rest.length := by
      rw [hskip.rest, hr]
      simp only [List.length_append]
      omega
    obtain ⟨r₁, he₁, hr₁⟩ := parseExpr_reads e fuel (depth + 1) r.skipTrivia _
      (stops_separator items tail) he hskip.rest (by omega)
    have hless : r₁.rest.length < r.skipTrivia.rest.length := by
      rw [hr₁.rest, hskip.rest, hrest]
      simp only [List.length_append, List.length_cons]
      omega
    obtain ⟨r', hr', h1, h2, h3⟩ := parseItems_reads items (acc ++ [e]) fuel depth r₁
      (separator items) tail (by cases items <;> simp [separator]) hitems hr₁.rest (by omega)
    have hboth := hskip.trans hr₁
    refine ⟨r', ?_, h1, h2.trans (by rw [hboth.openLists]), h3.trans hboth.recovery⟩
    rw [parseItems]
    simp only [hskip.rest, hrest, List.cons_append, hclose, if_false]
    rw [he₁]
    simpa using hr'

end

/-! ### The calls of `next` -/

/-- What `next` returns can be read. -/
lemma next_ok (h : r.next = (.ok (some e), r')) : Readable 0 e := by
  rw [next] at h
  split at h
  · exact absurd (Prod.mk.inj h).1 (by simp)
  · split at h
    · next e' r₁ he =>
      obtain rfl := Option.some.inj (Except.ok.inj (Prod.mk.inj h).1)
      exact (parse_ok _).1 _ _ _ _ he
    · split at h <;> exact absurd (Prod.mk.inj h).1 (by simp)

/-- At the end of the input nothing is returned. -/
lemma next_end (hr : r.rest = []) (hrec : r.recovery = none) : r.next.1 = .ok none := by
  have hrecover : r.recoverPending = r := by rw [recoverPending, hrec]
  have hskip : r.skipTrivia = r := by rw [skipTrivia, hr]; rfl
  rw [next, hrecover, hskip, if_pos (by simp [hr])]

/-- A fresh reader on a rendered expression returns it, and then reaches the end. -/
lemma next_reads (he : Readable 0 e) : (new (render e)).next.1 = .ok (some e) ∧
    (new (render e)).next.2.next.1 = .ok none := by
  obtain ⟨b, hb, hws, hsemi, -⟩ := head_render he
  have hskip : (new (render e)).skipTrivia = new (render e) :=
    skipTrivia_of_starts ⟨b, hb, hws, hsemi⟩
  obtain ⟨r', hr', hreach⟩ := parseExpr_reads e (2 * (new (render e)).rest.length + 1) 0
    (new (render e)) [] (by simp [Stops]) he (List.append_nil _).symm (Nat.lt_succ_self _)
  have hne : (new (render e)).rest.isEmpty = false := by
    show (render e).isEmpty = false
    cases hre : render e with
    | nil => simp [hre] at hb
    | cons c rest => rfl
  have hnext : (new (render e)).next = (.ok (some e), r') := by
    rw [next, show (new (render e)).recoverPending = new (render e) from rfl, hskip, hr',
      if_neg (by simp [hne])]
  rw [hnext]
  exact ⟨rfl, next_end hreach.rest hreach.recovery⟩

/-- **Rendering undoes reading.**  Whenever `next` returns an expression, a fresh reader on its
rendering returns the same expression and then reaches the end; and expressions that are items
of returned lists read back from the answer of `get-assertions`. -/
theorem next_render :
    (∀ (r r' : Reader) (e : SExpr), r.next = (.ok (some e), r') →
      ((new (render e)).next.1 = .ok (some e) ∧ (new (render e)).next.2.next.1 = .ok none)) ∧
    ∀ assertions : List SExpr,
      (∀ e ∈ assertions, ∃ (r r' : Reader) (items : List SExpr),
        r.next = (.ok (some (.list items)), r') ∧ e ∈ items) →
      (new (getAssertions assertions)).next.1 = .ok (some (.list assertions)) ∧
        (new (getAssertions assertions)).next.2.next.1 = .ok none := by
  refine ⟨fun r r' e h => next_reads (next_ok h), fun assertions h => ?_⟩
  have hitems : ReadableItems 1 assertions := by
    rw [readableItems_iff]
    intro e he
    obtain ⟨r, r', items, hr, hmem⟩ := h e he
    exact readableItems_iff.1 (next_ok hr).2 e hmem
  exact next_reads (e := .list assertions) ⟨Nat.zero_le _, hitems⟩

/-- The command `(assert |a b|)`. -/
def assertQuoted : SExpr :=
  .list [.atom ⟨bytesOf "assert", .reserved⟩, .atom ⟨bytesOf "a b", .symbol⟩]

/-- The command is rendered and read again, and so is the answer of `get-assertions`. -/
theorem next_render_assertQuoted :
    (new (render assertQuoted)).next.1 = .ok (some assertQuoted) ∧
      (new (getAssertions [.atom ⟨bytesOf "a b", .symbol⟩])).next.1 =
        .ok (some (.list [.atom ⟨bytesOf "a b", .symbol⟩])) :=
  ⟨(next_render.1 (new (bytesOf "(assert |a b|)")) _ assertQuoted rfl).1,
    (next_render.2 [.atom ⟨bytesOf "a b", .symbol⟩] fun e he => ⟨new (bytesOf "(assert |a b|)"), _,
      _, rfl, by rw [List.mem_singleton.1 he]; exact .tail _ (.head _)⟩).1⟩

end Reader

end Satrap.Smt
