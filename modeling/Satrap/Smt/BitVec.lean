/-
# Bit-vector terms

The bit-vector operators of `bitvec.rs`, each a Boolean circuit built from the simplifying
connectives of the term store.  Words are lists of Boolean terms, least significant first; a
literal is the list of its characters.
-/
import Satrap.Smt.Theory

namespace Satrap.Smt

open TermM

/-! ### Limits -/

/-- `MAX_QUADRATIC_LOWERING_WORK`. -/
def maxQuadraticLoweringWork : ℕ := 16000000

/-- `check_quadratic`. -/
def checkQuadratic (width : ℕ) (operation : String) : TermM Unit :=
  if maxQuadraticLoweringWork < width * width then
    fail s!"`{operation}` at width {width} exceeds the current Boolean-lowering work limit"
  else pure ()

/-- `require_same_bv_width`. -/
def requireSameBvWidth (left right : TermId) (operation : String) : TermM ℕ := do
  let leftWidth ← bitvecWidth left
  let rightWidth ← bitvecWidth right
  if leftWidth = rightWidth then pure leftWidth
  else fail s!"`{operation}` operands have widths {leftWidth} and {rightWidth}"

/-- `Vec::resize`. -/
def resize (bits : List TermId) (width : ℕ) (fill : TermId) : List TermId :=
  (bits ++ List.replicate (width - bits.length) fill).take width

/-- The sign of a word; words are nonempty. -/
def signOf (bits : List TermId) : TermId := bits.getLastD falseTerm

/-! ### Literals -/

/-- `bitvec_from_binary`. -/
def bitvecFromBinary (literal : List Char) : TermM TermId := do
  match literal with
  | '#' :: 'b' :: digits =>
    if digits.isEmpty || !digits.all (fun c => c = '0' || c = '1') then
      fail "invalid binary bit-vector literal"
    else
      checkIndex digits.length "bit-vector literal is too wide"
      checkWidth digits.length
      makeBitvec (digits.reverse.map fun c => boolConstant (c = '1'))
  | _ => fail "binary bit-vector literal must start with `#b`"

/-- `is_ascii_hexdigit`. -/
def isHexDigit (c : Char) : Bool :=
  c.isDigit || (decide ('a' ≤ c) && decide (c ≤ 'f')) || (decide ('A' ≤ c) && decide (c ≤ 'F'))

/-- The value of a hexadecimal digit. -/
def hexDigitValue (c : Char) : ℕ :=
  if c.isDigit then c.toNat - '0'.toNat
  else if 'a' ≤ c ∧ c ≤ 'f' then c.toNat - 'a'.toNat + 10
  else c.toNat - 'A'.toNat + 10

/-- `bitvec_from_hexadecimal`. -/
def bitvecFromHexadecimal (literal : List Char) : TermM TermId := do
  match literal with
  | '#' :: 'x' :: digits =>
    if digits.isEmpty || !digits.all isHexDigit then fail "invalid hexadecimal bit-vector literal"
    else
      checkIndex (digits.length * 4) "bit-vector literal is too wide"
      checkWidth (digits.length * 4)
      makeBitvec (digits.reverse.flatMap fun c =>
        (List.range 4).map fun index => boolConstant ((hexDigitValue c).testBit index))
  | _ => fail "hexadecimal bit-vector literal must start with `#x`"

/-- The inner loop of `bitvec_from_decimal`: the digits are halved, most significant first. -/
def halveDigits : ℕ → List ℕ → List ℕ × ℕ
  | carry, [] => ([], carry)
  | carry, digit :: rest =>
    let current := carry * 10 + digit
    let (halved, last) := halveDigits (current % 2) rest
    (current / 2 :: halved, last)

/-- The number that decimal digits denote, most significant first. -/
def decimalValue (digits : List ℕ) : ℕ := digits.foldl (fun value digit => 10 * value + digit) 0

/-- The outer loop: the bits of a decimal number, least significant first, at most `rounds` of
them. -/
def decimalBits : ℕ → List ℕ → List Bool
  | 0, _ => []
  | rounds + 1, digits =>
    if digits.any fun digit => decide (digit ≠ 0) then
      let (halved, carry) := halveDigits 0 digits
      decide (carry ≠ 0) :: decimalBits rounds (halved.dropWhile fun digit => decide (digit = 0))
    else []

/-- `bitvec_from_decimal`.  A number has fewer than four bits for each decimal digit. -/
def bitvecFromDecimal (decimal : List Char) (width : ℕ) : TermM TermId := do
  checkWidth width
  if decimal.isEmpty || !decimal.all Char.isDigit then fail "invalid decimal bit-vector value"
  else if 1 < decimal.length ∧ decimal.head? = some '0' then
    fail "decimal bit-vector value is not a valid numeral"
  else
    let bits := decimalBits (4 * decimal.length) (decimal.map fun c => c.toNat - '0'.toNat)
    if width < bits.length then fail s!"decimal value does not fit in a {width}-bit vector"
    else makeBitvec (resize (bits.map boolConstant) width falseTerm)

/-! ### Circuits -/

/-- The loop of `add_bits`. -/
def addBitsFrom (carry : TermId) : List TermId → List TermId → TermM (List TermId × TermId)
  | left :: lefts, right :: rights => do
    let pairSum ← mkXor left right
    let sum ← mkXor pairSum carry
    let pairCarry ← mkAnd [left, right]
    let propagated ← mkAnd [pairSum, carry]
    let carry ← mkOr [pairCarry, propagated]
    let (sums, carry) ← addBitsFrom carry lefts rights
    pure (sum :: sums, carry)
  | _, _ => pure ([], carry)

/-- `add_bits`. -/
def addBits (left right : List TermId) : TermM (List TermId × TermId) :=
  addBitsFrom (boolConstant false) left right

/-- `negate_bits`. -/
def negateBits (bits : List TermId) : TermM (List TermId) := do
  let inverted ← collect mkNot bits
  let one := (List.replicate bits.length (boolConstant false)).set 0 (boolConstant true)
  pure (← addBits inverted one).1

/-- `subtract_bits`. -/
def subtractBits (left right : List TermId) : TermM (List TermId) := do
  let negated ← negateBits right
  pure (← addBits left negated).1

/-- One partial product of `multiply_bits`. -/
def partialProduct (rightBit : TermId) (rightIndex outputWidth : ℕ) :
    List (TermId × ℕ) → List TermId → TermM (List TermId)
  | [], products => pure products
  | (leftBit, leftIndex) :: rest, products => do
    let output := leftIndex + rightIndex
    if outputWidth ≤ output then pure products
    else
      let product ← mkAnd [leftBit, rightBit]
      partialProduct rightBit rightIndex outputWidth rest (products.set output product)

/-- `multiply_bits`. -/
def multiplyBits (left right : List TermId) (outputWidth : ℕ) : TermM (List TermId) :=
  loop (fun result entry => do
    let products ← partialProduct entry.1 entry.2 outputWidth left.zipIdx
      (List.replicate outputWidth falseTerm)
    pure (← addBits result products).1)
    (List.replicate outputWidth falseTerm) (right.zipIdx.take outputWidth)

/-- The loop of `unsigned_less_than_bits`, most significant bits first. -/
def lessThanFrom (less equal : TermId) : List (TermId × TermId) → TermM TermId
  | [] => pure less
  | (left, right) :: rest => do
    let notLeft ← mkNot left
    let leftLess ← mkAnd [notLeft, right]
    let decisive ← mkAnd [equal, leftLess]
    let less ← mkOr [less, decisive]
    let bitEqual ← mkIff left right
    let equal ← mkAnd [equal, bitEqual]
    lessThanFrom less equal rest

/-- `unsigned_less_than_bits`. -/
def unsignedLessThanBits (left right : List TermId) : TermM TermId :=
  lessThanFrom (boolConstant false) (boolConstant true) (left.zip right).reverse

/-- `select_bits`. -/
def selectBits (condition : TermId) (thenBits elseBits : List TermId) : TermM (List TermId) :=
  collect (fun pair => mkIte condition pair.1 pair.2) (thenBits.zip elseBits)

/-- `absolute_bits`. -/
def absoluteBits (bits : List TermId) (sign : TermId) : TermM (List TermId) := do
  let negated ← negateBits bits
  selectBits sign negated bits

/-- `is_zero_bits`. -/
def isZeroBits (bits : List TermId) : TermM TermId := do
  let zeroBits ← collect mkNot bits
  mkAnd zeroBits

/-- The loop of `unsigned_divide_bits` over the bits of the dividend, most significant first: each
is shifted into the remainder, and decides a bit of the quotient. -/
def divideFrom (divisor : List TermId) :
    List TermId → List TermId → List TermId → TermM (List TermId × List TermId)
  | [], quotient, remainder => pure (quotient, remainder)
  | bit :: rest, quotient, remainder => do
    let shifted := bit :: remainder.dropLast
    let less ← unsignedLessThanBits shifted divisor
    let greaterOrEqual ← mkNot less
    let subtracted ← subtractBits shifted divisor
    let remainder ← selectBits greaterOrEqual subtracted shifted
    divideFrom divisor rest (greaterOrEqual :: quotient) remainder

/-- `unsigned_divide_bits`: the quotient and the remainder. -/
def unsignedDivideBits (dividend divisor : List TermId) :
    TermM (List TermId × List TermId) := do
  checkIndex dividend.length "bit-vector width exceeds u32"
  checkQuadratic dividend.length "bit-vector division"
  let (quotient, remainder) ← divideFrom (divisor ++ [falseTerm]) dividend.reverse []
    (List.replicate (dividend.length + 1) falseTerm)
  pure (quotient, remainder.dropLast)

/-! ### Bitwise and structural operators -/

inductive Bitwise where
  | and | or | xor
deriving DecidableEq

namespace Bitwise

/-- `Bitwise::name`. -/
def name : Bitwise → String
  | and => "bvand"
  | or => "bvor"
  | xor => "bvxor"

/-- The operation on two bits. -/
def onBits : Bitwise → TermId → TermId → TermM TermId
  | and, left, right => mkAnd [left, right]
  | or, left, right => mkOr [left, right]
  | xor, left, right => mkXor left right

end Bitwise

/-- `bvnot`. -/
def bvnot (term : TermId) : TermM TermId := do
  let bits ← bitvecBits term
  makeBitvec (← collect mkNot bits)

/-- `fold_bitwise`. -/
def foldBitwise (terms : List TermId) (operation : Bitwise) : TermM TermId := do
  match terms with
  | first :: second :: rest =>
    let width ← bitvecWidth first
    let bits ← bitvecBits first
    let result ← loop (fun result term => do
      if (← bitvecWidth term) ≠ width then
        fail s!"all arguments to `{operation.name}` must have the same bit-vector width"
      else
        let right ← bitvecBits term
        collect (fun pair => operation.onBits pair.1 pair.2) (result.zip right))
      bits (second :: rest)
    makeBitvec result
  | _ => fail s!"`{operation.name}` expects at least two arguments"

/-- `bvand`. -/
def bvand (terms : List TermId) : TermM TermId := foldBitwise terms .and

/-- `bvor`. -/
def bvor (terms : List TermId) : TermM TermId := foldBitwise terms .or

/-- `bvxor`. -/
def bvxor (terms : List TermId) : TermM TermId := foldBitwise terms .xor

/-- `bvnand`. -/
def bvnand (left right : TermId) : TermM TermId := do bvnot (← bvand [left, right])

/-- `bvnor`. -/
def bvnor (left right : TermId) : TermM TermId := do bvnot (← bvor [left, right])

/-- `bvxnor`. -/
def bvxnor (left right : TermId) : TermM TermId := do bvnot (← bvxor [left, right])

/-- `bvcomp`. -/
def bvcomp (depth : ℕ) (left right : TermId) : TermM TermId := do
  makeBitvec [← equal depth [left, right]]

/-- `concat`. -/
def concat (left right : TermId) : TermM TermId := do
  let leftWidth ← bitvecWidth left
  let rightWidth ← bitvecWidth right
  checkIndex (leftWidth + rightWidth) "concatenated bit-vector width overflow"
  checkWidth (leftWidth + rightWidth)
  let low ← bitvecBits right
  let high ← bitvecBits left
  makeBitvec (low ++ high)

/-- `extract`. -/
def extract (term : TermId) (high low : ℕ) : TermM TermId := do
  let width ← bitvecWidth term
  if high < low ∨ width ≤ high then
    fail s!"invalid extraction range [{high}:{low}] for width {width}"
  else
    let bits ← bitvecBits term
    makeBitvec ((bits.take (high + 1)).drop low)

/-- `repeat`. -/
def repeatWord (term : TermId) (count : ℕ) : TermM TermId := do
  if count = 0 then fail "bit-vector repeat count must be positive"
  else
    let width ← bitvecWidth term
    checkIndex (width * count) "repeated bit-vector width overflow"
    checkWidth (width * count)
    let input ← bitvecBits term
    makeBitvec (List.replicate count input).flatten

/-- `zero_extend`. -/
def zeroExtend (term : TermId) (amount : ℕ) : TermM TermId := do
  let width ← bitvecWidth term
  checkIndex (width + amount) "zero-extended bit-vector width overflow"
  checkWidth (width + amount)
  let bits ← bitvecBits term
  makeBitvec (resize bits (width + amount) (boolConstant false))

/-- `sign_extend`. -/
def signExtend (term : TermId) (amount : ℕ) : TermM TermId := do
  let width ← bitvecWidth term
  checkIndex (width + amount) "sign-extended bit-vector width overflow"
  checkWidth (width + amount)
  let bits ← bitvecBits term
  makeBitvec (resize bits (width + amount) (bits.getD (width - 1) falseTerm))

/-- The bits of a rotated word: the bit at an index goes to the index that `place` gives. -/
def rotated (input : List TermId) (width : ℕ) (place : ℕ → ℕ) : List TermId :=
  input.zipIdx.foldl (fun bits entry => bits.set (place entry.2 % width) entry.1)
    (List.replicate width (boolConstant false))

/-- `rotate_left`. -/
def rotateLeft (term : TermId) (amount : ℕ) : TermM TermId := do
  let width ← bitvecWidth term
  let amount := amount % width
  let input ← bitvecBits term
  makeBitvec (rotated input width fun index => index + amount)

/-- `rotate_right`. -/
def rotateRight (term : TermId) (amount : ℕ) : TermM TermId := do
  let width ← bitvecWidth term
  let amount := amount % width
  let input ← bitvecBits term
  makeBitvec (rotated input width fun index => index + width - amount)

/-! ### Arithmetic operators -/

/-- `bvneg`. -/
def bvneg (term : TermId) : TermM TermId := do
  let bits ← bitvecBits term
  makeBitvec (← negateBits bits)

/-- `bvadd`. -/
def bvadd (terms : List TermId) : TermM TermId := do
  match terms with
  | first :: second :: rest =>
    let width ← bitvecWidth first
    let bits ← bitvecBits first
    let result ← loop (fun result term => do
      if (← bitvecWidth term) ≠ width then fail "all arguments to `bvadd` must have the same width"
      else
        let right ← bitvecBits term
        pure (← addBits result right).1) bits (second :: rest)
    makeBitvec result
  | _ => fail "`bvadd` expects at least two arguments"

/-- `bvsub`. -/
def bvsub (left right : TermId) : TermM TermId := do
  let _ ← requireSameBvWidth left right "bvsub"
  let left ← bitvecBits left
  let right ← bitvecBits right
  makeBitvec (← subtractBits left right)

/-- `bvmul`. -/
def bvmul (terms : List TermId) : TermM TermId := do
  match terms with
  | first :: second :: rest =>
    let width ← bitvecWidth first
    checkQuadratic width "bvmul"
    let bits ← bitvecBits first
    let result ← loop (fun result term => do
      if (← bitvecWidth term) ≠ width then fail "all arguments to `bvmul` must have the same width"
      else
        let right ← bitvecBits term
        multiplyBits result right width) bits (second :: rest)
    makeBitvec result
  | _ => fail "`bvmul` expects at least two arguments"

/-- `bvudiv`. -/
def bvudiv (dividend divisor : TermId) : TermM TermId := do
  let _ ← requireSameBvWidth dividend divisor "bvudiv"
  let dividend ← bitvecBits dividend
  let divisor ← bitvecBits divisor
  let (quotient, _) ← unsignedDivideBits dividend divisor
  makeBitvec quotient

/-- `bvurem`. -/
def bvurem (dividend divisor : TermId) : TermM TermId := do
  let _ ← requireSameBvWidth dividend divisor "bvurem"
  let dividend ← bitvecBits dividend
  let divisor ← bitvecBits divisor
  let (_, remainder) ← unsignedDivideBits dividend divisor
  makeBitvec remainder

/-- `bvsdiv`. -/
def bvsdiv (dividend divisor : TermId) : TermM TermId := do
  let _ ← requireSameBvWidth dividend divisor "bvsdiv"
  let dividend ← bitvecBits dividend
  let divisor ← bitvecBits divisor
  let absDividend ← absoluteBits dividend (signOf dividend)
  let absDivisor ← absoluteBits divisor (signOf divisor)
  let (quotient, _) ← unsignedDivideBits absDividend absDivisor
  let negative ← mkXor (signOf dividend) (signOf divisor)
  let negated ← negateBits quotient
  makeBitvec (← selectBits negative negated quotient)

/-- `bvsrem`. -/
def bvsrem (dividend divisor : TermId) : TermM TermId := do
  let _ ← requireSameBvWidth dividend divisor "bvsrem"
  let dividend ← bitvecBits dividend
  let divisor ← bitvecBits divisor
  let absDividend ← absoluteBits dividend (signOf dividend)
  let absDivisor ← absoluteBits divisor (signOf divisor)
  let (_, remainder) ← unsignedDivideBits absDividend absDivisor
  let negated ← negateBits remainder
  makeBitvec (← selectBits (signOf dividend) negated remainder)

/-- `bvsmod`. -/
def bvsmod (dividend divisor : TermId) : TermM TermId := do
  let _ ← requireSameBvWidth dividend divisor "bvsmod"
  let dividend ← bitvecBits dividend
  let divisor ← bitvecBits divisor
  let dividendSign := signOf dividend
  let divisorSign := signOf divisor
  let absDividend ← absoluteBits dividend dividendSign
  let absDivisor ← absoluteBits divisor divisorSign
  let (_, unsignedRemainder) ← unsignedDivideBits absDividend absDivisor
  let remainderIsZero ← isZeroBits unsignedRemainder
  let negatedRemainder ← negateBits unsignedRemainder
  let negativePositive := (← addBits negatedRemainder divisor).1
  let positiveNegative := (← addBits unsignedRemainder divisor).1
  let notDividendSign ← mkNot dividendSign
  let notDivisorSign ← mkNot divisorSign
  let bothPositive ← mkAnd [notDividendSign, notDivisorSign]
  let dividendNegative ← mkAnd [dividendSign, notDivisorSign]
  let dividendPositive ← mkAnd [notDividendSign, divisorSign]
  let result ← selectBits dividendPositive positiveNegative negatedRemainder
  let result ← selectBits dividendNegative negativePositive result
  let result ← selectBits bothPositive unsignedRemainder result
  let result ← selectBits remainderIsZero unsignedRemainder result
  makeBitvec result

/-! ### Shifts -/

inductive Shift where
  | left | logicalRight | arithmeticRight
deriving DecidableEq

namespace Shift

/-- `Shift::name`. -/
def name : Shift → String
  | left => "bvshl"
  | logicalRight => "bvlshr"
  | arithmeticRight => "bvashr"

end Shift

/-- `1_usize.checked_shl`, on a machine with 64-bit words. -/
def checkedShl (index : ℕ) : Option ℕ := if index < 64 then some (2 ^ index) else none

/-- The word shifted by a power of two that is less than the width. -/
def shifted (direction : Shift) (fill : TermId) (width shift : ℕ) (bits : List TermId) :
    List TermId :=
  (List.range width).map fun output =>
    match direction with
    | .left => if output < shift then falseTerm else bits.getD (output - shift) falseTerm
    | .logicalRight | .arithmeticRight =>
      if output + shift < width then bits.getD (output + shift) falseTerm else fill

/-- The candidate for one bit of the amount. -/
def shiftCandidate (direction : Shift) (fill : TermId) (width index : ℕ) (bits : List TermId) :
    List TermId :=
  match (checkedShl index).filter fun shift => decide (shift < width) with
  | some shift => shifted direction fill width shift bits
  | none => List.replicate width fill

/-- `variable_shift`. -/
def variableShift (value amount : TermId) (direction : Shift) : TermM TermId := do
  let width ← requireSameBvWidth value amount direction.name
  let selectors ← bitvecBits amount
  let bits ← bitvecBits value
  let fill := if direction = .arithmeticRight then signOf bits else falseTerm
  let result ← loop (fun result entry =>
    selectBits entry.1 (shiftCandidate direction fill width entry.2 result) result)
    bits selectors.zipIdx
  makeBitvec result

/-- `bvshl`. -/
def bvshl (value amount : TermId) : TermM TermId := variableShift value amount .left

/-- `bvlshr`. -/
def bvlshr (value amount : TermId) : TermM TermId := variableShift value amount .logicalRight

/-- `bvashr`. -/
def bvashr (value amount : TermId) : TermM TermId := variableShift value amount .arithmeticRight

/-! ### Comparisons -/

/-- `bvult`. -/
def bvult (left right : TermId) : TermM TermId := do
  let _ ← requireSameBvWidth left right "bvult"
  let left ← bitvecBits left
  let right ← bitvecBits right
  unsignedLessThanBits left right

/-- `bvule`. -/
def bvule (left right : TermId) : TermM TermId := do mkNot (← bvult right left)

/-- `bvugt`. -/
def bvugt (left right : TermId) : TermM TermId := bvult right left

/-- `bvuge`. -/
def bvuge (left right : TermId) : TermM TermId := bvule right left

/-- `bvslt`. -/
def bvslt (left right : TermId) : TermM TermId := do
  let _ ← requireSameBvWidth left right "bvslt"
  let left ← bitvecBits left
  let right ← bitvecBits right
  let signsDiffer ← mkXor (signOf left) (signOf right)
  let unsigned ← unsignedLessThanBits left right
  mkIte signsDiffer (signOf left) unsigned

/-- `bvsle`. -/
def bvsle (left right : TermId) : TermM TermId := do mkNot (← bvslt right left)

/-- `bvsgt`. -/
def bvsgt (left right : TermId) : TermM TermId := bvslt right left

/-- `bvsge`. -/
def bvsge (left right : TermId) : TermM TermId := bvsle right left

/-! ### Overflow predicates -/

/-- `bvnego`. -/
def bvnego (term : TermId) : TermM TermId := do
  let bits ← bitvecBits term
  let lowZero ← isZeroBits bits.dropLast
  mkAnd [signOf bits, lowZero]

/-- `bvuaddo`. -/
def bvuaddo (left right : TermId) : TermM TermId := do
  let _ ← requireSameBvWidth left right "bvuaddo"
  let left ← bitvecBits left
  let right ← bitvecBits right
  pure (← addBits left right).2

/-- `bvsaddo`. -/
def bvsaddo (left right : TermId) : TermM TermId := do
  let _ ← requireSameBvWidth left right "bvsaddo"
  let left ← bitvecBits left
  let right ← bitvecBits right
  let result := (← addBits left right).1
  let sameInputs ← mkIff (signOf left) (signOf right)
  let changedSign ← mkXor (signOf left) (signOf result)
  mkAnd [sameInputs, changedSign]

/-- `bvumulo`. -/
def bvumulo (left right : TermId) : TermM TermId := do
  let width ← requireSameBvWidth left right "bvumulo"
  checkQuadratic width "bvumulo"
  checkIndex (width * 2) "full multiplication width overflow"
  checkWidth (width * 2)
  let left ← bitvecBits left
  let right ← bitvecBits right
  let product ← multiplyBits (resize left (width * 2) (boolConstant false))
    (resize right (width * 2) (boolConstant false)) (width * 2)
  mkNot (← isZeroBits (product.drop width))

/-- `bvsmulo`. -/
def bvsmulo (left right : TermId) : TermM TermId := do
  let width ← requireSameBvWidth left right "bvsmulo"
  checkQuadratic width "bvsmulo"
  checkIndex (width * 2) "full multiplication width overflow"
  checkWidth (width * 2)
  let left ← bitvecBits left
  let right ← bitvecBits right
  let product ← multiplyBits (resize left (width * 2) (signOf left))
    (resize right (width * 2) (signOf right)) (width * 2)
  let resultSign := product.getD (width - 1) falseTerm
  let highMatches ← collect (fun bit => mkIff bit resultSign) (product.drop width)
  mkNot (← mkAnd highMatches)

/-- `bvusubo`. -/
def bvusubo (left right : TermId) : TermM TermId := bvult left right

/-- `bvssubo`. -/
def bvssubo (left right : TermId) : TermM TermId := do
  let _ ← requireSameBvWidth left right "bvssubo"
  let left ← bitvecBits left
  let right ← bitvecBits right
  let result ← subtractBits left right
  let differentInputs ← mkXor (signOf left) (signOf right)
  let changedSign ← mkXor (signOf left) (signOf result)
  mkAnd [differentInputs, changedSign]

/-- `bvsdivo`. -/
def bvsdivo (left right : TermId) : TermM TermId := do
  let _ ← requireSameBvWidth left right "bvsdivo"
  let minimum ← bvnego left
  let right ← bitvecBits right
  let allOnes ← collect (fun bit => mkIff bit (boolConstant true)) right
  let negativeOne ← mkAnd allOnes
  mkAnd [minimum, negativeOne]

end Satrap.Smt
