import AlgoFrontEnd.Number.Power

/-! Values of digit strings, and natural numbers rounded to binary64. -/
namespace AlgoFrontEnd.Number

def digitValue (c : Char) : Nat := c.toNat - '0'.toNat

/-- The value of decimal digits, most significant first. -/
def ofDigits (digits : List Char) : Nat :=
  digits.foldl (fun value c => value * 10 + digitValue c) 0

/-- The quotient by a power of two, to nearest; a half goes to the even neighbour. -/
def roundShift (n shift : Nat) : Nat :=
  let divisor := twoTo shift
  let quotient := n / divisor
  let twice := 2 * (n % divisor)
  if twice < divisor || (twice == divisor && quotient % 2 == 0) then quotient
  else quotient + 1

/-- Encoding of a natural number as binary64. A significand that rounds up to the next power
of two carries into the exponent field. -/
def binary64Bits (n : Nat) : Nat :=
  if n = 0 then 0
  else
    let exponent := n.log2
    let significand :=
      if exponent ≤ 52 then n * twoTo (52 - exponent) else roundShift n (exponent - 52)
    (exponent + 1023) * twoTo 52 + (significand - twoTo 52)

/-- The nearest binary64 value, none when the number rounds past the largest finite one. -/
def toBinary64? (n : Nat) : Option Float :=
  let bits := binary64Bits n
  if bits < 2047 * twoTo 52 then some (Float.ofBits bits.toUInt64) else none

/-- Why a numeral denotes no value that can be held. -/
inductive Limit where
  | tooManyDigits (count : Nat)
  | tooLarge
  deriving DecidableEq, Repr

/-- An integer literal may have this many digits, leading zeros included. -/
def maxIntegerDigits : Nat := 4300

def integer (digits : List Char) : Except Limit Int :=
  if digits.length ≤ maxIntegerDigits then .ok (ofDigits digits)
  else .error (.tooManyDigits digits.length)

/-- The value of fraction digits: from the last digit backwards, each step divides what is
behind the digit by ten and adds it, in binary64. -/
def fraction (digits : List Char) : Float :=
  digits.foldr (fun c behind => behind / 10 + Float.ofNat (digitValue c)) 0.0 / 10

/-- A literal with digits on either side of its point: the whole part is exact until it is
rounded once, and the sum with the fraction is rounded again. -/
def real (whole behind : List Char) : Except Limit Float :=
  match toBinary64? (ofDigits whole) with
  | some value => .ok (value + fraction behind)
  | none => .error .tooLarge

/-- The stretches between points, one more than there are points. -/
def parts : List Char → List (List Char)
  | [] => [[]]
  | '.' :: rest => [] :: parts rest
  | c :: rest =>
    match parts rest with
    | [] => [[c]]
    | first :: more => (c :: first) :: more

def Limit.message : Limit → String
  | tooManyDigits count =>
    s!"Exceeds the limit ({maxIntegerDigits} digits) for integer string conversion: " ++
      s!"value has {count} digits; use sys.set_int_max_str_digits() to increase the limit"
  | tooLarge => "int too large to convert to float"

end AlgoFrontEnd.Number
