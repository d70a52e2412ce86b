import AlgoFrontEnd.Number.Power

/-! The shortest decimal text that reads back as a given binary64 value. -/
namespace AlgoFrontEnd.Number

/-- A positive binary64 value as an exact fraction, with the ends of the interval of reals that
round to it. All three share one denominator. -/
structure Interval where
  low : Nat
  value : Nat
  high : Nat
  denominator : Nat
  /-- Whether the two ends round to the value as well. -/
  closed : Bool

/-- Reads the exponent and significand fields; the sign is ignored. The gap below a power of two
is half the gap above it, except at the least exponent. -/
def Interval.ofBits (bits : Nat) : Interval :=
  let exponent := bits / twoTo 52 % 2048
  let trailing := bits % twoTo 52
  let significand := if exponent = 0 then trailing else trailing + twoTo 52
  let power := max exponent 1
  let gapBelow := if trailing = 0 && exponent > 1 then 1 else 2
  let unit := twoTo (power - 1077)
  { low := (4 * significand - gapBelow) * unit
    value := 4 * significand * unit
    high := (4 * significand + 2) * unit
    denominator := twoTo (1077 - power)
    closed := significand % 2 = 0 }

def Interval.contains (i : Interval) (numerator denominator : Nat) : Bool :=
  let x := numerator * i.denominator
  if i.closed then i.low * denominator ≤ x && x ≤ i.high * denominator
  else i.low * denominator < x && x < i.high * denominator

/-- Position of the decimal point relative to the first significant digit. -/
def Interval.point (i : Interval) : Int :=
  let scaled := i.value * tenTo 400 / i.denominator
  ((Nat.toDigits 10 scaled).length : Int) - 400

/-- The point of the grid with spacing `10 ^ spacing` that is nearest to the value, if one of the
value's two neighbours on that grid reads back. A tie goes to the even point. -/
def Interval.onGrid? (i : Interval) (spacing : Int) : Option Nat :=
  let up := tenTo spacing.toNat
  let down := tenTo (-spacing).toNat
  let numerator := i.value * down
  let denominator := i.denominator * up
  let below := numerator / denominator
  let above := below + 1
  let belowIn := i.contains (below * up) down
  let aboveIn := i.contains (above * up) down
  let twice := 2 * (numerator % denominator)
  let belowNearer := twice < denominator || (twice == denominator && below % 2 == 0)
  if belowIn && (belowNearer || !aboveIn) then some below
  else if aboveIn then some above
  else none

/-- A positive decimal number: the digits after the point, and the power of ten that moves it. -/
structure Decimal where
  digits : List Char
  point : Int

/-- Tries grids of one digit, two digits and so on; seventeen digits always read back. -/
def Interval.shortest (i : Interval) : Decimal :=
  let point := i.point
  let hit := (List.range 17).findSome? fun (extra : Nat) =>
    let spacing := point - (extra : Int) - 1
    (i.onGrid? spacing).map fun n =>
      let digits := Nat.toDigits 10 n
      (⟨digits, spacing + (digits.length : Int)⟩ : Decimal)
  match hit with
  | some d => { d with digits := (d.digits.reverse.dropWhile (· = '0')).reverse }
  | none => ⟨['0'], 1⟩

/-- Where positional notation ends and how an exponent is written. -/
structure NumeralStyle where
  leastPositional : Int
  greatestPositional : Int
  exponentDigits : Nat

def zeros (n : Nat) : List Char := List.replicate n '0'

def Decimal.positional (d : Decimal) : List Char :=
  if d.point ≤ 0 then '0' :: '.' :: zeros (-d.point).toNat ++ d.digits
  else
    let whole := d.point.toNat
    if d.digits.length ≤ whole then d.digits ++ zeros (whole - d.digits.length) ++ ['.', '0']
    else d.digits.take whole ++ '.' :: d.digits.drop whole

def Decimal.scientific (exponentDigits : Nat) (d : Decimal) : List Char :=
  let exponent := d.point - 1
  let size := Nat.toDigits 10 exponent.natAbs
  let mantissa := match d.digits with
    | [] => []
    | first :: [] => [first]
    | first :: rest => first :: '.' :: rest
  mantissa ++ 'e' :: (if exponent < 0 then '-' else '+') ::
    zeros (exponentDigits - size.length) ++ size

def Decimal.text (style : NumeralStyle) (d : Decimal) : List Char :=
  if style.leastPositional ≤ d.point - 1 && d.point - 1 ≤ style.greatestPositional then
    d.positional
  else d.scientific style.exponentDigits

/-- Numbers from a ten-thousandth up to below ten to the sixteenth are written positionally, all
others with an exponent of at least two digits. -/
def standardStyle : NumeralStyle := ⟨-4, 15, 2⟩

/-- Signed zeros keep their sign; a positional text always has a digit behind its point. -/
def text (x : Float) : String :=
  let bits := x.toBits.toNat
  let sign := if bits / twoTo 63 = 1 then ['-'] else []
  let magnitude := bits % twoTo 63
  if magnitude > 2047 * twoTo 52 then "nan"
  else if magnitude = 2047 * twoTo 52 then String.ofList (sign ++ ['i', 'n', 'f'])
  else if magnitude = 0 then String.ofList (sign ++ ['0', '.', '0'])
  else String.ofList (sign ++ (Interval.ofBits magnitude).shortest.text standardStyle)

end AlgoFrontEnd.Number
