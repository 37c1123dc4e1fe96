/-!
Binary floating-point numbers with 53 significant bits, as exact dyadic rationals. A numeral is read
as the nearest number (a tie goes to the even mantissa). A number is written with the fewest
digits that read back as the same number.
-/

namespace MarkdownTree

/-- A binary64 number. A finite one is `± mantissa · 2 ^ exponent`, with a mantissa of 53 bits
unless the exponent is the least one, `-1074`. -/
inductive Binary64 where
  | nan
  | infinite (negative : Bool)
  | finite (negative : Bool) (mantissa : Nat) (exponent : Int)
  deriving DecidableEq, Inhabited

namespace Binary64

def zero (negative : Bool) : Binary64 :=
  .finite negative 0 (-1074)

/-- The integer nearest to `num / den`, and the even one of two equally near. -/
def roundDiv (num den : Nat) : Nat :=
  let quotient := num / den
  let rest := 2 * (num % den)
  if rest < den || (rest == den && quotient % 2 == 0) then quotient else quotient + 1

/-- The exponent of the mantissa's last bit for a number `num / den` with `num, den > 0`. -/
def unitExponent (num den : Nat) : Int :=
  let top : Int := (Nat.log2 num : Int) - (Nat.log2 den : Int)
  let below : Bool :=
    if 0 ≤ top then num < den * Nat.pow 2 top.toNat else num * Nat.pow 2 (-top).toNat < den
  max ((if below then top - 1 else top) - 52) (-1074)

/-- The number nearest to `num / den`; beyond the largest finite one it is infinite. -/
def ofRatio (negative : Bool) (num den : Nat) : Binary64 :=
  if num = 0 then
    zero negative
  else
    let unit := unitExponent num den
    let rounded :=
      if 0 ≤ unit then roundDiv num (den * Nat.pow 2 unit.toNat)
      else roundDiv (num * Nat.pow 2 (-unit).toNat) den
    let (mantissa, exponent) :=
      if rounded = Nat.pow 2 53 then (Nat.pow 2 52, unit + 1) else (rounded, unit)
    if 971 < exponent then .infinite negative else .finite negative mantissa exponent

def decimalLength (n : Nat) : Nat :=
  (Nat.toDigits 10 n).length

def ofDecimal (negative : Bool) (digits : Nat) (power : Int) : Binary64 :=
  let top := (decimalLength digits : Int) + power
  if digits = 0 || top < -330 then
    zero negative
  else if 310 < top then
    .infinite negative
  else if 0 ≤ power then
    ofRatio negative (digits * Nat.pow 10 power.toNat) 1
  else
    ofRatio negative digits (Nat.pow 10 (-power).toNat)

/-- A finite number as `numerator / 2 ^ scale` with the least scale; negative zero is zero. -/
def dyadic? : Binary64 → Option (Int × Nat)
  | .finite negative mantissa exponent =>
    let sign : Int := if negative then -1 else 1
    if 0 ≤ exponent then
      some (sign * (mantissa * Nat.pow 2 exponent.toNat : Nat), 0)
    else
      let (numerator, scale) := reduce mantissa (-exponent).toNat
      some (sign * numerator, scale)
  | _ => none
where
  /-- Cancels common factors of two. -/
  reduce (numerator : Nat) : Nat → Nat × Nat
    | 0 => (numerator, 0)
    | scale + 1 =>
      if numerator % 2 = 0 then reduce (numerator / 2) scale else (numerator, scale + 1)

def integer? (x : Binary64) : Option Int :=
  match x.dyadic? with
  | some (numerator, 0) => some numerator
  | _ => none

/-- Decimal digits and a power of ten for a number `num / den` in the open or closed interval
between two bounds, all of them over the same denominator: the first grid of `10 ^ power` that has a
point next to the number within the bounds gives the digits. -/
def shortestFrom (num den low high : Nat) (closed : Bool) (power : Int) : Nat → Nat × Int
  | 0 => (0, 0)
  | fuel + 1 =>
    -- over the common denominator `den`, a grid point `k` is `k * unit / scale`
    let unit := if 0 ≤ power then den * Nat.pow 10 power.toNat else den
    let scale := if 0 ≤ power then 1 else Nat.pow 10 (-power).toNat
    let below := num * scale / unit
    let inside (k : Nat) : Bool :=
      if closed then low * scale ≤ k * unit && k * unit ≤ high * scale
      else low * scale < k * unit && k * unit < high * scale
    let gapBelow := num * scale - below * unit
    let gapAbove := (below + 1) * unit - num * scale
    let above := gapAbove < gapBelow || (gapAbove == gapBelow && below % 2 == 1)
    if inside below && inside (below + 1) then
      (if above then below + 1 else below, power)
    else if inside below then
      (below, power)
    else if inside (below + 1) then
      (below + 1, power)
    else
      shortestFrom num den low high closed (power - 1) fuel

def dropZeros (digits : Nat) (power : Int) : Nat → Nat × Int
  | 0 => (digits, power)
  | fuel + 1 =>
    if digits % 10 = 0 then dropZeros (digits / 10) (power + 1) fuel else (digits, power)

/-- The fewest digits, and of these the nearest, that read back as `mantissa · 2 ^ exponent`, with
their power of ten. -/
def shortest (mantissa : Nat) (exponent : Int) : Nat × Int :=
  -- four units are one step of the mantissa, so that half and quarter steps are whole
  let up := if 0 ≤ exponent then Nat.pow 2 exponent.toNat else 1
  let den := 4 * (if 0 ≤ exponent then 1 else Nat.pow 2 (-exponent).toNat)
  let num := 4 * mantissa * up
  let low := num - (if mantissa = Nat.pow 2 52 ∧ -1074 < exponent then 1 else 2) * up
  let high := num + 2 * up
  let top : Int := (decimalLength num : Int) - decimalLength den
  let (digits, power) := shortestFrom num den low high (mantissa % 2 == 0) top 20
  dropZeros digits power 20

def digitsOf (n : Nat) : List Char :=
  Nat.toDigits 10 n

def twoDigits (n : Nat) : List Char :=
  if n < 10 then '0' :: digitsOf n else digitsOf n

/-- Positional notation from `10 ^ -4` up to `10 ^ 16`, with `.0` after a whole number; otherwise a
mantissa with one digit before the point, and a signed exponent of at least two digits. -/
def layOut (digits : Nat) (power : Int) : List Char :=
  let text := digitsOf digits
  let point : Int := text.length + power
  if -4 < point ∧ point ≤ 16 then
    if point ≤ 0 then
      ['0', '.'] ++ List.replicate (-point).toNat '0' ++ text
    else if 0 ≤ power then
      text ++ List.replicate power.toNat '0' ++ ['.', '0']
    else
      text.take point.toNat ++ ['.'] ++ text.drop point.toNat
  else
    let mantissa := match text with
      | [] => []
      | [d] => [d]
      | d :: rest => d :: '.' :: rest
    let exponent := point - 1
    mantissa ++ ['e', if exponent < 0 then '-' else '+'] ++ twoDigits exponent.natAbs

def text : Binary64 → String
  | .nan => "nan"
  | .infinite negative => if negative then "-inf" else "inf"
  | .finite negative mantissa exponent =>
    let body :=
      if mantissa = 0 then ['0', '.', '0']
      else layOut (shortest mantissa exponent).1 (shortest mantissa exponent).2
    String.ofList (if negative then '-' :: body else body)

def digitsValue (digits : List Char) : Nat :=
  digits.foldl (fun n c => 10 * n + (c.toNat - '0'.toNat)) 0

def takeSign : List Char → Bool × List Char
  | '-' :: rest => (true, rest)
  | '+' :: rest => (false, rest)
  | rest => (false, rest)

/-- Reads a decimal numeral: sign, digits, and optionally a fraction and an exponent; or a signed
`inf` or `nan`. -/
def ofNumeral? (s : List Char) : Option Binary64 :=
  let (negative, s) := takeSign s
  if s = ['i', 'n', 'f'] then
    some (.infinite negative)
  else if s = ['n', 'a', 'n'] then
    some .nan
  else
    let whole := s.takeWhile Char.isDigit
    let (fraction, s) := match s.dropWhile Char.isDigit with
      | '.' :: rest => (rest.takeWhile Char.isDigit, rest.dropWhile Char.isDigit)
      | rest => ([], rest)
    if whole.isEmpty && fraction.isEmpty then
      none
    else
      let power? : Option Int := match s with
        | [] => some 0
        | c :: rest =>
          let (below, digits) := takeSign rest
          if (c == 'e' || c == 'E') && !digits.isEmpty && digits.all Char.isDigit then
            some (if below then -(digitsValue digits : Int) else digitsValue digits)
          else
            none
      power?.map fun power =>
        ofDecimal negative (digitsValue (whole ++ fraction)) (power - fraction.length)

end Binary64

end MarkdownTree
