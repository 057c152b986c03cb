import PatternTable.Json.Basic

/-!
# Numbers in JSON

No number is ever read: a number where another value is expected is a mismatch, once it has been
found to be a number at all. A number must also be in the range of double precision, decided on its
first digits up to 64 bits and a power of ten.
-/

namespace PatternTable.Json

/-- A number rounded to 53 binary digits, a half to the even neighbour. -/
def nearestDouble (n : Nat) : Nat :=
  let unit := 1 <<< (n.log2 + 1 - 53)
  let quotient := n / unit
  let remainder := n % unit
  if unit < 2 * remainder ∨ (unit = 2 * remainder ∧ quotient % 2 = 1) then (quotient + 1) * unit
  else quotient * unit

/-- The least product that rounds past the largest finite double. -/
def overflowBound : Nat :=
  (1 <<< 1024) - (1 <<< 970)

/-- Whether a significand times a power of ten is out of the range of double precision. The two
    factors are rounded before they are multiplied. -/
def isTooLarge (significand : Nat) (exponent : Int) : Bool :=
  significand != 0 && 0 ≤ exponent &&
    (308 < exponent ||
      overflowBound ≤ nearestDouble significand * nearestDouble (Nat.pow 10 exponent.toNat))

/-- A significand of at most 64 bits, and the number of digits left out. -/
structure Significand where
  value : Nat := 0
  dropped : Nat := 0
  deriving DecidableEq, Repr

/-- One more digit of a significand. Once a digit would take it past 64 bits, that digit and all
    that follow are left out. -/
def Significand.push (s : Significand) (c : Char) : Significand :=
  let value := s.value * 10 + (c.toNat - 0x30)
  if s.dropped = 0 ∧ value < UInt64.size then ⟨value, 0⟩ else ⟨s.value, s.dropped + 1⟩

/-- The significand of some digits, continued from a value. -/
def Significand.ofDigits (value : Nat) (digits : List Char) : Significand :=
  digits.foldl Significand.push ⟨value, 0⟩

/-- The value of decimal digits. -/
def digitsValue (digits : List Char) : Nat :=
  digits.foldl (fun n c => n * 10 + (c.toNat - 0x30)) 0

/-- What is wrong with a number of the given value where another kind of value is read. -/
def valueFault (significand : Nat) (exponent : Int) : Fault :=
  if isTooLarge significand exponent then .malformed else .mismatched

/-- What is wrong with a number whose exponent starts at `cs`, if it has one. -/
def exponentFault (significand : Nat) (exponent : Int) (cs : List Char) : Fault :=
  match cs with
  | [] => valueFault significand exponent
  | c :: rest =>
    if c != 'e' && c != 'E' then valueFault significand exponent
    else
      let (negative, digits) :=
        match rest with
        | '+' :: digits => (false, digits)
        | '-' :: digits => (true, digits)
        | digits => (false, digits)
      match digits with
      | [] => .truncated
      | d :: _ =>
        if !d.isDigit then .malformed
        else
          let n : Int := digitsValue (digits.takeWhile Char.isDigit)
          valueFault significand (if negative then exponent - n else exponent + n)

/-- What is wrong with a number whose fraction or exponent starts at `cs`, if it has one. -/
def fractionFault (whole : Significand) (cs : List Char) : Fault :=
  match cs with
  | '.' :: rest =>
    let places := rest.takeWhile Char.isDigit
    let after := rest.dropWhile Char.isDigit
    if places.isEmpty then (if after.isEmpty then .truncated else .malformed)
    else
      let significand := Significand.ofDigits whole.value places
      exponentFault significand.value
        (whole.dropped - ((places.length - significand.dropped : Nat) : Int)) after
  | cs => exponentFault whole.value whole.dropped cs

/-- What is wrong with a number without its sign. -/
def unsignedFault : List Char → Fault
  | [] => .truncated
  | '0' :: rest =>
    match rest with
    | [] => .mismatched
    | d :: _ => if d.isDigit then .malformed else fractionFault {} rest
  | c :: rest =>
    if c.isDigit then
      fractionFault (Significand.ofDigits 0 ((c :: rest).takeWhile Char.isDigit))
        ((c :: rest).dropWhile Char.isDigit)
    else .malformed

/-- What is wrong with a number where another kind of value is read. -/
def numberFault : List Char → Fault
  | '-' :: cs => unsignedFault cs
  | cs => unsignedFault cs

example : numberFault "1e308".toList = .mismatched ∧ numberFault "1.8e308".toList = .malformed ∧
    numberFault "-0".toList = .mismatched ∧ numberFault "1.".toList = .truncated := by
  decide +kernel

end PatternTable.Json
