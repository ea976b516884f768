import TunnelConf.Text.Ascii

/-!
# Numbers in texts

Digits in bases up to sixteen, the decimal integers that may carry a sign, of any size and of 64 bits, and
the texts that denote decimal numbers.
-/

namespace TunnelConf

namespace Text

/-- The value of a digit in the given base. -/
def digit? (base : Nat) (c : Char) : Option Nat :=
  let value :=
    if '0' ≤ c && c ≤ '9' then c.toNat - '0'.toNat
    else if 'a' ≤ c && c ≤ 'f' then c.toNat - 'a'.toNat + 10
    else if 'A' ≤ c && c ≤ 'F' then c.toNat - 'A'.toNat + 10
    else 16
  if value < base then some value else none

/-- The number that a run of digits denotes. -/
def valueOf (base : Nat) (digits : Text) : Nat :=
  digits.foldl (fun n c => n * base + (digit? base c).getD 0) 0

/-- A non-empty run of decimal digits. -/
def natural? (t : Text) : Option Nat :=
  if t.isEmpty || !t.all isDigit then none else some (valueOf 10 t)

/-- Decimal digits after an optional plus. -/
def unsigned? : Text → Option Nat
  | '+' :: t => natural? t
  | t => natural? t

/-- Decimal digits after an optional sign. -/
def integer? : Text → Option Int
  | '+' :: t => (natural? t).map Int.ofNat
  | '-' :: t => (natural? t).map fun n => -Int.ofNat n
  | t => (natural? t).map Int.ofNat

/-- The 64-bit integer of a value, if it is one of theirs. -/
def exactInt64? (n : Int) : Option Int64 :=
  if Int64.minValue.toInt ≤ n && n ≤ Int64.maxValue.toInt then some (Int64.ofInt n) else none

/-- A 64-bit integer with one more digit, which counts down behind a minus. Neither the shift to the left nor the
digit may lead out of the range. -/
def pushDigit? (isNegative : Bool) (n : Int64) (c : Char) : Option Int64 := do
  let shifted ← exactInt64? (n.toInt * 10)
  let d ← digit? 10 c
  exactInt64? (if isNegative then shifted.toInt - d else shifted.toInt + d)

/-- The 64-bit integer of a non-empty run of digits behind a sign. -/
def digitsInt64? (isNegative : Bool) (t : Text) : Option Int64 :=
  if t.isEmpty then none else t.foldlM (pushDigit? isNegative) 0

/-- Decimal digits of a 64-bit integer after an optional sign. -/
def int64? : Text → Option Int64
  | '+' :: t => digitsInt64? false t
  | '-' :: t => digitsInt64? true t
  | t => digitsInt64? false t

/-- A decimal number with or without a point and an exponent, after an optional sign. Infinity and
the value that is not a number have names. -/
def isDecimal (t : Text) : Bool :=
  let t := lower <| match t with
    | '+' :: t | '-' :: t => t
    | t => t
  let (mantissa, exponent) := (splitFirst? 'e' t).elim (t, none) fun (m, e) => (m, some e)
  ["inf", "infinity", "nan"].any (·.toList == t) ||
    (mantissa.any isDigit && mantissa.all (fun c => isDigit c || c == '.') &&
      mantissa.count '.' ≤ 1 && exponent.all fun e => (integer? e).isSome)

/-- The decimal form. -/
def ofNat (n : Nat) : Text := Nat.toDigits 10 n

end Text

end TunnelConf
