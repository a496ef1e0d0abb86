import ScriptCompiler.Binary64

/-!
# Numerals of a configuration document

Integers are decimal, or hexadecimal, octal or binary behind a mark. Single underscores may stand
between digits. A decimal integer has no superfluous leading zeros, and only decimal integers
have a sign. An integer has to fit 64 bits with a sign. Other numbers have a fraction or an
exponent, or are an infinity or a NaN.

## Main definitions

* `digits?`: the value of digits in a base
* `integer?`: the value of an integer
* `scientific?`: the mantissa and the exponent of a number that is not an integer
* `isFloat`: whether a token is a number that is not an integer
-/

namespace ScriptCompiler.Config

/-- The value of a digit in a base of at most sixteen. -/
def digit? (base : Nat) (c : Char) : Option Nat :=
  let value? :=
    if '0' ≤ c ∧ c ≤ '9' then some (c.toNat - '0'.toNat)
    else if 'a' ≤ c ∧ c ≤ 'f' then some (c.toNat - 'a'.toNat + 10)
    else if 'A' ≤ c ∧ c ≤ 'F' then some (c.toNat - 'A'.toNat + 10)
    else none
  value?.filter (· < base)

/-- Goes on with the digits behind those whose value is given. -/
def digitsFrom? (base value : Nat) : List Char → Option Nat
  | [] => some value
  | '_' :: c :: rest => do digitsFrom? base (value * base + (← digit? base c)) rest
  | c :: rest => do digitsFrom? base (value * base + (← digit? base c)) rest

/-- The value of digits, with single underscores between some of them. -/
def digits? (base : Nat) : List Char → Option Nat
  | [] => none
  | c :: rest => do digitsFrom? base (← digit? base c) rest

/-- The value of a decimal integer without a sign. -/
def decimal? : List Char → Option Nat
  | '0' :: _ :: _ => none
  | token => digits? 10 token

/-- A token without its sign, and whether that sign is a minus. -/
def splitSign : List Char → Bool × List Char
  | '-' :: rest => (true, rest)
  | '+' :: rest => (false, rest)
  | token => (false, token)

/-- The value of an integer of any size. -/
def wideInteger? : List Char → Option Int
  | '0' :: 'x' :: rest => Int.ofNat <$> digits? 16 rest
  | '0' :: 'o' :: rest => Int.ofNat <$> digits? 8 rest
  | '0' :: 'b' :: rest => Int.ofNat <$> digits? 2 rest
  | token => do
    let (isNegative, token) := splitSign token
    let magnitude ← decimal? token
    return if isNegative then -magnitude else magnitude

/-- The value of an integer that fits 64 bits with a sign. -/
def integer? (token : List Char) : Option Int :=
  (wideInteger? token).filter fun value =>
    -9223372036854775808 ≤ value ∧ value ≤ 9223372036854775807

/-- The value of the exponent of a number, without its mark; leading zeros are allowed. -/
def exponent? (token : List Char) : Option Int := do
  let (isNegative, token) := splitSign token
  let magnitude ← digits? 10 token
  return if isNegative then -magnitude else magnitude

/-- Whether a character stands before the exponent of a number. -/
def isExponentMark (c : Char) : Bool := c == 'e' || c == 'E'

/-- The mantissa and the exponent of a number without a sign that has a fraction or an exponent. -/
def scientific? (token : List Char) : Option (Nat × Int) := do
  let (whole, rest) := token.span fun c => c != '.' && !isExponentMark c
  let units ← decimal? whole
  match rest with
  | [] => none
  | '.' :: rest =>
    let (fraction, rest) := rest.span (!isExponentMark ·)
    let _ ← digits? 10 fraction
    let mantissa ← digits? 10 (whole ++ fraction)
    let exponent ← if rest.isEmpty then some 0 else exponent? rest.tail
    return (mantissa, exponent - fraction.countP (· != '_'))
  | _ :: rest => return (units, ← exponent? rest)

/-- Whether a token is a number that is not an integer. A number beyond the largest double is none,
while one beyond the least is taken for negative infinity. -/
def isFloat (token : List Char) : Bool :=
  let (isNegative, magnitude) := splitSign token
  magnitude == "inf".toList || magnitude == "nan".toList ||
    (scientific? magnitude).any fun (mantissa, exponent) =>
      isNegative || decide (Binary64.ofScientific mantissa exponent).IsFinite

end ScriptCompiler.Config
