import ScriptCompiler.Bytes

/-!
# Double-precision numbers as bit patterns

A number literal travels through the compiler as the 64 bits of its IEEE 754 double, so signed
zeros, infinities and the payload of a NaN reach the code unchanged. A decimal numeral denotes
the double nearest to it, a tie going to the even neighbour.

## Main definitions

* `Binary64`: a double, as its bit pattern
* `Binary64.low`, `Binary64.high`, `Binary64.ofWords`: a double as two words
* `Binary64.IsFinite`: neither an infinity nor a NaN
* `Binary64.ofRatio`, `Binary64.ofScientific`: the double nearest to a fraction or a decimal

## Main results

* `Binary64.ofWords_low_high`: a double is determined by its two words
-/

namespace ScriptCompiler

/-- **A double**, as its bit pattern: one sign bit, eleven exponent bits and 52 fraction bits. -/
structure Binary64 where
  bits : UInt64
deriving DecidableEq, Repr, Inhabited

namespace Binary64

/-- The less significant word of the bit pattern. -/
def low (x : Binary64) : UInt32 := x.bits.toUInt32

/-- The more significant word of the bit pattern. -/
def high (x : Binary64) : UInt32 := (x.bits / 4294967296).toUInt32

/-- The double with the given less and more significant words. -/
def ofWords (lo hi : UInt32) : Binary64 :=
  ⟨lo.toUInt64 + 4294967296 * hi.toUInt64⟩

@[simp] theorem ofWords_low_high (x : Binary64) : ofWords x.low x.high = x := by
  cases x with
  | mk bits =>
    have h := bits.toNat_lt
    simp only [ofWords, low, high, mk.injEq, ← UInt64.toNat_inj, UInt64.toNat_add,
      UInt64.toNat_mul, UInt32.toNat_toUInt64, UInt64.toNat_toUInt32, UInt64.toNat_div,
      UInt64.reduceToNat]
    omega

/-- The bytes of a double, least significant first. -/
def toBytes (x : Binary64) : Bytes := wordBytes x.low ++ wordBytes x.high

/-- A double is finite unless all its exponent bits are set. -/
def IsFinite (x : Binary64) : Prop := x.bits / 4503599627370496 % 2048 ≠ 2047

instance (x : Binary64) : Decidable x.IsFinite := inferInstanceAs (Decidable (_ ≠ _))

/-- The bit pattern of positive infinity; finite magnitudes have smaller patterns. -/
def infinityBits : Nat := 2047 <<< 52

/-- The quotient `num / den` rounded to the nearest natural number, a tie to the even one. -/
def roundDiv (num den : Nat) : Nat :=
  let q := num / den
  let r := num % den
  if 2 * r < den ∨ (2 * r = den ∧ q % 2 = 0) then q else q + 1

/-- **The double nearest to a fraction.** The value is scaled by a power of two, chosen so that
its integral part has 53 bits unless the double is subnormal, and rounded once. Exponents are
counted from that of the subnormal doubles, and exponent and fraction bits are adjacent, so a
rounding that carries out of the fraction moves on to the next exponent by itself. -/
def ofRatio (negative : Bool) (num den : Nat) : Binary64 :=
  let sign := if negative then 1 <<< 63 else 0
  let upper := num.log2 + 1022 - den.log2
  let exponent := if den <<< (upper + 52) ≤ num <<< 1074 then upper else upper - 1
  let magnitude :=
    if num = 0 then 0
    else (exponent <<< 52) + roundDiv (num <<< 1074) (den <<< exponent)
  ⟨(sign + min magnitude infinityBits).toUInt64⟩

/-- **The double nearest to a decimal**, `mantissa * 10 ^ exponent`. A mantissa other than zero is
at least one, so with an exponent from 400 on the value is far beyond the doubles; and it has no
more decimal than binary digits, so with an exponent that is 400 less than minus their number the
value is far below the least double. Exponents further out change nothing. -/
def ofScientific (mantissa exponent : Int) : Binary64 :=
  let isNegative := decide (mantissa < 0)
  let magnitude := mantissa.natAbs
  match exponent with
  | .ofNat places => ofRatio isNegative (magnitude * Nat.pow 10 (min places 400)) 1
  | .negSucc places =>
    ofRatio isNegative magnitude (Nat.pow 10 (min (places + 1) (magnitude.log2 + 401)))

end Binary64

end ScriptCompiler
