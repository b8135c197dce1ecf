/-! # Doubles as exact numbers

    A finite non-negative double is a natural number times a power of two.
    This module decodes the bits of a double into that form and goes the
    other way: it rounds an exact fraction to the nearest double, a tie to
    the even neighbour.  All of it is arithmetic on naturals, so nothing
    here depends on the arithmetic of the machine. -/

namespace Treewalk.Number

/-! ### Decoding -/

/-- The number `mantissa * 2 ^ exponent`. -/
structure Dyadic where
  /-- The integer factor. -/
  mantissa : Nat
  /-- The power of two it is scaled by. -/
  exponent : Int
deriving DecidableEq, Repr

/-- Number of fraction bits of a double. -/
def fractionBits : Nat := 52

/-- The leading bit of a normal double, which is not stored. -/
def hiddenBit : Nat := 0x10000000000000

/-- The exponent of the least positive double. -/
def leastExponent : Int := -1074

/-- Magnitude bits of infinity; every finite double has smaller ones. -/
def infinityBits : Nat := 0x7FF0000000000000

/-- The sign bit. -/
def signBit : Nat := 0x8000000000000000

/-- The value of the finite double with the given magnitude bits. -/
def Dyadic.ofBits (magnitude : Nat) : Dyadic :=
  let field := magnitude / hiddenBit
  let fraction := magnitude % hiddenBit
  if field = 0 then ⟨fraction, leastExponent⟩
  else ⟨hiddenBit + fraction, leastExponent + (field - 1 : Nat)⟩

/-- Numerator of the value as a fraction. -/
def Dyadic.numerator (x : Dyadic) : Nat := x.mantissa * Nat.pow 2 x.exponent.toNat

/-- Denominator of the value as a fraction. -/
def Dyadic.denominator (x : Dyadic) : Nat := Nat.pow 2 (-x.exponent).toNat

/-! ### Rounding -/

/-- The integer nearest to `num / den`; a tie goes to the even one. -/
def roundDiv (num den : Nat) : Nat :=
  let q := num / den
  let r := num % den
  if 2 * r < den ∨ (2 * r = den ∧ q % 2 = 0) then q else q + 1

/-- The greatest `k` with `2 ^ k ≤ num / den`, for positive arguments. -/
def floorLog2 (num den : Nat) : Int :=
  let k : Int := (num.log2 : Int) - den.log2
  if den * Nat.pow 2 k.toNat ≤ num * Nat.pow 2 (-k).toNat then k else k - 1

/-- The exponent of the last place a double near `num / den` can hold. -/
def lastPlace (num den : Nat) : Int :=
  max leastExponent (floorLog2 num den - fractionBits)

/-- Magnitude bits of the double nearest to `num / den`.  The bits of a double
    grow with its value, so a mantissa that rounds up to the next power of two
    carries into the exponent by itself. -/
def nearest (num den : Nat) : Nat :=
  if num = 0 then 0
  else
    let e := lastPlace num den
    let m := roundDiv (num * Nat.pow 2 (-e).toNat) (den * Nat.pow 2 e.toNat)
    min ((e - leastExponent).toNat * hiddenBit + m) infinityBits

end Treewalk.Number
