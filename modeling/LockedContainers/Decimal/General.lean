import LockedContainers.Decimal.Fixed

/-!
# Decimal text with a set number of significant digits

Trailing zeros are dropped. Middling magnitudes are written with a point,
the others with a signed exponent of at least two digits.
-/
namespace LockedContainers
namespace Decimal

structure Layout where
  /-- Significant digits before trailing zeros are dropped. -/
  digits : Nat
  /-- The least exponent that is written positionally. -/
  lowest : Int

/-- The exponent of the leading digit of `num / den`, both positive. -/
def leadingExponent (num den : Nat) : Int :=
  if den ≤ num then (Nat.toDigits 10 (num / den)).length - 1
  else -(Nat.toDigits 10 ((den - 1) / num)).length

/-- `num / den` over `10 ^ shift`, to the nearest whole number. -/
def scaled (num den : Nat) (shift : Int) : Nat :=
  nearestEven (num * Nat.pow 10 (-shift).toNat) (den * Nat.pow 10 shift.toNat)

/-- Significant digits as one number, and the exponent of the first of them. -/
def significant (digits num den : Nat) : Nat × Int :=
  let e := leadingExponent num den
  let n := scaled num den (e - (digits - 1 : Nat))
  if n = Nat.pow 10 digits then (Nat.pow 10 (digits - 1), e + 1) else (n, e)

/-- Without the zeros that end a fraction, and without a point that then stands last. -/
def trimmed (text : List Char) : List Char :=
  if '.' ∈ text then
    let kept := text.reverse.dropWhile (· = '0')
    (if kept.head? = some '.' then kept.tail else kept).reverse
  else text

def exponentText (e : Int) : List Char :=
  'e' :: (if e < 0 then '-' else '+') :: padded 2 e.natAbs

def general (style : Layout) (num den : Nat) : List Char :=
  if num = 0 then ['0']
  else
    let (n, e) := significant style.digits num den
    if style.lowest ≤ e ∧ e < style.digits then
      trimmed (pointed (style.digits - 1 - e).toNat n)
    else trimmed (pointed (style.digits - 1) n) ++ exponentText e

end Decimal

namespace Binary64

/-- Six digits; from 10⁻⁴ on up to 10⁶ without an exponent. -/
def displayLayout : Decimal.Layout := ⟨6, -4⟩

def displayText (x : Binary64) : String :=
  x.textBy (Decimal.general displayLayout)

end Binary64
end LockedContainers
