/-!
# Binary64 numbers

A number is held as its 64 bits. A finite one is a whole number of units of
2⁻¹⁰⁷⁴, so values are compared and rounded in exact integer arithmetic.
-/
namespace LockedContainers

structure Binary64 where
  bits : UInt64
deriving DecidableEq, Hashable, Inhabited, Repr

namespace Binary64

/-- What the bits stand for; `units` counts multiples of the least positive number. -/
inductive Value
  | finite (negative : Bool) (units : Nat)
  | infinite (negative : Bool)
  | nan
deriving DecidableEq, Repr

/-- Units in one. -/
def one : Nat := 1 <<< 1074

/-- Units in the least magnitude that is too large to be finite. -/
def beyond : Nat := 1 <<< 2098

def negative (x : Binary64) : Bool := 1 <<< 63 ≤ x.bits.toNat

/-- The bits below the sign. -/
def magnitude (x : Binary64) : Nat := x.bits.toNat % (1 <<< 63)

/-- Units of a finite magnitude: eleven bits of exponent above 52 of fraction. -/
def unitsOf (magnitude : Nat) : Nat :=
  if magnitude >>> 52 = 0 then magnitude
  else (1 <<< 52 + magnitude % (1 <<< 52)) <<< (magnitude >>> 52 - 1)

/-- The exponent of the last place of a number of this many units. -/
def lastPlace (units : Nat) : Nat := units.log2 - 52

/-- The magnitude bits of a number with at most 53 significant bits. -/
def magnitudeOf (units : Nat) : Nat :=
  lastPlace units <<< 52 + units >>> lastPlace units

def value (x : Binary64) : Value :=
  if x.magnitude >>> 52 < 2047 then .finite x.negative (unitsOf x.magnitude)
  else if x.magnitude % (1 <<< 52) = 0 then .infinite x.negative
  else .nan

/-- Magnitudes from `beyond` on become infinite. -/
def ofUnits (negative : Bool) (units : Nat) : Binary64 :=
  ⟨.ofNat ((if negative then 1 <<< 63 else 0) + magnitudeOf (min units beyond))⟩

def zero (negative : Bool) : Binary64 := ofUnits negative 0

def infinity (negative : Bool) : Binary64 := ofUnits negative beyond

/-- The result of an operation without a value. -/
def invalid : Binary64 := ⟨0xfff8000000000000⟩

/-- A NaN operand is handed on with its quiet bit set. -/
def quiet (x : Binary64) : Binary64 := ⟨x.bits ||| 0x0008000000000000⟩

def isFinite (x : Binary64) : Bool :=
  match x.value with
  | .finite _ _ => true
  | _ => false

def isNaN (x : Binary64) : Bool := x.value = .nan

/-- Position on the number line in units, infinities at the ends; none for a NaN. -/
def rank? (x : Binary64) : Option Int :=
  let signed (negative : Bool) (units : Nat) : Int := if negative then -units else units
  match x.value with
  | .finite s u => some (signed s u)
  | .infinite s => some (signed s beyond)
  | .nan => none

def lt (x y : Binary64) : Bool :=
  match x.rank?, y.rank? with
  | some a, some b => a < b
  | _, _ => false

def le (x y : Binary64) : Bool :=
  match x.rank?, y.rank? with
  | some a, some b => a ≤ b
  | _, _ => false

/-- Equality of values: both zeros are equal, a NaN equals nothing. -/
def equals (x y : Binary64) : Bool :=
  match x.rank?, y.rank? with
  | some a, some b => a = b
  | _, _ => false

end Binary64
end LockedContainers
