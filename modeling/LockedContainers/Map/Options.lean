import LockedContainers.Decimal.Fixed

/-!
# Construction options of the maps

Sizes are 64-bit words. A table is due to grow when the entries exceed the
threshold times the buckets, in binary64 arithmetic.
-/
namespace LockedContainers

structure MapOptions where
  buckets : UInt64 := 16
  /-- The number of locks of a striped map, fixed for its life. -/
  stripes : UInt64 := 16
  threshold : Binary64 := ⟨0x3fe8000000000000⟩
deriving DecidableEq, Repr

inductive OptionError
  | noBuckets
  | noStripes
  | badThreshold (given : Binary64)
deriving DecidableEq, Repr

def OptionError.message : OptionError → String
  | noBuckets => "syncds: initial_bucket_count must be positive"
  | noStripes => "syncds: stripe_count must be positive"
  | badThreshold given =>
    "syncds: load_factor_threshold must be a positive finite number, got " ++ given.fixedText 6

inductive SizingError
  | unusable (error : OptionError)
  /-- No power of two among the 64-bit words holds so many entries. -/
  | tooMany (capacity : UInt64)
deriving DecidableEq, Repr

def SizingError.message : SizingError → String
  | unusable error => error.message
  | tooMany capacity =>
    "syncds: no bucket count holds " ++ toString capacity.toNat ++ " entries"

namespace MapOptions

def check (options : MapOptions) : Except OptionError Unit :=
  if options.buckets = 0 then .error .noBuckets
  else if options.stripes = 0 then .error .noStripes
  else if options.threshold.isFinite && (Binary64.zero false).lt options.threshold then .ok ()
  else .error (.badThreshold options.threshold)

/-- Whether so many entries are too many for so many buckets. -/
def exceeds (options : MapOptions) (entries buckets : Nat) : Bool :=
  (options.threshold.mul (.ofNat buckets)).lt (.ofNat entries)

/-- The bucket counts of sized tables: powers of two from 16 to 2⁶³. -/
def tableSizes : List Nat := (List.range 60).map (16 <<< ·)

/-- Options of the smallest sized table that holds `capacity` entries below the threshold. -/
def sizedFor (capacity : UInt64) (threshold : Binary64) : Except SizingError MapOptions := do
  let options : MapOptions := { threshold }
  options.check.mapError .unusable
  let needed := ((Binary64.ofNat capacity.toNat).div threshold).ceil
  match tableSizes.find? fun buckets => !(Binary64.ofNat buckets).lt needed with
  | some buckets => return { options with buckets := .ofNat buckets }
  | none => throw (.tooMany capacity)

/-- With the bucket count raised to a multiple of the stripe count, in 64-bit words. -/
def rounded (options : MapOptions) : MapOptions :=
  { options with
    buckets := (options.buckets + options.stripes - 1) / options.stripes * options.stripes }

end MapOptions
end LockedContainers
