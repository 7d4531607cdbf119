import LockedContainers.Binary64.Arithmetic

/-!
# Decimal text with a set number of places

The exact value is rounded once, a tie to the even neighbour, and every
integer digit is written.
-/
namespace LockedContainers

namespace Decimal

/-- The digits of `n`, with zeros in front up to `width` of them. -/
def padded (width n : Nat) : List Char :=
  let digits := Nat.toDigits 10 n
  List.replicate (width - digits.length) '0' ++ digits

/-- `n / 10 ^ places`, with a point when there are places. -/
def pointed (places n : Nat) : List Char :=
  let whole := Nat.toDigits 10 (n / Nat.pow 10 places)
  if places = 0 then whole
  else whole ++ '.' :: padded places (n % Nat.pow 10 places)

/-- `num / den` rounded to `places`. -/
def fixed (places num den : Nat) : List Char :=
  pointed places (nearestEven (num * Nat.pow 10 places) den)

end Decimal

namespace Binary64

/-- The text of a number whose finite magnitudes are written by `digits num den`. -/
def textBy (digits : Nat → Nat → List Char) (x : Binary64) : String :=
  let body := match x.value with
    | .finite _ units => digits units one
    | .infinite _ => ['i', 'n', 'f']
    | .nan => ['n', 'a', 'n']
  String.ofList (if x.negative then '-' :: body else body)

def fixedText (places : Nat) (x : Binary64) : String :=
  x.textBy (Decimal.fixed places)

end Binary64
end LockedContainers
