import LockedContainers.Binary64.Basic

/-!
# Binary64 arithmetic

Every operation takes the exact result and rounds it once, to the nearest
number and a tie to the even one.
-/
namespace LockedContainers

/-- The whole number nearest to `num / den`, the even one of two. -/
def nearestEven (num den : Nat) : Nat :=
  let q := num / den
  let r := num % den
  if 2 * r < den then q
  else if den < 2 * r then q + 1
  else q + q % 2

namespace Binary64

/-- The representable number of units nearest to `num / den`. -/
def roundUnits (num den : Nat) : Nat :=
  let place := lastPlace (num / den)
  nearestEven num (den <<< place) <<< place

/-- `num / den` units, rounded. -/
def ofRatio (negative : Bool) (num den : Nat) : Binary64 :=
  ofUnits negative (roundUnits num den)

def ofNat (n : Nat) : Binary64 := ofRatio false (n * one) 1

def mul (x y : Binary64) : Binary64 :=
  match x.value, y.value with
  | .nan, _ => x.quiet
  | _, .nan => y.quiet
  | .finite s u, .finite t v => ofRatio (s ^^ t) (u * v) one
  | .infinite s, .finite t v => if v = 0 then invalid else infinity (s ^^ t)
  | .finite s u, .infinite t => if u = 0 then invalid else infinity (s ^^ t)
  | .infinite s, .infinite t => infinity (s ^^ t)

def div (x y : Binary64) : Binary64 :=
  match x.value, y.value with
  | .nan, _ => x.quiet
  | _, .nan => y.quiet
  | .finite s u, .finite t v =>
    if v ≠ 0 then ofRatio (s ^^ t) (u * one) v
    else if u = 0 then invalid
    else infinity (s ^^ t)
  | .infinite s, .finite t _ => infinity (s ^^ t)
  | .finite s _, .infinite t => zero (s ^^ t)
  | .infinite _, .infinite _ => invalid

def add (x y : Binary64) : Binary64 :=
  match x.value, y.value with
  | .nan, _ => x.quiet
  | _, .nan => y.quiet
  | .finite s u, .finite t v =>
    if s = t then ofRatio s (u + v) 1
    else if u = v then zero false
    else if u < v then ofRatio t (v - u) 1
    else ofRatio s (u - v) 1
  | .infinite s, .finite _ _ => infinity s
  | .finite _ _, .infinite t => infinity t
  | .infinite s, .infinite t => if s = t then infinity s else invalid

/-- The least whole number that is not below `x`; the sign of a zero result is that of `x`. -/
def ceil (x : Binary64) : Binary64 :=
  match x.value with
  | .finite true u => ofUnits true (u / one * one)
  | .finite false u => ofUnits false ((u + one - 1) / one * one)
  | _ => x

end Binary64
end LockedContainers
