import LockedContainers.Binary64.Basic
import LockedContainers.Text.Bytes

/-!
# Orders, hashes and equalities of probed keys

Lawful and unlawful ones alike, for 32-bit integers, text and binary64 numbers.
-/
namespace LockedContainers.Probe

inductive IntOrder
  | less
  | greater
  | lessOrEqual
  /-- By the last decimal digit, as a remainder. -/
  | lastDigit
  | absolute
  | never
  | always

def IntOrder.precedes : IntOrder → Int → Int → Bool
  | less, a, b => a < b
  | greater, a, b => b < a
  | lessOrEqual, a, b => a ≤ b
  | lastDigit, a, b => a % 10 < b % 10
  | absolute, a, b => a.natAbs < b.natAbs
  | never, _, _ => false
  | always, _, _ => true

inductive TextOrder
  | less
  | greater
  | length
  | caseless

def TextOrder.precedes : TextOrder → String → String → Bool
  | less, a, b => Bytes.before (Bytes.ofText a) (Bytes.ofText b)
  | greater, a, b => Bytes.before (Bytes.ofText b) (Bytes.ofText a)
  | length, a, b => a.utf8ByteSize < b.utf8ByteSize
  | caseless, a, b =>
    Bytes.before ((Bytes.ofText a).map Bytes.lowered) ((Bytes.ofText b).map Bytes.lowered)

inductive NumberOrder
  | less
  | greater
  | lessOrEqual

def NumberOrder.precedes : NumberOrder → Binary64 → Binary64 → Bool
  | less, a, b => a.lt b
  | greater, a, b => b.lt a
  | lessOrEqual, a, b => a.le b

inductive IntHash
  | word
  | constant
  | modFour
  | complement
  | multiplied
  | eighth

def IntHash.hash : IntHash → Int → UInt64
  | word, k => .ofInt k
  | constant, _ => 0
  | modFour, k => .ofInt (k % 4)
  | complement, k => ~~~(.ofInt k)
  | multiplied, k => .ofInt k * 0x9E3779B97F4A7C15
  | eighth, k => .ofInt k / 8

inductive TextHash
  | mixed
  | constant
  | length
  | firstByte

def TextHash.hash : TextHash → String → UInt64
  | mixed, s => Bytes.fold64 (Bytes.ofText s)
  | constant, _ => 0
  | length, s => .ofNat s.utf8ByteSize
  | firstByte, s => ((Bytes.ofText s).head?.getD 0).toUInt64

inductive NumberHash
  /-- Equal numbers hash alike, so both zeros do. -/
  | byValue
  | constant
  | bits

def NumberHash.hash : NumberHash → Binary64 → UInt64
  | byValue, x => if x.equals (.zero false) then 0 else x.bits
  | constant, _ => 0
  | bits, x => x.bits

inductive IntEquality
  | same
  | lastDigit
  | never
  | always
  | less

def IntEquality.equal : IntEquality → Int → Int → Bool
  | same, a, b => a = b
  | lastDigit, a, b => a % 10 = b % 10
  | never, _, _ => false
  | always, _, _ => true
  | less, a, b => a < b

inductive TextEquality
  | same
  | caseless
  | length

def TextEquality.equal : TextEquality → String → String → Bool
  | same, a, b => a = b
  | caseless, a, b => (Bytes.ofText a).map Bytes.lowered = (Bytes.ofText b).map Bytes.lowered
  | length, a, b => a.utf8ByteSize = b.utf8ByteSize

inductive NumberEquality
  | byValue
  | bits

def NumberEquality.equal : NumberEquality → Binary64 → Binary64 → Bool
  | byValue, a, b => a.equals b
  | bits, a, b => a = b

end LockedContainers.Probe
