/-!
# Text as bytes

Text is measured, ordered and hashed by its UTF-8 bytes, taken as unsigned numbers.
-/
namespace LockedContainers
namespace Bytes

def ofText (s : String) : List UInt8 := s.toUTF8.data.toList

/-- Dictionary order, a proper start first. -/
def before : List UInt8 → List UInt8 → Bool
  | _, [] => false
  | [], _ :: _ => true
  | a :: as, b :: bs => a < b || (a = b && before as bs)

/-- Capital letters of ASCII become small. -/
def lowered (b : UInt8) : UInt8 :=
  if 65 ≤ b ∧ b ≤ 90 then b + 32 else b

/-- From an offset, each byte is mixed in by exclusive or and then by a multiplication. -/
def fold64 (bytes : List UInt8) : UInt64 :=
  bytes.foldl (fun h b => (h ^^^ b.toUInt64) * 0x100000001b3) 0xcbf29ce484222325

end Bytes
end LockedContainers
