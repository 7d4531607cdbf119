import LockedContainers.Decimal.General

/-!
# Values as message arguments
-/
namespace LockedContainers

inductive TextValue
  | text (s : String)
  | integer (n : Int)
  | flag (b : Bool)
  | number (x : Binary64)
  | character (c : Char)
deriving DecidableEq, Repr

def TextValue.display : TextValue → String
  | text s => s
  | integer n => toString n
  | flag b => if b then "true" else "false"
  | number x => x.displayText
  | character c => c.toString

end LockedContainers
