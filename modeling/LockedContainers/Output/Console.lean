import LockedContainers.Text.Template

/-!
# Lines written to two streams
-/
namespace LockedContainers

/-- Everything written so far to the output and to the error stream. -/
structure Console where
  out : String := ""
  err : String := ""
deriving DecidableEq, Repr

structure Line where
  toError : Bool
  text : String
deriving DecidableEq, Repr

namespace Console

def write (console : Console) (line : Line) : Console :=
  if line.toError then { console with err := console.err ++ line.text ++ "\n" }
  else { console with out := console.out ++ line.text ++ "\n" }

def printLine (console : Console) (template : String) (args : List String) : Console :=
  console.write ⟨false, Template.format template args⟩

def errorLine (console : Console) (template : String) (args : List String) : Console :=
  console.write ⟨true, Template.format template args⟩

end Console
end LockedContainers
