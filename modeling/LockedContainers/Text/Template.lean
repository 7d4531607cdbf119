/-!
# Message templates

A template is read from the left. Each pair of braces is a hole for the next
argument; a hole without an argument stays as it is, and argument text is not read again.
-/
namespace LockedContainers.Template

def fill : List Char → List (List Char) → List Char
  | '\x7b' :: '\x7d' :: rest, arg :: args => arg ++ fill rest args
  | '\x7b' :: '\x7d' :: rest, [] => '\x7b' :: '\x7d' :: fill rest []
  | c :: rest, args => c :: fill rest args
  | [], _ => []

def format (template : String) (args : List String) : String :=
  String.ofList (fill template.toList (args.map String.toList))

end LockedContainers.Template
