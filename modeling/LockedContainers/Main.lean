import LockedContainers.Showcase

/-!
# The showcase as a program
-/

def main : IO UInt32 := do
  match LockedContainers.Showcase.perform 20000 with
  | .ok (code, console) =>
    IO.print console.out
    IO.eprint console.err
    return code
  | .error _ =>
    IO.eprintln "out of memory"
    return 1
