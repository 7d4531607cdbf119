/-!
# Sweeps over a progression of keys
-/
namespace LockedContainers.Probe

/-- `lo`, `lo + stride`, … as long as `hi` is not reached. -/
def progression (lo hi stride : Int) : List Int :=
  let steps := if 0 < stride then (hi - lo + stride - 1) / stride else (lo - hi - stride - 1) / (-stride)
  (List.range steps.toNat).map fun (i : Nat) => lo + stride * i

/-- The signed 32-bit number with the same low bits. -/
def narrowed (n : Int) : Int := n.bmod (1 <<< 32)

variable {ε s K : Type}

/-- How many keys answer true; a failure ends the sweep. -/
def tally (op : K → EStateM ε s Bool) (keys : List K) : EStateM ε s Nat :=
  keys.foldlM (fun n k => do return if ← op k then n + 1 else n) 0

/-- How many keys answer a value, and the sum of those values. -/
def total (op : K → EStateM ε s (Option Int)) (keys : List K) : EStateM ε s (Nat × Int) :=
  keys.foldlM (fun (n, sum) k => do
    match ← op k with
    | some v => return (n + 1, sum + v)
    | none => return (n, sum)) (0, 0)

end LockedContainers.Probe
