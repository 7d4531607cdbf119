import LockedContainers.Decimal.Fixed
import LockedContainers.Output.Spooler

/-!
# Statistics of a stress run
-/
namespace LockedContainers.Stress

structure Statistics where
  lookups : Nat := 0
  hits : Nat := 0
  inserts : Nat := 0
  freshInserts : Nat := 0
  deletes : Nat := 0
  effectiveDeletes : Nat := 0
  validations : Nat := 0
  /-- In milliseconds. -/
  runtime : Int := 0
  /-- Operations per second, a number for each thread. -/
  readers : List Binary64 := []
  writers : List Binary64 := []

/-- A share in percent with one place; of nothing, as of one. -/
def shareText (part whole : Nat) : String :=
  let share := ((Binary64.ofNat 100).mul (.ofNat part)).div (.ofNat (max 1 whole))
  share.fixedText 1 ++ "%"

/-- Of equal candidates the first stays. -/
def pick (better : Binary64 → Binary64 → Bool) (first : Binary64) (rest : List Binary64) :
    Binary64 :=
  rest.foldl (fun best x => if better x best then x else best) first

/-- Characters that a digest may have. -/
def digestLimit : Nat := 95

/-- Mean, least and greatest as whole numbers. -/
def digest : List Binary64 → String
  | [] => "n/a"
  | first :: rest =>
    let sum := (first :: rest).foldl Binary64.add (.zero false)
    let mean := sum.div (.ofNat (rest.length + 1))
    let least := pick (fun x best => x.lt best) first rest
    let greatest := pick (fun x best => best.lt x) first rest
    let text := Template.format "avg=\x7b\x7d, min=\x7b\x7d, max=\x7b\x7d"
      [mean.fixedText 0, least.fixedText 0, greatest.fixedText 0]
    String.ofList (text.toList.take digestLimit)

def Statistics.print (stats : Statistics) (spooler : Spooler) : Spooler :=
  spooler
    |>.print "  runtime: \x7b\x7d ms" [toString stats.runtime]
    |>.print "  lookups: \x7b\x7d (hits \x7b\x7d)"
      [toString stats.lookups, shareText stats.hits stats.lookups]
    |>.print "  inserts: \x7b\x7d (fresh \x7b\x7d)"
      [toString stats.inserts, shareText stats.freshInserts stats.inserts]
    |>.print "  deletes: \x7b\x7d (successful \x7b\x7d)"
      [toString stats.deletes, shareText stats.effectiveDeletes stats.deletes]
    |>.print "  live validations: \x7b\x7d" [toString stats.validations]
    |>.print "  reader ops/sec: \x7b\x7d" [digest stats.readers]
    |>.print "  writer ops/sec: \x7b\x7d" [digest stats.writers]

end LockedContainers.Stress
