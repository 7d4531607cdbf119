import LockedContainers.History.Event

/-!
# Sequential models

A model says, event by event, whether the answer is the right one and what
the state is afterwards. The two models here pack a small container into one word.
-/
namespace LockedContainers

structure Model (S : Type) where
  initial : S
  step : S → Event → Bool × S

/-- Verdict and state after each event in turn; a rejected event advances the state too. -/
def Model.run {S : Type} (model : Model S) : S → List Event → List (Bool × S)
  | _, [] => []
  | state, e :: rest =>
    let (ok, next) := model.step state e
    (ok, next) :: model.run next rest

inductive SetOp
  | add
  | remove
  | contains
deriving DecidableEq, Repr

def SetOp.ofCode : Int → SetOp
  | 0 => add
  | 1 => remove
  | _ => contains

inductive MapOp
  | put
  | get
  | remove
deriving DecidableEq, Repr

/-- Every code but two reads. -/
def MapOp.ofCode : Int → MapOp
  | 0 => put
  | 2 => remove
  | _ => get

/-- Bit `key` of the state says whether the key is a member; keys are 0 to 63. -/
def bitSetModel : Model UInt64 where
  initial := 0
  step state e :=
    let bit := (1 : UInt64) <<< UInt64.ofInt e.key
    let present : Int := if state &&& bit = 0 then 0 else 1
    match SetOp.ofCode e.op with
    | .add => (e.result = 1 - present, state ||| bit)
    | .remove => (e.result = present, state &&& ~~~bit)
    | .contains => (e.result = present, state)

/-- Byte `key` of the state is zero when the key is absent and its value plus one otherwise;
keys are 0 to 7, values 0 to 254, and a result of -1 stands for no value. -/
def byteMapModel : Model UInt64 where
  initial := 0
  step state e :=
    let shift := UInt64.ofInt (8 * e.key)
    let current : Int := ((state >>> shift) &&& 0xff).toNat - 1
    let cleared := state &&& ~~~((0xff : UInt64) <<< shift)
    let next := match MapOp.ofCode e.op with
      | .put => cleared ||| (UInt64.ofInt (e.arg + 1) <<< shift)
      | .get => state
      | .remove => cleared
    (e.result = current, next)

end LockedContainers
