import LockedContainers.Proofs.Map.Effects
import LockedContainers.Proofs.Map.Stripes

/-!
# What a step does to the stripes and the map

A step takes a stripe, gives one up, or changes the map under the stripes in
hand. An insertion and a removal pass through stages in which the counter and
the table differ by their own entry.
-/
namespace LockedContainers

variable {K V ε σ α β : Type}

namespace StripeBank

/-- How far an update has come in what it does to the table and the counter. -/
inductive Stage
  | idle
  /-- An insertion that found room and is not linked. -/
  | linking
  /-- Linked and not counted. -/
  | tallying
  /-- Unlinked and still counted. -/
  | discounting
deriving DecidableEq, Repr

namespace Task

/-- The first of the stripes in hand, and how many there are from it on. -/
def span (S : Nat) : Task K V ε → Nat × Nat
  | asked _ => (0, 0)
  | knocking _ _ => (0, 0)
  | searching _ h => (h.toNat % S, 1)
  | found _ h _ _ => (h.toNat % S, 1)
  | weighing put _ => (put.hash.toNat % S, 1)
  | linking put _ => (put.hash.toNat % S, 1)
  | tallying put => (put.hash.toNat % S, 1)
  | discounting h _ _ => (h.toNat % S, 1)
  | peeking _ => (0, 0)
  | reading _ => (0, 1)
  | barring _ taken => (0, taken)
  | barred _ => (0, S)
  | doubling _ => (0, S)
  | leaving first left _ => (first, left)

def stage : Task K V ε → Stage
  | linking _ _ => .linking
  | tallying _ => .tallying
  | discounting _ _ _ => .discounting
  | _ => .idle

/-- The slot is one of the stripe of the hash. -/
def Slotted (S : Nat) (map : StripedMap K V) (h : UInt64) (slot : Nat) : Prop :=
  slot < map.table.size ∧ slot % S = h.toNat % S

/-- What a task can rely on. -/
def Knows (S : Nat) (map : StripedMap K V) : Task K V ε → Prop
  | found _ h slot search =>
    Slotted S map h slot ∧ ∀ hit ∈ search, hit.bucket = map.table.bucket slot
  | weighing put slot => Slotted S map put.hash slot
  | linking put slot => Slotted S map put.hash slot
  | tallying put => ∃ slot, slot % S = put.hash.toNat % S ∧ map.table.bucket slot ≠ []
  | barring _ taken => taken ≤ S
  | doubling _ => map.isFull
  | leaving first left _ => first + left ≤ S
  | _ => True

end Task

/-- The stripes in the hands of a thread that may be inside an operation. -/
def Holds (S : Nat) (task : Option (Task K V ε)) (i : Nat) : Prop :=
  ∃ t ∈ task, (t.span S).1 ≤ i ∧ i < (t.span S).1 + (t.span S).2

def stageOf (task : Option (Task K V ε)) : Stage := task.elim .idle Task.stage

/-- One stripe is taken, one is given up, or none. -/
inductive Regrip (locked : Nat → Bool) (held held' : Nat → Prop) : (Nat → Bool) → Prop
  | same (h : ∀ i, held' i ↔ held i) : Regrip locked held held' locked
  | take (i : Nat) (free : locked i = false) (h : ∀ j, held' j ↔ j = i ∨ held j) :
      Regrip locked held held' (Function.update locked i true)
  | give (i : Nat) (mine : held i) (h : ∀ j, held' j ↔ j ≠ i ∧ held j) :
      Regrip locked held held' (Function.update locked i false)

/-- How a step changes counter and entries with the stage. -/
inductive Shift (map map' : StripedMap K V) : Stage → Stage → Prop
  | level (count : map'.count = map.count)
      (entries : map'.table.entries.length = map.table.entries.length) : Shift map map' .idle .idle
  | pass (room : map.isFull = false) (count : map'.count = map.count)
      (entries : map'.table.entries.length = map.table.entries.length) :
      Shift map map' .idle .linking
  | link (count : map'.count = map.count)
      (entries : map'.table.entries.length = map.table.entries.length + 1) :
      Shift map map' .linking .tallying
  /-- There is no storage for the entry. -/
  | quit (count : map'.count = map.count)
      (entries : map'.table.entries.length = map.table.entries.length) :
      Shift map map' .linking .idle
  | tally (count : map'.count = map.count + 1)
      (entries : map'.table.entries.length = map.table.entries.length) :
      Shift map map' .tallying .idle
  | unlink (count : map'.count = map.count)
      (entries : map'.table.entries.length + 1 = map.table.entries.length) :
      Shift map map' .idle .discounting
  | discount (count : map'.count = map.count - 1)
      (entries : map'.table.entries.length = map.table.entries.length) :
      Shift map map' .discounting .idle

/-- The buckets of a stripe are the same, in a table of the same size. -/
def Alike (S i : Nat) (map map' : StripedMap K V) : Prop :=
  map'.table.size = map.table.size ∧
    ∀ slot, slot % S = i → map'.table.bucket slot = map.table.bucket slot

/-- The stripe is the only one in the hands of a thread. -/
def HoldsOnly (S : Nat) (task : Option (Task K V ε)) (i : Nat) : Prop := ∀ j, Holds S task j ↔ j = i

/-- What a step of a task makes of the bank and of itself, and what it leaves alone. -/
structure Move (S : Nat) (bank : StripeBank K V) (task : Task K V ε) (bank' : StripeBank K V)
    (out : Option (Task K V ε)) : Prop where
  options : bank'.map.options = bank.map.options
  regrip : Regrip bank.locked (Holds S (some task)) (Holds S out) bank'.locked
  knows : ∀ t ∈ out, t.Knows S bank'.map
  /-- The buckets of another's stripe stay as they are. -/
  spares : ∀ i < S, ¬ Holds S (some task) i → Alike S i bank.map bank'.map
  /-- Without a stripe in hand nothing changes. -/
  idle : (∀ i < S, ¬ Holds S (some task) i) → bank'.map = bank.map
  shift : Shift bank.map bank'.map task.stage (stageOf out)
  /-- An update goes through its stages under one stripe. -/
  staged : task.stage = .idle ∧ stageOf out = .idle ∨
    ∃ i < S, HoldsOnly S (some task) i ∧ HoldsOnly S out i ∧ bank'.locked = bank.locked
  /-- The table is replaced only when it is full, by one of twice the size. -/
  grows : bank'.map.table.size = bank.map.table.size ∧ bank'.map.growths = bank.map.growths ∨
    bank.map.isFull ∧ LockedMap.Doubled bank.map bank'.map

section Holds
variable {S : Nat} {task : Task K V ε} {i : Nat}

theorem holds_some : Holds S (some task) i ↔
    (task.span S).1 ≤ i ∧ i < (task.span S).1 + (task.span S).2 := by
  simp [Holds]

theorem not_holds_none : ¬ Holds S (none : Option (Task K V ε)) i := by
  simp [Holds]

end Holds

theorem holdsOnly_of_span {S : Nat} {task : Task K V ε} {i : Nat} (span : task.span S = (i, 1)) :
    HoldsOnly S (some task) i := by
  intro j
  rw [holds_some, span]
  omega

section Moves
variable {S : Nat} {bank : StripeBank K V} {task task' : Task K V ε}

/-- A step that leaves the map alone. -/
theorem Move.of_map {locked : Nat → Bool} {out : Option (Task K V ε)}
    (regrip : Regrip bank.locked (Holds S (some task)) (Holds S out) locked)
    (stage : task.stage = .idle) (stage' : stageOf out = .idle)
    (knows : ∀ t ∈ out, t.Knows S bank.map) : Move S bank task ⟨bank.map, locked⟩ out where
  options := rfl
  regrip := regrip
  knows := knows
  spares _ _ _ := ⟨rfl, fun _ _ => rfl⟩
  idle _ := rfl
  shift := by
    rw [stage, stage']
    exact .level rfl rfl
  staged := .inl ⟨stage, stage'⟩
  grows := .inl ⟨rfl, rfl⟩

/-- A step that neither takes a stripe nor gives one up, and leaves the map alone. -/
theorem Move.still (span : task'.span S = task.span S) (stage : task.stage = .idle)
    (stage' : task'.stage = .idle) (knows : task'.Knows S bank.map) :
    Move S bank task bank (some task') := by
  refine .of_map (.same fun i => ?_) stage stage' (by simpa using knows)
  rw [holds_some, holds_some, span]

section Single
variable {map' : StripedMap K V} {slot count i : Nat} {b : Bucket K V}
  (bound : i < S) (span : task.span S = (i, 1)) (span' : task'.span S = (i, 1))
  (shift : Shift bank.map map' task.stage task'.stage) (knows : task'.Knows S map')
include bound span span' shift knows

/-- A step under one stripe, which changes what that stripe guards or the counter. -/
theorem Move.single (options : map'.options = bank.map.options)
    (spares : ∀ j < S, j ≠ i → Alike S j bank.map map')
    (grows : map'.table.size = bank.map.table.size ∧ map'.growths = bank.map.growths) :
    Move S bank task ⟨map', bank.locked⟩ (some task') where
  options := options
  regrip := .same fun j => by rw [holds_some, holds_some, span, span']
  knows := by simpa using knows
  spares j hj hi := spares j hj fun h => hi ((holdsOnly_of_span span j).2 h)
  idle hnone := absurd ((holdsOnly_of_span span i).2 rfl) (hnone i bound)
  shift := shift
  staged := .inr ⟨i, bound, holdsOnly_of_span span, holdsOnly_of_span span', rfl⟩
  grows := .inl grows

/-- One bucket of the stripe is written. -/
theorem Move.write
    (written : map' = { bank.map with table := bank.map.table.setIfInBounds slot b })
    (inside : slot < bank.map.table.size) (mine : slot % S = i) :
    Move S bank task ⟨map', bank.locked⟩ (some task') := by
  apply Move.single bound span span' shift knows
  · rw [written]
  · rintro j - hj
    rw [written]
    refine ⟨by simp, fun other hother => ?_⟩
    have hne : other ≠ slot := by
      rintro rfl
      exact hj (hother ▸ mine)
    rw [Table.bucket_setIfInBounds _ _ inside, if_neg hne]
  · simp [written]

/-- The counter is written under the stripe. -/
theorem Move.recount (written : map' = { bank.map with count }) :
    Move S bank task ⟨map', bank.locked⟩ (some task') := by
  apply Move.single bound span span' shift knows
  · rw [written]
  · rintro j - -
    rw [written]
    exact ⟨rfl, fun _ _ => rfl⟩
  · simp [written]

end Single

/-- The table is replaced under all stripes. -/
theorem Move.double {map' : StripedMap K V} (positive : 0 < S) (span : task.span S = (0, S))
    (span' : task'.span S = (0, S)) (stage : task.stage = .idle) (stage' : task'.stage = .idle)
    (full : bank.map.isFull) (doubled : LockedMap.Doubled bank.map map')
    (knows : task'.Knows S map') : Move S bank task ⟨map', bank.locked⟩ (some task') where
  options := doubled.options
  regrip := .same fun i => by rw [holds_some, holds_some, span, span']
  knows := by simpa using knows
  spares i hi hi' := by
    rw [holds_some, span] at hi'
    omega
  idle hnone := by
    have hzero := hnone 0 positive
    rw [holds_some, span] at hzero
    omega
  shift := by
    rw [stage, stageOf, Option.elim_some, stage']
    exact .level doubled.count doubled.entries.length_eq
  staged := .inl ⟨stage, stage'⟩
  grows := .inr ⟨full, doubled⟩

end Moves

/-- What follows a section on the map. -/
theorem ends_onMap_bind {bank : StripeBank K V} {act : MapSection .striped K V ε σ α}
    {next : Except (MapFailure ε) α → Section K V ε σ β}
    {answers : α → StripedMap K V → Prop} {errors : MapFailure ε → StripedMap K V → Prop}
    {post : β → StripeBank K V → Prop} {failed : MapFailure ε → StripeBank K V → Prop}
    (hact : Ends bank.map act answers errors)
    (hok : ∀ a map', answers a map' → Ends { bank with map := map' } (next (.ok a)) post failed)
    (herror : ∀ f map', errors f map' →
      Ends { bank with map := map' } (next (.error f)) post failed) :
    Ends bank (onMap act >>= next) post failed := by
  intro o
  simp only [bind, EStateM.bind, onMap]
  cases hrun : act ⟨bank.map, o⟩ with
  | ok a s => exact hok a _ (hact.of_ok hrun) s.outside
  | error f s => exact herror f _ (hact.of_error hrun) s.outside

theorem ends_modifyMap_bind {bank : StripeBank K V} {f : StripedMap K V → StripedMap K V}
    {next : Unit → Section K V ε σ β} {post : β → StripeBank K V → Prop}
    {failed : MapFailure ε → StripeBank K V → Prop}
    (h : Ends { bank with map := f bank.map } (next ()) post failed) :
    Ends bank (modifyMap f >>= next) post failed := h

namespace Task
variable {S : Nat} {bank bank' : StripeBank K V} {task task' : Task K V ε}

/-- What a task finds when its turn comes. -/
structure Situated (S : Nat) (bank : StripeBank K V) (task : Task K V ε) : Prop where
  stripes : StripedMap.stripes bank.map = S
  positive : 0 < S
  even : S ∣ bank.map.table.size
  knows : task.Knows S bank.map

/-- Whatever comes of it, the task makes a move from `bank`. -/
def Moves (S : Nat) (bank : StripeBank K V) (task : Task K V ε) (bank' : StripeBank K V)
    (act : Section K V ε σ (Progress K V ε)) : Prop :=
  Ends bank' act (fun out c => Move S bank task c out.getRight?) fun _ c => Move S bank task c none

theorem moves_on (h : Move S bank task bank' (some task')) :
    Moves S bank task bank' (return .inr task' : Section K V ε σ (Progress K V ε)) :=
  .pure h

theorem moves_acquire {i : Nat} (stage : task.stage = .idle) (stage' : task'.stage = .idle)
    (knows : task.Knows S bank.map) (knows' : task'.Knows S bank.map)
    (held : ∀ j, Holds S (some task') j ↔ j = i ∨ Holds S (some task) j) :
    Moves S bank task bank (acquire i task task' : Section K V ε σ (Progress K V ε)) := by
  apply Ends.read_bind
  by_cases hlocked : bank.locked i = true
  · rw [if_pos hlocked]
    exact moves_on (.still rfl stage stage knows)
  · rw [if_neg hlocked]
    rw [Bool.not_eq_true] at hlocked
    apply Ends.modify_bind
    exact moves_on (.of_map (.take i hlocked held) stage stage' (by simpa using knows'))

theorem moves_release {i : Nat} (stage : task.stage = .idle) (stage' : task'.stage = .idle)
    (knows' : task'.Knows S bank.map) (mine : Holds S (some task) i)
    (held : ∀ j, Holds S (some task') j ↔ j ≠ i ∧ Holds S (some task) j) :
    Moves S bank task bank (release i task' : Section K V ε σ (Progress K V ε)) := by
  apply Ends.modify_bind
  exact moves_on (.of_map (.give i mine held) stage stage' (by simpa using knows'))

theorem moves_part {h : UInt64} {ending : Ending K V ε}
    (stripes : StripedMap.stripes bank'.map = S)
    (move : Move S bank task bank' (some (.leaving (h.toNat % S) 1 ending))) :
    Moves S bank task bank' (part h ending : Section K V ε σ (Progress K V ε)) := by
  apply Ends.read_bind
  rw [StripedMap.stripeOf, stripes]
  exact moves_on move

theorem moves_unbar {ending : Ending K V ε} (stripes : StripedMap.stripes bank'.map = S)
    (move : Move S bank task bank' (some (.leaving 0 S ending))) :
    Moves S bank task bank' (unbar ending : Section K V ε σ (Progress K V ε)) := by
  apply Ends.read_bind
  rw [stripes]
  exact moves_on move

section Phases
variable (cb : MapCallbacks K V ε σ)

theorem moves_asked (request : MapRequest K V) :
    Moves S bank (.asked request) bank (next cb (.asked request)) := by
  have hnone : Move S bank (.asked request : Task K V ε) bank none :=
    .of_map (.same fun i => by simp [Holds, span]) rfl rfl (by simp)
  have hkey : ∀ r : KeyRequest K V, Moves S bank (.asked request) bank (approach cb r) := by
    intro r
    apply Ends.ask_any_bind (Yields.any _) (fun _ => hnone)
    exact fun h _ => moves_on (.still rfl rfl rfl trivial)
  cases request with
  | put key value => exact hkey _
  | get key => exact hkey _
  | remove key => exact hkey _
  | contains key => exact hkey _
  | size => exact .read_bind (.pure hnone)
  | isEmpty => exact .read_bind (.pure hnone)
  | options => exact .read_bind (.pure hnone)
  | audit => exact moves_on (.still rfl rfl rfl (Nat.zero_le S))
  | _ => exact moves_on (.still rfl rfl rfl trivial)

/-- The outcome is settled without another look at the map. -/
theorem Situated.moves_settle (sit : Situated S bank task) {h : UInt64} {ending : Ending K V ε}
    (span : task.span S = (h.toNat % S, 1)) (stage : task.stage = .idle) :
    Moves S bank task bank (part h ending : Section K V ε σ (Progress K V ε)) := by
  exact moves_part sit.stripes (.still span.symm stage rfl (Nat.mod_lt _ sit.positive))

theorem moves_knocking {r : KeyRequest K V} {h : UInt64}
    (sit : Situated S bank (.knocking r h : Task K V ε)) :
    Moves S bank (.knocking r h) bank (next cb (.knocking r h)) := by
  apply Ends.read_bind
  rw [StripedMap.stripeOf, sit.stripes]
  apply moves_acquire rfl rfl sit.knows
  · trivial
  · intro j
    simp only [holds_some, span]
    omega

theorem moves_searching {r : KeyRequest K V} {h : UInt64}
    (sit : Situated S bank (.searching r h : Task K V ε)) :
    Moves S bank (.searching r h) bank (next cb (.searching r h)) := by
  apply ends_onMap_bind (LockedMap.ends_lookup_any cb h)
  · rintro ⟨slot, hit⟩ map' ⟨rfl, hslot, hbound, hcut⟩
    refine moves_on (.still rfl rfl rfl ⟨⟨hbound, ?_⟩, hcut⟩)
    rw [show slot = _ from hslot, Nat.mod_mod_of_dvd _ sit.even]
  · rintro f map' ⟨rfl, -⟩
    exact sit.moves_settle rfl rfl

theorem moves_weighing {put : Insertion K V} {slot : Nat}
    (sit : Situated S bank (.weighing put slot : Task K V ε)) :
    Moves S bank (.weighing put slot) bank (next cb (.weighing put slot)) := by
  apply Ends.read_bind
  by_cases hfull : bank.map.isFull = true
  · rw [if_pos hfull]
    exact sit.moves_settle rfl rfl
  · rw [if_neg hfull]
    rw [Bool.not_eq_true] at hfull
    have hpass : Shift bank.map bank.map .idle .linking := .pass hfull rfl rfl
    exact moves_on (.recount (Nat.mod_lt _ sit.positive) rfl rfl hpass sit.knows rfl)

theorem moves_linking {put : Insertion K V} {slot : Nat}
    (sit : Situated S bank (.linking put slot : Task K V ε)) :
    Moves S bank (.linking put slot) bank (next cb (.linking put slot)) := by
  obtain ⟨hbound, hstripe⟩ := sit.knows
  have hleave : put.hash.toNat % S < S := Nat.mod_lt _ sit.positive
  apply ends_onMap_bind (LockedMap.ends_makeRoom_any cb slot)
  · rintro _ map' rfl
    apply ends_modifyMap_bind
    rw [Table.append_eq_setIfInBounds _ hbound]
    have hlength := (Table.entries_append_perm (put.key, put.value) hbound).length_eq
    rw [Table.append_eq_setIfInBounds _ hbound, List.length_append] at hlength
    apply moves_on
    refine .write hleave rfl rfl (.link rfl hlength) ⟨slot, hstripe, ?_⟩ rfl hbound hstripe
    simp [Table.bucket_setIfInBounds _ _ hbound]
  · rintro f map' ⟨rfl, -⟩
    exact moves_part sit.stripes (.recount hleave rfl rfl (.quit rfl rfl) hleave rfl)

theorem moves_tallying {put : Insertion K V}
    (sit : Situated S bank (.tallying put : Task K V ε)) :
    Moves S bank (.tallying put) bank (next cb (.tallying put)) := by
  have hstripe : put.hash.toNat % S < S := Nat.mod_lt _ sit.positive
  apply ends_modifyMap_bind
  apply moves_part
  · exact sit.stripes
  · exact .recount hstripe rfl rfl (.tally rfl rfl) hstripe rfl

theorem moves_discounting {h : UInt64} {key : K} {value : V}
    (sit : Situated S bank (.discounting h key value : Task K V ε)) :
    Moves S bank (.discounting h key value) bank (next cb (.discounting h key value)) := by
  have hstripe : h.toNat % S < S := Nat.mod_lt _ sit.positive
  apply ends_modifyMap_bind
  apply moves_part
  · exact sit.stripes
  · exact .recount hstripe rfl rfl (.discount rfl rfl) hstripe rfl

/-- What was found is overwritten or unlinked, copied or reported; where nothing was found an
insertion goes on to the counter. -/
theorem moves_found {r : KeyRequest K V} {h : UInt64} {slot : Nat} {hit : Option (Hit K V)}
    (sit : Situated S bank (.found r h slot hit : Task K V ε)) :
    Moves S bank (.found r h slot hit) bank (next cb (.found r h slot hit)) := by
  obtain ⟨⟨hbound, hstripe⟩, hcut⟩ := sit.knows
  have hsettle : ∀ ending : Ending K V ε,
      Moves S bank (.found r h slot hit) bank (part h ending : Section K V ε σ (Progress K V ε)) :=
    fun _ => sit.moves_settle rfl rfl
  have hleave : h.toNat % S < S := Nat.mod_lt _ sit.positive
  cases hit with
  | none =>
    cases r with
    | put key value => exact moves_on (.still rfl rfl rfl ⟨hbound, hstripe⟩)
    | _ => exact hsettle _
  | some hit =>
    have hlength : ∀ b : Bucket K V,
        (Table.entries (bank.map.table.setIfInBounds slot b)).length + hit.bucket.length =
          bank.map.table.entries.length + b.length := by
      intro b
      obtain ⟨front, back, hentries, hset⟩ := Table.entries_setIfInBounds hbound
      rw [hset, hentries, hcut hit rfl]
      simp only [List.length_append]
      omega
    cases r with
    | put key value =>
      apply ends_modifyMap_bind
      apply moves_part
      · exact sit.stripes
      · refine .write hleave rfl rfl (.level rfl ?_) hleave rfl hbound hstripe
        have hreplaced := hlength (hit.replaced value)
        simp only [Hit.bucket, Hit.replaced, List.length_append, List.length_cons] at hreplaced
        simp only [Hit.replaced]
        omega
    | get key =>
      have hcopy : Ends bank.map (Guarded.ask (cb.copy hit.value)) (fun _ map' => map' = bank.map)
          fun _ map' => map' = bank.map := by
        rw [← bind_pure (Guarded.ask (cb.copy hit.value))]
        exact .ask_any_bind (Yields.any _) (fun _ => rfl) fun _ _ => .pure rfl
      apply ends_onMap_bind hcopy
      · rintro v map' rfl
        exact hsettle _
      · rintro f map' rfl
        exact hsettle _
    | remove key =>
      apply ends_modifyMap_bind
      apply moves_on
      refine .write hleave rfl rfl (.unlink rfl ?_) trivial rfl hbound hstripe
      have hremoved := hlength hit.removed
      rw [hit.removed_perm.length_eq] at hremoved
      simp only [Hit.bucket, List.length_append, List.length_cons] at hremoved
      dsimp only
      omega
    | contains key => exact hsettle _

theorem moves_peeking {g : Glance} (sit : Situated S bank (.peeking g : Task K V ε)) :
    Moves S bank (.peeking g) bank (next cb (.peeking g)) := by
  apply moves_acquire rfl rfl sit.knows
  · trivial
  · intro j
    simp only [holds_some, span]
    omega

theorem moves_reading {g : Glance} (sit : Situated S bank (.reading g : Task K V ε)) :
    Moves S bank (.reading g) bank (next cb (.reading g)) := by
  have hglance : Ends bank.map (g.request.perform cb) (fun _ map' => map' = bank.map)
      fun _ map' => map' = bank.map := by
    cases g <;> exact .map (.read_bind (.pure rfl))
  apply ends_onMap_bind hglance
  · rintro a map' rfl
    exact moves_on (.still rfl rfl rfl sit.positive)
  · rintro f map' rfl
    exact moves_on (.still rfl rfl rfl sit.positive)

theorem moves_barring {purpose : Purpose K V} {taken : Nat}
    (sit : Situated S bank (.barring purpose taken : Task K V ε)) :
    Moves S bank (.barring purpose taken) bank (next cb (.barring purpose taken)) := by
  have hknows : taken ≤ S := sit.knows
  apply Ends.read_bind
  rw [sit.stripes]
  by_cases hless : taken < S
  · rw [if_pos hless]
    apply moves_acquire rfl rfl sit.knows
    · exact hless
    · intro j
      simp only [holds_some, span]
      omega
  · rw [if_neg hless]
    refine moves_on (.still ?_ rfl rfl trivial)
    rw [span, span, Nat.le_antisymm hknows (Nat.not_lt.1 hless)]

theorem moves_barred {purpose : Purpose K V}
    (sit : Situated S bank (.barred purpose : Task K V ε)) :
    Moves S bank (.barred purpose) bank (next cb (.barred purpose)) := by
  have hunbar : ∀ ending : Ending K V ε,
      Moves S bank (.barred purpose) bank (unbar ending : Section K V ε σ (Progress K V ε)) :=
    fun _ => moves_unbar sit.stripes (.still rfl rfl rfl (Nat.le_of_eq (Nat.zero_add S)))
  cases purpose with
  | growth put seen =>
    apply Ends.read_bind
    by_cases hgrow : (bank.map.table.size = seen && bank.map.isFull) = true
    · rw [if_pos hgrow]
      rw [Bool.and_eq_true] at hgrow
      exact moves_on (.still rfl rfl rfl hgrow.2)
    · rw [if_neg hgrow]
      exact hunbar _
  | audit =>
    apply ends_onMap_bind (LockedMap.ends_perform_any cb bank.map .audit)
    · rintro a map' rfl
      exact hunbar _
    · rintro f map' ⟨rfl, -⟩
      exact hunbar _

theorem moves_doubling {put : Insertion K V}
    (sit : Situated S bank (.doubling put : Task K V ε)) :
    Moves S bank (.doubling put) bank (next cb (.doubling put)) := by
  have hleave : 0 + S ≤ S := Nat.le_of_eq (Nat.zero_add S)
  have hdouble : Ends bank.map (LockedMap.double cb)
      (fun _ map' => LockedMap.Doubled bank.map map') fun _ map' => map' = bank.map := by
    rw [← bind_pure (LockedMap.double cb)]
    exact LockedMap.ends_double_any_bind cb (fun _ _ => rfl) fun _ h => .pure h
  apply ends_onMap_bind hdouble
  · intro u map' hdoubled
    apply moves_unbar
    · rw [StripedMap.stripes, hdoubled.options]
      exact sit.stripes
    · exact .double sit.positive rfl rfl rfl rfl sit.knows hdoubled hleave
  · rintro f map' rfl
    exact moves_unbar sit.stripes (.still rfl rfl rfl hleave)

/-- The last stripe is given up, or none is left. -/
theorem moves_leaving {first left : Nat} {ending : Ending K V ε}
    (sit : Situated S bank (.leaving first left ending)) :
    Moves S bank (.leaving first left ending) bank (next cb (.leaving first left ending)) := by
  have hknows : first + left ≤ S := sit.knows
  cases left with
  | succ left =>
    apply moves_release rfl rfl
    · exact Nat.le_trans (Nat.le_succ _) hknows
    · simp [holds_some, span]
    · intro j
      simp only [holds_some, span]
      omega
  | zero =>
    have hout : ∀ out : Option (Task K V ε), (∀ i, ¬ Holds S out i) → stageOf out = .idle →
        (∀ t ∈ out, t.Knows S bank.map) → Move S bank (.leaving first 0 ending) bank out := by
      intro out hnone hstage hknows
      refine .of_map (.same fun i => ?_) rfl hstage hknows
      simp [hnone i, holds_some, span]
    cases ending with
    | settled request outcome =>
      cases outcome with
      | ok a => exact .pure (hout none (fun _ => not_holds_none) rfl (by simp))
      | error f => exact .throw (hout none (fun _ => not_holds_none) rfl (by simp))
    | growing put seen =>
      exact moves_on (hout _ (by simp [holds_some, span]) rfl (by simp [Knows]))
    | retrying put => exact moves_on (hout _ (by simp [holds_some, span]) rfl (by simp [Knows]))

/-- Every step of a task is a move. -/
theorem Situated.moves (sit : Situated S bank task) : Moves S bank task bank (next cb task) := by
  cases task with
  | asked request => exact moves_asked cb request
  | knocking r h => exact moves_knocking cb sit
  | searching r h => exact moves_searching cb sit
  | found r h slot hit => exact moves_found cb sit
  | weighing put slot => exact moves_weighing cb sit
  | linking put slot => exact moves_linking cb sit
  | tallying put => exact moves_tallying cb sit
  | discounting h key value => exact moves_discounting cb sit
  | peeking g => exact moves_peeking cb sit
  | reading g => exact moves_reading cb sit
  | barring purpose taken => exact moves_barring cb sit
  | barred purpose => exact moves_barred cb sit
  | doubling put => exact moves_doubling cb sit
  | leaving first left ending => exact moves_leaving cb sit

end Phases
end Task
end StripeBank
end LockedContainers
