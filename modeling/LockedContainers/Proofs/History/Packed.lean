import LockedContainers.Proofs.History.Search
import LockedContainers.Proofs.Sequential

/-!
# What the packed words stand for

A word of 64 bits is read as a set of small keys, bit by bit, and as a map from
eight keys to small values, byte by byte. Each model moves its word as its
container moves, and accepts an event exactly when the container gives that
answer.
-/
namespace LockedContainers

/-- The answers and the changes of a set, as numbers. -/
def SetOp.object : SequentialObject (Int → Bool) Invocation Int where
  accepts members i result :=
    result = match ofCode i.op with
      | .add => if members i.key then 0 else 1
      | .remove | .contains => if members i.key then 1 else 0
  effect members i :=
    match ofCode i.op with
    | .add => Function.update members i.key true
    | .remove => Function.update members i.key false
    | .contains => members

/-- The answers and the changes of a map, as numbers, under a reading of the operation codes. -/
def MapOp.object (read : Int → MapOp) : SequentialObject (Int → Option Int) Invocation Int where
  accepts values i result := result = (values i.key).getD (-1)
  effect values i :=
    match read i.op with
    | .put => Function.update values i.key (some i.arg)
    | .get => values
    | .remove => Function.update values i.key none

/-- A set model takes keys below 64. -/
def SetOp.InRange (i : Invocation) : Prop := 0 ≤ i.key ∧ i.key < 64

instance : DecidablePred SetOp.InRange := fun _ => inferInstanceAs (Decidable (_ ∧ _))

/-- A map model takes keys below 8 and puts values below 255. -/
def MapOp.InRange (i : Invocation) : Prop :=
  0 ≤ i.key ∧ i.key < 8 ∧ (ofCode i.op = .put → 0 ≤ i.arg ∧ i.arg < 255)

instance : DecidablePred MapOp.InRange := fun _ => inferInstanceAs (Decidable (_ ∧ _ ∧ _))

theorem wordOf_natCast {n : Nat} (h : n < 2 ^ 64) : UInt64.ofInt n = UInt64.ofNat n := by
  rw [UInt64.ofInt]
  congr 1
  omega

theorem testBit_not (w : UInt64) {i : Nat} (h : i < 64) :
    (~~~w).toNat.testBit i = !w.toNat.testBit i := by
  have hnot : (~~~w).toNat = 2 ^ 64 - (w.toNat + 1) := by
    rw [UInt64.toNat_not, UInt64.size]
    omega
  rw [hnot, Nat.testBit_two_pow_sub_succ w.toNat_lt]
  simp [h]

/-! ## Bits of a set -/

/-- The bits of the word are the members below 64. -/
def HoldsBits (word : UInt64) (members : Int → Bool) : Prop :=
  ∀ k : Nat, k < 64 → word.toNat.testBit k = members k

theorem holdsBits_zero : HoldsBits 0 fun _ => false := by
  intro k _
  simp

section Bits
variable {word : UInt64} {members : Int → Bool} {k : Nat}

theorem testBit_bit (hk : k < 64) (i : Nat) :
    (OrderSearch.bit k).toNat.testBit i = decide (k = i) := by
  rw [OrderSearch.toNat_bit hk, Nat.testBit_two_pow]

theorem HoldsBits.add (h : HoldsBits word members) (hk : k < 64) :
    HoldsBits (word ||| OrderSearch.bit k) (Function.update members k true) := by
  intro i hi
  rw [UInt64.toNat_or, Nat.testBit_or, h i hi, testBit_bit hk, Function.update_apply]
  by_cases hik : k = i
  · simp [hik]
  · rw [decide_eq_false hik, Bool.or_false, if_neg (by omega)]

theorem HoldsBits.remove (h : HoldsBits word members) (hk : k < 64) :
    HoldsBits (word &&& ~~~OrderSearch.bit k) (Function.update members k false) := by
  intro i hi
  rw [UInt64.toNat_and, Nat.testBit_and, testBit_not _ hi, h i hi, testBit_bit hk,
    Function.update_apply]
  by_cases hik : k = i
  · simp [hik]
  · rw [decide_eq_false hik, Bool.not_false, Bool.and_true, if_neg (by omega)]

/-- The set model accepts the set's answer only, and follows the set. -/
theorem HoldsBits.step {e : Event} (h : HoldsBits word members)
    (range : SetOp.InRange e.toInvocation) :
    ((bitSetModel.step word e).1 = true ↔ SetOp.object.accepts members e.toInvocation e.result) ∧
      HoldsBits (bitSetModel.step word e).2 (SetOp.object.effect members e.toInvocation) := by
  obtain ⟨k, hkey⟩ := Int.eq_ofNat_of_zero_le range.1
  have hk : k < 64 := by
    have hlt := range.2
    omega
  have hbit : (1 : UInt64) <<< UInt64.ofInt k = OrderSearch.bit k := by
    rw [OrderSearch.bit, wordOf_natCast (by omega)]
  have hpresent : word &&& OrderSearch.bit k = 0 ↔ members k = false := by
    rw [OrderSearch.and_bit_eq_zero hk, h k hk]
  simp only [bitSetModel, SetOp.object, hkey, hbit, hpresent]
  cases SetOp.ofCode e.op with
  | add =>
    refine ⟨?_, h.add hk⟩
    cases members k <;> simp
  | remove =>
    refine ⟨?_, h.remove hk⟩
    cases members k <;> simp
  | contains =>
    refine ⟨?_, h⟩
    cases members k <;> simp

end Bits

/-! ## Bytes of a map -/

/-- The byte of the word at a position. -/
def byteOf (word : UInt64) (k : Nat) : Nat := word.toNat >>> (8 * k) % 2 ^ 8

/-- What a byte says of a key. -/
def byteCode : Option Int → Nat
  | none => 0
  | some v => (v + 1).toNat

/-- The bytes of the word are the values of the keys below 8, and these are below 255. -/
structure HoldsBytes (word : UInt64) (values : Int → Option Int) : Prop where
  bytes : ∀ k : Nat, k < 8 → byteOf word k = byteCode (values k)
  small : ∀ k : Nat, ∀ v ∈ values k, 0 ≤ v ∧ v < 255

theorem holdsBytes_zero : HoldsBytes 0 fun _ => none where
  bytes k _ := by simp [byteOf, byteCode]
  small k v hv := by simp at hv

section Bytes
variable {word : UInt64} {values : Int → Option Int} {k : Nat}

theorem testBit_byteOf (word : UInt64) (k j : Nat) :
    (byteOf word k).testBit j = (decide (j < 8) && word.toNat.testBit (8 * k + j)) := by
  rw [byteOf, Nat.testBit_mod_two_pow, Nat.testBit_shiftRight]

theorem testBit_shifted (hk : k < 8) (n i : Nat) (hn : n < 2 ^ 64) (hi : i < 64) :
    (UInt64.ofNat n <<< UInt64.ofNat (8 * k)).toNat.testBit i =
      (decide (8 * k ≤ i) && n.testBit (i - 8 * k)) := by
  have hshift : (UInt64.ofNat (8 * k)).toNat % 64 = 8 * k := by
    rw [UInt64.toNat_ofNat']
    omega
  have hnat : (UInt64.ofNat n).toNat = n := by
    rw [UInt64.toNat_ofNat', Nat.mod_eq_of_lt hn]
  rw [UInt64.toNat_shiftLeft, hshift, hnat, Nat.testBit_mod_two_pow, Nat.testBit_shiftLeft]
  simp [hi]

/-- The word without one of its bytes. -/
def clearedAt (word : UInt64) (k : Nat) : UInt64 := word &&& ~~~((0xff : UInt64) <<< UInt64.ofNat (8 * k))

theorem testBit_clearedAt (hk : k < 8) {i : Nat} (hi : i < 64) :
    (clearedAt word k).toNat.testBit i =
      (word.toNat.testBit i && !decide (8 * k ≤ i ∧ i < 8 * k + 8)) := by
  have hmask := testBit_shifted hk (2 ^ 8 - 1) i (by decide) hi
  rw [Nat.testBit_two_pow_sub_one, ← Bool.decide_and] at hmask
  rw [clearedAt, UInt64.toNat_and, Nat.testBit_and, testBit_not _ hi]
  congr 2
  refine hmask.trans (decide_eq_decide.2 ?_)
  omega

theorem byteOf_clearedAt (hk : k < 8) {i : Nat} (hi : i < 8) :
    byteOf (clearedAt word k) i = if i = k then 0 else byteOf word i := by
  apply Nat.eq_of_testBit_eq
  intro j
  by_cases hj : j < 8
  · have hinside : decide (8 * k ≤ 8 * i + j ∧ 8 * i + j < 8 * k + 8) = decide (i = k) :=
      decide_eq_decide.2 (by omega)
    rw [testBit_byteOf, testBit_clearedAt hk (by omega), hinside]
    by_cases hik : i = k
    · simp [hik]
    · simp [hik, testBit_byteOf]
  · split <;> simp [testBit_byteOf, hj]

/-- Writing a byte that was cleared leaves the others. -/
theorem byteOf_or_shifted (hk : k < 8) {n : Nat} (hn : n < 2 ^ 8) {i : Nat} (hi : i < 8)
    (cleared : byteOf word k = 0) :
    byteOf (word ||| UInt64.ofNat n <<< UInt64.ofNat (8 * k)) i = if i = k then n else byteOf word i := by
  apply Nat.eq_of_testBit_eq
  intro j
  by_cases hj : j < 8
  · rw [testBit_byteOf, UInt64.toNat_or, Nat.testBit_or, testBit_shifted hk n _ (by omega) (by omega)]
    by_cases hik : i = k
    · subst hik
      have hold : (byteOf word i).testBit j = false := by rw [cleared, Nat.zero_testBit]
      rw [testBit_byteOf, decide_eq_true hj, Bool.true_and] at hold
      rw [if_pos rfl, hold]
      simp [hj]
    · have hout : (decide (8 * k ≤ 8 * i + j) && n.testBit (8 * i + j - 8 * k)) = false := by
        by_cases hle : 8 * k ≤ 8 * i + j
        · have hlt : n < 2 ^ (8 * i + j - 8 * k) :=
            Nat.lt_of_lt_of_le hn (Nat.pow_le_pow_right (by decide) (by omega))
          rw [Nat.testBit_lt_two_pow hlt, Bool.and_false]
        · rw [decide_eq_false hle, Bool.false_and]
      rw [hout, if_neg hik, testBit_byteOf]
      simp
  · have hlarge : n.testBit j = false :=
      Nat.testBit_lt_two_pow (Nat.lt_of_lt_of_le hn (Nat.pow_le_pow_right (by decide) (by omega)))
    split <;> simp [testBit_byteOf, hj, hlarge]

theorem HoldsBytes.byteOf_get (h : HoldsBytes word values) (hk : k < 8) :
    ((byteOf word k : Nat) : Int) - 1 = (values k).getD (-1) := by
  rw [h.bytes k hk]
  cases hv : values k with
  | none => rfl
  | some v =>
    have hsmall := h.small k v hv
    simp only [byteCode, Option.getD_some]
    omega

theorem HoldsBytes.remove (h : HoldsBytes word values) (hk : k < 8) :
    HoldsBytes (clearedAt word k) (Function.update values k none) where
  bytes i hi := by
    rw [byteOf_clearedAt hk hi, Function.update_apply]
    by_cases hik : i = k
    · simp [hik, byteCode]
    · rw [if_neg hik, if_neg (by omega), h.bytes i hi]
  small i v hv := by
    rw [Function.update_apply] at hv
    split at hv
    · simp at hv
    · exact h.small i v hv

theorem HoldsBytes.put (h : HoldsBytes word values) (hk : k < 8) {v : Int} (hv : 0 ≤ v ∧ v < 255) :
    HoldsBytes (clearedAt word k ||| UInt64.ofInt (v + 1) <<< UInt64.ofNat (8 * k))
      (Function.update values k (some v)) where
  bytes i hi := by
    obtain ⟨n, hn⟩ := Int.eq_ofNat_of_zero_le (by omega : 0 ≤ v + 1)
    have hcleared : byteOf (clearedAt word k) k = 0 := by rw [byteOf_clearedAt hk hk, if_pos rfl]
    rw [hn, wordOf_natCast (by omega), byteOf_or_shifted hk (by omega) hi hcleared,
      Function.update_apply]
    by_cases hik : i = k
    · rw [if_pos hik, if_pos (by omega), byteCode, hn, Int.toNat_natCast]
    · rw [if_neg hik, if_neg (by omega), byteOf_clearedAt hk hi, if_neg hik, h.bytes i hi]
  small i w hw := by
    rw [Function.update_apply] at hw
    split at hw
    · cases hw
      exact hv
    · exact h.small i w hw

/-- What the map model makes of an event, said of the byte of its key. -/
theorem byteMapModel_step (word : UInt64) {e : Event} (hkey : e.key = k) (hk : k < 8) :
    byteMapModel.step word e =
      (decide (e.result = (byteOf word k : Int) - 1),
        match MapOp.ofCode e.op with
        | .put => clearedAt word k ||| UInt64.ofInt (e.arg + 1) <<< UInt64.ofNat (8 * k)
        | .get => word
        | .remove => clearedAt word k) := by
  have hshift : UInt64.ofInt (8 * (k : Int)) = UInt64.ofNat (8 * k) := by
    rw [← wordOf_natCast (by omega)]
    rfl
  have hcurrent : ((word >>> UInt64.ofNat (8 * k)) &&& 0xff).toNat = byteOf word k := by
    have hmod : (UInt64.ofNat (8 * k)).toNat % 64 = 8 * k := by
      rw [UInt64.toNat_ofNat']
      omega
    rw [byteOf, UInt64.toNat_and, UInt64.toNat_shiftRight, hmod]
    exact Nat.and_two_pow_sub_one_eq_mod _ 8
  simp only [byteMapModel, hkey, hshift, hcurrent]
  rfl

/-- The map model accepts the map's answer only, and follows the map. -/
theorem HoldsBytes.step {e : Event} (h : HoldsBytes word values)
    (range : MapOp.InRange e.toInvocation) :
    ((byteMapModel.step word e).1 = true ↔
        (MapOp.object MapOp.ofCode).accepts values e.toInvocation e.result) ∧
      HoldsBytes (byteMapModel.step word e).2
        ((MapOp.object MapOp.ofCode).effect values e.toInvocation) := by
  obtain ⟨k, hkey⟩ := Int.eq_ofNat_of_zero_le range.1
  have hk : k < 8 := by
    have hlt := range.2.1
    omega
  have hput : MapOp.ofCode e.op = .put → 0 ≤ e.arg ∧ e.arg < 255 := range.2.2
  simp only [byteMapModel_step word hkey hk, MapOp.object, hkey, h.byteOf_get hk, decide_eq_true_eq,
    true_and]
  cases hop : MapOp.ofCode e.op with
  | put => exact h.put hk (hput hop)
  | get => exact h
  | remove => exact h.remove hk

end Bytes

/-! ## Sequences of events -/

/-- The model accepts what the object answers, and follows it, as long as the events are in range. -/
def Model.Follows {S D : Type} (model : Model S) (object : SequentialObject D Invocation Int)
    (InRange : Invocation → Prop) (holds : S → D → Prop) : Prop :=
  ∀ state d (e : Event), holds state d → InRange e.toInvocation →
    ((model.step state e).1 = true ↔ object.accepts d e.toInvocation e.result) ∧
      holds (model.step state e).2 (object.effect d e.toInvocation)

theorem bitSetModel_follows : bitSetModel.Follows SetOp.object SetOp.InRange HoldsBits :=
  fun _ _ _ h range => h.step range

theorem byteMapModel_follows :
    byteMapModel.Follows (MapOp.object MapOp.ofCode) MapOp.InRange HoldsBytes :=
  fun _ _ _ h range => h.step range

/-- The events as a log of answers. -/
def Event.answered (ε : Type) (e : Event) : Invocation × Except ε Int := (e.toInvocation, .ok e.result)

/-- What an object explains its model accepts. -/
theorem Model.Follows.accepts {S D ε : Type} {model : Model S}
    {object : SequentialObject D Invocation Int} {InRange : Invocation → Prop}
    {holds : S → D → Prop} (follows : model.Follows object InRange holds) {excused : ε → Prop}
    {state : S} {d d' : D} {events : List Event} (h : holds state d)
    (range : ∀ e ∈ events, InRange e.toInvocation)
    (explained : object.Explains excused d (events.map (Event.answered ε)) d') :
    model.Accepts state events := by
  induction events generalizing state d with
  | nil => exact Model.accepts_nil
  | cons e rest ih =>
    cases explained with
    | answer ha hrest =>
      obtain ⟨haccepts, hholds⟩ := follows state d e h (range e List.mem_cons_self)
      exact Model.accepts_cons.2 ⟨haccepts.2 ha,
        ih hholds (fun e he => range e (List.mem_cons_of_mem _ he)) hrest⟩

end LockedContainers
