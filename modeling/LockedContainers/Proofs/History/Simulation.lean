import Mathlib.Data.Nat.Bitwise
import LockedContainers.Proofs.History.Packed

/-!
# The models are the containers

Step by step a model keeps its word at what the container holds, whatever result
an event claims, and its verdict tells whether the claim is true. The words are as
good as the containers: each container has one, and different containers have
different ones.
-/
namespace LockedContainers

variable {S D : Type} {model : Model S} {object : SequentialObject D Invocation Int}

/-- The state of the object after the events, whatever results they claim. -/
def SequentialObject.after (object : SequentialObject D Invocation Int) (d : D)
    (events : List Event) : D :=
  events.foldl (fun d e => object.effect d e.toInvocation) d

/-- In every sequence of events in range, the verdict on each event tells whether its result is what
the object answers after the events before it, and the state holds the object after it. -/
structure Model.Simulates (model : Model S) (object : SequentialObject D Invocation Int)
    (InRange : Invocation → Prop) (holds : S → D → Prop) (start : D) : Prop where
  tracked : ∀ (past : List Event) (e : Event) (future : List Event),
    (∀ x ∈ past ++ e :: future, InRange x.toInvocation) →
      ∃ verdict state,
        (model.run model.initial (past ++ e :: future))[past.length]? = some (verdict, state) ∧
        (verdict = true ↔ object.accepts (object.after start past) e.toInvocation e.result) ∧
        holds state (object.after start (past ++ [e]))
  /-- The state advances in the same way whatever result is claimed. -/
  indifferent : ∀ (state : S) (e : Event) (result : Int),
    (model.step state { e with result }).2 = (model.step state e).2

/-- Each object in range has a state, and two have equal states only when they are equal. -/
structure Packs (holds : S → D → Prop) (Within : D → Prop) : Prop where
  exists_state : ∀ d, Within d → ∃ state, holds state d
  eq_iff : ∀ {state state' : S} {d d' : D}, Within d → Within d' → holds state d →
    holds state' d' → (state = state' ↔ d = d')

/-- From any state that holds the object, all through the events. -/
theorem Model.Follows.tracked {InRange : Invocation → Prop} {holds : S → D → Prop}
    (follows : model.Follows object InRange holds) {state : S} {d : D} (h : holds state d)
    {past future : List Event} {e : Event}
    (range : ∀ x ∈ past ++ e :: future, InRange x.toInvocation) :
    ∃ verdict next,
      (model.run state (past ++ e :: future))[past.length]? = some (verdict, next) ∧
      (verdict = true ↔ object.accepts (object.after d past) e.toInvocation e.result) ∧
      holds next (object.after d (past ++ [e])) := by
  induction past generalizing state d with
  | nil =>
    obtain ⟨haccepts, hholds⟩ := follows state d e h (range e List.mem_cons_self)
    exact ⟨_, _, rfl, haccepts, hholds⟩
  | cons x past ih =>
    have hnext := (follows state d x h (range x List.mem_cons_self)).2
    obtain ⟨verdict, next, hrun, hverdict, hholds⟩ :=
      ih hnext fun y hy => range y (List.mem_cons_of_mem _ hy)
    exact ⟨verdict, next, hrun, hverdict, hholds⟩

/-! ## Words of a set -/

/-- The members are keys of a set model. -/
def SetOp.Within (members : Int → Bool) : Prop := ∀ k, members k = true → 0 ≤ k ∧ k < 64

theorem word_ext {word word' : UInt64}
    (h : ∀ i < 64, word.toNat.testBit i = word'.toNat.testBit i) : word = word' := by
  apply UInt64.toNat_inj.1
  apply Nat.eq_of_testBit_eq
  intro i
  by_cases hi : i < 64
  · exact h i hi
  · have hpow : 2 ^ 64 ≤ 2 ^ i := Nat.pow_le_pow_right (by decide) (by omega)
    rw [Nat.testBit_lt_two_pow (Nat.lt_of_lt_of_le word.toNat_lt hpow),
      Nat.testBit_lt_two_pow (Nat.lt_of_lt_of_le word'.toNat_lt hpow)]

/-- The word with given bits. -/
theorem exists_word (bits : Nat → Bool) :
    ∃ word : UInt64, ∀ i < 64, word.toNat.testBit i = bits i := by
  refine ⟨.ofNat (Nat.ofBits fun i : Fin 64 => bits i), fun i hi => ?_⟩
  rw [UInt64.toNat_ofNat_of_lt' (Nat.ofBits_lt_two_pow _), Nat.testBit_ofBits_lt _ i hi]

theorem holdsBits_packs : Packs HoldsBits SetOp.Within where
  exists_state members _ := exists_word fun k => members k
  eq_iff := by
    intro word word' members members' within within' h h'
    constructor
    · rintro rfl
      funext k
      by_cases hk : 0 ≤ k ∧ k < 64
      · obtain ⟨n, rfl⟩ := Int.eq_ofNat_of_zero_le hk.1
        rw [← h n (by omega), h' n (by omega)]
      · have hout : members k = false := Bool.eq_false_iff.2 fun hmem => hk (within k hmem)
        have hout' : members' k = false := Bool.eq_false_iff.2 fun hmem => hk (within' k hmem)
        rw [hout, hout']
    · rintro rfl
      exact word_ext fun i hi => (h i hi).trans (h' i hi).symm

/-! ## Words of a map -/

/-- The keys and the values are those of a map model. -/
def MapOp.Within (values : Int → Option Int) : Prop :=
  ∀ k, ∀ v ∈ values k, (0 ≤ k ∧ k < 8) ∧ 0 ≤ v ∧ v < 255

theorem byteCode_lt {value : Option Int} (small : ∀ v ∈ value, 0 ≤ v ∧ v < 255) :
    byteCode value < 2 ^ 8 := by
  cases value with
  | none => decide
  | some v =>
    have hv := small v rfl
    rw [byteCode]
    omega

theorem byteCode_inj {value value' : Option Int} (small : ∀ v ∈ value, 0 ≤ v ∧ v < 255)
    (small' : ∀ v ∈ value', 0 ≤ v ∧ v < 255) (h : byteCode value = byteCode value') :
    value = value' := by
  cases value with
  | none =>
    cases value' with
    | none => rfl
    | some v' =>
      have hv' := small' v' rfl
      simp only [byteCode] at h
      omega
  | some v =>
    have hv := small v rfl
    cases value' with
    | none =>
      simp only [byteCode] at h
      omega
    | some v' =>
      have hv' := small' v' rfl
      simp only [byteCode] at h
      obtain rfl : v = v' := by omega
      rfl

/-- Eight bytes make up the word. -/
theorem word_ext_bytes {word word' : UInt64} (h : ∀ k < 8, byteOf word k = byteOf word' k) :
    word = word' := by
  apply word_ext
  intro i hi
  have hbyte := congrArg (fun n => n.testBit (i % 8)) (h (i / 8) (by omega))
  simpa [testBit_byteOf, Nat.mod_lt, Nat.div_add_mod] using hbyte

theorem holdsBytes_packs : Packs HoldsBytes MapOp.Within where
  exists_state := by
    intro values within
    obtain ⟨word, hword⟩ := exists_word fun i => (byteCode (values (i / 8 : Nat))).testBit (i % 8)
    refine ⟨word, fun k hk => Nat.eq_of_testBit_eq fun j => ?_, fun k v hv => (within k v hv).2⟩
    by_cases hj : j < 8
    · have hdiv : (8 * k + j) / 8 = k := by omega
      have hmod : (8 * k + j) % 8 = j := by omega
      rw [testBit_byteOf, hword _ (by omega), hdiv, hmod]
      simp [hj]
    · have hlarge : byteCode (values k) < 2 ^ j :=
        Nat.lt_of_lt_of_le (byteCode_lt fun v hv => (within k v hv).2)
          (Nat.pow_le_pow_right (by decide) (by omega))
      rw [testBit_byteOf, Nat.testBit_lt_two_pow hlarge]
      simp [hj]
  eq_iff := by
    intro word word' values values' within within' h h'
    constructor
    · rintro rfl
      funext k
      by_cases hk : 0 ≤ k ∧ k < 8
      · obtain ⟨n, rfl⟩ := Int.eq_ofNat_of_zero_le hk.1
        apply byteCode_inj (h.small n) (h'.small n)
        rw [← h.bytes n (by omega), h'.bytes n (by omega)]
      · have hout : values k = none := Option.eq_none_iff_forall_not_mem.2 fun v hv =>
          hk (within k v hv).1
        have hout' : values' k = none := Option.eq_none_iff_forall_not_mem.2 fun v hv =>
          hk (within' k v hv).1
        rw [hout, hout']
    · rintro rfl
      exact word_ext_bytes fun k hk => (h.bytes k hk).trans (h'.bytes k hk).symm

/-- An event leaves the bytes of the other keys, in any word. -/
theorem byteOf_step_other {word : UInt64} {e : Event} (range : MapOp.InRange e.toInvocation)
    {j : Nat} (hj : j < 8) (other : (j : Int) ≠ e.key) :
    byteOf (byteMapModel.step word e).2 j = byteOf word j := by
  obtain ⟨k, hkey⟩ := Int.eq_ofNat_of_zero_le range.1
  have hk : k < 8 := by
    have hlt := range.2.1
    omega
  have hne : j ≠ k := by omega
  have hcleared : byteOf (clearedAt word k) j = byteOf word j := by
    rw [byteOf_clearedAt hk hj, if_neg hne]
  rw [byteMapModel_step word hkey hk]
  cases hop : MapOp.ofCode e.op with
  | put =>
    obtain ⟨hlow, hhigh⟩ := range.2.2 hop
    obtain ⟨n, hn⟩ := Int.eq_ofNat_of_zero_le (by omega : 0 ≤ e.arg + 1)
    have hzero : byteOf (clearedAt word k) k = 0 := by rw [byteOf_clearedAt hk hk, if_pos rfl]
    simp only [hn]
    rw [wordOf_natCast (by omega), byteOf_or_shifted hk (by omega) hj hzero, if_neg hne, hcleared]
  | get => rfl
  | remove => exact hcleared

/-- The set model simulates a set of the keys below 64, and the map model a map from the keys below
8 to values below 255, each key in a byte of its own; their words stand for the containers one to
one. -/
theorem packed_models_simulate :
    bitSetModel.Simulates SetOp.object SetOp.InRange HoldsBits (fun _ => false) ∧
    byteMapModel.Simulates (MapOp.object MapOp.ofCode) MapOp.InRange HoldsBytes (fun _ => none) ∧
    (∀ (word : UInt64) (e : Event) (j : Nat), MapOp.InRange e.toInvocation → j < 8 →
      (j : Int) ≠ e.key → byteOf (byteMapModel.step word e).2 j = byteOf word j) ∧
    Packs HoldsBits SetOp.Within ∧ Packs HoldsBytes MapOp.Within := by
  refine ⟨⟨?_, ?_⟩, ⟨?_, ?_⟩, ?_, holdsBits_packs, holdsBytes_packs⟩
  · intro past e future range
    exact bitSetModel_follows.tracked holdsBits_zero range
  · intro word e result
    simp only [bitSetModel]
    cases SetOp.ofCode e.op <;> rfl
  · intro past e future range
    exact byteMapModel_follows.tracked holdsBytes_zero range
  · intro word e result
    rfl
  · intro word e j range hj other
    exact byteOf_step_other range hj other

end LockedContainers
