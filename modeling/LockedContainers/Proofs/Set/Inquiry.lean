import LockedContainers.Proofs.Set.Interchange

/-!
# Questions first, changes last

An operation on a set asks its callbacks all it has to know and then changes
the list and the counter at once, or not at all. What it changes is told by
the answers it got, whether or not they make any sense together.
-/
namespace LockedContainers

variable {T ε σ : Type} {cb : SetCallbacks T ε σ} {key : T} {o : σ}

/-! ## Where a search stops -/

/-- Asked in turn from this state, the keys `before` are before `key`, and the next one of `after`,
if there is one, is not. -/
inductive Stops (cb : SetCallbacks T ε σ) (key : T) : σ → List T → List T → Prop
  | tail {o : σ} : Stops cb key o [] []
  | here {o o' : σ} {k : T} {after : List T} (stop : cb.compare k key o = .ok false o') :
      Stops cb key o [] (k :: after)
  | past {o o' : σ} {k : T} {before after : List T} (earlier : cb.compare k key o = .ok true o')
      (rest : Stops cb key o' before after) : Stops cb key o (k :: before) after

namespace MonitorSet

/-- A position is where the keys stop to be before the searched one. -/
theorem stops_of_position {keys : List T} {i : Nat} {o' : σ}
    (h : position cb key keys o = .ok i o') : Stops cb key o (keys.take i) (keys.drop i) := by
  induction keys generalizing i o with
  | nil =>
    cases h
    exact .tail
  | cons k rest ih =>
    obtain ⟨earlier, o₁, hcompare, h⟩ := ok_of_bind h
    cases earlier with
    | false =>
      cases h
      exact .here hcompare
    | true =>
      obtain ⟨j, o₂, hrest, h⟩ := ok_of_bind h
      cases h
      exact .past hcompare (ih hrest)

theorem le_length_of_position {keys : List T} {i : Nat} {o' : σ}
    (h : position cb key keys o = .ok i o') : i ≤ keys.length := by
  have hyields := yields_position_le cb key keys o
  rwa [h] at hyields

theorem lt_length_of_sameAt {keys : List T} {i : Nat} {o' : σ}
    (h : sameAt cb keys i key o = .ok true o') : i < keys.length := by
  have hyields := yields_sameAt_lt cb key keys i o
  rw [h] at hyields
  exact hyields rfl

/-! ## What a request asks and what it makes of the answers -/

/-- The answer to a request and the set after it, from what the callbacks answer. -/
def inquire (cb : SetCallbacks T ε σ) (set : MonitorSet T) :
    SetRequest T → EStateM ε σ (SetAnswer T × MonitorSet T)
  | .add key => Prod.map .flag id <$> do
    let i ← position cb key set.keys
    if ← sameAt cb set.keys i key then return (false, set)
    else return (true, ⟨set.keys.insertIdx i key, set.count + 1⟩)
  | .remove key => Prod.map .flag id <$> do
    let i ← position cb key set.keys
    if ← sameAt cb set.keys i key then return (true, ⟨set.keys.eraseIdx i, set.count - 1⟩)
    else return (false, set)
  | .contains key => Prod.map .flag id <$> do
    let i ← position cb key set.keys
    return (← sameAt cb set.keys i key, set)
  | .size => return (.count set.count, set)
  | .isEmpty => return (.flag (set.count = 0), set)
  | .snapshot => Prod.map .keys id <$> do return (← set.keys.mapM cb.copy, set)
  | .audit => audited
  | .auditLive => audited
where
  audited : EStateM ε σ (SetAnswer T × MonitorSet T) := Prod.map .flag id <$> do
    if ← ascending cb set.keys then return (decide (set.keys.length = set.count), set)
    else return (false, set)

/-- Every call of an operation comes before its change. -/
theorem commits_perform (cb : SetCallbacks T ε σ) (set : MonitorSet T) (request : SetRequest T) :
    Commits set (request.perform cb) (inquire cb set request) := by
  have haudit : Commits set (SetAnswer.flag <$> MonitorSet.audit cb) (inquire.audited cb set) := by
    apply Commits.map
    apply Commits.read_bind
    apply Commits.call_bind
    intro ascends
    cases ascends <;> exact .pure
  cases request with
  | add key =>
    change Commits set (SetAnswer.flag <$> MonitorSet.add cb key) _
    apply Commits.map
    apply Commits.read_bind
    apply Commits.call_bind
    intro i
    apply Commits.call_bind
    intro same
    cases same with
    | true => exact .pure
    | false => exact .modify
  | remove key =>
    change Commits set (SetAnswer.flag <$> MonitorSet.remove cb key) _
    apply Commits.map
    apply Commits.read_bind
    apply Commits.call_bind
    intro i
    apply Commits.call_bind
    intro same
    cases same with
    | true => exact .modify
    | false => exact .pure
  | contains key =>
    change Commits set (SetAnswer.flag <$> MonitorSet.contains cb key) _
    apply Commits.map
    apply Commits.read_bind
    apply Commits.call_bind
    exact fun i => .call
  | size => exact fun _ => rfl
  | isEmpty => exact fun _ => rfl
  | snapshot =>
    change Commits set (SetAnswer.keys <$> MonitorSet.snapshot cb) _
    apply Commits.map
    apply Commits.read_bind
    exact .call
  | audit => exact haudit
  | auditLive => exact haudit

end MonitorSet

/-- What a request from this state of the callbacks has made of the keys, by its outcome. -/
def SetStep.Effect (step : SetStep T ε σ) (o : σ) (keys : List T)
    (outcome : Except ε (SetAnswer T)) (keys' : List T) : Prop :=
  match step.request, outcome with
  | .add key, .ok (.flag true) => ∃ before after, keys = before ++ after ∧
      Stops step.callbacks key o before after ∧ keys' = before ++ key :: after
  | .remove key, .ok (.flag true) => ∃ before victim after, keys = before ++ victim :: after ∧
      Stops step.callbacks key o before (victim :: after) ∧ keys' = before ++ after
  | _, _ => keys' = keys

namespace MonitorSet

theorem effect_add {set set' : MonitorSet T} {a : SetAnswer T} {o' : σ}
    (h : inquire cb set (.add key) o = .ok (a, set') o') :
    SetStep.Effect ⟨cb, .add key⟩ o set.keys (.ok a) set'.keys ∧
      (set.count = set.keys.length → set'.count = set'.keys.length) := by
  obtain ⟨x, h, hx⟩ := ok_of_map h
  obtain ⟨i, o₁, hposition, h⟩ := ok_of_bind h
  obtain ⟨same, o₂, -, h⟩ := ok_of_bind h
  have hi := le_length_of_position hposition
  cases same with
  | true =>
    cases h
    cases hx
    exact ⟨rfl, id⟩
  | false =>
    cases h
    cases hx
    constructor
    · exact ⟨set.keys.take i, set.keys.drop i, (List.take_append_drop i _).symm,
        stops_of_position hposition, insertIdx_eq_take_cons_drop key hi⟩
    · intro hcount
      simp [List.length_insertIdx, hi, hcount]

theorem effect_remove {set set' : MonitorSet T} {a : SetAnswer T} {o' : σ}
    (h : inquire cb set (.remove key) o = .ok (a, set') o') :
    SetStep.Effect ⟨cb, .remove key⟩ o set.keys (.ok a) set'.keys ∧
      (set.count = set.keys.length → set'.count = set'.keys.length) := by
  obtain ⟨x, h, hx⟩ := ok_of_map h
  obtain ⟨i, o₁, hposition, h⟩ := ok_of_bind h
  obtain ⟨same, o₂, hsame, h⟩ := ok_of_bind h
  cases same with
  | false =>
    cases h
    cases hx
    exact ⟨rfl, id⟩
  | true =>
    have hi := lt_length_of_sameAt hsame
    have hdrop := List.drop_eq_getElem_cons hi
    cases h
    cases hx
    constructor
    · refine ⟨set.keys.take i, set.keys[i], set.keys.drop (i + 1), ?_, ?_,
        List.eraseIdx_eq_take_drop_succ _ _⟩
      · rw [← hdrop, List.take_append_drop]
      · rw [← hdrop]
        exact stops_of_position hposition
    · intro hcount
      simp [List.length_eraseIdx, hi, hcount]

/-- What the answers make of the keys, and that the counter follows them. -/
theorem effect_inquire {set set' : MonitorSet T} {request : SetRequest T} {a : SetAnswer T} {o' : σ}
    (h : inquire cb set request o = .ok (a, set') o') :
    SetStep.Effect ⟨cb, request⟩ o set.keys (.ok a) set'.keys ∧
      (set.count = set.keys.length → set'.count = set'.keys.length) := by
  have haudit (h : inquire.audited cb set o = .ok (a, set') o') : set' = set := by
    obtain ⟨x, h, hx⟩ := ok_of_map h
    obtain ⟨ascends, o₁, -, h⟩ := ok_of_bind h
    cases ascends <;> cases h <;> cases hx <;> rfl
  cases request with
  | add key => exact effect_add h
  | remove key => exact effect_remove h
  | contains key =>
    obtain ⟨x, h, hx⟩ := ok_of_map h
    obtain ⟨i, o₁, -, h⟩ := ok_of_bind h
    obtain ⟨same, o₂, -, h⟩ := ok_of_bind h
    cases h
    cases hx
    exact ⟨rfl, id⟩
  | size =>
    cases h
    exact ⟨rfl, id⟩
  | isEmpty =>
    cases h
    exact ⟨rfl, id⟩
  | snapshot =>
    obtain ⟨x, h, hx⟩ := ok_of_map h
    obtain ⟨copies, o₁, -, h⟩ := ok_of_bind h
    cases h
    cases hx
    exact ⟨rfl, id⟩
  | audit =>
    obtain rfl := haudit h
    exact ⟨rfl, id⟩
  | auditLive =>
    obtain rfl := haudit h
    exact ⟨rfl, id⟩

end MonitorSet
end LockedContainers
