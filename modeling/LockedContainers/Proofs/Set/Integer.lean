import LockedContainers.Proofs.Set.Sequential
import LockedContainers.Set.Integer

/-!
# Sets of integers

In their natural order integers are equivalent only when they are equal, so a
set of them is known by the keys that it has, and none of its operations fails.
-/
namespace LockedContainers

variable {ε σ : Type}

/-- The order of the integers. -/
def intBefore (a b : Int) : Bool := a < b

instance : IsStrictWeakOrder Int (intBefore · ·) where
  irrefl a := by simp [intBefore]
  trans a b c hab hbc := by
    simp only [intBefore, decide_eq_true_eq] at *
    omega
  incomp_trans a b c hab hbc := by
    simp only [intBefore, decide_eq_true_eq] at *
    omega

theorem SetCallbacks.integer_follows : (integer : SetCallbacks Int ε σ).Follows intBefore where
  compare _ _ _ _ _ h := by
    cases h
    rfl
  copy _ _ _ _ h := by
    cases h
    rfl

/-- No operation fails. -/
theorem SetCallbacks.ends_integer {C α : Type} {set : C} {act : Guarded C ε σ α}
    {post : α → C → Prop} (h : Ends set act post ((integer : SetCallbacks Int ε σ).Spares set)) :
    Ends set act post fun _ _ => False := by
  apply h.mono fun _ _ hpost => hpost
  rintro e set' ⟨⟨_, _, _, _, hcompare⟩ | ⟨_, _, _, hcopy⟩, -⟩
  · cases hcompare
  · cases hcopy

theorem equivalent_intBefore (a b : Int) : equivalent intBefore a b = decide (b = a) := by
  rw [equivalent, intBefore, intBefore, ← decide_not, ← decide_not, ← Bool.decide_and]
  apply decide_eq_decide.2
  omega

namespace KeySet
variable (members : KeySet Int) (key : Int)

theorem has_intBefore (k : Int) : has intBefore members k = decide (k ∈ members) := by
  rw [has, Bool.eq_iff_iff, List.any_eq_true, decide_eq_true_eq]
  simp [equivalent_intBefore]

theorem has_insert_intBefore : has intBefore (insert intBefore members key) =
    Function.update (has intBefore members) key true := by
  funext k
  rw [insert, has_intBefore, Function.update_apply, has_intBefore, has_intBefore]
  by_cases hkey : key ∈ members
  · by_cases hk : k = key <;> simp [hkey, hk]
  · by_cases hk : k = key <;> simp [hkey, hk]

theorem has_erase_intBefore : has intBefore (erase intBefore members key) =
    Function.update (has intBefore members) key false := by
  funext k
  rw [erase, has_intBefore, Function.update_apply, has_intBefore]
  by_cases hk : k = key <;> simp [equivalent_intBefore, hk]

end KeySet

end LockedContainers
