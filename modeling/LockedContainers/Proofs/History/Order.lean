import LockedContainers.History.Model

/-!
# Legal orders

A history of overlapping calls is explained by an order of its events, one
after the other, in which a call that was over before another began comes
first and every answer is the model's.
-/
namespace LockedContainers

variable {S : Type} {model : Model S} {state : S} {e : Event} {events rest order : List Event}

/-- Taken in turn from the state, every event is accepted. -/
def Model.Accepts (model : Model S) (state : S) (order : List Event) : Prop :=
  ∀ verdict ∈ model.run state order, verdict.1 = true

@[simp] theorem Model.accepts_nil : model.Accepts state [] := by
  simp [Accepts, run]

@[simp] theorem Model.accepts_cons : model.Accepts state (e :: rest) ↔
    (model.step state e).1 = true ∧ model.Accepts (model.step state e).2 rest := by
  simp [Accepts, run]

/-- An order of the events that respects real time and that the model accepts from the state. -/
structure LegalOrder (model : Model S) (state : S) (events order : List Event) : Prop where
  perm : order.Perm events
  /-- No event is placed after one that began when it was over. -/
  timely : order.Pairwise fun a b => ¬ b.before a
  accepted : model.Accepts state order

namespace LegalOrder

theorem nil : LegalOrder model state [] [] :=
  ⟨.nil, .nil, Model.accepts_nil⟩

/-- An accepted event that no other precedes may come first. -/
theorem cons (perm : events.Perm (e :: rest)) (first : ∀ b ∈ rest, ¬ b.before e)
    (accepted : (model.step state e).1 = true)
    (h : LegalOrder model (model.step state e).2 rest order) :
    LegalOrder model state events (e :: order) where
  perm := (h.perm.cons e).trans perm.symm
  timely := List.pairwise_cons.2 ⟨fun b hb => first b (h.perm.mem_iff.1 hb), h.timely⟩
  accepted := Model.accepts_cons.2 ⟨accepted, h.accepted⟩

/-- What follows the first event of a legal order is one from the state after it. -/
theorem tail (h : LegalOrder model state events (e :: order)) (perm : events.Perm (e :: rest)) :
    (model.step state e).1 = true ∧ LegalOrder model (model.step state e).2 rest order := by
  have haccepted := Model.accepts_cons.1 h.accepted
  have hperm : order.Perm rest := List.Perm.cons_inv (h.perm.trans perm)
  exact ⟨haccepted.1, hperm, (List.pairwise_cons.1 h.timely).2, haccepted.2⟩

/-- No event precedes the first one. -/
theorem first (h : LegalOrder model state events (e :: order)) (timed : e.invoked ≤ e.returned) :
    ∀ b ∈ events, ¬ b.before e := by
  intro b hb
  rcases List.mem_cons.1 (h.perm.mem_iff.2 hb) with rfl | hb
  · simpa [Event.before] using timed
  · exact (List.pairwise_cons.1 h.timely).1 b hb

theorem mem (h : LegalOrder model state events (e :: order)) : e ∈ events :=
  h.perm.mem_iff.1 List.mem_cons_self

end LegalOrder
end LockedContainers
