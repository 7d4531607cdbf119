/-!
# Actions on a part of a state

An action on the part acts on the whole, failures included, and leaves the
rest alone.
-/
namespace LockedContainers

variable {S T ε α : Type} (part : S → T) (replace : S → T → S)

def onPart (act : EStateM ε T α) : EStateM ε S α := fun s =>
  match act (part s) with
  | .ok a t => .ok a (replace s t)
  | .error e t => .error e (replace s t)

theorem onPart_ok {act : EStateM ε T α} {s : S} {a : α} {t : T} (h : act (part s) = .ok a t) :
    onPart part replace act s = .ok a (replace s t) := by
  simp [onPart, h]

theorem onPart_error {act : EStateM ε T α} {s : S} {e : ε} {t : T}
    (h : act (part s) = .error e t) : onPart part replace act s = .error e (replace s t) := by
  simp [onPart, h]

end LockedContainers
