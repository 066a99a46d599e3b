import Mathlib.Data.Nat.Notation

/-!
# Replacing what stands under a name

A name on a disk, as a process sees it and as a crash leaves it. A replacement is visible at once;
only a sync of the directory makes it survive a crash. Until then a crash leaves the one or the
other.
-/

namespace Replacement

/-- What stands under a name. -/
structure Slot (α : Type*) where
  visible : α
  durable : α
  deriving DecidableEq

namespace Slot

variable {α : Type*}

/-- Nothing is under way. -/
def settled (a : α) : Slot α := ⟨a, a⟩

def replace (slot : Slot α) (a : α) : Slot α := { slot with visible := a }

def sync (slot : Slot α) : Slot α := settled slot.visible

/-- A crash. A replacement that has not been synced `survives` or is lost. -/
def crash (slot : Slot α) (survives : Bool) : Slot α :=
  settled (if survives then slot.visible else slot.durable)

/-- Both what is visible and what a crash may leave have a property. -/
def All (P : α → Prop) (slot : Slot α) : Prop := P slot.visible ∧ P slot.durable

variable {P : α → Prop} {slot : Slot α}

@[simp] theorem all_settled {a : α} : (settled a).All P ↔ P a := and_self_iff

theorem All.crash (h : slot.All P) (survives : Bool) : (slot.crash survives).All P := by
  cases survives with
  | true => exact all_settled.2 h.1
  | false => exact all_settled.2 h.2

end Slot

end Replacement
