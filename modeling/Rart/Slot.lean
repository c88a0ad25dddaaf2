import Rart.Panic

namespace rart

/-- What a callback is called with. -/
inductive Slot (V : Type) where
  | Vacant
  | Occupied (value : V)
deriving DecidableEq

/-- What a callback answers. -/
inductive SlotUpdate (V : Type) where
  | Keep
  | Remove
  | Insert (value : V)
deriving DecidableEq

variable {V E : Type}

/-- A callback: its answer on a vacant slot, and on an occupied one what it
leaves in the slot through the reference it is given, with its answer. -/
structure Callback (V E : Type) where
  vacant : Except E (SlotUpdate V)
  occupied : V → V × Except E (SlotUpdate V)

/-- A `&mut Option<F>` that holds a callback, and the calls made so far. -/
structure UpdateCell (V E : Type) where
  update : Option (Callback V E)
  calls : List (Slot V)

namespace UpdateCell

/-- `update.take().expect(..)(Slot::Vacant)` -/
def call_vacant (self : UpdateCell V E) : Result (Except E (SlotUpdate V) × UpdateCell V E) := do
  let update ← expect self.update "update callback should be called once"
  return (update.vacant, ⟨none, self.calls ++ [.Vacant]⟩)

/-- `update.take().expect(..)(Slot::Occupied(value))` -/
def call_occupied (self : UpdateCell V E) (value : V) :
    Result (V × Except E (SlotUpdate V) × UpdateCell V E) := do
  let update ← expect self.update "update callback should be called once"
  let (left, answer) := update.occupied value
  return (left, answer, ⟨none, self.calls ++ [.Occupied value]⟩)

end UpdateCell

namespace Callback

/-- The slot that a callback sees. -/
def slot : Option V → Slot V
  | none => .Vacant
  | some value => .Occupied value

/-- What a call does to a slot: what it returns to its caller, and what the slot
holds afterwards. On an error the value is put back where `rollback` asks for it. -/
def apply (self : Callback V E) (rollback : Bool) : Option V → Except E Bool × Option V
  | none =>
    match self.vacant with
    | .error e => (.error e, none)
    | .ok (.Insert value) => (.ok true, some value)
    | .ok .Keep => (.ok false, none)
    | .ok .Remove => (.ok false, none)
  | some current =>
    match self.occupied current with
    | (value, .error e) => (.error e, some (if rollback then current else value))
    | (value, .ok .Keep) => (.ok true, some value)
    | (_, .ok (.Insert value)) => (.ok true, some value)
    | (_, .ok .Remove) => (.ok true, none)

/-- On a vacant slot only an insertion is a change. -/
theorem apply_none_cases (f : Callback V E) (rollback : Bool) :
    (∃ e, f.apply rollback none = (.error e, none)) ∨ f.apply rollback none = (.ok false, none) ∨
      ∃ left, f.apply rollback none = (.ok true, some left) := by
  unfold apply
  cases f.vacant with
  | error e => exact Or.inl ⟨e, rfl⟩
  | ok action =>
    cases action with
    | Keep => exact Or.inr (Or.inl rfl)
    | Remove => exact Or.inr (Or.inl rfl)
    | Insert value => exact Or.inr (Or.inr ⟨value, rfl⟩)

/-- On an occupied slot every update without an error is a change. -/
theorem apply_some_cases (f : Callback V E) (rollback : Bool) (current : V) :
    (∃ e left, f.apply rollback (some current) = (.error e, some left)) ∨
      (∃ left, f.apply rollback (some current) = (.ok true, some left)) ∨
      f.apply rollback (some current) = (.ok true, none) := by
  unfold apply
  obtain ⟨vacant, occupied⟩ := f
  dsimp only
  generalize occupied current = left
  obtain ⟨value, answer⟩ := left
  cases answer with
  | error e => exact Or.inl ⟨e, _, rfl⟩
  | ok action =>
    cases action with
    | Keep => exact Or.inr (Or.inl ⟨value, rfl⟩)
    | Insert value => exact Or.inr (Or.inl ⟨value, rfl⟩)
    | Remove => exact Or.inr (Or.inr rfl)

/-- An update that cannot fail changes something if the slot is occupied, or filled. -/
theorem apply_eq_true_iff {f : Callback V Empty} {rollback changed : Bool} {found : Option V}
    (h : (f.apply rollback found).1 = .ok changed) :
    changed = true ↔ found.isSome = true ∨ ∃ value, f.vacant = .ok (.Insert value) := by
  cases found with
  | none =>
    obtain ⟨vacant, occupied⟩ := f
    cases vacant with
    | error e => exact e.elim
    | ok action =>
      cases action with
      | Keep =>
        cases h
        exact iff_of_false (by simp) (by simp)
      | Remove =>
        cases h
        exact iff_of_false (by simp) (by simp)
      | Insert value =>
        cases h
        exact iff_of_true rfl (.inr ⟨value, rfl⟩)
  | some current =>
    obtain ⟨e, _⟩ | ⟨left, heq⟩ | heq := f.apply_some_cases rollback current
    · exact e.elim
    · rw [heq] at h
      cases h
      exact iff_of_true rfl (.inl rfl)
    · rw [heq] at h
      cases h
      exact iff_of_true rfl (.inl rfl)

end Callback

end rart
