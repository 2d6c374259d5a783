/-!
# Lists of bounded length

A list that never grows beyond its capacity: adding to a full one is refused and changes nothing.
What is done with a list over time is a row of steps, each a push, a pop or a clearing.
-/

namespace MqttWire

/-- **A list of at most `capacity` items.** -/
structure BoundedList (α : Type) (capacity : Nat) where
  /-- The items, the oldest first. -/
  items : List α
  /-- There are never more than fit. -/
  length_le : items.length ≤ capacity

namespace BoundedList

variable {α : Type} {capacity : Nat}

def empty : BoundedList α capacity := ⟨[], Nat.zero_le _⟩

/-- Adds an item at the end, if there is room. -/
def push? (list : BoundedList α capacity) (item : α) : Option (BoundedList α capacity) :=
  if h : list.items.length < capacity then
    some ⟨list.items ++ [item], by rw [List.length_append]; exact h⟩
  else none

/-- Takes off the last item, if there is one, and gives it with the rest. -/
def pop? (list : BoundedList α capacity) : Option (α × BoundedList α capacity) :=
  list.items.getLast?.map fun item =>
    (item, ⟨list.items.dropLast, by
      have := list.length_le
      rw [List.length_dropLast]
      omega⟩)

theorem push?_eq_none_iff {list : BoundedList α capacity} {item : α} :
    list.push? item = none ↔ list.items.length = capacity := by
  have := list.length_le
  unfold push?
  split
  · exact ⟨nofun, fun h => by omega⟩
  · exact ⟨fun _ => by omega, fun _ => rfl⟩

theorem items_of_push? {list longer : BoundedList α capacity} {item : α}
    (h : list.push? item = some longer) : longer.items = list.items ++ [item] := by
  unfold push? at h
  split at h
  · cases h; rfl
  · cases h

theorem items_of_pop? {list shorter : BoundedList α capacity} {item : α}
    (h : list.pop? = some (item, shorter)) : list.items = shorter.items ++ [item] := by
  obtain ⟨last, hl, he⟩ := Option.map_eq_some_iff.1 h
  cases he
  obtain ⟨front, hf⟩ := List.getLast?_eq_some_iff.1 hl
  simp [hf]

/-! ### Over time -/

/-- **What is done with a list.** -/
inductive Step (α : Type) where
  | push (item : α)
  | pop
  | clear

/-- The list after a step.  An item that finds no room is left out, and an empty list has none to take
off. -/
def step (list : BoundedList α capacity) : Step α → BoundedList α capacity
  | .push item => (list.push? item).getD list
  | .pop => (list.pop?.map Prod.snd).getD list
  | .clear => empty

/-- **The list after all steps,** one after the other. -/
def run (list : BoundedList α capacity) (steps : List (Step α)) : BoundedList α capacity :=
  steps.foldl step list

namespace Step

variable {β : Type}

/-- The same step with another kind of item. -/
def map (f : α → β) : Step α → Step β
  | push item => push (f item)
  | pop => pop
  | clear => clear

/-- The item that is pushed, if this is a push. -/
def pushed? : Step α → Option α
  | push item => some item
  | _ => none

/-- What a step makes of the items, of which at most `capacity` find room. -/
def apply (capacity : Nat) (items : List α) : Step α → List α
  | push item => if items.length < capacity then items ++ [item] else items
  | pop => items.dropLast
  | clear => []

end Step

theorem items_step (list : BoundedList α capacity) (step : Step α) :
    (list.step step).items = step.apply capacity list.items := by
  cases step with
  | push item =>
    rw [BoundedList.step, push?, Step.apply]
    split
    · rfl
    · rfl
  | pop =>
    rw [BoundedList.step, pop?, Step.apply]
    cases h : list.items.getLast? with
    | none =>
      have hempty := List.getLast?_eq_none_iff.1 h
      show list.items = list.items.dropLast
      rw [hempty]
      rfl
    | some last => rfl
  | clear => rfl

/-- **What steps make of a list is what they make of its items.** -/
theorem items_run (list : BoundedList α capacity) (steps : List (Step α)) :
    (list.run steps).items = steps.foldl (Step.apply capacity) list.items := by
  induction steps generalizing list with
  | nil => rfl
  | cons step steps ih => rw [List.foldl_cons, ← items_step, ← ih]; rfl

end BoundedList

end MqttWire
