import Mathlib.Data.List.Basic
import Mathlib.Logic.Function.Basic
import Mathlib.Tactic

/-!
# Rings of slots

A ring of `size` slots holds a sequence in the slots from a first one on,
beyond the last slot again from slot 0.  An element is added in the slot
behind the sequence and taken from its first slot.
-/

namespace BrickEmu

namespace Ring

variable {α : Type*} {f g : ℕ → α} {size start count i j : ℕ} {x : α}

/-- The elements in the slots from `start` on. -/
def slots (f : ℕ → α) (size start : ℕ) : ℕ → List α
  | 0 => []
  | count + 1 => slots f size start count ++ [f ((start + count) % size)]

@[simp] theorem length_slots : (slots f size start count).length = count := by
  induction count with
  | zero => rfl
  | succ count ih => rw [slots, List.length_append, ih, List.length_singleton]

/-- The first slot in front. -/
theorem slots_cons (hstart : start < size) :
    slots f size start (count + 1) =
      f start :: slots f size ((start + 1) % size) count := by
  induction count with
  | zero =>
      rw [slots, slots, slots, Nat.add_zero, Nat.mod_eq_of_lt hstart]
      rfl
  | succ count ih =>
      rw [slots, ih, slots, List.cons_append, Nat.mod_add_mod,
        Nat.add_assoc start 1 count, Nat.add_comm 1 count]

theorem slots_congr
    (h : ∀ i < count, f ((start + i) % size) = g ((start + i) % size)) :
    slots f size start count = slots g size start count := by
  induction count with
  | zero => rfl
  | succ count ih =>
      rw [slots, slots, h count (Nat.lt_succ_self count),
        ih fun i hi => h i (Nat.lt_succ_of_lt hi)]

/-- Less than one turn apart, slots are different. -/
theorem slot_ne (hij : i < j) (hj : j < i + size) :
    (start + i) % size ≠ (start + j) % size := by
  intro hsame
  have hdvd : size ∣ start + j - (start + i) :=
    (Nat.modEq_iff_dvd' (by omega)).mp hsame
  have hle := Nat.le_of_dvd (by omega) hdvd
  omega

/-- The slot behind the sequence is not one of its slots. -/
theorem slots_update_behind (hcount : count < size) :
    slots (Function.update f ((start + count) % size) x) size start count =
      slots f size start count := by
  apply slots_congr
  intro i hi
  exact Function.update_of_ne (slot_ne hi (by omega)) _ _

theorem slots_push (hcount : count < size) :
    slots (Function.update f ((start + count) % size) x) size start
        (count + 1) = slots f size start count ++ [x] := by
  rw [slots, slots_update_behind hcount, Function.update_self]

end Ring

end BrickEmu
