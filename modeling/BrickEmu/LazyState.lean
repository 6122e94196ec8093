import BrickEmu.TimedSchedule

/-!
# States that catch up on demand

A lazily evaluated state remembers how far it has been brought up to date.
Bringing it up to date in two installments is the same as doing it at once.
Of two copies of such a state one is ahead of the other when it has merely
been brought further; they agree again after the next common catching up.
-/

namespace BrickEmu

structure LazyState (σ : Type*) where
  last : σ → ℕ
  catchUp : ℕ → σ → σ
  catchUp_last : ∀ state, catchUp (last state) state = state
  le_last : ∀ now state, last state ≤ now →
    last state ≤ last (catchUp now state)
  last_le : ∀ now state, last state ≤ now →
    last (catchUp now state) ≤ now
  catchUp_catchUp : ∀ {middle now state}, last state ≤ middle →
    middle ≤ now → catchUp now (catchUp middle state) = catchUp now state

namespace LazyState

variable {σ : Type*} (lazy : LazyState σ)

/-- The second state has made some of the progress that is outstanding in
the first one. -/
def Ahead (now : ℕ) (left right : σ) : Prop :=
  lazy.last left ≤ now ∧
    ∃ middle, lazy.last left ≤ middle ∧ middle ≤ now ∧
      right = lazy.catchUp middle left

variable {lazy} {now later : ℕ} {left right state : σ}

theorem Ahead.refl (hlast : lazy.last state ≤ now) :
    lazy.Ahead now state state :=
  ⟨hlast, lazy.last state, le_rfl, hlast, (lazy.catchUp_last state).symm⟩

theorem Ahead.mono (hahead : lazy.Ahead now left right) (hle : now ≤ later) :
    lazy.Ahead later left right := by
  obtain ⟨hlast, middle, hmiddle, hnow, hright⟩ := hahead
  exact ⟨hlast.trans hle, middle, hmiddle, hnow.trans hle, hright⟩

theorem Ahead.last_le_last (hahead : lazy.Ahead now left right) :
    lazy.last left ≤ lazy.last right := by
  obtain ⟨_, middle, hmiddle, _, hright⟩ := hahead
  rw [hright]
  exact lazy.le_last middle left hmiddle

theorem Ahead.right_last_le (hahead : lazy.Ahead now left right) :
    lazy.last right ≤ now := by
  obtain ⟨_, middle, hmiddle, hnow, hright⟩ := hahead
  rw [hright]
  exact (lazy.last_le middle left hmiddle).trans hnow

theorem Ahead.catchUp_eq (hahead : lazy.Ahead now left right) :
    lazy.catchUp now right = lazy.catchUp now left := by
  obtain ⟨_, middle, hmiddle, hnow, hright⟩ := hahead
  rw [hright, lazy.catchUp_catchUp hmiddle hnow]

/-- Bringing only the second state further keeps it ahead. -/
theorem Ahead.catchUp_right (hahead : lazy.Ahead now left right) :
    lazy.Ahead now left (lazy.catchUp now right) :=
  ⟨hahead.1, now, hahead.1, le_rfl, hahead.catchUp_eq⟩

/-- A change that leaves the outstanding progress alone keeps the second
state ahead. -/
theorem Ahead.map (hahead : lazy.Ahead now left right) (change : σ → σ)
    (hlast : lazy.last (change left) = lazy.last left)
    (hcomm : ∀ middle, change (lazy.catchUp middle left) =
      lazy.catchUp middle (change left)) :
    lazy.Ahead now (change left) (change right) := by
  obtain ⟨hnow, middle, hmiddle, hle, hright⟩ := hahead
  refine ⟨hlast ▸ hnow, middle, hlast ▸ hmiddle, hle, ?_⟩
  rw [hright, hcomm]

end LazyState

end BrickEmu
