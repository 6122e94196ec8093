import Mathlib.Tactic

/-!
# Status flags that are cleared by reading and writing

A device shows status flags in a register.  Events of the device set them, and
the program that uses the device reads and writes the register.  Along a run
we keep which flags the program has seen: read as 1 after they were last set.
A device also keeps a copy of the register from the last read; which flags
were set since that read says how far the copy is out of date.
-/

namespace BrickEmu

inductive Access where
  | read
  | write
  | none
  deriving DecidableEq

/-- `found` is the register as an access finds it, after what the device does
first; `raised` are the flags that the device sets in the event. -/
structure FlagRegister (σ ε : Type) (w : ℕ) where
  mask : BitVec w
  value : σ → BitVec w
  copy : σ → BitVec w
  step : σ → ε → σ
  access : σ → ε → Access
  found : σ → ε → BitVec w
  raised : σ → ε → BitVec w

namespace FlagRegister

variable {σ ε : Type} {w : ℕ}

/-- The state with the flags the program has seen, and those that were set
since it last read the register. -/
structure Observed (σ : Type) (w : ℕ) where
  state : σ
  seen : BitVec w
  unread : BitVec w

/-- Nothing has been read yet. -/
def Observed.initial (state : σ) : Observed σ w :=
  ⟨state, 0, BitVec.allOnes w⟩

variable (register : FlagRegister σ ε w)

def observe (o : Observed σ w) (event : ε) : Observed σ w :=
  let raised := register.raised o.state event
  let seen := o.seen &&& ~~~raised
  let unread := o.unread ||| raised
  match register.access o.state event with
  | .read =>
      ⟨register.step o.state event, seen ||| register.value o.state, 0⟩
  | _ => ⟨register.step o.state event, seen, unread⟩

/-- A flag is not set by a write, and cleared only when it has been seen. -/
def FlagOk (found after seen : Bool) : Prop :=
  (after = true → found = true) ∧
    (found = true → after = false → seen = true)

/-- The flag with a number, as a write finds and leaves it. -/
def BitOk (o : Observed σ w) (event : ε) (i : ℕ) : Prop :=
  FlagOk ((register.found o.state event).getLsbD i)
    ((register.value (register.step o.state event)).getLsbD i)
    ((o.seen &&& ~~~register.raised o.state event).getLsbD i)

/-- A write sets no flag, and clears only flags the program has seen. -/
def WriteOk (o : Observed σ w) (event : ε) : Prop :=
  ∀ i, register.mask.getLsbD i = true → register.BitOk o event i

/-- Every write of a run satisfies a condition. -/
def Writes (P : Observed σ w → ε → Prop) : Observed σ w → List ε → Prop
  | _, [] => True
  | o, event :: rest =>
      (register.access o.state event = .write → P o event) ∧
        Writes P (register.observe o event) rest

/-- No write sets a flag or clears an unseen one. -/
def Disciplined (o : Observed σ w) (events : List ε) : Prop :=
  register.Writes register.WriteOk o events

/-- What is seen is what the copy shows and was not set since. -/
def Consistent (o : Observed σ w) : Prop :=
  ∀ i, register.mask.getLsbD i = true →
    ((register.copy o.state).getLsbD i = true →
        o.seen.getLsbD i = !o.unread.getLsbD i) ∧
      ((register.value o.state).getLsbD i = true →
        (register.copy o.state).getLsbD i = false →
          o.seen.getLsbD i = false)

/-- What the consistency rests on: reading takes the copy, nothing else
changes it, and a flag that is not raised appears only where the copy shows
it. -/
structure Lawful : Prop where
  copy_read : ∀ s event, register.access s event = .read →
    register.copy (register.step s event) = register.value s ∧
      register.value (register.step s event) = register.value s ∧
      register.raised s event = 0
  copy_other : ∀ s event, register.access s event ≠ .read →
    register.copy (register.step s event) = register.copy s
  appears : ∀ s event i, register.mask.getLsbD i = true →
    (register.value (register.step s event)).getLsbD i = true →
      (register.value s).getLsbD i = true ∨
        (register.raised s event).getLsbD i = true ∨
        (register.copy s).getLsbD i = true

variable {register}

/-- A flag that is set was set before or is newly set. -/
theorem set_or_raised (before : BitVec w) {after : BitVec w} {i : ℕ}
    (hset : after.getLsbD i = true) :
    before.getLsbD i = true ∨ (after &&& ~~~before).getLsbD i = true := by
  have hi := BitVec.lt_of_getLsbD hset
  cases hbefore : before.getLsbD i with
  | true => exact .inl rfl
  | false =>
      right
      rw [BitVec.getLsbD_and, BitVec.getLsbD_not, hset, hbefore]
      simp [hi]

theorem getLsbD_seen (seen raised : BitVec w) {i : ℕ} (hi : i < w) :
    (seen &&& ~~~raised).getLsbD i =
      (seen.getLsbD i && !raised.getLsbD i) := by
  rw [BitVec.getLsbD_and, BitVec.getLsbD_not]
  simp [hi]

theorem consistent_initial (state : σ) :
    register.Consistent (Observed.initial state) := by
  intro i hmask
  have hi := BitVec.lt_of_getLsbD hmask
  simp [Observed.initial, hi]

theorem consistent_observe (hlawful : register.Lawful) {o : Observed σ w}
    (h : register.Consistent o) (event : ε) :
    register.Consistent (register.observe o event) := by
  intro i hmask
  have hi := BitVec.lt_of_getLsbD hmask
  obtain ⟨hcopy, hfresh⟩ := h i hmask
  by_cases hread : register.access o.state event = .read
  · obtain ⟨htaken, hvalue, hraised⟩ := hlawful.copy_read _ _ hread
    simp only [observe, hread, htaken, hvalue, hraised]
    constructor
    · intro hset
      simp [hset]
    · intro hset hclear
      rw [hset] at hclear
      cases hclear
  · have hkept := hlawful.copy_other _ _ hread
    have happears := hlawful.appears o.state event i hmask
    have hobserve : register.observe o event =
        ⟨register.step o.state event,
          o.seen &&& ~~~register.raised o.state event,
          o.unread ||| register.raised o.state event⟩ := by
      unfold observe
      cases haccess : register.access o.state event with
      | read => exact absurd haccess hread
      | write => rfl
      | none => rfl
    rw [hobserve]
    simp only [hkept, BitVec.getLsbD_and, BitVec.getLsbD_not,
      BitVec.getLsbD_or, hi, decide_true, Bool.true_and]
    constructor
    · intro hset
      rw [hcopy hset]
      cases o.unread.getLsbD i <;>
        cases (register.raised o.state event).getLsbD i <;> rfl
    · intro hset hclear
      rcases happears hset with hvalue | hraised | hshown
      · rw [hfresh hvalue hclear]
        rfl
      · rw [hraised]
        cases o.seen.getLsbD i <;> rfl
      · rw [hclear] at hshown
        cases hshown

/-- The discipline of a whole run follows a condition on each write that is
right in consistent states. -/
theorem disciplined_iff (hlawful : register.Lawful)
    {P : Observed σ w → ε → Prop}
    (hwrite : ∀ o event, register.Consistent o →
      register.access o.state event = .write →
        (register.WriteOk o event ↔ P o event))
    {o : Observed σ w} (h : register.Consistent o) (events : List ε) :
    register.Disciplined o events ↔ register.Writes P o events := by
  induction events generalizing o with
  | nil => exact Iff.rfl
  | cons event rest ih =>
      have hrest := ih (consistent_observe hlawful h event)
      apply and_congr _ hrest
      exact forall_congr' fun haccess => hwrite o event h haccess

end FlagRegister

end BrickEmu
