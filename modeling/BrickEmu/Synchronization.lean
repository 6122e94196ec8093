import BrickEmu.MachineEffects

/-!
# Induction over `synchronize_time`

The arrivals of one look at the sockets are handled one after the other, and
a reset among them looks at the sockets again.  A property that each part
keeps is kept by the whole.
-/

namespace BrickEmu

namespace Machine

/-- What a request of the debugger leaves alone. -/
theorem debuggerWrite_apply {α : Type} (part : Machine → α) {addr : Word}
    {change : Machine → Machine} {m : Machine}
    (h : part (change m) = part m) :
    part (m.debuggerWrite addr change) = part m := by
  unfold debuggerWrite
  split_ifs
  · exact h
  · rfl

/-- Only the buttons' own messages change the buttons. -/
theorem handleCommand_buttons (m : Machine) {command : Command}
    (hother : ∀ button pressed, command ≠ .button button pressed) :
    (m.handleCommand command).buttons = m.buttons := by
  cases command with
  | button button pressed => exact absurd rfl (hother button pressed)
  | poke addr val => exact debuggerWrite_apply buttons rfl
  | setTrap addr kind => exact debuggerWrite_apply buttons rfl
  | clearTrap addr kind => exact debuggerWrite_apply buttons rfl
  | _ => rfl

/-- What one command does, a reset included. -/
def receive (fuel : ℕ) (m : Machine) (command : Command) : Machine :=
  match command with
  | .reset =>
      { (synchronizeFuel fuel m.beginReset).updateTimes.finishReset with
        sleeping := false }
  | command => m.handleCommand command

theorem receive_of_ne {fuel : ℕ} {m : Machine} {command : Command}
    (hne : command ≠ .reset) :
    m.receive fuel command = m.handleCommand command := by
  cases command <;> first | rfl | exact absurd rfl hne

/-- `synchronize_time` after a look at the sockets. -/
def reschedule (m : Machine) : Machine :=
  { m with nextsleep := m.lastusecs + 1000 }

@[simp] theorem reschedule_buttons (m : Machine) :
    m.reschedule.buttons = m.buttons := by
  simp only [reschedule]

theorem synchronizeFuel_succ (fuel : ℕ) (m : Machine) :
    synchronizeFuel (fuel + 1) m =
      if m.pace.looksAtInput then
        ((m.arrivals.headD []).foldl (receive fuel)
          { m.pace with arrivals := m.arrivals.tail }).reschedule
      else m.pace := by
  have hreceive : receive fuel = fun m command =>
      match command with
      | .reset =>
          { (synchronizeFuel fuel m.beginReset).updateTimes.finishReset with
            sleeping := false }
      | command => m.handleCommand command := by
    funext m command
    cases command <;> rfl
  rw [hreceive]
  rfl

theorem synchronizeTime_eq (m : Machine) :
    m.synchronizeTime =
      if m.pace.looksAtInput then
        ((m.arrivals.headD []).foldl (receive m.arrivals.length)
          { m.pace with arrivals := m.arrivals.tail }).reschedule
      else m.pace :=
  synchronizeFuel_succ m.arrivals.length m

/-- A property that every part of `synchronize_time` keeps. -/
structure Synchronized (P : Machine → Prop) : Prop where
  pace : ∀ m, P m → P m.pace
  arrive : ∀ m, P m → P { m with arrivals := m.arrivals.tail }
  handle : ∀ m command, P m → P (m.handleCommand command)
  beginReset : ∀ m, P m → P m.beginReset
  finishReset : ∀ m, P m →
    P { m.updateTimes.finishReset with sleeping := false }
  reschedule : ∀ m, P m → P m.reschedule

/-- A property that the parts of `synchronize_time` keep as long as only
certain commands arrive. -/
structure SynchronizedBy (Q : Command → Prop) (P : Machine → Prop) :
    Prop where
  expected : ∀ m, P m → ∀ commands ∈ m.arrivals, ∀ command ∈ commands,
    Q command
  pace : ∀ m, P m → P m.pace
  arrive : ∀ m, P m → P { m with arrivals := m.arrivals.tail }
  handle : ∀ m command, Q command → P m → P (m.handleCommand command)
  beginReset : Q .reset → ∀ m, P m → P m.beginReset
  finishReset : Q .reset → ∀ m, P m →
    P { m.updateTimes.finishReset with sleeping := false }
  reschedule : ∀ m, P m → P m.reschedule

theorem SynchronizedBy.synchronizeFuel {Q : Command → Prop}
    {P : Machine → Prop} (hP : SynchronizedBy Q P) (fuel : ℕ) :
    ∀ {m : Machine}, P m → P (synchronizeFuel fuel m) := by
  induction fuel with
  | zero => exact fun h => h
  | succ fuel ih =>
      have hreceive : ∀ m command, Q command → P m →
          P (receive fuel m command) := by
        intro m command hQ h
        by_cases hreset : command = .reset
        · subst hreset
          exact hP.finishReset hQ _ (ih (hP.beginReset hQ m h))
        · rw [receive_of_ne hreset]
          exact hP.handle m command hQ h
      have hfold : ∀ commands : List Command,
          (∀ command ∈ commands, Q command) → ∀ m, P m →
            P (commands.foldl (receive fuel) m) := by
        intro commands
        induction commands with
        | nil => exact fun _ m h => h
        | cons command commands ihc =>
            intro hQ m h
            obtain ⟨hfirst, hrest⟩ := List.forall_mem_cons.mp hQ
            exact ihc hrest _ (hreceive m command hfirst h)
      intro m h
      have hhead : ∀ command ∈ m.arrivals.headD [], Q command := by
        cases harrivals : m.arrivals with
        | nil => exact fun _ hmem => absurd hmem List.not_mem_nil
        | cons commands rest =>
            apply hP.expected m h commands
            rw [harrivals]
            exact List.mem_cons_self
      rw [synchronizeFuel_succ]
      have hpace := hP.pace m h
      split_ifs
      · exact hP.reschedule _ (hfold _ hhead _ (hP.arrive _ hpace))
      · exact hpace

theorem SynchronizedBy.synchronizeTime {Q : Command → Prop}
    {P : Machine → Prop} (hP : SynchronizedBy Q P) {m : Machine} (h : P m) :
    P m.synchronizeTime :=
  hP.synchronizeFuel _ h

theorem Synchronized.by_any {P : Machine → Prop} (hP : Synchronized P) :
    SynchronizedBy (fun _ => True) P where
  expected := fun _ _ _ _ _ _ => trivial
  pace := hP.pace
  arrive := hP.arrive
  handle := fun m command _ => hP.handle m command
  beginReset := fun _ => hP.beginReset
  finishReset := fun _ => hP.finishReset
  reschedule := hP.reschedule

theorem Synchronized.synchronizeFuel {P : Machine → Prop}
    (hP : Synchronized P) (fuel : ℕ) {m : Machine} (h : P m) :
    P (synchronizeFuel fuel m) :=
  hP.by_any.synchronizeFuel fuel h

theorem Synchronized.synchronizeTime {P : Machine → Prop}
    (hP : Synchronized P) {m : Machine} (h : P m) : P m.synchronizeTime :=
  hP.synchronizeFuel _ h

end Machine

end BrickEmu
