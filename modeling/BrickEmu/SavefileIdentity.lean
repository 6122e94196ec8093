import BrickEmu.Savefile

/-!
# What a saved state brings back

A machine consists of the part the program on the brick can see and of the
part that belongs to the host: the sockets, the clock of the host, the
debugger, the profiler and the motors and sensors outside.  Loading a saved
state should bring back the first part as it was.
-/

namespace BrickEmu

namespace Machine

/-- The machine of the guest, with the host side of another one. -/
def onHost (host guest : Machine) : Machine :=
  { host with
    reg := guest.reg
    pc := guest.pc
    ccr := guest.ccr
    clock := guest.clock
    irqDisabledOne := guest.irqDisabledOne
    dbTrap := guest.dbTrap
    memory := overlay guest.memory host.memory
    memtype := overlay guest.memtype host.memtype
    serial := { guest.serial with
      input := host.serial.input, output := host.serial.output }
    t16 := guest.t16
    t8 := { guest.t8 with sound := host.t8.sound }
    buttons := { guest.buttons with btnState := host.buttons.btnState }
    lcd := { guest.lcd with
      lcdData := fun ptr =>
        if 0 ≤ ptr ∧ ptr < 12 then guest.lcd.lcdData ptr
        else host.lcd.lcdData ptr }
    ad := { guest.ad with
      values := host.ad.values
      polled := fun i =>
        if i < 4 then guest.ad.polled i else host.ad.polled i }
    wdog := guest.wdog
    wcsr := guest.wcsr
    syscr := guest.syscr
    sleeping := guest.sleeping }

/-- Every count that the file stores with 32 bits. -/
def counts (m : Machine) : List ℕ :=
  [m.clock.cycles, m.clock.nextTimerCycle, m.clock.nextNmiCycle, m.dbTrap,
    m.t16.myLastCycles, m.t8.ch0.lastCycles, m.t8.ch0.myNextCycle,
    m.t8.ch1.lastCycles, m.t8.ch1.myNextCycle, m.ad.adStartCycle,
    m.wdog.lastCycles]

end Machine

/-- The guest's part after a load. -/
def restoredGuest (saved present : Machine) : Machine :=
  let processor := restoredProcessor saved present
  { processor with
    memory := overlay saved.memory present.memory
    memtype := overlay saved.memtype present.memtype
    serial := restoredSerial saved present
    t16 := restoredT16 saved present
    t8 := restoredT8 saved present
    buttons := restoredButtons saved present
    clock := btnCheckNextCycle (restoredButtons saved present)
      processor.clock
    lcd := restoredLcd saved present
    ad := restoredAd saved present
    wdog := restoredWdog saved }

theorem onHost_contTime (host m : Machine) :
    host.onHost m.contTime = host.onHost m := by
  unfold Machine.contTime
  split <;> rfl

theorem restoredGuest_stopTime (host saved present : Machine) :
    host.onHost (restoredGuest saved present.stopTime) =
      host.onHost (restoredGuest saved present) := by
  unfold Machine.stopTime
  split <;> rfl

theorem onHost_restored (host : Machine) (saved present : Emulator) :
    host.onHost (restored saved present).machine =
      host.onHost (restoredGuest saved.machine present.machine) := by
  rw [← restoredGuest_stopTime, restored, Emulator.contTime, onHost_contTime]
  rfl

theorem savefileContents_stopTime (junk : Buffer) (e : Emulator) :
    savefileContents junk e.stopTime = savefileContents junk e := by
  unfold Emulator.stopTime Machine.stopTime
  split <;> rfl

/-- A request of the buttons that moves the deadline. -/
def Buttons.urgent (buttons : Buttons) : Byte :=
  buttons.levels ||| (buttons.irqpending &&& buttons.iscr)

/-- What the file does not carry has to be there already, and the timing of
the serial interface has to be that of a character starting now. -/
structure SaveCovers (saved present : Machine) : Prop where
  temp : present.t16.temp = saved.t16.temp
  wcsr : present.wcsr = saved.wcsr
  irqDisabledOne : present.irqDisabledOne = saved.irqDisabledOne
  receiving : present.serial.receiving = saved.serial.receiving
  serCycles : (serUpdateCycles present.clock saved.serial).serCycles =
    saved.serial.serCycles
  rxCycle : addToCycle present.cycles saved.serial.serCycles =
    saved.serial.rxCycle
  txCycle : addToCycle present.cycles saved.serial.serCycles =
    saved.serial.txCycle
  deadline : saved.buttons.urgent ≠ 0 →
    saved.clock.nextTimerCycle = saved.clock.cycles

section Guest

variable {saved present : Machine}

theorem storedCycle_eq_self {cycles : ℕ} (hcycles : cycles < 2 ^ 32) :
    storedCycle cycles = cycles :=
  Nat.mod_eq_of_lt hcycles

theorem restoredButtons_eq
    (hbuttons : present.buttons.btnState = saved.buttons.btnState) :
    restoredButtons saved present = saved.buttons := by
  simp [restoredButtons, hbuttons]

theorem restoredT8_eq (present host : Machine)
    (hcounts : ∀ count ∈ saved.counts, count < 2 ^ 32) :
    { restoredT8 saved present with sound := host.t8.sound } =
      { saved.t8 with sound := host.t8.sound } := by
  simp only [Machine.counts, List.forall_mem_cons] at hcounts
  obtain ⟨-, -, -, -, -, hlast0, hnext0, hlast1, hnext1, -⟩ := hcounts
  simp only [restoredT8, restoredChannel, storedCycle_eq_self hlast0,
    storedCycle_eq_self hnext0, storedCycle_eq_self hlast1,
    storedCycle_eq_self hnext1]

/-- The deadline after the load: the buttons may move it to the present. -/
theorem restored_clock (hcounts : ∀ count ∈ saved.counts, count < 2 ^ 32)
    (hbuttons : present.buttons.btnState = saved.buttons.btnState) :
    (restoredGuest saved present).clock =
      if saved.buttons.urgent ≠ 0 then
        { saved.clock with nextTimerCycle := saved.clock.cycles }
      else saved.clock := by
  simp only [Machine.counts, List.forall_mem_cons] at hcounts
  obtain ⟨hcycles, htimer, hnmi, -⟩ := hcounts
  change btnCheckNextCycle (restoredButtons saved present)
    (restoredProcessor saved present).clock = _
  rw [restoredButtons_eq hbuttons]
  simp only [restoredProcessor, storedCycle_eq_self hcycles,
    storedCycle_eq_self htimer, storedCycle_eq_self hnmi]
  rfl

theorem restoredSerial_eq (host : Machine)
    (hcovers : SaveCovers saved present) :
    { restoredSerial saved present with
      input := host.serial.input, output := host.serial.output } =
    { saved.serial with
      input := host.serial.input, output := host.serial.output } := by
  have hcycles : (serUpdateCycles present.clock { saved.serial with
      receiving := present.serial.receiving
      input := present.serial.input
      output := present.serial.output }).serCycles =
      saved.serial.serCycles := hcovers.serCycles
  have hrx : (restoredSerial saved present).rxCycle =
      saved.serial.rxCycle := by
    rw [← hcovers.rxCycle, ← hcovers.serCycles]
    rfl
  have htx : (restoredSerial saved present).txCycle =
      saved.serial.txCycle := by
    rw [← hcovers.txCycle, ← hcovers.serCycles]
    rfl
  have hser : (restoredSerial saved present).serCycles =
      saved.serial.serCycles := hcycles
  simp only [hrx, htx, hser, Serial.mk.injEq, and_true, true_and]
  exact ⟨rfl, rfl, rfl, rfl, rfl, rfl, rfl, hcovers.receiving⟩

theorem overlay_overlay (saved present host : ℕ → Byte) :
    overlay (overlay saved present) host = overlay saved host := by
  funext addr
  simp only [overlay]
  split <;> rfl

theorem restoredLcd_eq (host : Machine) :
    { restoredLcd saved present with
      lcdData := fun ptr =>
        if 0 ≤ ptr ∧ ptr < 12 then (restoredLcd saved present).lcdData ptr
        else host.lcd.lcdData ptr } =
    { saved.lcd with
      lcdData := fun ptr =>
        if 0 ≤ ptr ∧ ptr < 12 then saved.lcd.lcdData ptr
        else host.lcd.lcdData ptr } := by
  simp only [restoredLcd, Lcd.mk.injEq, and_true]
  funext ptr
  split <;> rfl

theorem restoredAd_eq (host : Machine)
    (hstart : saved.ad.adStartCycle < 2 ^ 32) :
    { restoredAd saved present with
      values := host.ad.values
      polled := fun i =>
        if i < 4 then (restoredAd saved present).polled i
        else host.ad.polled i } =
    { saved.ad with
      values := host.ad.values
      polled := fun i =>
        if i < 4 then saved.ad.polled i else host.ad.polled i } := by
  simp only [restoredAd, storedCycle_eq_self hstart, AdSensors.mk.injEq,
    and_true, true_and]
  funext i
  split <;> rfl

theorem onHost_restoredGuest (host : Machine)
    (hcounts : ∀ count ∈ saved.counts, count < 2 ^ 32)
    (hawake : saved.sleeping = false)
    (hbuttons : present.buttons.btnState = saved.buttons.btnState)
    (hcovers : SaveCovers saved present) :
    host.onHost (restoredGuest saved present) = host.onHost saved := by
  have hclock : (restoredGuest saved present).clock = saved.clock := by
    rw [restored_clock hcounts hbuttons]
    split
    · next hurgent => rw [← hcovers.deadline hurgent]
    · rfl
  have ht8 := restoredT8_eq present host hcounts
  simp only [Machine.counts, List.forall_mem_cons] at hcounts
  obtain ⟨-, -, -, htrap, ht16, -, -, -, -, had, hwdog, -⟩ := hcounts
  let guest := restoredGuest saved present
  have hpc : guest.pc = saved.pc := by
    change (if saved.sleeping then saved.pc - 2 else saved.pc) = saved.pc
    rw [hawake]
    rfl
  have hdbTrap : guest.dbTrap = saved.dbTrap := storedCycle_eq_self htrap
  have htimer : guest.t16 = saved.t16 := by
    change restoredT16 saved present = saved.t16
    rw [restoredT16, hcovers.temp, storedCycle_eq_self ht16]
  have hwatchdog : guest.wdog = saved.wdog := by
    change restoredWdog saved = saved.wdog
    rw [restoredWdog, storedCycle_eq_self hwdog]
  have hbtn : guest.buttons = saved.buttons := restoredButtons_eq hbuttons
  have hirq : guest.irqDisabledOne = saved.irqDisabledOne :=
    hcovers.irqDisabledOne
  have hwcsr : guest.wcsr = saved.wcsr := hcovers.wcsr
  have hsleeping : guest.sleeping = saved.sleeping := hawake.symm
  unfold Machine.onHost
  rw [hclock, hpc, hdbTrap, htimer, hwatchdog, hbtn, hirq, hwcsr, hsleeping]
  rw [show (restoredGuest saved present).memory =
      overlay saved.memory present.memory from rfl,
    show (restoredGuest saved present).memtype =
      overlay saved.memtype present.memtype from rfl,
    overlay_overlay, overlay_overlay]
  rw [show (restoredGuest saved present).serial =
      restoredSerial saved present from rfl, restoredSerial_eq host hcovers]
  rw [show (restoredGuest saved present).t8 =
      restoredT8 saved present from rfl, ht8]
  rw [show (restoredGuest saved present).lcd =
      restoredLcd saved present from rfl, restoredLcd_eq host]
  rw [show (restoredGuest saved present).ad =
      restoredAd saved present from rfl, restoredAd_eq host had]
  rfl

/-- Conversely, everything the file leaves out shows in the guest. -/
theorem saveCovers_of_onHost
    (hcounts : ∀ count ∈ saved.counts, count < 2 ^ 32)
    (hbuttons : present.buttons.btnState = saved.buttons.btnState)
    (hsame : ∀ host : Machine,
      host.onHost (restoredGuest saved present) = host.onHost saved) :
    SaveCovers saved present := by
  have heq := hsame saved
  have hcycles : (serUpdateCycles present.clock saved.serial).serCycles =
      saved.serial.serCycles :=
    congrArg (fun m => m.serial.serCycles) heq
  have hrx : addToCycle present.cycles
      (serUpdateCycles present.clock saved.serial).serCycles =
        saved.serial.rxCycle :=
    congrArg (fun m => m.serial.rxCycle) heq
  have htx : addToCycle present.cycles
      (serUpdateCycles present.clock saved.serial).serCycles =
        saved.serial.txCycle :=
    congrArg (fun m => m.serial.txCycle) heq
  have hclock : (restoredGuest saved present).clock = saved.clock :=
    congrArg (fun m => m.clock) heq
  rw [hcycles] at hrx htx
  refine ⟨congrArg (fun m => m.t16.temp) heq, congrArg (fun m => m.wcsr) heq,
    congrArg (fun m => m.irqDisabledOne) heq,
    congrArg (fun m => m.serial.receiving) heq, hcycles, hrx, htx, ?_⟩
  intro hurgent
  rw [restored_clock hcounts hbuttons, if_pos hurgent] at hclock
  exact (congrArg (fun clock => clock.nextTimerCycle) hclock).symm

end Guest

/-- A state that is saved and then loaded into the present one brings back
the guest's machine, so that every run on the same inputs is the same. -/
def SaveRestores (junk stale : Buffer) (saved present : Emulator) : Prop :=
  ∃ e, savefileLoad junk (savefileSave stale saved).1 present =
      some (.done, e) ∧
    ∀ host : Machine,
      host.onHost e.machine = host.onHost saved.machine ∧
      ∀ phase oldpc n, Cpu.step^[n] ⟨host.onHost e.machine, phase, oldpc⟩ =
        Cpu.step^[n] ⟨host.onHost saved.machine, phase, oldpc⟩

/-- The load is successful and what remains is a statement about the
guest. -/
theorem saveRestores_iff_guest (junk stale : Buffer)
    (saved present : Emulator)
    (hsymbols : ∀ sym ∈ saved.symbols.toList, sym.Storable) :
    SaveRestores junk stale saved present ↔
      ∀ host : Machine,
        host.onHost (restoredGuest saved.machine present.machine) =
          host.onHost saved.machine := by
  have hload : savefileLoad junk (savefileSave stale saved).1 present =
      some (.done, restored saved present) := by
    change savefileLoad junk (savefileContents stale saved.stopTime) present =
      _
    rw [savefileContents_stopTime]
    exact savefileLoad_contents saved junk stale present
      fun sym hsym => (hsymbols sym hsym).readable
  constructor
  · rintro ⟨e, hloaded, hsame⟩ host
    rw [hload, Option.some.injEq, Prod.mk.injEq] at hloaded
    rw [← onHost_restored host saved present, hloaded.2]
    exact (hsame host).1
  · intro hsame
    refine ⟨_, hload, ?_⟩
    intro host
    rw [onHost_restored, hsame host]
    exact ⟨rfl, fun _ _ _ => rfl⟩

/-- Saving and loading is the identity on the guest exactly when the state
the file leaves out is the same in both machines. -/
theorem saveRestores_iff (junk stale : Buffer) (saved present : Emulator)
    (hsymbols : ∀ sym ∈ saved.symbols.toList, sym.Storable)
    (hcounts : ∀ count ∈ saved.machine.counts, count < 2 ^ 32)
    (hawake : saved.machine.sleeping = false)
    (hbuttons : present.machine.buttons.btnState =
      saved.machine.buttons.btnState) :
    SaveRestores junk stale saved present ↔
      SaveCovers saved.machine present.machine := by
  rw [saveRestores_iff_guest junk stale saved present hsymbols]
  constructor
  · exact saveCovers_of_onHost hcounts hbuttons
  · intro hcovers host
    exact onHost_restoredGuest host hcounts hawake hbuttons hcovers

/-- A character is on its way that was started at cycle 500. -/
def sendingMachine : Machine :=
  let m := Machine.powerOn (fun _ => none) [] [] []
  { m with
    clock := { m.clock with cycles := 600 }
    pc := 0x8000
    reg := fun nr => nr.setWidth 8
    memory := fun addr => if addr = 0x8000 then 0x54 else 0x11
    serial := { m.serial with
      serCycles := 320, rxCycle := 820, txCycle := 820 } }

/-- Another program at cycle 500. -/
def otherMachine : Machine :=
  let m := Machine.powerOn (fun _ => none) [] [] []
  { m with
    clock := { m.clock with cycles := 500 }
    pc := 0xf000
    ccr := 0x81
    memory := fun _ => 0xff }

theorem saveRestores_sending :
    SaveRestores (fun _ => 0) (fun _ => 0)
      ⟨sendingMachine, sampleTable, 0, 0xf8⟩
      ⟨otherMachine, .nil, 0, 0xf8⟩ := by
  have hcovers : SaveCovers sendingMachine otherMachine :=
    ⟨rfl, rfl, rfl, rfl, by decide, by decide, by decide, by decide⟩
  have hbuttons : otherMachine.buttons.btnState =
      sendingMachine.buttons.btnState := rfl
  exact (saveRestores_iff _ _ _ _ (by decide +kernel) (by decide) rfl
    hbuttons).mpr hcovers

/-- Writes 0x12 and later 0x34 to the high byte of the counter, which goes to
the latch of the 16-bit timer. -/
def latchRom : ℕ → Option Byte
  | 0x00 => some 0x00 | 0x01 => some 0x10
  | 0x10 => some 0xf8 | 0x11 => some 0x12
  | 0x12 => some 0x38 | 0x13 => some 0x92
  | 0x14 => some 0xf8 | 0x15 => some 0x34
  | 0x16 => some 0x38 | 0x17 => some 0x92
  | 0x18 => some 0x40 | 0x19 => some 0xfe
  | _ => none

def latchRun (n : ℕ) : Machine :=
  (Cpu.run (Machine.powerOn latchRom [] [] []) n).machine

/-- The latch keeps the later byte when the earlier state is loaded. -/
theorem saveRestores_fails :
    ((∀ count ∈ (latchRun 6).counts, count < 2 ^ 32) ∧
      (latchRun 6).sleeping = false ∧
      (latchRun 10).buttons.btnState = (latchRun 6).buttons.btnState) ∧
    ¬SaveRestores (fun _ => 0) (fun _ => 0) ⟨latchRun 6, .nil, 0, 0xf8⟩
      ⟨latchRun 10, .nil, 0, 0xf8⟩ := by
  have hdomain : (∀ count ∈ (latchRun 6).counts, count < 2 ^ 32) ∧
      (latchRun 6).sleeping = false ∧
      (latchRun 10).buttons.btnState = (latchRun 6).buttons.btnState := by
    decide +kernel
  have htemp : (latchRun 10).t16.temp ≠ (latchRun 6).t16.temp := by
    decide +kernel
  refine ⟨hdomain, ?_⟩
  intro hrestores
  have hguest := (saveRestores_iff_guest _ _ _ _ (by decide)).mp hrestores
  exact htemp (saveCovers_of_onHost hdomain.1 hdomain.2.2 hguest).temp

end BrickEmu
