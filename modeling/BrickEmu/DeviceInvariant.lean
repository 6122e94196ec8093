import BrickEmu.InstructionRule
import BrickEmu.Synchronization

/-!
# Invariants of the devices

A property of the serial line, the 8-bit timer, the watchdog and the deadline
of the non-maskable interrupt is kept by the whole machine when the register
accesses, the updates, the resets and the polls keep it.  Instructions,
interrupts, the debugger and the passes of `run_cpu` are made of these.
-/

namespace BrickEmu

section Deadline

@[simp] theorem t16CheckNextCycle_nextNmi (timer : Timer16) (clock : Clock) :
    (t16CheckNextCycle timer clock).nextNmiCycle = clock.nextNmiCycle := by
  simp only [t16CheckNextCycle]
  split_ifs <;> rfl

@[simp] theorem btnCheckNextCycle_nextNmi (buttons : Buttons)
    (clock : Clock) :
    (btnCheckNextCycle buttons clock).nextNmiCycle = clock.nextNmiCycle := by
  unfold btnCheckNextCycle
  split_ifs <;> rfl

theorem t16Store_nextNmi (val : Byte) (clock : Clock) (timer : Timer16)
    (register : T16Register) :
    (t16Store val clock timer register).2.nextNmiCycle =
      clock.nextNmiCycle := by
  cases register <;> simp [t16Store, setTIER, setTCSR]

theorem btnReadFd_nextNmi (button : Button) (pressed : Bool) (clock : Clock)
    (buttons : Buttons) :
    (btnReadFd button pressed clock buttons).2.nextNmiCycle =
      clock.nextNmiCycle := by
  simp only [btnReadFd]
  generalize (if pressed = true then (0 : Byte) else 0xff) = newval
  split_ifs
  · exact btnCheckNextCycle_nextNmi _ clock
  · rfl

end Deadline

/-- The property is about the serial line, the 8-bit timer, the watchdog and
its deadline, and what works on these keeps it. -/
structure DeviceRule (P : Machine → Prop) : Prop where
  same : ∀ m m' : Machine, P m → m'.serial = m.serial → m'.t8 = m.t8 →
    m'.wdog = m.wdog → m'.clock.nextNmiCycle = m.clock.nextNmiCycle → P m'
  read : ∀ (m m' : Machine) port val, P m →
    m.portGet port = some (val, m') → P m'
  write : ∀ (m : Machine) port val, P m → port ≠ .port6 →
    (∀ register, port ≠ .t16 register) → P (m.portSet port val)
  update : ∀ m : Machine, P m → P m.updateTimes
  reset : ∀ m : Machine, P m → P m.resetPeripherals

/-- The poll for interrupts keeps it as well, which moves the deadline away
and back. -/
structure DeviceInvariant (P : Machine → Prop) : Prop extends
    DeviceRule P where
  poll : ∀ m : Machine, P m → P m.rearm.waitPeripherals.pollIrqs.2

namespace DeviceRule

open Machine

variable {P : Machine → Prop} (hP : DeviceRule P) {m : Machine}

include hP

section Accesses

theorem addCycles (h : P m) (n : ℕ) : P (m.addCycles n) :=
  hP.same m _ h rfl rfl rfl rfl

theorem poke (h : P m) (addr : ℕ) (val : Byte) : P (m.poke addr val) :=
  hP.same m _ h rfl rfl rfl rfl

theorem refresh (h : P m) (addr : ℕ) : P (m.refresh addr) := by
  unfold Machine.refresh
  split
  · split
    · next hget => exact hP.poke (hP.read _ _ _ _ h hget) addr _
    · exact h
  · exact h

theorem illegalAccess (h : P m) : P m.illegalAccess :=
  hP.same m _ h rfl rfl rfl rfl

theorem getByte (h : P m) (addr : Word) : P (m.getByte addr).2 := by
  unfold Machine.getByte getByteDiv
  split_ifs
  · exact hP.refresh h addr.toNat
  · exact hP.illegalAccess h
  · exact h

theorem getWord (h : P m) (addr : Word) : P (m.getWord addr).2 := by
  simp only [Machine.getWord, getWordDiv]
  split_ifs
  · exact h
  · exact hP.illegalAccess h
  · exact hP.refresh (hP.refresh h _) _
  · exact hP.illegalAccess h

theorem getWordCycles (h : P m) (addr : Word) : P (m.getWordCycles addr).2 :=
  hP.getWord (hP.addCycles h _) addr

end Accesses

section Outside

theorem handleCommand (h : P m) (command : Command) :
    P (m.handleCommand command) := by
  cases command with
  | button button pressed =>
      exact hP.same m _ h rfl rfl rfl
        (btnReadFd_nextNmi button pressed m.clock m.buttons)
  | poke addr val | setTrap addr kind | clearTrap addr kind =>
      simp only [Machine.handleCommand, debuggerWrite]
      split_ifs
      · exact hP.same m _ h rfl rfl rfl rfl
      · exact h
  | _ => exact hP.same m _ h rfl rfl rfl rfl

theorem finishReset (h : P m) : P m.finishReset := by
  have hnext : P { m.addCycles 1 with dbTrap := 0 } :=
    hP.same m _ h rfl rfl rfl rfl
  exact hP.same _ _ (hP.getWordCycles hnext 0) rfl rfl rfl rfl

theorem beginReset (h : P m) : P m.beginReset := by
  have hmasked : P { m with irqDisabledOne := true, ccr := 0x80 } :=
    hP.same m _ h rfl rfl rfl rfl
  exact hP.same _ _ (hP.reset _ hmasked) rfl rfl rfl rfl

theorem synchronized : Synchronized P where
  pace m h := hP.same m _ h rfl rfl rfl rfl
  arrive m h := hP.same m _ h rfl rfl rfl rfl
  handle _ command h := hP.handleCommand h command
  beginReset _ h := hP.beginReset h
  finishReset m h :=
    hP.same _ _ (hP.finishReset (hP.update m h)) rfl rfl rfl rfl
  reschedule m h := by
    apply hP.same m _ h <;> simp only [reschedule]

theorem synchronizeTime (h : P m) : P m.synchronizeTime :=
  hP.synchronized.synchronizeTime h

theorem waitPeripherals (h : P m) : P m.waitPeripherals :=
  hP.update _ (hP.synchronizeTime h)

theorem doReset (h : P m) : P m.doReset :=
  hP.finishReset (hP.waitPeripherals (hP.beginReset h))

end Outside

section Stores

theorem setPort6 (h : P m) (val : Byte) : P (m.setPort6 val) := by
  apply setPort6_induction
  · exact fun lcd => hP.same m _ h rfl rfl rfl rfl
  · exact fun m' h' => hP.waitPeripherals h'
  · exact fun m' out h' => hP.same m' _ h' rfl rfl rfl rfl
  · exact fun m' motor h' => hP.same m' _ h' rfl rfl rfl rfl

theorem setT16 (h : P m) (register : T16Register) (val : Byte) :
    P (m.setT16 register val) := by
  simp only [Machine.setT16]
  split_ifs
  · exact hP.same _ _ (hP.waitPeripherals h) rfl rfl rfl
      (t16Store_nextNmi _ _ _ _)
  · exact hP.same m _ h rfl rfl rfl (t16Store_nextNmi _ _ _ _)

theorem portSet (h : P m) (port : Port) (val : Byte) :
    P (m.portSet port val) := by
  cases port with
  | t16 register => exact hP.setT16 h register val
  | port6 => exact hP.setPort6 h val
  | _ => exact hP.write m _ val h (by simp) (by simp)

theorem portStore (h : P m) (addr : ℕ) (val : Byte) :
    P (m.portStore addr val) := by
  unfold Machine.portStore
  split
  · exact hP.portSet h _ val
  · exact h

theorem setByte (h : P m) (addr : Word) (val : Byte) :
    P (m.setByte addr val) := by
  simp only [Machine.setByte]
  apply hP.poke
  split_ifs
  · exact hP.same m _ h rfl rfl rfl rfl
  · exact hP.portStore h addr.toNat val
  · exact hP.illegalAccess h
  · exact h

theorem setWord (h : P m) (addr : Word) (val : Word) :
    P (m.setWord addr val) := by
  simp only [Machine.setWord]
  have hpoked : P ((m.poke addr.toNat (val.extractLsb' 8 8)).poke
      (addr.toNat + 1) (val.extractLsb' 0 8)) := hP.poke (hP.poke h _ _) _ _
  split_ifs
  · exact hP.same _ _ hpoked rfl rfl rfl rfl
  · exact hP.portStore (hP.portStore hpoked _ _) _ _
  · exact hP.illegalAccess hpoked
  · exact hpoked

theorem setWordCycles (h : P m) (addr : Word) (val : Word) :
    P (m.setWordCycles addr val) :=
  hP.setWord (hP.addCycles h _) addr val

end Stores

theorem rule : InstructionRule fun m m' => P m → P m' where
  trans _ _ _ h h' hm := h' (h hm)
  internal := by
    rintro m m' ⟨reg, pc, ccr, n, irqDisabledOne, dbTrap, frames, sleeping,
      rfl⟩ h
    exact hP.same m _ h rfl rfl rfl rfl
  getWord addr m h := hP.getWord h addr
  getByteCycles addr m h := hP.getByte (hP.addCycles h _) addr
  getWordCycles addr m h := hP.getWordCycles h addr
  setByteCycles addr val m _ h := hP.setByte (hP.addCycles h _) addr val
  setWordCycles addr val m _ h := hP.setWordCycles h addr val

section Interrupts

theorem enterIrq (h : P m) (selirq : ℕ) : P (m.enterIrq selirq) := by
  simp only [Machine.enterIrq]
  have hfetched := hP.getWordCycles h m.pc
  generalize (m.getWordCycles m.pc).2 = m₁ at hfetched ⊢
  have hpushed := hP.setWordCycles hfetched (m₁.reg16 7 - 4 + 2) m₁.pc
  generalize m₁.setWordCycles (m₁.reg16 7 - 4 + 2) m₁.pc = m₂
    at hpushed ⊢
  have hflags := hP.setWordCycles hpushed (m₁.reg16 7 - 4)
    (m₂.ccr ++ m₂.ccr)
  generalize m₂.setWordCycles (m₁.reg16 7 - 4) (m₂.ccr ++ m₂.ccr) = m₃
    at hflags ⊢
  have hmasked : P { m₃.setReg16 7 (m₁.reg16 7 - 4) with
      ccr := (m₃.setReg16 7 (m₁.reg16 7 - 4)).ccr ||| 0x80 } :=
    hP.same m₃ _ hflags rfl rfl rfl rfl
  exact hP.same _ _
    (hP.getWordCycles hmasked (BitVec.ofNat 16 (selirq * 2))) rfl rfl rfl rfl

theorem stopTime (h : P m) : P m.stopTime := by
  unfold Machine.stopTime
  split_ifs <;> exact hP.same m _ h rfl rfl rfl rfl

theorem contTime (h : P m) : P m.contTime := by
  unfold Machine.contTime
  split_ifs <;> exact hP.same m _ h rfl rfl rfl rfl

theorem wakeUp (h : P m) : P m.wakeUp := by
  unfold Machine.wakeUp
  split_ifs
  · have hlater : P { m with clock := { m.clock with
        cycles := addToCycle m.cycles m.standbyCycles } } :=
      hP.same m _ h rfl rfl rfl rfl
    exact hP.same _ _ (hP.reset _ hlater) rfl rfl rfl rfl
  · exact hP.same m _ h rfl rfl rfl rfl

theorem atLabel (h : P m) (oldpc : Word) (exit : Exit) :
    P (m.atLabel oldpc exit) := by
  cases exit with
  | trap =>
      simp only [Machine.atLabel]
      split_ifs <;> exact hP.same m _ h rfl rfl rfl rfl
  | fault | illOpc => exact hP.same m _ h rfl rfl rfl rfl

end Interrupts

section Passes

open Cpu

variable {cpu : Cpu}

theorem enter (h : P cpu.machine) : P cpu.enter.machine := by
  have hodd : P (if cpu.machine.pc &&& 1 ≠ 0 then
      { cpu.machine with dbTrap := 10 } else cpu.machine) := by
    split_ifs
    · exact hP.same _ _ h rfl rfl rfl rfl
    · exact h
  simp only [Cpu.enter, halt]
  generalize (if cpu.machine.pc &&& 1 ≠ 0 then
    { cpu.machine with dbTrap := 10 } else cpu.machine) = m at hodd ⊢
  split_ifs
  · exact hP.stopTime (hP.same m _ hodd rfl rfl rfl rfl)
  · exact hP.stopTime hodd
  · exact hodd

theorem execute (h : P m) : P (Cpu.execute m).machine := by
  have hbody := hP.rule.keeps_executeInstruction m h
  rw [Cpu.execute]
  generalize executeInstruction m = result at hbody ⊢
  obtain ⟨exit | sleeps, m'⟩ := result
  · exact hP.stopTime (hP.atLabel hbody m.pc exit)
  · cases sleeps with
    | false => exact hbody
    | true =>
        simp only [fallAsleep]
        split_ifs
        · exact hP.stopTime hbody
        · exact hbody

end Passes

end DeviceRule

namespace DeviceInvariant

open Machine Cpu

variable {P : Machine → Prop} (hP : DeviceInvariant P) {m : Machine}
  {cpu : Cpu}

include hP

theorem checkIrq (h : P m) : P m.checkIrq.2 := by
  have hpolled := hP.poll m h
  simp only [Machine.checkIrq]
  generalize m.rearm.waitPeripherals.pollIrqs = polled at hpolled ⊢
  obtain ⟨selirq, m₁⟩ := polled
  cases houtcome : m₁.selectIrq selirq with
  | none => simpa only [houtcome] using hpolled
  | reset =>
      have hlate : P { m₁ with
          clock := { m₁.clock with cycles := m₁.clock.nextNmiCycle } } :=
        hP.same m₁ _ hpolled rfl rfl rfl rfl
      simpa only [houtcome] using hP.doReset hlate
  | taken vector => simpa only [houtcome] using hP.enterIrq hpolled vector

theorem pollIrq (h : P m) : P m.pollIrq := by
  unfold Machine.pollIrq
  split_ifs
  · have hchecked := hP.checkIrq (m := m.markSinglestep)
      (hP.same m _ h rfl rfl rfl rfl)
    unfold stepOverIrq
    split_ifs
    · exact hchecked
    · exact hP.same _ _ hchecked rfl rfl rfl rfl
  · exact hP.checkIrq h

theorem dispatch (h : P cpu.machine) : P cpu.dispatch.machine := by
  simp only [Cpu.dispatch]
  split_ifs
  · exact hP.execute (hP.same _ _ h rfl rfl rfl rfl)
  · exact hP.pollIrq h
  · exact hP.execute h

theorem doze {skip leave : Machine → Machine}
    (hskip : ∀ m, P m → P (skip m)) (hleave : ∀ m, P m → P (leave m))
    (h : P cpu.machine) : P (cpu.doze skip leave).machine := by
  have hchecked := hP.checkIrq (hskip _ h)
  simp only [Cpu.doze]
  generalize (skip cpu.machine).checkIrq = polled at hchecked ⊢
  obtain ⟨outcome, m⟩ := polled
  split_ifs
  · have hstop : P { cpu.machine with pc := cpu.machine.pc - 2 } :=
      hP.same _ _ h rfl rfl rfl rfl
    exact hP.wakeUp (hleave _ hstop)
  · exact hchecked
  · exact hP.wakeUp (hleave m hchecked)

/-- Every pass of `run_cpu` keeps the property. -/
theorem step (h : P cpu.machine) : P cpu.step.machine := by
  unfold Cpu.step
  cases cpu.phase with
  | top => exact hP.enter h
  | stopped =>
      simp only
      split_ifs
      · exact hP.contTime h
      · exact hP.synchronizeTime h
  | ready => exact hP.dispatch h
  | asleep =>
      exact hP.doze (fun m h => hP.same m _ h rfl rfl rfl rfl)
        (fun _ h => h) h
  | standby =>
      exact hP.doze (fun _ h => h) (fun _ h => hP.contTime h) h

/-- A property that holds at power-on holds in the whole run. -/
theorem run {m : Machine} (h : P m) (n : ℕ) :
    P (Cpu.run m n).machine := by
  induction n with
  | zero =>
      have hfresh : P { m with dbSinglestepPc := 0xffff } :=
        hP.same m _ h rfl rfl rfl rfl
      exact hP.doReset hfresh
  | succ n ih =>
      rw [Cpu.run, Function.iterate_succ_apply']
      exact hP.step ih

end DeviceInvariant

end BrickEmu
