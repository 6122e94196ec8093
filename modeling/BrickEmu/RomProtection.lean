import BrickEmu.InstructionRule
import BrickEmu.InterruptShadow

/-!
# The ROM

The stores of the instructions test for write traps, which `mem_init` sets on
the whole ROM.  The interrupt entry pushes its two words without that test.
The ROM stays as it is in the runs in which every interrupt finds the stack
outside it.
-/

namespace BrickEmu

open Program

def ROM_END : ℕ := 0x4000

namespace Command

/-- The commands of the GUI but for the reset; the others come from the
debugger. -/
def FromGui : Command → Prop
  | .button _ _ | .sensor _ _ => True
  | _ => False

end Command

namespace Machine

/-- The ROM has its contents and its write traps, nothing from the debugger
is under way, and a reset reads the same contents again. -/
structure RomKept (content : ℕ → Byte) (m : Machine) : Prop where
  memory : ∀ addr < ROM_END, m.memory addr = content addr
  memtype : ∀ addr < ROM_END, m.memtype addr &&& MEMTYPE_WRITETRAP ≠ 0
  rom : ∀ addr < ROM_END, ∀ val ∈ m.rom addr, val = content addr
  singlestep : m.dbSinglestep = false
  singlestepPc : m.dbSinglestepPc = 0xffff
  arrivals : ∀ commands ∈ m.arrivals, ∀ command ∈ commands, command.FromGui

/-- The four bytes below the stack pointer are outside the ROM. -/
def StackClear (m : Machine) : Prop :=
  ROM_END ≤ (m.reg16 7 - 4).toNat ∧ ROM_END ≤ (m.reg16 7 - 2).toNat

variable {content : ℕ → Byte} {m m' : Machine}

/-- Nothing that concerns the ROM has changed. -/
structure SameRom (m m' : Machine) : Prop where
  memory : ∀ addr < ROM_END, m'.memory addr = m.memory addr
  memtype : m'.memtype = m.memtype
  rom : m'.rom = m.rom
  singlestep : m'.dbSinglestep = m.dbSinglestep
  singlestepPc : m'.dbSinglestepPc = m.dbSinglestepPc
  arrivals : m'.arrivals = m.arrivals

theorem SameRom.refl (m : Machine) : SameRom m m :=
  ⟨fun _ _ => rfl, rfl, rfl, rfl, rfl, rfl⟩

theorem SameRom.trans {m'' : Machine} (h : SameRom m m')
    (h' : SameRom m' m'') : SameRom m m'' :=
  ⟨fun addr haddr => (h'.memory addr haddr).trans (h.memory addr haddr),
    h'.memtype.trans h.memtype, h'.rom.trans h.rom,
    h'.singlestep.trans h.singlestep, h'.singlestepPc.trans h.singlestepPc,
    h'.arrivals.trans h.arrivals⟩

theorem RomKept.congr (h : m.RomKept content) (hsame : SameRom m m') :
    m'.RomKept content where
  memory addr haddr := (hsame.memory addr haddr).trans (h.memory addr haddr)
  memtype addr haddr := hsame.memtype ▸ h.memtype addr haddr
  rom addr haddr := hsame.rom ▸ h.rom addr haddr
  singlestep := hsame.singlestep.trans h.singlestep
  singlestepPc := hsame.singlestepPc.trans h.singlestepPc
  arrivals := hsame.arrivals ▸ h.arrivals

section Accesses

/-- The registers lie at the end of the memory. -/
theorem ofAddr_range {addr : ℕ} {port : Port}
    (hport : Port.ofAddr addr = some port) : 0xff90 ≤ addr := by
  by_contra hlow
  unfold Port.ofAddr at hport
  split at hport <;> first | omega | cases hport

theorem sameRom_poke {addr : ℕ} (haddr : ROM_END ≤ addr) (val : Byte)
    (m : Machine) : SameRom m (m.poke addr val) := by
  refine ⟨fun other hother => ?_, rfl, rfl, rfl, rfl, rfl⟩
  have hne : other ≠ addr := by omega
  exact Function.update_of_ne hne ..

theorem sameRom_of_read (hread : ReadEffect m m')
    (hmemory : m'.memory = m.memory) : SameRom m m' := by
  obtain ⟨_, _, _, _, _, _, _, _, _, rfl⟩ := hread
  exact ⟨fun addr _ => congrFun hmemory addr, rfl, rfl, rfl, rfl, rfl⟩

theorem portGet_memory {port : Port} {val : Byte}
    (hget : m.portGet port = some (val, m')) : m'.memory = m.memory := by
  cases port with
  | serial register =>
      cases register <;> obtain ⟨-, rfl⟩ := Prod.mk.inj (Option.some.inj hget) <;>
        rfl
  | port6 => cases hget
  | _ =>
      obtain ⟨-, rfl⟩ := Prod.mk.inj (Option.some.inj hget)
      rfl

theorem sameRom_refresh (addr : ℕ) (m : Machine) :
    SameRom m (m.refresh addr) := by
  unfold refresh
  split
  · next port hport =>
      have haddr : ROM_END ≤ addr := by
        have hrange := ofAddr_range hport
        unfold ROM_END
        omega
      split
      · next val m' hget =>
          have hread := portGet_effect hget
          exact (sameRom_of_read hread (portGet_memory hget)).trans
            (sameRom_poke haddr val m')
      · exact SameRom.refl m
  · exact SameRom.refl m

theorem sameRom_getByte (addr : Word) (m : Machine) :
    SameRom m (m.getByte addr).2 := by
  unfold getByte getByteDiv
  split_ifs
  · exact sameRom_refresh addr.toNat m
  · exact ⟨fun _ _ => rfl, rfl, rfl, rfl, rfl, rfl⟩
  · exact SameRom.refl m

theorem sameRom_getWord (addr : Word) (m : Machine) :
    SameRom m (m.getWord addr).2 := by
  unfold getWord getWordDiv
  split_ifs
  · exact SameRom.refl m
  · exact ⟨fun _ _ => rfl, rfl, rfl, rfl, rfl, rfl⟩
  · exact (sameRom_refresh addr.toNat m).trans (sameRom_refresh _ _)
  · exact ⟨fun _ _ => rfl, rfl, rfl, rfl, rfl, rfl⟩

theorem sameRom_addCycles (n : ℕ) (m : Machine) :
    SameRom m (m.addCycles n) :=
  ⟨fun _ _ => rfl, rfl, rfl, rfl, rfl, rfl⟩

theorem sameRom_getByteCycles (addr : Word) (m : Machine) :
    SameRom m (m.getByteCycles addr).2 :=
  (sameRom_addCycles _ m).trans (sameRom_getByte addr _)

theorem sameRom_getWordCycles (addr : Word) (m : Machine) :
    SameRom m (m.getWordCycles addr).2 :=
  (sameRom_addCycles _ m).trans (sameRom_getWord addr _)

end Accesses

section Peripherals

theorem sameRom_updateTimes (m : Machine) : SameRom m m.updateTimes :=
  ⟨fun _ _ => rfl, rfl, rfl, rfl, rfl, rfl⟩

/-- A reset reads the ROM again. -/
theorem RomKept.readRom (h : m.RomKept content) :
    m.readRom.RomKept content where
  memory addr haddr := by
    cases hrom : m.rom addr with
    | none =>
        have hmemory : m.readRom.memory addr = m.memory addr := by
          simp [Machine.readRom, hrom]
        rw [hmemory]
        exact h.memory addr haddr
    | some val =>
        have hmemory : m.readRom.memory addr = val := by
          simp [Machine.readRom, hrom]
        rw [hmemory]
        exact h.rom addr haddr val hrom
  memtype := h.memtype
  rom := h.rom
  singlestep := h.singlestep
  singlestepPc := h.singlestepPc
  arrivals := h.arrivals

theorem RomKept.beginReset (h : m.RomKept content) :
    m.beginReset.RomKept content := by
  apply RomKept.readRom
  exact h.congr ⟨fun _ _ => rfl, rfl, rfl, rfl, rfl, rfl⟩

theorem sameRom_finishReset (m : Machine) : SameRom m m.finishReset := by
  have hread := sameRom_getWordCycles 0
    ({ m.addCycles 1 with dbTrap := 0 } : Machine)
  have hstart : SameRom m { m.addCycles 1 with dbTrap := 0 } :=
    ⟨fun _ _ => rfl, rfl, rfl, rfl, rfl, rfl⟩
  exact (hstart.trans hread).trans ⟨fun _ _ => rfl, rfl, rfl, rfl, rfl, rfl⟩

theorem sameRom_handleCommand {command : Command} (hgui : command.FromGui)
    (m : Machine) : SameRom m (m.handleCommand command) := by
  cases command <;>
    first
    | exact ⟨fun _ _ => rfl, rfl, rfl, rfl, rfl, rfl⟩
    | exact absurd hgui not_false

theorem sameRom_reschedule (m : Machine) : SameRom m m.reschedule := by
  constructor <;> simp [reschedule]

theorem synchronizedBy_romKept (content : ℕ → Byte) :
    SynchronizedBy Command.FromGui (RomKept content) where
  expected _ h := h.arrivals
  pace _ h := h.congr ⟨fun _ _ => rfl, rfl, rfl, rfl, rfl, rfl⟩
  arrive _ h :=
    { memory := h.memory
      memtype := h.memtype
      rom := h.rom
      singlestep := h.singlestep
      singlestepPc := h.singlestepPc
      arrivals := fun commands hmem =>
        h.arrivals commands (List.mem_of_mem_tail hmem) }
  handle m _ hgui h := h.congr (sameRom_handleCommand hgui m)
  beginReset _ _ h := h.beginReset
  finishReset _ m h :=
    (h.congr ((sameRom_updateTimes m).trans (sameRom_finishReset _))).congr
      ⟨fun _ _ => rfl, rfl, rfl, rfl, rfl, rfl⟩
  reschedule m h := h.congr (sameRom_reschedule m)

theorem RomKept.waitPeripherals (h : m.RomKept content) :
    m.waitPeripherals.RomKept content :=
  ((synchronizedBy_romKept content).synchronizeTime h).congr
    (sameRom_updateTimes _)

theorem RomKept.doReset (h : m.RomKept content) :
    m.doReset.RomKept content :=
  (h.beginReset.waitPeripherals).congr (sameRom_finishReset _)

end Peripherals

section Stores

theorem RomKept.setT16 (h : m.RomKept content) (register : T16Register)
    (val : Byte) : (m.setT16 register val).RomKept content := by
  unfold Machine.setT16
  split_ifs
  · exact h.waitPeripherals.congr ⟨fun _ _ => rfl, rfl, rfl, rfl, rfl, rfl⟩
  · exact h.congr ⟨fun _ _ => rfl, rfl, rfl, rfl, rfl, rfl⟩

theorem RomKept.setPort6 (h : m.RomKept content) (val : Byte) :
    (m.setPort6 val).RomKept content := by
  apply setPort6_induction
  · exact fun lcd => h.congr ⟨fun _ _ => rfl, rfl, rfl, rfl, rfl, rfl⟩
  · exact fun m' h => h.waitPeripherals
  · exact fun m' out h =>
      h.congr ⟨fun _ _ => rfl, rfl, rfl, rfl, rfl, rfl⟩
  · exact fun m' motor h =>
      h.congr ⟨fun _ _ => rfl, rfl, rfl, rfl, rfl, rfl⟩

theorem RomKept.portStore (h : m.RomKept content) (addr : ℕ) (val : Byte) :
    (m.portStore addr val).RomKept content := by
  unfold Machine.portStore
  split
  · next port _ =>
      cases port with
      | t16 register => exact h.setT16 register val
      | port6 => exact h.setPort6 val
      | serial register =>
          cases register <;>
            exact h.congr ⟨fun _ _ => rfl, rfl, rfl, rfl, rfl, rfl⟩
      | _ => exact h.congr ⟨fun _ _ => rfl, rfl, rfl, rfl, rfl, rfl⟩
  · exact h

theorem RomKept.setByte (h : m.RomKept content) {addr : Word}
    (haddr : ROM_END ≤ addr.toNat) (val : Byte) :
    (m.setByte addr val).RomKept content := by
  simp only [Machine.setByte]
  split_ifs
  · have hmotor : (m.setMotorPort val).RomKept content :=
      h.congr ⟨fun _ _ => rfl, rfl, rfl, rfl, rfl, rfl⟩
    exact hmotor.congr (sameRom_poke haddr val _)
  · exact (h.portStore addr.toNat val).congr (sameRom_poke haddr val _)
  · have hillegal : m.illegalAccess.RomKept content :=
      h.congr ⟨fun _ _ => rfl, rfl, rfl, rfl, rfl, rfl⟩
    exact hillegal.congr (sameRom_poke haddr val _)
  · exact h.congr (sameRom_poke haddr val m)

theorem RomKept.setWord (h : m.RomKept content) {addr : Word}
    (haddr : ROM_END ≤ addr.toNat) (val : Word) :
    (m.setWord addr val).RomKept content := by
  have hstored := h.congr ((sameRom_poke haddr (val.extractLsb' 8 8) m).trans
    (sameRom_poke (Nat.le_succ_of_le haddr) (val.extractLsb' 0 8) _))
  simp only [Machine.setWord]
  split_ifs
  · exact hstored.congr ⟨fun _ _ => rfl, rfl, rfl, rfl, rfl, rfl⟩
  · exact (hstored.portStore _ _).portStore _ _
  · exact hstored.congr ⟨fun _ _ => rfl, rfl, rfl, rfl, rfl, rfl⟩
  · exact hstored

theorem RomKept.setWordCycles (h : m.RomKept content) {addr : Word}
    (haddr : ROM_END ≤ addr.toNat) (val : Word) :
    (m.setWordCycles addr val).RomKept content :=
  (h.congr (sameRom_addCycles _ m)).setWord haddr val

/-- An address without a write trap is outside the ROM. -/
theorem RomKept.outside (h : m.RomKept content) {addr : Word}
    (htrap : m.memtype addr.toNat &&& MEMTYPE_WRITETRAP = 0) :
    ROM_END ≤ addr.toNat := by
  by_contra hlow
  exact h.memtype addr.toNat (by omega) htrap

end Stores

theorem writeTrap_eq_zero (type : Byte) :
    type &&& MEMTYPE_WRITETRAP = 0 ↔ type.getLsbD 2 = false :=
  and_mask_eq_zero type 2 (by omega) rfl

theorem romKept_rule (content : ℕ → Byte) :
    InstructionRule fun m m' => m.RomKept content → m'.RomKept content where
  trans _ _ _ h h' hm := h' (h hm)
  internal := by
    rintro m m' ⟨reg, pc, ccr, n, irqDisabledOne, dbTrap, frames, sleeping,
      rfl⟩ h
    exact h.congr ⟨fun _ _ => rfl, rfl, rfl, rfl, rfl, rfl⟩
  getWord addr m h := h.congr (sameRom_getWord addr m)
  getByteCycles addr m h := h.congr (sameRom_getByteCycles addr m)
  getWordCycles addr m h := h.congr (sameRom_getWordCycles addr m)
  setByteCycles addr val m htrap h := by
    have haddr := h.outside (by simpa [byteTrap] using htrap)
    exact (h.congr (sameRom_addCycles _ m)).setByte haddr val
  setWordCycles addr val m htrap h := by
    have hboth : (m.memtype addr.toNat ||| m.memtype (addr.toNat + 1)) &&&
        MEMTYPE_WRITETRAP = 0 := by simpa [wordTrap] using htrap
    rw [writeTrap_eq_zero, BitVec.getLsbD_or, Bool.or_eq_false_iff,
      ← writeTrap_eq_zero] at hboth
    exact h.setWordCycles (h.outside hboth.1) val

section Interrupts

/-- The processor is not touched from outside. -/
structure Undisturbed (m m' : Machine) : Prop where
  reg : m'.reg = m.reg
  pc : m'.pc = m.pc
  dbTrap : m'.dbTrap = m.dbTrap
  arrivals : ∀ commands ∈ m'.arrivals, ∀ command ∈ commands, command.FromGui

theorem synchronizedBy_undisturbed (m : Machine) :
    SynchronizedBy Command.FromGui (Undisturbed m) where
  expected _ h := h.arrivals
  pace _ h := ⟨h.reg, h.pc, h.dbTrap, h.arrivals⟩
  arrive _ h := ⟨h.reg, h.pc, h.dbTrap, fun commands hmem =>
    h.arrivals commands (List.mem_of_mem_tail hmem)⟩
  handle _ command hgui h := by
    cases command <;>
      first
      | exact ⟨h.reg, h.pc, h.dbTrap, h.arrivals⟩
      | exact absurd hgui not_false
  beginReset hgui := absurd hgui not_false
  finishReset hgui := absurd hgui not_false
  reschedule m' h := by
    constructor
    · simpa [reschedule] using h.reg
    · simpa [reschedule] using h.pc
    · simpa [reschedule] using h.dbTrap
    · simpa [reschedule] using h.arrivals

theorem RomKept.undisturbed (h : m.RomKept content) :
    Undisturbed m m.synchronizeTime :=
  (synchronizedBy_undisturbed m).synchronizeTime
    ⟨rfl, rfl, rfl, h.arrivals⟩

theorem RomKept.enterIrq (h : m.RomKept content) (hclear : m.StackClear)
    (selirq : ℕ) : (m.enterIrq selirq).RomKept content := by
  have hreg : (m.getWordCycles m.pc).2.reg16 = m.reg16 :=
    (m.getWordCycles_effect m.pc).reg16_eq
  have hfetched := h.congr (sameRom_getWordCycles m.pc m)
  generalize hm₁ : (m.getWordCycles m.pc).2 = m₁ at hreg hfetched
  have hlow : ROM_END ≤ (m₁.reg16 7 - 4).toNat := by
    rw [hreg]
    exact hclear.1
  have hhigh : ROM_END ≤ (m₁.reg16 7 - 4 + 2).toNat := by
    have hsum : m₁.reg16 7 - 4 + 2 = m₁.reg16 7 - 2 := by bv_omega
    rw [hsum, hreg]
    exact hclear.2
  have hpushed := (hfetched.setWordCycles hhigh m₁.pc)
  simp only [Machine.enterIrq, hm₁]
  generalize m₁.setWordCycles (m₁.reg16 7 - 4 + 2) m₁.pc = m₂ at hpushed
  have hflags := hpushed.setWordCycles hlow (m₂.ccr ++ m₂.ccr)
  generalize m₂.setWordCycles (m₁.reg16 7 - 4) (m₂.ccr ++ m₂.ccr) = m₃
    at hflags
  have hentered : ({ m₃.setReg16 7 (m₁.reg16 7 - 4) with
      ccr := (m₃.setReg16 7 (m₁.reg16 7 - 4)).ccr ||| 0x80 } :
      Machine).RomKept content :=
    hflags.congr ⟨fun _ _ => rfl, rfl, rfl, rfl, rfl, rfl⟩
  exact (hentered.congr (sameRom_getWordCycles _ _)).congr
    ⟨fun _ _ => rfl, rfl, rfl, rfl, rfl, rfl⟩

/-- `check_irq` keeps the ROM when it takes no interrupt with a stack in the
ROM. -/
theorem RomKept.checkIrq (h : m.RomKept content)
    (hclear : m.accepted ≠ none → m.StackClear) :
    m.checkIrq.2.RomKept content := by
  have hrearm : m.rearm.RomKept content :=
    h.congr ⟨fun _ _ => rfl, rfl, rfl, rfl, rfl, rfl⟩
  have hpolled : m.rearm.waitPeripherals.pollIrqs.2.RomKept content :=
    hrearm.waitPeripherals.congr ⟨fun _ _ => rfl, rfl, rfl, rfl, rfl, rfl⟩
  have hreg : m.rearm.waitPeripherals.pollIrqs.2.reg = m.reg :=
    hrearm.undisturbed.reg
  have haccepted : ∀ vector, m.checkIrq.1 = .taken vector → m.StackClear := by
    intro vector htaken
    apply hclear
    simp [accepted, htaken]
  simp only [Machine.checkIrq] at haccepted ⊢
  generalize hm₁ : m.rearm.waitPeripherals.pollIrqs = polled
    at hpolled hreg haccepted ⊢
  obtain ⟨selirq, m₁⟩ := polled
  simp only at hpolled hreg haccepted ⊢
  cases houtcome : m₁.selectIrq selirq with
  | none => exact hpolled
  | reset =>
      apply RomKept.doReset
      exact hpolled.congr ⟨fun _ _ => rfl, rfl, rfl, rfl, rfl, rfl⟩
  | taken vector =>
      have hstack : m₁.StackClear := by
        have hsp : m₁.reg16 7 = m.reg16 7 := by
          simp only [reg16, hreg]
        rw [StackClear, hsp]
        exact haccepted vector houtcome
      exact hpolled.enterIrq hstack vector

end Interrupts

theorem RomKept.stopTime (h : m.RomKept content) :
    m.stopTime.RomKept content := by
  unfold Machine.stopTime
  split_ifs <;> exact h.congr ⟨fun _ _ => rfl, rfl, rfl, rfl, rfl, rfl⟩

theorem RomKept.contTime (h : m.RomKept content) :
    m.contTime.RomKept content := by
  unfold Machine.contTime
  split_ifs <;> exact h.congr ⟨fun _ _ => rfl, rfl, rfl, rfl, rfl, rfl⟩

theorem RomKept.wakeUp (h : m.RomKept content) :
    m.wakeUp.RomKept content := by
  unfold Machine.wakeUp
  split_ifs <;> exact h.congr ⟨fun _ _ => rfl, rfl, rfl, rfl, rfl, rfl⟩

/-- Without a single step under way the labels only set the trap. -/
theorem RomKept.atLabel (h : m.RomKept content) {oldpc : Word}
    (heven : oldpc &&& 1 = 0) (exit : Exit) :
    (m.atLabel oldpc exit).RomKept content := by
  cases exit with
  | trap =>
      have hnot : ¬ m.dbSinglestepPc = oldpc := by
        rw [h.singlestepPc]
        rintro rfl
        exact absurd heven (by decide)
      simp only [Machine.atLabel, if_neg hnot]
      exact h.congr ⟨fun _ _ => rfl, rfl, rfl, rfl, rfl, rfl⟩
  | fault => exact h.congr ⟨fun _ _ => rfl, rfl, rfl, rfl, rfl, rfl⟩
  | illOpc => exact h.congr ⟨fun _ _ => rfl, rfl, rfl, rfl, rfl, rfl⟩

end Machine

namespace Cpu

open Machine

/-- The interrupt that the step takes finds the stack outside the ROM. -/
def StackClearAtIrq (cpu : Cpu) : Prop :=
  cpu.accepted ≠ none → cpu.machine.StackClear

instance (m : Machine) : Decidable m.StackClear :=
  inferInstanceAs (Decidable (_ ∧ _))

instance (cpu : Cpu) : Decidable cpu.StackClearAtIrq :=
  inferInstanceAs (Decidable (_ → _))

/-- The ROM is kept, and instructions start at even addresses. -/
structure RomKept (content : ℕ → Byte) (cpu : Cpu) : Prop where
  machine : cpu.machine.RomKept content
  ready : cpu.phase = .ready → cpu.machine.pc &&& 1 = 0
  stopped : cpu.phase = .stopped → cpu.machine.dbTrap = 0 →
    cpu.machine.pc &&& 1 = 0

namespace RomKept

variable {content : ℕ → Byte} {cpu : Cpu}

theorem of_running {m : Machine} (h : m.RomKept content) {phase : Phase}
    (hready : phase ≠ .ready) (hstopped : phase ≠ .stopped) (oldpc : Word) :
    RomKept content ⟨m, phase, oldpc⟩ :=
  ⟨h, fun hphase => absurd hphase hready, fun hphase => absurd hphase hstopped⟩

theorem stopTime_pc (m : Machine) : m.stopTime.pc = m.pc := by
  unfold Machine.stopTime
  split_ifs <;> rfl

theorem stopTime_dbTrap (m : Machine) : m.stopTime.dbTrap = m.dbTrap := by
  unfold Machine.stopTime
  split_ifs <;> rfl

theorem contTime_pc (m : Machine) : m.contTime.pc = m.pc := by
  unfold Machine.contTime
  split_ifs <;> rfl

theorem halt {m : Machine} (h : m.RomKept content)
    (heven : m.dbTrap = 0 → m.pc &&& 1 = 0) (oldpc : Word) :
    RomKept content (Cpu.halt oldpc m) where
  machine := h.stopTime
  ready hphase := by cases hphase
  stopped _ htrap := by
    have hpc : (Cpu.halt oldpc m).machine.pc = m.pc := stopTime_pc m
    rw [hpc]
    apply heven
    rw [← stopTime_dbTrap m]
    exact htrap

theorem enter (h : cpu.RomKept content) : cpu.enter.RomKept content := by
  by_cases hodd : cpu.machine.pc &&& 1 = 0
  · have hsingle : cpu.machine.dbSinglestep = false := h.machine.singlestep
    simp only [Cpu.enter, hodd, ne_eq, not_true_eq_false, if_false, hsingle,
      Bool.false_eq_true]
    split_ifs
    · exact ⟨h.machine, fun _ => hodd, fun hphase => by cases hphase⟩
    · exact halt h.machine (fun _ => hodd) cpu.oldpc
  · have htrapped : ({ cpu.machine with dbTrap := 10 } :
        Machine).RomKept content :=
      h.machine.congr ⟨fun _ _ => rfl, rfl, rfl, rfl, rfl, rfl⟩
    have hsingle : ¬ cpu.machine.dbSinglestep = true := by
      simp [h.machine.singlestep]
    have henter : cpu.enter =
        Cpu.halt cpu.oldpc { cpu.machine with dbTrap := 10 } := by
      simp only [Cpu.enter]
      rw [if_pos hodd, if_neg hsingle, if_pos (by simp)]
    rw [henter]
    exact halt htrapped (fun hzero => by cases hzero) cpu.oldpc

theorem execute {m : Machine} (h : m.RomKept content)
    (heven : m.pc &&& 1 = 0) : (Cpu.execute m).RomKept content := by
  have hkept : (executeInstruction m).2.RomKept content :=
    (romKept_rule content).keeps_executeInstruction m h
  unfold Cpu.execute
  generalize executeInstruction m = result at hkept ⊢
  obtain ⟨exit | slept, m'⟩ := result
  · apply halt (hkept.atLabel heven exit)
    intro _
    cases exit <;> exact heven
  · cases slept with
    | false => exact of_running hkept (by simp) (by simp) m.pc
    | true =>
        simp only [fallAsleep]
        split_ifs
        · exact of_running hkept.stopTime (by simp) (by simp) m.pc
        · exact of_running hkept (by simp) (by simp) m.pc

theorem dispatch (h : cpu.RomKept content) (hphase : cpu.phase = .ready)
    (hclear : cpu.StackClearAtIrq) : cpu.dispatch.RomKept content := by
  have hsingle : cpu.machine.dbSinglestep = false := h.machine.singlestep
  unfold Cpu.dispatch
  by_cases hdisabled : cpu.machine.irqDisabledOne
  · rw [if_pos hdisabled]
    have hkept : ({ cpu.machine with irqDisabledOne := false } :
        Machine).RomKept content :=
      h.machine.congr ⟨fun _ _ => rfl, rfl, rfl, rfl, rfl, rfl⟩
    exact execute hkept (h.ready hphase)
  · by_cases hdue : cpu.machine.deadline ≤ cpu.machine.cycles
    · simp only [if_neg hdisabled, if_pos hdue, pollIrq, hsingle,
        Bool.false_eq_true, if_false]
      have haccepted : cpu.accepted = cpu.machine.accepted := by
        have hlate : ¬ (cpu.machine.irqDisabledOne = true ∨
            cpu.machine.cycles < cpu.machine.deadline) := by
          rintro (hset | hearly)
          · exact hdisabled hset
          · omega
        simp only [accepted, hphase, if_neg hlate, hsingle,
          Bool.false_eq_true, if_false]
      apply of_running _ (by simp) (by simp) cpu.oldpc
      apply h.machine.checkIrq
      rw [← haccepted]
      exact hclear
    · rw [if_neg hdisabled, if_neg hdue]
      exact execute h.machine (h.ready hphase)

/-- A pass of `cpu_sleep`, for the two ways to skip time. -/
theorem doze (h : cpu.RomKept content) {skip leave : Machine → Machine}
    (hskip : SameRom cpu.machine (skip cpu.machine))
    (hleave : ∀ m : Machine, m.RomKept content → (leave m).RomKept content)
    (hclear : cpu.machine.dbTrap = 0 → (skip cpu.machine).accepted ≠ none →
      (skip cpu.machine).StackClear)
    (hready : cpu.phase ≠ .ready) (hstopped : cpu.phase ≠ .stopped) :
    (cpu.doze skip leave).RomKept content := by
  unfold Cpu.doze
  by_cases htrap : cpu.machine.dbTrap = 0
  · have hirq := (h.machine.congr hskip).checkIrq (hclear htrap)
    simp only [htrap, ne_eq, not_true_eq_false, if_false]
    split_ifs
    · exact of_running hirq hready hstopped cpu.oldpc
    · exact of_running (hleave _ hirq).wakeUp (by simp) (by simp) cpu.oldpc
  · have hback : ({ cpu.machine with pc := cpu.machine.pc - 2 } :
        Machine).RomKept content :=
      h.machine.congr ⟨fun _ _ => rfl, rfl, rfl, rfl, rfl, rfl⟩
    simp only [ne_eq, htrap, not_false_eq_true, if_true]
    exact of_running (hleave _ hback).wakeUp (by simp) (by simp) cpu.oldpc

theorem step (h : cpu.RomKept content) (hclear : cpu.StackClearAtIrq) :
    cpu.step.RomKept content := by
  cases hphase : cpu.phase with
  | top =>
      simp only [Cpu.step, hphase]
      exact h.enter
  | stopped =>
      simp only [Cpu.step, hphase]
      split_ifs with htrap
      · exact ⟨h.machine.contTime,
          fun _ => (contTime_pc _).symm ▸ h.stopped hphase htrap,
          fun hother => by cases hother⟩
      · have hsame := h.machine.undisturbed
        refine ⟨(synchronizedBy_romKept content).synchronizeTime h.machine,
          fun hother => ?_, fun _ hzero => ?_⟩
        · cases hother
        · exact absurd (hsame.dbTrap.symm.trans hzero) htrap
  | ready =>
      simp only [Cpu.step, hphase]
      exact h.dispatch hphase hclear
  | asleep =>
      simp only [Cpu.step, hphase]
      apply h.doze ⟨fun _ _ => rfl, rfl, rfl, rfl, rfl, rfl⟩ fun _ hm => hm
      · intro htrap htaken
        apply hclear
        simpa only [accepted, hphase, if_pos htrap] using htaken
      · simp [hphase]
      · simp [hphase]
  | standby =>
      simp only [Cpu.step, hphase]
      apply h.doze (SameRom.refl _) fun _ hm => hm.contTime
      · intro htrap htaken
        apply hclear
        simpa only [accepted, hphase, if_pos htrap, id] using htaken
      · simp [hphase]
      · simp [hphase]

theorem start {m : Machine} (h : m.RomKept content) :
    (Cpu.start m).RomKept content := by
  have hfresh : ({ m with dbSinglestepPc := 0xffff } :
      Machine).RomKept content :=
    h.congr ⟨fun _ _ => rfl, rfl, rfl, rfl, h.singlestepPc.symm, rfl⟩
  exact of_running hfresh.doReset (by simp) (by simp) m.pc

theorem run {m : Machine} (h : m.RomKept content) (n : ℕ)
    (hclear : ∀ k < n, (Cpu.run m k).StackClearAtIrq) :
    (Cpu.run m n).RomKept content := by
  induction n with
  | zero => exact start h
  | succ n ih =>
      rw [run_succ]
      apply (ih fun k hk => hclear k (by omega)).step
      exact hclear n (by omega)

end RomKept

end Cpu

namespace Machine

theorem romKept_powerOn (rom : ℕ → Option Byte) (input : List (Option Byte))
    {arrivals : List (List Command)} (hostTimes : List (BitVec 64))
    (hgui : ∀ commands ∈ arrivals, ∀ command ∈ commands, command.FromGui) :
    (powerOn rom input arrivals hostTimes).RomKept
      (powerOn rom input arrivals hostTimes).memory where
  memory _ _ := rfl
  memtype addr haddr := by
    have htype : (powerOn rom input arrivals hostTimes).memtype addr =
        MEMTYPE_FAST ||| MEMTYPE_WRITETRAP := if_pos haddr
    rw [htype]
    decide
  rom addr _ val hval := by
    have hread : rom addr = some val := hval
    simp [powerOn, hread]
  singlestep := rfl
  singlestepPc := rfl
  arrivals := hgui

end Machine

namespace Cpu

/-- The ROM of a run in which every interrupt finds the stack outside it. -/
theorem rom_immutable (rom : ℕ → Option Byte) (input : List (Option Byte))
    (arrivals : List (List Command)) (hostTimes : List (BitVec 64))
    (hgui : ∀ commands ∈ arrivals, ∀ command ∈ commands, command.FromGui)
    (n : ℕ)
    (hclear : ∀ k < n, (run (Machine.powerOn rom input arrivals hostTimes)
      k).StackClearAtIrq) :
    ∀ addr < ROM_END,
      (run (Machine.powerOn rom input arrivals hostTimes)
        n).machine.memory addr =
      (Machine.powerOn rom input arrivals hostTimes).memory addr := by
  have hstart := Machine.romKept_powerOn rom input hostTimes hgui
  exact (RomKept.run hstart n hclear).machine.memory

/-- The guest sets the stack pointer and enables the run button's
interrupt. -/
def stackAt (sp : Word) : ℕ → Option Byte := fun addr =>
  ([0x00, 0x10, 0, 0, 0, 0, 0, 0, 0xfd, 0xbc, 0, 0, 0, 0, 0, 0,
    0xf8, 0x01, 0x38, 0xc7, 0x79, 0x07, sp.extractLsb' 8 8,
    sp.extractLsb' 0 8, 0x30, 0x96, 0x06, 0x7f, 0x00, 0x00, 0x40,
    0xfc] : List Byte)[addr]?

theorem rom_immutable_stackAt :
    (run (Machine.powerOn (stackAt 0xff7e) [] [[.button .run true]] [])
      15).accepted = some 4 ∧
    ∀ addr < ROM_END,
      (run (Machine.powerOn (stackAt 0xff7e) [] [[.button .run true]] [])
        20).machine.memory addr =
      (Machine.powerOn (stackAt 0xff7e) [] [[.button .run true]]
        []).memory addr := by
  refine ⟨by decide +kernel, rom_immutable _ _ _ _ ?_ 20 ?_⟩
  · intro commands hcommands command hcommand
    rw [List.mem_singleton] at hcommands
    subst hcommands
    rw [List.mem_singleton] at hcommand
    subst hcommand
    trivial
  · decide +kernel

/-- The interrupt entry pushes the return address into the ROM. -/
theorem irq_overwrites_rom :
    ¬ ∀ n, ∀ addr < ROM_END,
      (run (Machine.powerOn (stackAt 0x2000) [] [[.button .run true]] [])
        n).machine.memory addr =
      (Machine.powerOn (stackAt 0x2000) [] [[.button .run true]]
        []).memory addr := by
  intro himmutable
  exact absurd (himmutable 16 0x1fff (by decide)) (by decide +kernel)

end Cpu

end BrickEmu
