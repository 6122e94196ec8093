import BrickEmu.InterruptSelection
import BrickEmu.Timer8Ticks

/-!
# What memory accesses touch

A read of a register may change the registers of the peripherals, the
deadlines and the memory copy of the register, nothing else.  A write outside
the register area changes memory and perhaps the motors.  The deadline
computations never change the cycle counter.
-/

namespace BrickEmu

@[simp] theorem serCheckNextCycle_cycles (serial : Serial) (clock : Clock) :
    (serCheckNextCycle serial clock).cycles = clock.cycles := by
  simp only [serCheckNextCycle]
  split_ifs <;> rfl

@[simp] theorem t16CheckNextCycle_cycles (timer : Timer16) (clock : Clock) :
    (t16CheckNextCycle timer clock).cycles = clock.cycles := by
  simp only [t16CheckNextCycle]
  split_ifs <;> rfl

@[simp] theorem adCheckNextCycle_cycles (ad : AdSensors) (clock : Clock) :
    (adCheckNextCycle ad clock).cycles = clock.cycles := by
  simp only [adCheckNextCycle]
  split_ifs <;> rfl

@[simp] theorem btnCheckNextCycle_cycles (buttons : Buttons) (clock : Clock) :
    (btnCheckNextCycle buttons clock).cycles = clock.cycles := by
  unfold btnCheckNextCycle
  split_ifs <;> rfl

@[simp] theorem wdogCheckNextCycle_cycles (wdog : Watchdog) (clock : Clock) :
    (wdogCheckNextCycle wdog clock).cycles = clock.cycles := by
  unfold wdogCheckNextCycle
  split_ifs <;> rfl

@[simp] theorem t8Force1_cycles (timer : Timer8) (clock : Clock) :
    (t8Force1 clock timer).2.cycles = clock.cycles := by
  simp only [t8Force1, t8UpdateTime, t8CheckNextCycle_cycles]

theorem t8Read_cycles (clock : Clock) (timer : Timer8)
    (register : T8Register) :
    (t8Read clock timer register).2.2.cycles = clock.cycles := by
  cases register <;> simp [t8Read]

namespace Machine

/-- What a read may change. -/
def ReadEffect (m m' : Machine) : Prop :=
  ∃ memory dbTrap nextTimer nextNmi serial t16 t8 ad wdog,
    m' = { m with
      memory := memory
      dbTrap := dbTrap
      clock := ⟨m.clock.cycles, nextTimer, nextNmi⟩
      serial := serial
      t16 := t16
      t8 := t8
      ad := ad
      wdog := wdog }

namespace ReadEffect

variable {m m' m'' : Machine}

theorem refl (m : Machine) : ReadEffect m m :=
  ⟨m.memory, m.dbTrap, m.clock.nextTimerCycle, m.clock.nextNmiCycle,
    m.serial, m.t16, m.t8, m.ad, m.wdog, rfl⟩

theorem trans (h : ReadEffect m m') (h' : ReadEffect m' m'') :
    ReadEffect m m'' := by
  obtain ⟨_, _, _, _, _, _, _, _, _, rfl⟩ := h
  obtain ⟨memory, dbTrap, timer, nmi, serial, t16, t8, ad, wdog, rfl⟩ := h'
  exact ⟨memory, dbTrap, timer, nmi, serial, t16, t8, ad, wdog, rfl⟩

theorem cycles_eq (h : ReadEffect m m') : m'.cycles = m.cycles := by
  obtain ⟨_, _, _, _, _, _, _, _, _, rfl⟩ := h
  rfl

end ReadEffect

/-- What reads, time and writes outside the register area may change. -/
def AccessEffect (m m' : Machine) : Prop :=
  ∃ memory dbTrap clock serial t16 t8 ad wdog motor,
    m' = { m with
      memory := memory
      dbTrap := dbTrap
      clock := clock
      serial := serial
      t16 := t16
      t8 := t8
      ad := ad
      wdog := wdog
      motor := motor }

theorem ReadEffect.access {m m' : Machine} (h : ReadEffect m m') :
    AccessEffect m m' := by
  obtain ⟨memory, dbTrap, timer, nmi, serial, t16, t8, ad, wdog, rfl⟩ := h
  exact ⟨memory, dbTrap, ⟨m.clock.cycles, timer, nmi⟩, serial, t16, t8, ad,
    wdog, m.motor, rfl⟩

namespace AccessEffect

variable {m m' m'' : Machine}

theorem trans (h : AccessEffect m m') (h' : AccessEffect m' m'') :
    AccessEffect m m'' := by
  obtain ⟨_, _, _, _, _, _, _, _, _, rfl⟩ := h
  obtain ⟨memory, dbTrap, clock, serial, t16, t8, ad, wdog, motor, rfl⟩ := h'
  exact ⟨memory, dbTrap, clock, serial, t16, t8, ad, wdog, motor, rfl⟩

theorem reg_eq (h : AccessEffect m m') : m'.reg = m.reg := by
  obtain ⟨_, _, _, _, _, _, _, _, _, rfl⟩ := h
  rfl

theorem reg16_eq (h : AccessEffect m m') : m'.reg16 = m.reg16 := by
  unfold reg16
  rw [h.reg_eq]

theorem pc_eq (h : AccessEffect m m') : m'.pc = m.pc := by
  obtain ⟨_, _, _, _, _, _, _, _, _, rfl⟩ := h
  rfl

theorem ccr_eq (h : AccessEffect m m') : m'.ccr = m.ccr := by
  obtain ⟨_, _, _, _, _, _, _, _, _, rfl⟩ := h
  rfl

theorem memtype_eq (h : AccessEffect m m') : m'.memtype = m.memtype := by
  obtain ⟨_, _, _, _, _, _, _, _, _, rfl⟩ := h
  rfl

theorem isDiv_eq (h : AccessEffect m m') (addr : ℕ) :
    m'.isDiv addr = m.isDiv addr := by
  unfold isDiv
  rw [h.memtype_eq]

theorem buttons_eq (h : AccessEffect m m') : m'.buttons = m.buttons := by
  obtain ⟨_, _, _, _, _, _, _, _, _, rfl⟩ := h
  rfl

end AccessEffect

/-- `set_port6` changes the display, and it may wait, send a line and set the
sensors. -/
theorem setPort6_induction {P : Machine → Prop} {m : Machine}
    (hlcd : ∀ lcd, P { m with lcd := lcd })
    (hwait : ∀ m', P m' → P m'.waitPeripherals)
    (hout : ∀ m' out, P m' → P { m' with guiOutput := out })
    (hmotor : ∀ m' motor, P m' → P { m' with motor := motor }) (val : Byte) :
    P (m.setPort6 val) := by
  unfold setPort6
  split_ifs
  · exact hlcd _
  · dsimp only
    split_ifs
    · apply hmotor
      split
      · exact hout _ _ (hwait _ (hlcd _))
      · exact hlcd _
    · split
      · exact hout _ _ (hwait _ (hlcd _))
      · exact hlcd _

theorem addCycles_effect (m : Machine) (n : ℕ) :
    AccessEffect m (m.addCycles n) :=
  ⟨_, _, _, _, _, _, _, _, _, rfl⟩

theorem portGet_effect {m m' : Machine} {port : Port} {val : Byte}
    (hget : m.portGet port = some (val, m')) : ReadEffect m m' := by
  cases port with
  | t16 register =>
      obtain ⟨-, rfl⟩ := Prod.mk.inj (Option.some.inj hget)
      exact ⟨_, _, _, _, _, _, _, _, _, rfl⟩
  | t8 register =>
      obtain ⟨-, rfl⟩ := Prod.mk.inj (Option.some.inj hget)
      refine ⟨m.memory, m.dbTrap, (t8Read m.clock m.t8 register).2.2.2,
        (t8Read m.clock m.t8 register).2.2.3, m.serial, m.t16,
        (t8Read m.clock m.t8 register).2.1, m.ad, m.wdog, ?_⟩
      rw [← t8Read_cycles m.clock m.t8 register]
  | serial register =>
      cases register <;>
        obtain ⟨-, rfl⟩ := Prod.mk.inj (Option.some.inj hget) <;>
        exact ⟨_, _, _, _, _, _, _, _, _, rfl⟩
  | port6 => cases hget
  | wdogControl | adcsr | addrh channel =>
      obtain ⟨-, rfl⟩ := Prod.mk.inj (Option.some.inj hget)
      exact ⟨_, _, _, _, _, _, _, _, _, rfl⟩
  | _ =>
      obtain ⟨-, rfl⟩ := Prod.mk.inj (Option.some.inj hget)
      exact ReadEffect.refl _

theorem poke_effect (m : Machine) (addr : ℕ) (val : Byte) :
    ReadEffect m (m.poke addr val) :=
  ⟨_, _, _, _, _, _, _, _, _, rfl⟩

theorem illegalAccess_effect (m : Machine) :
    ReadEffect m m.illegalAccess :=
  ⟨_, _, _, _, _, _, _, _, _, rfl⟩

theorem refresh_effect (addr : ℕ) (m : Machine) :
    ReadEffect m (m.refresh addr) := by
  unfold refresh
  split
  · split
    · next hget => exact (portGet_effect hget).trans (poke_effect _ addr _)
    · exact ReadEffect.refl m
  · exact ReadEffect.refl m

theorem getByte_effect (addr : Word) (m : Machine) :
    ReadEffect m (m.getByte addr).2 := by
  unfold getByte getByteDiv
  split_ifs
  · exact m.refresh_effect addr.toNat
  · exact m.illegalAccess_effect
  · exact ReadEffect.refl m

theorem getWordDiv_effect (addr : Word) (m : Machine) :
    ReadEffect m (m.getWordDiv addr).2 := by
  simp only [getWordDiv]
  split_ifs
  · exact m.illegalAccess_effect
  · exact (m.refresh_effect addr.toNat).trans (refresh_effect _ _)
  · exact m.illegalAccess_effect

theorem getWord_effect (addr : Word) (m : Machine) :
    ReadEffect m (m.getWord addr).2 := by
  unfold getWord
  split_ifs
  · exact ReadEffect.refl m
  · exact m.getWordDiv_effect addr

theorem getByteCycles_effect (addr : Word) (m : Machine) :
    AccessEffect m (m.getByteCycles addr).2 :=
  (m.addCycles_effect _).trans (getByte_effect addr _).access

theorem getWordCycles_effect (addr : Word) (m : Machine) :
    AccessEffect m (m.getWordCycles addr).2 :=
  (m.addCycles_effect _).trans (getWord_effect addr _).access

/-- A word written outside the register area. -/
theorem setWord_effect {m : Machine} {addr : Word}
    (hplain : m.isDiv addr.toNat = false) (val : Word) :
    AccessEffect m (m.setWord addr val) := by
  have hdiv : ¬m.memtype addr.toNat &&& MEMTYPE_DIV ≠ 0 := by
    simpa [isDiv] using hplain
  simp only [setWord]
  by_cases hmotor : m.memtype addr.toNat &&& MEMTYPE_MOTOR ≠ 0
  · rw [if_pos hmotor]
    exact ⟨_, _, _, _, _, _, _, _, _, rfl⟩
  · rw [if_neg hmotor, if_neg hdiv]
    exact ⟨_, _, _, _, _, _, _, _, _, rfl⟩

theorem setWordCycles_effect {m : Machine} {addr : Word}
    (hplain : m.isDiv addr.toNat = false) (val : Word) :
    AccessEffect m (m.setWordCycles addr val) := by
  have hspend := m.addCycles_effect (m.wordCycles addr)
  exact hspend.trans
    (setWord_effect ((hspend.isDiv_eq addr.toNat).trans hplain) val)

end Machine

end BrickEmu
