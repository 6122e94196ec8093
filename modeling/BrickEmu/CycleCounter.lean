import BrickEmu.InstructionRule
import BrickEmu.InterruptShadow
import BrickEmu.Pacing
import BrickEmu.Timer16Ticks

/-!
# The cycle counter and the counters behind it

The cycle counter is counted up, and assigned where the processor sleeps and
where the watchdog resets it.  The counters of `synchronize_time` and of the
16-bit timer follow it.  Everything but the two assignments takes few cycles,
so the 16-bit timer, whose elapsed time is an `int`, is counted in time.
-/

namespace BrickEmu

section Clocks

theorem t16Store_cycles (val : Byte) (clock : Clock) (timer : Timer16)
    (register : T16Register) :
    (t16Store val clock timer register).2.cycles = clock.cycles := by
  cases register <;>
    simp [t16Store, setTIER, setTCSR]

theorem t16Store_myLastCycles (val : Byte) (clock : Clock) (timer : Timer16)
    (register : T16Register) :
    (t16Store val clock timer register).1.myLastCycles =
      timer.myLastCycles := by
  cases register <;>
    simp only [t16Store, setTIER, setTCSR, setFRCH, setFRCL, setOCRH, setOCRL,
      storeTCR, setTOCR]
  split_ifs <;> rfl

theorem t16Read_myLastCycles (timer : Timer16) (register : T16Register) :
    (t16Read timer register).2.myLastCycles = timer.myLastCycles := by
  cases register <;> rfl

theorem setVal_cycles (val : Byte) (clock : Clock) (wdog : Watchdog) :
    (setVal val clock wdog).2.cycles = clock.cycles := by
  simp only [setVal]
  split_ifs
  · rw [wdogCheckNextCycle_cycles, Machine.wdogUpdateTime_cycles]
  · rw [wdogCheckNextCycle_cycles, Machine.wdogUpdateTime_cycles]
  · rfl

theorem wdogCheckIrq_cycles (clock : Clock) (wdog : Watchdog) :
    (wdogCheckIrq clock wdog).2.2.cycles = clock.cycles := by
  simp only [wdogCheckIrq]
  split_ifs <;> rfl

theorem t8Write_cycles (val : Byte) (clock : Clock) (timer : Timer8)
    (register : T8Register) :
    (t8Write val clock timer register).2.cycles = clock.cycles := by
  have hset0 : ∀ change, (t8Set0 change clock timer).2.cycles =
      clock.cycles := by
    intro change
    simp only [t8Set0, t8CheckNextCycle_cycles, t8Force0_cycles]
  have hset1 : ∀ change, (t8Set1 change clock timer).2.cycles =
      clock.cycles := by
    intro change
    simp only [t8Set1, t8CheckNextCycle_cycles, t8Force1_cycles]
  cases register with
  | TCR0 =>
      simp only [t8Write, setTCR0, t8CheckNextCycle_cycles, t8Force0_cycles]
  | TCR1 =>
      simp only [t8Write, setTCR1, t8CheckNextCycle_cycles, t8Force1_cycles]
  | TCSR0 | TCORA0 | TCORB0 | TCNT0 => exact hset0 _
  | TCSR1 | TCORA1 | TCORB1 | TCNT1 => exact hset1 _
  | STCR =>
      simp only [t8Write, setSTCR]
      split_ifs
      · rfl
      · simp only [t8CheckNextCycle_cycles, t8Force0_cycles]

end Clocks

namespace Machine

/-- The counters do not run ahead of the time, and the 16-bit timer will not
be late for the given number of cycles. -/
structure Timed (spare : ℕ) (m : Machine) : Prop where
  synchronized : m.lastcycles ≤ m.cycles
  timer : m.t16.myLastCycles ≤ m.cycles
  room : m.cycles + spare < m.t16.myLastCycles + 2 ^ 31
  underflow : m.underflow = false

/-- Time goes on, and the counters follow where the timer has as many cycles
left as this may take. -/
structure Advances (n : ℕ) (m m' : Machine) : Prop where
  cycles : m.cycles ≤ m'.cycles
  timed : ∀ spare, m.Timed (n + spare) → m'.Timed spare

theorem Timed.mono {spare spare' : ℕ} {m : Machine} (h : m.Timed spare)
    (hle : spare' ≤ spare) : m.Timed spare' :=
  { h with room := lt_of_le_of_lt (Nat.add_le_add_left hle _) h.room }

namespace Advances

variable {n n' : ℕ} {m m' m'' : Machine}

theorem mono (h : Advances n m m') (hle : n ≤ n') : Advances n' m m' where
  cycles := h.cycles
  timed spare htimed := h.timed spare (htimed.mono (by omega))

theorem trans (h : Advances n m m') (h' : Advances n' m' m'') :
    Advances (n + n') m m'' where
  cycles := h.cycles.trans h'.cycles
  timed spare htimed :=
    h'.timed spare (h.timed (n' + spare) (htimed.mono (by omega)))

/-- The counters stay as they are. -/
theorem of_same (hcycles : m.cycles ≤ m'.cycles)
    (hcost : m'.cycles ≤ m.cycles + n) (hlast : m'.lastcycles = m.lastcycles)
    (htimer : m'.t16.myLastCycles = m.t16.myLastCycles)
    (hunderflow : m'.underflow = m.underflow) : Advances n m m' where
  cycles := hcycles
  timed spare htimed :=
    { synchronized := hlast ▸ htimed.synchronized.trans hcycles
      timer := htimer ▸ htimed.timer.trans hcycles
      room := by
        have hroom := htimed.room
        rw [htimer]
        omega
      underflow := hunderflow ▸ htimed.underflow }

/-- Nothing happens to the time at all. -/
theorem of_still (hcycles : m'.cycles = m.cycles)
    (hlast : m'.lastcycles = m.lastcycles) (htimer : m'.t16 = m.t16)
    (hunderflow : m'.underflow = m.underflow) : Advances n m m' :=
  of_same hcycles.ge (hcycles.le.trans (Nat.le_add_right _ _)) hlast
    (congrArg Timer16.myLastCycles htimer) hunderflow

theorem refl (m : Machine) : Advances n m m :=
  of_still rfl rfl rfl rfl

theorem of_read (h : ReadEffect m m')
    (htimer : m'.t16.myLastCycles = m.t16.myLastCycles) : Advances n m m' := by
  have hcycles := h.cycles_eq
  obtain ⟨_, _, _, _, _, _, _, _, _, rfl⟩ := h
  exact of_same hcycles.ge (hcycles.le.trans (Nat.le_add_right _ _)) rfl
    htimer rfl

/-- What follows changes nothing that counts. -/
theorem still (h : Advances n m m') (hcycles : m''.cycles = m'.cycles)
    (hlast : m''.lastcycles = m'.lastcycles) (htimer : m''.t16 = m'.t16)
    (hunderflow : m''.underflow = m'.underflow) : Advances n m m'' :=
  h.trans (of_still (n := 0) hcycles hlast htimer hunderflow)

end Advances

section Accesses

theorem advances_addCycles (n : ℕ) (m : Machine) :
    Advances n m (m.addCycles n) :=
  Advances.of_same (Nat.le_add_right m.cycles n) le_rfl rfl rfl rfl

theorem advances_poke (addr : ℕ) (val : Byte) (m : Machine) :
    Advances 0 m (m.poke addr val) :=
  Advances.of_still rfl rfl rfl rfl

theorem byteCycles_le (addr : Word) (m : Machine) :
    m.byteCycles addr ≤ 3 := by
  have hfast : ∀ type : Byte,
      2 + ((~~~type &&& MEMTYPE_FAST) >>> 6).toNat ≤ 3 := by decide +kernel
  exact hfast _

theorem wordCycles_le (addr : Word) (m : Machine) :
    m.wordCycles addr ≤ 6 := by
  have hfast : ∀ type : Byte,
      2 + ((~~~type &&& MEMTYPE_FAST) >>> 4).toNat ≤ 6 := by decide +kernel
  exact hfast _

theorem portGet_myLastCycles {m m' : Machine} {port : Port} {val : Byte}
    (hget : m.portGet port = some (val, m')) :
    m'.t16.myLastCycles = m.t16.myLastCycles := by
  cases port with
  | t16 register =>
      obtain ⟨-, rfl⟩ := Prod.mk.inj (Option.some.inj hget)
      exact t16Read_myLastCycles m.t16 register
  | serial register =>
      cases register <;>
        obtain ⟨-, rfl⟩ := Prod.mk.inj (Option.some.inj hget) <;>
        rfl
  | port6 => cases hget
  | _ =>
      obtain ⟨-, rfl⟩ := Prod.mk.inj (Option.some.inj hget)
      rfl

theorem advances_refresh (addr : ℕ) (m : Machine) :
    Advances 0 m (m.refresh addr) := by
  unfold refresh
  split
  · split
    · next val m' hget =>
        have hread : Advances 0 m m' :=
          Advances.of_read (portGet_effect hget) (portGet_myLastCycles hget)
        exact hread.trans (advances_poke addr val m')
    · exact Advances.refl m
  · exact Advances.refl m

theorem advances_illegalAccess (m : Machine) :
    Advances 0 m m.illegalAccess :=
  Advances.of_still rfl rfl rfl rfl

theorem advances_getByte (addr : Word) (m : Machine) :
    Advances 0 m (m.getByte addr).2 := by
  unfold getByte getByteDiv
  split_ifs
  · exact advances_refresh addr.toNat m
  · exact advances_illegalAccess m
  · exact Advances.refl m

theorem advances_getWord (addr : Word) (m : Machine) :
    Advances 0 m (m.getWord addr).2 := by
  unfold getWord getWordDiv
  split_ifs
  · exact Advances.refl m
  · exact advances_illegalAccess m
  · exact (advances_refresh addr.toNat m).trans (advances_refresh _ _)
  · exact advances_illegalAccess m

theorem advances_getByteCycles (addr : Word) (m : Machine) :
    Advances 3 m (m.getByteCycles addr).2 :=
  ((advances_addCycles _ m).trans (advances_getByte addr _)).mono
    (byteCycles_le addr m)

theorem advances_getWordCycles (addr : Word) (m : Machine) :
    Advances 6 m (m.getWordCycles addr).2 :=
  ((advances_addCycles _ m).trans (advances_getWord addr _)).mono
    (wordCycles_le addr m)

end Accesses

section Peripherals

/-- `synchronize_time` moves its counter up to the time at most. -/
theorem advances_pace (m : Machine) : Advances 0 m m.pace where
  cycles := le_rfl
  timed spare htimed := by
    have hbehind := htimed.synchronized
    have hpaced : m.pace.lastcycles =
        m.lastcycles + (m.cycles - m.lastcycles) / 16 * 16 := by
      simp only [pace, uint64_sub_of_le hbehind]
    have hroom := htimed.room
    refine ⟨?_, htimed.timer, ?_, ?_⟩
    · have hwhole := Nat.div_mul_le_self (m.cycles - m.lastcycles) 16
      show m.pace.lastcycles ≤ m.cycles
      omega
    · show m.cycles + spare < m.t16.myLastCycles + 2 ^ 31
      omega
    · have hlate : ¬ m.cycles < m.lastcycles := by omega
      simp [pace, htimed.underflow, hlate]

theorem updateT16_cycles (m : Machine) : m.updateT16.cycles = m.cycles := by
  simp only [updateT16, Machine.cycles, t16UpdateTime,
    t16CheckNextCycle_cycles]

/-- An update leaves the timer less than one tick behind. -/
theorem Timed.updateT16 {spare spare' : ℕ} {m : Machine}
    (h : m.Timed spare) (hspare : spare' + 32 ≤ 2 ^ 31) :
    m.updateT16.Timed spare' := by
  have hsoon : m.cycles < m.t16.myLastCycles + 2 ^ 31 :=
    lt_of_le_of_lt (Nat.le_add_right _ _) h.room
  have hcounted : m.updateT16.t16.myLastCycles =
      (m.t16.catchUp m.cycles).myLastCycles :=
    congrArg Timer16.myLastCycles (t16Count_eq_catchUp h.timer hsoon)
  have htick := Timer16.lt_catchUp_last h.timer
  have hpow : 2 ^ Timer16.freq m.t16.tcr ≤ 2 ^ 5 :=
    Nat.pow_le_pow_right (by omega) (Timer16.freq_pos_le m.t16.tcr).2
  have hearly : ¬ m.cycles < m.t16.myLastCycles := Nat.not_lt.mpr h.timer
  refine ⟨?_, ?_, ?_, ?_⟩
  · rw [updateT16_cycles]
    exact h.synchronized
  · rw [updateT16_cycles, hcounted]
    exact Timer16.catchUp_last_le h.timer
  · rw [updateT16_cycles, hcounted]
    omega
  · simp [Machine.updateT16, h.underflow, hearly]

theorem Timed.updateTimes {spare spare' : ℕ} {m : Machine}
    (h : m.Timed spare) (hspare : spare' + 32 ≤ 2 ^ 31) :
    m.updateTimes.Timed spare' := by
  obtain ⟨received, hreceived⟩ : ∃ received : Machine, received =
      { m with
        serial := (serUpdateTime m.clock m.serial).1
        clock := (serUpdateTime m.clock m.serial).2 } := ⟨_, rfl⟩
  have hcycles : received.cycles = m.cycles := by
    rw [hreceived]
    simp only [Machine.cycles, serUpdateTime, serCheckNextCycle_cycles]
  have hfirst : Advances 0 m received := by
    apply Advances.of_still hcycles <;> rw [hreceived]
  have hrest : Advances 0 received.updateT16 m.updateTimes := by
    apply Advances.of_still
    · rw [updateTimes_cycles, updateT16_cycles, hcycles]
    all_goals
      rw [hreceived]
      rfl
  have hsoon := hfirst.timed spare (h.mono (by omega))
  exact hrest.timed spare' (hsoon.updateT16 (by omega))

/-- A reset of the peripherals counts the timer from the present. -/
theorem Timed.resetPeripherals {spare spare' : ℕ} {m : Machine}
    (h : m.Timed spare) (hspare : spare' < 2 ^ 31) :
    m.resetPeripherals.Timed spare' where
  synchronized := h.synchronized
  timer := le_rfl
  room := Nat.add_lt_add_left hspare _
  underflow := h.underflow

theorem Timed.spare_lt {spare : ℕ} {m : Machine} (h : m.Timed spare) :
    spare < 2 ^ 31 := by
  have hroom := h.room
  have hbehind := h.timer
  omega

theorem advances_resetPeripherals (m : Machine) :
    Advances 0 m m.resetPeripherals where
  cycles := le_rfl
  timed spare htimed :=
    htimed.resetPeripherals (by simpa using htimed.spare_lt)

theorem advances_beginReset (m : Machine) : Advances 0 m m.beginReset := by
  have hmasked : Advances 0 m { m with irqDisabledOne := true, ccr := 0x80 } :=
    Advances.of_still rfl rfl rfl rfl
  exact (hmasked.trans (advances_resetPeripherals _)).still rfl rfl rfl rfl

theorem advances_finishReset (m : Machine) : Advances 7 m m.finishReset := by
  have hrun : Advances 1 m { m.addCycles 1 with dbTrap := 0 } :=
    (advances_addCycles 1 m).still rfl rfl rfl rfl
  exact (hrun.trans (advances_getWordCycles 0 _)).still rfl rfl rfl rfl

theorem advances_handleCommand (m : Machine) (command : Command) :
    Advances 0 m (m.handleCommand command) := by
  have hpacing := pacing_handleCommand 0 m command
  have hcycles : (m.handleCommand command).cycles = m.cycles :=
    congrArg Pacing.cycles hpacing
  have hlast : (m.handleCommand command).lastcycles = m.lastcycles :=
    congrArg Pacing.lastcycles hpacing
  apply Advances.of_still hcycles hlast
  all_goals
    cases command with
    | poke addr val | setTrap addr kind | clearTrap addr kind =>
        simp only [handleCommand, debuggerWrite]
        split_ifs <;> rfl
    | _ => rfl

/-- The reset at the end of an update is paid by the update. -/
theorem Advances.restart {m m' : Machine} (h : Advances 39 m m') :
    Advances 39 m m'.updateTimes.finishReset where
  cycles := by
    have hdone := (advances_finishReset m'.updateTimes).cycles
    rw [updateTimes_cycles] at hdone
    exact h.cycles.trans hdone
  timed spare htimed := by
    have hlimit := htimed.spare_lt
    have hupdated : m'.updateTimes.Timed (7 + spare) :=
      (h.timed spare htimed).updateTimes (by omega)
    exact (advances_finishReset _).timed spare hupdated

theorem synchronized_advances (m₀ : Machine) :
    Synchronized (Advances 39 m₀) where
  pace m h := h.trans (advances_pace m)
  arrive _ h := h.still rfl rfl rfl rfl
  handle m command h := h.trans (advances_handleCommand m command)
  beginReset m h := h.trans (advances_beginReset m)
  finishReset m h := h.restart.still rfl rfl rfl rfl
  reschedule m h := by
    apply h.still <;> simp only [reschedule, Machine.cycles]

theorem advances_synchronizeTime (m : Machine) :
    Advances 39 m m.synchronizeTime :=
  (synchronized_advances m).synchronizeTime (Advances.refl m)

/-- Waiting for the peripherals makes up for what has been taken before. -/
theorem Advances.waitPeripherals {m m' : Machine} (h : Advances 39 m m') :
    Advances 39 m m'.waitPeripherals where
  cycles := by
    have hsynchronized := (advances_synchronizeTime m').cycles
    unfold Machine.waitPeripherals
    rw [updateTimes_cycles]
    exact h.cycles.trans hsynchronized
  timed spare htimed := by
    have hlimit := htimed.spare_lt
    have hbehind := (synchronized_advances m).synchronizeTime (m := m') h
    exact (hbehind.timed spare htimed).updateTimes (by omega)

theorem advances_waitPeripherals (m : Machine) :
    Advances 39 m m.waitPeripherals :=
  (Advances.refl m).waitPeripherals

theorem advances_doReset (m : Machine) : Advances 46 m m.doReset :=
  ((advances_beginReset m).trans (advances_waitPeripherals _)).trans
    (advances_finishReset _)

end Peripherals

section Stores

theorem advances_setT16 (register : T16Register) (val : Byte) (m : Machine) :
    Advances 39 m (m.setT16 register val) := by
  have hstored : ∀ m : Machine, Advances 0 m
      { m with
        t16 := (t16Store val m.clock m.t16 register).1
        clock := (t16Store val m.clock m.t16 register).2 } := by
    intro m
    have hcycles := t16Store_cycles val m.clock m.t16 register
    exact Advances.of_same hcycles.ge hcycles.le rfl
      (t16Store_myLastCycles val m.clock m.t16 register) rfl
  unfold setT16
  split_ifs
  · exact (advances_waitPeripherals m).trans (hstored _)
  · exact (hstored m).mono (by omega)

theorem advances_setPort6 (val : Byte) (m : Machine) :
    Advances 39 m (m.setPort6 val) := by
  apply setPort6_induction
  · exact fun lcd => Advances.of_still rfl rfl rfl rfl
  · exact fun m' h => h.waitPeripherals
  · exact fun m' out h => h.still rfl rfl rfl rfl
  · exact fun m' motor h => h.still rfl rfl rfl rfl

theorem advances_portStore (addr : ℕ) (val : Byte) (m : Machine) :
    Advances 39 m (m.portStore addr val) := by
  have hclock : ∀ m' : Machine, m'.clock.cycles = m.clock.cycles →
      m'.lastcycles = m.lastcycles → m'.t16 = m.t16 →
      m'.underflow = m.underflow → Advances 39 m m' :=
    fun m' hcycles => Advances.of_still hcycles
  unfold portStore
  split
  · next port _ =>
      cases port with
      | t16 register => exact advances_setT16 register val m
      | port6 => exact advances_setPort6 val m
      | wdogValue =>
          exact hclock _ (setVal_cycles val m.clock m.wdog) rfl rfl rfl
      | iscr | ier =>
          exact hclock _ (btnCheckNextCycle_cycles _ _) rfl rfl rfl
      | adcsr | adcr =>
          exact hclock _ (adCheckNextCycle_cycles _ _) rfl rfl rfl
      | t8 register =>
          exact hclock _ (t8Write_cycles val m.clock m.t8 register) rfl rfl
            rfl
      | serial register =>
          cases register with
          | SCR | SSR =>
              exact hclock _ (serCheckNextCycle_cycles _ _) rfl rfl rfl
          | _ => exact hclock _ rfl rfl rfl rfl
      | _ => exact hclock _ rfl rfl rfl rfl
  · exact Advances.refl m

theorem advances_setByte (addr : Word) (val : Byte) (m : Machine) :
    Advances 39 m (m.setByte addr val) := by
  have hstored : ∀ m', Advances 39 m m' →
      Advances 39 m (m'.poke addr.toNat val) :=
    fun m' h => h.trans (advances_poke addr.toNat val m')
  simp only [setByte]
  split_ifs
  · exact hstored _ (Advances.of_still rfl rfl rfl rfl)
  · exact hstored _ (advances_portStore addr.toNat val m)
  · exact hstored _ ((advances_illegalAccess m).mono (by omega))
  · exact hstored m (Advances.refl m)

theorem advances_setWord (addr : Word) (val : Word) (m : Machine) :
    Advances 78 m (m.setWord addr val) := by
  have hstored := (advances_poke addr.toNat (val.extractLsb' 8 8) m).trans
    (advances_poke (addr.toNat + 1) (val.extractLsb' 0 8) _)
  have hplain : Advances 78 m _ := hstored.mono (by omega)
  simp only [setWord]
  split_ifs
  · exact hplain.still rfl rfl rfl rfl
  · exact (hstored.trans (advances_portStore _ _ _)).trans
      (advances_portStore _ _ _)
  · exact hplain.trans (advances_illegalAccess _)
  · exact hplain

theorem advances_setByteCycles (addr : Word) (val : Byte) (m : Machine) :
    Advances 42 m (m.setByteCycles addr val) := by
  have hcost := byteCycles_le addr m
  exact ((advances_addCycles _ m).trans (advances_setByte addr val _)).mono
    (by omega)

theorem advances_setWordCycles (addr : Word) (val : Word) (m : Machine) :
    Advances 84 m (m.setWordCycles addr val) := by
  have hcost := wordCycles_le addr m
  exact ((advances_addCycles _ m).trans (advances_setWord addr val _)).mono
    (by omega)

end Stores

/-- Every part takes less than `2 ^ 7` cycles. -/
theorem advances_rule : LevelledRule fun k => Advances (2 ^ (k + 7)) := by
  have hpart : ∀ {k n : ℕ} {m m' : Machine}, Advances n m m' →
      n ≤ 2 ^ 7 → Advances (2 ^ (k + 7)) m m' := by
    intro k n m m' h hn
    exact h.mono (hn.trans (Nat.pow_le_pow_right (by omega) (by omega)))
  have hdouble : ∀ k : ℕ, 2 ^ (k + 7) + 2 ^ (k + 7) = 2 ^ (k + 1 + 7) := by
    intro k
    ring
  exact {
    leave := fun k m m' h => h.mono (by
      rw [← hdouble]
      exact Nat.le_add_right _ _)
    trans := fun k m m' m'' h h' => (h.trans h').mono (hdouble k).le
    internal := by
      rintro k m m' ⟨reg, pc, ccr, n, irqDisabledOne, dbTrap, frames,
        sleeping, rfl⟩
      exact hpart ((advances_addCycles n m).still rfl rfl rfl rfl) (by omega)
    getWord := fun k addr m => hpart (advances_getWord addr m) (by norm_num)
    getByteCycles := fun k addr m =>
      hpart (advances_getByteCycles addr m) (by norm_num)
    getWordCycles := fun k addr m =>
      hpart (advances_getWordCycles addr m) (by norm_num)
    setByteCycles := fun k addr val m _ =>
      hpart (advances_setByteCycles addr val m) (by norm_num)
    setWordCycles := fun k addr val m _ =>
      hpart (advances_setWordCycles addr val m) (by norm_num) }

/-- No instruction takes the 16-bit timer beyond its elapsed time. -/
theorem advances_executeInstruction (m : Machine) :
    Advances (2 ^ 19) m (executeInstruction m).2 :=
  advances_rule.keeps_executeInstruction (k := 0) m

end Machine

end BrickEmu
