import BrickEmu.AsmMoves
import BrickEmu.EmulatedTime

/-!
# Registers of the peripherals in the core

The functions of the ports are called in the middle of an instruction, when
the core has not counted its cycles yet.  They leave the processor alone.
-/

namespace BrickEmu

open Program

section Reads

namespace Machine

variable {m m' : Machine} {addr : ℕ}

/-- The processor as the functions of the ports leave it. -/
structure SameProcessor (m m' : Machine) : Prop where
  reg : m.reg = m'.reg
  pc : m.pc = m'.pc
  ccr : m.ccr = m'.ccr
  memtype : m.memtype = m'.memtype
  cycles : m.cycles = m'.cycles
  dbTrap : m.dbTrap = m'.dbTrap

theorem SameProcessor.refl (m : Machine) : SameProcessor m m :=
  ⟨rfl, rfl, rfl, rfl, rfl, rfl⟩

theorem SameProcessor.trans {m'' : Machine} (h : SameProcessor m m')
    (h' : SameProcessor m' m'') : SameProcessor m m'' where
  reg := h.reg.trans h'.reg
  pc := h.pc.trans h'.pc
  ccr := h.ccr.trans h'.ccr
  memtype := h.memtype.trans h'.memtype
  cycles := h.cycles.trans h'.cycles
  dbTrap := h.dbTrap.trans h'.dbTrap

theorem portGet_dbTrap {port : Port} {val : Byte}
    (hget : m.portGet port = some (val, m')) :
    m'.dbTrap = m.dbTrap ∧ m'.memory = m.memory ∧
      m'.arrivals = m.arrivals := by
  cases port with
  | serial register =>
      cases register <;>
        obtain ⟨-, rfl⟩ := Prod.mk.inj (Option.some.inj hget) <;>
        exact ⟨rfl, rfl, rfl⟩
  | port6 => cases hget
  | _ =>
      obtain ⟨-, rfl⟩ := Prod.mk.inj (Option.some.inj hget)
      exact ⟨rfl, rfl, rfl⟩

/-- A register is looked up through its function. -/
def refreshed (addr : ℕ) (m : Machine) : Machine :=
  if m.isDiv addr then m.refresh addr else m

theorem refresh_cases (addr : ℕ) (m : Machine) :
    ∃ m', SameProcessor m' m ∧ m'.memory = m.memory ∧
      m'.arrivals = m.arrivals ∧
        (m.refresh addr = m' ∨ ∃ val, m.refresh addr = m'.poke addr val) := by
  unfold refresh
  split
  · next port _ =>
      cases hget : m.portGet port with
      | none => exact ⟨m, SameProcessor.refl m, rfl, rfl, Or.inl rfl⟩
      | some result =>
          obtain ⟨val, m'⟩ := result
          have heffect := portGet_effect hget
          obtain ⟨htrap, hmemory, harrivals⟩ := portGet_dbTrap hget
          refine ⟨m', ⟨heffect.access.reg_eq, heffect.access.pc_eq,
            heffect.access.ccr_eq, heffect.access.memtype_eq,
            heffect.cycles_eq, htrap⟩, hmemory, harrivals, Or.inr ⟨val, rfl⟩⟩
  · exact ⟨m, SameProcessor.refl m, rfl, rfl, Or.inl rfl⟩

theorem sameProcessor_refreshed (addr : ℕ) (m : Machine) :
    SameProcessor (m.refreshed addr) m := by
  unfold refreshed
  split_ifs
  · obtain ⟨m', hsame, -, -, heq | ⟨val, heq⟩⟩ := m.refresh_cases addr
    · rw [heq]
      exact hsame
    · rw [heq]
      exact ⟨hsame.reg, hsame.pc, hsame.ccr, hsame.memtype, hsame.cycles,
        hsame.dbTrap⟩
  · exact SameProcessor.refl m

theorem refreshed_arrivals (addr : ℕ) (m : Machine) :
    (m.refreshed addr).arrivals = m.arrivals := by
  unfold refreshed
  split_ifs
  · obtain ⟨m', -, -, harrivals, heq | ⟨val, heq⟩⟩ := m.refresh_cases addr
    · rw [heq, harrivals]
    · rw [heq]
      exact harrivals
  · rfl

theorem refreshed_memory_of_ne {other : ℕ} (hne : other ≠ addr) :
    (m.refreshed addr).memory other = m.memory other := by
  unfold refreshed
  split_ifs
  · obtain ⟨m', -, hmemory, -, heq | ⟨val, heq⟩⟩ := m.refresh_cases addr
    · rw [heq, hmemory]
    · rw [heq]
      change Function.update m'.memory addr val other = _
      rw [Function.update_of_ne hne, hmemory]
  · rfl

/-- What the functions of the ports deliver does not depend on the program
counter. -/
theorem portGet_fst_congr (port : Port) (pc : Word) :
    ((m.setPc pc).portGet port).map Prod.fst =
      (m.portGet port).map Prod.fst := by
  cases port with
  | serial register => cases register <;> rfl
  | _ => rfl

theorem refresh_memory_congr (hmemory : m.memory = m'.memory)
    (hget : ∀ port, Port.ofAddr addr = some port →
      (m.portGet port).map Prod.fst = (m'.portGet port).map Prod.fst) :
    (m.refresh addr).memory = (m'.refresh addr).memory := by
  unfold refresh
  cases hport : Port.ofAddr addr with
  | none => exact hmemory
  | some port =>
      have hval := hget port hport
      dsimp only
      cases hfirst : m.portGet port with
      | none =>
          rw [hfirst] at hval
          rw [Option.map_eq_none_iff.mp hval.symm]
          exact hmemory
      | some result =>
          rw [hfirst] at hval
          obtain ⟨result', hsecond, heq⟩ :=
            Option.map_eq_some_iff.mp hval.symm
          rw [hsecond]
          change Function.update result.2.memory addr result.1 =
            Function.update result'.2.memory addr result'.1
          rw [(portGet_dbTrap hfirst).2.1, (portGet_dbTrap hsecond).2.1, heq,
            hmemory]

/-- The core calls the function before it has counted the cycles. -/
theorem refreshed_memory_congr {cycles : ℕ} {addr : Word}
    (hsteady : m.isDiv addr.toNat = true → m.SteadyPort addr cycles)
    (pc : Word) :
    (m.refreshed addr.toNat).memory =
      (((m.addCycles cycles).setPc pc).refreshed addr.toNat).memory := by
  unfold refreshed
  by_cases hdiv : m.isDiv addr.toNat = true
  · rw [if_pos hdiv, if_pos (by exact hdiv)]
    refine refresh_memory_congr (by rfl) ?_
    intro port hport
    rw [portGet_fst_congr, hsteady hdiv port hport]
  · rw [if_neg hdiv, if_neg (by exact hdiv)]
    rfl

end Machine

variable {m : Machine} {addr : Word}

/-- The second test of the core never fires. -/
theorem readBport_eq {pattern : Byte}
    (hmarked : m.marked pattern addr.toNat = m.isDiv addr.toNat)
    (hport : m.isDiv addr.toNat = true → 0xff88 < addr.toNat) :
    Asm.readBport pattern addr m =
      (.ok ((m.refreshed addr.toNat).memory addr.toNat),
        m.refreshed addr.toNat) := by
  have hnever : m.marked 0 addr.toNat = false := by
    simp [Machine.marked]
  rw [Asm.readBport, gets_bind, hmarked, Machine.refreshed]
  by_cases hdiv : m.isDiv addr.toNat = true
  · have hlow : decide (addr.toNat < 0xff88) = false := by
      have hhigh := hport hdiv
      exact decide_eq_false (by omega)
    rw [if_pos hdiv, if_pos hdiv, Asm.cleanUpIf,
      leaveIf_bind_neg hnever, unalignedIf_bind hlow]
    rfl
  · rw [if_neg hdiv, if_neg hdiv]
    rfl

theorem readByte_eq (htrap : m.byteTrap MEMTYPE_READTRAP addr = false)
    (hport : m.isDiv addr.toNat = true → 0xff88 < addr.toNat) :
    readByte addr m =
      (.ok (((m.addCycles (m.byteCycles addr)).refreshed addr.toNat).memory
        addr.toNat), (m.addCycles (m.byteCycles addr)).refreshed
          addr.toNat) := by
  have hget : m.getByteCycles addr =
      (((m.addCycles (m.byteCycles addr)).refreshed addr.toNat).memory
        addr.toNat, (m.addCycles (m.byteCycles addr)).refreshed
          addr.toNat) := by
    rw [Machine.getByteCycles, Machine.getByte, Machine.refreshed]
    by_cases hdiv : m.isDiv addr.toNat = true
    · rw [if_pos (by exact hdiv), if_pos (by exact hdiv), Machine.getByteDiv,
        if_pos (hport hdiv)]
    · rw [if_neg (by exact hdiv), if_neg (by exact hdiv)]
  have hsame := Machine.sameProcessor_refreshed addr.toNat
    (m.addCycles (m.byteCycles addr))
  rw [readByte, act_bind, hget]
  apply trapIf_bind
  rw [Machine.byteTrap, hsame.memtype]
  exact htrap

end Reads

section Stores

namespace Machine

variable {m : Machine}

/-- A store changes no memory besides its own. -/
structure Stored (m m' : Machine) : Prop extends SameProcessor m m' where
  memory : m.memory = m'.memory

theorem Stored.refl (m : Machine) : Stored m m :=
  ⟨SameProcessor.refl m, rfl⟩

theorem Stored.trans {m' m'' : Machine} (h : Stored m m')
    (h' : Stored m' m'') : Stored m m'' :=
  ⟨h.toSameProcessor.trans h'.toSameProcessor, h.memory.trans h'.memory⟩

theorem stored_waitPeripherals (hquiet : m.arrivals.headD [] = []) :
    Stored m.waitPeripherals m := by
  have hsync : Stored m.synchronizeTime m := by
    rw [synchronizeTime_eq, hquiet]
    split_ifs
    · exact ⟨⟨rfl, rfl, rfl, rfl, rfl, rfl⟩, rfl⟩
    · exact ⟨⟨rfl, rfl, rfl, rfl, rfl, rfl⟩, rfl⟩
  have hupdate : Stored m.synchronizeTime.updateTimes m.synchronizeTime :=
    ⟨⟨rfl, rfl, rfl, rfl, updateTimes_cycles _, rfl⟩, rfl⟩
  exact hupdate.trans hsync

theorem stored_setT16 {register : T16Register}
    (hquiet : register = .TCR → m.arrivals.headD [] = []) (val : Byte) :
    Stored (m.setT16 register val) m := by
  unfold setT16
  split_ifs with hreg
  · have hwait := stored_waitPeripherals (hquiet hreg)
    have hcycles := t16Store_cycles val m.waitPeripherals.clock
      m.waitPeripherals.t16 register
    exact ⟨⟨hwait.reg, hwait.pc, hwait.ccr, hwait.memtype,
      hcycles.trans hwait.cycles, hwait.dbTrap⟩, hwait.memory⟩
  · have hcycles := t16Store_cycles val m.clock m.t16 register
    exact ⟨⟨rfl, rfl, rfl, rfl, hcycles, rfl⟩, rfl⟩

theorem stored_setPort6 (hquiet : m.arrivals.headD [] = []) (val : Byte) :
    Stored (m.setPort6 val) m := by
  have hlcd (lcd : Lcd) : Stored { m with lcd := lcd } m :=
    ⟨⟨rfl, rfl, rfl, rfl, rfl, rfl⟩, rfl⟩
  have hwait (lcd : Lcd) (message : GuiMessage) :
      Stored { ({ m with lcd := lcd } : Machine).waitPeripherals with
        guiOutput := ({ m with lcd := lcd } : Machine).waitPeripherals.guiOutput
          ++ [message] } m := by
    have h := (stored_waitPeripherals (m := { m with lcd := lcd })
      hquiet).trans (hlcd lcd)
    exact ⟨⟨h.reg, h.pc, h.ccr, h.memtype, h.cycles, h.dbTrap⟩, h.memory⟩
  have hmotor {m' : Machine} (h : Stored m' m) (motor : Motor) :
      Stored { m' with motor := motor } m :=
    ⟨⟨h.reg, h.pc, h.ccr, h.memtype, h.cycles, h.dbTrap⟩, h.memory⟩
  unfold setPort6
  split_ifs
  · exact hlcd _
  · dsimp only
    split_ifs
    · apply hmotor
      split
      · exact hwait _ _
      · exact hlcd _
    · split
      · exact hwait _ _
      · exact hlcd _

theorem stored_portStore {addr : Word} (hquiet : m.QuietPort addr)
    (val : Byte) : Stored (m.portStore addr.toNat val) m := by
  have hclock {m' : Machine} (hcycles : m'.clock.cycles = m.clock.cycles)
      (hreg : m'.reg = m.reg) (hpc : m'.pc = m.pc) (hccr : m'.ccr = m.ccr)
      (hmemtype : m'.memtype = m.memtype) (htrap : m'.dbTrap = m.dbTrap)
      (hmemory : m'.memory = m.memory) : Stored m' m :=
    ⟨⟨hreg, hpc, hccr, hmemtype, hcycles, htrap⟩, hmemory⟩
  unfold portStore
  cases hport : Port.ofAddr addr.toNat with
  | none => exact Stored.refl m
  | some port =>
      dsimp only
      cases port with
      | t16 register =>
          apply stored_setT16
          rintro rfl
          exact hquiet _ hport (Or.inl rfl)
      | port6 => exact stored_setPort6 (hquiet _ hport (Or.inr rfl)) val
      | wdogValue =>
          exact hclock (setVal_cycles val m.clock m.wdog)
            rfl rfl rfl rfl rfl rfl
      | iscr | ier =>
          exact hclock (btnCheckNextCycle_cycles _ _) rfl rfl rfl rfl rfl rfl
      | adcsr | adcr =>
          exact hclock (adCheckNextCycle_cycles _ _) rfl rfl rfl rfl rfl rfl
      | t8 register =>
          exact hclock (t8Write_cycles val m.clock m.t8 register)
            rfl rfl rfl rfl rfl rfl
      | serial register =>
          cases register with
          | SCR | SSR =>
              exact hclock (serCheckNextCycle_cycles _ _)
                rfl rfl rfl rfl rfl rfl
          | _ => exact hclock rfl rfl rfl rfl rfl rfl rfl
      | _ => exact hclock rfl rfl rfl rfl rfl rfl rfl

theorem Stored.poke {m' : Machine} (h : Stored m m') (addr : ℕ) (val : Byte) :
    Stored (m.poke addr val) (m'.poke addr val) where
  reg := h.reg
  pc := h.pc
  ccr := h.ccr
  memtype := h.memtype
  cycles := h.cycles
  dbTrap := h.dbTrap
  memory := by
    change Function.update m.memory addr val =
      Function.update m'.memory addr val
    rw [h.memory]

theorem stored_setByte {addr : Word}
    (hmotor : m.marked MEMTYPE_MOTOR addr.toNat = false)
    (hport : m.isDiv addr.toNat = true → 0xff88 < addr.toNat)
    (hquiet : m.QuietPort addr) (val : Byte) :
    Stored (m.setByte addr val) (m.poke addr.toNat val) := by
  rw [marked_eq_false] at hmotor
  have hnot : ¬m.memtype addr.toNat &&& MEMTYPE_MOTOR ≠ 0 :=
    not_not_intro hmotor
  rw [setByte, if_neg hnot]
  split_ifs with hdiv hhigh
  · exact (stored_portStore hquiet val).poke addr.toNat val
  · exact absurd (hport (decide_eq_true hdiv)) hhigh
  · exact Stored.refl _

theorem SameProcessor.slow_eq {m' : Machine} (h : SameProcessor m m')
    (addr : ℕ) : m.slow addr = m'.slow addr := by
  unfold slow marked
  rw [h.memtype]

end Machine

variable {opc : Word} {m : Machine} {addr : Word}

theorem writeBport_stored (hquiet : m.QuietPort addr) (val : Byte) :
    ∃ m', Asm.writeBport addr val m = (.ok (), m') ∧
      m'.Stored (m.poke addr.toNat val) := by
  rw [Asm.writeBport, change_bind, gets_bind]
  split_ifs
  · exact ⟨_, rfl, Machine.stored_portStore (by exact hquiet) val⟩
  · exact ⟨_, rfl, Machine.Stored.refl _⟩

theorem marked_or (mask mask' : Byte) (addr : ℕ) (m : Machine) :
    m.marked (mask ||| mask') addr =
      (m.marked mask addr || m.marked mask' addr) := by
  have hzero : m.memtype addr &&& (mask ||| mask') = 0 ↔
      m.memtype addr &&& mask = 0 ∧ m.memtype addr &&& mask' = 0 := by
    rw [BitVec.and_or_distrib_left]
    exact BitVec.or_eq_zero_iff
  simp only [Machine.marked, ne_eq, hzero, not_and_or, Bool.decide_or]

theorem fetched_addCycles (n : ℕ) :
    m.fetched.addCycles n =
      (m.addCycles (m.wordCycles m.pc + n)).setPc (m.pc + 2) := by
  simp only [Machine.fetched, Machine.addCycles, Machine.setPc, Nat.add_assoc]

/-- A register is read by both cores: the core before, the C code after the
cycles are counted. -/
structure ReadAlike (addr : Word) (m mA mC : Machine) : Prop where
  asm : mA.SameProcessor m
  c : mC.SameProcessor (m.fetched.addCycles (m.byteCycles addr))
  memory : mA.memory = mC.memory
  arrivals : mA.arrivals = m.arrivals ∧ mC.arrivals = m.arrivals
  other : ∀ other, other ≠ addr.toNat ∨ m.isDiv addr.toNat = false →
    mA.memory other = m.memory other

theorem readAlike {mask : Byte} (hmask : m.marked mask addr.toNat = false)
    (hread : mask &&& MEMTYPE_READTRAP = MEMTYPE_READTRAP)
    (hport : Asm.PortSafe m addr (Asm.bitCycles m addr)) :
    ∃ val mA mC, Asm.readBport (mask ||| MEMTYPE_DIV) addr m = (.ok val, mA) ∧
      readByte addr m.fetched = (.ok val, mC) ∧ ReadAlike addr m mA mC := by
  have hmarked : m.marked (mask ||| MEMTYPE_DIV) addr.toNat =
      m.isDiv addr.toNat := by
    rw [marked_or, hmask, Bool.false_or]
    rfl
  have htrap : m.fetched.byteTrap MEMTYPE_READTRAP addr = false :=
    Machine.marked_mono hread hmask
  have hhigh := fun hdiv => (hport hdiv).1
  have hmemory := Machine.refreshed_memory_congr
    (fun hdiv => (hport hdiv).2) (m.pc + 2)
  rw [Asm.bitCycles, ← fetched_addCycles] at hmemory
  refine ⟨_, _, (m.fetched.addCycles (m.byteCycles addr)).refreshed addr.toNat,
    readBport_eq hmarked hhigh, ?_, ?_⟩
  · rw [hmemory]
    exact readByte_eq htrap hhigh
  · refine ⟨Machine.sameProcessor_refreshed _ m,
      Machine.sameProcessor_refreshed _ _, hmemory,
      ⟨m.refreshed_arrivals _, Machine.refreshed_arrivals _ _⟩, ?_⟩
    rintro other (hne | hplain)
    · exact Machine.refreshed_memory_of_ne hne
    · rw [Machine.refreshed, if_neg (by simp [hplain])]

theorem matches_movBFA8
    (htrap : m.marked 0x08 (displacement opc).toNat = false)
    (hport : Asm.PortSafe m (displacement opc)
      (Asm.bitCycles m (displacement opc))) :
    Matches (Asm.movBFA8 opc m) (Instr.movBFA8 opc m.fetched) := by
  obtain ⟨val, mA, mC, hasm, hc, halike⟩ := readAlike htrap rfl hport
  rw [Asm.movBFA8, bind_ok (by exact hasm), Instr.movBFA8, bind_ok hc]
  refine ⟨_, rfl, ?_⟩
  constructor
  · change Function.update mA.reg _ val = Function.update mC.reg _ val
    rw [halike.asm.reg, halike.c.reg]
    rfl
  · change mA.pc + 2 = mC.pc
    rw [halike.asm.pc, halike.c.pc]
    rfl
  · change asmSetNZ (logicFlags val) (mA.ccr &&& 0xf1) = setNZV val mC.ccr
    rw [asmSetNZ_eq le_rfl, halike.asm.ccr, halike.c.ccr]
    rfl
  · exact halike.memory
  · change mA.cycles + 1 * mA.slow _ + (4 + 2 * 2 * mA.slow mA.pc.toNat) =
      mC.cycles
    rw [halike.asm.cycles, halike.asm.slow_eq, halike.asm.slow_eq,
      halike.asm.pc, halike.c.cycles]
    change _ = m.fetched.cycles + m.byteCycles (displacement opc)
    rw [fetched_cycles, m.byteCycles_eq]
    omega
  · change mA.dbTrap = mC.dbTrap
    rw [halike.asm.dbTrap, halike.c.dbTrap]
    rfl
  · exact halike.asm.memtype.trans halike.c.memtype.symm

theorem matches_movBTA8
    (hport : m.isDiv (displacement opc).toNat = true →
      0xff88 < (displacement opc).toNat)
    (hquiet : m.QuietPort (displacement opc)) :
    Matches (Asm.movBTA8 opc m) (Instr.movBTA8 opc m.fetched) := by
  rw [Asm.movBTA8]
  apply matches_cleanUpIf
  intro hmask
  have hplain : (m.marked 0xa4 (displacement opc).toNat &&
      decide ((displacement opc).toNat < 0xff88)) = false := by
    rw [show (0xa4 : Byte) = 0x24 ||| MEMTYPE_DIV from rfl, marked_or, hmask,
      Bool.false_or]
    by_cases hdiv : m.isDiv (displacement opc).toNat = true
    · have hhigh := hport hdiv
      rw [decide_eq_false (by omega), Bool.and_false]
    · have hnot : m.marked MEMTYPE_DIV (displacement opc).toNat = false := by
        rw [← Bool.not_eq_true]
        exact hdiv
      rw [hnot, Bool.false_and]
  rw [unalignedIf_bind hplain, gets_bind, Asm.setFlags, change_bind]
  obtain ⟨mA, hasm, hA⟩ := writeBport_stored (m := m.setCcr
    (asmSetNZ (logicFlags (m.reg (ri opc))) (m.ccr &&& 0xf1)))
      (by exact hquiet) (m.reg (ri opc))
  rw [bind_ok hasm, Instr.movBTA8, gets_bind, Instr.setFlags, change_bind,
    writeByte, trapIf_bind (by exact Machine.marked_mono rfl hmask)]
  refine ⟨_, rfl, ?_⟩
  have hC := Machine.stored_setByte (m := (m.fetched.setCcr
    (setNZV (m.reg (ri opc)) m.ccr)).addCycles
      (m.byteCycles (displacement opc)))
    (Machine.marked_mono rfl hmask) hport hquiet (m.reg (ri opc))
  constructor
  · exact hA.reg.trans hC.reg.symm
  · change mA.pc + 2 = _
    rw [hA.pc]
    exact hC.pc.symm
  · rw [asmSetNZ_eq le_rfl] at hA
    exact hA.ccr.trans hC.ccr.symm
  · exact hA.memory.trans hC.memory.symm
  · change mA.cycles + 1 * mA.slow _ + (4 + 2 * 2 * mA.slow mA.pc.toNat) = _
    rw [hA.cycles, hA.slow_eq, hA.slow_eq, hA.pc]
    refine Eq.trans ?_ hC.cycles.symm
    change m.cycles + 1 * m.slow _ + (4 + 2 * 2 * m.slow m.pc.toNat) =
      m.fetched.cycles + m.byteCycles (displacement opc)
    rw [fetched_cycles, m.byteCycles_eq]
    omega
  · exact hA.dbTrap.trans hC.dbTrap.symm
  · exact hA.memtype.trans hC.memtype.symm

end Stores

end BrickEmu
