import BrickEmu.InstructionRule
import BrickEmu.InterruptShadow

/-!
# The memory map of the debugger

Apart from the single steps only the debugger's requests change `memtype`
once it is set up.  What happens between two looks at the sockets leaves it
alone, and what the looks change depends on the requests they handle.
-/

namespace BrickEmu

namespace Command

/-- The memory map after one request of the debugger. -/
def edit (types : ℕ → Byte) : Command → ℕ → Byte
  | .setTrap addr kind =>
      if addr.toNat < 0xff88 then
        Function.update types addr.toNat (types addr.toNat ||| kind.mask)
      else types
  | .clearTrap addr kind =>
      if addr.toNat < 0xff88 then
        Function.update types addr.toNat (types addr.toNat &&& ~~~kind.mask)
      else types
  | _ => types

end Command

namespace Machine

/-- The GUI does not reset the machine. -/
def NoReset (m : Machine) : Prop :=
  ∀ commands ∈ m.arrivals, ∀ command ∈ commands, command ≠ .reset

/-- Some of the arrivals are handled, and nothing else has changed the memory
map or what the single steps remember. -/
def Edited (m m' : Machine) : Prop :=
  ∃ handled, m.arrivals = handled ++ m'.arrivals ∧
    m'.memtype = handled.flatten.foldl Command.edit m.memtype ∧
    m'.dbSinglestepPc = m.dbSinglestepPc ∧
    m'.dbSinglestepMemtype = m.dbSinglestepMemtype

/-- From `m` to `m'` the memory map changes as the debugger asks for. -/
def Handles (m m' : Machine) : Prop :=
  m.NoReset → Edited m m'

variable {m m' m'' : Machine}

theorem Edited.noReset (h : Edited m m') (hm : m.NoReset) : m'.NoReset := by
  obtain ⟨handled, harrivals, -, -, -⟩ := h
  intro commands hmem
  apply hm commands
  rw [harrivals]
  exact List.mem_append_right handled hmem

theorem Edited.trans (h : Edited m m') (h' : Edited m' m'') :
    Edited m m'' := by
  obtain ⟨first, harrivals, hmemtype, hpc, hsaved⟩ := h
  obtain ⟨second, harrivals', hmemtype', hpc', hsaved'⟩ := h'
  refine ⟨first ++ second, ?_, ?_, hpc'.trans hpc, hsaved'.trans hsaved⟩
  · rw [harrivals, harrivals', List.append_assoc]
  · rw [hmemtype', hmemtype, List.flatten_append, List.foldl_append]

namespace Handles

theorem trans (h : Handles m m') (h' : Handles m' m'') : Handles m m'' :=
  fun hm => (h hm).trans (h' ((h hm).noReset hm))

theorem of_same (harrivals : m'.arrivals = m.arrivals)
    (hmemtype : m'.memtype = m.memtype)
    (hpc : m'.dbSinglestepPc = m.dbSinglestepPc)
    (hsaved : m'.dbSinglestepMemtype = m.dbSinglestepMemtype) :
    Handles m m' :=
  fun _ => ⟨[], harrivals.symm, hmemtype, hpc, hsaved⟩

theorem refl (m : Machine) : Handles m m :=
  of_same rfl rfl rfl rfl

theorem of_access (h : AccessEffect m m') : Handles m m' := by
  obtain ⟨_, _, _, _, _, _, _, _, _, rfl⟩ := h
  exact of_same rfl rfl rfl rfl

theorem of_read (h : ReadEffect m m') : Handles m m' :=
  of_access h.access

end Handles

section Peripherals

/-- A request changes the map as `edit` does. -/
theorem handleCommand_edit (m : Machine) (command : Command) :
    (m.handleCommand command).arrivals = m.arrivals ∧
      (m.handleCommand command).memtype = Command.edit m.memtype command ∧
      (m.handleCommand command).dbSinglestepPc = m.dbSinglestepPc ∧
      (m.handleCommand command).dbSinglestepMemtype =
        m.dbSinglestepMemtype := by
  cases command with
  | poke addr val | setTrap addr kind | clearTrap addr kind =>
      simp only [handleCommand, debuggerWrite, Command.edit]
      split_ifs <;> exact ⟨rfl, rfl, rfl, rfl⟩
  | _ => exact ⟨rfl, rfl, rfl, rfl⟩

theorem foldl_receive_edit (fuel : ℕ) (commands : List Command)
    (hnone : ∀ command ∈ commands, command ≠ .reset) (m : Machine) :
    (commands.foldl (receive fuel) m).arrivals = m.arrivals ∧
      (commands.foldl (receive fuel) m).memtype =
        commands.foldl Command.edit m.memtype ∧
      (commands.foldl (receive fuel) m).dbSinglestepPc = m.dbSinglestepPc ∧
      (commands.foldl (receive fuel) m).dbSinglestepMemtype =
        m.dbSinglestepMemtype := by
  induction commands generalizing m with
  | nil => exact ⟨rfl, rfl, rfl, rfl⟩
  | cons command commands ih =>
      obtain ⟨hfirst, hrest⟩ := List.forall_mem_cons.mp hnone
      obtain ⟨harrivals, hmemtype, hpc, hsaved⟩ := m.handleCommand_edit command
      obtain ⟨harrivals', hmemtype', hpc', hsaved'⟩ :=
        ih hrest (m.handleCommand command)
      rw [List.foldl_cons, List.foldl_cons, receive_of_ne hfirst, ← hmemtype]
      exact ⟨harrivals'.trans harrivals, hmemtype', hpc'.trans hpc,
        hsaved'.trans hsaved⟩

theorem handles_reschedule (m : Machine) : Handles m m.reschedule := by
  apply Handles.of_same <;> simp only [reschedule]

theorem handles_synchronizeTime (m : Machine) :
    Handles m m.synchronizeTime := by
  intro hm
  rw [synchronizeTime_eq]
  split_ifs
  · cases harrivals : m.arrivals with
    | nil =>
        have hsame : Handles m { m.pace with arrivals := [] } :=
          Handles.of_same harrivals.symm rfl rfl rfl
        exact hsame.trans (handles_reschedule _) hm
    | cons commands rest =>
        have hnone : ∀ command ∈ commands, command ≠ .reset := by
          apply hm commands
          rw [harrivals]
          exact List.mem_cons_self
        obtain ⟨hrest, hmemtype, hpc, hsaved⟩ :=
          foldl_receive_edit (commands :: rest).length commands hnone
            { m.pace with arrivals := rest }
        have hhandled : Edited m (commands.foldl
            (receive (commands :: rest).length)
            { m.pace with arrivals := rest }) := by
          refine ⟨[commands], ?_, ?_, hpc, hsaved⟩
          · rw [hrest, harrivals]
            rfl
          · rw [hmemtype, List.flatten_singleton]
            rfl
        exact hhandled.trans
          (handles_reschedule _ (hhandled.noReset hm))
  · exact Handles.of_same rfl rfl rfl rfl hm

theorem handles_updateTimes (m : Machine) : Handles m m.updateTimes :=
  Handles.of_same rfl rfl rfl rfl

theorem handles_waitPeripherals (m : Machine) :
    Handles m m.waitPeripherals :=
  (handles_synchronizeTime m).trans (handles_updateTimes _)

theorem handles_beginReset (m : Machine) : Handles m m.beginReset :=
  Handles.of_same rfl rfl rfl rfl

theorem handles_finishReset (m : Machine) : Handles m m.finishReset := by
  have hstart : Handles m { m.addCycles 1 with dbTrap := 0 } :=
    Handles.of_same rfl rfl rfl rfl
  have hread := Handles.of_access
    (({ m.addCycles 1 with dbTrap := 0 } : Machine).getWordCycles_effect 0)
  exact (hstart.trans hread).trans (Handles.of_same rfl rfl rfl rfl)

theorem handles_doReset (m : Machine) : Handles m m.doReset :=
  ((handles_beginReset m).trans (handles_waitPeripherals _)).trans
    (handles_finishReset _)

end Peripherals

section Stores

theorem handles_setT16 (register : T16Register) (val : Byte) (m : Machine) :
    Handles m (m.setT16 register val) := by
  unfold setT16
  split_ifs
  · exact (handles_waitPeripherals m).trans (Handles.of_same rfl rfl rfl rfl)
  · exact Handles.of_same rfl rfl rfl rfl

theorem handles_setPort6 (val : Byte) (m : Machine) :
    Handles m (m.setPort6 val) := by
  apply setPort6_induction
  · exact fun lcd => Handles.of_same rfl rfl rfl rfl
  · exact fun m' h => h.trans (handles_waitPeripherals m')
  · exact fun m' out h => h.trans (Handles.of_same rfl rfl rfl rfl)
  · exact fun m' motor h => h.trans (Handles.of_same rfl rfl rfl rfl)

theorem handles_portStore (addr : ℕ) (val : Byte) (m : Machine) :
    Handles m (m.portStore addr val) := by
  unfold portStore
  split
  · next port _ =>
      cases port with
      | t16 register => exact handles_setT16 register val m
      | port6 => exact handles_setPort6 val m
      | serial register =>
          cases register <;> exact Handles.of_same rfl rfl rfl rfl
      | _ => exact Handles.of_same rfl rfl rfl rfl
  · exact Handles.refl m

theorem handles_poke (addr : ℕ) (val : Byte) (m : Machine) :
    Handles m (m.poke addr val) :=
  Handles.of_read (m.poke_effect addr val)

theorem handles_setByte (addr : Word) (val : Byte) (m : Machine) :
    Handles m (m.setByte addr val) := by
  have hstored : ∀ m', Handles m m' → Handles m (m'.poke addr.toNat val) :=
    fun m' h => h.trans (handles_poke addr.toNat val m')
  simp only [setByte]
  split_ifs
  · exact hstored _ (Handles.of_same rfl rfl rfl rfl)
  · exact hstored _ (handles_portStore addr.toNat val m)
  · exact hstored _ (Handles.of_read m.illegalAccess_effect)
  · exact hstored m (Handles.refl m)

theorem handles_setWord (addr : Word) (val : Word) (m : Machine) :
    Handles m (m.setWord addr val) := by
  have hstored := (handles_poke addr.toNat (val.extractLsb' 8 8) m).trans
    (handles_poke (addr.toNat + 1) (val.extractLsb' 0 8) _)
  simp only [setWord]
  split_ifs
  · exact hstored.trans (Handles.of_same rfl rfl rfl rfl)
  · exact (hstored.trans (handles_portStore _ _ _)).trans
      (handles_portStore _ _ _)
  · exact hstored.trans (Handles.of_read (illegalAccess_effect _))
  · exact hstored

theorem handles_addCycles (n : ℕ) (m : Machine) :
    Handles m (m.addCycles n) :=
  Handles.of_same rfl rfl rfl rfl

theorem handles_setWordCycles (addr : Word) (val : Word) (m : Machine) :
    Handles m (m.setWordCycles addr val) :=
  (handles_addCycles _ m).trans (handles_setWord addr val _)

end Stores

theorem handles_rule : InstructionRule Handles where
  trans _ _ _ h h' := h.trans h'
  internal := by
    rintro m m' ⟨reg, pc, ccr, n, irqDisabledOne, dbTrap, frames, sleeping,
      rfl⟩
    exact Handles.of_same rfl rfl rfl rfl
  getWord addr m := Handles.of_read (m.getWord_effect addr)
  getByteCycles addr m := Handles.of_access (m.getByteCycles_effect addr)
  getWordCycles addr m := Handles.of_access (m.getWordCycles_effect addr)
  setByteCycles addr val m _ :=
    (handles_addCycles _ m).trans (handles_setByte addr val _)
  setWordCycles addr val m _ := handles_setWordCycles addr val m

section Interrupts

theorem handles_enterIrq (selirq : ℕ) (m : Machine) :
    Handles m (m.enterIrq selirq) := by
  have hfetched := Handles.of_access (m.getWordCycles_effect m.pc)
  simp only [enterIrq]
  generalize (m.getWordCycles m.pc).2 = m₁ at hfetched ⊢
  have hpushed := hfetched.trans
    (handles_setWordCycles (m₁.reg16 7 - 4 + 2) m₁.pc m₁)
  generalize m₁.setWordCycles (m₁.reg16 7 - 4 + 2) m₁.pc = m₂
    at hpushed ⊢
  have hflags := hpushed.trans
    (handles_setWordCycles (m₁.reg16 7 - 4) (m₂.ccr ++ m₂.ccr) m₂)
  generalize m₂.setWordCycles (m₁.reg16 7 - 4) (m₂.ccr ++ m₂.ccr) = m₃
    at hflags ⊢
  have hmasked : Handles m₃ { m₃.setReg16 7 (m₁.reg16 7 - 4) with
      ccr := (m₃.setReg16 7 (m₁.reg16 7 - 4)).ccr ||| 0x80 } :=
    Handles.of_same rfl rfl rfl rfl
  have hvector := Handles.of_access (getWordCycles_effect
    (BitVec.ofNat 16 (selirq * 2))
    { m₃.setReg16 7 (m₁.reg16 7 - 4) with
      ccr := (m₃.setReg16 7 (m₁.reg16 7 - 4)).ccr ||| 0x80 })
  exact ((hflags.trans hmasked).trans hvector).trans
    (Handles.of_same rfl rfl rfl rfl)

theorem handles_checkIrq (m : Machine) : Handles m m.checkIrq.2 := by
  have hrearm : Handles m m.rearm := Handles.of_same rfl rfl rfl rfl
  have hpolled : Handles m m.rearm.waitPeripherals.pollIrqs.2 :=
    (hrearm.trans (handles_waitPeripherals _)).trans
      (Handles.of_same rfl rfl rfl rfl)
  simp only [checkIrq]
  generalize m.rearm.waitPeripherals.pollIrqs = polled at hpolled ⊢
  obtain ⟨selirq, m₁⟩ := polled
  cases houtcome : m₁.selectIrq selirq with
  | none => simpa only [houtcome] using hpolled
  | reset =>
      have hlate : Handles m₁ { m₁ with
          clock := { m₁.clock with cycles := m₁.clock.nextNmiCycle } } :=
        Handles.of_same rfl rfl rfl rfl
      simpa only [houtcome] using
        (hpolled.trans hlate).trans (handles_doReset _)
  | taken vector =>
      simpa only [houtcome] using
        hpolled.trans (handles_enterIrq vector m₁)

theorem handles_stopTime (m : Machine) : Handles m m.stopTime := by
  unfold stopTime
  split_ifs <;> exact Handles.of_same rfl rfl rfl rfl

theorem handles_contTime (m : Machine) : Handles m m.contTime := by
  unfold contTime
  split_ifs <;> exact Handles.of_same rfl rfl rfl rfl

theorem handles_wakeUp (m : Machine) : Handles m m.wakeUp := by
  unfold wakeUp
  split_ifs <;> exact Handles.of_same rfl rfl rfl rfl

end Interrupts

theorem handles_executeInstruction (m : Machine) :
    Handles m (executeInstruction m).2 :=
  handles_rule.keeps_executeInstruction m

end Machine

end BrickEmu
