import BrickEmu.RunCpu
import BrickEmu.Synchronization

/-!
# The interrupt shadow of the flag instructions

LDC, ANDC, ORC and XORC set `irq_disabled_one`, and `run_cpu` executes the
next instruction without a look at the interrupts.  The flag is used up
before that instruction is known to run to its end, so the shadow holds in
the runs in which no instruction under it leaves through a label.
-/

namespace BrickEmu

open Program

namespace Mnemonic

def writesCcr : Mnemonic → Bool
  | ldC | ldCI | andC | orC | xorC => true
  | _ => false

end Mnemonic

namespace Machine

/-- The instruction at `pc`, if it runs to its end. -/
def completion (m : Machine) : Option Mnemonic :=
  match getOpcode m, executeInstruction m with
  | (.ok opc, _), (.ok _, _) => Mnemonic.decode (opc >>> 8).toNat
  | _, _ => none

/-- The vector of the interrupt that `check_irq` accepts. -/
def accepted (m : Machine) : Option ℕ :=
  match m.checkIrq.1 with
  | .taken vector => some vector
  | _ => none

section Flag

variable {m : Machine}

theorem updateTimes_irqDisabledOne (m : Machine) :
    m.updateTimes.irqDisabledOne = m.irqDisabledOne :=
  rfl

theorem finishReset_irqDisabledOne (m : Machine) :
    m.finishReset.irqDisabledOne = m.irqDisabledOne := by
  obtain ⟨_, _, _, _, _, _, _, _, _, hread⟩ :=
    ({ m.addCycles 1 with dbTrap := 0 } : Machine).getWordCycles_effect 0
  simp only [finishReset, hread]
  rfl

theorem handleCommand_irqDisabledOne (m : Machine) (command : Command) :
    (m.handleCommand command).irqDisabledOne = m.irqDisabledOne := by
  cases command with
  | poke addr val => exact debuggerWrite_apply irqDisabledOne rfl
  | setTrap addr kind => exact debuggerWrite_apply irqDisabledOne rfl
  | clearTrap addr kind => exact debuggerWrite_apply irqDisabledOne rfl
  | _ => rfl

/-- Nothing that arrives at the sockets ends the shadow. -/
theorem synchronized_irqDisabledOne :
    Synchronized fun m => m.irqDisabledOne = true where
  pace _ h := h
  arrive _ h := h
  handle m command h := (m.handleCommand_irqDisabledOne command).trans h
  beginReset _ _ := rfl
  finishReset m h :=
    (m.updateTimes.finishReset_irqDisabledOne).trans
      ((m.updateTimes_irqDisabledOne).trans h)
  reschedule m h := by
    simpa only [reschedule] using h

theorem stopTime_irqDisabledOne (m : Machine) :
    m.stopTime.irqDisabledOne = m.irqDisabledOne := by
  unfold stopTime
  split_ifs <;> rfl

theorem contTime_irqDisabledOne (m : Machine) :
    m.contTime.irqDisabledOne = m.irqDisabledOne := by
  unfold contTime
  split_ifs <;> rfl

end Flag

/-- A flag instruction that runs to its end leaves the flag set. -/
theorem compute_changeCcr {ccr : Machine → Byte} {illegal : Bool}
    {m m' : Machine}
    (hrun : compute illegal (Instr.changeCcr ccr) m = (.ok (), m')) :
    m'.irqDisabledOne = true := by
  cases illegal with
  | true => cases hrun
  | false =>
      obtain ⟨-, rfl⟩ := Prod.mk.inj hrun
      rfl

theorem body_writesCcr {flag : Mnemonic} (hflag : flag.writesCcr = true)
    {opc : Word} {m m' : Machine}
    (hrun : flag.body opc m = (.ok (), m')) : m'.irqDisabledOne = true := by
  cases flag <;>
    first | exact absurd hflag (by decide) | exact compute_changeCcr hrun

end Machine

namespace Cpu

/-- The machine in which the step starts an instruction. -/
def started (cpu : Cpu) : Option Machine :=
  let m := cpu.machine
  if cpu.phase = .ready then
    if m.irqDisabledOne then some { m with irqDisabledOne := false }
    else if m.deadline ≤ m.cycles then none
    else some m
  else none

/-- The instruction that the step completes.  SLEEP is complete when the
processor sleeps. -/
def completed (cpu : Cpu) : Option Mnemonic :=
  cpu.started.bind Machine.completion

/-- The vector of the interrupt that the step accepts. -/
def accepted (cpu : Cpu) : Option ℕ :=
  let m := cpu.machine
  match cpu.phase with
  | .top | .stopped => none
  | .ready =>
      if m.irqDisabledOne ∨ m.cycles < m.deadline then none
      else if m.dbSinglestep then m.markSinglestep.accepted
      else m.accepted
  | .asleep => if m.dbTrap = 0 then (skipToDeadline m).accepted else none
  | .standby => if m.dbTrap = 0 then m.accepted else none

/-- No maskable interrupt between a flag instruction and the end of the next
instruction. -/
def IrqShadow (m : Machine) : Prop :=
  ∀ i j, i < j →
    ∀ flag, (run m i).completed = some flag → flag.writesCcr = true →
      (∀ k, i < k → k < j → (run m k).completed = none) →
        ∀ vector, 4 ≤ vector → (run m j).accepted ≠ some vector

/-- An instruction that starts in the shadow does not leave through
`trap`, `fault` or `illOpc`. -/
def NoTrapInShadow (cpu : Cpu) : Prop :=
  cpu.phase = .ready → cpu.machine.irqDisabledOne = true →
    (executeInstruction
      { cpu.machine with irqDisabledOne := false }).1.isOk = true

instance (cpu : Cpu) : Decidable cpu.NoTrapInShadow :=
  inferInstanceAs (Decidable (_ → _ → _))

section Steps

variable {cpu : Cpu} {m : Machine}

theorem step_of_started (hstart : cpu.started = some m) :
    cpu.step = execute m := by
  simp only [started] at hstart
  split_ifs at hstart with hphase hflag hdue
  · cases hstart
    simp only [step, hphase, dispatch, if_pos hflag]
  · cases hstart
    simp only [step, hphase, dispatch, if_neg hflag, if_neg hdue]

/-- A step that starts no instruction. -/
theorem step_of_not_started (hphase : cpu.phase = .ready)
    (hstart : cpu.started = none) :
    cpu.step = { cpu with machine := cpu.machine.pollIrq, phase := .top } := by
  simp only [started, hphase, if_true] at hstart
  split_ifs at hstart with hflag hdue
  simp only [step, hphase, dispatch, if_neg hflag, if_pos hdue]

/-- What the start of an instruction changes. -/
theorem eq_of_started (hstart : cpu.started = some m) :
    m = { cpu.machine with irqDisabledOne := false } ∨ m = cpu.machine := by
  simp only [started] at hstart
  split_ifs at hstart <;> cases hstart
  · exact Or.inl rfl
  · exact Or.inr rfl

/-- What an instruction that runs to its end has done. -/
theorem execute_of_completion {mnemonic : Mnemonic}
    (hdone : m.completion = some mnemonic) :
    ∃ opc m₁ m₂,
      getOpcode m = (.ok opc, m₁) ∧ mnemonic.body opc m₁ = (.ok (), m₂) ∧
        execute m =
          if mnemonic = .sleep then fallAsleep m.pc m₂
          else ⟨m₂, .top, m.pc⟩ := by
  unfold Machine.completion at hdone
  rcases hfetch : getOpcode m with ⟨_ | opc, m₁⟩
  · rw [hfetch] at hdone
    cases hdone
  have hrun : executeInstruction m = _ := bind_ok hfetch _
  rw [hfetch] at hdone
  rcases hexec : executeInstruction m with ⟨_ | slept, m'⟩
  · rw [hexec] at hdone
    cases hdone
  rw [hexec] at hdone
  simp only at hdone
  rw [hexec, hdone] at hrun
  rcases hbody : mnemonic.body opc m₁ with ⟨_ | ⟨⟩, m₂⟩
  · simp only [bind_error hbody] at hrun
    cases hrun
  simp only [bind_ok hbody, pure_apply, Prod.mk.injEq, Except.ok.injEq]
    at hrun
  obtain ⟨rfl, rfl⟩ := hrun
  refine ⟨opc, m₁, m', rfl, hbody, ?_⟩
  unfold execute
  rw [hexec]
  by_cases hsleep : mnemonic = .sleep
  · simp [hsleep]
  · simp [hsleep]

theorem step_of_writesCcr {flag : Mnemonic}
    (hdone : cpu.completed = some flag) (hflag : flag.writesCcr = true) :
    cpu.step.phase = .top ∧ cpu.step.machine.irqDisabledOne = true := by
  obtain ⟨m, hstart, hcompletion⟩ := Option.bind_eq_some_iff.mp hdone
  obtain ⟨opc, m₁, m₂, -, hbody, hexecute⟩ :=
    execute_of_completion hcompletion
  have hawake : flag ≠ .sleep := by
    rintro rfl
    cases hflag
  rw [step_of_started hstart, hexecute, if_neg hawake]
  exact ⟨rfl, Machine.body_writesCcr hflag hbody⟩

end Steps

/-- The processor is awake and the flag is set. -/
structure Shadowed (cpu : Cpu) : Prop where
  flag : cpu.machine.irqDisabledOne = true
  awake : cpu.phase = .top ∨ cpu.phase = .stopped ∨ cpu.phase = .ready

namespace Shadowed

variable {cpu : Cpu}

theorem accepted_eq_none (h : cpu.Shadowed) : cpu.accepted = none := by
  unfold accepted
  rcases h.awake with hphase | hphase | hphase
  · rw [hphase]
  · rw [hphase]
  · rw [hphase]
    simp [h.flag]

theorem enter (h : cpu.Shadowed) : cpu.enter.Shadowed := by
  have hflag : ∀ trapped : Machine,
      trapped.irqDisabledOne = cpu.machine.irqDisabledOne →
        trapped.irqDisabledOne = true := fun _ heq => heq.trans h.flag
  simp only [Cpu.enter, halt]
  split_ifs
  all_goals constructor
  all_goals first
    | exact hflag _ (Machine.stopTime_irqDisabledOne _)
    | exact hflag _ rfl
    | simp

/-- Under the condition the shadow ends only with an instruction that runs
to its end. -/
theorem completed_of_ready (h : cpu.Shadowed) (hphase : cpu.phase = .ready)
    (hcalm : cpu.NoTrapInShadow) : cpu.completed ≠ none := by
  have hrun := hcalm hphase h.flag
  have hstart : cpu.started =
      some { cpu.machine with irqDisabledOne := false } := by
    simp [started, hphase, h.flag]
  rw [completed, hstart, Option.bind_some]
  generalize ({ cpu.machine with irqDisabledOne := false } : Machine) = m
    at hrun ⊢
  unfold Machine.completion
  rcases hfetch : getOpcode m with ⟨_ | opc, m₁⟩
  · rw [executeInstruction, bind_error hfetch] at hrun
    cases hrun
  rcases hexec : executeInstruction m with ⟨_ | slept, m'⟩
  · rw [hexec] at hrun
    cases hrun
  intro hnone
  simp only at hnone
  rw [executeInstruction, bind_ok hfetch, hnone] at hrun
  cases hrun

theorem step (h : cpu.Shadowed) (hcalm : cpu.NoTrapInShadow)
    (hopen : cpu.completed = none) : cpu.step.Shadowed := by
  rcases h.awake with hphase | hphase | hphase
  · simp only [Cpu.step, hphase]
    exact h.enter
  · simp only [Cpu.step, hphase]
    split_ifs
    · exact ⟨(Machine.contTime_irqDisabledOne _).trans h.flag, by simp⟩
    · exact ⟨Machine.synchronized_irqDisabledOne.synchronizeTime h.flag,
        Or.inr (Or.inl rfl)⟩
  · exact absurd hopen (h.completed_of_ready hphase hcalm)

end Shadowed

theorem run_succ (m : Machine) (n : ℕ) : run m (n + 1) = (run m n).step :=
  Function.iterate_succ_apply' step n (start m)

/-- In a run in which no instruction under the shadow leaves through a
label, no interrupt breaks the shadow. -/
theorem irqShadow_of_noTrapInShadow {m : Machine}
    (hcalm : ∀ n, (run m n).NoTrapInShadow) : IrqShadow m := by
  intro i j hij flag hdone hflag hopen vector _
  -- the flag stays set from the step after the flag instruction on
  have hshadow : ∀ k, i < k → k ≤ j → (run m k).Shadowed := by
    intro k hik
    induction k, hik using Nat.le_induction with
    | base =>
        intro _
        obtain ⟨hphase, hset⟩ := step_of_writesCcr hdone hflag
        rw [run_succ]
        exact ⟨hset, Or.inl hphase⟩
    | succ k hik ih =>
        intro hkj
        rw [run_succ]
        apply (ih (by omega)).step (hcalm k)
        apply hopen k hik
        omega
  rw [(hshadow j hij le_rfl).accepted_eq_none]
  simp

/-- The guest enables the run button's interrupt, executes ANDC and NOP. -/
def andcThenNop (arrivals : List (List Command)) : Machine :=
  Machine.powerOn
    (fun addr =>
      ([0x00, 0x10, 0, 0, 0, 0, 0, 0, 0xfd, 0xbc, 0, 0, 0, 0, 0, 0,
        0xf8, 0x01, 0x38, 0xc7, 0x79, 0x07, 0xff, 0x7e, 0x30, 0x96,
        0x06, 0x7f, 0x00, 0x00, 0x40, 0xfc] : List Byte)[addr]?)
    [] arrivals []

/-- A processor that waits for a debugger that never answers. -/
structure Abandoned (cpu : Cpu) : Prop where
  phase : cpu.phase = .stopped
  trapped : cpu.machine.dbTrap ≠ 0
  silent : cpu.machine.arrivals = []

theorem Abandoned.step {cpu : Cpu} (h : cpu.Abandoned) :
    cpu.step.Abandoned := by
  have hsync : cpu.machine.synchronizeTime.dbTrap = cpu.machine.dbTrap ∧
      cpu.machine.synchronizeTime.arrivals = [] := by
    rw [Machine.synchronizeTime_eq, h.silent]
    split_ifs
    · simp [Machine.reschedule, Machine.pace]
    · exact ⟨rfl, h.silent⟩
  simp only [Cpu.step, h.phase, if_neg h.trapped]
  exact ⟨rfl, by rw [hsync.1]; exact h.trapped, hsync.2⟩

theorem Abandoned.run {m : Machine} {n : ℕ} (h : (run m n).Abandoned) :
    ∀ k, n ≤ k → (Cpu.run m k).Abandoned := by
  intro k hnk
  induction k, hnk using Nat.le_induction with
  | base => exact h
  | succ k _ ih =>
      rw [run_succ]
      exact ih.step

theorem irqShadow_andcThenNop :
    IrqShadow (andcThenNop
      [[.setTrap 0xfdbc .breakpoint, .button .run true]]) := by
  apply irqShadow_of_noTrapInShadow
  intro n
  have hstuck : (run (andcThenNop
      [[.setTrap 0xfdbc .breakpoint, .button .run true]]) 30).Abandoned :=
    ⟨by decide +kernel, by decide +kernel,
      List.eq_nil_of_length_eq_zero (by decide +kernel)⟩
  rcases Nat.lt_or_ge n 30 with hn | hn
  · revert n
    decide +kernel
  · intro hready
    rw [(hstuck.run n hn).phase] at hready
    cases hready

/-- The debugger has a breakpoint on the NOP and continues there. -/
theorem breakpoint_breaks_irqShadow :
    ¬IrqShadow (andcThenNop
      [[.setTrap 0x1c .breakpoint, .button .run true],
        [.resume false none]]) := by
  intro hshadow
  apply hshadow 11 16 (by decide) .andC (by decide +kernel) rfl ?_ 4 le_rfl
  · decide +kernel
  · intro k hlow hhigh
    have hcases : k = 12 ∨ k = 13 ∨ k = 14 ∨ k = 15 := by omega
    rcases hcases with rfl | rfl | rfl | rfl <;> decide +kernel

end Cpu

end BrickEmu
