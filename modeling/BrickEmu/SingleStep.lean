import BrickEmu.MemoryMap

/-!
# Single steps over interrupts

A single step that an interrupt intervenes in sets a breakpoint at the
interrupted instruction and keeps the byte of the memory map it replaces.  The
trap at that place puts the byte back.  The place stays remembered, though,
also when no interrupt came, and a second step forgets a breakpoint that is
still set.
-/

namespace BrickEmu

open Program

/-- The memory map with a breakpoint at the address. -/
def withBreakpoint (types : ℕ → Byte) (addr : ℕ) : ℕ → Byte :=
  Function.update types addr (types addr ||| MEMTYPE_BREAKPOINT)

section Maps

variable {types user : ℕ → Byte} {addr : ℕ}

theorem withBreakpoint_eq_self_iff :
    withBreakpoint types addr = types ↔
      types addr ||| MEMTYPE_BREAKPOINT = types addr :=
  Function.update_eq_self_iff

theorem withBreakpoint_apply :
    withBreakpoint types addr addr = types addr ||| MEMTYPE_BREAKPOINT :=
  Function.update_self ..

theorem withBreakpoint_of_ne {other : ℕ} (hne : other ≠ addr) :
    withBreakpoint types addr other = types other :=
  Function.update_of_ne hne ..

theorem breakpoint_or (type mask : Byte) :
    type ||| MEMTYPE_BREAKPOINT ||| mask =
      type ||| mask ||| MEMTYPE_BREAKPOINT := by
  rw [BitVec.or_assoc, BitVec.or_comm MEMTYPE_BREAKPOINT mask,
    ← BitVec.or_assoc]

/-- Taking bits away takes the breakpoint with them or not. -/
theorem breakpoint_clear (type : Byte) (kind : TrapKind) :
    (type ||| MEMTYPE_BREAKPOINT) &&& ~~~kind.mask = type &&& ~~~kind.mask ∨
      (type ||| MEMTYPE_BREAKPOINT) &&& ~~~kind.mask =
        type &&& ~~~kind.mask ||| MEMTYPE_BREAKPOINT := by
  revert type
  cases kind <;> decide +kernel

/-- A change at one address beside a breakpoint at another. -/
theorem update_withBreakpoint {other : ℕ} (hne : other ≠ addr) (type : Byte) :
    Function.update (withBreakpoint types addr) other type =
      withBreakpoint (Function.update types other type) addr := by
  unfold withBreakpoint
  rw [Function.update_comm hne, Function.update_of_ne (Ne.symm hne)]

theorem update_at_withBreakpoint (type : Byte) :
    Function.update (withBreakpoint types addr) addr type =
      Function.update types addr type :=
  Function.update_idem ..

theorem withBreakpoint_update (type : Byte) :
    withBreakpoint (Function.update types addr type) addr =
      Function.update types addr (type ||| MEMTYPE_BREAKPOINT) := by
  unfold withBreakpoint
  rw [Function.update_idem, Function.update_self]

/-- A request of the debugger beside the breakpoint of a step. -/
theorem edit_withBreakpoint (types : ℕ → Byte) (addr : ℕ)
    (command : Command) :
    Command.edit (withBreakpoint types addr) command =
        Command.edit types command ∨
      Command.edit (withBreakpoint types addr) command =
        withBreakpoint (Command.edit types command) addr := by
  cases command with
  | setTrap other kind =>
      right
      simp only [Command.edit]
      split_ifs
      · by_cases heq : other.toNat = addr
        · rw [heq, update_at_withBreakpoint, withBreakpoint_update,
            withBreakpoint_apply, breakpoint_or]
        · rw [withBreakpoint_of_ne heq, update_withBreakpoint heq]
      · rfl
  | clearTrap other kind =>
      simp only [Command.edit]
      split_ifs
      · by_cases heq : other.toNat = addr
        · rw [heq, update_at_withBreakpoint, withBreakpoint_update,
            withBreakpoint_apply]
          rcases breakpoint_clear (types addr) kind with hgone | hkept
          · left
            rw [hgone]
          · right
            rw [hkept]
        · right
          rw [withBreakpoint_of_ne heq, update_withBreakpoint heq]
      · right
        rfl
  | _ => exact Or.inr rfl

theorem foldl_edit_withBreakpoint (commands : List Command)
    (types : ℕ → Byte) (addr : ℕ) :
    commands.foldl Command.edit (withBreakpoint types addr) =
        commands.foldl Command.edit types ∨
      commands.foldl Command.edit (withBreakpoint types addr) =
        withBreakpoint (commands.foldl Command.edit types) addr := by
  induction commands generalizing types with
  | nil => exact Or.inr rfl
  | cons command commands ih =>
      rw [List.foldl_cons, List.foldl_cons]
      rcases edit_withBreakpoint types addr command with hgone | hkept
      · left
        rw [hgone]
      · rw [hkept]
        exact ih (Command.edit types command)

end Maps

namespace Cpu

/-- The step looks for interrupts in the middle of a single step. -/
def polls (cpu : Cpu) : Prop :=
  cpu.phase = .ready ∧ cpu.started.isNone ∧ cpu.machine.dbSinglestep

instance (cpu : Cpu) : Decidable cpu.polls :=
  inferInstanceAs (Decidable (_ ∧ _))

/-- The machine at the trap that the step's instruction meets. -/
def trapped (cpu : Cpu) : Option Machine :=
  match cpu.started with
  | none => none
  | some m =>
      match executeInstruction m with
      | (.error .trap, m') => some m'
      | _ => none

/-- The machine at a trap that ends a single step over an interrupt. -/
def restores (cpu : Cpu) : Option Machine :=
  cpu.trapped.filter fun m => m.dbSinglestepPc = cpu.machine.pc

end Cpu

namespace Machine

/-- At the labels of `run_cpu` no socket is looked at. -/
theorem atLabel_arrivals (m : Machine) (oldpc : Word) (exit : Exit) :
    (m.atLabel oldpc exit).arrivals = m.arrivals := by
  unfold atLabel
  cases exit with
  | trap =>
      dsimp only
      split_ifs <;> rfl
  | fault => rfl
  | illOpc => rfl

end Machine

theorem Cpu.halt_arrivals (oldpc : Word) (m : Machine) :
    (Cpu.halt oldpc m).machine.arrivals = m.arrivals := by
  simp only [Cpu.halt, Machine.stopTime]
  split_ifs <;> rfl

/-- The processor, and whether a single step over an interrupt is pending. -/
structure Stepping where
  cpu : Cpu
  pending : Bool

namespace Stepping

def start (m : Machine) : Stepping :=
  ⟨Cpu.start m, false⟩

/-- A single step becomes pending when an interrupt intervenes, and it ends
with the trap at its place or when another step takes its place. -/
def step (s : Stepping) : Stepping where
  cpu := s.cpu.step
  pending :=
    let m := s.cpu.step.machine
    if s.cpu.polls then
      m.dbSinglestepPc ≠ m.pc ∨
        s.pending ∧ m.dbSinglestepPc = s.cpu.machine.dbSinglestepPc
    else s.pending ∧ s.cpu.restores.isNone

def run (m : Machine) (n : ℕ) : Stepping :=
  step^[n] (start m)

/-- The map of `mem_init` with the changes the debugger has asked for since
power-on. -/
def userMap (first m : Machine) : ℕ → Byte :=
  (first.arrivals.take
    (first.arrivals.length - m.arrivals.length)).flatten.foldl Command.edit
      Machine.memInit

/-- The memory map is the user's, but for the breakpoint of a pending step. -/
def Intact (first : Machine) (s : Stepping) : Prop :=
  let m := s.cpu.machine
  let user := userMap first m
  m.memtype = user ∨
    s.pending = true ∧ m.memtype = withBreakpoint user m.dbSinglestepPc.toNat

/-- While a step over an interrupt is pending, another step looks for
interrupts only if the user has a breakpoint of his own at the place of the
pending one, or at that same place and in vain, and the user's requests leave
his byte there as it is.  An instruction at the remembered place runs into a
trap only while the step is pending. -/
def Orderly (first : Machine) (s : Stepping) : Prop :=
  let m := s.cpu.machine
  let addr := m.dbSinglestepPc.toNat
  (s.cpu.polls → s.pending = true →
    userMap first m addr ||| MEMTYPE_BREAKPOINT = userMap first m addr ∨
      m.pc = m.dbSinglestepPc ∧ s.cpu.step.machine.pc = m.pc) ∧
  (s.cpu.restores.isSome → s.pending = true) ∧
  (s.pending = true →
    userMap first s.cpu.step.machine addr = userMap first m addr)

instance (first : Machine) (s : Stepping) : Decidable (Orderly first s) :=
  inferInstanceAs (Decidable (_ ∧ _ ∧ _))

/-- The memory map in the middle of a run, and the byte that a pending step
has kept. -/
structure MapKept (first : Machine) (pending : Bool) (m : Machine) :
    Prop where
  arrivals : m.arrivals <:+ first.arrivals
  memtype : m.memtype = userMap first m ∨
    pending = true ∧
      m.memtype = withBreakpoint (userMap first m) m.dbSinglestepPc.toNat
  saved : pending = true →
    m.dbSinglestepMemtype = userMap first m m.dbSinglestepPc.toNat

section Kept

variable {first m m' : Machine} {pending : Bool}

theorem noReset_of_suffix (hfirst : first.NoReset)
    (harrivals : m.arrivals <:+ first.arrivals) : m.NoReset :=
  fun commands hmem => hfirst commands (harrivals.subset hmem)

theorem userMap_congr (harrivals : m'.arrivals = m.arrivals) :
    userMap first m' = userMap first m := by
  unfold userMap
  rw [harrivals]

/-- The requests handled on the way are added to the user's map. -/
theorem userMap_handled (harrivals : m.arrivals <:+ first.arrivals)
    {handled : List (List Command)}
    (hhandled : m.arrivals = handled ++ m'.arrivals) :
    userMap first m' =
      handled.flatten.foldl Command.edit (userMap first m) := by
  obtain ⟨before, hbefore⟩ := harrivals
  have htake : ∀ earlier rest : List (List Command),
      (earlier ++ rest).take ((earlier ++ rest).length - rest.length) =
        earlier := by
    intro earlier rest
    rw [List.length_append, Nat.add_sub_cancel, List.take_left']
    rfl
  have hall : first.arrivals = (before ++ handled) ++ m'.arrivals := by
    rw [← hbefore, hhandled, List.append_assoc]
  unfold userMap
  rw [← hbefore, htake, hbefore, hall, htake, List.flatten_append,
    List.foldl_append]

theorem MapKept.handles (h : MapKept first pending m)
    (hfirst : first.NoReset) (hhandles : m.Handles m')
    (hsame : pending = true → userMap first m' m.dbSinglestepPc.toNat =
      userMap first m m.dbSinglestepPc.toNat) :
    MapKept first pending m' := by
  obtain ⟨handled, hhandled, hmemtype, hpc, hsaved⟩ :=
    hhandles (noReset_of_suffix hfirst h.arrivals)
  have huser := userMap_handled h.arrivals hhandled
  refine ⟨?_, ?_, ?_⟩
  · apply List.IsSuffix.trans _ h.arrivals
    exact ⟨handled, hhandled.symm⟩
  · rcases h.memtype with hplain | ⟨hpending, hmarked⟩
    · left
      rw [hmemtype, hplain, huser]
    · rw [hmemtype, hmarked, huser, hpc]
      rcases foldl_edit_withBreakpoint handled.flatten (userMap first m)
        m.dbSinglestepPc.toNat with hgone | hkept
      · exact Or.inl hgone
      · exact Or.inr ⟨hpending, hkept⟩
  · intro hpending
    rw [hsaved, hpc, hsame hpending, h.saved hpending]

/-- Where the user has a breakpoint at the place of a pending step, the map is
the user's. -/
theorem MapKept.plain (h : MapKept first pending m)
    (hown : pending = true →
      userMap first m m.dbSinglestepPc.toNat ||| MEMTYPE_BREAKPOINT =
        userMap first m m.dbSinglestepPc.toNat) :
    m.memtype = userMap first m := by
  rcases h.memtype with hplain | ⟨hpending, hmarked⟩
  · exact hplain
  · rw [hmarked, withBreakpoint_eq_self_iff]
    exact hown hpending

/-- A step remembers where it is. -/
theorem MapKept.markSinglestep (h : MapKept first pending m)
    (hplain : m.dbSinglestepPc ≠ m.pc → m.memtype = userMap first m) :
    MapKept first (decide (pending ∧ m.pc = m.dbSinglestepPc))
      m.markSinglestep := by
  refine ⟨h.arrivals, ?_, ?_⟩
  · by_cases heq : m.dbSinglestepPc = m.pc
    · rcases h.memtype with hplain | ⟨hpending, hmarked⟩
      · exact Or.inl hplain
      · right
        rw [heq] at hmarked
        exact ⟨by simp [hpending, heq], hmarked⟩
    · exact Or.inl (hplain heq)
  · intro hpending
    obtain ⟨hpending, heq⟩ := of_decide_eq_true hpending
    have hsaved := h.saved hpending
    rw [← heq] at hsaved
    exact hsaved

/-- The breakpoint at the place of the step, with the byte it replaces kept. -/
theorem MapKept.stepOverIrq (h : MapKept first pending m)
    (hplain : m.dbSinglestepPc ≠ m.pc → m.memtype = userMap first m) :
    MapKept first (decide (m.dbSinglestepPc ≠ m.pc ∨ pending))
      m.stepOverIrq := by
  unfold Machine.stepOverIrq
  by_cases heq : m.dbSinglestepPc = m.pc
  · rw [if_pos heq]
    simpa [heq] using h
  · rw [if_neg heq]
    have huser := hplain heq
    refine ⟨h.arrivals, Or.inr ⟨by simp [heq], ?_⟩, fun _ => ?_⟩
    · show withBreakpoint m.memtype m.dbSinglestepPc.toNat = _
      rw [huser]
      rfl
    · show m.memtype m.dbSinglestepPc.toNat = _
      rw [huser]
      rfl

/-- The trap at the place of a pending step puts the user's byte back. -/
theorem MapKept.restored (h : MapKept first true m) :
    MapKept first false
      (m.atLabel m.dbSinglestepPc .trap) := by
  have harrivals := m.atLabel_arrivals m.dbSinglestepPc .trap
  have hput : (m.atLabel m.dbSinglestepPc .trap).memtype =
      Function.update m.memtype m.dbSinglestepPc.toNat
        m.dbSinglestepMemtype := by
    simp [Machine.atLabel]
  have huser : Function.update m.memtype m.dbSinglestepPc.toNat
      (userMap first m m.dbSinglestepPc.toNat) = userMap first m := by
    rcases h.memtype with hplain | ⟨-, hmarked⟩
    · rw [hplain, Function.update_eq_self]
    · rw [hmarked, withBreakpoint, Function.update_idem,
        Function.update_eq_self]
  refine ⟨by rw [harrivals]; exact h.arrivals, Or.inl ?_, by simp⟩
  rw [hput, h.saved rfl, huser]
  exact (userMap_congr harrivals).symm

end Kept

end Stepping

namespace Machine

/-- The other ways to the labels leave the map alone. -/
theorem handles_atLabel {oldpc : Word} {exit : Exit} (m : Machine)
    (hother : exit = .trap → m.dbSinglestepPc ≠ oldpc) :
    Handles m (m.atLabel oldpc exit) := by
  cases exit with
  | trap =>
      simp only [atLabel, if_neg (hother rfl)]
      exact Handles.of_same rfl rfl rfl rfl
  | fault => exact Handles.of_same rfl rfl rfl rfl
  | illOpc => exact Handles.of_same rfl rfl rfl rfl

end Machine

namespace Cpu

open Machine

variable {cpu : Cpu} {m m' : Machine}

theorem handles_halt (oldpc : Word) (m : Machine) :
    Handles m (halt oldpc m).machine :=
  handles_stopTime m

theorem handles_enter (cpu : Cpu) : Handles cpu.machine cpu.enter.machine := by
  have hhalt : ∀ oldpc m, Handles cpu.machine m →
      Handles cpu.machine (halt oldpc m).machine :=
    fun oldpc m h => h.trans (handles_halt oldpc m)
  simp only [enter]
  split_ifs
  · exact hhalt _ _ (Handles.of_same rfl rfl rfl rfl)
  · exact hhalt _ _ (Handles.of_same rfl rfl rfl rfl)
  · exact Handles.of_same rfl rfl rfl rfl
  · exact hhalt _ _ (Handles.of_same rfl rfl rfl rfl)
  · exact hhalt _ _ (Handles.refl _)
  · exact Handles.refl _

theorem handles_doze {skip leave : Machine → Machine}
    (hskip : Handles cpu.machine (skip cpu.machine))
    (hleave : ∀ m, Handles m (leave m)) :
    Handles cpu.machine (cpu.doze skip leave).machine := by
  have hwoken : ∀ m, Handles cpu.machine m →
      Handles cpu.machine (leave m).wakeUp :=
    fun m h => (h.trans (hleave m)).trans (handles_wakeUp _)
  simp only [doze]
  split_ifs
  · exact hwoken _ (Handles.of_same rfl rfl rfl rfl)
  · exact hskip.trans (handles_checkIrq _)
  · exact hwoken _ (hskip.trans (handles_checkIrq _))

theorem handles_execute (hother : ∀ m',
    executeInstruction m = (.error .trap, m') → m'.dbSinglestepPc ≠ m.pc) :
    Handles m (execute m).machine := by
  have hrun := handles_executeInstruction m
  unfold execute
  rcases hexecute : executeInstruction m with ⟨exit | slept, m'⟩
  · rw [hexecute] at hrun
    have hlabel : Handles m' (m'.atLabel m.pc exit) := by
      apply handles_atLabel
      rintro rfl
      exact hother m' hexecute
    exact (hrun.trans hlabel).trans (handles_halt _ _)
  · rw [hexecute] at hrun
    cases slept with
    | false => exact hrun
    | true =>
        simp only [fallAsleep]
        split_ifs
        · exact hrun.trans (handles_stopTime _)
        · exact hrun

theorem restores_of_started (hstart : cpu.started = none) :
    cpu.restores = none := by
  simp only [restores, trapped, hstart, Option.filter_none]

/-- What the start of an instruction changes. -/
theorem handles_started (hstart : cpu.started = some m) :
    Handles cpu.machine m ∧ m.pc = cpu.machine.pc := by
  rcases eq_of_started hstart with rfl | rfl
  · exact ⟨Handles.of_same rfl rfl rfl rfl, rfl⟩
  · exact ⟨Handles.refl _, rfl⟩

/-- What leads to the trap that ends a single step. -/
theorem restores_eq_some (hrestores : cpu.restores = some m') :
    ∃ m, cpu.started = some m ∧ executeInstruction m = (.error .trap, m') ∧
      m'.dbSinglestepPc = cpu.machine.pc := by
  obtain ⟨htrapped, hplace⟩ := Option.filter_eq_some_iff.mp hrestores
  simp only [decide_eq_true_eq] at hplace
  unfold trapped at htrapped
  cases hstart : cpu.started with
  | none =>
      rw [hstart] at htrapped
      cases htrapped
  | some m =>
      refine ⟨m, rfl, ?_, hplace⟩
      simp only [hstart] at htrapped
      split at htrapped
      · next m'' hexecute =>
          cases htrapped
          exact hexecute
      · cases htrapped

/-- The steps that neither look for interrupts within a single step nor end
one only handle requests. -/
theorem handles_step (hpolls : ¬ cpu.polls) (hrestores : cpu.restores = none) :
    Handles cpu.machine cpu.step.machine := by
  cases hphase : cpu.phase with
  | top =>
      simp only [step, hphase]
      exact handles_enter cpu
  | stopped =>
      simp only [step, hphase]
      split_ifs
      · exact handles_contTime _
      · exact handles_synchronizeTime _
  | ready =>
      cases hstart : cpu.started with
      | none =>
          have hsingle : ¬ cpu.machine.dbSinglestep = true := by
            intro hsingle
            exact hpolls ⟨hphase, by rw [hstart]; rfl, hsingle⟩
          rw [step_of_not_started hphase hstart]
          simp only [pollIrq, if_neg hsingle]
          exact handles_checkIrq _
      | some m =>
          have hfetch := handles_started hstart
          rw [step_of_started hstart]
          apply hfetch.1.trans
          apply handles_execute
          intro m' hexecute hplace
          have hsome : cpu.restores = some m' := by
            rw [hfetch.2] at hplace
            simp [restores, trapped, hstart, hexecute, hplace]
          rw [hrestores] at hsome
          cases hsome
  | asleep =>
      simp only [step, hphase]
      exact handles_doze (Handles.of_same rfl rfl rfl rfl) Handles.refl
  | standby =>
      simp only [step, hphase]
      exact handles_doze (Handles.refl _) handles_contTime

end Cpu

namespace Stepping

open Machine

variable {first : Machine} {s : Stepping}

/-- In the other steps nothing but the requests changes the map. -/
theorem step_of_handles (hpolls : ¬ s.cpu.polls)
    (hrestores : s.cpu.restores = none) :
    s.step.pending = s.pending := by
  simp [step, if_neg hpolls, hrestores]

theorem MapKept.step_other (h : MapKept first s.pending s.cpu.machine)
    (hfirst : first.NoReset) (hpolls : ¬ s.cpu.polls)
    (hrestores : s.cpu.restores = none) (horderly : Orderly first s) :
    MapKept first s.step.pending s.step.cpu.machine := by
  rw [step_of_handles hpolls hrestores]
  exact h.handles hfirst (Cpu.handles_step hpolls hrestores) horderly.2.2

theorem stepOverIrq_places (m : Machine) :
    m.stepOverIrq.arrivals = m.arrivals ∧
      m.stepOverIrq.dbSinglestepPc = m.dbSinglestepPc ∧
      m.stepOverIrq.pc = m.pc := by
  unfold Machine.stepOverIrq
  split_ifs <;> exact ⟨rfl, rfl, rfl⟩

/-- The look for interrupts in the middle of a single step. -/
theorem MapKept.step_polls (h : MapKept first s.pending s.cpu.machine)
    (hfirst : first.NoReset) (hpolls : s.cpu.polls)
    (horderly : Orderly first s) :
    MapKept first s.step.pending s.step.cpu.machine := by
  obtain ⟨hagain, -, hrequests⟩ := horderly
  obtain ⟨hphase, hnone, hsingle⟩ := id hpolls
  have hmachine : s.cpu.step.machine =
      s.cpu.machine.markSinglestep.checkIrq.2.stepOverIrq := by
    rw [Cpu.step_of_not_started hphase (by simpa using hnone)]
    simp only [pollIrq, if_pos hsingle]
  obtain ⟨hover, hoverPlace, hoverPc⟩ :=
    stepOverIrq_places s.cpu.machine.markSinglestep.checkIrq.2
  rw [hmachine, hoverPc] at hagain
  have huser : userMap first s.cpu.step.machine =
      userMap first s.cpu.machine.markSinglestep.checkIrq.2 := by
    rw [hmachine]
    exact userMap_congr hover
  rw [huser] at hrequests
  have hmarked := h.markSinglestep fun hne => by
    apply h.plain
    intro hpending
    rcases hagain hpolls hpending with hown | ⟨heq, -⟩
    · exact hown
    · exact absurd heq.symm hne
  obtain ⟨_, -, -, hpc, -⟩ := handles_checkIrq s.cpu.machine.markSinglestep
    (noReset_of_suffix hfirst hmarked.arrivals)
  have hmark : s.cpu.machine.markSinglestep.dbSinglestepPc =
      s.cpu.machine.pc := rfl
  have hpolled := hmarked.handles hfirst (handles_checkIrq _) fun hsame => by
    obtain ⟨hpending, heq⟩ := of_decide_eq_true hsame
    rw [hmark, heq]
    exact hrequests hpending
  have hstepped := hpolled.stepOverIrq fun hmoved => by
    apply hpolled.plain
    intro hsame
    obtain ⟨hpending, heq⟩ := of_decide_eq_true hsame
    rw [hpc, hmark, heq, hrequests hpending]
    rcases hagain hpolls hpending with hown | ⟨-, hstays⟩
    · exact hown
    · rw [hpc, hmark, hstays] at hmoved
      exact absurd rfl hmoved
  have hpending : s.step.pending =
      decide (s.cpu.machine.markSinglestep.checkIrq.2.dbSinglestepPc ≠
          s.cpu.machine.markSinglestep.checkIrq.2.pc ∨
        decide (s.pending ∧
          s.cpu.machine.pc = s.cpu.machine.dbSinglestepPc) = true) := by
    simp only [step, if_pos hpolls, hmachine, hoverPlace, hoverPc, hpc, hmark]
    simp
  rw [hpending]
  show MapKept first _ s.cpu.step.machine
  rw [hmachine]
  exact hstepped

/-- The trap at the place of a pending step. -/
theorem MapKept.step_restores (h : MapKept first s.pending s.cpu.machine)
    (hfirst : first.NoReset) {m : Machine}
    (hrestores : s.cpu.restores = some m) (horderly : Orderly first s) :
    MapKept first s.step.pending s.step.cpu.machine := by
  have hpolls : ¬ s.cpu.polls := by
    rintro ⟨-, hnone, -⟩
    rw [Cpu.restores_of_started (by simpa using hnone)] at hrestores
    cases hrestores
  have hwas : s.pending = true := horderly.2.1 (by simp [hrestores])
  have hpending : s.step.pending = false := by
    simp [step, if_neg hpolls, hrestores]
  have hrequests := horderly.2.2 hwas
  rw [hwas] at h
  obtain ⟨m₀, hstart, hexecute, hplace⟩ := Cpu.restores_eq_some hrestores
  obtain ⟨hfetch, hpc⟩ := Cpu.handles_started hstart
  have hrun := hfetch.trans (handles_executeInstruction m₀)
  rw [hexecute] at hrun
  have hmachine : s.step.cpu.machine =
      (Cpu.halt m₀.pc (m.atLabel m.dbSinglestepPc .trap)).machine := by
    rw [hplace, ← hpc]
    simp only [step, Cpu.step_of_started hstart, Cpu.execute, hexecute]
  have huser : userMap first s.step.cpu.machine = userMap first m := by
    rw [hmachine]
    apply userMap_congr
    rw [Cpu.halt_arrivals, atLabel_arrivals]
  change userMap first s.step.cpu.machine _ = _ at hrequests
  rw [huser] at hrequests
  have hput := (h.handles hfirst hrun fun _ => hrequests).restored.handles
    hfirst (Cpu.handles_halt m₀.pc _) (by simp)
  rw [hpending, hmachine]
  exact hput

theorem MapKept.step (h : MapKept first s.pending s.cpu.machine)
    (hfirst : first.NoReset) (horderly : Orderly first s) :
    MapKept first s.step.pending s.step.cpu.machine := by
  cases hrestores : s.cpu.restores with
  | some m => exact h.step_restores hfirst hrestores horderly
  | none =>
      by_cases hpolls : s.cpu.polls
      · exact h.step_polls hfirst hpolls horderly
      · exact h.step_other hfirst hpolls hrestores horderly

/-- Between power-on and the first step the map is the user's. -/
theorem mapKept_start (rom : ℕ → Option Byte) (input : List (Option Byte))
    (arrivals : List (List Command)) (hostTimes : List (BitVec 64))
    (hfirst : (powerOn rom input arrivals hostTimes).NoReset) :
    MapKept (powerOn rom input arrivals hostTimes) false
      (Cpu.start (powerOn rom input arrivals hostTimes)).machine := by
  have hpower : MapKept (powerOn rom input arrivals hostTimes) false
      (powerOn rom input arrivals hostTimes) := by
    refine ⟨List.suffix_refl _, Or.inl ?_, by simp⟩
    unfold userMap
    rw [Nat.sub_self]
    rfl
  refine hpower.handles hfirst ?_ (by simp)
  have hfresh : Handles (powerOn rom input arrivals hostTimes)
      { powerOn rom input arrivals hostTimes with dbSinglestepPc := 0xffff } :=
    Handles.of_same rfl rfl rfl rfl
  exact hfresh.trans (handles_doReset _)

theorem run_succ (m : Machine) (n : ℕ) : run m (n + 1) = (run m n).step :=
  Function.iterate_succ_apply' step n (start m)

theorem run_mapKept {rom : ℕ → Option Byte} {input : List (Option Byte)}
    {arrivals : List (List Command)} {hostTimes : List (BitVec 64)}
    (hfirst : (powerOn rom input arrivals hostTimes).NoReset) (n : ℕ)
    (horderly : ∀ k < n, Orderly (powerOn rom input arrivals hostTimes)
      (run (powerOn rom input arrivals hostTimes) k)) :
    MapKept (powerOn rom input arrivals hostTimes)
      (run (powerOn rom input arrivals hostTimes) n).pending
      (run (powerOn rom input arrivals hostTimes) n).cpu.machine := by
  induction n with
  | zero => exact mapKept_start rom input arrivals hostTimes hfirst
  | succ n ih =>
      rw [run_succ]
      apply (ih fun k hk => horderly k (by omega)).step hfirst
      exact horderly n (by omega)

/-- In a run whose single steps do not disturb each other the memory map is
the user's, but for the breakpoint of a pending step. -/
theorem memtype_intact (rom : ℕ → Option Byte) (input : List (Option Byte))
    (arrivals : List (List Command)) (hostTimes : List (BitVec 64))
    (hfirst : (powerOn rom input arrivals hostTimes).NoReset) (n : ℕ)
    (horderly : ∀ k < n, Orderly (powerOn rom input arrivals hostTimes)
      (run (powerOn rom input arrivals hostTimes) k)) :
    ∀ k ≤ n, Intact (powerOn rom input arrivals hostTimes)
      (run (powerOn rom input arrivals hostTimes) k) := by
  intro k hk
  have hkept := run_mapKept hfirst k fun j hj => horderly j (by omega)
  exact hkept.memtype

/-- The guest enables the run button's interrupt and stops with a TRAP; its
handler returns at once. -/
def steppedRom : ℕ → Option Byte := fun addr =>
  ([0x00, 0x10, 0, 0, 0, 0, 0, 0, 0x00, 0x22, 0, 0, 0, 0, 0, 0,
    0xf8, 0x01, 0x38, 0xc7, 0x79, 0x07, 0xff, 0x7e, 0x06, 0x7f, 0x57,
    0x00, 0x00, 0x00, 0x00, 0x00, 0x40, 0xfe, 0x56, 0x70] :
      List Byte)[addr]?

/-- The button is pressed when the debugger steps. -/
theorem memtype_intact_overButton :
    (run (powerOn steppedRom [] [[.button .run true, .resume true none],
      [.setTrap 0x1e .breakpoint, .resume false none]] []) 18).pending =
        true ∧
    ∀ k ≤ 27, Intact
      (powerOn steppedRom [] [[.button .run true, .resume true none],
        [.setTrap 0x1e .breakpoint, .resume false none]] [])
      (run (powerOn steppedRom [] [[.button .run true, .resume true none],
        [.setTrap 0x1e .breakpoint, .resume false none]] []) k) := by
  refine ⟨by decide +kernel, memtype_intact _ _ _ _ ?_ 27 ?_⟩
  · intro commands hcommands command hcommand
    fin_cases hcommands <;> fin_cases hcommand <;> simp
  · decide +kernel

/-- The guest starts with a TRAP. -/
def trapRom : ℕ → Option Byte := fun addr =>
  ([0x00, 0x10, 0, 0, 0, 0, 0, 0, 0, 0, 0, 0, 0, 0, 0, 0, 0x57, 0x00] :
      List Byte)[addr]?

/-- No interrupt comes, and the later trap at the place of the step puts back
a byte that was never kept: the debugger's own breakpoint is gone. -/
theorem memtype_not_intact :
    ¬ ∀ n,
      (run (powerOn trapRom [] [[.resume true none],
        [.setTrap 0x12 .breakpoint, .resume false none]] [])
          n).cpu.phase = .stopped →
      Intact
        (powerOn trapRom [] [[.resume true none],
          [.setTrap 0x12 .breakpoint, .resume false none]] [])
        (run (powerOn trapRom [] [[.resume true none],
          [.setTrap 0x12 .breakpoint, .resume false none]] []) n) := by
  intro hintact
  rcases hintact 10 (by decide +kernel) with hplain | ⟨hpending, -⟩
  · exact absurd (congrFun hplain 0x12) (by decide +kernel)
  · exact absurd hpending (by decide +kernel)

end Stepping

end BrickEmu
