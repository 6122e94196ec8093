import BrickEmu.ProfilerLedger
import BrickEmu.TrapAtomicity
import BrickEmu.WordAccess

/-!
# Calls and interrupts nest

A call pushes the return address, an interrupt the return address and the
flags; both open a frame of the profiler.  When the code in between leaves the
pushed words alone and the stack pointer is back, the return finds them again
and closes the same frame.  In between there may be calls and interrupts of
the same kind, to any depth.
-/

namespace BrickEmu

open Program

section ProfilerFrames

/-- The current thread is in the table of threads. -/
def Frames.Registered (frames : Frames) : Prop :=
  ∀ id, frames.current = some id → hashGet frames.threads 0 = some id

/-- The functions and the frame pointers on the stack of a thread. -/
def ThreadInfo.marks (thread : ThreadInfo) : List (Word × Word) :=
  thread.frames.map fun frame => (frame.pc, frame.fp)

/-- The same thread runs, with the same frames. -/
structure Frames.SameStack (frames frames' : Frames) : Prop where
  current : frames'.current = frames.current
  threads : frames'.threads = frames.threads
  marks : ∀ id, frames.current = some id →
    (frames'.heap id).marks = (frames.heap id).marks

variable {frames frames' frames₁ frames₂ : Frames}

namespace Frames.SameStack

theorem refl (frames : Frames) : frames.SameStack frames :=
  ⟨rfl, rfl, fun _ _ => rfl⟩

theorem trans (h : frames.SameStack frames₁) (h' : frames₁.SameStack frames₂) :
    frames.SameStack frames₂ where
  current := h'.current.trans h.current
  threads := h'.threads.trans h.threads
  marks id hid :=
    (h'.marks id (h.current.trans hid)).trans (h.marks id hid)

theorem registered (h : frames.SameStack frames')
    (hregistered : frames.Registered) : frames'.Registered := by
  intro id hid
  rw [h.threads]
  exact hregistered id (h.current.symm.trans hid)

end Frames.SameStack

theorem createProfile_sameStack (frames : Frames) (entry : Word) :
    frames.SameStack (frames.createProfile entry) := by
  unfold Frames.createProfile
  split
  · exact .refl frames
  · exact ⟨rfl, rfl, fun _ _ => rfl⟩

/-- `frame_begin` on the frames of the current thread. -/
theorem frameBegin_marks {id : ℕ} (hregistered : frames.Registered)
    (hid : frames.current = some id) (cycles : CycleCount) (pc fp : Word)
    (inIrq : Bool) :
    let frames' := frameBegin cycles pc fp inIrq frames
    frames'.current = frames.current ∧ frames'.threads = frames.threads ∧
      (frames'.heap id).marks =
        (pc ||| (if inIrq then 1 else 0), fp) :: (frames.heap id).marks := by
  obtain ⟨thread, started, hbegin, -, hreplaced, htop, hbelow, -⟩ :=
    @Profiled.frameBegin_eq frames id cycles pc fp inIrq hid
      (hregistered id hid)
  have hsame := createProfile_sameStack started (frames.heap id).top.entry
  have hcurrent : started.current = some id := hreplaced.current.trans hid
  have hthread : started.heap id = thread := by
    rw [hreplaced.heap, Function.update_self]
  simp only [hbegin]
  refine ⟨hsame.current.trans hreplaced.current,
    hsame.threads.trans hreplaced.threads, ?_⟩
  rw [hsame.marks id hcurrent, hthread, ThreadInfo.marks, ThreadInfo.frames,
    htop, hbelow]
  rfl

theorem frameBegin_registered (hregistered : frames.Registered)
    (cycles : CycleCount) (pc fp : Word) (inIrq : Bool) :
    (frameBegin cycles pc fp inIrq frames).Registered := by
  cases hid : frames.current with
  | none =>
      have hbegin : frameBegin cycles pc fp inIrq frames = frames := by
        simp only [frameBegin, hid]
      rw [hbegin]
      exact hregistered
  | some id =>
      obtain ⟨hcurrent, hthreads, -⟩ :=
        frameBegin_marks hregistered hid cycles pc fp inIrq
      intro other hother
      rw [hthreads]
      exact hregistered other (hcurrent.symm.trans hother)

/-- `frame_end` on the frame that has the frame pointer. -/
theorem frameEnd_marks {id : ℕ} {mark : Word × Word}
    {rest : List (Word × Word)} {fp : Word} (hid : frames.current = some id)
    (hmarks : (frames.heap id).marks = mark :: rest) (hfp : mark.2 = fp)
    (hrest : rest ≠ []) (cycles : CycleCount) (memory : ℕ → Byte) :
    let frames' := frameEnd cycles memory fp frames
    frames'.current = frames.current ∧ frames'.threads = frames.threads ∧
      (frames'.heap id).marks = rest := by
  have hreplaced := @Profiled.replaced_frameEnd frames id cycles memory fp hid
  obtain ⟨hmark, hbelow⟩ := List.cons.inj hmarks
  have htop : (frames.heap id).top.fp = fp := by
    rw [← hfp, ← hmark]
  have hnonempty : (frames.heap id).below ≠ [] := by
    rintro hnil
    rw [hnil] at hbelow
    exact hrest hbelow.symm
  have hstop : ¬ ((frames.heap id).top.fp ≠ 0 ∧
      (frames.heap id).top.fp < fp) := by
    rintro ⟨-, hlt⟩
    rw [htop] at hlt
    exact BitVec.lt_irrefl fp hlt
  have hunwound := @Profiled.unwound_of_not_lt cycles memory fp
    (frames.heap id) hnonempty hstop
  refine ⟨hreplaced.current, hreplaced.threads, ?_⟩
  rw [hreplaced.heap, Function.update_self, hunwound, ← hbelow]
  obtain ⟨parent, below, hparent⟩ := List.exists_cons_of_ne_nil hnonempty
  rw [ThreadInfo.returnTop, hparent]
  simp only [ThreadInfo.marks, ThreadInfo.frames, List.map_cons,
    FrameInfo.afterReturn]
  split_ifs <;> rfl

/-- A frame that is begun and ended with the same frame pointer. -/
theorem sameStack_activation {cycles cycles' : CycleCount} {pc fp : Word}
    {inIrq : Bool} {memory : ℕ → Byte} (hregistered : frames.Registered)
    (hbody : (frameBegin cycles pc fp inIrq frames).SameStack frames₁) :
    frames.SameStack (frameEnd cycles' memory fp frames₁) := by
  cases hid : frames.current with
  | none =>
      have hbegin : frameBegin cycles pc fp inIrq frames = frames := by
        simp only [frameBegin, hid]
      rw [hbegin] at hbody
      have hend : frameEnd cycles' memory fp frames₁ = frames₁ := by
        simp only [frameEnd, hbody.current.trans hid]
      rw [hend]
      exact hbody
  | some id =>
      obtain ⟨hcurrent, hthreads, hmarks⟩ :=
        frameBegin_marks hregistered hid cycles pc fp inIrq
      have hid₁ : frames₁.current = some id :=
        (hbody.current.trans hcurrent).trans hid
      have hmarks₁ := (hbody.marks id (hcurrent.trans hid)).trans hmarks
      obtain ⟨hcurrent', hthreads', hmarks'⟩ := frameEnd_marks hid₁ hmarks₁ rfl
        (List.cons_ne_nil _ _) cycles' memory
      refine ⟨hcurrent'.trans (hid₁.trans hid.symm),
        hthreads'.trans (hbody.threads.trans hthreads), ?_⟩
      intro id' hid'
      obtain rfl : id = id' := Option.some.inj (hid.symm.trans hid')
      exact hmarks'

end ProfilerFrames

/-- What is left on the stack by a call or an interrupt. -/
inductive Entry where
  | call
  | interrupt
  deriving DecidableEq

namespace Entry

/-- The room on the stack. -/
def depth : Entry → Word
  | call => 2
  | interrupt => 4

/-- Where the return address is, which is the frame pointer of the profiler:
the flags lie below it. -/
def link (entry : Entry) (sp : Word) : Word :=
  match entry with
  | call => sp
  | interrupt => sp + 2

def words (entry : Entry) (sp : Word) : List Word :=
  match entry with
  | call => [sp]
  | interrupt => [sp, sp + 2]

theorem link_mem_words (entry : Entry) (sp : Word) :
    entry.link sp ∈ entry.words sp := by
  cases entry with
  | call => exact List.mem_cons_self
  | interrupt => exact List.mem_cons_of_mem _ List.mem_cons_self

/-- The bytes of the pushed words. -/
def Bytes (entry : Entry) (sp : Word) (addr : ℕ) : Prop :=
  ∃ word ∈ entry.words sp, addr = word.toNat ∨ addr = word.toNat + 1

end Entry

namespace Machine

variable {m m' m₁ m₂ m₃ : Machine} {entry : Entry} {sp : Word}

/-- An even address of a word in plain memory. -/
structure PlainWord (m : Machine) (addr : Word) : Prop where
  even : addr &&& 1 = 0
  plain : m.isDiv addr.toNat = false
  high : Port.ofAddr addr.toNat = none
  low : Port.ofAddr (addr.toNat + 1) = none

/-- The stack has room in plain memory. -/
def PlainStack (entry : Entry) (m : Machine) : Prop :=
  ∀ word ∈ entry.words (m.reg16 7 - entry.depth), m.PlainWord word

/-- The machine behind the entry, with the return address on the stack. -/
structure Entered (entry : Entry) (back : Word) (m m' : Machine) : Prop where
  reg : m'.reg = (m.setReg16 7 (m.reg16 7 - entry.depth)).reg
  memtype : m'.memtype = m.memtype
  frames : ∃ cycles pc, m'.frames =
    frameBegin cycles pc (entry.link (m.reg16 7 - entry.depth))
      (entry = .interrupt) m.frames
  back : m'.peekWord (entry.link (m.reg16 7 - entry.depth)).toNat = back
  flags : entry = .interrupt →
    m'.memory (m.reg16 7 - entry.depth).toNat = m.ccr
  memory : ∀ addr, Port.ofAddr addr = none →
    ¬entry.Bytes (m.reg16 7 - entry.depth) addr →
      m'.memory addr = m.memory addr

/-- The machine behind the return. -/
structure Left (entry : Entry) (m m' : Machine) : Prop where
  reg : m'.reg = (m.setReg16 7 (m.reg16 7 + entry.depth)).reg
  ccr : m'.ccr = if entry = .interrupt then m.memory (m.reg16 7).toNat
    else m.ccr
  pc : m'.pc = m.peekWord (entry.link (m.reg16 7)).toNat
  memtype : m'.memtype = m.memtype
  frames : ∃ cycles memory, m'.frames =
    frameEnd cycles memory (entry.link (m.reg16 7)) m.frames
  memory : ∀ addr, Port.ofAddr addr = none → m'.memory addr = m.memory addr

section Steps

/-- Nothing but time, the program counter and the registers of the
peripherals has changed. -/
abbrev Quiet : Machine → Machine → Prop :=
  Intact ⟨False, False, fun _ => False⟩

theorem AccessEffect.frames_eq (h : AccessEffect m m') :
    m'.frames = m.frames := by
  obtain ⟨_, _, _, _, _, _, _, _, _, rfl⟩ := h
  rfl

theorem Intact.reg16_eq {e : Excused} (h : Intact e m m') :
    m'.reg16 = m.reg16 := by
  unfold reg16
  rw [h.reg]

theorem Intact.isDiv_eq {e : Excused} (h : Intact e m m') (addr : ℕ) :
    m'.isDiv addr = m.isDiv addr := by
  unfold isDiv
  rw [h.memtype]

theorem Intact.plainWord {e : Excused} (h : Intact e m m') {addr : Word}
    (hplain : m.PlainWord addr) : m'.PlainWord addr :=
  ⟨hplain.even, (h.isDiv_eq addr.toNat).trans hplain.plain, hplain.high,
    hplain.low⟩

theorem Intact.plainStack {e : Excused} (h : Intact e m m')
    (hplain : PlainStack entry m) : PlainStack entry m' := by
  intro word hword
  rw [h.reg16_eq] at hword
  exact h.plainWord (hplain word hword)

theorem PlainWord.peekWord_congr (h : m.PlainWord sp)
    (hmemory : ∀ addr, Port.ofAddr addr = none →
      m₂.memory addr = m₁.memory addr) :
    m₂.peekWord sp.toNat = m₁.peekWord sp.toNat := by
  unfold peekWord
  rw [hmemory _ h.high, hmemory _ h.low]

theorem setReg16_congr (h : m'.reg = m.reg) (nr : BitVec 3) (val : Word) :
    (m'.setReg16 nr val).reg = (m.setReg16 nr val).reg := by
  simp only [setReg16, setReg, h]

/-- Quiet steps in front of an entry. -/
theorem Entered.of_quiet {back : Word} (hentered : Entered entry back m' m₁)
    (h : Quiet m m') : Entered entry back m m₁ where
  reg := by
    rw [hentered.reg, h.reg16_eq]
    exact setReg16_congr h.reg 7 _
  memtype := hentered.memtype.trans h.memtype
  frames := by
    obtain ⟨cycles, pc, hframes⟩ := hentered.frames
    rw [h.reg16_eq, h.frames not_false] at hframes
    exact ⟨cycles, pc, hframes⟩
  back := by
    rw [← h.reg16_eq]
    exact hentered.back
  flags hinterrupt := by
    rw [← h.reg16_eq, ← h.ccr not_false]
    exact hentered.flags hinterrupt
  memory addr hport hbytes := by
    rw [← h.reg16_eq] at hbytes
    exact (hentered.memory addr hport hbytes).trans
      (h.memory addr hport not_false)

/-- Quiet steps in front of a return. -/
theorem Left.of_quiet (hleft : Left entry m' m₁) (h : Quiet m m')
    (hplain : ∀ word ∈ entry.words (m.reg16 7), m.PlainWord word) :
    Left entry m m₁ where
  reg := by
    rw [hleft.reg, h.reg16_eq]
    exact setReg16_congr h.reg 7 _
  ccr := by
    rw [hleft.ccr, h.reg16_eq, h.ccr not_false]
    cases entry with
    | call => rfl
    | interrupt =>
        have hflags := hplain (m.reg16 7) List.mem_cons_self
        exact h.memory _ hflags.high not_false
  pc := by
    rw [hleft.pc, h.reg16_eq]
    exact (hplain _ (entry.link_mem_words _)).peekWord_congr fun addr hport =>
      h.memory addr hport not_false
  memtype := hleft.memtype.trans h.memtype
  frames := by
    obtain ⟨cycles, memory, hframes⟩ := hleft.frames
    rw [h.reg16_eq, h.frames not_false] at hframes
    exact ⟨cycles, memory, hframes⟩
  memory addr hport :=
    (hleft.memory addr hport).trans (h.memory addr hport not_false)

/-- A word stored in plain memory. -/
theorem PlainWord.peekWord_setWordCycles (h : m.PlainWord sp) (val : Word) :
    (m.setWordCycles sp val).peekWord sp.toNat = val := by
  rw [peekWord, setWordCycles, setWord_memory_plain (by exact h.plain),
    setWord_memory_plain (by exact h.plain),
    if_neg (Nat.ne_of_lt (Nat.lt_succ_self _)), if_pos rfl, if_pos rfl]
  exact highByte_append_lowByte val

theorem PlainWord.setWordCycles_memory (h : m.PlainWord sp) (val : Word)
    {addr : ℕ} (hhigh : addr ≠ sp.toNat) (hlow : addr ≠ sp.toNat + 1) :
    (m.setWordCycles sp val).memory addr = m.memory addr := by
  rw [setWordCycles, setWord_memory_plain (by exact h.plain), if_neg hlow,
    if_neg hhigh]
  rfl

end Steps

section Programs

variable {α : Type}

theorem endsWith_quiet {p : Exec α} (h : Keeps Quiet p) (m : Machine) :
    EndsWith (fun _ m' => Quiet m m') p m := by
  intro a m' hrun
  have hkept := h m
  rw [hrun] at hkept
  exact hkept

theorem endsWith_writeWord (addr val : Word) (m : Machine) :
    EndsWith (fun _ m' => m' = m.setWordCycles addr val)
      (writeWord addr val) m := by
  apply endsWith_leaveIf_bind
  intro _
  exact endsWith_change rfl

/-- A word read from plain memory. -/
theorem endsWith_readWord {addr : Word} (h : m.PlainWord addr) :
    EndsWith (fun val m' => val = m.peekWord addr.toNat ∧ Quiet m m')
      (readWord addr) m := by
  have hget : m.getWordCycles addr =
      (m.peekWord addr.toNat, m.addCycles (m.wordCycles addr)) := by
    have hplain : ¬m.isDiv addr.toNat = true := by
      rw [h.plain]
      exact Bool.false_ne_true
    exact if_pos ⟨h.even, hplain⟩
  have hquiet : Quiet m (m.getWordCycles addr).2 := intact_getWordCycles addr m
  apply endsWith_act_bind
  rw [hget] at hquiet ⊢
  apply endsWith_leaveIf_bind
  intro _
  exact endsWith_pure ⟨rfl, hquiet⟩

/-- Behind the opcode. -/
theorem endsWith_getOpcode (m : Machine) :
    EndsWith (fun opc m' => opc = (m.getWordCycles m.pc).1 ∧ Quiet m m' ∧
      m'.pc = m.pc + 2) getOpcode m := by
  have hpc : (m.getWordCycles m.pc).2.pc = m.pc :=
    (getWordCycles_effect m.pc m).pc_eq
  have hquiet : Quiet m (m.getWordCycles m.pc).2 := intact_getWordCycles m.pc m
  apply endsWith_leaveIf_bind
  intro _
  apply endsWith_act_bind
  apply endsWith_change_bind
  refine endsWith_pure ⟨rfl, ?_, ?_⟩
  · exact hquiet.trans _ _ _ (quiet_setPc (fun m => m.pc + 2) _)
  · change (m.getWordCycles m.pc).2.pc + 2 = m.pc + 2
    rw [hpc]

theorem endsWith_prefetch (m : Machine) :
    EndsWith (fun _ m' => Quiet m m' ∧ m'.pc = m.pc) prefetch m := by
  intro opc m' hrun
  refine ⟨endsWith_quiet quiet_prefetch m opc m' hrun, ?_⟩
  cases hrun
  exact (getWordCycles_effect m.pc m).pc_eq

theorem endsWith_nextWord (m : Machine) :
    EndsWith (fun _ m' => Quiet m m' ∧ m'.pc = m.pc + 2) nextWord m := by
  intro opc m' hrun
  refine ⟨endsWith_quiet quiet_nextWord m opc m' hrun, ?_⟩
  cases hrun
  change (m.getWordCycles m.pc).2.pc + 2 = m.pc + 2
  rw [(getWordCycles_effect m.pc m).pc_eq]

theorem PlainStack.word (h : PlainStack .call m) :
    m.PlainWord (m.reg16 7 - 2) :=
  h _ List.mem_cons_self

/-- The call pushes what the program counter shows. -/
theorem endsWith_call {target : Exec Word} (h : PlainStack .call m)
    (htarget : Keeps Quiet target) :
    EndsWith (fun _ m' => Entered .call m.pc m m') (call target) m := by
  have hword := h.word
  unfold call
  refine endsWith_gets_bind (endsWith_gets_bind ?_)
  generalize hsp : m.reg16 7 - 2 = sp at hword ⊢
  refine (endsWith_writeWord sp m.pc m).bind ?_
  rintro _ _ rfl
  refine (endsWith_quiet htarget _).bind ?_
  intro pc m' hquiet
  refine endsWith_change_bind (endsWith_leaveIf_bind ?_)
  intro _
  refine endsWith_change_bind (endsWith_change ?_)
  have hstored := setWordCycles_effect hword.plain m.pc
  constructor
  · change (m'.setReg16 7 sp).reg = (m.setReg16 7 (m.reg16 7 - 2)).reg
    rw [hsp]
    exact setReg16_congr (hquiet.reg.trans hstored.reg_eq) 7 sp
  · exact hquiet.memtype.trans hstored.memtype_eq
  · refine ⟨BitVec.ofNat 64 m'.cycles, pc, ?_⟩
    change frameBegin _ pc sp false m'.frames =
      frameBegin _ pc (m.reg16 7 - 2) false m.frames
    rw [hsp, hquiet.frames not_false, hstored.frames_eq]
    rfl
  · change m'.peekWord (m.reg16 7 - 2).toNat = m.pc
    rw [hsp, ← hword.peekWord_setWordCycles m.pc]
    exact hword.peekWord_congr fun addr hport =>
      hquiet.memory addr hport not_false
  · intro hinterrupt
    cases hinterrupt
  · intro addr hport hbytes
    have hother : ¬(addr = sp.toNat ∨ addr = sp.toNat + 1) := by
      intro haddr
      exact hbytes ⟨m.reg16 7 - 2, List.mem_cons_self, hsp ▸ haddr⟩
    obtain ⟨hhigh, hlow⟩ := not_or.mp hother
    exact (hquiet.memory addr hport not_false).trans
      (hword.setWordCycles_memory m.pc hhigh hlow)

/-- The word behind the opcode is skipped by the call to an absolute address
only. -/
theorem endsWith_callBody (opc : Word) {mnemonic : Mnemonic}
    (hcall : mnemonic.isCall) (h : PlainStack .call m) :
    EndsWith (fun _ m' => Entered .call
      (if mnemonic = .jsrA16 then m.pc + 2 else m.pc) m m')
        (mnemonic.body opc) m := by
  have hcases : mnemonic = .bSr ∨ mnemonic = .jsrRI ∨ mnemonic = .jsrA16 ∨
      mnemonic = .jsrAA8 := by
    simpa [Mnemonic.isCall] using hcall
  have hshort {target : Exec Word} (htarget : Keeps Quiet target)
      {m' : Machine} (hquiet : Quiet m m') (hpc : m'.pc = m.pc) :
      EndsWith (fun _ m' => Entered .call m.pc m m')
        (prefetch >>= fun _ => call target) m' := by
    refine (endsWith_prefetch m').bind ?_
    rintro _ m'' ⟨hquiet', hpc'⟩
    have hboth := hquiet.trans _ _ _ hquiet'
    refine (endsWith_call (hboth.plainStack h) htarget).mono ?_
    intro _ _ hentered
    rw [hpc', hpc] at hentered
    exact hentered.of_quiet hboth
  rcases hcases with rfl | rfl | rfl | rfl
  · exact hshort (quiet_gets _) (Intact.refl m) rfl
  · refine endsWith_leaveIf_bind fun _ => ?_
    exact hshort (quiet_gets _) (Intact.refl m) rfl
  · refine endsWith_leaveIf_bind fun _ => ?_
    refine (endsWith_nextWord m).bind ?_
    rintro addr m' ⟨hquiet, hpc⟩
    refine endsWith_change_bind ?_
    have hboth := hquiet.trans _ _ _ (quiet_spend 2 m')
    refine (endsWith_call (hboth.plainStack h) (quiet_pure addr)).mono ?_
    intro _ _ hentered
    have hback : (spend 2 m').2.pc = m.pc + 2 := hpc
    rw [hback] at hentered
    exact hentered.of_quiet hboth
  · exact hshort (quiet_readWord _) (Intact.refl m) rfl

/-- A return up to its jump: the frame is closed, the flags are loaded. -/
structure Unwound (entry : Entry) (m m' : Machine) : Prop where
  reg : m'.reg = m.reg
  ccr : m'.ccr = if entry = .interrupt then m.memory (m.reg16 7).toNat
    else m.ccr
  memtype : m'.memtype = m.memtype
  frames : ∃ cycles memory, m'.frames =
    frameEnd cycles memory (entry.link (m.reg16 7)) m.frames
  memory : ∀ addr, Port.ofAddr addr = none → m'.memory addr = m.memory addr

/-- The end of a return. -/
theorem endsWith_leave (h : Unwound entry m m')
    (hplain : m.PlainWord (entry.link (m.reg16 7))) :
    EndsWith (fun _ m'' => Left entry m m'')
      (readWord (entry.link (m.reg16 7)) >>= fun pc =>
        change (Machine.setPc pc) >>= fun _ => checkPc >>= fun _ =>
          change fun m'' => m''.setReg16 7 (m.reg16 7 + entry.depth) :
            Exec Unit) m' := by
  have hplain' : m'.PlainWord (entry.link (m.reg16 7)) := by
    refine ⟨hplain.even, ?_, hplain.high, hplain.low⟩
    rw [isDiv, h.memtype]
    exact hplain.plain
  refine (endsWith_readWord hplain').bind ?_
  rintro pc m₁ ⟨rfl, hquiet⟩
  refine endsWith_change_bind (endsWith_leaveIf_bind fun _ => ?_)
  refine endsWith_change ?_
  constructor
  · exact setReg16_congr (hquiet.reg.trans h.reg) 7 _
  · exact (hquiet.ccr not_false).trans h.ccr
  · exact hplain.peekWord_congr h.memory
  · exact hquiet.memtype.trans h.memtype
  · obtain ⟨cycles, memory, hframes⟩ := h.frames
    exact ⟨cycles, memory, (hquiet.frames not_false).trans hframes⟩
  · intro addr hport
    exact (hquiet.memory addr hport not_false).trans (h.memory addr hport)

theorem endsWith_rtS (h : m.PlainWord (m.reg16 7)) :
    EndsWith (fun _ m' => Left .call m m') Instr.rtS m := by
  unfold Instr.rtS
  refine (endsWith_prefetch m).bind ?_
  rintro _ m₁ ⟨hquiet, -⟩
  refine endsWith_change_bind (endsWith_gets_bind (endsWith_change_bind ?_))
  have hsp : (m₁.addCycles 2).reg16 7 = m.reg16 7 :=
    congrFun hquiet.reg16_eq 7
  have hframes : m₁.frames = m.frames := hquiet.frames not_false
  rw [hsp]
  refine endsWith_leave (?_ : Unwound .call m _) h
  refine ⟨hquiet.reg, hquiet.ccr not_false, hquiet.memtype, ?_,
    fun addr hport => hquiet.memory addr hport not_false⟩
  rw [← hframes]
  exact ⟨_, _, rfl⟩

theorem endsWith_rtE (h : m.PlainWord (m.reg16 7))
    (h' : m.PlainWord (m.reg16 7 + 2)) :
    EndsWith (fun _ m' => Left .interrupt m m') Instr.rtE m := by
  unfold Instr.rtE
  refine (endsWith_prefetch m).bind ?_
  rintro _ m₁ ⟨hquiet, -⟩
  refine endsWith_change_bind (endsWith_gets_bind (endsWith_change_bind ?_))
  have hsp : (m₁.addCycles 2).reg16 7 = m.reg16 7 :=
    congrFun hquiet.reg16_eq 7
  have hframes : m₁.frames = m.frames := hquiet.frames not_false
  rw [hsp]
  obtain ⟨m₂, hm₂⟩ : ∃ m₂, m₂ = (m₁.addCycles 2).endFrame (m.reg16 7 + 2) :=
    ⟨_, rfl⟩
  have hword : m₂.PlainWord (m.reg16 7) := by
    have hplain := hquiet.plainWord h
    rw [hm₂]
    exact ⟨hplain.even, hplain.plain, hplain.high, hplain.low⟩
  rw [← hm₂]
  refine (endsWith_readWord hword).bind ?_
  rintro _ m₃ ⟨rfl, hread⟩
  refine endsWith_change_bind ?_
  have hmemory (addr : ℕ) (hport : Port.ofAddr addr = none) :
      m₂.memory addr = m.memory addr := by
    rw [hm₂]
    exact hquiet.memory addr hport not_false
  refine endsWith_leave (?_ : Unwound .interrupt m _) h'
  constructor
  · refine hread.reg.trans ?_
    rw [hm₂]
    exact hquiet.reg
  · exact (highByte_append _ _).trans (hmemory _ h.high)
  · refine hread.memtype.trans ?_
    rw [hm₂]
    exact hquiet.memtype
  · refine ⟨BitVec.ofNat 64 (m₁.addCycles 2).cycles, m₁.memory, ?_⟩
    refine (hread.frames not_false).trans ?_
    rw [hm₂, ← hframes]
    rfl
  · intro addr hport
    exact (hread.memory addr hport not_false).trans (hmemory addr hport)

/-- What a body does behind the fetch of the opcode, the instruction does. -/
theorem endsWith_executeInstruction {mnemonic : Mnemonic}
    {P : Machine → Prop} (hmem : mnemonic ∈ m.instruction)
    (hbody : ∀ opc m', Quiet m m' → m'.pc = m.pc + 2 →
      EndsWith (fun _ m'' => P m'') (mnemonic.body opc) m') :
    EndsWith (fun _ m'' => P m'') executeInstruction m := by
  refine (endsWith_getOpcode m).bind ?_
  rintro _ m' ⟨rfl, hquiet, hpc⟩
  have hdecode : Mnemonic.decode ((m.getWordCycles m.pc).1 >>> 8).toNat =
      some mnemonic := hmem
  rw [hdecode]
  exact (hbody _ m' hquiet hpc).bind fun _ _ h => endsWith_pure h

end Programs

section Interrupts

theorem even_toNat_mod (h : sp &&& 1 = 0) : sp.toNat % 2 = 0 := by
  have hbit : sp.toNat &&& 1 = 0 := congrArg BitVec.toNat h
  rwa [Nat.and_one_is_mod] at hbit

/-- The word behind an even address does not overlap. -/
theorem toNat_add_two_apart (h : sp &&& 1 = 0) :
    sp.toNat ≠ (sp + 2).toNat ∧ sp.toNat ≠ (sp + 2).toNat + 1 ∧
      sp.toNat + 1 ≠ (sp + 2).toNat ∧ sp.toNat + 1 ≠ (sp + 2).toNat + 1 := by
  have heven := even_toNat_mod h
  have hnext : (sp + 2).toNat = (sp.toNat + 2) % 65536 := BitVec.toNat_add ..
  have hlt := sp.isLt
  omega

theorem PlainWord.of_access (h : m.PlainWord sp) (haccess : AccessEffect m m') :
    m'.PlainWord sp :=
  ⟨h.even, (haccess.isDiv_eq sp.toNat).trans h.plain, h.high, h.low⟩

/-- The two words of an interrupt. -/
def pushTwo (sp back flags : Word) (m : Machine) : Machine :=
  (m.setWordCycles (sp + 2) back).setWordCycles sp flags

theorem pushTwo_effect (hflags : m.PlainWord sp) (hlink : m.PlainWord (sp + 2))
    (back flags : Word) : AccessEffect m (m.pushTwo sp back flags) := by
  have hfirst := setWordCycles_effect hlink.plain back
  exact hfirst.trans
    (setWordCycles_effect (hflags.of_access hfirst).plain flags)

theorem pushTwo_back (hflags : m.PlainWord sp) (hlink : m.PlainWord (sp + 2))
    (back flags : Word) :
    (m.pushTwo sp back flags).peekWord (sp + 2).toNat = back := by
  obtain ⟨h, h', hlow, hlow'⟩ := toNat_add_two_apart hflags.even
  have hsecond := hflags.of_access (setWordCycles_effect hlink.plain back)
  refine Eq.trans ?_ (hlink.peekWord_setWordCycles back)
  rw [pushTwo, peekWord, peekWord,
    hsecond.setWordCycles_memory flags h.symm hlow.symm,
    hsecond.setWordCycles_memory flags h'.symm hlow'.symm]

theorem pushTwo_flags (hflags : m.PlainWord sp) (hlink : m.PlainWord (sp + 2))
    (back : Word) (ccr : Byte) :
    (m.pushTwo sp back (ccr ++ ccr)).memory sp.toNat = ccr := by
  have hsecond := hflags.of_access (setWordCycles_effect hlink.plain back)
  have hword := hsecond.peekWord_setWordCycles (ccr ++ ccr)
  have hhigh := congrArg (BitVec.extractLsb' 8 8) hword
  rw [highByte_append] at hhigh
  exact (highByte_append _ _).symm.trans hhigh

theorem pushTwo_memory (hflags : m.PlainWord sp) (hlink : m.PlainWord (sp + 2))
    (back flags : Word) {addr : ℕ}
    (hbytes : ¬Entry.interrupt.Bytes sp addr) :
    (m.pushTwo sp back flags).memory addr = m.memory addr := by
  have hsecond := hflags.of_access (setWordCycles_effect hlink.plain back)
  have hother (word : Word) (hword : word ∈ Entry.interrupt.words sp) :
      addr ≠ word.toNat ∧ addr ≠ word.toNat + 1 :=
    not_or.mp fun haddr => hbytes ⟨word, hword, haddr⟩
  obtain ⟨hhigh, hlow⟩ := hother sp List.mem_cons_self
  obtain ⟨hhigh', hlow'⟩ :=
    hother (sp + 2) (List.mem_cons_of_mem _ List.mem_cons_self)
  exact (hsecond.setWordCycles_memory flags hhigh hlow).trans
    (hlink.setWordCycles_memory back hhigh' hlow')

/-- The handler is entered behind the push of the two words. -/
theorem entered_handler (h : PlainStack .interrupt m)
    (hsp : m.reg16 7 - 4 = sp)
    (ccr : Byte)
    (hhandler : Quiet { (m.pushTwo sp m.pc (m.ccr ++ m.ccr)).setReg16 7 sp with
      ccr := ccr } m') (pc : Word) (cycles : ℕ) :
    Entered .interrupt m.pc m
      ({ m' with pc := pc }.beginFrame cycles (sp + 2) true) := by
  have hflags : m.PlainWord sp := hsp ▸ h _ List.mem_cons_self
  have hlink : m.PlainWord (sp + 2) :=
    hsp ▸ h _ (List.mem_cons_of_mem _ List.mem_cons_self)
  have heffect := pushTwo_effect hflags hlink m.pc (m.ccr ++ m.ccr)
  have hdepth : m.reg16 7 - Entry.interrupt.depth = sp := hsp
  have hmemory (addr : ℕ) (hport : Port.ofAddr addr = none) :
      m'.memory addr = (m.pushTwo sp m.pc (m.ccr ++ m.ccr)).memory addr :=
    hhandler.memory addr hport not_false
  constructor
  · rw [hdepth]
    exact hhandler.reg.trans (setReg16_congr heffect.reg_eq 7 sp)
  · exact hhandler.memtype.trans heffect.memtype_eq
  · refine ⟨BitVec.ofNat 64 cycles, pc, ?_⟩
    have hframes : m'.frames = m.frames :=
      (hhandler.frames not_false).trans heffect.frames_eq
    rw [hdepth, ← hframes]
    rfl
  · rw [hdepth]
    exact (hlink.peekWord_congr hmemory).trans (pushTwo_back hflags hlink _ _)
  · intro _
    rw [hdepth]
    exact (hmemory _ hflags.high).trans (pushTwo_flags hflags hlink _ _)
  · intro addr hport hbytes
    rw [hdepth] at hbytes
    exact (hmemory addr hport).trans (pushTwo_memory hflags hlink _ _ hbytes)

/-- An interrupt pushes the program counter and the flags. -/
theorem entered_enterIrq (h : PlainStack .interrupt m) (vector : ℕ) :
    Entered .interrupt m.pc m (m.enterIrq vector) := by
  obtain ⟨m₁, hm₁⟩ : ∃ m₁, m₁ = (m.getWordCycles m.pc).2 := ⟨_, rfl⟩
  have hquiet : Quiet m m₁ := hm₁ ▸ intact_getWordCycles m.pc m
  have hpc : m₁.pc = m.pc := hm₁ ▸ (getWordCycles_effect m.pc m).pc_eq
  have hstack := hquiet.plainStack h
  have hlink : m₁.PlainWord (m₁.reg16 7 - 4 + 2) :=
    hstack _ (List.mem_cons_of_mem _ List.mem_cons_self)
  have hccr := (setWordCycles_effect hlink.plain m₁.pc).ccr_eq
  rw [← hpc]
  refine Entered.of_quiet ?_ hquiet
  unfold enterIrq
  dsimp only
  rw [← hm₁, hccr]
  exact entered_handler hstack rfl _ (intact_getWordCycles _ _) _ _

end Interrupts

section Nesting

/-- The instruction or interrupt that makes the entry. -/
def Enters (entry : Entry) (m m' : Machine) : Prop :=
  match entry with
  | .call => (∃ mnemonic ∈ m.instruction, mnemonic.isCall) ∧
      ∃ sleeps, executeInstruction m = (.ok sleeps, m')
  | .interrupt => ∃ vector, m' = m.enterIrq vector

/-- The return that belongs to it. -/
def Leaves (entry : Entry) (m m' : Machine) : Prop :=
  m.instruction = some (if entry = .interrupt then .rtE else .rtS) ∧
    ∃ sleeps, executeInstruction m = (.ok sleeps, m')

/-- An interrupt returns to the instruction it came before, a call to the one
behind. -/
def returnAddress (entry : Entry) (m : Machine) : Word :=
  match entry with
  | .call => if m.instruction = some .jsrA16 then m.pc + 4 else m.pc + 2
  | .interrupt => m.pc

theorem entered_of_enters (h : Enters entry m m')
    (hplain : PlainStack entry m) :
    Entered entry (m.returnAddress entry) m m' := by
  cases entry with
  | interrupt =>
      obtain ⟨vector, rfl⟩ := h
      exact entered_enterIrq hplain vector
  | call =>
      obtain ⟨⟨mnemonic, hmem, hcall⟩, sleeps, hrun⟩ := h
      apply endsWith_executeInstruction hmem _ sleeps m' hrun
      intro opc m₁ hquiet hpc
      refine (endsWith_callBody opc hcall (hquiet.plainStack hplain)).mono ?_
      intro _ m₂ hentered
      have hback : (if mnemonic = .jsrA16 then m₁.pc + 2 else m₁.pc) =
          m.returnAddress .call := by
        have hinstruction : m.instruction = some mnemonic := hmem
        have hfour : m.pc + 2 + 2 = m.pc + 4 := BitVec.add_assoc _ _ _
        rw [hpc, returnAddress, hinstruction, hfour]
        simp only [Option.some.injEq]
      rw [← hback]
      exact hentered.of_quiet hquiet

theorem left_of_leaves (h : Leaves entry m m')
    (hplain : ∀ word ∈ entry.words (m.reg16 7), m.PlainWord word) :
    Left entry m m' := by
  obtain ⟨hinstruction, sleeps, hrun⟩ := h
  apply endsWith_executeInstruction hinstruction _ sleeps m' hrun
  intro opc m₁ hquiet _
  have hwords : ∀ word ∈ entry.words (m₁.reg16 7), m₁.PlainWord word := by
    rw [hquiet.reg16_eq]
    exact fun word hword => hquiet.plainWord (hplain word hword)
  cases entry with
  | call =>
      refine (endsWith_rtS (hwords _ List.mem_cons_self)).mono ?_
      exact fun _ _ hleft => hleft.of_quiet hquiet hplain
  | interrupt =>
      refine (endsWith_rtE (hwords _ List.mem_cons_self)
        (hwords _ (List.mem_cons_of_mem _ List.mem_cons_self))).mono ?_
      exact fun _ _ hleft => hleft.of_quiet hquiet hplain

/-- What holds of the code between an entry and its return: the bytes that
are kept and their types, and the frames of the profiler. -/
structure Spares (kept : ℕ → Prop) (m m' : Machine) : Prop where
  memory : ∀ addr, kept addr → m'.memory addr = m.memory addr
  memtype : ∀ addr, kept addr → m'.memtype addr = m.memtype addr
  frames : m.frames.SameStack m'.frames

theorem Spares.refl (kept : ℕ → Prop) (m : Machine) : Spares kept m m :=
  ⟨fun _ _ => rfl, fun _ _ => rfl, .refl _⟩

theorem Spares.trans {kept : ℕ → Prop} (h : Spares kept m m')
    (h' : Spares kept m' m₁) : Spares kept m m₁ where
  memory addr haddr := (h'.memory addr haddr).trans (h.memory addr haddr)
  memtype addr haddr := (h'.memtype addr haddr).trans (h.memtype addr haddr)
  frames := h.frames.trans h'.frames

/-- The machine behind the return of an activation that began in `m` and whose
body ended in `m'`. -/
structure Resumed (entry : Entry) (m m' m'' : Machine) : Prop where
  pc : m''.pc = m.returnAddress entry
  sp : m''.reg16 7 = m.reg16 7
  ccr : m''.ccr = if entry = .interrupt then m.ccr else m'.ccr
  reg : ∀ nr, nr ≠ 0#1 ++ 7#3 → nr ≠ 1#1 ++ 7#3 → m''.reg nr = m'.reg nr
  frames : m.frames.SameStack m''.frames

/-- Calls and interrupts with their returns, and between them any steps that
leave the pushed words and the frames alone. -/
inductive Nested : (ℕ → Prop) → Machine → Machine → Prop
  | done {kept} (m) : Nested kept m m
  | step {kept m m' m''} (hstep : Spares kept m m')
      (hrest : Nested kept m' m'') : Nested kept m m''
  | activation {kept m m₁ m₂ m₃ m₄} (entry : Entry)
      (hplain : PlainStack entry m) (henters : Enters entry m m₁)
      (hkept : ∀ addr, kept addr → ¬entry.Bytes (m₁.reg16 7) addr)
      (hbody : Nested
        (fun addr => kept addr ∨ entry.Bytes (m₁.reg16 7) addr) m₁ m₂)
      (hsp : m₂.reg16 7 = m₁.reg16 7) (hleaves : Leaves entry m₂ m₃)
      (hrest : Nested kept m₃ m₄) : Nested kept m m₄

theorem Entered.reg16_eq {back : Word} (h : Entered entry back m m') :
    m'.reg16 7 = m.reg16 7 - entry.depth := by
  rw [reg16, h.reg, ← reg16, setReg16_reg16]

theorem setReg16_other (m : Machine) (val : Word) {nr : BitVec 4}
    (hhigh : nr ≠ 0#1 ++ 7#3) (hlow : nr ≠ 1#1 ++ 7#3) :
    (m.setReg16 7 val).reg nr = m.reg nr :=
  (Function.update_of_ne hlow ..).trans (Function.update_of_ne hhigh ..)

/-- The return finds what the entry has pushed. -/
theorem resumed_of_spares {kept : ℕ → Prop} (hplain : PlainStack entry m)
    (hregistered : m.frames.Registered) (henters : Enters entry m m₁)
    (hbody : Spares (fun addr => kept addr ∨ entry.Bytes (m₁.reg16 7) addr)
      m₁ m₂)
    (hsp : m₂.reg16 7 = m₁.reg16 7) (hleaves : Leaves entry m₂ m₃) :
    Left entry m₂ m₃ ∧ Resumed entry m m₂ m₃ := by
  have hentered := entered_of_enters henters hplain
  rw [hentered.reg16_eq] at hbody hsp
  generalize hsp' : m.reg16 7 - entry.depth = sp at *
  have hkept (word : Word) (hword : word ∈ entry.words sp) :
      m₂.PlainWord word ∧ m₂.memory word.toNat = m₁.memory word.toNat ∧
        m₂.peekWord word.toNat = m₁.peekWord word.toNat := by
    have hhigh : entry.Bytes sp word.toNat := ⟨word, hword, .inl rfl⟩
    have hlow : entry.Bytes sp (word.toNat + 1) := ⟨word, hword, .inr rfl⟩
    have h := hplain word (hsp' ▸ hword)
    refine ⟨⟨h.even, ?_, h.high, h.low⟩, hbody.memory _ (.inr hhigh), ?_⟩
    · rw [isDiv, hbody.memtype _ (.inr hhigh), hentered.memtype]
      exact h.plain
    · rw [peekWord, peekWord, hbody.memory _ (.inr hhigh),
        hbody.memory _ (.inr hlow)]
  have hleft := left_of_leaves hleaves
    (hsp ▸ fun word hword => (hkept word hword).1)
  have hlink := (hkept _ (entry.link_mem_words sp)).2.2
  refine ⟨hleft, ?_, ?_, ?_, ?_, ?_⟩
  · rw [hleft.pc, hsp, hlink, ← hsp']
    exact hentered.back
  · rw [reg16, hleft.reg, ← reg16, setReg16_reg16, hsp, ← hsp',
      BitVec.sub_add_cancel]
  · rw [hleft.ccr, hsp]
    cases entry with
    | call => rfl
    | interrupt =>
        have hccr : m₁.memory sp.toNat = m.ccr := hsp' ▸ hentered.flags rfl
        exact (hkept sp List.mem_cons_self).2.1.trans hccr
  · intro nr hhigh hlow
    rw [hleft.reg, setReg16_other m₂ _ hhigh hlow]
  · obtain ⟨cycles, pc, hbegin⟩ := hentered.frames
    obtain ⟨cycles', memory, hend⟩ := hleft.frames
    have hsame := hbody.frames
    rw [hbegin, hsp'] at hsame
    rw [hend, hsp]
    exact sameStack_activation hregistered hsame

/-- What is kept outside the pushed words is still there. -/
theorem spares_of_resumed {kept : ℕ → Prop} (hplain : PlainStack entry m)
    (hports : ∀ addr, kept addr → Port.ofAddr addr = none)
    (henters : Enters entry m m₁)
    (hkept : ∀ addr, kept addr → ¬entry.Bytes (m₁.reg16 7) addr)
    (hbody : Spares (fun addr => kept addr ∨ entry.Bytes (m₁.reg16 7) addr)
      m₁ m₂)
    (hleft : Left entry m₂ m₃) (hresumed : Resumed entry m m₂ m₃) :
    Spares kept m m₃ := by
  have hentered := entered_of_enters henters hplain
  refine ⟨fun addr haddr => ?_, fun addr haddr => ?_, hresumed.frames⟩
  · have houtside := hkept addr haddr
    rw [hentered.reg16_eq] at houtside
    rw [hleft.memory addr (hports addr haddr),
      hbody.memory addr (.inl haddr),
      hentered.memory addr (hports addr haddr) houtside]
  · rw [hleft.memtype, hbody.memtype addr (.inl haddr), hentered.memtype]

theorem Entered.registered {back : Word} (h : Entered entry back m m₁)
    (hregistered : m.frames.Registered) : m₁.frames.Registered := by
  obtain ⟨cycles, pc, hframes⟩ := h.frames
  rw [hframes]
  exact frameBegin_registered hregistered _ _ _ _

theorem bytes_ports (hplain : PlainStack entry m) (henters : Enters entry m m₁)
    {addr : ℕ} (haddr : entry.Bytes (m₁.reg16 7) addr) :
    Port.ofAddr addr = none := by
  rw [(entered_of_enters henters hplain).reg16_eq] at haddr
  obtain ⟨word, hword, rfl | rfl⟩ := haddr
  · exact (hplain word hword).high
  · exact (hplain word hword).low

/-- Nested activations spare what they have to keep. -/
theorem Nested.spares {kept : ℕ → Prop} (h : Nested kept m m')
    (hports : ∀ addr, kept addr → Port.ofAddr addr = none)
    (hregistered : m.frames.Registered) : Spares kept m m' := by
  induction h with
  | done m => exact .refl _ m
  | step hstep _ ih =>
      exact hstep.trans (ih hports (hstep.frames.registered hregistered))
  | @activation kept m m₁ m₂ m₃ m₄ entry hplain henters hkept _ hsp hleaves _
      ihbody ihrest =>
      have hentered := entered_of_enters henters hplain
      have hports' (addr : ℕ)
          (haddr : kept addr ∨ entry.Bytes (m₁.reg16 7) addr) :
          Port.ofAddr addr = none :=
        haddr.elim (hports addr) (bytes_ports hplain henters)
      have hbody := ihbody hports' (hentered.registered hregistered)
      obtain ⟨hleft, hresumed⟩ :=
        resumed_of_spares hplain hregistered henters hbody hsp hleaves
      exact (spares_of_resumed hplain hports henters hkept hbody hleft
        hresumed).trans
          (ihrest hports (hresumed.frames.registered hregistered))

/-- However deeply calls and interrupts are nested, every return finds its
entry. -/
theorem return_finds_entry (hplain : PlainStack entry m)
    (hregistered : m.frames.Registered) (henters : Enters entry m m₁)
    (hbody : Nested (entry.Bytes (m₁.reg16 7)) m₁ m₂)
    (hsp : m₂.reg16 7 = m₁.reg16 7) (hleaves : Leaves entry m₂ m₃) :
    Resumed entry m m₂ m₃ := by
  have hentered := entered_of_enters henters hplain
  have hspares := hbody.spares (fun _ => bytes_ports hplain henters)
    (hentered.registered hregistered)
  have hbytes : Spares
      (fun addr => False ∨ entry.Bytes (m₁.reg16 7) addr) m₁ m₂ :=
    ⟨fun addr haddr => hspares.memory addr (haddr.resolve_left not_false),
      fun addr haddr => hspares.memtype addr (haddr.resolve_left not_false),
      hspares.frames⟩
  exact (resumed_of_spares hplain hregistered henters hbytes hsp hleaves).2

/-- `BSR` to an `RTS`, and an interrupt handler that is an `RTE`. -/
def calling : Machine :=
  { Machine.powerOn (fun _ => none) [] [] [] with
    pc := 0xfe00
    reg := fun nr => if nr = 7 then 0xff else 0
    frames := frameInit.resume 0 0xfe00 0xff00
    memory := fun addr =>
      if addr = 0xfe00 then 0x55 else if addr = 0xfe01 then 0x02
      else if addr = 0xfe04 then 0x54 else if addr = 0xfe05 then 0x70
      else if addr = 0xfe06 then 0x56 else if addr = 0xfe07 then 0x70
      else if addr = 0x0008 then 0xfe else if addr = 0x0009 then 0x06
      else 0 }

/-- The interrupt comes before the called function returns. -/
theorem return_finds_entry_calling :
    ∃ m₁ m₂ m₃, Enters .call calling m₁ ∧ Leaves .call m₂ m₃ ∧
      Resumed .call calling m₂ m₃ := by
  obtain ⟨m₁, hm₁⟩ : ∃ m₁, m₁ = (executeInstruction calling).2 := ⟨_, rfl⟩
  obtain ⟨m₂, hm₂⟩ : ∃ m₂, m₂ = (executeInstruction (m₁.enterIrq 4)).2 :=
    ⟨_, rfl⟩
  have hcalls : Enters .call calling m₁ := by
    refine ⟨⟨.bSr, by decide, rfl⟩, false, ?_⟩
    rw [hm₁]
    rfl
  have hreturns : Leaves .interrupt (m₁.enterIrq 4) m₂ := by
    subst hm₂ hm₁
    exact ⟨by decide, false, rfl⟩
  have hleaves : Leaves .call m₂ (executeInstruction m₂).2 := by
    subst hm₂ hm₁
    exact ⟨by decide, false, rfl⟩
  have hregistered : calling.frames.Registered := by
    intro id hid
    cases hid
    rfl
  have hplain : PlainStack .call calling := by
    intro word hword
    obtain rfl := List.mem_singleton.mp hword
    exact ⟨by decide, by decide, rfl, rfl⟩
  have hsp₁ : m₁.reg16 7 = 0xfefe := by
    subst hm₁
    decide
  have hsp₂ : (m₁.enterIrq 4).reg16 7 = 0xfefa := by
    subst hm₁
    decide
  have hplain' : PlainStack .interrupt m₁ := by
    intro word hword
    subst hm₁
    obtain rfl | hword := List.mem_cons.mp hword
    · exact ⟨by decide, by decide, rfl, rfl⟩
    · obtain rfl := List.mem_singleton.mp hword
      exact ⟨by decide, by decide, rfl, rfl⟩
  have hbody : Nested (Entry.call.Bytes (m₁.reg16 7)) m₁ m₂ := by
    refine .activation .interrupt hplain' ⟨4, rfl⟩ ?_ (.done _) rfl hreturns
      (.done _)
    rw [hsp₁, hsp₂]
    rintro addr ⟨word, hword, haddr⟩ ⟨word', hword', haddr'⟩
    obtain rfl := List.mem_singleton.mp hword
    have hlow : word' = 0xfefa ∨ word' = 0xfefc := by
      simpa [Entry.words] using hword'
    have hhigh : addr = 0xfefe ∨ addr = 0xfeff := haddr
    obtain rfl | rfl := hlow
    · have hword : addr = 0xfefa ∨ addr = 0xfefb := haddr'
      omega
    · have hword : addr = 0xfefc ∨ addr = 0xfefd := haddr'
      omega
  refine ⟨m₁, m₂, _, hcalls, hleaves,
    return_finds_entry hplain hregistered hcalls hbody ?_ hleaves⟩
  subst hm₂ hm₁
  decide

end Nesting

end Machine

end BrickEmu
