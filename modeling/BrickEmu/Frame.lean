import BrickEmu.Hash
import BrickEmu.HostInteger

/-!
# The call profiler

`frame.c` follows calls and returns of the guest.  Each guest thread has a
stack of frames; the thread that runs is entered in the hash of threads under
key 0, a suspended one under the stack pointer it was suspended with.  Thread
records are named by their number of allocation, which stands for their
address.
-/

namespace BrickEmu

abbrev CycleCount := BitVec 64

structure CalleeInfo where
  calls : BitVec 32
  cycles : CycleCount
  deriving DecidableEq

structure ProfileInfo where
  localCycles : CycleCount
  irqCycles : CycleCount
  totalCycles : CycleCount
  maxLocalCycles : CycleCount
  maxTotalCycles : CycleCount
  calls : BitVec 32
  isIRQ : Byte
  callees : Hash CalleeInfo

structure FrameInfo where
  startcycle : CycleCount
  childcycles : CycleCount
  irqcycles : CycleCount
  threadcycles : CycleCount
  pc : Word
  fp : Word
  deriving DecidableEq

/-- The frames of a thread from the innermost one down; the bottom frame is
always there, so `num_frames` is the number of frames below the top. -/
structure ThreadInfo where
  savefp : Word
  minfp : Word
  switchcycle : CycleCount
  sizeFrames : ℕ
  top : FrameInfo
  below : List FrameInfo
  deriving DecidableEq

namespace ThreadInfo

def numFrames (thread : ThreadInfo) : ℕ :=
  thread.below.length

def frames (thread : ThreadInfo) : List FrameInfo :=
  thread.top :: thread.below

end ThreadInfo

structure Frames where
  heap : ℕ → ThreadInfo
  allocated : ℕ
  threads : Hash ℕ
  current : Option ℕ
  profiles : Word → Option ProfileInfo

/-- The frame stack of the current thread. -/
def Frames.stack (frames : Frames) : Option ThreadInfo :=
  frames.current.map frames.heap

def Frames.modifyThread (frames : Frames) (id : ℕ)
    (change : ThreadInfo → ThreadInfo) : Frames :=
  { frames with
    heap := Function.update frames.heap id (change (frames.heap id)) }

def emptyFrame : FrameInfo := ⟨0, 0, 0, 0, 0, 0⟩

def emptyProfile : ProfileInfo := ⟨0, 0, 0, 0, 0, 0, 0, hashInit 5⟩

/-- The table entry of the function a frame belongs to; bit 0 of the frame's
`pc` marks interrupt handlers. -/
def FrameInfo.entry (frame : FrameInfo) : Word :=
  frame.pc &&& 0xfffe

/-- Suspends the current thread under the old stack pointer. -/
def Frames.suspend (frames : Frames) (cycles : CycleCount)
    (oldframe : Word) : Frames :=
  match frames.current with
  | some id =>
      let frames := frames.modifyThread id fun thread =>
        { thread with switchcycle := cycles, savefp := oldframe }
      { frames with
        threads := (hashMove frames.threads 0 oldframe.toNat).2 }
  | none => frames

/-- Resumes the thread suspended at the new stack pointer, or creates one. -/
def Frames.resume (frames : Frames) (cycles : CycleCount) (pc : Word)
    (newframe : Word) : Frames :=
  let (found, threads) := hashMove frames.threads newframe.toNat 0
  match found with
  | some id => { frames with threads := threads, current := some id }
  | none =>
      let id := frames.allocated
      { frames with
        heap := Function.update frames.heap id
          ⟨0, newframe, cycles, 2,
            { emptyFrame with startcycle := cycles, pc := pc }, []⟩
        allocated := id + 1
        threads := hashCreate threads 0 id
        current := some id }

def frameSwitch (cycles : CycleCount) (pc : Word) (oldframe newframe : Word)
    (frames : Frames) : Frames :=
  if oldframe = newframe then frames
  else
    let frames := (frames.suspend cycles oldframe).resume cycles pc newframe
    match frames.current with
    | some id =>
        frames.modifyThread id fun thread =>
          { thread with
            top := { thread.top with
              threadcycles := thread.top.threadcycles +
                (cycles - thread.switchcycle) } }
    | none => frames

/-- `frame_grow_num_frames`: a new top frame, whose contents are set by the
caller. -/
def frameGrowNumFrames (id : ℕ) (frames : Frames) : ℕ × Frames :=
  let frames := frames.modifyThread id fun thread =>
    { thread with top := emptyFrame, below := thread.frames }
  let thread := frames.heap id
  if thread.sizeFrames ≤ thread.numFrames then
    let frames := frames.modifyThread id fun thread =>
      { thread with sizeFrames := thread.sizeFrames + 10 }
    let (id, threads) := hashRealloc frames.threads 0 id
    (id, { frames with threads := threads, current := some id })
  else (id, frames)

def Frames.createProfile (frames : Frames) (entry : Word) : Frames :=
  match frames.profiles entry with
  | some _ => frames
  | none =>
      { frames with
        profiles := Function.update frames.profiles entry
          (some emptyProfile) }

def frameBegin (cycles : CycleCount) (pc : Word) (fp : Word) (inIrq : Bool)
    (frames : Frames) : Frames :=
  match frames.current with
  | none => frames
  | some id =>
      let frames := frames.modifyThread id fun thread =>
        if fp < thread.minfp then { thread with minfp := fp } else thread
      let (id, frames) := frameGrowNumFrames id frames
      let frames := frames.modifyThread id fun thread =>
        { thread with
          top :=
            { startcycle := cycles, childcycles := 0, irqcycles := 0
              threadcycles := 0, pc := pc ||| (if inIrq then 1 else 0)
              fp := fp } }
      match (frames.heap id).below.head? with
      | some parent => frames.createProfile parent.entry
      | none => frames

/-- `frame_insert_subframe`: the function at the bottom had no caller, so a
frame for the place it returns to is put below it. -/
def frameInsertSubframe (cycles : CycleCount) (memory : ℕ → Byte) (fp : Word)
    (thread : ThreadInfo) : ThreadInfo :=
  { thread with
    below := [{ emptyFrame with
      pc := memory fp.toNat ++ memory (fp.toNat + 1)
      startcycle := cycles }] }

def ThreadInfo.ensureParent (cycles : CycleCount) (memory : ℕ → Byte)
    (fp : Word) (thread : ThreadInfo) : ThreadInfo :=
  if thread.numFrames = 0 then frameInsertSubframe cycles memory fp thread
  else thread

/-- Removes the top frame and hands its interrupt and thread cycles to the
caller. -/
def ThreadInfo.dropTop (thread : ThreadInfo) : ThreadInfo :=
  match thread.below with
  | parent :: rest =>
      { thread with
        top := { parent with
          irqcycles := parent.irqcycles + thread.top.irqcycles
          threadcycles := parent.threadcycles + thread.top.threadcycles }
        below := rest }
  | [] => thread

/-- The loop of `frame_end` over frames that never returned.  Every pass
removes a frame; the fresh bottom frame has frame pointer 0, which ends the
loop. -/
def frameDropUnreturned (cycles : CycleCount) (memory : ℕ → Byte)
    (fp : Word) : ℕ → ThreadInfo → ThreadInfo
  | 0, thread => thread
  | fuel + 1, thread =>
      if thread.top.fp ≠ 0 ∧ thread.top.fp < fp then
        frameDropUnreturned cycles memory fp fuel
          (thread.dropTop.ensureParent cycles memory fp)
      else thread

def frameAddCallee (prof : ProfileInfo) (pc : Word) (cycles : CycleCount) :
    ProfileInfo :=
  let callees :=
    match hashGet prof.callees pc.toNat with
    | some _ => prof.callees
    | none => hashCreate prof.callees pc.toNat ⟨0, 0⟩
  let idx := pc.toNat % callees.size
  { prof with
    callees := { callees with
      list := Function.update callees.list idx
        ((callees.list idx).map fun bucket =>
          if bucket.1 = pc.toNat then
            (bucket.1, ⟨bucket.2.calls + 1, bucket.2.cycles + cycles⟩)
          else bucket) } }

/-- The cycles of a finished frame with everything it called. -/
def FrameInfo.total (frame : FrameInfo) (cycles : CycleCount) : CycleCount :=
  cycles - frame.startcycle - frame.threadcycles - frame.irqcycles

/-- The caller's frame after the frame above it has returned. -/
def FrameInfo.afterReturn (parent frame : FrameInfo) (cycles : CycleCount) :
    FrameInfo :=
  if frame.fp = 0 then parent
  else
    let total := frame.total cycles
    let irqcycles := parent.irqcycles + frame.irqcycles
    let threadcycles := parent.threadcycles + frame.threadcycles
    if frame.pc &&& 1 ≠ 0 then
      { parent with
        irqcycles := irqcycles + total, threadcycles := threadcycles }
    else
      { parent with
        irqcycles := irqcycles, threadcycles := threadcycles
        childcycles := parent.childcycles + total }

def ProfileInfo.record (prof : ProfileInfo) (frame : FrameInfo)
    (cycles : CycleCount) : ProfileInfo :=
  let total := frame.total cycles
  let loc := total - frame.childcycles
  { prof with
    irqCycles := prof.irqCycles + frame.irqcycles
    localCycles := prof.localCycles + loc
    totalCycles := prof.totalCycles + total
    calls := prof.calls + 1
    isIRQ := prof.isIRQ ||| (frame.pc.setWidth 8 &&& 1)
    maxTotalCycles :=
      if prof.maxTotalCycles < total then total else prof.maxTotalCycles
    maxLocalCycles :=
      if prof.maxLocalCycles < loc then loc else prof.maxLocalCycles }

def Frames.modifyProfile (frames : Frames) (entry : Word)
    (change : ProfileInfo → ProfileInfo) : Frames :=
  { frames with
    profiles := Function.update frames.profiles entry
      ((frames.profiles entry).map change) }

/-- The return of the top frame of a thread, without the profile. -/
def ThreadInfo.returnTop (cycles : CycleCount) (thread : ThreadInfo) :
    ThreadInfo :=
  match thread.below with
  | parent :: rest =>
      { thread with
        top := parent.afterReturn thread.top cycles, below := rest }
  | [] => thread

/-- The thread as `frame_end` finds the frame that returns on top. -/
def ThreadInfo.unwound (cycles : CycleCount) (memory : ℕ → Byte) (fp : Word)
    (thread : ThreadInfo) : ThreadInfo :=
  let thread := thread.ensureParent cycles memory fp
  frameDropUnreturned cycles memory fp (thread.numFrames + 2) thread

def frameEnd (cycles : CycleCount) (memory : ℕ → Byte) (fp : Word)
    (frames : Frames) : Frames :=
  match frames.current with
  | none => frames
  | some id =>
      let thread := (frames.heap id).unwound cycles memory fp
      let frame := thread.top
      let frames := frames.modifyThread id fun _ => thread.returnTop cycles
      let frames :=
        match thread.below.head? with
        | some parent =>
            if frame.fp ≠ 0 then
              frames.modifyProfile parent.entry fun prof =>
                frameAddCallee prof frame.pc (frame.total cycles)
            else frames
        | none => frames
      (frames.createProfile frame.entry).modifyProfile frame.entry
        fun prof => prof.record frame cycles

end BrickEmu
