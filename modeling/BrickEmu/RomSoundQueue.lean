import BrickEmu.Ring
import BrickEmu.RomTimerFrame

/-!
# The sound queue of the ROM

`control_output` for 0x700b instruction by instruction, with the timer
interrupt between any two of them.  The stack with the arguments is left out,
and of the flags only the zero flag is kept, which the comparisons set for the
branches behind them.
-/

namespace BrickEmu

namespace Rom

/-- The instruction that comes next. -/
inductive EnqueuePlace where
  | loadHead
  | loadTail
  | copyTail
  | increment
  | compareTen
  | branchTen
  | wrap
  | compareHead
  | branchHead
  | clearHigh
  | loadType
  | storeType
  | loadValue
  | storeValue
  | loadFreq
  | storeFreq
  | storeTail
  | loadPlaying
  | storePlaying
  | leave
deriving DecidableEq

/-- A call with its arguments and the registers that it uses. -/
structure Enqueue where
  place : EnqueuePlace
  entry : SoundEntry
  r5h : Byte
  r5l : Byte
  r6h : Byte
  r6l : Byte
  zero : Bool
deriving DecidableEq

namespace Enqueue

def goto (place : EnqueuePlace) (e : Enqueue) : Enqueue :=
  { e with place := place }

/-- A byte stored in the slot that `r5` counts. -/
def storeSlot (base : Word) (m : Ram) (e : Enqueue) : Ram :=
  m.set (base + (e.r5h ++ e.r5l)) e.r6h

/-- One instruction. -/
def step (m : Ram) (e : Enqueue) : Ram × Enqueue :=
  match e.place with
  | .loadHead => (m, { e with r6h := m soundQueueHead, place := .loadTail })
  | .loadTail => (m, { e with r6l := m soundQueueTail, place := .copyTail })
  | .copyTail => (m, { e with r5l := e.r6l, place := .increment })
  | .increment => (m, { e with r6l := e.r6l + 1, place := .compareTen })
  | .compareTen => (m, { e with zero := e.r6l == 10, place := .branchTen })
  | .branchTen => (m, e.goto (if e.zero then .wrap else .compareHead))
  | .wrap => (m, { e with r6l := 0, place := .compareHead })
  | .compareHead =>
      (m, { e with zero := e.r6h == e.r6l, place := .branchHead })
  | .branchHead => (m, e.goto (if e.zero then .leave else .clearHigh))
  | .clearHigh => (m, { e with r5h := 0, place := .loadType })
  | .loadType => (m, { e with r6h := e.entry.type, place := .storeType })
  | .storeType => (e.storeSlot soundQueueType m, e.goto .loadValue)
  | .loadValue => (m, { e with r6h := e.entry.value, place := .storeValue })
  | .storeValue => (e.storeSlot soundQueueValue m, e.goto .loadFreq)
  | .loadFreq => (m, { e with r6h := e.entry.freq, place := .storeFreq })
  | .storeFreq => (e.storeSlot soundQueueFreq m, e.goto .storeTail)
  | .storeTail => (m.set soundQueueTail e.r6l, e.goto .loadPlaying)
  | .loadPlaying => (m, { e with r6h := 1, place := .storePlaying })
  | .storePlaying => (m.set soundPlaying e.r6h, e.goto .leave)
  | .leave => (m, e)

/-- The entry of a call that saw room and has the stores into the queue behind
it. -/
def stored (seen : ℕ) (e : Enqueue) : List SoundEntry :=
  match e.place with
  | .loadPlaying | .storePlaying | .leave =>
      if seen < 8 then [e.entry] else []
  | _ => []

end Enqueue

/-- The memory and the call in progress, with the entries that were accepted
and dequeued so far.  `seen` is the number of entries that waited when the
head was last read, `executed` counts the instructions of the call, and
`returned` has the entries of the calls that are over, each with what the call
saw. -/
structure SoundQueue where
  ram : Ram
  call : Option Enqueue
  accepted : List SoundEntry
  dequeued : List SoundEntry
  returned : List (SoundEntry × ℕ)
  seen : ℕ
  executed : ℕ

namespace SoundQueue

def waiting (c : SoundQueue) : ℕ :=
  c.accepted.length - c.dequeued.length

/-- An entry is accepted when the tail moves. -/
def run (e : Enqueue) (c : SoundQueue) : SoundQueue where
  ram := (e.step c.ram).1
  call := if e.place = .leave then none else some (e.step c.ram).2
  accepted :=
    if e.place = .storeTail then c.accepted ++ [e.entry] else c.accepted
  dequeued := c.dequeued
  returned :=
    if e.place = .leave then c.returned ++ [(e.entry, c.seen)] else c.returned
  seen := if e.place = .loadHead then c.waiting else c.seen
  executed := c.executed + 1

def begin (e : Enqueue) (c : SoundQueue) : SoundQueue :=
  { c with call := some e, executed := 0 }

def interrupt (labels : Labels) (c : SoundQueue) : SoundQueue :=
  let (entry, ram) := ociaHandler labels c.ram
  { c with ram := ram, dequeued := c.dequeued ++ entry.toList }

/-- After `init_timer`. -/
def start (labels : Labels) (timer flags : Word) (m : Ram) : SoundQueue where
  ram := initTimer labels timer flags m
  call := none
  accepted := []
  dequeued := []
  returned := []
  seen := 0
  executed := 0

/-- The entries of the calls that returned and had seen room, in the order of
the calls. -/
def fitting (c : SoundQueue) : List SoundEntry :=
  (c.returned.filter fun call => call.2 < 8).map Prod.fst

def stored (c : SoundQueue) : List SoundEntry :=
  match c.call with
  | none => []
  | some e => e.stored c.seen

end SoundQueue

/-- The cells of the pointers and of the queue. -/
def QueueCell (a : Word) : Prop :=
  0xefc6 ≤ a.toNat ∧ a.toNat < 0xefca ∨ 0xefd6 ≤ a.toNat ∧ a.toNat < 0xeff6

instance (a : Word) : Decidable (QueueCell a) :=
  inferInstanceAs (Decidable (_ ∨ _))

/-- A call begins or goes on, the timer interrupts, or something else that
leaves the queue alone happens. -/
inductive SoundStep (labels : Labels) : SoundQueue → SoundQueue → Prop
  | call {c : SoundQueue} (hnone : c.call = none) {e : Enqueue}
      (hplace : e.place = .loadHead) :
      SoundStep labels c (c.begin e)
  | run {c : SoundQueue} {e : Enqueue} (hcall : c.call = some e) :
      SoundStep labels c (c.run e)
  | interrupt (c : SoundQueue) : SoundStep labels c (c.interrupt labels)
  | other {c : SoundQueue} {ram : Ram}
      (hkept : ∀ a, QueueCell a → ram a = c.ram a) :
      SoundStep labels c { c with ram := ram }

inductive SoundEvent where
  | call (entry : SoundEntry)
  | instruction
  | interrupt

namespace SoundQueue

/-- Nothing happens when a call comes during another, or an instruction
without a call. -/
def handle (labels : Labels) (c : SoundQueue) : SoundEvent → SoundQueue
  | .call entry =>
      if c.call = none then c.begin ⟨.loadHead, entry, 0, 0, 0, 0, false⟩ else c
  | .instruction =>
      match c.call with
      | none => c
      | some e => c.run e
  | .interrupt => c.interrupt labels

theorem handle_steps (labels : Labels) (events : List SoundEvent)
    (c : SoundQueue) :
    Relation.ReflTransGen (SoundStep labels) c
      (events.foldl (handle labels) c) := by
  induction events generalizing c with
  | nil => exact .refl
  | cons event events ih =>
      refine .trans ?_ (ih (c.handle labels event))
      cases event with
      | call entry =>
          rw [handle]
          split_ifs with hnone
          · exact .single (.call hnone rfl)
          · exact .refl
      | instruction =>
          rw [handle]
          cases hcall : c.call with
          | none => exact .refl
          | some e => exact .single (.run hcall)
      | interrupt => exact .single (.interrupt c)

end SoundQueue

namespace Ram

def queueCount (m : Ram) : ℕ :=
  ((m soundQueueTail).toNat + 9 - (m soundQueueHead).toNat) % 10

/-- The entries between head and tail. -/
def queuedSounds (m : Ram) : List SoundEntry :=
  Ring.slots (fun i => m.soundEntry (BitVec.ofNat 8 i)) 10
    (((m soundQueueHead).toNat + 1) % 10) m.queueCount

end Ram

/-- What the interrupt does before it comes to the sound. -/
def tickedMotors (m : Ram) : Ram :=
  let m := modulateMotors (outputMotors m)
  let timer := m.get16 timerStruct
  tickMotors timer (tickReceive timer m)

/-- When the interrupt looks for the next entry: in every tenth tick, if a
sound is over and a tune has come to the pitch 1. -/
def SoundDue (m : Ram) (pitch : Byte) : Prop :=
  m timeCtr0 % 10 = 0 ∧ m soundDuration = 0 ∧
    (m soundTuneActive = 0 ∨ pitch = 1)

instance (m : Ram) (pitch : Byte) : Decidable (SoundDue m pitch) :=
  inferInstanceAs (Decidable (_ ∧ _))

end Rom

end BrickEmu
