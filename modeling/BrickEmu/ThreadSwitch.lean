import BrickEmu.Frame
import BrickEmu.HashEntries

/-!
# Which thread `frame_switch` resumes

Stacks are used again, so several thread records may be suspended at one
stack pointer.  Beside the table of `frame.c` a book keeps the records that
wait at every stack pointer, the last one suspended first.  `frame_switch`
resumes that one as long as the table does not grow while two records wait at
one stack pointer: growing turns their order around.
-/

namespace BrickEmu

/-- A call of `frame_switch` with what it reads from the processor. -/
structure SwitchCall where
  cycles : CycleCount
  pc : Word
  oldframe : Word
  newframe : Word

/-- Both stack pointers are there and differ. -/
structure SwitchCall.Regular (call : SwitchCall) : Prop where
  old_ne_zero : call.oldframe ≠ 0
  new_ne_zero : call.newframe ≠ 0
  ne : call.oldframe ≠ call.newframe

/-- The profiler with the book of the records that wait. -/
structure Switching where
  frames : Frames
  waiting : Word → List ℕ

namespace Switching

def init : Switching where
  frames := ⟨fun _ => ⟨0, 0, 0, 0, emptyFrame, []⟩, 0, hashInit 5, none,
    fun _ => none⟩
  waiting := fun _ => []

/-- The book after the current thread has been suspended. -/
def suspended (s : Switching) (call : SwitchCall) : Word → List ℕ :=
  match s.frames.current with
  | some id =>
      Function.update s.waiting call.oldframe
        (id :: s.waiting call.oldframe)
  | none => s.waiting

/-- The record that is due: the one suspended last at the new stack pointer,
or else a fresh one. -/
def due (s : Switching) (call : SwitchCall) : ℕ :=
  (s.suspended call call.newframe).head?.getD s.frames.allocated

/-- A record that runs does not wait any more. -/
def step (s : Switching) (call : SwitchCall) : Switching :=
  let frames := frameSwitch call.cycles call.pc call.oldframe call.newframe
    s.frames
  { frames := frames
    waiting :=
      match frames.current with
      | some id =>
          Function.update (s.suspended call) call.newframe
            ((s.suspended call call.newframe).erase id)
      | none => s.suspended call }

/-- Every call of the sequence resumes the record that is due. -/
def Resumes : Switching → List SwitchCall → Prop
  | _, [] => True
  | s, call :: calls =>
      (s.step call).frames.current = some (s.due call) ∧
        Resumes (s.step call) calls

/-- When the call makes the table grow, no two records wait at one stack
pointer. -/
def GrowsApart (s : Switching) (call : SwitchCall) : Prop :=
  s.suspended call call.newframe = [] → s.frames.threads.Full →
    ∀ sp, (s.suspended call sp).length ≤ 1

/-- Every call of the sequence meets the condition in the state in which it
is made. -/
def AllGrowApart : Switching → List SwitchCall → Prop
  | _, [] => True
  | s, call :: calls =>
      s.GrowsApart call ∧ AllGrowApart (s.step call) calls

/-- The table agrees with the book. -/
structure Booked (s : Switching) : Prop where
  placed : s.frames.threads.Placed
  running : s.frames.threads.entries 0 = s.frames.current.toList
  waits : ∀ sp, sp ≠ 0 → s.frames.threads.entries sp.toNat = s.waiting sp

theorem booked_init : init.Booked :=
  ⟨Hash.placed_init (by decide), rfl, fun _ _ => rfl⟩

variable {s : Switching} {call : SwitchCall}

theorem toNat_ne_zero {sp : Word} (h : sp ≠ 0) : sp.toNat ≠ 0 := by
  intro hzero
  exact h (BitVec.eq_of_toNat_eq hzero)

/-- The table after the current thread has been suspended. -/
structure Parked (s : Switching) (call : SwitchCall) (threads : Hash ℕ) :
    Prop where
  placed : threads.Placed
  running : threads.entries 0 = []
  waits : ∀ sp, sp ≠ 0 → threads.entries sp.toNat = s.suspended call sp
  size : threads.size = s.frames.threads.size
  elems : threads.elems = s.frames.threads.elems

theorem suspended_of_some {id : ℕ} (h : s.frames.current = some id) :
    s.suspended call = Function.update s.waiting call.oldframe
      (id :: s.waiting call.oldframe) := by
  rw [suspended, h]

theorem Booked.suspend (h : s.Booked) (hcall : call.Regular) :
    Parked s call
      (s.frames.suspend call.cycles call.oldframe).threads := by
  have hold := toNat_ne_zero hcall.old_ne_zero
  have hrunning := h.running
  unfold Frames.suspend
  cases hcurrent : s.frames.current with
  | none =>
      rw [hcurrent] at hrunning
      refine ⟨h.placed, hrunning, fun sp hsp => ?_, rfl, rfl⟩
      rw [h.waits sp hsp, suspended, hcurrent]
  | some id =>
      rw [hcurrent] at hrunning
      simp only
      rw [Frames.modifyThread, Hash.hashMove_of_cons hrunning]
      refine ⟨(h.placed.unlink 0).push _ id, ?_, fun sp hsp => ?_, rfl, rfl⟩
      · rw [Hash.entries_push, if_neg hold.symm, Hash.entries_unlink,
          if_pos rfl, hrunning]
        rfl
      · rw [Hash.entries_push, Hash.entries_unlink, Hash.entries_unlink,
          if_neg hold, if_neg (toNat_ne_zero hsp), h.waits _ hcall.old_ne_zero,
          h.waits sp hsp, suspended_of_some hcurrent]
        by_cases hsame : sp = call.oldframe
        · subst hsame
          rw [if_pos rfl, Function.update_self]
        · rw [if_neg (fun heq => hsame (BitVec.eq_of_toNat_eq heq)),
            Function.update_of_ne hsame]

/-- The record that is found, or a fresh one, is the one that is due. -/
theorem Parked.resume {frames : Frames} (h : Parked s call frames.threads)
    (hallocated : frames.allocated = s.frames.allocated)
    (hcall : call.Regular) (hapart : s.GrowsApart call) :
    let resumed := frames.resume call.cycles call.pc call.newframe
    resumed.current = some (s.due call) ∧ resumed.threads.Placed ∧
      resumed.threads.entries 0 = [s.due call] ∧
      ∀ sp, sp ≠ 0 → resumed.threads.entries sp.toNat =
        Function.update (s.suspended call) call.newframe
          ((s.suspended call call.newframe).erase (s.due call)) sp := by
  intro resumed
  have hnew := toNat_ne_zero hcall.new_ne_zero
  have hwaits := h.waits call.newframe hcall.new_ne_zero
  cases hlist : s.suspended call call.newframe with
  | nil =>
      have hdue : s.due call = frames.allocated := by
        rw [due, hlist, hallocated]
        rfl
      have hresumed : resumed.current = some frames.allocated ∧
          resumed.threads = hashCreate frames.threads 0 frames.allocated := by
        rw [hlist] at hwaits
        constructor <;>
          simp only [resumed, Frames.resume, Hash.hashMove_of_nil hwaits]
      have hsingle : ∀ key, frames.threads.Full →
          key = 0 ∨ (∃ sp : Word, sp ≠ 0 ∧ key = sp.toNat) →
            (frames.threads.entries key).length ≤ 1 := by
        intro key hfull hkey
        rw [Hash.Full, h.size, h.elems] at hfull
        rcases hkey with rfl | ⟨sp, hsp, rfl⟩
        · rw [h.running]
          exact Nat.zero_le 1
        · rw [h.waits sp hsp]
          exact hapart hlist hfull sp
      rw [hresumed.1, hresumed.2, hdue]
      refine ⟨rfl, h.placed.create 0 _, ?_, fun sp hsp => ?_⟩
      · rw [h.placed.entries_create _ fun hfull =>
          hsingle 0 hfull (Or.inl rfl), if_pos rfl, h.running]
      · rw [h.placed.entries_create _ fun hfull =>
          hsingle sp.toNat hfull (Or.inr ⟨sp, hsp, rfl⟩),
          if_neg (toNat_ne_zero hsp), h.waits sp hsp, List.erase_nil,
          ← hlist, Function.update_eq_self]
  | cons id rest =>
      have hdue : s.due call = id := by
        rw [due, hlist]
        rfl
      have hresumed : resumed.current = some id ∧ resumed.threads =
          (frames.threads.unlink call.newframe.toNat).push 0 id := by
        rw [hlist] at hwaits
        constructor <;>
          simp only [resumed, Frames.resume, Hash.hashMove_of_cons hwaits]
      rw [hresumed.1, hresumed.2, hdue, List.erase_cons_head]
      refine ⟨rfl, (h.placed.unlink _).push 0 id, ?_, fun sp hsp => ?_⟩
      · rw [Hash.entries_push, if_pos rfl, Hash.entries_unlink,
          if_neg hnew.symm, h.running]
      · rw [Hash.entries_push, if_neg (toNat_ne_zero hsp),
          Hash.entries_unlink]
        by_cases hsame : sp = call.newframe
        · subst hsame
          rw [if_pos rfl, Function.update_self, hwaits, hlist, List.tail_cons]
        · rw [if_neg (fun heq => hsame (BitVec.eq_of_toNat_eq heq)),
            Function.update_of_ne hsame, h.waits sp hsp]

/-- One call. -/
theorem Booked.step (h : s.Booked) (hcall : call.Regular)
    (hapart : s.GrowsApart call) :
    (s.step call).frames.current = some (s.due call) ∧
      (s.step call).Booked := by
  obtain ⟨frames, hframes⟩ : ∃ frames, frames =
      s.frames.suspend call.cycles call.oldframe := ⟨_, rfl⟩
  have hparked := h.suspend hcall
  have hallocated : frames.allocated = s.frames.allocated := by
    rw [hframes]
    unfold Frames.suspend Frames.modifyThread
    cases s.frames.current <;> rfl
  rw [← hframes] at hparked
  obtain ⟨hcurrent, hplaced, hrunning, hwaits⟩ :=
    hparked.resume hallocated hcall hapart
  obtain ⟨resumed, hresumed⟩ : ∃ resumed, resumed =
      frames.resume call.cycles call.pc call.newframe := ⟨_, rfl⟩
  rw [← hresumed] at hcurrent hplaced hrunning hwaits
  have hswitch : (s.step call).frames.current = resumed.current ∧
      (s.step call).frames.threads = resumed.threads := by
    simp only [Switching.step, frameSwitch, if_neg hcall.ne, ← hframes,
      ← hresumed, hcurrent]
    exact ⟨hcurrent, rfl⟩
  refine ⟨hswitch.1.trans hcurrent, ?_, ?_, fun sp hsp => ?_⟩
  · rw [hswitch.2]
    exact hplaced
  · rw [hswitch.2, hrunning, hswitch.1, hcurrent]
    rfl
  · have hwaiting : (s.step call).waiting =
        Function.update (s.suspended call) call.newframe
          ((s.suspended call call.newframe).erase (s.due call)) := by
      have hstep := hswitch.1.trans hcurrent
      simp only [Switching.step] at hstep ⊢
      rw [hstep]
    rw [hswitch.2, hwaits sp hsp, hwaiting]

theorem Booked.resumes {calls : List SwitchCall} (h : s.Booked)
    (hcalls : ∀ call ∈ calls, call.Regular)
    (hapart : s.AllGrowApart calls) : s.Resumes calls := by
  induction calls generalizing s with
  | nil => trivial
  | cons call calls ih =>
      obtain ⟨hcurrent, hbooked⟩ :=
        h.step (hcalls call List.mem_cons_self) hapart.1
      refine ⟨hcurrent, ih hbooked ?_ hapart.2⟩
      exact fun other hmem => hcalls other (List.mem_cons_of_mem call hmem)

/-- From the start, `frame_switch` always resumes the record suspended last,
as long as the table does not grow over two records that wait at one stack
pointer. -/
theorem thread_resumed (calls : List SwitchCall)
    (hcalls : ∀ call ∈ calls, call.Regular)
    (hapart : init.AllGrowApart calls) : init.Resumes calls :=
  booked_init.resumes hcalls hapart

/-- Two threads are suspended at the same place, and the second one is
resumed. -/
def sharedStack : List SwitchCall :=
  [⟨10, 0x8000, 0xf000, 0xf100⟩, ⟨20, 0x8000, 0xf180, 0xf200⟩,
    ⟨30, 0x8000, 0xf180, 0xf300⟩, ⟨40, 0x8000, 0xf380, 0xf180⟩]

theorem regular_of_all {calls : List SwitchCall}
    (h : calls.all (fun call => decide (call.oldframe ≠ 0 ∧
      call.newframe ≠ 0 ∧ call.oldframe ≠ call.newframe)) = true) :
    ∀ call ∈ calls, call.Regular := by
  intro call hmem
  have hcall := List.all_eq_true.mp h call hmem
  obtain ⟨hold, hnew, hne⟩ := of_decide_eq_true hcall
  exact ⟨hold, hnew, hne⟩

theorem thread_resumed_sharedStack : init.Resumes sharedStack := by
  apply thread_resumed sharedStack (regular_of_all (by decide))
  have hnotFull : ∀ {s : Switching} {call : SwitchCall},
      ¬s.frames.threads.Full → s.GrowsApart call :=
    fun hfull _ h => absurd h hfull
  refine ⟨?_, ?_, ?_, ?_, trivial⟩ <;>
    exact hnotFull (by unfold Hash.Full; decide +kernel)

/-- The same, with enough threads in between to make the table grow. -/
def grownStack : List SwitchCall :=
  [⟨10, 0x8000, 0xf000, 0xf100⟩, ⟨20, 0x8000, 0xf180, 0xf200⟩,
    ⟨30, 0x8000, 0xf180, 0xf300⟩, ⟨40, 0x8000, 0xf380, 0xf400⟩,
    ⟨50, 0x8000, 0xf480, 0xf500⟩, ⟨60, 0x8000, 0xf580, 0xf600⟩,
    ⟨70, 0x8000, 0xf680, 0xf180⟩]

/-- Growing turns the order around, and the first thread is resumed. -/
theorem thread_resumed_fails_grown :
    ¬∀ calls : List SwitchCall, (∀ call ∈ calls, call.Regular) →
      init.Resumes calls := by
  intro hall
  have hresumes := hall grownStack (regular_of_all (by decide))
  obtain ⟨-, -, -, -, -, -, hlast, -⟩ := hresumes
  revert hlast
  decide +kernel

end Switching

end BrickEmu
