import BrickEmu.ProfilerLedger

/-!
# The profiler stays in bounds

Traces may be unbalanced: returns without a call, calls without a return,
frame pointers that jump.  In every thread the cycles that a frame has given
away (to other threads, to interrupts, to the functions it called) fit
between its begin and the begin of the frame above it, and a frame with a
frame pointer lies above a frame whose profile entry exists.  Both survive
the dropping of frames and the frame that is put below the bottom.
-/

namespace BrickEmu

section Stacks

variable {profiles : Word → Option ProfileInfo} {limit limit' : ℕ}
  {frame parent : FrameInfo} {below : List FrameInfo}

/-- What the frame has given away since its begin. -/
def FrameInfo.spent (frame : FrameInfo) : ℕ :=
  frame.childcycles.toNat + frame.irqcycles.toNat + frame.threadcycles.toNat

def FrameInfo.Fits (frame : FrameInfo) (limit : ℕ) : Prop :=
  frame.startcycle.toNat + frame.spent ≤ limit

/-- The frames of a thread up to the given time. -/
inductive Stacked (profiles : Word → Option ProfileInfo) :
    ℕ → FrameInfo → List FrameInfo → Prop
  | bottom {limit : ℕ} {frame : FrameInfo} (hfits : frame.Fits limit)
      (hfp : frame.fp = 0) : Stacked profiles limit frame []
  | frame {limit : ℕ} {frame parent : FrameInfo} {below : List FrameInfo}
      (hfits : frame.Fits limit)
      (hparent : frame.fp ≠ 0 → (profiles parent.entry).isSome)
      (hbelow : Stacked profiles frame.startcycle.toNat parent below) :
      Stacked profiles limit frame (parent :: below)

namespace Stacked

theorem fits (h : Stacked profiles limit frame below) : frame.Fits limit := by
  cases h with
  | bottom hfits => exact hfits
  | frame hfits => exact hfits

/-- Only what the top frame gives away and the time matter above. -/
theorem replace {frame' : FrameInfo} (h : Stacked profiles limit frame below)
    (hfits : frame'.Fits limit') (hstart : frame'.startcycle = frame.startcycle)
    (hfp : frame'.fp = frame.fp) : Stacked profiles limit' frame' below := by
  cases h with
  | bottom _ hzero => exact .bottom hfits (hfp.trans hzero)
  | frame _ hparent hbelow =>
      refine .frame hfits (fun hne => hparent (hfp ▸ hne)) ?_
      rw [hstart]
      exact hbelow

theorem mono (h : Stacked profiles limit frame below) (hle : limit ≤ limit') :
    Stacked profiles limit' frame below :=
  h.replace (le_trans h.fits hle) rfl rfl

/-- Profiles are never removed. -/
theorem profiles_mono {profiles' : Word → Option ProfileInfo}
    (h : Stacked profiles limit frame below)
    (hmore : ∀ entry, (profiles entry).isSome → (profiles' entry).isSome) :
    Stacked profiles' limit frame below := by
  induction h with
  | bottom hfits hfp => exact .bottom hfits hfp
  | frame hfits hparent hbelow ih =>
      exact .frame hfits (fun hne => hmore _ (hparent hne)) ih

end Stacked

end Stacks

section Arithmetic

variable {cycles : CycleCount} {frame parent : FrameInfo}

theorem toNat_add_of_le {a b : CycleCount}
    (hle : a.toNat + b.toNat ≤ cycles.toNat) :
    (a + b).toNat = a.toNat + b.toNat := by
  have hlt := cycles.isLt
  rw [BitVec.toNat_add, Nat.mod_eq_of_lt (by omega)]

theorem toNat_sub_of_le {a b : CycleCount} (hle : b.toNat ≤ a.toNat) :
    (a - b).toNat = a.toNat - b.toNat :=
  BitVec.toNat_sub_of_le (BitVec.le_def.mpr hle)

/-- No subtraction of `frame_end` underflows. -/
structure FrameInfo.Exact (frame : FrameInfo) (cycles : CycleCount) :
    Prop where
  total_eq : cycles.toNat = frame.startcycle.toNat +
    frame.threadcycles.toNat + frame.irqcycles.toNat +
      (frame.total cycles).toNat
  loc_eq : (frame.total cycles).toNat = frame.childcycles.toNat +
    (frame.loc cycles).toNat

theorem FrameInfo.Fits.exact (h : frame.Fits cycles.toNat) :
    frame.Exact cycles := by
  unfold FrameInfo.Fits FrameInfo.spent at h
  have hfirst : (cycles - frame.startcycle).toNat =
      cycles.toNat - frame.startcycle.toNat := toNat_sub_of_le (by omega)
  have hsecond : (cycles - frame.startcycle - frame.threadcycles).toNat =
      (cycles - frame.startcycle).toNat - frame.threadcycles.toNat :=
    toNat_sub_of_le (by omega)
  have htotal : (frame.total cycles).toNat =
      (cycles - frame.startcycle - frame.threadcycles).toNat -
        frame.irqcycles.toNat := toNat_sub_of_le (by omega)
  have hloc : (frame.loc cycles).toNat = (frame.total cycles).toNat -
      frame.childcycles.toNat := toNat_sub_of_le (by omega)
  constructor <;> omega

/-- A frame that is dropped or returns hands over no more than has passed
since its begin. -/
theorem FrameInfo.Fits.dropped (h : frame.Fits cycles.toNat)
    (hparent : parent.Fits frame.startcycle.toNat) :
    FrameInfo.Fits { parent with
      irqcycles := parent.irqcycles + frame.irqcycles
      threadcycles := parent.threadcycles + frame.threadcycles }
      cycles.toNat := by
  unfold FrameInfo.Fits FrameInfo.spent at *
  have hirq := @toNat_add_of_le cycles parent.irqcycles frame.irqcycles
    (by omega)
  have hthread := @toNat_add_of_le cycles parent.threadcycles
    frame.threadcycles (by omega)
  simp only [hirq, hthread]
  omega

theorem FrameInfo.Fits.afterReturn (h : frame.Fits cycles.toNat)
    (hfp : frame.fp ≠ 0) (hparent : parent.Fits frame.startcycle.toNat) :
    (parent.afterReturn frame cycles).Fits cycles.toNat := by
  have hexact := h.exact.total_eq
  unfold FrameInfo.Fits FrameInfo.spent at *
  have hirq := @toNat_add_of_le cycles parent.irqcycles frame.irqcycles
    (by omega)
  have hthread := @toNat_add_of_le cycles parent.threadcycles
    frame.threadcycles (by omega)
  have hirqTotal := @toNat_add_of_le cycles
    (parent.irqcycles + frame.irqcycles) (frame.total cycles) (by omega)
  have hchildTotal := @toNat_add_of_le cycles parent.childcycles
    (frame.total cycles) (by omega)
  rw [FrameInfo.afterReturn, if_neg hfp]
  split_ifs
  · simp only [hirqTotal, hirq, hthread]
    omega
  · simp only [hchildTotal, hirq, hthread]
    omega

end Arithmetic

namespace ThreadInfo

variable {profiles : Word → Option ProfileInfo} {cycles : CycleCount}
  {memory : ℕ → Byte} {fp : Word} {thread : ThreadInfo} {limit limit' : ℕ}

/-- A thread between two calls, with its frames up to the given time. -/
structure Bounded (profiles : Word → Option ProfileInfo) (limit : ℕ)
    (thread : ThreadInfo) : Prop where
  stacked : Stacked profiles limit thread.top thread.below
  room : thread.numFrames < thread.sizeFrames
  two_le : 2 ≤ thread.sizeFrames

/-- A thread in `frame_end`, where the frame on top has one below it. -/
structure Ready (profiles : Word → Option ProfileInfo) (limit : ℕ)
    (thread : ThreadInfo) : Prop where
  fits : thread.top.Fits limit
  below : ∃ parent rest, thread.below = parent :: rest ∧
    (thread.top.fp ≠ 0 → (profiles parent.entry).isSome) ∧
    Stacked profiles
      (if thread.top.fp = 0 then limit else thread.top.startcycle.toNat)
      parent rest
  room : thread.numFrames < thread.sizeFrames
  two_le : 2 ≤ thread.sizeFrames

theorem Bounded.mono (h : thread.Bounded profiles limit)
    (hle : limit ≤ limit') : thread.Bounded profiles limit' :=
  ⟨h.stacked.mono hle, h.room, h.two_le⟩

theorem Bounded.profiles_mono {profiles' : Word → Option ProfileInfo}
    (h : thread.Bounded profiles limit)
    (hmore : ∀ entry, (profiles entry).isSome → (profiles' entry).isSome) :
    thread.Bounded profiles' limit :=
  ⟨h.stacked.profiles_mono hmore, h.room, h.two_le⟩

theorem Ready.numFrames_pos (h : thread.Ready profiles limit) :
    1 ≤ thread.numFrames := by
  obtain ⟨parent, rest, hbelow, -⟩ := h.below
  rw [numFrames, hbelow]
  exact Nat.succ_pos _

theorem ensureParent_of_nil (hbelow : thread.below = []) :
    thread.ensureParent cycles memory fp =
      frameInsertSubframe cycles memory fp thread := by
  rw [ensureParent, if_pos]
  rw [numFrames, hbelow]
  rfl

theorem ensureParent_of_ne_nil (hbelow : thread.below ≠ []) :
    thread.ensureParent cycles memory fp = thread := by
  rw [ensureParent, if_neg]
  simpa [numFrames] using hbelow

/-- The bottom frame gets a frame below it. -/
theorem Bounded.ensureParent (h : thread.Bounded profiles cycles.toNat)
    (memory : ℕ → Byte) (fp : Word) :
    (thread.ensureParent cycles memory fp).Ready profiles cycles.toNat := by
  have hstacked := h.stacked
  cases hbelow : thread.below with
  | nil =>
      rw [hbelow] at hstacked
      obtain ⟨hfits, hfp⟩ : thread.top.Fits cycles.toNat ∧
          thread.top.fp = 0 := by
        cases hstacked with
        | bottom hfits hfp => exact ⟨hfits, hfp⟩
      rw [ensureParent_of_nil hbelow]
      refine ⟨hfits, ⟨_, [], rfl, fun hne => absurd hfp hne, ?_⟩, ?_,
        h.two_le⟩
      · have htop : (frameInsertSubframe cycles memory fp thread).top.fp = 0 :=
          hfp
        rw [if_pos htop]
        exact .bottom le_rfl rfl
      · exact h.two_le
  | cons parent rest =>
      have hfits := hstacked.fits
      rw [hbelow] at hstacked
      rw [ensureParent_of_ne_nil (hbelow ▸ List.cons_ne_nil parent rest)]
      cases hstacked with
      | frame _ hparent hrest =>
          refine ⟨hfits, ⟨parent, rest, hbelow, hparent, ?_⟩, h.room,
            h.two_le⟩
          split_ifs
          · exact hrest.mono (le_trans (Nat.le_add_right _ _) hfits)
          · exact hrest

theorem Ready.dropTop (h : thread.Ready profiles cycles.toNat)
    (hfp : thread.top.fp ≠ 0) :
    thread.dropTop.Bounded profiles cycles.toNat := by
  obtain ⟨hfits, ⟨parent, rest, hbelow, -, hstacked⟩, hroom, htwo⟩ := h
  rw [if_neg hfp] at hstacked
  rw [numFrames, hbelow, List.length_cons] at hroom
  rw [ThreadInfo.dropTop, hbelow]
  exact ⟨hstacked.replace (hfits.dropped hstacked.fits) rfl rfl,
    Nat.lt_of_succ_lt hroom, htwo⟩

theorem afterReturn_start (parent frame : FrameInfo) :
    (parent.afterReturn frame cycles).startcycle = parent.startcycle ∧
      (parent.afterReturn frame cycles).fp = parent.fp := by
  unfold FrameInfo.afterReturn
  split_ifs <;> exact ⟨rfl, rfl⟩

theorem Ready.returnTop (h : thread.Ready profiles cycles.toNat) :
    (thread.returnTop cycles).Bounded profiles cycles.toNat := by
  obtain ⟨hfits, ⟨parent, rest, hbelow, -, hstacked⟩, hroom, htwo⟩ := h
  obtain ⟨hstart, hsame⟩ := @afterReturn_start cycles parent thread.top
  rw [numFrames, hbelow, List.length_cons] at hroom
  have hreturned : (parent.afterReturn thread.top cycles).Fits
      cycles.toNat := by
    by_cases hfp : thread.top.fp = 0
    · rw [if_pos hfp] at hstacked
      rw [FrameInfo.afterReturn, if_pos hfp]
      exact hstacked.fits
    · rw [if_neg hfp] at hstacked
      exact hfits.afterReturn hfp hstacked.fits
  rw [ThreadInfo.returnTop, hbelow]
  exact ⟨hstacked.replace hreturned hstart hsame, Nat.lt_of_succ_lt hroom,
    htwo⟩

/-- The thread at every test of the loop of `frame_end`. -/
def passes (cycles : CycleCount) (memory : ℕ → Byte) (fp : Word) :
    ℕ → ThreadInfo → List ThreadInfo
  | 0, thread => [thread]
  | fuel + 1, thread =>
      thread ::
        if thread.top.fp ≠ 0 ∧ thread.top.fp < fp then
          passes cycles memory fp fuel
            (thread.dropTop.ensureParent cycles memory fp)
        else []

theorem Ready.passes (h : thread.Ready profiles cycles.toNat) (fuel : ℕ) :
    ∀ pass ∈ thread.passes cycles memory fp fuel,
      pass.Ready profiles cycles.toNat := by
  induction fuel generalizing thread with
  | zero =>
      intro pass hpass
      cases List.mem_singleton.mp hpass
      exact h
  | succ fuel ih =>
      intro pass hpass
      rw [ThreadInfo.passes, List.mem_cons] at hpass
      rcases hpass with rfl | hpass
      · exact h
      · split_ifs at hpass with hloop
        · exact ih ((h.dropTop hloop.1).ensureParent memory fp) pass hpass
        · cases hpass

theorem Ready.dropUnreturned (h : thread.Ready profiles cycles.toNat)
    (fuel : ℕ) :
    (frameDropUnreturned cycles memory fp fuel thread).Ready profiles
      cycles.toNat := by
  induction fuel generalizing thread with
  | zero => exact h
  | succ fuel ih =>
      rw [frameDropUnreturned]
      split_ifs with hloop
      · exact ih ((h.dropTop hloop.1).ensureParent memory fp)
      · exact h

theorem dropUnreturned_of_zero (hfp : thread.top.fp = 0) (fuel : ℕ) :
    frameDropUnreturned cycles memory fp fuel thread = thread := by
  cases fuel with
  | zero => rfl
  | succ fuel => rw [frameDropUnreturned, if_neg fun h => h.1 hfp]

/-- The loop ends: every pass removes a frame, and the frame with frame
pointer 0 at the bottom stops it. -/
theorem Ready.dropUnreturned_stops (h : thread.Ready profiles cycles.toNat) :
    ∀ {fuel : ℕ}, thread.numFrames < fuel →
      ¬((frameDropUnreturned cycles memory fp fuel thread).top.fp ≠ 0 ∧
        (frameDropUnreturned cycles memory fp fuel thread).top.fp < fp) := by
  intro fuel hfuel
  induction fuel generalizing thread with
  | zero => exact absurd hfuel (Nat.not_lt_zero _)
  | succ fuel ih =>
      rw [frameDropUnreturned]
      split_ifs with hloop
      · have hdropped := h.dropTop hloop.1
        have hcount : thread.dropTop.numFrames + 1 = thread.numFrames := by
          obtain ⟨parent, rest, hbelow, -⟩ := h.below
          simp only [ThreadInfo.dropTop, numFrames, hbelow, List.length_cons]
        by_cases hnil : thread.dropTop.below = []
        · -- only the bottom frame is left
          have hfp : (thread.dropTop.ensureParent cycles memory fp).top.fp =
              0 := by
            rw [ensureParent_of_nil hnil]
            have hstacked := hdropped.stacked
            rw [hnil] at hstacked
            cases hstacked with
            | bottom _ hfp => exact hfp
          rw [dropUnreturned_of_zero hfp]
          exact fun hagain => hagain.1 hfp
        · apply ih (hdropped.ensureParent memory fp)
          rw [ensureParent_of_ne_nil hnil]
          omega
      · exact hloop

theorem Bounded.unwound (h : thread.Bounded profiles cycles.toNat)
    (memory : ℕ → Byte) (fp : Word) :
    (thread.unwound cycles memory fp).Ready profiles cycles.toNat :=
  (h.ensureParent memory fp).dropUnreturned _

/-- What `frame_end` may not do wrong: in every test of its loop the frame on
top has an index between 1 and the size of the array, the loop ends, no
subtraction underflows, and the profile entry of the caller exists. -/
structure EndsSafely (profiles : Word → Option ProfileInfo)
    (cycles : CycleCount) (memory : ℕ → Byte) (fp : Word)
    (thread : ThreadInfo) : Prop where
  indices : let start := thread.ensureParent cycles memory fp
    ∀ pass ∈ start.passes cycles memory fp (start.numFrames + 2),
      1 ≤ pass.numFrames ∧ pass.numFrames < pass.sizeFrames
  stops : let ended := thread.unwound cycles memory fp
    ¬(ended.top.fp ≠ 0 ∧ ended.top.fp < fp)
  exact : (thread.unwound cycles memory fp).top.Exact cycles
  caller : let ended := thread.unwound cycles memory fp
    ended.top.fp ≠ 0 →
      ∃ parent ∈ ended.below.head?, (profiles parent.entry).isSome

theorem Bounded.endsSafely (h : thread.Bounded profiles cycles.toNat)
    (memory : ℕ → Byte) (fp : Word) :
    thread.EndsSafely profiles cycles memory fp := by
  have hstart := h.ensureParent memory fp
  have hended := h.unwound memory fp
  refine ⟨fun pass hpass => ?_, ?_, hended.fits.exact, fun hfp => ?_⟩
  · have hready := hstart.passes _ pass hpass
    exact ⟨hready.numFrames_pos, hready.room⟩
  · exact hstart.dropUnreturned_stops (Nat.lt_add_of_pos_right Nat.zero_lt_two)
  · obtain ⟨parent, rest, hbelow, hparent, -⟩ := hended.below
    exact ⟨parent, by rw [hbelow]; rfl, hparent hfp⟩

end ThreadInfo

namespace Frames

/-- The state after a call. -/
def after (cycles : CycleCount) (frames : Frames) : FrameEvent → Frames
  | .start pc fp inIrq => frameBegin cycles pc fp inIrq frames
  | .finish memory fp => frameEnd cycles memory fp frames
  | .switch pc oldframe newframe =>
      frameSwitch cycles pc oldframe newframe frames

/-- A call is safe: `frame_end` does nothing wrong, and the frame index of
the current thread is in its array afterwards. -/
def Safe (cycles : CycleCount) (frames : Frames) (event : FrameEvent) :
    Prop :=
  (∀ id ∈ (frames.after cycles event).current,
    ((frames.after cycles event).heap id).numFrames <
      ((frames.after cycles event).heap id).sizeFrames) ∧
  match event with
  | .finish memory fp => ∀ id ∈ frames.current,
      (frames.heap id).EndsSafely frames.profiles cycles memory fp
  | _ => True

/-- Every call of the trace is safe. -/
def SafeTrace : Frames → List (CycleCount × FrameEvent) → Prop
  | _, [] => True
  | frames, (cycles, event) :: trace =>
      frames.Safe cycles event ∧ SafeTrace (frames.after cycles event) trace

/-- The threads are bounded, the current one up to now and the others up to
the time they were suspended. -/
structure Bounded (frames : Frames) (now : ℕ) : Prop where
  entered : ∀ id ∈ frames.current, hashGet frames.threads 0 = some id
  known : frames.threads.All (· < frames.allocated)
  running : ∀ id ∈ frames.current, id < frames.allocated
  past : ∀ id < frames.allocated, frames.current ≠ some id →
    (frames.heap id).switchcycle.toNat ≤ now
  threads : ∀ id < frames.allocated, (frames.heap id).Bounded frames.profiles
    (if frames.current = some id then now
      else (frames.heap id).switchcycle.toNat)

theorem bounded_init : frameInit.Bounded 0 where
  entered _ hid := by cases hid
  known _ _ hmem := by cases hmem
  running _ hid := by cases hid
  past _ hid := absurd hid (Nat.not_lt_zero _)
  threads _ hid := absurd hid (Nat.not_lt_zero _)

variable {frames frames' : Frames} {now now' id : ℕ} {cycles : CycleCount}

theorem Bounded.mono (h : frames.Bounded now) (hle : now ≤ now') :
    frames.Bounded now' where
  entered := h.entered
  known := h.known
  running := h.running
  past id hid hother := le_trans (h.past id hid hother) hle
  threads id hid := by
    apply (h.threads id hid).mono
    split_ifs
    · exact hle
    · exact le_rfl

theorem Bounded.current (h : frames.Bounded now)
    (hcurrent : frames.current = some id) :
    (frames.heap id).Bounded frames.profiles now := by
  have hthread := h.threads id (h.running id hcurrent)
  rwa [if_pos hcurrent] at hthread

/-- The frames of the current thread change, and profiles may be added. -/
theorem Bounded.replace (h : frames.Bounded now) {thread : ThreadInfo}
    (hcurrent : frames.current = some id)
    (hreplaced : Profiled.Replaced id thread frames frames')
    (hmore : ∀ entry, (frames.profiles entry).isSome →
      (frames'.profiles entry).isSome)
    (hthread : thread.Bounded frames'.profiles now) :
    frames'.Bounded now where
  entered := by
    rw [hreplaced.current, hreplaced.threads]
    exact h.entered
  known := by
    rw [hreplaced.threads, hreplaced.allocated]
    exact h.known
  running := by
    rw [hreplaced.current, hreplaced.allocated]
    exact h.running
  past other hother hne := by
    rw [hreplaced.current] at hne
    rw [hreplaced.allocated] at hother
    have hdiffers : other ≠ id := by
      rintro rfl
      exact hne hcurrent
    rw [hreplaced.heap, Function.update_of_ne hdiffers]
    exact h.past other hother hne
  threads other hother := by
    rw [hreplaced.allocated] at hother
    rw [hreplaced.current, hreplaced.heap]
    by_cases hsame : other = id
    · subst hsame
      rw [if_pos hcurrent, Function.update_self]
      exact hthread
    · rw [Function.update_of_ne hsame]
      exact (h.threads other hother).profiles_mono hmore

section Profiles

theorem isSome_createProfile (frames : Frames) (entry other : Word) :
    ((frames.createProfile entry).profiles other).isSome ↔
      other = entry ∨ (frames.profiles other).isSome := by
  unfold createProfile
  cases hentry : frames.profiles entry with
  | some prof =>
      by_cases hother : other = entry
      · simp [hother, hentry]
      · simp [hother]
  | none =>
      by_cases hother : other = entry
      · simp [hother]
      · simp [hother]

theorem isSome_modifyProfile (frames : Frames) (entry other : Word)
    (change : ProfileInfo → ProfileInfo) :
    ((frames.modifyProfile entry change).profiles other).isSome ↔
      (frames.profiles other).isSome := by
  unfold modifyProfile
  by_cases hother : other = entry
  · simp [hother]
  · simp [hother]

end Profiles

theorem Bounded.start (h : frames.Bounded cycles.toNat)
    (hcurrent : frames.current = some id) (pc fp : Word) (inIrq : Bool) :
    (frameBegin cycles pc fp inIrq frames).Bounded cycles.toNat := by
  obtain ⟨thread, started, hbegin, hprofiles, hreplaced, htop, hbelow, hlarger,
    hroom⟩ := @Profiled.frameBegin_eq frames id cycles pc fp inIrq hcurrent
      (h.entered id hcurrent)
  have hbounded := h.current hcurrent
  have hmore : ∀ entry, (frames.profiles entry).isSome →
      ((started.createProfile (frames.heap id).top.entry).profiles
        entry).isSome := by
    intro entry hentry
    rw [isSome_createProfile, hprofiles]
    exact Or.inr hentry
  rw [hbegin]
  apply h.replace hcurrent (hreplaced.createProfile _) hmore
  refine ⟨?_, hroom hbounded.room, le_trans hbounded.two_le hlarger⟩
  rw [hbelow, htop]
  refine .frame le_rfl (fun _ => ?_) (hbounded.stacked.profiles_mono hmore)
  rw [isSome_createProfile]
  exact Or.inl rfl

theorem Bounded.finish (h : frames.Bounded cycles.toNat)
    (hcurrent : frames.current = some id) (memory : ℕ → Byte) (fp : Word) :
    (frameEnd cycles memory fp frames).Bounded cycles.toNat := by
  have hmore : ∀ entry, (frames.profiles entry).isSome →
      ((frameEnd cycles memory fp frames).profiles entry).isSome := by
    intro entry hentry
    simp only [frameEnd, hcurrent]
    rw [isSome_modifyProfile, isSome_createProfile]
    right
    split
    · split_ifs
      · rw [isSome_modifyProfile]
        exact hentry
      · exact hentry
    · exact hentry
  apply h.replace hcurrent (Profiled.replaced_frameEnd hcurrent) hmore
  exact ((h.current hcurrent).unwound memory fp).returnTop.profiles_mono hmore

/-- While no thread runs, every thread is bounded up to the time it was
suspended. -/
structure Parked (frames : Frames) (now : ℕ) : Prop where
  known : frames.threads.All (· < frames.allocated)
  past : ∀ id < frames.allocated, (frames.heap id).switchcycle.toNat ≤ now
  threads : ∀ id < frames.allocated, (frames.heap id).Bounded frames.profiles
    (frames.heap id).switchcycle.toNat

theorem Bounded.suspend (h : frames.Bounded cycles.toNat) (oldframe : Word) :
    (frames.suspend cycles oldframe).Parked cycles.toNat := by
  unfold Frames.suspend
  cases hcurrent : frames.current with
  | none =>
      have hother : ∀ id, frames.current ≠ some id := by
        intro id
        rw [hcurrent]
        exact (Option.some_ne_none id).symm
      refine ⟨h.known, fun id hid => h.past id hid (hother id), fun id hid => ?_⟩
      have hthread := h.threads id hid
      rwa [if_neg (hother id)] at hthread
  | some id =>
      refine ⟨h.known.move 0 _, fun other hother => ?_, fun other hother => ?_⟩
      · by_cases hsame : other = id
        · subst hsame
          simp only [modifyThread, Function.update_self]
          exact le_rfl
        · simp only [modifyThread, Function.update_of_ne hsame]
          apply h.past other hother
          rw [hcurrent]
          exact fun heq => hsame (Option.some.inj heq).symm
      · by_cases hsame : other = id
        · subst hsame
          have hthread := h.current hcurrent
          simp only [modifyThread, Function.update_self]
          exact ⟨hthread.stacked, hthread.room, hthread.two_le⟩
        · have hthread := h.threads other hother
          have hne : frames.current ≠ some other := by
            rw [hcurrent]
            exact fun heq => hsame (Option.some.inj heq).symm
          rw [if_neg hne] at hthread
          simp only [modifyThread, Function.update_of_ne hsame]
          exact hthread

/-- The thread that comes next takes the cycles it was away. -/
def absorb (cycles : CycleCount) (thread : ThreadInfo) : ThreadInfo :=
  { thread with
    top := { thread.top with
      threadcycles := thread.top.threadcycles +
        (cycles - thread.switchcycle) } }

theorem bounded_absorb {profiles : Word → Option ProfileInfo}
    {thread : ThreadInfo}
    (h : thread.Bounded profiles thread.switchcycle.toNat)
    (hpast : thread.switchcycle.toNat ≤ cycles.toNat) :
    (absorb cycles thread).Bounded profiles cycles.toNat := by
  have hfits := h.stacked.fits
  refine ⟨h.stacked.replace ?_ rfl rfl, h.room, h.two_le⟩
  unfold FrameInfo.Fits FrameInfo.spent at *
  have haway : (cycles - thread.switchcycle).toNat =
      cycles.toNat - thread.switchcycle.toNat := toNat_sub_of_le hpast
  have hthread := @toNat_add_of_le cycles thread.top.threadcycles
    (cycles - thread.switchcycle) (by omega)
  simp only [absorb, hthread]
  omega

theorem Parked.resume (h : frames.Parked cycles.toNat) (pc newframe : Word)
    {id : ℕ} (hid : (frames.resume cycles pc newframe).current = some id) :
    ((frames.resume cycles pc newframe).modifyThread id
      (absorb cycles)).Bounded cycles.toNat := by
  unfold Frames.resume at hid ⊢
  have hmoved := h.known.move newframe.toNat 0
  cases hfound : (hashMove frames.threads newframe.toNat 0).1 with
  | some found =>
      simp only [hfound, Option.some.injEq] at hid ⊢
      subst hid
      have hlt : found < frames.allocated := h.known.found hfound
      refine ⟨?_, hmoved, ?_, fun other hother hne => ?_,
        fun other hother => ?_⟩
      · rintro _ ⟨⟩
        exact Hash.hashGet_move hfound
      · rintro _ ⟨⟩
        exact hlt
      · have hdiffers : other ≠ found := fun heq => hne (congrArg some heq.symm)
        simp only [modifyThread, Function.update_of_ne hdiffers]
        exact h.past other hother
      · by_cases hsame : other = found
        · subst hsame
          simp only [modifyThread, Function.update_self, if_true]
          exact bounded_absorb (h.threads other hother) (h.past other hother)
        · have hne : ¬some found = some other :=
            fun heq => hsame (Option.some.inj heq).symm
          simp only [modifyThread, Function.update_of_ne hsame, if_neg hne]
          exact h.threads other hother
  | none =>
      simp only [hfound, Option.some.injEq] at hid ⊢
      subst hid
      have hearlier : ∀ other < frames.allocated + 1,
          other ≠ frames.allocated → other < frames.allocated := by
        intro other hother hne
        omega
      refine ⟨?_, ?_, ?_, fun other hother hne => ?_, fun other hother => ?_⟩
      · rintro _ ⟨⟩
        exact Hash.hashGet_create _ 0 _
      · have hlater : Hash.All (· < frames.allocated + 1)
            (hashMove frames.threads newframe.toNat 0).2 :=
          hmoved.mono fun id hlt => Nat.lt_succ_of_lt hlt
        exact hlater.create 0 (Nat.lt_succ_self _)
      · rintro _ ⟨⟩
        exact Nat.lt_succ_self _
      · have hdiffers : other ≠ frames.allocated :=
          fun heq => hne (congrArg some heq.symm)
        simp only [modifyThread, Function.update_of_ne hdiffers]
        exact h.past other (hearlier other hother hdiffers)
      · by_cases hsame : other = frames.allocated
        · subst hsame
          simp only [modifyThread, Function.update_self, if_true]
          apply bounded_absorb
          · exact ⟨.bottom le_rfl rfl, Nat.zero_lt_two, le_rfl⟩
          · exact le_rfl
        · have hne : ¬some frames.allocated = some other :=
            fun heq => hsame (Option.some.inj heq).symm
          simp only [modifyThread, Function.update_of_ne hsame, if_neg hne]
          exact h.threads other (hearlier other hother hsame)

theorem Bounded.switch (h : frames.Bounded cycles.toNat)
    (pc oldframe newframe : Word) :
    (frameSwitch cycles pc oldframe newframe frames).Bounded
      cycles.toNat := by
  unfold frameSwitch
  split_ifs with hsame
  · exact h
  · obtain ⟨id, hid⟩ : ∃ id, ((frames.suspend cycles oldframe).resume cycles
        pc newframe).current = some id := by
      unfold Frames.resume
      cases hfound : (hashMove (frames.suspend cycles oldframe).threads
          newframe.toNat 0).1 with
      | some id => exact ⟨id, by simp [hfound]⟩
      | none => exact ⟨_, by simp [hfound]; rfl⟩
    simp only [hid]
    exact (h.suspend oldframe).resume pc newframe hid

/-- One call. -/
theorem Bounded.after (h : frames.Bounded cycles.toNat) (event : FrameEvent) :
    frames.Safe cycles event ∧
      (frames.after cycles event).Bounded cycles.toNat := by
  have hafter : (frames.after cycles event).Bounded cycles.toNat := by
    cases event with
    | start pc fp inIrq =>
        cases hcurrent : frames.current with
        | none =>
            rw [Frames.after, frameBegin, hcurrent]
            exact h
        | some id => exact h.start hcurrent pc fp inIrq
    | finish memory fp =>
        cases hcurrent : frames.current with
        | none =>
            rw [Frames.after, frameEnd, hcurrent]
            exact h
        | some id => exact h.finish hcurrent memory fp
    | switch pc oldframe newframe => exact h.switch pc oldframe newframe
  refine ⟨⟨fun id hid => (hafter.current hid).room, ?_⟩, hafter⟩
  cases event with
  | finish memory fp =>
      exact fun id hid => (h.current hid).endsSafely memory fp
  | start => trivial
  | switch => trivial

/-- Every call of a trace with nondecreasing cycles is safe, whatever frame
pointers it comes with. -/
theorem profiler_safe (trace : List (CycleCount × FrameEvent))
    (hsorted : trace.Pairwise fun a b => a.1 ≤ b.1) :
    frameInit.SafeTrace trace := by
  have hrun : ∀ {frames : Frames} {now : ℕ}, frames.Bounded now →
      (∀ entry ∈ trace, now ≤ entry.1.toNat) → frames.SafeTrace trace := by
    induction trace with
    | nil => exact fun _ _ => trivial
    | cons entry trace ih =>
        intro frames now hbounded hnow
        obtain ⟨hhead, htail⟩ := List.pairwise_cons.mp hsorted
        obtain ⟨hsafe, hafter⟩ :=
          (hbounded.mono (hnow entry List.mem_cons_self)).after entry.2
        refine ⟨hsafe, ih htail hafter fun other hother => ?_⟩
        exact BitVec.le_def.mp (hhead other hother)
  exact hrun bounded_init fun _ _ => Nat.zero_le _

/-- A return without a call, a call without a return and a jump. -/
theorem profiler_safe_unbalanced : frameInit.SafeTrace
    [(0, .switch 0x100 0 0xff00), (5, .finish (fun _ => 0) 0xff10),
      (10, .start 0x200 0xfefe false), (20, .start 0x300 0xfef8 true),
      (30, .finish (fun _ => 0) 0xff20)] :=
  profiler_safe _ (by decide)

end Frames

end BrickEmu
