import BrickEmu.SampleBuffer

/-!
# What reaches the audio device

The samples in the ring are to leave it as they were stored.  They do as long
as none leaves: the first copy moves half the bytes of the samples that it
takes out.  Samples are also lost when the ring is filled up to its end while
its first slot is slot 0, because it then counts as empty.
-/

namespace BrickEmu

namespace Filling

variable {output : ℤ} {start len : ℕ} {f f' : Filling}

/-- The number of samples that the time yields. -/
def due (f : Filling) : ℕ :=
  (f.incr - 1) / CYCLES_PER_SEC_DIV_50

theorem due_pos_iff : CYCLES_PER_SEC_DIV_50 < f.incr ↔ 0 < f.due := by
  have hunit : CYCLES_PER_SEC_DIV_50 = 320000 := rfl
  rw [due, hunit]
  omega

/-- Samples have been stored from the pointer on. -/
structure Stored (f f' : Filling) (new : List Sample) : Prop where
  stored : f'.stored = f.stored ++ new
  ptr : f'.ptr = f.ptr + new.length
  due : f'.due = f.due - new.length
  overflow : f'.overflow = f.overflow
  slots : Ring.slots f'.buffer BUFFER_LENGTH 0 f'.ptr =
    Ring.slots f.buffer BUFFER_LENGTH 0 f.ptr ++ new

theorem Stored.refl (f : Filling) : Stored f f [] :=
  ⟨(List.append_nil _).symm, rfl, rfl, rfl, (List.append_nil _).symm⟩

theorem Stored.trans {f'' : Filling} {new new' : List Sample}
    (h : Stored f f' new) (h' : Stored f' f'' new') :
    Stored f f'' (new ++ new') := by
  refine ⟨?_, ?_, ?_, h'.overflow.trans h.overflow, ?_⟩
  · rw [h'.stored, h.stored, List.append_assoc]
  · rw [h'.ptr, h.ptr, List.length_append, Nat.add_assoc]
  · rw [h'.due, h.due, List.length_append, Nat.sub_sub]
  · rw [h'.slots, h.slots, List.append_assoc]

theorem Stored.put (hroom : f.ptr < BUFFER_LENGTH) :
    Stored f (f.put output)
      [BitVec.ofInt 16 (nextLevel output f.level)] := by
  refine ⟨rfl, rfl, ?_, rfl, ?_⟩
  · have hunit : CYCLES_PER_SEC_DIV_50 = 320000 := rfl
    change (f.incr - CYCLES_PER_SEC_DIV_50 - 1) / CYCLES_PER_SEC_DIV_50 =
      (f.incr - 1) / CYCLES_PER_SEC_DIV_50 - 1
    rw [hunit]
    omega
  · have hslot : (0 + f.ptr) % BUFFER_LENGTH = f.ptr := by
      rw [Nat.zero_add, Nat.mod_eq_of_lt hroom]
    have hpush (x : Sample) :
        Ring.slots (Function.update f.buffer ((0 + f.ptr) % BUFFER_LENGTH) x)
            BUFFER_LENGTH 0 (f.ptr + 1) =
          Ring.slots f.buffer BUFFER_LENGTH 0 f.ptr ++ [x] :=
      Ring.slots_push hroom
    rw [hslot] at hpush
    exact hpush _

/-- The loop stores what is due as long as there is room. -/
theorem store_stored (hroom : f.ptr + len ≤ BUFFER_LENGTH) :
    ∃ new, Stored f (store output len f) new ∧
      new.length = min len f.due := by
  induction len generalizing f with
  | zero => exact ⟨[], Stored.refl f, (Nat.zero_min _).symm⟩
  | succ len ih =>
      rw [store]
      by_cases hincr : CYCLES_PER_SEC_DIV_50 < f.incr
      · rw [if_pos hincr]
        have hpos := due_pos_iff.mp hincr
        have hput : Stored f (f.put output) _ := Stored.put (by omega)
        have hdue := hput.due
        obtain ⟨new, hstored, hlength⟩ := ih
          (show (f.put output).ptr + len ≤ BUFFER_LENGTH by
            rw [hput.ptr, List.length_singleton]
            omega)
        refine ⟨_, hput.trans hstored, ?_⟩
        rw [List.length_append, hlength, hdue, List.length_singleton]
        omega
      · have hnone : f.due = 0 := by
          have hpos := mt due_pos_iff.mpr hincr
          omega
        rw [if_neg hincr]
        exact ⟨[], Stored.refl f, by rw [hnone, Nat.min_zero]; rfl⟩

theorem skip_eq (len : ℕ) (f : Filling) :
    ∃ incr, skip len f = { f with incr := incr } ∧
      (incr - 1) / CYCLES_PER_SEC_DIV_50 = f.due - len := by
  induction len generalizing f with
  | zero => exact ⟨f.incr, rfl, rfl⟩
  | succ len ih =>
      have hunit : CYCLES_PER_SEC_DIV_50 = 320000 := rfl
      rw [skip]
      by_cases hincr : CYCLES_PER_SEC_DIV_50 < f.incr
      · rw [if_pos hincr]
        obtain ⟨incr, hskip, hdue⟩ := ih
          { f with incr := f.incr - CYCLES_PER_SEC_DIV_50 }
        refine ⟨incr, hskip, hdue.trans ?_⟩
        rw [due, due, hunit]
        dsimp only
        omega
      · rw [if_neg hincr]
        refine ⟨f.incr, rfl, ?_⟩
        rw [due, hunit]
        rw [hunit] at hincr
        omega

theorem wrap_ptr (hptr : f.ptr ≤ BUFFER_LENGTH) :
    f.wrap.ptr = f.ptr % BUFFER_LENGTH := by
  rw [wrap]
  split_ifs with hend
  · rw [hend, Nat.mod_self]
  · rw [Nat.mod_eq_of_lt (by omega)]

theorem wrap_stored (f : Filling) : f.wrap.stored = f.stored := by
  rw [wrap]
  split_ifs <;> rfl

theorem wrap_overflow (f : Filling) : f.wrap.overflow = f.overflow := by
  rw [wrap]
  split_ifs <;> rfl

theorem wrap_of_lt (hptr : f.ptr < BUFFER_LENGTH) : f.wrap = f :=
  if_neg hptr.ne

theorem len_le (hstart : start < BUFFER_LENGTH) (f : Filling) :
    f.ptr + f.len start ≤ max f.ptr BUFFER_LENGTH := by
  rw [len]
  split_ifs <;> omega

/-- A pass with room: the samples due are stored, or their time passes. -/
theorem pass_of_len (hlen : f.len start ≠ 0) :
    f.pass start output =
      wrap (if isSoundSilent output f.level then store output (f.len start) f
        else skip (f.len start) f) := by
  rw [pass]
  simp only [if_neg hlen]

/-- A pass moves the pointer by the number of samples that it stores. -/
theorem pass_moves (hstart : start < BUFFER_LENGTH)
    (hptr : f.ptr < BUFFER_LENGTH) :
    ∃ count, (f.pass start output).stored.length =
        f.stored.length + count ∧
      (f.pass start output).ptr = (f.ptr + count) % BUFFER_LENGTH := by
  have hroom := len_le hstart f
  rw [max_eq_right hptr.le] at hroom
  by_cases hlen : f.len start = 0
  · refine ⟨0, ?_, ?_⟩
    · rw [pass, hlen]
      simp only [if_true, store, skip, ite_self]
      exact congrArg List.length (wrap_stored { f with
        incr := 0, overflow := true })
    · rw [pass, hlen]
      simp only [if_true, store, skip, ite_self]
      exact wrap_ptr (f := { f with incr := 0, overflow := true }) hptr.le
  · rw [pass_of_len hlen, wrap_stored]
    split_ifs
    · obtain ⟨new, hstored, hlength⟩ :
          ∃ new, Stored f (store output (f.len start) f) new ∧
            new.length = min (f.len start) f.due := store_stored hroom
      refine ⟨new.length, ?_, ?_⟩
      · rw [hstored.stored, List.length_append]
      · rw [wrap_ptr, hstored.ptr]
        rw [hstored.ptr, hlength]
        omega
    · obtain ⟨incr, hskip, -⟩ := skip_eq (f.len start) f
      rw [hskip]
      exact ⟨0, rfl, wrap_ptr (f := { f with incr := incr }) hptr.le⟩

theorem run_moves (hstart : start < BUFFER_LENGTH)
    (hptr : f.ptr < BUFFER_LENGTH) :
    ∃ count, (f.run start output).stored.length = f.stored.length + count ∧
      (f.run start output).ptr = (f.ptr + count) % BUFFER_LENGTH := by
  fun_induction run start output f with
  | case1 f hincr ih =>
      obtain ⟨first, hstored, hmoved⟩ := pass_moves hstart hptr
      obtain ⟨second, hstored', hmoved'⟩ :=
        ih (hmoved ▸ Nat.mod_lt _ (by decide))
      refine ⟨first + second, by omega, ?_⟩
      rw [hmoved', hmoved, Nat.mod_add_mod, Nat.add_assoc]
  | case2 f hincr =>
      exact ⟨0, rfl, (Nat.mod_eq_of_lt hptr).symm⟩

section First

/- The first slot of the ring is slot 0. -/

theorem len_zero (f : Filling) : f.len 0 = BUFFER_LENGTH - f.ptr :=
  if_neg (Nat.not_lt_zero _)

theorem pass_zero (hptr : f.ptr < BUFFER_LENGTH) :
    f.pass 0 output =
      wrap (if isSoundSilent output f.level then
          store output (BUFFER_LENGTH - f.ptr) f
        else skip (BUFFER_LENGTH - f.ptr) f) := by
  rw [pass_of_len, len_zero]
  rw [len_zero]
  omega

/-- There is always room for a sample. -/
theorem pass_overflow (hptr : f.ptr < BUFFER_LENGTH) :
    (f.pass 0 output).overflow = f.overflow := by
  rw [pass_zero hptr, wrap_overflow]
  split_ifs
  · obtain ⟨new, hstored, -⟩ : ∃ new, Stored f
        (store output (BUFFER_LENGTH - f.ptr) f) new ∧ _ :=
      store_stored (by omega)
    exact hstored.overflow
  · obtain ⟨incr, hskip, -⟩ := skip_eq (BUFFER_LENGTH - f.ptr) f
    rw [hskip]

theorem run_overflow (hptr : f.ptr < BUFFER_LENGTH) :
    (f.run 0 output).overflow = f.overflow := by
  fun_induction run 0 output f with
  | case1 f hincr ih =>
      obtain ⟨count, -, hmoved⟩ := @pass_moves output 0 f (by decide) hptr
      rw [ih (hmoved ▸ Nat.mod_lt _ (by decide)), pass_overflow hptr]
  | case2 f hincr => rfl

/-- While the level does not change nothing is stored. -/
theorem run_quiet (hquiet : isSoundSilent output f.level = false)
    (hptr : f.ptr < BUFFER_LENGTH) :
    ∃ incr, f.run 0 output = { f with incr := incr } := by
  fun_induction run 0 output f with
  | case1 f hincr ih =>
      obtain ⟨passed, hskip, -⟩ := skip_eq (BUFFER_LENGTH - f.ptr) f
      have hpass : f.pass 0 output = { f with incr := passed } := by
        rw [pass_zero hptr, hquiet, if_neg Bool.false_ne_true, hskip]
        exact wrap_of_lt hptr
      rw [hpass] at ih ⊢
      exact ih hquiet hptr
  | case2 f hincr => exact ⟨f.incr, rfl⟩

/-- What fits in front of the end of the buffer is stored in one pass. -/
theorem run_stored (hsilent : isSoundSilent output f.level = true)
    (hroom : f.ptr + f.due < BUFFER_LENGTH) :
    ∃ new, Stored f (f.run 0 output) new ∧ new.length = f.due := by
  obtain ⟨new, hstored, hlength⟩ : ∃ new, Stored f
      (store output (BUFFER_LENGTH - f.ptr) f) new ∧
        new.length = min (BUFFER_LENGTH - f.ptr) f.due :=
    store_stored (by omega)
  have hpass : f.pass 0 output = store output (BUFFER_LENGTH - f.ptr) f := by
    rw [pass_zero (by omega), hsilent, if_pos rfl, wrap_of_lt]
    rw [hstored.ptr, hlength]
    omega
  by_cases hincr : CYCLES_PER_SEC_DIV_50 < f.incr
  · have hdone : (f.pass 0 output).due = 0 := by
      rw [hpass, hstored.due, hlength]
      omega
    have hstop : ¬CYCLES_PER_SEC_DIV_50 < (f.pass 0 output).incr := by
      rw [due_pos_iff, hdone]
      exact lt_irrefl 0
    rw [run, if_pos hincr, run, if_neg hstop, hpass]
    exact ⟨new, hstored, hlength.trans (min_eq_right (by omega))⟩
  · have hnone : f.due = 0 := by
      have hpos := mt due_pos_iff.mpr hincr
      omega
    rw [run, if_neg hincr]
    exact ⟨[], Stored.refl f, hnone.symm⟩

/-- What does not fit drops a whole ring of samples. -/
theorem run_wraps (hsilent : isSoundSilent output f.level = true)
    (hptr : f.ptr < BUFFER_LENGTH) (hfull : BUFFER_LENGTH ≤ f.ptr + f.due) :
    (f.run 0 output).ptr + f.stored.length <
      f.ptr + (f.run 0 output).stored.length := by
  obtain ⟨new, hstored, hlength⟩ : ∃ new, Stored f
      (store output (BUFFER_LENGTH - f.ptr) f) new ∧
        new.length = min (BUFFER_LENGTH - f.ptr) f.due :=
    store_stored (by omega)
  have hnew : new.length = BUFFER_LENGTH - f.ptr := by omega
  have hend : (store output (BUFFER_LENGTH - f.ptr) f).ptr =
      BUFFER_LENGTH := by
    rw [hstored.ptr, hnew]
    omega
  have hpass : f.pass 0 output =
      wrap (store output (BUFFER_LENGTH - f.ptr) f) := by
    rw [pass_zero hptr, hsilent, if_pos rfl]
  have hfirst : (f.pass 0 output).ptr = 0 := by
    rw [hpass, wrap_ptr hend.le, hend, Nat.mod_self]
  have hcount : (f.pass 0 output).stored.length =
      f.stored.length + (BUFFER_LENGTH - f.ptr) := by
    rw [hpass, wrap_stored, hstored.stored, List.length_append, hnew]
  obtain ⟨count, hmore, hmoved⟩ := @run_moves output 0 (f.pass 0 output)
    (by decide) (by rw [hfirst]; decide)
  have hincr : CYCLES_PER_SEC_DIV_50 < f.incr := due_pos_iff.mpr (by omega)
  have hle : (0 + count) % BUFFER_LENGTH ≤ 0 + count := Nat.mod_le _ _
  rw [run, if_pos hincr, hmoved, hmore, hfirst, hcount]
  omega

end First

end Filling

/-- The sound, the samples stored and the bytes copied since its start, and
whether an overflow was found. -/
structure Playback where
  sound : SdlSound
  stored : List Sample
  copied : List Byte
  overflow : Bool

/-- `data` is what the audio device has in its buffer. -/
inductive SoundCall where
  | update (bit : Bool) (newIncr : BitVec 32)
  | send (data : ℕ → Byte) (len8 : ℕ)

/-- A producer does not fill the ring up to its end from slot 0 on, and a
consumer that wants samples finds none. -/
def SoundCall.Kept (s : SdlSound) : SoundCall → Prop
  | update bit newIncr =>
      s.sampleStart = 0 →
        isSoundSilent (soundOutput bit) s.sampleLevel.toInt = true →
          s.sampleEnd + (s.elapsed newIncr - 1) / CYCLES_PER_SEC_DIV_50 <
            BUFFER_LENGTH
  | send _ len8 => len8 / 2 = 0 ∨ s.sampleStart = s.sampleEnd

namespace Playback

def start (silence : Sample) : Playback :=
  ⟨soundInit silence, [], [], false⟩

def step (p : Playback) : SoundCall → Playback
  | .update bit newIncr =>
      let result := soundUpdate bit newIncr p.sound
      { p with
        sound := result.1
        stored := p.stored ++ result.2.1
        overflow := p.overflow || result.2.2 }
  | .send data len8 =>
      let result := soundSendSamples data len8 p.sound
      { p with sound := result.2.2, copied := p.copied ++ result.2.1 }

def run (p : Playback) (calls : List SoundCall) : Playback :=
  calls.foldl step p

/-- The samples in the ring. -/
def waiting (p : Playback) : List Sample :=
  Ring.slots p.sound.sampleBuffer BUFFER_LENGTH p.sound.sampleStart
    ((p.sound.sampleEnd + BUFFER_LENGTH - p.sound.sampleStart) %
      BUFFER_LENGTH)

/-- Every sample stored has been copied or is waiting, in order. -/
def Fifo (p : Playback) : Prop :=
  p.copied ++ p.waiting.flatMap sampleBytes = p.stored.flatMap sampleBytes

def Indexed (p : Playback) : Prop :=
  p.sound.sampleStart < BUFFER_LENGTH ∧ p.sound.sampleEnd < BUFFER_LENGTH

/-- Every call of the sequence is harmless in the state in which it is made. -/
def AllKept : Playback → List SoundCall → Prop
  | _, [] => True
  | p, call :: calls => call.Kept p.sound ∧ AllKept (p.step call) calls

section Steps

variable {p : Playback} {call : SoundCall}

theorem length_flatMap_sampleBytes (samples : List Sample) :
    (samples.flatMap sampleBytes).length = 2 * samples.length := by
  induction samples with
  | nil => rfl
  | cons sample samples ih =>
      rw [List.flatMap_cons, List.length_append, ih, List.length_cons]
      change 2 + 2 * samples.length = 2 * (samples.length + 1)
      omega

theorem Fifo.length (h : p.Fifo) :
    p.copied.length + 2 * p.waiting.length = 2 * p.stored.length := by
  rw [← length_flatMap_sampleBytes, ← length_flatMap_sampleBytes,
    ← List.length_append, h]

theorem length_copiedBytes (buffer : ℕ → Sample) (ptr size : ℕ) :
    (copiedBytes buffer ptr size).length = size := by
  rw [copiedBytes, List.length_map, List.length_range]

theorem uint32_sub {a b : ℕ} (hle : b ≤ a) (ha : a < BUFFER_LENGTH) :
    uint32 ((a : ℤ) - b) = a - b := by
  have hlength : BUFFER_LENGTH = 40960 := rfl
  rw [← Nat.cast_sub hle]
  exact uint32_natCast (by omega)

theorem send_indexed (h : p.Indexed) (data : ℕ → Byte) (len8 : ℕ) :
    (p.step (.send data len8)).Indexed := by
  obtain ⟨hstart, hend⟩ := h
  refine ⟨?_, hend⟩
  rw [step, soundSendSamples]
  dsimp only
  by_cases hwrapped : p.sound.sampleEnd < p.sound.sampleStart
  · rw [if_pos hwrapped, if_pos hwrapped]
    rcases le_total (len8 / 2) (BUFFER_LENGTH - p.sound.sampleStart)
      with hshort | hlong
    · -- the first copy is enough
      rw [min_eq_right hshort, Nat.sub_self,
        if_neg fun hrest => Nat.lt_irrefl 0 hrest.1]
      exact Nat.mod_lt _ (by decide)
    · have hturn : (p.sound.sampleStart +
          (BUFFER_LENGTH - p.sound.sampleStart)) % BUFFER_LENGTH = 0 := by
        rw [Nat.add_sub_cancel' hstart.le, Nat.mod_self]
      rw [min_eq_left hlong, hturn, uint32_sub (Nat.zero_le _) hend]
      split_ifs <;> omega
  · rw [if_neg hwrapped, if_neg hwrapped,
      uint32_sub (Nat.not_lt.mp hwrapped) hend]
    split_ifs <;> omega

theorem update_indexed (h : p.Indexed) (bit : Bool) (newIncr : BitVec 32) :
    (p.step (.update bit newIncr)).Indexed := by
  obtain ⟨hstart, hend⟩ := h
  rw [step, soundUpdate]
  dsimp only
  split_ifs
  · exact ⟨hstart, hend⟩
  · obtain ⟨count, -, hmoved⟩ := @Filling.run_moves (soundOutput bit)
      p.sound.sampleStart ⟨p.sound.sampleBuffer, p.sound.sampleEnd,
        p.sound.sampleLevel.toInt, p.sound.elapsed newIncr, [], false⟩
      hstart hend
    exact ⟨hstart, hmoved.trans_lt (Nat.mod_lt _ (by decide))⟩

theorem step_indexed (h : p.Indexed) (call : SoundCall) :
    (p.step call).Indexed := by
  cases call with
  | update bit newIncr => exact update_indexed h bit newIncr
  | send data len8 => exact send_indexed h data len8

/-- The states before the first loss. -/
structure Intact (p : Playback) : Prop where
  first : p.sound.sampleStart = 0
  bound : p.sound.sampleEnd < BUFFER_LENGTH
  overflow : p.overflow = false
  fifo : p.Fifo

theorem waiting_first (hfirst : p.sound.sampleStart = 0)
    (hbound : p.sound.sampleEnd < BUFFER_LENGTH) :
    p.waiting = Ring.slots p.sound.sampleBuffer BUFFER_LENGTH 0
      p.sound.sampleEnd := by
  rw [waiting, hfirst, Nat.sub_zero, Nat.add_mod_right,
    Nat.mod_eq_of_lt hbound]

/-- From slot 0 on the consumer copies as many bytes as it takes samples. -/
theorem send_first (hfirst : p.sound.sampleStart = 0)
    (hbound : p.sound.sampleEnd < BUFFER_LENGTH) (data : ℕ → Byte)
    (len8 : ℕ) :
    p.step (.send data len8) =
      { p with
        sound := { p.sound with
          sampleStart := min p.sound.sampleEnd (len8 / 2) }
        copied := p.copied ++ copiedBytes p.sound.sampleBuffer 0
          (min p.sound.sampleEnd (len8 / 2)) } := by
  have hsize : (if 0 < len8 / 2 ∧ 0 < p.sound.sampleEnd then
      min p.sound.sampleEnd (len8 / 2) else 0) =
        min p.sound.sampleEnd (len8 / 2) := by
    split_ifs <;> omega
  have hnone : copiedBytes p.sound.sampleBuffer 0 0 = [] := rfl
  rw [step, soundSendSamples, hfirst]
  dsimp only
  rw [if_neg (Nat.not_lt_zero _), if_neg (Nat.not_lt_zero _),
    uint32_sub (Nat.zero_le _) hbound, Nat.sub_zero, Nat.sub_zero, hsize,
    hnone, List.nil_append, Nat.zero_add]

theorem send_fifo_iff (h : p.Intact) (data : ℕ → Byte) (len8 : ℕ) :
    (p.step (.send data len8)).Fifo ↔
      len8 / 2 = 0 ∨ p.sound.sampleStart = p.sound.sampleEnd := by
  have hbefore := h.fifo.length
  rw [waiting_first h.first h.bound, Ring.length_slots] at hbefore
  rw [send_first h.first h.bound, h.first]
  constructor
  · intro hafter
    have hafter := hafter.length
    rw [waiting, Ring.length_slots, List.length_append,
      length_copiedBytes] at hafter
    have hlength : BUFFER_LENGTH = 40960 := rfl
    have hbound := h.bound
    dsimp only at hafter
    rw [hlength] at hafter hbound
    omega
  · intro hnone
    have hsize : min p.sound.sampleEnd (len8 / 2) = 0 := by omega
    rw [hsize]
    have hcopied : p.copied ++ copiedBytes p.sound.sampleBuffer 0 0 =
        p.copied := List.append_nil _
    rw [hcopied, ← h.first]
    exact h.fifo

section Update

variable {bit : Bool} {newIncr : BitVec 32}

/-- The variables with which the loops of `sound_update` begin. -/
def filling (p : Playback) (newIncr : BitVec 32) : Filling :=
  ⟨p.sound.sampleBuffer, p.sound.sampleEnd, p.sound.sampleLevel.toInt,
    p.sound.elapsed newIncr, [], false⟩

theorem update_short
    (hshort : p.sound.elapsed newIncr < CYCLES_PER_SEC_DIV_50) :
    p.step (.update bit newIncr) =
      { p with sound := { p.sound with incr := p.sound.elapsed newIncr } } := by
  rw [step, soundUpdate]
  simp only [if_pos hshort, List.append_nil, Bool.or_false]

theorem update_run (hfirst : p.sound.sampleStart = 0)
    (hlong : ¬p.sound.elapsed newIncr < CYCLES_PER_SEC_DIV_50) :
    p.step (.update bit newIncr) =
      let f := (p.filling newIncr).run 0 (soundOutput bit)
      { p with
        sound := { p.sound with
          sampleBuffer := f.buffer
          sampleEnd := f.ptr
          sampleLevel := BitVec.ofInt 16 f.level
          incr := f.incr }
        stored := p.stored ++ f.stored
        overflow := p.overflow || f.overflow } := by
  rw [step, soundUpdate]
  simp only [if_neg hlong, hfirst]
  rfl

theorem update_overflow (h : p.Intact) (bit : Bool) (newIncr : BitVec 32) :
    (p.step (.update bit newIncr)).overflow = false := by
  by_cases hlong : p.sound.elapsed newIncr < CYCLES_PER_SEC_DIV_50
  · rw [update_short hlong]
    exact h.overflow
  · rw [update_run h.first hlong]
    dsimp only
    rw [Filling.run_overflow h.bound, h.overflow]
    rfl

theorem update_waiting (h : p.Intact)
    (hlong : ¬p.sound.elapsed newIncr < CYCLES_PER_SEC_DIV_50) :
    let f := (p.filling newIncr).run 0 (soundOutput bit)
    (p.step (.update bit newIncr)).waiting =
      Ring.slots f.buffer BUFFER_LENGTH 0 f.ptr := by
  have hbound := (update_indexed ⟨h.first ▸ (by decide), h.bound⟩ bit
    newIncr).2
  rw [update_run h.first hlong] at hbound ⊢
  exact waiting_first h.first hbound

theorem update_fifo_iff (h : p.Intact) (bit : Bool) (newIncr : BitVec 32) :
    (p.step (.update bit newIncr)).Fifo ↔
      (SoundCall.update bit newIncr).Kept p.sound := by
  by_cases hlong : p.sound.elapsed newIncr < CYCLES_PER_SEC_DIV_50
  · rw [update_short hlong]
    refine iff_of_true h.fifo fun _ _ => ?_
    rw [Nat.div_eq_of_lt (by omega)]
    exact h.bound
  · have hwaiting := waiting_first h.first h.bound
    have hafter := @update_waiting p bit newIncr h hlong
    have hrun := @update_run p bit newIncr h.first hlong
    cases hsilent : isSoundSilent (soundOutput bit) p.sound.sampleLevel.toInt
    · -- nothing is stored
      obtain ⟨incr, hquiet⟩ := @Filling.run_quiet (soundOutput bit)
        (p.filling newIncr) hsilent h.bound
      refine iff_of_true ?_ fun _ htrue => ?_
      · rw [Fifo, hafter, hrun, hquiet]
        dsimp only [filling]
        rw [List.append_nil, ← hwaiting]
        exact h.fifo
      · rw [hsilent] at htrue
        cases htrue
    · by_cases hroom : p.sound.sampleEnd + (p.filling newIncr).due <
          BUFFER_LENGTH
      · obtain ⟨new, hstored, -⟩ := @Filling.run_stored (soundOutput bit)
          (p.filling newIncr) hsilent hroom
        refine iff_of_true ?_ fun _ _ => hroom
        have hnew : ((p.filling newIncr).run 0 (soundOutput bit)).stored =
            new := hstored.stored
        rw [Fifo, hafter, hstored.slots, hrun]
        dsimp only [filling] at hnew ⊢
        rw [hnew, ← hwaiting, List.flatMap_append, List.flatMap_append,
          ← h.fifo, List.append_assoc]
      · -- the samples of a whole turn are lost
        have hwraps := @Filling.run_wraps (soundOutput bit)
          (p.filling newIncr) hsilent h.bound (Nat.not_lt.mp hroom)
        refine iff_of_false ?_ fun hkept => hroom (hkept h.first hsilent)
        intro hfifo
        have hbefore := h.fifo.length
        have hlength := hfifo.length
        rw [hafter, hrun, Ring.length_slots] at hlength
        rw [hwaiting, Ring.length_slots] at hbefore
        dsimp only [filling] at hwraps hlength
        rw [List.length_append] at hlength
        rw [List.length_nil] at hwraps
        omega

end Update

theorem step_fifo_iff (h : p.Intact) (call : SoundCall) :
    (p.step call).Fifo ↔ call.Kept p.sound := by
  cases call with
  | update bit newIncr => exact update_fifo_iff h bit newIncr
  | send data len8 => exact send_fifo_iff h data len8

theorem step_overflow (h : p.Intact) (call : SoundCall) :
    (p.step call).overflow = false := by
  cases call with
  | update bit newIncr => exact update_overflow h bit newIncr
  | send data len8 => exact h.overflow

/-- A harmless call leaves the first slot where it is. -/
theorem step_first (h : p.Intact) (hkept : call.Kept p.sound) :
    (p.step call).sound.sampleStart = 0 := by
  cases call with
  | update bit newIncr =>
      rw [step, soundUpdate]
      dsimp only
      split_ifs <;> exact h.first
  | send data len8 =>
      rw [send_first h.first h.bound]
      dsimp only
      have hnone : len8 / 2 = 0 ∨ p.sound.sampleStart = p.sound.sampleEnd :=
        hkept
      rw [h.first] at hnone
      omega

theorem Intact.step (h : p.Intact) (hkept : call.Kept p.sound) :
    (p.step call).Intact where
  first := step_first h hkept
  bound := (step_indexed ⟨h.first ▸ (by decide), h.bound⟩ call).2
  overflow := step_overflow h call
  fifo := (step_fifo_iff h call).mpr hkept

end Steps

theorem indexed_start (silence : Sample) : (start silence).Indexed :=
  ⟨Nat.succ_pos _, Nat.succ_pos _⟩

theorem intact_start (silence : Sample) : (start silence).Intact := by
  refine ⟨rfl, Nat.succ_pos _, rfl, ?_⟩
  rw [Fifo, waiting_first rfl (Nat.succ_pos _)]
  rfl

theorem run_indexed {p : Playback} (h : p.Indexed)
    (calls : List SoundCall) : (p.run calls).Indexed := by
  induction calls generalizing p with
  | nil => exact h
  | cons call calls ih => exact ih (step_indexed h call)

/-- Nothing is lost in a state of the run before the producer finds an
overflow. -/
def FifoAlong (p : Playback) (calls : List SoundCall) : Prop :=
  ∀ before, before <+: calls → (p.run before).overflow = false →
    (p.run before).Fifo

theorem fifoAlong_cons (p : Playback) (call : SoundCall)
    (calls : List SoundCall) :
    FifoAlong p (call :: calls) ↔
      (p.overflow = false → p.Fifo) ∧ FifoAlong (p.step call) calls := by
  constructor
  · intro h
    refine ⟨h [] (List.nil_prefix), fun before hbefore => ?_⟩
    exact h (call :: before) (List.cons_prefix_cons.mpr ⟨rfl, hbefore⟩)
  · rintro ⟨hnow, hlater⟩ before hbefore
    cases before with
    | nil => exact hnow
    | cons first before =>
        obtain ⟨rfl, hrest⟩ := List.cons_prefix_cons.mp hbefore
        exact hlater before hrest

theorem Intact.fifoAlong_iff {p : Playback} (h : p.Intact)
    (calls : List SoundCall) : FifoAlong p calls ↔ AllKept p calls := by
  induction calls generalizing p with
  | nil =>
      refine iff_of_true (fun before hbefore _ => ?_) trivial
      rw [List.prefix_nil.mp hbefore]
      exact h.fifo
  | cons call calls ih =>
      rw [fifoAlong_cons, AllKept]
      constructor
      · rintro ⟨-, hlater⟩
        have hkept : call.Kept p.sound := (step_fifo_iff h call).mp
          (hlater [] List.nil_prefix (step_overflow h call))
        exact ⟨hkept, (ih (h.step hkept)).mp hlater⟩
      · rintro ⟨hkept, hrest⟩
        exact ⟨fun _ => h.fifo, (ih (h.step hkept)).mpr hrest⟩

/-- In every run the indices stay inside the buffer, and the samples reach the
device in order without a loss exactly if every call is harmless. -/
theorem sampleFifo_iff (silence : Sample) (calls : List SoundCall) :
    ((start silence).run calls).Indexed ∧
      (FifoAlong (start silence) calls ↔ AllKept (start silence) calls) :=
  ⟨run_indexed (indexed_start silence) calls,
    (intact_start silence).fifoAlong_iff calls⟩

/-- One sample is stored, and one byte of it is copied. -/
theorem sampleFifo_fails_half :
    ¬∀ (silence : Sample) (calls : List SoundCall),
      FifoAlong (start silence) calls := by
  intro hall
  have hstart := intact_start 0
  obtain ⟨hupdate, hsend, -⟩ := (hstart.fifoAlong_iff
    [.update true 334, .send (fun _ => 0) 2]).mp (hall 0 _)
  obtain ⟨new, hstored, hlength⟩ := @Filling.run_stored (soundOutput true)
    ((start 0).filling 334) (by decide) (by decide)
  have hlong : ¬(start 0).sound.elapsed 334 < CYCLES_PER_SEC_DIV_50 := by
    decide
  rw [update_run rfl hlong] at hsend
  have hend := hstored.ptr
  rw [hlength] at hend
  rcases hsend with hzero | hsame
  · exact absurd hzero (by decide)
  · dsimp only at hsame
    rw [hend] at hsame
    exact absurd hsame (by decide)

end Playback

end BrickEmu
