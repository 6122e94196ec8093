import BrickEmu.RomSoundQueue

/-!
# What the sound queue holds

The head stands before the next entry and the tail behind the last one.  The
timer interrupt takes the first entry, and a call adds one behind the last by
moving the tail.
-/

namespace BrickEmu

namespace Rom

variable {timer flags : Word} {m m' : Ram}

section Start

/-- The memory below an address is kept. -/
def KeptBelow (n : ℕ) (m m' : Ram) : Prop :=
  ∀ a : Word, a.toNat < n → m' a = m a

namespace KeptBelow

variable {n : ℕ}

theorem refl (m : Ram) : KeptBelow n m m :=
  fun _ _ => rfl

theorem set {b : Word} {val : Byte} (hb : n ≤ b.toNat)
    (h : KeptBelow n m m') : KeptBelow n m (m'.set b val) := by
  intro a ha
  have hne : a ≠ b := by
    rintro rfl
    omega
  rw [Ram.set_of_ne hne, h a ha]

theorem set16 {b val : Word} (hb : n ≤ b.toNat ∧ n ≤ (b + 1).toNat)
    (h : KeptBelow n m m') : KeptBelow n m (m'.set16 b val) :=
  .set hb.2 (.set hb.1 h)

theorem memclr {b : Word} {len : ℕ}
    (hb : n ≤ b.toNat ∧ b.toNat + len ≤ 65536) (h : KeptBelow n m m') :
    KeptBelow n m (memclr m' b len) := by
  induction len with
  | zero => exact h
  | succ len ih =>
      have hcell : (b + BitVec.ofNat 16 len).toNat = b.toNat + len := by
        rw [BitVec.toNat_add, BitVec.toNat_ofNat]
        omega
      exact .set (by omega) (ih ⟨hb.1, by omega⟩)

end KeptBelow

theorem initTimerRegisters_kept (m : Ram) :
    KeptBelow 0xf000 m (initTimerRegisters m) :=
  .set (by decide) <| .set (by decide) <| .set (by decide) <|
    .set16 (by decide) <| .set16 (by decide) <| .set (by decide) <|
    .set (by decide) <| .set (by decide) <| .set (by decide) <|
    .set (by decide) <| .set (by decide) <| .set (by decide) <|
    .set (by decide) <| .set (by decide) <| .set (by decide) <|
    .set (by decide) <| .set (by decide) <| .set (by decide) <|
    .set (by decide) <| .set (by decide) <| .refl m

/-- The pointers are not written again. -/
theorem initTimerVariables_pointers (labels : Labels) (timer flags : Word)
    (m : Ram) :
    Pointers timer flags (initTimerVariables labels timer flags m) := by
  have hstored : Pointers timer flags
      ((m.set16 timerStruct timer).set16 runHandlerFlags flags) := by
    constructor
    · rw [Ram.get16, Ram.set16_of_ne (by decide) (by decide),
        Ram.set16_of_ne (b := timerStruct + 1) (a := runHandlerFlags)
          (by decide) (by decide)]
      exact get16_set16 m timerStruct timer
    · exact get16_set16 _ runHandlerFlags flags
  have hkept : KeptBelow 0xefca
      ((m.set16 timerStruct timer).set16 runHandlerFlags flags)
      (initTimerVariables labels timer flags m) :=
    .set16 (by decide) <| .set16 (by decide) <| .set (by decide) <|
      .set (by decide) <| .memclr (by decide) <| .set (by decide) <|
      .set (by decide) <| .set (by decide) <| .set (by decide) <|
      .set (by decide) <| .set (by decide) <| .set (by decide) <|
      .set (by decide) <| .memclr (by decide) <| .refl _
  exact hstored.congr fun a _ ha => hkept a ha

/-- The queue starts empty. -/
theorem initTimerVariables_queue (labels : Labels) (timer flags : Word)
    (m : Ram) :
    initTimerVariables labels timer flags m soundQueueHead = 0 ∧
      initTimerVariables labels timer flags m soundQueueTail = 1 := by
  have hkept (m' : Ram) : KeptBelow 0xefd8 (m'.set soundQueueHead 0)
      (((((memclr (m'.set soundQueueHead 0) soundQueueType 30).set
        soundTuneActive 0).set soundPlaying 0).set16 ociaVector
        labels.ociaHandler).set16 adiVector labels.adiHandler) :=
    .set16 (by decide) <| .set16 (by decide) <| .set (by decide) <|
      .set (by decide) <| .memclr (by decide) <| .refl _
  constructor
  · exact (hkept _ soundQueueHead (by decide)).trans (Ram.set_self ..)
  · apply (hkept _ soundQueueTail (by decide)).trans
    rw [Ram.set_of_ne (by decide)]
    exact Ram.set_self ..

theorem initTimer_pointers (labels : Labels) (timer flags : Word) (m : Ram) :
    Pointers timer flags (initTimer labels timer flags m) :=
  (initTimerVariables_pointers labels timer flags m).congr fun a _ ha =>
    initTimerRegisters_kept _ a (by omega)

theorem initTimer_queue (labels : Labels) (timer flags : Word) (m : Ram) :
    initTimer labels timer flags m soundQueueHead = 0 ∧
      initTimer labels timer flags m soundQueueTail = 1 := by
  obtain ⟨hhead, htail⟩ := initTimerVariables_queue labels timer flags m
  rw [initTimer, initTimerRegisters_kept _ _ (by decide),
    initTimerRegisters_kept _ _ (by decide)]
  exact ⟨hhead, htail⟩

end Start

section Cells

/-- The cells of the queue other than the head are safe from the interrupt. -/
theorem QueueCell.not_timer (hapart : Apart timer flags) {a : Word}
    (ha : QueueCell a) : ¬ TimerCell timer flags a := by
  rw [QueueCell] at ha
  apply hapart.not_cell
  · omega
  · omega
  · rw [TimerVariable]
    omega

theorem toNat_slot {base : Word} {index : Byte}
    (hbase : base.toNat + 256 ≤ 65536) :
    (base + index.setWidth 16).toNat = base.toNat + index.toNat := by
  have hlt := index.isLt
  rw [BitVec.toNat_add, BitVec.toNat_setWidth]
  omega

theorem toNat_type (index : Byte) :
    (soundQueueType + index.setWidth 16).toNat = 0xefd8 + index.toNat :=
  toNat_slot (by decide)

theorem toNat_value (index : Byte) :
    (soundQueueValue + index.setWidth 16).toNat = 0xefe2 + index.toNat :=
  toNat_slot (by decide)

theorem toNat_freq (index : Byte) :
    (soundQueueFreq + index.setWidth 16).toNat = 0xefec + index.toNat :=
  toNat_slot (by decide)

theorem soundEntry_congr {index : Byte}
    (h : ∀ a : Word, a.toNat = 0xefd8 + index.toNat ∨
      a.toNat = 0xefe2 + index.toNat ∨ a.toNat = 0xefec + index.toNat →
      m' a = m a) : m'.soundEntry index = m.soundEntry index := by
  rw [Ram.soundEntry, Ram.soundEntry, h _ (Or.inl (toNat_type index)),
    h _ (Or.inr (Or.inl (toNat_value index))),
    h _ (Or.inr (Or.inr (toNat_freq index)))]

/-- The head is not part of an entry. -/
theorem soundEntry_setHead (m : Ram) {index : Byte} (hindex : index.toNat < 10)
    (head : Byte) :
    (m.set soundQueueHead head).soundEntry index = m.soundEntry index := by
  apply soundEntry_congr
  intro a ha
  apply Ram.set_of_ne
  rintro rfl
  change 0xefd7 = _ ∨ 0xefd7 = _ ∨ 0xefd7 = _ at ha
  omega

theorem toNat_nextIndex {index : Byte} (hindex : index.toNat < 10) :
    (nextIndex index).toNat = (index.toNat + 1) % 10 := by
  have hsucc : (index + 1).toNat = index.toNat + 1 := by
    change (index.toNat + 1) % 256 = _
    omega
  rw [nextIndex]
  split_ifs with hten
  · have hnat := congrArg BitVec.toNat hten
    rw [hsucc] at hnat
    change _ = 10 at hnat
    rw [hnat]
    rfl
  · have hne : (index + 1).toNat ≠ 10 :=
      fun h => hten (BitVec.eq_of_toNat_eq h)
    rw [hsucc] at hne ⊢
    omega

end Cells

section Ticks

/-- The interrupt as the queue sees it. -/
inductive QueueTick (m : Ram) : Option SoundEntry × Ram → Prop
  | keeps {m' : Ram} (h : ∀ a, QueueCell a → m' a = m a) :
      QueueTick m (none, m')
  | takes {m' : Ram} (hne : nextIndex (m soundQueueHead) ≠ m soundQueueTail)
      (h : ∀ a, QueueCell a →
        m' a = (m.set soundQueueHead (nextIndex (m soundQueueHead))) a) :
      QueueTick m (some (m.soundEntry (nextIndex (m soundQueueHead))), m')

theorem counts_queue (hapart : Apart timer flags)
    (hp : Pointers timer flags m) {a : Word} (ha : QueueCell a) :
    tickMotors timer (tickReceive timer m) a = m a := by
  rw [QueueCell] at ha
  rw [tickMotors_variable hapart (tickReceive_pointers hapart hp) (by omega)
      (by omega),
    tickReceive_variable hapart (by omega) (by omega)]

theorem ociaHandler_queue (hapart : Apart timer flags)
    (hp : Pointers timer flags m) (hhead : (m soundQueueHead).toNat < 10)
    (labels : Labels) : QueueTick m (ociaHandler labels m) := by
  obtain ⟨start, hstart, hpstart, hsound⟩ :=
    ociaHandler_tick hapart hp labels
  have hcounts : ∀ a, QueueCell a →
      tickMotors timer (tickReceive timer start) a = m a := fun a ha =>
    (counts_queue hapart hpstart ha).trans
      (hstart a (ha.not_timer hapart))
  generalize ociaHandler labels m = after at hsound
  cases hsound with
  | quiet h =>
      apply QueueTick.keeps
      intro a ha
      rw [h a (ha.not_timer hapart), hcounts a ha]
  | @takes mid m' h hne h' =>
      have hmid : ∀ a, QueueCell a → mid a = m a := fun a ha =>
        (h a (ha.not_timer hapart)).trans (hcounts a ha)
      have hcells (index : Byte) (a : Word) (ha : QueueCell a) :
          (mid.set soundQueueHead index) a =
            (m.set soundQueueHead index) a := by
        by_cases heq : a = soundQueueHead
        · rw [heq, Ram.set_self, Ram.set_self]
        · rw [Ram.set_of_ne heq, Ram.set_of_ne heq, hmid a ha]
      rw [hmid _ (Or.inr (by decide)), hmid _ (Or.inr (by decide))] at hne
      rw [hmid _ (Or.inr (by decide))] at h' ⊢
      have hindex := toNat_nextIndex hhead
      have hentry : (mid.set soundQueueHead
          (nextIndex (m soundQueueHead))).soundEntry
            (nextIndex (m soundQueueHead)) =
          m.soundEntry (nextIndex (m soundQueueHead)) := by
        rw [soundEntry_setHead mid (by omega)]
        apply soundEntry_congr
        intro a ha
        exact hmid a (Or.inr (by omega))
      rw [hentry]
      apply QueueTick.takes hne
      intro a ha
      rw [h' a (ha.not_timer hapart), hcells _ a ha]

theorem QueueTick.pointers {after : Option SoundEntry × Ram}
    (h : QueueTick m after) (hp : Pointers timer flags m) :
    Pointers timer flags after.2 := by
  apply hp.congr
  intro a hlow hhigh
  cases h with
  | keeps h => exact h a (Or.inl ⟨hlow, hhigh⟩)
  | takes _ h =>
      apply (h a (Or.inl ⟨hlow, hhigh⟩)).trans
      apply Ram.set_of_ne
      rintro rfl
      exact absurd hhigh (by decide)

end Ticks

section Contents

/-- Head and tail are slots, and between them there are at most eight. -/
structure QueueBounds (m : Ram) : Prop where
  head : (m soundQueueHead).toNat < 10
  tail : (m soundQueueTail).toNat < 10
  room : m.queueCount ≤ 8

theorem length_queuedSounds (m : Ram) :
    m.queuedSounds.length = m.queueCount :=
  Ring.length_slots

theorem toNat_slotIndex (n : ℕ) :
    (BitVec.ofNat 8 (n % 10)).toNat = n % 10 := by
  rw [BitVec.toNat_ofNat]
  omega

/-- The slot of the tail does not belong to the contents. -/
theorem queuedSounds_congr (hb : QueueBounds m)
    (hhead : m' soundQueueHead = m soundQueueHead)
    (htail : m' soundQueueTail = m soundQueueTail)
    (hslots : ∀ index : Byte, index.toNat < 10 →
      index ≠ m soundQueueTail → m'.soundEntry index = m.soundEntry index) :
    m'.queueCount = m.queueCount ∧ m'.queuedSounds = m.queuedSounds := by
  have hcount : m'.queueCount = m.queueCount := by
    rw [Ram.queueCount, Ram.queueCount, hhead, htail]
  refine ⟨hcount, ?_⟩
  rw [Ram.queuedSounds, Ram.queuedSounds, hcount, hhead]
  apply Ring.slots_congr
  intro i hi
  have htail := hb.tail
  have hhead := hb.head
  apply hslots
  · rw [toNat_slotIndex]
    omega
  · intro heq
    have hnat := congrArg BitVec.toNat heq
    rw [toNat_slotIndex] at hnat
    rw [Ram.queueCount] at hi
    omega

theorem QueueBounds.congr (hb : QueueBounds m)
    (hhead : m' soundQueueHead = m soundQueueHead)
    (htail : m' soundQueueTail = m soundQueueTail) : QueueBounds m' where
  head := hhead ▸ hb.head
  tail := htail ▸ hb.tail
  room := by
    rw [Ram.queueCount, hhead, htail]
    exact hb.room

/-- A queue whose cells are kept. -/
theorem queuedSounds_kept (hb : QueueBounds m)
    (hkept : ∀ a, QueueCell a → m' a = m a) :
    QueueBounds m' ∧ m'.queuedSounds = m.queuedSounds := by
  have hhead : m' soundQueueHead = m soundQueueHead :=
    hkept _ (Or.inr (by decide))
  have htail : m' soundQueueTail = m soundQueueTail :=
    hkept _ (Or.inr (by decide))
  refine ⟨hb.congr hhead htail, (queuedSounds_congr hb hhead htail ?_).2⟩
  intro index hindex _
  apply soundEntry_congr
  intro a ha
  exact hkept a (Or.inr (by omega))

/-- The interrupt takes the first entry. -/
theorem queuedSounds_dequeue (hb : QueueBounds m)
    (hne : nextIndex (m soundQueueHead) ≠ m soundQueueTail)
    (hhead : m' soundQueueHead = nextIndex (m soundQueueHead))
    (hcells : ∀ a, QueueCell a → a ≠ soundQueueHead → m' a = m a) :
    m'.queueCount + 1 = m.queueCount ∧
      m.queuedSounds =
        m.soundEntry (nextIndex (m soundQueueHead)) :: m'.queuedSounds := by
  have hheadlt := hb.head
  have htaillt := hb.tail
  have hnext := toNat_nextIndex hheadlt
  have htail : m' soundQueueTail = m soundQueueTail :=
    hcells _ (Or.inr (by decide)) (by decide)
  have hnat : ((m soundQueueHead).toNat + 1) % 10 ≠
      (m soundQueueTail).toNat := by
    rw [← hnext]
    exact fun h => hne (BitVec.eq_of_toNat_eq h)
  have hcount : m'.queueCount + 1 = m.queueCount := by
    rw [Ram.queueCount, Ram.queueCount, hhead, htail, hnext]
    omega
  have hfirst : BitVec.ofNat 8 (((m soundQueueHead).toNat + 1) % 10) =
      nextIndex (m soundQueueHead) := by
    apply BitVec.eq_of_toNat_eq
    rw [toNat_slotIndex, hnext]
  refine ⟨hcount, ?_⟩
  rw [Ram.queuedSounds, ← hcount, Ring.slots_cons (Nat.mod_lt _ (by decide)),
    hfirst, Ram.queuedSounds, hhead, hnext]
  congr 1
  apply Ring.slots_congr
  intro i _
  apply (soundEntry_congr _).symm
  intro a ha
  rw [toNat_slotIndex] at ha
  apply hcells a (Or.inr (by omega))
  rintro rfl
  change 0xefd7 = _ ∨ 0xefd7 = _ ∨ 0xefd7 = _ at ha
  omega

theorem QueueBounds.dequeue (hb : QueueBounds m)
    (hne : nextIndex (m soundQueueHead) ≠ m soundQueueTail)
    (hhead : m' soundQueueHead = nextIndex (m soundQueueHead))
    (hcells : ∀ a, QueueCell a → a ≠ soundQueueHead → m' a = m a) :
    QueueBounds m' where
  head := by
    rw [hhead, toNat_nextIndex hb.head]
    exact Nat.mod_lt _ (by decide)
  tail := by
    rw [hcells _ (Or.inr (by decide)) (by decide)]
    exact hb.tail
  room := by
    have hcount := (queuedSounds_dequeue hb hne hhead hcells).1
    have hroom := hb.room
    omega

/-- The call that moves the tail adds the entry in its slot. -/
theorem queuedSounds_enqueue (hb : QueueBounds m) (hroom : m.queueCount ≤ 7)
    {tail : Byte}
    (htail : tail.toNat = ((m soundQueueTail).toNat + 1) % 10) :
    (m.set soundQueueTail tail).queueCount = m.queueCount + 1 ∧
      (m.set soundQueueTail tail).queuedSounds =
        m.queuedSounds ++ [m.soundEntry (m soundQueueTail)] := by
  have hheadlt := hb.head
  have htaillt := hb.tail
  have hhead : (m.set soundQueueTail tail) soundQueueHead =
      m soundQueueHead := Ram.set_of_ne (by decide)
  have hcount : (m.set soundQueueTail tail).queueCount =
      m.queueCount + 1 := by
    rw [Ram.queueCount] at hroom
    rw [Ram.queueCount, Ram.queueCount, hhead, Ram.set_self, htail]
    omega
  have hentry (index : Byte) : (m.set soundQueueTail tail).soundEntry index =
      m.soundEntry index := by
    apply soundEntry_congr
    intro a ha
    apply Ram.set_of_ne
    rintro rfl
    change 0xefd6 = _ ∨ 0xefd6 = _ ∨ 0xefd6 = _ at ha
    omega
  have hlast : BitVec.ofNat 8
      ((((m soundQueueHead).toNat + 1) % 10 + m.queueCount) % 10) =
      m soundQueueTail := by
    apply BitVec.eq_of_toNat_eq
    rw [toNat_slotIndex, Ram.queueCount]
    omega
  refine ⟨hcount, ?_⟩
  rw [Ram.queuedSounds, hcount, Ring.slots, hhead]
  simp only [hentry]
  rw [hlast]
  rfl

theorem QueueBounds.enqueue (hb : QueueBounds m) (hroom : m.queueCount ≤ 7)
    {tail : Byte}
    (htail : tail.toNat = ((m soundQueueTail).toNat + 1) % 10) :
    QueueBounds (m.set soundQueueTail tail) where
  head := by
    rw [Ram.set_of_ne (by decide)]
    exact hb.head
  tail := by
    rw [Ram.set_self, htail]
    exact Nat.mod_lt _ (by decide)
  room := by
    rw [(queuedSounds_enqueue hb hroom htail).1]
    exact Nat.succ_le_succ hroom

section Slots

theorem append_zero (index : Byte) :
    (0#8 ++ index : Word) = index.setWidth 16 := by
  apply BitVec.eq_of_toNat_eq
  have hlt := index.isLt
  rw [toNat_append, BitVec.toNat_setWidth]
  change 256 * 0 + index.toNat = _
  omega

/-- A byte stored in the slot of the tail leaves the contents alone. -/
theorem storeSlot_cells (hb : QueueBounds m) {base : Word}
    (hbase : base = soundQueueType ∨ base = soundQueueValue ∨
      base = soundQueueFreq) (val : Byte) {a : Word}
    (ha : a.toNat < 0xefd8 ∨ ∃ index : Byte, index.toNat < 10 ∧
      index ≠ m soundQueueTail ∧ (a.toNat = 0xefd8 + index.toNat ∨
        a.toNat = 0xefe2 + index.toNat ∨ a.toNat = 0xefec + index.toNat)) :
    (m.set (base + (m soundQueueTail).setWidth 16) val) a = m a := by
  have htail := hb.tail
  apply Ram.set_of_ne
  have hslot : (base + (m soundQueueTail).setWidth 16).toNat =
        0xefd8 + (m soundQueueTail).toNat ∨
      (base + (m soundQueueTail).setWidth 16).toNat =
        0xefe2 + (m soundQueueTail).toNat ∨
      (base + (m soundQueueTail).setWidth 16).toNat =
        0xefec + (m soundQueueTail).toNat := by
    rcases hbase with rfl | rfl | rfl
    · exact Or.inl (toNat_type _)
    · exact Or.inr (Or.inl (toNat_value _))
    · exact Or.inr (Or.inr (toNat_freq _))
  rintro rfl
  rcases ha with hlow | ⟨index, hindex, hne, ha⟩
  · omega
  · have hnat : index.toNat ≠ (m soundQueueTail).toNat :=
      fun h => hne (BitVec.eq_of_toNat_eq h)
    omega

theorem slot_ne {base base' : Word} (h : base ≠ base') (index : Byte) :
    base + index.setWidth 16 ≠ base' + index.setWidth 16 :=
  fun heq => h ((BitVec.add_left_inj _).mp heq)

variable (m : Ram) (index val : Byte)

theorem soundEntry_setType :
    (m.set (soundQueueType + index.setWidth 16) val).soundEntry index =
      { m.soundEntry index with type := val } := by
  rw [Ram.soundEntry, Ram.set_self, Ram.set_of_ne (slot_ne (by decide) index),
    Ram.set_of_ne (slot_ne (by decide) index)]
  rfl

theorem soundEntry_setValue :
    (m.set (soundQueueValue + index.setWidth 16) val).soundEntry index =
      { m.soundEntry index with value := val } := by
  rw [Ram.soundEntry, Ram.set_self, Ram.set_of_ne (slot_ne (by decide) index),
    Ram.set_of_ne (slot_ne (by decide) index)]
  rfl

theorem soundEntry_setFreq :
    (m.set (soundQueueFreq + index.setWidth 16) val).soundEntry index =
      { m.soundEntry index with freq := val } := by
  rw [Ram.soundEntry, Ram.set_self, Ram.set_of_ne (slot_ne (by decide) index),
    Ram.set_of_ne (slot_ne (by decide) index)]
  rfl

end Slots

end Contents

section Due

/-- The first entry is taken if there is one. -/
theorem nextSound_entry (hb : QueueBounds m) (labels : Labels) :
    (nextSound labels m).1 = m.queuedSounds.head? := by
  have hnext := toNat_nextIndex hb.head
  rw [nextSound]
  split_ifs with hempty
  · have hnat := congrArg BitVec.toNat hempty
    have hnone : m.queuedSounds = [] := by
      rw [← List.length_eq_zero_iff, length_queuedSounds, Ram.queueCount]
      omega
    rw [hnone, List.head?_nil]
  · have hcells : ∀ a, QueueCell a → a ≠ soundQueueHead →
        (m.set soundQueueHead (nextIndex (m soundQueueHead))) a = m a :=
      fun a _ ha => Ram.set_of_ne ha
    rw [(queuedSounds_dequeue hb hempty (Ram.set_self ..) hcells).2,
      List.head?_cons]
    dsimp only
    rw [soundEntry_setHead m (by omega)]

theorem tickTen_entry (hb : QueueBounds m) (labels : Labels) :
    (tickTen labels m).1 =
      if SoundDue m (m (m.get16 soundPitchPtr)) then m.queuedSounds.head?
      else none := by
  have hkept : ∀ a, QueueCell a → (m.set soundTuneActive 0) a = m a := by
    intro a ha
    apply Ram.set_of_ne
    rintro rfl
    exact absurd ha (by decide)
  obtain ⟨hb', hsounds⟩ := queuedSounds_kept hb hkept
  rw [tickTen]
  by_cases htick : m timeCtr0 % 10 = 0
  · rw [if_neg (not_not_intro htick)]
    dsimp only
    rw [tickSound]
    dsimp only
    by_cases hover : m soundDuration = 0
    · rw [if_neg (not_not_intro hover)]
      by_cases htune : m soundTuneActive = 0
      · rw [if_pos htune, nextSound_entry hb,
          if_pos ⟨htick, hover, Or.inl htune⟩]
      · rw [if_neg htune]
        by_cases hpitch : m (m.get16 soundPitchPtr) = 1
        · rw [if_neg (not_not_intro hpitch), nextSound_entry hb', hsounds,
            if_pos ⟨htick, hover, Or.inr hpitch⟩]
        · have hdue : ¬ SoundDue m (m (m.get16 soundPitchPtr)) :=
            fun hdue => hdue.2.2.elim htune hpitch
          rw [if_pos hpitch, if_neg hdue]
    · rw [if_pos hover, if_neg fun hdue => hover hdue.2.1]
  · rw [if_pos htick, if_neg fun hdue => htick hdue.1]

/-- Of the variables the output writes only those of the motors. -/
theorem outputs_variable {a : Word} (ha : a = timeCtr0 ∨
    0xeff6 ≤ a.toNat ∧ a.toNat < 0xf000) (m : Ram) :
    modulateMotors (outputMotors m) a = m a := by
  have hne (b : Word) (hb : b.toNat < 0xefcf ∨ 0xf000 ≤ b.toNat) :
      a ≠ b := by
    rcases ha with rfl | ⟨hlow, hhigh⟩
    · rintro rfl
      exact absurd hb (by decide)
    · rintro rfl
      omega
  have hout : outputMotors m a = m a := by
    rw [outputMotors, Ram.bclr]
    split_ifs
    · rw [Ram.set_of_ne (hne _ (by decide)), Ram.set_of_ne (hne _ (by decide)),
        Ram.set_of_ne (hne _ (by decide))]
    · rw [Ram.set_of_ne (hne _ (by decide)), Ram.set_of_ne (hne _ (by decide))]
  simp only [modulateMotors, rotateWave]
  rw [Ram.set_of_ne (hne _ (by decide)), Ram.set_of_ne (hne _ (by decide)),
    Ram.set_of_ne (hne _ (by decide)), Ram.set_of_ne (hne _ (by decide)), hout]

variable (hapart : Apart timer flags) (hp : Pointers timer flags m)

include hapart hp

theorem tickedMotors_queue {a : Word} (ha : QueueCell a) :
    tickedMotors m a = m a := by
  have honly : TimerOnly timer flags m (modulateMotors (outputMotors m)) :=
    (outputMotors_only m).trans (modulateMotors_only _)
  have hp' := honly.pointers hapart hp
  rw [tickedMotors, hp'.timer, counts_queue hapart hp' ha, honly a (ha.not_timer hapart)]

theorem tickedMotors_variable {a : Word} (ha : a = timeCtr0 ∨
    0xeff6 ≤ a.toNat ∧ a.toNat < 0xf000) : tickedMotors m a = m a := by
  have honly : TimerOnly timer flags m (modulateMotors (outputMotors m)) :=
    (outputMotors_only m).trans (modulateMotors_only _)
  have hp' := honly.pointers hapart hp
  have hbounds : 0xefc6 ≤ a.toNat ∧ a.toNat ≤ 0xf000 := by
    rcases ha with rfl | ⟨hlow, hhigh⟩
    · decide
    · omega
  rw [tickedMotors, hp'.timer, tickMotors_variable hapart (tickReceive_pointers hapart hp')
      hbounds.1 hbounds.2,
    tickReceive_variable hapart hbounds.1 hbounds.2, outputs_variable ha]

/-- What the interrupt takes from the queue. -/
theorem ociaHandler_entry (hb : QueueBounds m) (labels : Labels) :
    (ociaHandler labels m).1 =
      if SoundDue m (tickedMotors m (m.get16 soundPitchPtr)) then
        m.queuedSounds.head?
      else none := by
  obtain ⟨hb', hsounds⟩ :=
    queuedSounds_kept hb fun a => tickedMotors_queue hapart hp
  have hticked := tickTen_entry hb' labels
  have hptr : (tickedMotors m).get16 soundPitchPtr =
      m.get16 soundPitchPtr := by
    rw [Ram.get16, Ram.get16,
      tickedMotors_variable hapart hp (Or.inr (by decide)),
      tickedMotors_variable hapart hp (Or.inr (by decide))]
  have hdue (pitch : Byte) :
      SoundDue (tickedMotors m) pitch ↔ SoundDue m pitch := by
    rw [SoundDue, SoundDue, tickedMotors_variable hapart hp (Or.inl rfl),
      tickedMotors_variable hapart hp (Or.inr (by decide)),
      tickedMotors_variable hapart hp (Or.inr (by decide))]
  rw [hsounds, hptr, if_congr (hdue _) rfl rfl] at hticked
  exact hticked

end Due

end Rom

end BrickEmu
