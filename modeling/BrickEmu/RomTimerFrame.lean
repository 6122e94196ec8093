import BrickEmu.RomTimer

/-!
# What the timer interrupt writes

Besides the counters of the receiver and the motors and the head of the sound
queue, `ocia_handler` writes only cells that no other routine relies on.
-/

namespace BrickEmu

namespace Rom

/-- Variables and registers of the interrupt. -/
def TimerVariable (a : Word) : Prop :=
  0xefcb ≤ a.toNat ∧ a.toNat ≤ 0xefd4 ∨ 0xeff6 ≤ a.toNat ∧ a.toNat ≤ 0xf000 ∨
    0xff88 ≤ a.toNat

instance (a : Word) : Decidable (TimerVariable a) :=
  inferInstanceAs (Decidable (_ ∨ _))

/-- With them the timer structure between the counters, and the flags. -/
def TimerCell (timer flags a : Word) : Prop :=
  TimerVariable a ∨
    timer.toNat + 2 ≤ a.toNat ∧ a.toNat < timer.toNat + 0x22 ∨
    flags.toNat ≤ a.toNat ∧ a.toNat < flags.toNat + 4

/-- The timer structure and the flags have even addresses and are apart from
the variables and from each other. -/
structure Apart (timer flags : Word) : Prop where
  even : timer.toNat % 2 = 0
  disjoint : timer.toNat + 0x28 ≤ flags.toNat ∨
    flags.toNat + 4 ≤ timer.toNat
  timer : timer.toNat + 0x28 ≤ 0xefc6 ∨
    0xf001 ≤ timer.toNat ∧ timer.toNat + 0x28 ≤ 0xff88
  flags : flags.toNat + 4 ≤ 0xefc6 ∨
    0xf001 ≤ flags.toNat ∧ flags.toNat + 4 ≤ 0xff88

/-- The arguments of `init_timer` are in their variables. -/
structure Pointers (timer flags : Word) (m : Ram) : Prop where
  timer : m.get16 timerStruct = timer
  flags : m.get16 runHandlerFlags = flags

/-- Only such cells differ. -/
def TimerOnly (timer flags : Word) (m m' : Ram) : Prop :=
  ∀ a, ¬ TimerCell timer flags a → m' a = m a

variable {timer flags : Word} {m m' m'' : Ram}

section Cells

namespace Apart

variable (h : Apart timer flags)

include h

theorem timer_add {k : Word} (hk : k.toNat < 0x28) :
    (timer + k).toNat = timer.toNat + k.toNat := by
  have htimer := h.timer
  rw [BitVec.toNat_add]
  omega

theorem flags_add {k : Word} (hk : k.toNat < 4) :
    (flags + k).toNat = flags.toNat + k.toNat := by
  have hflags := h.flags
  rw [BitVec.toNat_add]
  omega

theorem timer_cell {k : Word} (hlow : 2 ≤ k.toNat) (hhigh : k.toNat < 0x22) :
    TimerCell timer flags (timer + k) := by
  right
  left
  rw [h.timer_add (by omega)]
  omega

theorem flags_cell {k : Word} (hk : k.toNat < 4) :
    TimerCell timer flags (flags + k) := by
  right
  right
  rw [h.flags_add hk]
  omega

/-- The cells from the pointers to the end of the sound queue that the
interrupt does not write. -/
theorem not_cell {a : Word} (hlow : 0xefc6 ≤ a.toNat)
    (hhigh : a.toNat < 0xeff6) (ha : ¬ TimerVariable a) :
    ¬ TimerCell timer flags a := by
  have htimer := h.timer
  have hflags := h.flags
  rintro (hvar | hcell | hcell)
  · exact ha hvar
  · omega
  · omega

/-- The counters of the receiver and the motors. -/
theorem counter_not_cell {k : Word}
    (hk : k.toNat < 2 ∨ 0x22 ≤ k.toNat ∧ k.toNat < 0x28) :
    ¬ TimerCell timer flags (timer + k) := by
  have htimer := h.timer
  have hdisjoint := h.disjoint
  have hadd : (timer + k).toNat = timer.toNat + k.toNat :=
    h.timer_add (by omega)
  rintro (hvar | hcell | hcell)
  · rw [TimerVariable, hadd] at hvar
    omega
  · omega
  · omega

end Apart

end Cells

namespace TimerOnly

theorem refl (m : Ram) : TimerOnly timer flags m m :=
  fun _ _ => rfl

theorem trans (h : TimerOnly timer flags m m')
    (h' : TimerOnly timer flags m' m'') : TimerOnly timer flags m m'' :=
  fun a ha => (h' a ha).trans (h a ha)

theorem set (h : TimerOnly timer flags m m') {b : Word}
    (hb : TimerCell timer flags b) (val : Byte) :
    TimerOnly timer flags m (m'.set b val) := by
  intro a ha
  have hne : a ≠ b := fun heq => ha (heq ▸ hb)
  rw [Ram.set_of_ne hne, h a ha]

theorem setOwn {b : Word} {val : Byte} (hb : TimerVariable b)
    (h : TimerOnly timer flags m m') :
    TimerOnly timer flags m (m'.set b val) :=
  h.set (Or.inl hb) val

theorem setOwn16 {b val : Word} (hb : TimerVariable b ∧ TimerVariable (b + 1))
    (h : TimerOnly timer flags m m') :
    TimerOnly timer flags m (m'.set16 b val) :=
  .setOwn hb.2 (.setOwn hb.1 h)

theorem setField16 (hapart : Apart timer flags) {k val : Word}
    (hk : 2 ≤ k.toNat ∧ k.toNat < 0x21) (h : TimerOnly timer flags m m') :
    TimerOnly timer flags m (m'.set16 (timer + k) val) := by
  have hsucc : (k + 1).toNat = k.toNat + 1 := by
    change (k.toNat + 1) % 65536 = _
    omega
  rw [Ram.set16, BitVec.add_assoc]
  apply (h.set (hapart.timer_cell hk.1 (by omega)) _).set
  exact hapart.timer_cell (by omega) (by omega)

theorem setFlag (hapart : Apart timer flags) {k : Word} {val : Byte}
    (hk : k.toNat < 4) (h : TimerOnly timer flags m m') :
    TimerOnly timer flags m (m'.set (flags + k) val) :=
  h.set (hapart.flags_cell hk) val

theorem get16 (h : TimerOnly timer flags m m') {b : Word}
    (hb : ¬ TimerCell timer flags b) (hb' : ¬ TimerCell timer flags (b + 1)) :
    m'.get16 b = m.get16 b := by
  rw [Ram.get16, Ram.get16, h b hb, h (b + 1) hb']

theorem pointers (h : TimerOnly timer flags m m')
    (hapart : Apart timer flags) (hp : Pointers timer flags m) :
    Pointers timer flags m' where
  timer := by
    rw [h.get16 (hapart.not_cell (by decide) (by decide) (by decide))
      (hapart.not_cell (by decide) (by decide) (by decide)), hp.timer]
  flags := by
    rw [h.get16 (hapart.not_cell (by decide) (by decide) (by decide))
      (hapart.not_cell (by decide) (by decide) (by decide)), hp.flags]

end TimerOnly

section Parts

open TimerOnly

theorem outputMotors_only (m : Ram) :
    TimerOnly timer flags m (outputMotors m) := by
  have hout : TimerOnly timer flags m
      ((m.bclr 3 tCsr).set motorOut (m.bclr 3 tCsr motorOutShadow)) :=
    setOwn (by decide) (setOwn (by decide) (.refl m))
  rw [outputMotors]
  split_ifs
  · exact setOwn (by decide) hout
  · exact hout

theorem modulateMotors_only (m : Ram) :
    TimerOnly timer flags m (modulateMotors m) :=
  setOwn (by decide) (setOwn (by decide)
    (setOwn (by decide) (setOwn (by decide) (.refl m))))

theorem tickTime_only (m : Ram) : TimerOnly timer flags m (tickTime m) :=
  setOwn (by decide) (.refl m)

theorem startPolling_only (m : Ram) :
    TimerOnly timer flags m (startPolling m) := by
  rw [startPolling]
  split_ifs
  · exact setOwn (by decide) (.refl m)
  · exact .refl m

theorem playSound_only (duration freq : Byte) (m : Ram) :
    TimerOnly timer flags m (playSound duration freq m) :=
  setOwn (by decide) (setOwn (by decide) (setOwn (by decide) (.refl m)))

theorem continueTune_only (pitchPtr : Word) (pitch : Byte) (m : Ram) :
    TimerOnly timer flags m (continueTune pitchPtr pitch m) :=
  .trans (setOwn16 (by decide) (setOwn16 (by decide)
      (setOwn (by decide) (setOwn16 (by decide) (.refl m)))))
    (playSound_only _ _ _)

theorem playTune_only (labels : Labels) (tune : Byte) (m : Ram) :
    TimerOnly timer flags m (playTune labels tune m) :=
  .trans (setOwn16 (by decide) (setOwn16 (by decide)
      (setOwn (by decide) (.refl m))))
    (continueTune_only _ _ _)

theorem playEntry_only (labels : Labels) (entry : SoundEntry) (m : Ram) :
    TimerOnly timer flags m (playEntry labels entry m) := by
  rw [playEntry]
  split_ifs
  · exact playSound_only _ _ m
  · exact playTune_only labels _ m
  · exact .trans (setOwn (by decide) (.refl m)) (playSound_only _ _ _)

variable (hapart : Apart timer flags) (hp : Pointers timer flags m)

include hapart hp

theorem tickHandlers_only : TimerOnly timer flags m (tickHandlers m) := by
  rw [tickHandlers, hp.flags]
  split_ifs
  · exact setOwn (by decide) (.refl m)
  · have hflags : TimerOnly timer flags m
        ((m.bset 7 (flags + 2)).bset 7 (flags + 3)) :=
      setFlag hapart (by decide) (setFlag hapart (by decide) (.refl m))
    exact setOwn (by decide) hflags

theorem tickMinute_only : TimerOnly timer flags m (tickMinute m) := by
  have hpowerOff (val : Word) : TimerOnly timer flags m
      (m.set16 (timer + timerPowerOff) val) :=
    setField16 hapart (by decide) (.refl m)
  have hminutes {m' : Ram} (h : TimerOnly timer flags m m') (val : Word) :
      TimerOnly timer flags m (m'.set16 (timer + timerMinuteCounter) val) :=
    setField16 hapart (by decide) h
  rw [tickMinute, hp.timer]
  dsimp only
  split_ifs
  · exact setOwn16 (by decide) (.refl m)
  · exact setOwn16 (by decide) (hminutes (.refl m) _)
  · exact setOwn16 (by decide) (hminutes (hminutes (.refl m) _) _)
  · exact setOwn16 (by decide) (hminutes (hpowerOff _) _)
  · exact setOwn16 (by decide) (hminutes (hminutes (hpowerOff _) _) _)

theorem tickFirmwareTimers_only :
    TimerOnly timer flags m (tickFirmwareTimers m) := by
  rw [tickFirmwareTimers, hp.timer]
  split_ifs
  · exact setOwn (by decide) (.refl m)
  · have hfirst : TimerOnly timer flags m
        (tickFirmwareTimer (timer + timerFirmwareTimer1)
          (tickFirmwareTimer (timer + timerFirmwareTimer0) m)) :=
      setField16 hapart (by decide) (setField16 hapart (by decide) (.refl m))
    exact setOwn (by decide) (setField16 hapart (by decide)
      (setField16 hapart (by decide) hfirst))

theorem tickWakeup_only : TimerOnly timer flags m (tickWakeup m) := by
  have hdelay :
      ((m timeCtr0 % 10).setWidth 16 + timerWakeupDelays).toNat =
        (m timeCtr0).toNat % 10 + 14 := by
    have hoffset : timerWakeupDelays.toNat = 14 := rfl
    have hrem : (m timeCtr0 % 10).toNat = (m timeCtr0).toNat % 10 :=
      BitVec.toNat_umod
    rw [BitVec.toNat_add, BitVec.toNat_setWidth, hrem, hoffset]
    omega
  rw [tickWakeup, hp.timer]
  split_ifs
  · exact .refl m
  · apply TimerOnly.set (.refl m)
    apply hapart.timer_cell
    · rw [hdelay]
      omega
    · rw [hdelay]
      omega

end Parts

section Counts

/-- What a motor counter becomes. -/
def counted (counter : Word) : Word :=
  if counter = 0 then 0 else counter - 1

theorem toNat_counted (counter : Word) :
    (counted counter).toNat = counter.toNat - 1 := by
  rw [counted]
  split_ifs with hzero
  · rw [hzero]
    rfl
  · have hne : counter.toNat ≠ 0 := fun h => hzero (BitVec.eq_of_toNat_eq h)
    have hlt := counter.isLt
    rw [BitVec.toNat_sub]
    change (65536 - 1 + counter.toNat) % 65536 = _
    omega

theorem Pointers.congr (hp : Pointers timer flags m)
    (h : ∀ a, 0xefc6 ≤ a.toNat → a.toNat < 0xefca → m' a = m a) :
    Pointers timer flags m' where
  timer := by
    rw [← hp.timer, Ram.get16, Ram.get16, h _ (by decide) (by decide),
      h _ (by decide) (by decide)]
  flags := by
    rw [← hp.flags, Ram.get16, Ram.get16, h _ (by decide) (by decide),
      h _ (by decide) (by decide)]

theorem tickReceive_of_ne {a : Word} (h : a ≠ timer) (m : Ram) :
    tickReceive timer m a = m a := by
  rw [tickReceive]
  split_ifs
  · rfl
  · exact Ram.set_of_ne h

section

variable (hapart : Apart timer flags)

include hapart

/-- The variables are not in the timer structure. -/
theorem Apart.timer_ne {a k : Word} (hk : k.toNat < 0x28)
    (hlow : 0xefc6 ≤ a.toNat) (hhigh : a.toNat ≤ 0xf000) : a ≠ timer + k := by
  have htimer := hapart.timer
  have hadd : (timer + k).toNat = timer.toNat + k.toNat :=
    hapart.timer_add hk
  rintro rfl
  omega

theorem Apart.succ_ne {a k : Word} (hk : k.toNat < 0x27)
    (hlow : 0xefc6 ≤ a.toNat) (hhigh : a.toNat ≤ 0xf000) :
    a ≠ timer + k + 1 := by
  have hsucc : (k + 1).toNat = k.toNat + 1 := by
    change (k.toNat + 1) % 65536 = _
    omega
  rw [BitVec.add_assoc]
  exact hapart.timer_ne (by omega) hlow hhigh

theorem Apart.flag_ne {a k : Word} (hk : k.toNat < 4)
    (hlow : 0xefc6 ≤ a.toNat) (hhigh : a.toNat ≤ 0xf000) : a ≠ flags + k := by
  have hflags := hapart.flags
  have hadd : (flags + k).toNat = flags.toNat + k.toNat :=
    hapart.flags_add hk
  rintro rfl
  omega

theorem tickReceive_variable {a : Word} (hlow : 0xefc6 ≤ a.toNat)
    (hhigh : a.toNat ≤ 0xf000) (m : Ram) :
    tickReceive timer m a = m a := by
  have hne : a ≠ timer + 0#16 := hapart.timer_ne (by decide) hlow hhigh
  rw [BitVec.add_zero] at hne
  exact tickReceive_of_ne hne m

theorem set16_variable {a k : Word} (hk : k.toNat < 0x27)
    (hlow : 0xefc6 ≤ a.toNat) (hhigh : a.toNat ≤ 0xf000) (val : Word) :
    (m.set16 (timer + k) val) a = m a :=
  Ram.set16_of_ne (hapart.timer_ne (by omega) hlow hhigh)
    (hapart.succ_ne hk hlow hhigh)

/-- A motor counter is stored, and a flag may be set. -/
theorem tickMotor_only {k : Word} (hk : k.toNat < 0x27)
    (hp : Pointers timer flags m) :
    TimerOnly timer flags
      (m.set16 (timer + k) (counted (m.get16 (timer + k))))
      (tickMotor timer k m) := by
  rw [tickMotor, counted]
  by_cases hzero : m.get16 (timer + k) = 0
  · rw [if_pos hzero, if_pos hzero, ← hzero, set16_get16]
    exact .refl m
  · have hflags : (m.set16 (timer + k) (m.get16 (timer + k) - 1)).get16
        runHandlerFlags = flags := by
      apply Pointers.flags
      apply hp.congr
      intro a hlow hhigh
      exact set16_variable hapart hk hlow (by omega) _
    rw [if_neg hzero, if_neg hzero]
    dsimp only
    split_ifs
    · exact .refl _
    · rw [hflags]
      exact TimerOnly.setFlag hapart (by decide) (.refl _)

/-- The pointers, the variables and the queue stay. -/
theorem tickMotor_variable {k : Word} (hk : k.toNat < 0x27)
    (hp : Pointers timer flags m) {a : Word} (hlow : 0xefc6 ≤ a.toNat)
    (hhigh : a.toNat ≤ 0xf000) : tickMotor timer k m a = m a := by
  have hcounter (val : Word) : (m.set16 (timer + k) val) a = m a :=
    set16_variable hapart hk hlow hhigh val
  have hflags (val : Word) :
      (m.set16 (timer + k) val).get16 runHandlerFlags = flags := by
    apply Pointers.flags
    apply hp.congr
    intro a hlow hhigh
    exact set16_variable hapart hk hlow (by omega) val
  rw [tickMotor]
  dsimp only
  split_ifs
  · rfl
  · exact hcounter _
  · have hne : a ≠ flags + 1 := hapart.flag_ne (by decide) hlow hhigh
    rw [hflags, Ram.bset, Ram.set_of_ne hne, hcounter]

theorem tickMotor_pointers {k : Word} (hk : k.toNat < 0x27)
    (hp : Pointers timer flags m) :
    Pointers timer flags (tickMotor timer k m) := by
  apply hp.congr
  intro a hlow hhigh
  exact tickMotor_variable hapart hk hp hlow (by omega)

theorem tickReceive_pointers (hp : Pointers timer flags m) :
    Pointers timer flags (tickReceive timer m) := by
  apply hp.congr
  intro a hlow hhigh
  exact tickReceive_variable hapart hlow (by omega) m

theorem tickMotors_pointers (hp : Pointers timer flags m) :
    Pointers timer flags (tickMotors timer m) :=
  tickMotor_pointers hapart (by decide) (tickMotor_pointers hapart
    (by decide) (tickMotor_pointers hapart (by decide) hp))

theorem tickMotors_variable (hp : Pointers timer flags m) {a : Word}
    (hlow : 0xefc6 ≤ a.toNat) (hhigh : a.toNat ≤ 0xf000) :
    tickMotors timer m a = m a := by
  have hp0 : Pointers timer flags (tickMotor timer timerMotor0 m) :=
    tickMotor_pointers hapart (by decide) hp
  have hp1 := tickMotor_pointers hapart
    (show timerMotor1.toNat < 0x27 by decide) hp0
  rw [tickMotors,
    tickMotor_variable hapart (by decide) hp1 hlow hhigh,
    tickMotor_variable hapart (by decide) hp0 hlow hhigh,
    tickMotor_variable hapart (by decide) hp hlow hhigh]

end

end Counts

section Sound

/-- A part of the interrupt takes an entry from the queue or not. -/
inductive SoundTick (timer flags : Word) (m : Ram) :
    Option SoundEntry × Ram → Prop
  | quiet {m' : Ram} (h : TimerOnly timer flags m m') :
      SoundTick timer flags m (none, m')
  | takes {mid m' : Ram} (h : TimerOnly timer flags m mid)
      (hne : nextIndex (mid soundQueueHead) ≠ mid soundQueueTail)
      (h' : TimerOnly timer flags
        (mid.set soundQueueHead (nextIndex (mid soundQueueHead))) m') :
      SoundTick timer flags m
        (some ((mid.set soundQueueHead
          (nextIndex (mid soundQueueHead))).soundEntry
          (nextIndex (mid soundQueueHead))), m')

namespace SoundTick

variable {entry : Option SoundEntry}

theorem after (h : SoundTick timer flags m (entry, m'))
    (h' : TimerOnly timer flags m' m'') :
    SoundTick timer flags m (entry, m'') := by
  cases h with
  | quiet hm => exact .quiet (hm.trans h')
  | takes hm hne hm' => exact .takes hm hne (hm'.trans h')

theorem before {r : Option SoundEntry × Ram} (h : TimerOnly timer flags m m')
    (h' : SoundTick timer flags m' r) : SoundTick timer flags m r := by
  cases h' with
  | quiet hm => exact .quiet (h.trans hm)
  | takes hm hne hm' => exact .takes (h.trans hm) hne hm'

/-- The head is the only cell besides. -/
theorem of_ne (h : SoundTick timer flags m (entry, m')) {a : Word}
    (ha : ¬ TimerCell timer flags a) (hne : a ≠ soundQueueHead) :
    m' a = m a := by
  cases h with
  | quiet hm => exact hm a ha
  | takes hm _ hm' => rw [hm' a ha, Ram.set_of_ne hne, hm a ha]

end SoundTick

theorem nextSound_tick (labels : Labels) (m : Ram) :
    SoundTick timer flags m (nextSound labels m) := by
  rw [nextSound]
  split_ifs with hempty
  · exact .quiet (.trans (TimerOnly.setOwn (by decide) (.refl m))
      (playSound_only _ _ _))
  · exact .takes (.refl m) hempty (playEntry_only labels _ _)

theorem tickSound_tick (labels : Labels) (m : Ram) :
    SoundTick timer flags m (tickSound labels m) := by
  rw [tickSound]
  dsimp only
  split_ifs
  · exact .quiet (TimerOnly.setOwn (by decide) (.refl m))
  · exact nextSound_tick labels m
  · exact .quiet (continueTune_only _ _ m)
  · exact .before (TimerOnly.setOwn (by decide) (.refl m))
      (nextSound_tick labels _)

variable (hapart : Apart timer flags) (hp : Pointers timer flags m)

include hapart hp

theorem SoundTick.pointers {entry : Option SoundEntry}
    (h : SoundTick timer flags m (entry, m')) : Pointers timer flags m' := by
  apply hp.congr
  intro a hlow hhigh
  have hvar : ¬ TimerVariable a := by
    rw [TimerVariable]
    omega
  apply h.of_ne (hapart.not_cell hlow (by omega) hvar)
  rintro rfl
  exact absurd hhigh (by decide)

theorem tickTen_tick (labels : Labels) :
    SoundTick timer flags m (tickTen labels m) := by
  rw [tickTen]
  split_ifs
  · exact .quiet (.refl m)
  · have hsound : SoundTick timer flags m (tickSound labels m) :=
      tickSound_tick labels m
    have hhandlers := tickHandlers_only hapart (hsound.pointers hapart hp)
    have hminute := tickMinute_only hapart
      (hhandlers.pointers hapart (hsound.pointers hapart hp))
    exact hsound.after (hhandlers.trans hminute)

end Sound

section Handler

variable (hapart : Apart timer flags)

include hapart

/-- The counters are counted; the rest is a tick of the sound. -/
theorem ociaHandler_tick (hp : Pointers timer flags m) (labels : Labels) :
    ∃ start, TimerOnly timer flags m start ∧ Pointers timer flags start ∧
      SoundTick timer flags (tickMotors timer (tickReceive timer start))
        (ociaHandler labels m) := by
  have hstart : TimerOnly timer flags m (modulateMotors (outputMotors m)) :=
    (outputMotors_only m).trans (modulateMotors_only _)
  have hp := hstart.pointers hapart hp
  have hcount : Pointers timer flags (tickMotors timer
      (tickReceive timer (modulateMotors (outputMotors m)))) :=
    tickMotors_pointers hapart (tickReceive_pointers hapart hp)
  have hten := tickTen_tick hapart hcount labels
  have hpten := hten.pointers hapart hcount
  have hfirmware := tickFirmwareTimers_only hapart hpten
  have hwakeup := tickWakeup_only hapart (hfirmware.pointers hapart hpten)
  have hafter := ((hfirmware.trans hwakeup).trans
    (startPolling_only _)).trans (tickTime_only _)
  refine ⟨_, hstart, hp, ?_⟩
  rw [ociaHandler, hp.timer]
  exact hten.after hafter

end Handler

end Rom

end BrickEmu
