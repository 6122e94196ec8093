import BrickEmu.Synchronization

/-!
# The latched request of a button

A pressed button whose line is edge sensitive leaves its request in
`irqpending` until the interrupt is taken.  `check_irq` drops the request as
soon as it asks the buttons for their vector, before it knows whether the
vector is taken; the theorem says exactly when a request survives.
-/

namespace BrickEmu

/-- No line requests, and none can without a register write. -/
structure Buttons.Cleared (buttons : Buttons) : Prop where
  iscr : buttons.iscr = 0
  ier : buttons.ier = 0
  irqpending : buttons.irqpending = 0

theorem btnReadFd_cases (button : Button) (pressed : Bool) (clock : Clock)
    (buttons : Buttons) :
    (btnReadFd button pressed clock buttons).1 = buttons ∨
      (btnReadFd button pressed clock buttons).1 = { buttons with
        irqpending := buttons.irqpending |||
          (buttons.btnState &&& button.mask &&& buttons.iscr &&& 7)
        btnState := buttons.btnState ^^^ button.mask } := by
  simp only [btnReadFd]
  generalize (if pressed then 0 else 0xff : Byte) = newval
  split_ifs
  · exact Or.inr rfl
  · exact Or.inl rfl

theorem btnReadFd_cleared {buttons : Buttons} (hclear : buttons.Cleared)
    (button : Button) (pressed : Bool) (clock : Clock) :
    (btnReadFd button pressed clock buttons).1.Cleared := by
  obtain ⟨hiscr, hier, hpending⟩ := hclear
  rcases btnReadFd_cases button pressed clock buttons with h | h
  · rw [h]
    exact ⟨hiscr, hier, hpending⟩
  · rw [h]
    exact ⟨hiscr, hier, by simp [hiscr, hpending]⟩

theorem btnReadFd_latched {buttons : Buttons} {i : ℕ}
    (hlatched : buttons.irqpending.getLsbD i = true) (button : Button)
    (pressed : Bool) (clock : Clock) :
    (btnReadFd button pressed clock buttons).1.irqpending.getLsbD i =
      true := by
  rcases btnReadFd_cases button pressed clock buttons with h | h
  · rw [h]
    exact hlatched
  · rw [h]
    simp only [BitVec.getLsbD_or, hlatched, Bool.true_or]

theorem requests_of_latched {buttons : Buttons} {i : ℕ}
    (hlatched : buttons.irqpending.getLsbD i = true) :
    buttons.requests.getLsbD i = true := by
  simp only [Buttons.requests, BitVec.getLsbD_or, hlatched, Bool.or_true]

theorem btnCheckIrq_of_cleared {buttons : Buttons}
    (hclear : buttons.Cleared) : btnCheckIrq buttons = (255, buttons) := by
  have hzero : buttons.requests = 0 := by
    simp [Buttons.requests, Buttons.levels, hclear.ier, hclear.irqpending]
  rcases btnCheckIrq_cases buttons with ⟨h, -, h'⟩ | ⟨i, hi, -, hset, -⟩
  · exact Prod.ext h h'
  · rw [hzero] at hset
    simp at hset

/-- Dropping the request of one line leaves those of the others. -/
theorem getLsbD_and_not_bit {pending : Byte} {i j : ℕ} (hi : i < 8) :
    (pending &&& ~~~((1 : Byte) <<< j)).getLsbD i =
      (pending.getLsbD i && decide (i ≠ j)) := by
  rcases Nat.lt_trichotomy i j with hij | rfl | hji
  · simp [hi, hij, hij.ne]
  · simp [hi]
  · have hne : i ≠ j := by omega
    have hsub : i - j ≠ 0 := by omega
    simp [hi, hne, hsub, Nat.not_lt.mpr hji.le]

namespace Machine

theorem handleCommand_cleared (m : Machine) (command : Command)
    (hclear : m.buttons.Cleared) :
    (m.handleCommand command).buttons.Cleared := by
  cases command with
  | button button pressed =>
      exact btnReadFd_cleared hclear button pressed m.clock
  | _ =>
      rw [handleCommand_buttons m (by simp)]
      exact hclear

theorem handleCommand_latched {m : Machine} {i : ℕ}
    (hlatched : m.buttons.irqpending.getLsbD i = true) (command : Command) :
    (m.handleCommand command).buttons.irqpending.getLsbD i = true := by
  cases command with
  | button button pressed =>
      exact btnReadFd_latched hlatched button pressed m.clock
  | _ =>
      rw [handleCommand_buttons m (by simp)]
      exact hlatched

@[simp] theorem updateTimes_buttons (m : Machine) :
    m.updateTimes.buttons = m.buttons :=
  rfl

theorem finishReset_buttons (m : Machine) :
    m.finishReset.buttons = m.buttons :=
  (getWordCycles_effect 0 _).buttons_eq

theorem beginReset_cleared (m : Machine) : m.beginReset.buttons.Cleared :=
  ⟨rfl, rfl, rfl⟩

theorem synchronized_cleared : Synchronized fun m => m.buttons.Cleared where
  pace := fun _ h => h
  arrive := fun _ h => h
  handle := handleCommand_cleared
  beginReset := fun m _ => m.beginReset_cleared
  finishReset := fun m h => by
    change m.updateTimes.finishReset.buttons.Cleared
    rw [finishReset_buttons]
    exact h
  reschedule := fun m h => by
    rw [reschedule_buttons]
    exact h

theorem doReset_cleared (m : Machine) : m.doReset.buttons.Cleared := by
  unfold doReset
  rw [finishReset_buttons]
  exact synchronized_cleared.synchronizeTime m.beginReset_cleared

theorem receive_cleared (fuel : ℕ) {m : Machine}
    (hclear : m.buttons.Cleared) (command : Command) :
    (m.receive fuel command).buttons.Cleared := by
  by_cases hreset : command = .reset
  · subst hreset
    exact synchronized_cleared.finishReset _
      (synchronized_cleared.synchronizeFuel fuel m.beginReset_cleared)
  · rw [receive_of_ne hreset]
    exact m.handleCommand_cleared command hclear

theorem receiveAll_cleared (fuel : ℕ) (commands : List Command) :
    ∀ {m : Machine}, m.buttons.Cleared ∨ .reset ∈ commands →
      (commands.foldl (receive fuel) m).buttons.Cleared := by
  induction commands with
  | nil =>
      intro m h
      exact h.resolve_right List.not_mem_nil
  | cons command commands ih =>
      intro m h
      refine ih ?_
      rcases h with hclear | hmem
      · exact Or.inl (receive_cleared fuel hclear command)
      · rcases List.mem_cons.mp hmem with rfl | hmem
        · exact Or.inl (synchronized_cleared.finishReset _
            (synchronized_cleared.synchronizeFuel fuel m.beginReset_cleared))
        · exact Or.inr hmem

theorem receiveAll_latched (fuel : ℕ) {i : ℕ} (commands : List Command)
    (hreset : .reset ∉ commands) :
    ∀ {m : Machine}, m.buttons.irqpending.getLsbD i = true →
      (commands.foldl (receive fuel) m).buttons.irqpending.getLsbD i =
        true := by
  induction commands with
  | nil => exact fun h => h
  | cons command commands ih =>
      intro m h
      rw [List.mem_cons, not_or] at hreset
      refine ih hreset.2 ?_
      rw [receive_of_ne (Ne.symm hreset.1)]
      exact handleCommand_latched h command

/-- The GUI or the debugger resets the machine the next time
`synchronize_time` is called. -/
def receivesReset (m : Machine) : Prop :=
  m.pace.looksAtInput = true ∧ .reset ∈ m.arrivals.headD []

theorem synchronizeTime_latched {m : Machine} {i : ℕ}
    (hreset : ¬m.receivesReset)
    (hlatched : m.buttons.irqpending.getLsbD i = true) :
    m.synchronizeTime.buttons.irqpending.getLsbD i = true := by
  rw [synchronizeTime_eq]
  split_ifs with hlook
  · rw [reschedule_buttons]
    exact receiveAll_latched _ _ (fun hmem => hreset ⟨hlook, hmem⟩) hlatched
  · exact hlatched

theorem synchronizeTime_cleared {m : Machine} (hreset : m.receivesReset) :
    m.synchronizeTime.buttons.Cleared := by
  rw [synchronizeTime_eq, if_pos hreset.1, reschedule_buttons]
  exact receiveAll_cleared _ _ (Or.inr hreset.2)

/-- The words that an interrupt entry pushes do not fall on registers. -/
def plainStack (m : Machine) : Prop :=
  m.isDiv (m.reg16 7 - 4 + 2).toNat = false ∧
    m.isDiv (m.reg16 7 - 4).toNat = false

theorem enterIrq_buttons {m : Machine} (hstack : m.plainStack) (v : ℕ) :
    (m.enterIrq v).buttons = m.buttons := by
  obtain ⟨hhigh, hlow⟩ := hstack
  have hread := getWordCycles_effect m.pc m
  simp only [enterIrq]
  generalize (m.getWordCycles m.pc).2 = m₁ at hread
  rw [congrFun hread.reg16_eq 7]
  generalize m.reg16 7 - 4 = sp at hhigh hlow
  have hpush := hread.trans
    (setWordCycles_effect ((hread.isDiv_eq _).trans hhigh) m₁.pc)
  generalize m₁.setWordCycles (sp + 2) m₁.pc = m₂ at hpush
  have hpush' := hpush.trans
    (setWordCycles_effect ((hpush.isDiv_eq _).trans hlow) (m₂.ccr ++ m₂.ccr))
  refine Eq.trans ?_ hpush'.buttons_eq
  exact (getWordCycles_effect _ _).buttons_eq

/-- A latched request is taken by this call of `check_irq` or still there
after it. -/
def latchKept (m : Machine) (i : ℕ) : Prop :=
  m.checkIrq.1 = .taken (4 + i) ∨
    m.checkIrq.2.buttons.irqpending.getLsbD i = true

theorem checkIrq_buttons {m : Machine} (hstack : m.polled.plainStack)
    (hreset : m.checkIrq.1 ≠ .reset) :
    m.checkIrq.2.buttons = (btnCheckIrq m.polled.buttons).2 := by
  rw [checkIrq_snd]
  cases houtcome : m.checkIrq.1 with
  | none => rfl
  | reset => exact absurd houtcome hreset
  | taken v =>
      have hstack' : m.polled.pollIrqs.2.plainStack := hstack
      exact enterIrq_buttons hstack' v

/-- Without a reset in this call, the request of line `i` is dropped exactly
when no lower line requests. -/
theorem polled_latch_iff {m : Machine} {i : ℕ} (hi : i < 3)
    (hlatched : m.polled.buttons.irqpending.getLsbD i = true) :
    (btnCheckIrq m.polled.buttons).2.irqpending.getLsbD i = true ↔
      ∃ j < i, m.polled.buttons.requests.getLsbD j = true := by
  rcases btnCheckIrq_cases m.polled.buttons with
    ⟨-, hnone, -⟩ | ⟨k, -, -, hset, hbefore, hafter⟩
  · exact absurd (requests_of_latched hlatched) (by rw [hnone i hi]; simp)
  · rw [hafter]
    change (_ &&& _ : Byte).getLsbD i = true ↔ _
    rw [getLsbD_and_not_bit (by omega), hlatched, Bool.true_and,
      decide_eq_true_iff]
    constructor
    · intro hne
      refine ⟨k, ?_, hset⟩
      by_contra hle
      have := hbefore i (by omega)
      rw [requests_of_latched hlatched] at this
      cases this
    · rintro ⟨j, hj, hrequest⟩ rfl
      rw [hbefore j hj] at hrequest
      cases hrequest

theorem checkIrq_taken_button_iff (m : Machine) {i : ℕ} (hi : i < 3) :
    m.checkIrq.1 = .taken (4 + i) ↔
      m.polled.masked = false ∧ m.polled.wdog.tcsr &&& Watchdog.OVF = 0 ∧
        (btnCheckIrq m.polled.buttons).1 = 4 + i := by
  have hser := serCheckIrq_range m.polled.serial
  have ht16 := t16CheckIrq_range m.polled.t16
  have ht8 := t8CheckIrq_range m.polled.t8
  have had := adCheckIrq_range m.polled.ad
  rw [checkIrq_taken_iff]
  rcases m.polled.pollIrqs_priority with ⟨hset, -, hle⟩ | ⟨hclear, hserved⟩
  · refine iff_of_false (fun h => ?_) (fun h => hset h.2.1)
    omega
  · have hpoll : 4 + i = m.polled.pollIrqs.1 ↔
        (btnCheckIrq m.polled.buttons).1 = 4 + i := by
      omega
    rw [hpoll]
    cases m.polled.masked with
    | true =>
        refine iff_of_false (fun h => ?_) (fun h => Bool.noConfusion h.1)
        have := h.2.2
        rw [if_pos rfl] at this
        omega
    | false =>
        rw [if_neg Bool.false_ne_true]
        exact ⟨fun h => ⟨rfl, hclear, h.1⟩,
          fun h => ⟨h.2.2, by omega, by omega⟩⟩

theorem btnCheckIrq_first_iff {buttons : Buttons} {i : ℕ} (hi : i < 3)
    (hrequest : buttons.requests.getLsbD i = true) :
    (btnCheckIrq buttons).1 = 4 + i ↔
      ¬∃ j < i, buttons.requests.getLsbD j = true := by
  rcases btnCheckIrq_cases buttons with
    ⟨-, hnone, -⟩ | ⟨k, -, hv, hset, hbefore, -⟩
  · rw [hnone i hi] at hrequest
    cases hrequest
  · rw [hv]
    constructor
    · rintro hik ⟨j, hj, hset'⟩
      rw [hbefore j (by omega)] at hset'
      cases hset'
    · intro hfirst
      have hle : i ≤ k := by
        by_contra hlt
        exact hfirst ⟨k, by omega, hset⟩
      have hge : ¬i < k := by
        intro hlt
        rw [hbefore i hlt] at hrequest
        cases hrequest
      omega

/-- A latched request of a button survives a call of `check_irq` exactly
when the machine is not reset in this call and either a lower line requests
too, or the interrupt mask is clear and the watchdog has not run over. -/
theorem latchKept_iff (m : Machine) (i : ℕ) (hi : i < 3)
    (hlatched : m.buttons.irqpending.getLsbD i = true)
    (hstack : m.polled.plainStack) :
    m.latchKept i ↔
      ¬m.receivesReset ∧
      ¬(m.polled.wdog.tcsr &&& Watchdog.OVF ≠ 0 ∧
        m.polled.wdog.tcsr &&& Watchdog.RST ≠ 0) ∧
      ((∃ j < i, m.polled.buttons.requests.getLsbD j = true) ∨
        (m.polled.masked = false ∧
          m.polled.wdog.tcsr &&& Watchdog.OVF = 0)) := by
  unfold latchKept
  rw [checkIrq_taken_button_iff m hi]
  by_cases hreset : m.receivesReset
  · have hclear : m.polled.buttons.Cleared := synchronizeTime_cleared hreset
    have hpoll := btnCheckIrq_of_cleared hclear
    refine iff_of_false ?_ (fun h => h.1 hreset)
    rintro (⟨-, -, htaken⟩ | hkept)
    · rw [hpoll] at htaken
      omega
    · have hafter : m.checkIrq.2.buttons.Cleared := by
        by_cases houtcome : m.checkIrq.1 = .reset
        · rw [checkIrq_snd, houtcome]
          exact doReset_cleared _
        · rw [checkIrq_buttons hstack houtcome, hpoll]
          exact hclear
      rw [hafter.irqpending] at hkept
      simp at hkept
  rw [← checkIrq_reset_iff]
  by_cases houtcome : m.checkIrq.1 = .reset
  · refine iff_of_false ?_ (fun h => h.2.1 houtcome)
    rintro (⟨-, hclear, -⟩ | hkept)
    · exact (m.checkIrq_reset_iff.mp houtcome).1 hclear
    · rw [checkIrq_snd, houtcome] at hkept
      rw [(doReset_cleared _).irqpending] at hkept
      simp at hkept
  have hlatched' : m.polled.buttons.irqpending.getLsbD i = true :=
    synchronizeTime_latched hreset hlatched
  rw [checkIrq_buttons hstack houtcome, polled_latch_iff hi hlatched',
    btnCheckIrq_first_iff hi (requests_of_latched hlatched')]
  by_cases hlower : ∃ j < i, m.polled.buttons.requests.getLsbD j = true
  · exact iff_of_true (Or.inr hlower) ⟨hreset, houtcome, Or.inl hlower⟩
  · constructor
    · rintro (⟨hmasked, hovf, -⟩ | hkept)
      · exact ⟨hreset, houtcome, Or.inr ⟨hmasked, hovf⟩⟩
      · exact absurd hkept hlower
    · rintro ⟨-, -, hkept | ⟨hmasked, hovf⟩⟩
      · exact absurd hkept hlower
      · exact Or.inl ⟨hmasked, hovf, hlower⟩

/-- The guest selects edge sensing for the run button, which is pressed while
interrupts are masked and arrives during a write to TCR. -/
def runPressed : Machine :=
  let m := (powerOn (fun _ => none) [] [[.button .run true]] []).doReset
  let m := (m.setByte 0xffc6 1).addCycles 100
  (m.setByte 0xff96 0).setReg16 7 0xff7e

theorem check_irq_drops_masked_button :
    runPressed.buttons.irqpending.getLsbD 0 = true ∧
      runPressed.buttons.iscr.getLsbD 0 = true ∧
      ¬runPressed.latchKept 0 := by
  have htaken : runPressed.checkIrq.1 = .none := by decide +kernel
  have hdropped :
      runPressed.checkIrq.2.buttons.irqpending.getLsbD 0 = false := by
    decide +kernel
  refine ⟨by decide +kernel, by decide +kernel, ?_⟩
  rintro (h | h)
  · rw [htaken] at h
    cases h
  · rw [hdropped] at h
    cases h

theorem latchKept_unmasked : { runPressed with ccr := 0 }.latchKept 0 := by
  refine (latchKept_iff { runPressed with ccr := 0 } 0 (by decide)
    (by decide +kernel)
    ⟨by decide +kernel, by decide +kernel⟩).mpr ⟨?_, ?_, Or.inr ?_⟩
  · rintro ⟨-, hreset⟩
    have harrivals : runPressed.arrivals.length = 0 := by decide +kernel
    have hempty : runPressed.arrivals = [] :=
      List.eq_nil_of_length_eq_zero harrivals
    simp [hempty] at hreset
  · decide +kernel
  · exact ⟨by decide +kernel, by decide +kernel⟩

end Machine

end BrickEmu
