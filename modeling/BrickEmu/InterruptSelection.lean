import BrickEmu.Machine

/-!
# The selection of interrupts

`check_irq` brings the peripherals up to date, asks each of them for the
vector it wants to raise and takes the lowest one that the mask lets pass.
-/

namespace BrickEmu

/-- A peripheral scans its request bits and reports the first one. -/
theorem scan_cases (n base : ℕ) (request : ℕ → Bool) :
    ((match (List.range n).find? request with
        | some i => base + i
        | none => 255) = 255 ∧ ∀ i < n, request i = false) ∨
      ∃ i < n, (match (List.range n).find? request with
        | some i => base + i
        | none => 255) = base + i ∧ request i = true ∧
          ∀ j < i, request j = false := by
  cases hfind : (List.range n).find? request with
  | none =>
      left
      rw [List.find?_range_eq_none] at hfind
      refine ⟨rfl, fun i hi => ?_⟩
      simpa using hfind i hi
  | some i =>
      right
      rw [List.find?_range_eq_some] at hfind
      obtain ⟨hrequest, hmem, hbefore⟩ := hfind
      refine ⟨i, List.mem_range.mp hmem, rfl, hrequest, fun j hj => ?_⟩
      simpa using hbefore j hj

theorem serCheckIrq_cases (serial : Serial) :
    (serCheckIrq serial = 255) ∨
      (serCheckIrq serial = 28 ∧ serial.pending &&& Serial.RDRF ≠ 0) ∨
      (serCheckIrq serial = 29 ∧ serial.pending &&& Serial.TDRE ≠ 0) ∨
      (serCheckIrq serial = 30 ∧ serial.pending &&& Serial.TEND ≠ 0) := by
  simp only [serCheckIrq]
  split_ifs with hrx htx hte
  · exact Or.inr (Or.inl ⟨rfl, hrx⟩)
  · exact Or.inr (Or.inr (Or.inl ⟨rfl, htx⟩))
  · exact Or.inr (Or.inr (Or.inr ⟨rfl, hte⟩))
  · exact Or.inl rfl

theorem t16CheckIrq_cases (timer : Timer16) :
    (t16CheckIrq timer = 255 ∧
        ∀ i < 7, timer.pending.getLsbD (7 - i) = false) ∨
      ∃ i < 7, t16CheckIrq timer = 12 + i ∧
        timer.pending.getLsbD (7 - i) = true ∧
        ∀ j < i, timer.pending.getLsbD (7 - j) = false :=
  scan_cases 7 12 fun i => timer.pending.getLsbD (7 - i)

/-- The request bits of the 8-bit timer, channel 0 above channel 1. -/
def Timer8.irqs (timer : Timer8) : Byte :=
  (timer.ch0.tcsr &&& timer.ch0.tcr &&& 0xe0#8) |||
    ((timer.ch1.tcsr &&& timer.ch1.tcr &&& 0xe0#8) >>> 3)

theorem t8CheckIrq_cases (timer : Timer8) :
    (t8CheckIrq timer = 255 ∧ ∀ i < 6, timer.irqs.getLsbD (7 - i) = false) ∨
      ∃ i < 6, t8CheckIrq timer = 19 + i ∧
        timer.irqs.getLsbD (7 - i) = true ∧
        ∀ j < i, timer.irqs.getLsbD (7 - j) = false :=
  scan_cases 6 19 fun i => timer.irqs.getLsbD (7 - i)

theorem btnCheckIrq_cases (buttons : Buttons) :
    ((btnCheckIrq buttons).1 = 255 ∧
        (∀ i < 3, buttons.requests.getLsbD i = false) ∧
        (btnCheckIrq buttons).2 = buttons) ∨
      ∃ i < 3, (btnCheckIrq buttons).1 = 4 + i ∧
        buttons.requests.getLsbD i = true ∧
        (∀ j < i, buttons.requests.getLsbD j = false) ∧
        (btnCheckIrq buttons).2 = { buttons with
          irqpending := buttons.irqpending &&& ~~~((1 : Byte) <<< i) } := by
  unfold btnCheckIrq
  cases hfind : (List.range 3).find? fun i => buttons.requests.getLsbD i with
  | none =>
      left
      rw [List.find?_range_eq_none] at hfind
      refine ⟨rfl, fun i hi => ?_, rfl⟩
      simpa using hfind i hi
  | some i =>
      right
      rw [List.find?_range_eq_some] at hfind
      obtain ⟨hrequest, hmem, hbefore⟩ := hfind
      refine ⟨i, List.mem_range.mp hmem, rfl, hrequest, fun j hj => ?_, rfl⟩
      simpa using hbefore j hj

theorem adCheckIrq_cases (ad : AdSensors) :
    adCheckIrq ad = 255 ∨
      (adCheckIrq ad = 35 ∧ ad.adcsr &&& 0xc0 = 0xc0) := by
  unfold adCheckIrq
  split_ifs with hset
  · exact Or.inr ⟨rfl, hset⟩
  · exact Or.inl rfl

theorem wdogCheckIrq_cases (clock : Clock) (wdog : Watchdog) :
    ((wdogCheckIrq clock wdog).1 = 255 ∧ wdog.tcsr &&& Watchdog.OVF = 0) ∨
      ((wdogCheckIrq clock wdog).1 = 0 ∧ wdog.tcsr &&& Watchdog.OVF ≠ 0 ∧
        wdog.tcsr &&& Watchdog.RST ≠ 0) ∨
      ((wdogCheckIrq clock wdog).1 = 3 ∧ wdog.tcsr &&& Watchdog.OVF ≠ 0 ∧
        wdog.tcsr &&& Watchdog.RST = 0) := by
  have hrst : ∀ tcsr : Byte, tcsr &&& ~~~Watchdog.OVF &&& Watchdog.RST =
      tcsr &&& Watchdog.RST := by decide
  unfold wdogCheckIrq
  simp only [hrst]
  split_ifs with hovf hreset
  · exact Or.inr (Or.inl ⟨rfl, hovf, hreset⟩)
  · exact Or.inr (Or.inr ⟨rfl, hovf, not_not.mp hreset⟩)
  · exact Or.inl ⟨rfl, not_not.mp hovf⟩

namespace Machine

/-- The machine at the moment `check_irq` asks the peripherals. -/
def polled (m : Machine) : Machine :=
  m.rearm.waitPeripherals

theorem pollIrqs_fst (m : Machine) :
    m.pollIrqs.1 =
      min (min (min (min (min (min 255 (serCheckIrq m.serial))
        (t16CheckIrq m.t16)) (t8CheckIrq m.t8)) (btnCheckIrq m.buttons).1)
        (adCheckIrq m.ad)) (wdogCheckIrq m.clock m.wdog).1 :=
  rfl

theorem serCheckIrq_range (serial : Serial) :
    serCheckIrq serial = 255 ∨
      28 ≤ serCheckIrq serial ∧ serCheckIrq serial ≤ 30 := by
  rcases serCheckIrq_cases serial with h | ⟨h, -⟩ | ⟨h, -⟩ | ⟨h, -⟩ <;> omega

theorem t16CheckIrq_range (timer : Timer16) :
    t16CheckIrq timer = 255 ∨
      12 ≤ t16CheckIrq timer ∧ t16CheckIrq timer ≤ 18 := by
  rcases t16CheckIrq_cases timer with ⟨h, -⟩ | ⟨i, hi, h, -⟩ <;> omega

theorem t8CheckIrq_range (timer : Timer8) :
    t8CheckIrq timer = 255 ∨
      19 ≤ t8CheckIrq timer ∧ t8CheckIrq timer ≤ 24 := by
  rcases t8CheckIrq_cases timer with ⟨h, -⟩ | ⟨i, hi, h, -⟩ <;> omega

theorem btnCheckIrq_range (buttons : Buttons) :
    (btnCheckIrq buttons).1 = 255 ∨
      4 ≤ (btnCheckIrq buttons).1 ∧ (btnCheckIrq buttons).1 ≤ 6 := by
  rcases btnCheckIrq_cases buttons with ⟨h, -⟩ | ⟨i, hi, h, -⟩ <;> omega

theorem adCheckIrq_range (ad : AdSensors) :
    adCheckIrq ad = 255 ∨ adCheckIrq ad = 35 := by
  rcases adCheckIrq_cases ad with h | ⟨h, -⟩ <;> omega

theorem wdogCheckIrq_range (clock : Clock) (wdog : Watchdog) :
    (wdog.tcsr &&& Watchdog.OVF = 0 ∧ (wdogCheckIrq clock wdog).1 = 255) ∨
      (wdog.tcsr &&& Watchdog.OVF ≠ 0 ∧
        (wdogCheckIrq clock wdog).1 ≤ 3) := by
  rcases wdogCheckIrq_cases clock wdog with
    ⟨h, hclear⟩ | ⟨h, hset, -⟩ | ⟨h, hset, -⟩
  · exact Or.inl ⟨hclear, h⟩
  · exact Or.inr ⟨hset, by omega⟩
  · exact Or.inr ⟨hset, by omega⟩

/-- The order in which requests are served: watchdog, buttons, 16-bit timer,
8-bit timer, serial line, converter. -/
theorem pollIrqs_priority (m : Machine) :
    (m.wdog.tcsr &&& Watchdog.OVF ≠ 0 ∧
        m.pollIrqs.1 = (wdogCheckIrq m.clock m.wdog).1 ∧
        m.pollIrqs.1 ≤ 3) ∨
      (m.wdog.tcsr &&& Watchdog.OVF = 0 ∧
        (((btnCheckIrq m.buttons).1 ≠ 255 ∧
            m.pollIrqs.1 = (btnCheckIrq m.buttons).1) ∨
          ((btnCheckIrq m.buttons).1 = 255 ∧
            ((t16CheckIrq m.t16 ≠ 255 ∧ m.pollIrqs.1 = t16CheckIrq m.t16) ∨
              (t16CheckIrq m.t16 = 255 ∧
                ((t8CheckIrq m.t8 ≠ 255 ∧
                    m.pollIrqs.1 = t8CheckIrq m.t8) ∨
                  (t8CheckIrq m.t8 = 255 ∧
                    ((serCheckIrq m.serial ≠ 255 ∧
                        m.pollIrqs.1 = serCheckIrq m.serial) ∨
                      (serCheckIrq m.serial = 255 ∧
                        m.pollIrqs.1 = adCheckIrq m.ad))))))))) := by
  rw [pollIrqs_fst]
  have hser := serCheckIrq_range m.serial
  have ht16 := t16CheckIrq_range m.t16
  have ht8 := t8CheckIrq_range m.t8
  have hbtn := btnCheckIrq_range m.buttons
  have had := adCheckIrq_range m.ad
  rcases wdogCheckIrq_range m.clock m.wdog with ⟨hclear, h⟩ | ⟨hset, h⟩
  · refine Or.inr ⟨hclear, ?_⟩
    rcases hbtn with hbtn | hbtn
    · refine Or.inr ⟨hbtn, ?_⟩
      rcases ht16 with ht16 | ht16
      · refine Or.inr ⟨ht16, ?_⟩
        rcases ht8 with ht8 | ht8
        · refine Or.inr ⟨ht8, ?_⟩
          rcases hser with hser | hser
          · exact Or.inr ⟨hser, by omega⟩
          · exact Or.inl ⟨by omega, by omega⟩
        · exact Or.inl ⟨by omega, by omega⟩
      · exact Or.inl ⟨by omega, by omega⟩
    · exact Or.inl ⟨by omega, by omega⟩
  · exact Or.inl ⟨hset, by omega, by omega⟩

theorem checkIrq_fst (m : Machine) :
    m.checkIrq.1 = m.polled.pollIrqs.2.selectIrq m.polled.pollIrqs.1 :=
  rfl

theorem checkIrq_snd (m : Machine) :
    m.checkIrq.2 =
      match m.checkIrq.1 with
      | .none => m.polled.pollIrqs.2
      | .reset =>
          doReset { m.polled.pollIrqs.2 with
            clock := { m.polled.pollIrqs.2.clock with
              cycles := m.polled.pollIrqs.2.clock.nextNmiCycle } }
      | .taken vector => m.polled.pollIrqs.2.enterIrq vector :=
  rfl

theorem selectIrq_eq_reset_iff (m : Machine) (selirq : ℕ) :
    m.selectIrq selirq = .reset ↔ selirq = 0 := by
  have hpos : 0 < (if m.masked then 4 else 255) := by
    split_ifs <;> omega
  unfold selectIrq
  constructor
  · intro h
    by_contra hne
    by_cases hlt : selirq < (if m.masked then 4 else 255)
    · rw [if_pos hlt, if_neg hne] at h
      cases h
    · rw [if_neg hlt] at h
      cases h
  · rintro rfl
    rw [if_pos hpos, if_pos rfl]

/-- A vector is taken when it is the lowest one and the mask lets it
pass. -/
theorem checkIrq_taken_iff (m : Machine) (v : ℕ) :
    m.checkIrq.1 = .taken v ↔
      v = m.polled.pollIrqs.1 ∧ v ≠ 0 ∧
        v < (if m.polled.masked then 4 else 255) := by
  have hmasked : m.polled.pollIrqs.2.masked = m.polled.masked := rfl
  change m.polled.pollIrqs.2.selectIrq m.polled.pollIrqs.1 = _ ↔ _
  unfold selectIrq
  rw [hmasked]
  by_cases hlow : m.polled.pollIrqs.1 <
      (if m.polled.masked then 4 else 255)
  · rw [if_pos hlow]
    by_cases hzero : m.polled.pollIrqs.1 = 0
    · rw [if_pos hzero]
      constructor
      · intro h
        cases h
      · rintro ⟨hv, hne, -⟩
        exact absurd (hv.trans hzero) hne
    · rw [if_neg hzero, IrqOutcome.taken.injEq]
      constructor
      · rintro rfl
        exact ⟨rfl, hzero, hlow⟩
      · rintro ⟨hv, -, -⟩
        exact hv.symm
  · rw [if_neg hlow]
    constructor
    · intro h
      cases h
    · rintro ⟨hv, -, hlt⟩
      exact absurd (hv ▸ hlt) hlow

/-- The processor is reset when the watchdog runs over in reset mode. -/
theorem checkIrq_reset_iff (m : Machine) :
    m.checkIrq.1 = .reset ↔
      m.polled.wdog.tcsr &&& Watchdog.OVF ≠ 0 ∧
        m.polled.wdog.tcsr &&& Watchdog.RST ≠ 0 := by
  rw [checkIrq_fst, selectIrq_eq_reset_iff]
  have hwdog := wdogCheckIrq_cases m.polled.clock m.polled.wdog
  rcases m.polled.pollIrqs_priority with ⟨hset, hpoll, -⟩ | ⟨hclear, hserved⟩
  · rw [hpoll]
    rcases hwdog with ⟨-, hclear⟩ | ⟨hv, -, hrst⟩ | ⟨hv, -, hrst⟩
    · exact absurd hclear hset
    · exact ⟨fun _ => ⟨hset, hrst⟩, fun _ => hv⟩
    · refine ⟨fun h => ?_, fun h => absurd hrst h.2⟩
      omega
  · have hser := serCheckIrq_range m.polled.serial
    have ht16 := t16CheckIrq_range m.polled.t16
    have ht8 := t8CheckIrq_range m.polled.t8
    have hbtn := btnCheckIrq_range m.polled.buttons
    have had := adCheckIrq_range m.polled.ad
    exact ⟨fun h => absurd h (by omega), fun h => absurd hclear h.1⟩

end Machine

end BrickEmu
