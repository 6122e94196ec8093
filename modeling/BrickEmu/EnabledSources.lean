import BrickEmu.InterruptSelection

/-!
# Which sources may interrupt

An interrupt with vector 4 or above belongs to a peripheral that the guest
has enabled.  Two peripherals do not keep to this: a latched button edge is
reported whether or not IER enables its line, and the 8-bit timer reports a
compare match B under the vector of compare match A and the other way round.
The theorem says exactly when neither shows.
-/

namespace BrickEmu

namespace Machine

/-- The enable bit of a vector in the register the guest sees. -/
def vectorEnabled (m : Machine) : ℕ → Prop
  | 4 => m.buttons.ier.getLsbD 0 = true
  | 5 => m.buttons.ier.getLsbD 1 = true
  | 6 => m.buttons.ier.getLsbD 2 = true
  | 12 => m.t16.tier.getLsbD 7 = true
  | 13 => m.t16.tier.getLsbD 6 = true
  | 14 => m.t16.tier.getLsbD 5 = true
  | 15 => m.t16.tier.getLsbD 4 = true
  | 16 => m.t16.tier.getLsbD 3 = true
  | 17 => m.t16.tier.getLsbD 2 = true
  | 18 => m.t16.tier.getLsbD 1 = true
  | 19 => m.t8.ch0.tcr.getLsbD 6 = true
  | 20 => m.t8.ch0.tcr.getLsbD 7 = true
  | 21 => m.t8.ch0.tcr.getLsbD 5 = true
  | 22 => m.t8.ch1.tcr.getLsbD 6 = true
  | 23 => m.t8.ch1.tcr.getLsbD 7 = true
  | 24 => m.t8.ch1.tcr.getLsbD 5 = true
  | 28 => m.serial.scr.getLsbD 6 = true
  | 29 => m.serial.scr.getLsbD 7 = true
  | 30 => m.serial.scr.getLsbD 2 = true
  | 35 => m.ad.adcsr.getLsbD 6 = true
  | _ => False

/-- A button line requests by its latched edge, or by its level when ISCR
selects level sensing. -/
def lineActive (m : Machine) (i : ℕ) : Prop :=
  m.buttons.irqpending.getLsbD i = true ∨
    (m.buttons.iscr.getLsbD i = false ∧ m.buttons.btnState.getLsbD i = false)

/-- The status flag or pin condition of a vector. -/
def vectorActive (m : Machine) : ℕ → Prop
  | 4 => m.lineActive 0
  | 5 => m.lineActive 1
  | 6 => m.lineActive 2
  | 12 => m.t16.tcsr.getLsbD 7 = true
  | 13 => m.t16.tcsr.getLsbD 6 = true
  | 14 => m.t16.tcsr.getLsbD 5 = true
  | 15 => m.t16.tcsr.getLsbD 4 = true
  | 16 => m.t16.tcsr.getLsbD 3 = true
  | 17 => m.t16.tcsr.getLsbD 2 = true
  | 18 => m.t16.tcsr.getLsbD 1 = true
  | 19 => m.t8.ch0.tcsr.getLsbD 6 = true
  | 20 => m.t8.ch0.tcsr.getLsbD 7 = true
  | 21 => m.t8.ch0.tcsr.getLsbD 5 = true
  | 22 => m.t8.ch1.tcsr.getLsbD 6 = true
  | 23 => m.t8.ch1.tcsr.getLsbD 7 = true
  | 24 => m.t8.ch1.tcsr.getLsbD 5 = true
  | 28 => m.serial.ssr.getLsbD 6 = true
  | 29 => m.serial.ssr.getLsbD 7 = true
  | 30 => m.serial.ssr.getLsbD 2 = true
  | 35 => m.ad.adcsr.getLsbD 7 = true
  | _ => False

/-- Every maskable interrupt that `check_irq` takes comes from an enabled and
active source, with the mask bit clear. -/
def OnlyEnabled (m : Machine) : Prop :=
  ∀ v, m.checkIrq.1 = .taken v → 4 ≤ v →
    m.polled.masked = false ∧ m.polled.vectorEnabled v ∧
      m.polled.vectorActive v

end Machine

/-- The first requesting line of the buttons is enabled in IER. -/
def Buttons.firstEnabled (buttons : Buttons) : Prop :=
  ∀ i < 3, buttons.requests.getLsbD i = true →
    (∀ j < i, buttons.requests.getLsbD j = false) →
      buttons.ier.getLsbD i = true

/-- The enabled flags of a channel, bits 7 to 5. -/
def T8Channel.pending (channel : T8Channel) : Byte :=
  channel.tcsr &&& channel.tcr &&& 0xe0#8

/-- In the first channel with an enabled flag set, compare matches A and B
are pending together or not at all. -/
def Timer8.matchesPaired (timer : Timer8) : Prop :=
  timer.ch0.pending.getLsbD 7 = timer.ch0.pending.getLsbD 6 ∧
    (timer.ch0.pending = 0 →
      timer.ch1.pending.getLsbD 7 = timer.ch1.pending.getLsbD 6)

theorem and_ne_zero_getLsbD {a b mask flag : Byte} {i : ℕ}
    (hflag : ∀ j < 8, flag.getLsbD j = true → j = i)
    (hne : a &&& b &&& mask &&& flag ≠ 0#8) :
    a.getLsbD i = true ∧ b.getLsbD i = true := by
  by_contra hnot
  refine hne (BitVec.eq_of_getLsbD_eq fun j hlt => ?_)
  simp only [BitVec.getLsbD_and, BitVec.getLsbD_zero, Bool.and_eq_false_iff]
  by_cases hj : flag.getLsbD j = true
  · obtain rfl := hflag j hlt hj
    rw [not_and_or, Bool.not_eq_true, Bool.not_eq_true] at hnot
    exact Or.inl (Or.inl hnot)
  · exact Or.inr (by simpa using hj)

theorem getLsbD_irqs_ch0 {timer : Timer8} {i : ℕ} (hi : i < 3) :
    timer.irqs.getLsbD (7 - i) = timer.ch0.pending.getLsbD (7 - i) := by
  have hmask : (0xe0#8).getLsbD (3 + (7 - i)) = false := by
    interval_cases i <;> decide
  simp only [Timer8.irqs, T8Channel.pending, BitVec.getLsbD_or,
    BitVec.getLsbD_ushiftRight, BitVec.getLsbD_and, hmask, Bool.and_false,
    Bool.or_false]

theorem getLsbD_irqs_ch1 {timer : Timer8} {i : ℕ} (hi : i < 3) :
    timer.irqs.getLsbD (4 - i) = timer.ch1.pending.getLsbD (7 - i) := by
  have hmask : (0xe0#8).getLsbD (4 - i) = false := by
    interval_cases i <;> decide
  have hshift : 3 + (4 - i) = 7 - i := by omega
  simp only [Timer8.irqs, T8Channel.pending, BitVec.getLsbD_or,
    BitVec.getLsbD_ushiftRight, BitVec.getLsbD_and, hmask, Bool.and_false,
    Bool.false_or, hshift]

theorem pending_getLsbD {channel : T8Channel} {i : ℕ} (hi : i < 3) :
    channel.pending.getLsbD (7 - i) = true ↔
      channel.tcr.getLsbD (7 - i) = true ∧
        channel.tcsr.getLsbD (7 - i) = true := by
  have hmask : (0xe0#8).getLsbD (7 - i) = true := by
    interval_cases i <;> decide
  simp only [T8Channel.pending, BitVec.getLsbD_and, hmask, Bool.and_true,
    Bool.and_eq_true]
  exact and_comm

theorem pending_eq_zero {channel : T8Channel}
    (hclear : ∀ i < 3, channel.pending.getLsbD (7 - i) = false) :
    channel.pending = 0 := by
  refine BitVec.eq_of_getLsbD_eq fun j hj => ?_
  change _ = (0#8).getLsbD j
  rw [BitVec.getLsbD_zero]
  by_cases hlow : j < 5
  · have hmask : (0xe0#8).getLsbD j = false := by
      interval_cases j <;> decide
    simp only [T8Channel.pending, BitVec.getLsbD_and, hmask, Bool.and_false]
  · have := hclear (7 - j) (by omega)
    rwa [show 7 - (7 - j) = j by omega] at this

theorem t8CheckIrq_channels (timer : Timer8) :
    (t8CheckIrq timer = 255 ∧ timer.ch0.pending = 0 ∧
        timer.ch1.pending = 0) ∨
      (∃ i < 3, t8CheckIrq timer = 19 + i ∧
        timer.ch0.pending.getLsbD (7 - i) = true ∧
        ∀ j < i, timer.ch0.pending.getLsbD (7 - j) = false) ∨
      ∃ i < 3, t8CheckIrq timer = 22 + i ∧ timer.ch0.pending = 0 ∧
        timer.ch1.pending.getLsbD (7 - i) = true ∧
        ∀ j < i, timer.ch1.pending.getLsbD (7 - j) = false := by
  rcases t8CheckIrq_cases timer with ⟨hnone, hclear⟩ | ⟨i, hi, hv, hset, hbefore⟩
  · refine Or.inl ⟨hnone, pending_eq_zero fun i hi => ?_,
      pending_eq_zero fun i hi => ?_⟩
    · rw [← getLsbD_irqs_ch0 hi]
      exact hclear i (by omega)
    · rw [← getLsbD_irqs_ch1 hi]
      have := hclear (3 + i) (by omega)
      rwa [show 7 - (3 + i) = 4 - i by omega] at this
  · by_cases hlow : i < 3
    · refine Or.inr (Or.inl ⟨i, hlow, hv, ?_, fun j hj => ?_⟩)
      · rw [← getLsbD_irqs_ch0 hlow]
        exact hset
      · rw [← getLsbD_irqs_ch0 (by omega)]
        exact hbefore j hj
    · refine Or.inr (Or.inr ⟨i - 3, by omega, by omega,
        pending_eq_zero fun j hj => ?_, ?_, fun j hj => ?_⟩)
      · rw [← getLsbD_irqs_ch0 hj]
        exact hbefore j (by omega)
      · rw [← getLsbD_irqs_ch1 (by omega)]
        rwa [show 4 - (i - 3) = 7 - i by omega]
      · rw [← getLsbD_irqs_ch1 (by omega)]
        have := hbefore (3 + j) (by omega)
        rwa [show 7 - (3 + j) = 4 - j by omega] at this

theorem first_unique {request : ℕ → Bool} {i j : ℕ}
    (hi : request i = true) (hbefore : ∀ k < i, request k = false)
    (hj : request j = true) (hbefore' : ∀ k < j, request k = false) :
    i = j := by
  rcases Nat.lt_trichotomy i j with hij | hij | hji
  · rw [hbefore' i hij] at hi
    cases hi
  · exact hij
  · rw [hbefore j hji] at hj
    cases hj

theorem t8CheckIrq_ch0 {timer : Timer8} {i : ℕ}
    (hset : timer.ch0.pending.getLsbD (7 - i) = true)
    (hbefore : ∀ j < i, timer.ch0.pending.getLsbD (7 - j) = false) :
    t8CheckIrq timer = 19 + i := by
  have hpending : timer.ch0.pending ≠ 0 := by
    intro hzero
    rw [hzero] at hset
    simp at hset
  rcases t8CheckIrq_channels timer with
    ⟨-, hzero, -⟩ | ⟨j, -, hv, hset', hbefore'⟩ | ⟨j, -, -, hzero, -⟩
  · exact absurd hzero hpending
  · have huniq : i = j :=
      @first_unique (fun j => timer.ch0.pending.getLsbD (7 - j)) i j
        hset hbefore hset' hbefore'
    rw [hv, huniq]
  · exact absurd hzero hpending

theorem t8CheckIrq_ch1 {timer : Timer8} {i : ℕ}
    (hzero : timer.ch0.pending = 0)
    (hset : timer.ch1.pending.getLsbD (7 - i) = true)
    (hbefore : ∀ j < i, timer.ch1.pending.getLsbD (7 - j) = false) :
    t8CheckIrq timer = 22 + i := by
  rcases t8CheckIrq_channels timer with
    ⟨-, -, hzero'⟩ | ⟨j, -, -, hset', -⟩ | ⟨j, -, hv, -, hset', hbefore'⟩
  · rw [hzero'] at hset
    simp at hset
  · rw [hzero] at hset'
    simp at hset'
  · have huniq : i = j :=
      @first_unique (fun j => timer.ch1.pending.getLsbD (7 - j)) i j
        hset hbefore hset' hbefore'
    rw [hv, huniq]

/-- The flag that the `i`th vector of a channel stands for: A, B, overflow. -/
def T8Channel.vectorFlag : ℕ → ℕ
  | 0 => 6
  | 1 => 7
  | _ => 5

theorem matches_paired_iff (channel : T8Channel) :
    channel.pending.getLsbD 7 = channel.pending.getLsbD 6 ↔
      ∀ i < 3, channel.pending.getLsbD (7 - i) = true →
        (∀ j < i, channel.pending.getLsbD (7 - j) = false) →
          channel.pending.getLsbD (T8Channel.vectorFlag i) = true := by
  constructor
  · intro hpaired i hi hset hbefore
    interval_cases i
    · exact hpaired.symm.trans hset
    · exact hpaired.trans hset
    · exact hset
  · intro hscan
    have hb := hscan 0 (by omega)
    have ha := hscan 1 (by omega)
    have hnone : ∀ j < 0, channel.pending.getLsbD (7 - j) = false := by
      intro j hj
      omega
    cases h7 : channel.pending.getLsbD 7 with
    | true => exact (hb h7 hnone).symm
    | false =>
        cases h6 : channel.pending.getLsbD 6 with
        | false => rfl
        | true =>
            have hfirst : ∀ j < 1, channel.pending.getLsbD (7 - j) = false := by
              intro j hj
              obtain rfl : j = 0 := by omega
              exact h7
            exact h7.symm.trans (ha h6 hfirst)

namespace Machine

/-- The vector belongs to an enabled and active source. -/
def vectorLawful (m : Machine) (v : ℕ) : Prop :=
  m.vectorEnabled v ∧ m.vectorActive v

theorem vectorLawful_ch0 (m : Machine) {i : ℕ} (hi : i < 3) :
    m.vectorLawful (19 + i) ↔
      m.t8.ch0.pending.getLsbD (T8Channel.vectorFlag i) = true := by
  interval_cases i
  · exact (pending_getLsbD (by omega : 1 < 3)).symm
  · exact (pending_getLsbD (by omega : 0 < 3)).symm
  · exact (pending_getLsbD (by omega : 2 < 3)).symm

theorem vectorLawful_ch1 (m : Machine) {i : ℕ} (hi : i < 3) :
    m.vectorLawful (22 + i) ↔
      m.t8.ch1.pending.getLsbD (T8Channel.vectorFlag i) = true := by
  interval_cases i
  · exact (pending_getLsbD (by omega : 1 < 3)).symm
  · exact (pending_getLsbD (by omega : 0 < 3)).symm
  · exact (pending_getLsbD (by omega : 2 < 3)).symm

theorem vectorLawful_t16 (m : Machine) {i : ℕ} (hi : i < 7)
    (hset : m.t16.pending.getLsbD (7 - i) = true) :
    m.vectorLawful (12 + i) := by
  simp only [Timer16.pending, BitVec.getLsbD_and, Bool.and_eq_true] at hset
  interval_cases i <;> exact hset.1

theorem vectorLawful_serial (m : Machine)
    (hne : serCheckIrq m.serial ≠ 255) :
    m.vectorLawful (serCheckIrq m.serial) := by
  rcases serCheckIrq_cases m.serial with
    hnone | ⟨hcheck, hset⟩ | ⟨hcheck, hset⟩ | ⟨hcheck, hset⟩
  · exact absurd hnone hne
  · rw [hcheck]
    exact and_ne_zero_getLsbD (by decide) hset
  · rw [hcheck]
    exact and_ne_zero_getLsbD (by decide) hset
  · rw [hcheck]
    exact and_ne_zero_getLsbD (by decide) hset

theorem vectorLawful_ad (m : Machine) (hne : adCheckIrq m.ad ≠ 255) :
    m.vectorLawful (adCheckIrq m.ad) := by
  have hbits : ∀ adcsr : Byte, adcsr &&& 0xc0 = 0xc0 →
      adcsr.getLsbD 6 = true ∧ adcsr.getLsbD 7 = true := by decide
  rcases adCheckIrq_cases m.ad with hnone | ⟨hcheck, hset⟩
  · exact absurd hnone hne
  · rw [hcheck]
    exact hbits m.ad.adcsr hset

theorem vectorLawful_button (m : Machine) {i : ℕ} (hi : i < 3)
    (hset : m.buttons.requests.getLsbD i = true) :
    m.vectorLawful (4 + i) ↔ m.buttons.ier.getLsbD i = true := by
  have hactive : m.lineActive i := by
    have hlt : i < 8 := by omega
    simp only [Buttons.requests, Buttons.levels, BitVec.getLsbD_or,
      BitVec.getLsbD_and, BitVec.getLsbD_not, hlt, decide_true,
      Bool.true_and, Bool.or_eq_true, Bool.and_eq_true,
      Bool.not_eq_true'] at hset
    rcases hset with ⟨⟨⟨hdown, -⟩, hlevel⟩, -⟩ | hlatched
    · exact Or.inr ⟨hlevel, hdown⟩
    · exact Or.inl hlatched
  interval_cases i
  · exact and_iff_left hactive
  · exact and_iff_left hactive
  · exact and_iff_left hactive

theorem onlyEnabled_of_lawful (m : Machine)
    (hlawful : m.polled.masked = false → 4 ≤ m.polled.pollIrqs.1 →
      m.polled.pollIrqs.1 ≠ 255 →
        m.polled.vectorLawful m.polled.pollIrqs.1) :
    m.OnlyEnabled := by
  intro v htaken hv
  obtain ⟨rfl, -, hlt⟩ := (m.checkIrq_taken_iff v).mp htaken
  cases hmasked : m.polled.masked with
  | true =>
      rw [hmasked, if_pos rfl] at hlt
      omega
  | false =>
      rw [hmasked, if_neg Bool.false_ne_true] at hlt
      exact ⟨rfl, hlawful hmasked hv (by omega)⟩

theorem OnlyEnabled.lawful {m : Machine} (honly : m.OnlyEnabled)
    (hmasked : m.polled.masked = false) {v : ℕ}
    (hpoll : m.polled.pollIrqs.1 = v) (hlow : 4 ≤ v) (hhigh : v < 255) :
    m.polled.vectorLawful v := by
  refine (honly v ((m.checkIrq_taken_iff v).mpr ⟨hpoll.symm, by omega, ?_⟩)
    hlow).2
  rw [hmasked, if_neg Bool.false_ne_true]
  exact hhigh

theorem pollIrqs_lawful (m : Machine)
    (hovf : m.wdog.tcsr &&& Watchdog.OVF = 0)
    (hbuttons : m.buttons.firstEnabled)
    (htimer : (∀ i < 3, m.buttons.requests.getLsbD i = false) →
      (∀ i < 7, m.t16.pending.getLsbD (7 - i) = false) →
        m.t8.matchesPaired)
    (hne : m.pollIrqs.1 ≠ 255) : m.vectorLawful m.pollIrqs.1 := by
  rcases m.pollIrqs_priority with ⟨hset, -⟩ | ⟨-, hserved⟩
  · exact absurd hovf hset
  rcases hserved with ⟨hbtn, hpoll⟩ | ⟨hbtn, hserved⟩
  · rcases btnCheckIrq_cases m.buttons with
      ⟨hnone, -⟩ | ⟨i, hi, hv, hset, hbefore, -⟩
    · exact absurd hnone hbtn
    · rw [hpoll, hv, m.vectorLawful_button hi hset]
      exact hbuttons i hi hset hbefore
  have hquiet : ∀ i < 3, m.buttons.requests.getLsbD i = false := by
    rcases btnCheckIrq_cases m.buttons with ⟨-, h, -⟩ | ⟨i, hi, hv, -⟩
    · exact h
    · omega
  rcases hserved with ⟨ht16, hpoll⟩ | ⟨ht16, hserved⟩
  · rcases t16CheckIrq_cases m.t16 with ⟨hnone, -⟩ | ⟨i, hi, hv, hset, -⟩
    · exact absurd hnone ht16
    · rw [hpoll, hv]
      exact m.vectorLawful_t16 hi hset
  have hidle : ∀ i < 7, m.t16.pending.getLsbD (7 - i) = false := by
    rcases t16CheckIrq_cases m.t16 with ⟨-, h⟩ | ⟨i, hi, hv, -⟩
    · exact h
    · omega
  obtain ⟨hpaired0, hpaired1⟩ := htimer hquiet hidle
  rcases hserved with ⟨ht8, hpoll⟩ | ⟨ht8, hserved⟩
  · rcases t8CheckIrq_channels m.t8 with ⟨hnone, -⟩ |
      ⟨i, hi, hv, hset, hbefore⟩ | ⟨i, hi, hv, hzero, hset, hbefore⟩
    · exact absurd hnone ht8
    · rw [hpoll, hv, m.vectorLawful_ch0 hi]
      exact (matches_paired_iff m.t8.ch0).mp hpaired0 i hi hset hbefore
    · rw [hpoll, hv, m.vectorLawful_ch1 hi]
      exact (matches_paired_iff m.t8.ch1).mp (hpaired1 hzero) i hi hset
        hbefore
  rcases hserved with ⟨hser, hpoll⟩ | ⟨-, hpoll⟩
  · rw [hpoll]
    exact m.vectorLawful_serial hser
  · rw [hpoll] at hne ⊢
    exact m.vectorLawful_ad hne

theorem OnlyEnabled.firstEnabled {m : Machine} (honly : m.OnlyEnabled)
    (hmasked : m.polled.masked = false)
    (hovf : m.polled.wdog.tcsr &&& Watchdog.OVF = 0) :
    m.polled.buttons.firstEnabled := by
  intro i hi hset hbefore
  have hfirst : (btnCheckIrq m.polled.buttons).1 = 4 + i := by
    rcases btnCheckIrq_cases m.polled.buttons with
      ⟨-, hclear, -⟩ | ⟨j, hj, hv, hset', hbefore', -⟩
    · rw [hclear i hi] at hset
      cases hset
    · rw [hv, first_unique hset hbefore hset' hbefore']
  have hpoll : m.polled.pollIrqs.1 = 4 + i := by
    rcases m.polled.pollIrqs_priority with ⟨hne, -⟩ | ⟨-, hserved⟩
    · exact absurd hovf hne
    · omega
  exact (m.polled.vectorLawful_button hi hset).mp
    (honly.lawful hmasked hpoll (by omega) (by omega))

theorem OnlyEnabled.matchesPaired {m : Machine} (honly : m.OnlyEnabled)
    (hmasked : m.polled.masked = false)
    (hovf : m.polled.wdog.tcsr &&& Watchdog.OVF = 0)
    (hquiet : ∀ i < 3, m.polled.buttons.requests.getLsbD i = false)
    (hidle : ∀ i < 7, m.polled.t16.pending.getLsbD (7 - i) = false) :
    m.polled.t8.matchesPaired := by
  have hbtn : (btnCheckIrq m.polled.buttons).1 = 255 := by
    rcases btnCheckIrq_cases m.polled.buttons with
      ⟨h, -⟩ | ⟨i, hi, -, hset, -⟩
    · exact h
    · rw [hquiet i hi] at hset
      cases hset
  have ht16 : t16CheckIrq m.polled.t16 = 255 := by
    rcases t16CheckIrq_cases m.polled.t16 with ⟨h, -⟩ | ⟨i, hi, -, hset, -⟩
    · exact h
    · rw [hidle i hi] at hset
      cases hset
  have hpoll : t8CheckIrq m.polled.t8 ≠ 255 →
      m.polled.pollIrqs.1 = t8CheckIrq m.polled.t8 := by
    intro hne
    rcases m.polled.pollIrqs_priority with ⟨hset, -⟩ | ⟨-, hserved⟩
    · exact absurd hovf hset
    · omega
  constructor
  · rw [matches_paired_iff]
    intro i hi hset hbefore
    have hv := t8CheckIrq_ch0 hset hbefore
    rw [← m.polled.vectorLawful_ch0 hi]
    exact honly.lawful hmasked (by omega) (by omega) (by omega)
  · intro hzero
    rw [matches_paired_iff]
    intro i hi hset hbefore
    have hv := t8CheckIrq_ch1 hzero hset hbefore
    rw [← m.polled.vectorLawful_ch1 hi]
    exact honly.lawful hmasked (by omega) (by omega) (by omega)

/-- `check_irq` takes only enabled sources exactly when the mask or the
watchdog keeps them all out, or when the source that is served is not one of
the two that report wrongly. -/
theorem onlyEnabled_iff (m : Machine) :
    m.OnlyEnabled ↔
      (m.polled.masked = true ∨ m.polled.wdog.tcsr &&& Watchdog.OVF ≠ 0 ∨
        (m.polled.buttons.firstEnabled ∧
          ((∀ i < 3, m.polled.buttons.requests.getLsbD i = false) →
            (∀ i < 7, m.polled.t16.pending.getLsbD (7 - i) = false) →
              m.polled.t8.matchesPaired))) := by
  constructor
  · intro honly
    rw [or_iff_not_imp_left, or_iff_not_imp_left]
    intro hmasked hovf
    rw [Bool.not_eq_true] at hmasked
    have hovf := not_not.mp hovf
    exact ⟨honly.firstEnabled hmasked hovf,
      honly.matchesPaired hmasked hovf⟩
  · intro hcondition
    refine m.onlyEnabled_of_lawful fun hmasked hlow hne => ?_
    rcases hcondition with hset | hovf | ⟨hbuttons, htimer⟩
    · rw [hmasked] at hset
      cases hset
    · rcases m.polled.pollIrqs_priority with ⟨-, -, hle⟩ | ⟨hzero, -⟩
      · omega
      · exact absurd hzero hovf
    · by_cases hovf : m.polled.wdog.tcsr &&& Watchdog.OVF = 0
      · exact m.polled.pollIrqs_lawful hovf hbuttons htimer hne
      · rcases m.polled.pollIrqs_priority with ⟨-, -, hle⟩ | ⟨hzero, -⟩
        · omega
        · exact absurd hzero hovf

/-- After a reset the guest selects edge sensing for the run button, leaves
IER clear and lets interrupts pass; then the button is pressed. -/
def edgeWithoutEnable : Machine :=
  let m := (powerOn (fun _ => none) [] [[.button .run true]] []).doReset
  let m := m.setByte 0xffc6 1
  { m.addCycles 100 with ccr := 0 }

theorem check_irq_takes_disabled_button :
    ¬edgeWithoutEnable.OnlyEnabled := by
  intro honly
  have htaken : edgeWithoutEnable.checkIrq.1 = .taken 4 := by decide +kernel
  have henabled := (honly 4 htaken le_rfl).2.1
  have hclear : edgeWithoutEnable.polled.buttons.ier = 0 := by
    decide +kernel
  simp [vectorEnabled, hclear] at henabled

end Machine

end BrickEmu
