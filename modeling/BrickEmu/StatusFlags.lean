import BrickEmu.AdSensors
import BrickEmu.FlagRegister
import BrickEmu.SerialTransmission
import BrickEmu.Watchdog

/-!
# The read-then-clear discipline of the status registers

The serial SSR, the watchdog's TCSR and ADCSR keep a copy of the value last
read.  The copy stays when the flag is cleared, so a later write can clear a
flag that was set in the meantime.  ADCSR takes its flag from the copy alone.
-/

namespace BrickEmu

open FlagRegister

section SerialFlags

open Serial

/-- TDRE read as 1 and written as 0. -/
def Serial.HandsOver (serial : Serial) (val : Byte) : Prop :=
  serial.readssr &&& ~~~val &&& TDRE ≠ 0

instance (serial : Serial) (val : Byte) : Decidable (serial.HandsOver val) :=
  inferInstanceAs (Decidable (_ ≠ _))

/-- The transmitter can take a byte at once. -/
def Serial.Idle (serial : Serial) (clock : Clock) : Prop :=
  int32 ((serial.txCycle : ℤ) - clock.cycles) < 0

instance (serial : Serial) (clock : Clock) : Decidable (serial.Idle clock) :=
  inferInstanceAs (Decidable (_ < _))

/-- A byte that leaves at once sets TDRE again. -/
def ssrRegister : FlagRegister Serial (Clock × SerialEvent) 8 where
  mask := TDRE ||| RDRF ||| ORER ||| FER ||| PER
  value := ssr
  copy := readssr
  step := fun serial event => serial.handle event.1 event.2
  access := fun _ event =>
    match event.2 with
    | .readSSR => .read
    | .writeSSR _ => .write
    | _ => .none
  found := fun serial _ => serial.ssr
  raised := fun serial event =>
    match event.2 with
    | .updateTime => (serial.handle event.1 event.2).ssr &&& ~~~serial.ssr
    | .writeSSR val =>
        if serial.HandsOver val ∧ serial.Idle event.1 then TDRE else 0
    | _ => 0

theorem serReceive_readssr (clock : Clock) (serial : Serial) :
    (serReceive clock serial).readssr = serial.readssr := by
  unfold serReceive
  split
  · split
    · next buf serial' hread =>
        obtain ⟨-, rfl⟩ := Prod.mk.inj hread
        simp only
        split_ifs <;> rfl
    · next serial' hread =>
        obtain ⟨-, rfl⟩ := Prod.mk.inj hread
        rfl
  · rfl

theorem serTransmit_readssr (clock : Clock) (serial : Serial) :
    (serTransmit clock serial).readssr = serial.readssr := by
  unfold serTransmit
  split_ifs <;> rfl

theorem startTransmission_readssr (clock : Clock) (serial : Serial) :
    (startTransmission clock serial).readssr = serial.readssr := by
  simp only [startTransmission]
  split_ifs <;> rfl

theorem setSSR_readssr (val : Byte) (clock : Clock) (serial : Serial) :
    (setSSR val clock serial).1.readssr = serial.readssr := by
  simp only [setSSR]
  split_ifs
  · exact startTransmission_readssr clock serial
  · rfl

theorem receiver_maskedSSR (ssr readssr val : Byte) {i : ℕ} (hlow : 3 ≤ i)
    (hhigh : i < 7) :
    let masked := ssr &&&
      (~~~readssr ||| val ||| ~~~(RDRF ||| ORER ||| FER ||| PER))
    (masked ^^^ ((masked ^^^ val) &&& MPBT)).getLsbD i =
      (ssr.getLsbD i && (!readssr.getLsbD i || val.getLsbD i)) := by
  simp only [BitVec.getLsbD_xor, BitVec.getLsbD_and, BitVec.getLsbD_or,
    BitVec.getLsbD_not]
  interval_cases i <;> simp [RDRF, ORER, FER, PER, MPBT]

theorem startTransmission_receiver (clock : Clock) (serial : Serial) {i : ℕ}
    (hlow : 3 ≤ i) (hhigh : i < 7) :
    (startTransmission clock serial).ssr.getLsbD i =
      serial.ssr.getLsbD i := by
  have hclear : (serial.ssr &&& ~~~(TDRE ||| TEND)).getLsbD i =
      serial.ssr.getLsbD i := by
    rw [BitVec.getLsbD_and, BitVec.getLsbD_not]
    interval_cases i <;> simp [TDRE, TEND]
  have hagain : ((serial.ssr &&& ~~~(TDRE ||| TEND)) ||| TDRE).getLsbD i =
      serial.ssr.getLsbD i := by
    rw [BitVec.getLsbD_or, hclear]
    interval_cases i <;> simp [TDRE]
  simp only [startTransmission]
  split_ifs
  · exact hagain
  · exact hagain
  · exact hclear

/-- A write clears a flag of the receiver that the copy shows and the value
does not. -/
theorem setSSR_receiver (val : Byte) (clock : Clock) (serial : Serial) {i : ℕ}
    (hlow : 3 ≤ i) (hhigh : i < 7) :
    (setSSR val clock serial).1.ssr.getLsbD i =
      (serial.ssr.getLsbD i &&
        (!serial.readssr.getLsbD i || val.getLsbD i)) := by
  simp only [setSSR]
  rw [receiver_maskedSSR _ _ _ hlow hhigh]
  split_ifs
  · rw [startTransmission_receiver clock serial hlow hhigh,
      startTransmission_readssr]
  · rfl

theorem setSSR_tdre (val : Byte) (clock : Clock) (serial : Serial) :
    (setSSR val clock serial).1.ssr.getLsbD 7 =
      if serial.HandsOver val then decide (serial.Idle clock)
      else serial.ssr.getLsbD 7 := by
  have hclear : (serial.ssr &&& ~~~(TDRE ||| TEND)).getLsbD 7 = false := by
    simp [TDRE, TEND]
  simp only [setSSR]
  rw [tdre_maskedSSR]
  by_cases hover : serial.readssr &&& ~~~val &&& TDRE ≠ 0
  · rw [if_pos hover, if_pos (by exact hover)]
    simp only [startTransmission]
    by_cases hidle : int32 ((serial.txCycle : ℤ) - clock.cycles) < 0
    · rw [if_pos hidle, decide_eq_true (by exact hidle)]
      exact Transmission.getLsbD_or_tdre _
    · rw [if_neg hidle, decide_eq_false (by exact hidle)]
      exact hclear
  · rw [if_neg hover, if_neg (by exact hover)]

theorem mask_cases {i : ℕ} (hmask : ssrRegister.mask.getLsbD i = true) :
    3 ≤ i ∧ i < 7 ∨ i = 7 := by
  have hi := BitVec.lt_of_getLsbD hmask
  interval_cases i <;> revert hmask <;> decide

theorem ssrRegister_lawful : ssrRegister.Lawful where
  copy_read := by
    rintro serial ⟨clock, event⟩ haccess
    cases event <;> cases haccess
    exact ⟨rfl, rfl, rfl⟩
  copy_other := by
    rintro serial ⟨clock, event⟩ haccess
    cases event with
    | readSSR => exact absurd rfl haccess
    | writeSSR val => exact setSSR_readssr val clock serial
    | updateTime =>
        exact (serReceive_readssr clock _).trans
          (serTransmit_readssr clock serial)
    | writeTDR _ | writeSCR _ | writeSMR _ | writeBRR _ => rfl
  appears := by
    rintro serial ⟨clock, event⟩ i hmask hafter
    cases event with
    | writeSSR val =>
        rcases mask_cases hmask with ⟨hlow, hhigh⟩ | rfl
        · have hbit : (setSSR val clock serial).1.ssr.getLsbD i = true :=
            hafter
          rw [setSSR_receiver val clock serial hlow hhigh,
            Bool.and_eq_true] at hbit
          exact .inl hbit.1
        · have hbit : (setSSR val clock serial).1.ssr.getLsbD 7 = true :=
            hafter
          rw [setSSR_tdre] at hbit
          by_cases hover : serial.HandsOver val
          · rw [if_pos hover, decide_eq_true_eq] at hbit
            refine .inr (.inl ?_)
            simp only [ssrRegister, if_pos (And.intro hover hbit)]
            decide
          · rw [if_neg hover] at hbit
            exact .inl hbit
    | updateTime =>
        rcases set_or_raised serial.ssr hafter with hbefore | hraised
        · exact .inl hbefore
        · exact .inr (.inl hraised)
    | readSSR | writeTDR _ | writeSCR _ | writeSMR _ | writeBRR _ =>
        exact .inl hafter

/-- A write of SSR that keeps to the discipline.  The receiver's flags that
were set since the last read and that the copy shows nevertheless are written
as 1.  A byte is handed over only when TDRE is set, and unless it leaves at
once, when TDRE was not set since the last read. -/
def SsrTimely (o : Observed Serial 8) (event : Clock × SerialEvent) : Prop :=
  match event.2 with
  | .writeSSR val =>
      (∀ i, 3 ≤ i → i < 7 → o.state.ssr.getLsbD i = true →
        o.state.readssr.getLsbD i = true → o.unread.getLsbD i = true →
          val.getLsbD i = true) ∧
      (o.state.HandsOver val →
        if o.state.Idle event.1 then o.state.ssr.getLsbD 7 = true
        else o.state.ssr.getLsbD 7 = true → o.unread.getLsbD 7 = false)
  | _ => True

theorem handsOver_copy {serial : Serial} {val : Byte}
    (h : serial.HandsOver val) : serial.readssr.getLsbD 7 = true := by
  rw [Serial.HandsOver, ne_eq, tdre_eq_zero, BitVec.getLsbD_and,
    Bool.not_eq_false, Bool.and_eq_true] at h
  exact h.1

theorem mask_receiver {i : ℕ} (hlow : 3 ≤ i) (hhigh : i < 7) :
    ssrRegister.mask.getLsbD i = true := by
  interval_cases i <;> decide

theorem tdre_receiver {i : ℕ} (hlow : 3 ≤ i) (hhigh : i < 7) :
    TDRE.getLsbD i = false := by
  interval_cases i <;> decide

section Writes

variable {o : Observed Serial 8} {clock : Clock} {val : Byte}

theorem ssr_receiver_iff (h : ssrRegister.Consistent o) {i : ℕ}
    (hlow : 3 ≤ i) (hhigh : i < 7) :
    ssrRegister.BitOk o (clock, .writeSSR val) i ↔
      (o.state.ssr.getLsbD i = true → o.state.readssr.getLsbD i = true →
        o.unread.getLsbD i = true → val.getLsbD i = true) := by
  have hseen : o.state.readssr.getLsbD i = true →
      o.seen.getLsbD i = !o.unread.getLsbD i :=
    (h i (mask_receiver hlow hhigh)).1
  have hraised :
      (ssrRegister.raised o.state (clock, .writeSSR val)).getLsbD i =
        false := by
    simp only [ssrRegister]
    split_ifs
    · exact tdre_receiver hlow hhigh
    · simp
  have hafter := setSSR_receiver val clock o.state hlow hhigh
  change FlagOk (o.state.ssr.getLsbD i)
    ((setSSR val clock o.state).1.ssr.getLsbD i) _ ↔ _
  rw [hafter, getLsbD_seen _ _ (by omega), hraised]
  clear hafter
  revert hseen
  cases o.state.ssr.getLsbD i <;> cases o.state.readssr.getLsbD i <;>
    cases o.unread.getLsbD i <;> cases val.getLsbD i <;>
    cases o.seen.getLsbD i <;> simp [FlagOk]

theorem ssr_tdre_iff (h : ssrRegister.Consistent o) :
    ssrRegister.BitOk o (clock, .writeSSR val) 7 ↔
      (o.state.HandsOver val →
        if o.state.Idle clock then o.state.ssr.getLsbD 7 = true
        else o.state.ssr.getLsbD 7 = true → o.unread.getLsbD 7 = false) := by
  have hseen : o.state.readssr.getLsbD 7 = true →
      o.seen.getLsbD 7 = !o.unread.getLsbD 7 := (h 7 (by decide)).1
  have hafter := setSSR_tdre val clock o.state
  change FlagOk (o.state.ssr.getLsbD 7)
    ((setSSR val clock o.state).1.ssr.getLsbD 7) _ ↔ _
  rw [hafter, getLsbD_seen _ _ (by omega)]
  clear hafter
  by_cases hover : o.state.HandsOver val
  · have hseen := hseen (handsOver_copy hover)
    by_cases hidle : o.state.Idle clock
    · simp [FlagOk, hover, hidle]
    · have hraised : ssrRegister.raised o.state (clock, .writeSSR val) = 0 :=
        if_neg fun hboth => hidle hboth.2
      rw [hraised, hseen]
      cases hunread : o.unread.getLsbD 7 <;>
        simp [FlagOk, hover, hidle]
  · simp only [FlagOk, hover, false_implies, iff_true]
    refine ⟨id, fun hset hclear => ?_⟩
    rw [hset] at hclear
    cases hclear

end Writes

theorem ssr_writeOk_iff (o : Observed Serial 8)
    (event : Clock × SerialEvent) (h : ssrRegister.Consistent o)
    (haccess : ssrRegister.access o.state event = .write) :
    ssrRegister.WriteOk o event ↔ SsrTimely o event := by
  obtain ⟨clock, event⟩ := event
  cases event <;> cases haccess
  constructor
  · intro hok
    refine ⟨fun i hlow hhigh => ?_, ?_⟩
    · exact (ssr_receiver_iff h hlow hhigh).mp (hok i (mask_receiver hlow hhigh))
    · exact (ssr_tdre_iff h).mp (hok 7 (by decide))
  · rintro ⟨hreceiver, htdre⟩ i hmask
    rcases mask_cases hmask with ⟨hlow, hhigh⟩ | rfl
    · exact (ssr_receiver_iff h hlow hhigh).mpr (hreceiver i hlow hhigh)
    · exact (ssr_tdre_iff h).mpr htdre

end SerialFlags

section WatchdogFlags

open Watchdog

inductive WdogEvent where
  | readTCSR
  | writePw (val : Byte)
  | writeVal (val : Byte)
  | updateTime
  | checkIrq

def Watchdog.handle (clock : Clock) (wdog : Watchdog) :
    WdogEvent → Watchdog
  | .readTCSR => (getWdogTCSR wdog).2
  | .writePw val => setPw val wdog
  | .writeVal val => (setVal val clock wdog).1
  | .updateTime => (wdogUpdateTime clock wdog).1
  | .checkIrq => (wdogCheckIrq clock wdog).2.1

/-- The flags that appear when the watchdog is brought up to date. -/
def Watchdog.overflow (clock : Clock) (wdog : Watchdog) : Byte :=
  (wdogUpdateTime clock wdog).1.tcsr &&& ~~~wdog.tcsr

/-- The value goes to TCSR behind the password `0xa5`; the watchdog is brought
up to date before. -/
def tcsrRegister : FlagRegister Watchdog (Clock × WdogEvent) 8 where
  mask := OVF
  value := tcsr
  copy := readtcsr
  step := fun wdog event => wdog.handle event.1 event.2
  access := fun wdog event =>
    match event.2 with
    | .readTCSR => .read
    | .writeVal _ => if wdog.pw = 0xa5 then .write else .none
    | _ => .none
  found := fun wdog event => (wdogUpdateTime event.1 wdog).1.tcsr
  raised := fun wdog event =>
    match event.2 with
    | .updateTime => wdog.overflow event.1
    | .writeVal _ =>
        if wdog.pw = 0xa5 ∨ wdog.pw = 0x5a then wdog.overflow event.1 else 0
    | _ => 0

theorem wdogUpdateTime_readtcsr (clock : Clock) (wdog : Watchdog) :
    (wdogUpdateTime clock wdog).1.readtcsr = wdog.readtcsr := by
  unfold wdogUpdateTime
  split_ifs
  · simp only
    split_ifs
    · rfl
    · simp only [wdogCount]
      split_ifs <;> rfl
  · rfl

/-- A write of TCSR leaves the overflow flag unless the copy shows it and the
value does not. -/
theorem setVal_tcsr {clock : Clock} {wdog : Watchdog} (val : Byte)
    (hpw : wdog.pw = 0xa5) :
    (setVal val clock wdog).1.tcsr.getLsbD 7 =
      ((val.getLsbD 7 || !wdog.readtcsr.getLsbD 7) &&
        (wdogUpdateTime clock wdog).1.tcsr.getLsbD 7) := by
  have hcopy := wdogUpdateTime_readtcsr clock wdog
  simp only [setVal, if_pos hpw, BitVec.getLsbD_and, BitVec.getLsbD_or,
    BitVec.getLsbD_not, hcopy]
  simp

theorem ovf_cases {i : ℕ} (hmask : tcsrRegister.mask.getLsbD i = true) :
    i = 7 := by
  have hi := BitVec.lt_of_getLsbD hmask
  interval_cases i <;> revert hmask <;> decide

theorem tcsrRegister_lawful : tcsrRegister.Lawful where
  copy_read := by
    rintro wdog ⟨clock, event⟩ haccess
    cases event with
    | readTCSR => exact ⟨rfl, rfl, rfl⟩
    | writeVal val =>
        simp only [tcsrRegister] at haccess
        split_ifs at haccess
    | writePw _ | updateTime | checkIrq => cases haccess
  copy_other := by
    rintro wdog ⟨clock, event⟩ haccess
    cases event with
    | readTCSR => exact absurd rfl haccess
    | writePw val => rfl
    | writeVal val =>
        simp only [tcsrRegister, Watchdog.handle, setVal]
        split_ifs
        · exact wdogUpdateTime_readtcsr clock wdog
        · exact wdogUpdateTime_readtcsr clock wdog
        · rfl
    | updateTime => exact wdogUpdateTime_readtcsr clock wdog
    | checkIrq =>
        simp only [tcsrRegister, Watchdog.handle, wdogCheckIrq]
        split_ifs <;> rfl
  appears := by
    rintro wdog ⟨clock, event⟩ i hmask hafter
    obtain rfl := ovf_cases hmask
    cases event with
    | readTCSR | writePw _ => exact .inl hafter
    | updateTime =>
        rcases set_or_raised wdog.tcsr hafter with hbefore | hraised
        · exact .inl hbefore
        · exact .inr (.inl hraised)
    | checkIrq =>
        simp only [tcsrRegister, Watchdog.handle, wdogCheckIrq] at hafter
        split_ifs at hafter
        · rw [BitVec.getLsbD_and, Bool.and_eq_true] at hafter
          exact .inl hafter.1
        · rw [BitVec.getLsbD_and, Bool.and_eq_true] at hafter
          exact .inl hafter.1
        · exact .inl hafter
    | writeVal val =>
        by_cases hpw : wdog.pw = 0xa5
        · have hbit : (setVal val clock wdog).1.tcsr.getLsbD 7 = true :=
            hafter
          rw [setVal_tcsr val hpw, Bool.and_eq_true] at hbit
          rcases set_or_raised wdog.tcsr hbit.2 with hbefore | hraised
          · exact .inl hbefore
          · refine .inr (.inl ?_)
            simp only [tcsrRegister, if_pos (Or.inl hpw)]
            exact hraised
        · by_cases hcount : wdog.pw = 0x5a
          · have hbit : (wdogUpdateTime clock wdog).1.tcsr.getLsbD 7 =
                true := by
              simpa only [tcsrRegister, Watchdog.handle, setVal, if_neg hpw,
                if_pos hcount] using hafter
            rcases set_or_raised wdog.tcsr hbit with hbefore | hraised
            · exact .inl hbefore
            · refine .inr (.inl ?_)
              simp only [tcsrRegister, if_pos (Or.inr hcount)]
              exact hraised
          · simp only [tcsrRegister, Watchdog.handle, setVal, if_neg hpw,
              if_neg hcount] at hafter
            exact .inl hafter

/-- A write of TCSR that keeps to the discipline: an overflow since the last
read that the copy shows nevertheless is written as 1. -/
def TcsrTimely (o : Observed Watchdog 8) (event : Clock × WdogEvent) : Prop :=
  match event.2 with
  | .writeVal val =>
      (wdogUpdateTime event.1 o.state).1.tcsr.getLsbD 7 = true →
        o.state.readtcsr.getLsbD 7 = true →
        (o.unread ||| o.state.overflow event.1).getLsbD 7 = true →
          val.getLsbD 7 = true
  | _ => True

theorem tcsr_writeOk_iff (o : Observed Watchdog 8) (event : Clock × WdogEvent)
    (h : tcsrRegister.Consistent o)
    (haccess : tcsrRegister.access o.state event = .write) :
    tcsrRegister.WriteOk o event ↔ TcsrTimely o event := by
  obtain ⟨clock, event⟩ := event
  cases event with
  | readTCSR | writePw _ | updateTime | checkIrq => cases haccess
  | writeVal val =>
      have hpw : o.state.pw = 0xa5 := by
        by_contra hpw
        simp only [tcsrRegister, if_neg hpw] at haccess
        cases haccess
      have hseen : o.state.readtcsr.getLsbD 7 = true →
          o.seen.getLsbD 7 = !o.unread.getLsbD 7 := (h 7 (by decide)).1
      have hraised : tcsrRegister.raised o.state (clock, .writeVal val) =
          o.state.overflow clock := if_pos (Or.inl hpw)
      have hbit : tcsrRegister.WriteOk o (clock, .writeVal val) ↔
          tcsrRegister.BitOk o (clock, .writeVal val) 7 := by
        constructor
        · intro hok
          exact hok 7 (by decide)
        · intro hok i hmask
          rw [ovf_cases hmask]
          exact hok
      rw [hbit, TcsrTimely]
      change FlagOk ((wdogUpdateTime clock o.state).1.tcsr.getLsbD 7)
        ((setVal val clock o.state).1.tcsr.getLsbD 7) _ ↔ _
      rw [setVal_tcsr val hpw, getLsbD_seen _ _ (by omega), hraised]
      simp only [BitVec.getLsbD_or]
      revert hseen
      cases (wdogUpdateTime clock o.state).1.tcsr.getLsbD 7 <;>
        cases o.state.readtcsr.getLsbD 7 <;> cases o.unread.getLsbD 7 <;>
        cases (o.state.overflow clock).getLsbD 7 <;> cases val.getLsbD 7 <;>
        cases o.seen.getLsbD 7 <;> simp [FlagOk]

end WatchdogFlags

section AdFlags

open AdSensors

inductive AdEvent where
  | readADCSR
  | writeADCSR (val : Byte)
  | updateTime

def AdSensors.handle (clock : Clock) (ad : AdSensors) : AdEvent → AdSensors
  | .readADCSR => (getAdcsr ad).2
  | .writeADCSR val => (setAdcsr val clock ad).1
  | .updateTime => (adUpdateTime clock ad).1

def adcsrRegister : FlagRegister AdSensors (Clock × AdEvent) 8 where
  mask := ADF
  value := adcsr
  copy := readAdcsr
  step := fun ad event => ad.handle event.1 event.2
  access := fun _ event =>
    match event.2 with
    | .readADCSR => .read
    | .writeADCSR _ => .write
    | .updateTime => .none
  found := fun ad _ => ad.adcsr
  raised := fun ad event =>
    match event.2 with
    | .updateTime => (ad.handle event.1 event.2).adcsr &&& ~~~ad.adcsr
    | _ => 0

theorem adLoop_readAdcsr (cycles convTime fuel : ℕ) (ad : AdSensors) :
    (adLoop cycles convTime fuel ad).readAdcsr = ad.readAdcsr := by
  induction fuel generalizing ad with
  | zero => rfl
  | succ fuel ih =>
      have hconvert : (adConvert convTime ad).readAdcsr = ad.readAdcsr := by
        simp only [adConvert]
        split_ifs <;> rfl
      unfold adLoop
      split_ifs
      · rfl
      · rfl
      · rw [ih, hconvert]

/-- A write of ADCSR takes the flag from the copy and the value. -/
theorem setAdcsr_adf (val : Byte) (clock : Clock) (ad : AdSensors) :
    (setAdcsr val clock ad).1.adcsr.getLsbD 7 =
      (val.getLsbD 7 && ad.readAdcsr.getLsbD 7) := by
  have hvalue : (setAdcsr val clock ad).1.adcsr =
      val &&& (0x7f ||| ad.readAdcsr) := rfl
  rw [hvalue, BitVec.getLsbD_and, BitVec.getLsbD_or]
  simp

theorem setAdcsr_readAdcsr (val : Byte) (clock : Clock) (ad : AdSensors) :
    (setAdcsr val clock ad).1.readAdcsr = ad.readAdcsr := by
  simp only [setAdcsr]
  split_ifs <;> rfl

theorem adf_cases {i : ℕ} (hmask : adcsrRegister.mask.getLsbD i = true) :
    i = 7 := by
  have hi := BitVec.lt_of_getLsbD hmask
  interval_cases i <;> revert hmask <;> decide

theorem adcsrRegister_lawful : adcsrRegister.Lawful where
  copy_read := by
    rintro ad ⟨clock, event⟩ haccess
    cases event <;> cases haccess
    exact ⟨rfl, rfl, rfl⟩
  copy_other := by
    rintro ad ⟨clock, event⟩ haccess
    cases event with
    | readADCSR => exact absurd rfl haccess
    | writeADCSR val => exact setAdcsr_readAdcsr val clock ad
    | updateTime => exact adLoop_readAdcsr clock.cycles ad.convTime 8 ad
  appears := by
    rintro ad ⟨clock, event⟩ i hmask hafter
    obtain rfl := adf_cases hmask
    cases event with
    | readADCSR => exact .inl hafter
    | writeADCSR val =>
        have hbit : (setAdcsr val clock ad).1.adcsr.getLsbD 7 = true := hafter
        rw [setAdcsr_adf, Bool.and_eq_true] at hbit
        exact .inr (.inr hbit.2)
    | updateTime =>
        rcases set_or_raised ad.adcsr hafter with hbefore | hraised
        · exact .inl hbefore
        · exact .inr (.inl hraised)

/-- A write of ADCSR that keeps to the discipline.  When the conversion has
ended the copy shows it, and the flag is written as 1 unless that was before
the last read; when it has not ended, a copy that shows the flag is not
written back. -/
def AdcsrTimely (o : Observed AdSensors 8) (event : Clock × AdEvent) : Prop :=
  match event.2 with
  | .writeADCSR val =>
      if o.state.adcsr.getLsbD 7 then
        o.state.readAdcsr.getLsbD 7 = true ∧
          (o.unread.getLsbD 7 = true → val.getLsbD 7 = true)
      else o.state.readAdcsr.getLsbD 7 = true → val.getLsbD 7 = false
  | _ => True

theorem adcsr_writeOk_iff (o : Observed AdSensors 8) (event : Clock × AdEvent)
    (h : adcsrRegister.Consistent o)
    (haccess : adcsrRegister.access o.state event = .write) :
    adcsrRegister.WriteOk o event ↔ AdcsrTimely o event := by
  obtain ⟨clock, event⟩ := event
  cases event <;> cases haccess
  next val =>
    obtain ⟨hseen, hfresh⟩ := h 7 (by decide)
    have hseen : o.state.readAdcsr.getLsbD 7 = true →
        o.seen.getLsbD 7 = !o.unread.getLsbD 7 := hseen
    have hfresh : o.state.adcsr.getLsbD 7 = true →
        o.state.readAdcsr.getLsbD 7 = false → o.seen.getLsbD 7 = false :=
      hfresh
    have hbit : adcsrRegister.WriteOk o (clock, .writeADCSR val) ↔
        adcsrRegister.BitOk o (clock, .writeADCSR val) 7 := by
      constructor
      · intro hok
        exact hok 7 (by decide)
      · intro hok i hmask
        rw [adf_cases hmask]
        exact hok
    rw [hbit, AdcsrTimely]
    change FlagOk (o.state.adcsr.getLsbD 7)
      ((setAdcsr val clock o.state).1.adcsr.getLsbD 7)
        ((o.seen &&& ~~~0).getLsbD 7) ↔ _
    rw [setAdcsr_adf, getLsbD_seen _ _ (by omega)]
    simp only
    revert hseen hfresh
    cases o.state.adcsr.getLsbD 7 <;> cases o.state.readAdcsr.getLsbD 7 <;>
      cases o.unread.getLsbD 7 <;> cases val.getLsbD 7 <;>
      cases o.seen.getLsbD 7 <;> simp [FlagOk]

end AdFlags

/-- The discipline for the three registers. -/
def FlagsDisciplined (serial : Serial) (serialEvents : List (Clock × SerialEvent))
    (wdog : Watchdog) (wdogEvents : List (Clock × WdogEvent))
    (ad : AdSensors) (adEvents : List (Clock × AdEvent)) : Prop :=
  ssrRegister.Disciplined (.initial serial) serialEvents ∧
    tcsrRegister.Disciplined (.initial wdog) wdogEvents ∧
    adcsrRegister.Disciplined (.initial ad) adEvents

/-- The registers keep to the discipline exactly when every write is
timely. -/
theorem flagsDisciplined_iff (serial : Serial)
    (serialEvents : List (Clock × SerialEvent)) (wdog : Watchdog)
    (wdogEvents : List (Clock × WdogEvent)) (ad : AdSensors)
    (adEvents : List (Clock × AdEvent)) :
    FlagsDisciplined serial serialEvents wdog wdogEvents ad adEvents ↔
      ssrRegister.Writes SsrTimely (.initial serial) serialEvents ∧
        tcsrRegister.Writes TcsrTimely (.initial wdog) wdogEvents ∧
        adcsrRegister.Writes AdcsrTimely (.initial ad) adEvents := by
  apply and_congr
  · exact disciplined_iff ssrRegister_lawful ssr_writeOk_iff
      (consistent_initial serial) serialEvents
  apply and_congr
  · exact disciplined_iff tcsrRegister_lawful tcsr_writeOk_iff
      (consistent_initial wdog) wdogEvents
  · exact disciplined_iff adcsrRegister_lawful adcsr_writeOk_iff
      (consistent_initial ad) adEvents

/-- A conversion ends between a read and a write of ADCSR. -/
def endOfConversion : List (Clock × AdEvent) :=
  [(⟨100, 0, 0⟩, .readADCSR), (⟨300, 0, 0⟩, .updateTime),
    (⟨310, 0, 0⟩, .writeADCSR 0x80)]

def converting : AdSensors :=
  ⟨fun _ => 0, fun _ => 0, 0, 0x20, 0, 0x7f, 0, 0⟩

/-- The write clears a flag that was never read. -/
theorem endOfConversion_lost :
    ¬FlagsDisciplined Transmission.quietSerial [] ⟨0x10, 0x10, 0, 0, 0⟩ []
      converting endOfConversion := by
  rintro ⟨-, -, -, -, hwrite, -⟩
  have hbit := hwrite rfl 7 (by decide)
  have hseen := hbit.2 (by decide +kernel) (by decide +kernel)
  revert hseen
  decide +kernel

end BrickEmu
