import BrickEmu.Serial

/-!
# Transmission over the serial interface

The guest hands a byte over by clearing TDRE.  It leaves at once when the
transmitter is idle, otherwise with a later update; until then TDRE stays
clear.  A history variable records the bytes handed over, and the bytes on the
socket are compared with it.
-/

namespace BrickEmu

open Serial

/-- What happens to the interface while it transmits. -/
inductive SerialEvent where
  | readSSR
  | writeSSR (val : Byte)
  | writeTDR (val : Byte)
  | writeSCR (val : Byte)
  | writeSMR (val : Byte)
  | writeBRR (val : Byte)
  | updateTime

structure Transmission where
  serial : Serial
  accepted : List Byte

namespace Serial

def handle (clock : Clock) (serial : Serial) : SerialEvent → Serial
  | .readSSR => (getSSR serial).2
  | .writeSSR val => (setSSR val clock serial).1
  | .writeTDR val => (setTDR val clock serial).1
  | .writeSCR val => (setSCR val clock serial).1
  | .writeSMR val => (setSMR val clock serial).1
  | .writeBRR val => (setBRR val clock serial).1
  | .updateTime => (serUpdateTime clock serial).1

/-- TDRE is set, has been read as 1 and is written as 0. -/
def Accepts (serial : Serial) (val : Byte) : Prop :=
  serial.ssr &&& TDRE ≠ 0 ∧ serial.readssr &&& TDRE ≠ 0 ∧ val &&& TDRE = 0

instance (serial : Serial) (val : Byte) : Decidable (serial.Accepts val) :=
  inferInstanceAs (Decidable (_ ∧ _ ∧ _))

/-- The guest writes TDR only while TDRE is set, and keeps TE. -/
def Permits (serial : Serial) : SerialEvent → Prop
  | .writeTDR _ => serial.ssr &&& TDRE ≠ 0
  | .writeSCR val => val &&& TE ≠ 0
  | _ => True

instance (serial : Serial) : ∀ event, Decidable (serial.Permits event)
  | .writeTDR _ => inferInstanceAs (Decidable (_ ≠ _))
  | .writeSCR _ => inferInstanceAs (Decidable (_ ≠ _))
  | .readSSR | .writeSSR _ | .writeSMR _ | .writeBRR _ | .updateTime =>
      isTrue trivial

end Serial

namespace Transmission

def step (t : Transmission) (clock : Clock) (event : SerialEvent) :
    Transmission where
  serial := t.serial.handle clock event
  accepted :=
    match event with
    | .writeSSR val =>
        if t.serial.Accepts val then t.accepted ++ [t.serial.tdr]
        else t.accepted
    | _ => t.accepted

def run (t : Transmission) (events : List (Clock × SerialEvent)) :
    Transmission :=
  events.foldl (fun t event => t.step event.1 event.2) t

/-- Every event of a run is permitted when it happens. -/
def Permitted : Transmission → List (Clock × SerialEvent) → Prop
  | _, [] => True
  | t, event :: rest =>
      t.serial.Permits event.2 ∧ Permitted (t.step event.1 event.2) rest

/-- After a reset and the write of SCR. -/
def start (clock clock' : Clock) (scr : Byte) (serial : Serial) :
    Transmission :=
  ⟨(setSCR scr clock' (serReset clock serial)).1, []⟩

/-- The socket has got all bytes handed over, but for the one in TDR while
TDRE is clear. -/
structure Conserved (base : List Byte) (t : Transmission) : Prop where
  enabled : t.serial.scr &&& TE ≠ 0
  empty : t.serial.ssr.getLsbD 7 = true →
    t.serial.output = base ++ t.accepted
  full : t.serial.ssr.getLsbD 7 = false →
    ∃ sent, t.accepted = sent ++ [t.serial.tdr] ∧
      t.serial.output = base ++ sent

end Transmission

section Bits

theorem tdre_eq_zero (v : Byte) : v &&& TDRE = 0 ↔ v.getLsbD 7 = false :=
  and_mask_eq_zero v 7 (by omega) rfl

/-- The transmitting half is as before. -/
structure SameTransmitter (before after : Serial) : Prop where
  scr : after.scr = before.scr
  tdr : after.tdr = before.tdr
  output : after.output = before.output
  tdre : after.ssr.getLsbD 7 = before.ssr.getLsbD 7

theorem serReceive_transmitter (clock : Clock) (serial : Serial) :
    SameTransmitter serial (serReceive clock serial) := by
  unfold serReceive
  split
  · split
    · next buf serial' hread =>
        obtain ⟨-, rfl⟩ := Prod.mk.inj hread
        simp only
        split_ifs
        all_goals
          refine ⟨rfl, rfl, rfl, ?_⟩
          simp [ORER, RDRF]
    · next serial' hread =>
        obtain ⟨-, rfl⟩ := Prod.mk.inj hread
        exact ⟨rfl, rfl, rfl, rfl⟩
  · exact ⟨rfl, rfl, rfl, rfl⟩

/-- The last part of `set_SSR` does not reach TDRE. -/
theorem tdre_maskedSSR (ssr readssr val : Byte) :
    let masked := ssr &&&
      (~~~readssr ||| val ||| ~~~(RDRF ||| ORER ||| FER ||| PER))
    (masked ^^^ ((masked ^^^ val) &&& MPBT)).getLsbD 7 = ssr.getLsbD 7 := by
  simp only [BitVec.getLsbD_xor, BitVec.getLsbD_and, BitVec.getLsbD_or,
    BitVec.getLsbD_not]
  simp [RDRF, ORER, FER, PER, MPBT]

end Bits

namespace Transmission

variable {base : List Byte} {t : Transmission} {clock : Clock}

theorem Conserved.congr {serial : Serial} (h : Conserved base t)
    (hsame : SameTransmitter t.serial serial) :
    Conserved base ⟨serial, t.accepted⟩ := by
  obtain ⟨hscr, htdr, houtput, htdre⟩ := hsame
  refine ⟨?_, ?_, ?_⟩
  · rw [hscr]
    exact h.enabled
  · rw [htdre, houtput]
    exact h.empty
  · rw [htdre, houtput, htdr]
    exact h.full

/-- A byte that waits in TDR leaves. -/
theorem Conserved.sent (h : Conserved base t)
    (hfull : t.serial.ssr.getLsbD 7 = false) :
    base ++ t.accepted = t.serial.output ++ [t.serial.tdr] := by
  obtain ⟨sent, haccepted, houtput⟩ := h.full hfull
  rw [haccepted, houtput, List.append_assoc]

/-- The byte goes to the socket and TDRE is set. -/
theorem Conserved.write {serial : Serial} {accepted : List Byte}
    (henabled : serial.scr &&& TE ≠ 0) (hset : serial.ssr.getLsbD 7 = true)
    (houtput : serial.output = base ++ accepted) :
    Conserved base ⟨serial, accepted⟩ := by
  refine ⟨henabled, fun _ => houtput, fun hclear => ?_⟩
  rw [hset] at hclear
  cases hclear

theorem getLsbD_or_tdre (ssr : Byte) : (ssr ||| TDRE).getLsbD 7 = true := by
  simp [TDRE]

theorem conserved_transmit (h : Conserved base t) :
    Conserved base ⟨serTransmit clock t.serial, t.accepted⟩ := by
  unfold serTransmit
  by_cases hdue : 0 ≤ int32 ((clock.cycles : ℤ) - t.serial.txCycle)
  · rw [if_pos hdue]
    by_cases hfull : t.serial.ssr &&& TDRE = 0
    · rw [if_pos hfull]
      simp only [if_pos h.enabled]
      have hsent := h.sent ((tdre_eq_zero _).mp hfull)
      exact Conserved.write h.enabled (getLsbD_or_tdre _) hsent.symm
    · rw [if_neg hfull]
      refine h.congr ⟨rfl, rfl, rfl, ?_⟩
      simp [TEND]
  · rw [if_neg hdue]
    exact h

/-- A write of SSR with TDRE read as 1 and written as 0. -/
theorem conserved_startTransmission (h : Conserved base t) :
    Conserved base
      ⟨startTransmission clock t.serial,
        if t.serial.ssr.getLsbD 7 then t.accepted ++ [t.serial.tdr]
        else t.accepted⟩ := by
  have hclear : (t.serial.ssr &&& ~~~(TDRE ||| TEND)).getLsbD 7 = false := by
    simp [TDRE, TEND]
  have hhanded : base ++
      (if t.serial.ssr.getLsbD 7 then t.accepted ++ [t.serial.tdr]
        else t.accepted) = t.serial.output ++ [t.serial.tdr] := by
    cases htdre : t.serial.ssr.getLsbD 7 with
    | true =>
        rw [if_pos rfl, h.empty htdre, List.append_assoc]
    | false =>
        rw [if_neg Bool.false_ne_true]
        exact h.sent htdre
  unfold startTransmission
  by_cases hidle : int32 ((t.serial.txCycle : ℤ) - clock.cycles) < 0
  · simp only [if_pos hidle, if_pos h.enabled]
    exact Conserved.write h.enabled (getLsbD_or_tdre _) hhanded.symm
  · simp only [if_neg hidle]
    refine ⟨h.enabled, fun hset => ?_, fun _ => ?_⟩
    · rw [hclear] at hset
      cases hset
    · cases htdre : t.serial.ssr.getLsbD 7 with
      | true => exact ⟨t.accepted, by simp, h.empty htdre⟩
      | false =>
          obtain ⟨sent, haccepted, houtput⟩ := h.full htdre
          exact ⟨sent, by simpa using haccepted, houtput⟩

theorem accepts_iff (serial : Serial) (val : Byte)
    (hwrite : serial.readssr &&& ~~~val &&& TDRE ≠ 0) :
    serial.Accepts val ↔ serial.ssr.getLsbD 7 = true := by
  have hbits : serial.readssr.getLsbD 7 = true ∧ val.getLsbD 7 = false := by
    rw [ne_eq, tdre_eq_zero, BitVec.getLsbD_and, BitVec.getLsbD_not] at hwrite
    simpa using hwrite
  rw [Serial.Accepts, ne_eq, ne_eq, tdre_eq_zero, tdre_eq_zero, tdre_eq_zero,
    hbits.1, hbits.2]
  simp

theorem not_accepts (serial : Serial) (val : Byte)
    (hwrite : ¬serial.readssr &&& ~~~val &&& TDRE ≠ 0) :
    ¬serial.Accepts val := by
  rintro ⟨-, hread, hval⟩
  rw [ne_eq, tdre_eq_zero] at hread
  rw [tdre_eq_zero] at hval
  apply hwrite
  rw [ne_eq, tdre_eq_zero, BitVec.getLsbD_and, BitVec.getLsbD_not, hval]
  simpa using hread

theorem conserved_writeSSR (h : Conserved base t) (val : Byte) :
    Conserved base (t.step clock (.writeSSR val)) := by
  simp only [step, Serial.handle, setSSR]
  by_cases hwrite : t.serial.readssr &&& ~~~val &&& TDRE ≠ 0
  · simp only [if_pos hwrite, accepts_iff _ _ hwrite]
    exact (conserved_startTransmission h).congr
      ⟨rfl, rfl, rfl, tdre_maskedSSR _ _ _⟩
  · simp only [if_neg hwrite, if_neg (not_accepts _ _ hwrite)]
    exact h.congr ⟨rfl, rfl, rfl, tdre_maskedSSR _ _ _⟩

theorem conserved_step (h : Conserved base t) (event : SerialEvent)
    (hpermits : t.serial.Permits event) :
    Conserved base (t.step clock event) := by
  cases event with
  | readSSR => exact h.congr ⟨rfl, rfl, rfl, rfl⟩
  | writeSSR val => exact conserved_writeSSR h val
  | writeTDR val =>
      have hset : t.serial.ssr.getLsbD 7 = true := by
        simpa [tdre_eq_zero] using (tdre_eq_zero t.serial.ssr).not.mp hpermits
      exact Conserved.write h.enabled hset (h.empty hset)
  | writeSCR val => exact ⟨hpermits, h.empty, h.full⟩
  | writeSMR val => exact h.congr ⟨rfl, rfl, rfl, rfl⟩
  | writeBRR val => exact h.congr ⟨rfl, rfl, rfl, rfl⟩
  | updateTime =>
      exact (conserved_transmit h).congr (serReceive_transmitter clock _)

theorem conserved_run {events : List (Clock × SerialEvent)}
    (h : Conserved base t) (hpermitted : Permitted t events) :
    Conserved base (t.run events) := by
  induction events generalizing t with
  | nil => exact h
  | cons event rest ih =>
      exact ih (conserved_step h event.2 hpermitted.1) hpermitted.2

theorem conserved_start {scr : Byte} (hscr : scr &&& TE ≠ 0)
    (clock clock' : Clock) (serial : Serial) :
    Conserved serial.output (start clock clock' scr serial) := by
  have hset : (0x84 : Byte).getLsbD 7 = true := by decide
  exact Conserved.write hscr hset (List.append_nil _).symm

/-- The bytes handed over leave once and in order; only the last one may
still wait, while TDRE is clear. -/
theorem transmitted_once {scr : Byte} (hscr : scr &&& TE ≠ 0)
    (clock clock' : Clock) (serial : Serial)
    {events : List (Clock × SerialEvent)}
    (hpermitted : Permitted (start clock clock' scr serial) events) :
    let t := (start clock clock' scr serial).run events
    t.serial.output =
      serial.output ++
        if t.serial.ssr &&& TDRE ≠ 0 then t.accepted
        else t.accepted.dropLast := by
  have h := conserved_run (conserved_start hscr clock clock' serial) hpermitted
  intro t
  by_cases htdre : t.serial.ssr &&& TDRE = 0
  · obtain ⟨sent, haccepted, houtput⟩ := h.full ((tdre_eq_zero _).mp htdre)
    rw [if_neg (not_not.mpr htdre), haccepted, houtput, List.dropLast_concat]
  · have hset : t.serial.ssr.getLsbD 7 = true := by
      simpa using (tdre_eq_zero _).not.mp htdre
    rw [if_pos htdre, h.empty hset]

/-- A byte that leaves at once, and one that has to wait. -/
def twoBytes : List (Clock × SerialEvent) :=
  [(⟨10, 0, 0⟩, .writeTDR 0x55), (⟨12, 0, 0⟩, .readSSR),
    (⟨20, 0, 0⟩, .writeSSR 0), (⟨22, 0, 0⟩, .writeTDR 0xaa),
    (⟨24, 0, 0⟩, .readSSR), (⟨30, 0, 0⟩, .writeSSR 0)]

def quietSerial : Serial :=
  ⟨0, 0, 0, 0, 0, 0, 0, 0, false, 0, 0, [], []⟩

theorem transmitted_once_two_bytes :
    let t := (start ⟨0, 0, 0⟩ ⟨1, 0, 0⟩ TE quietSerial).run twoBytes
    t.accepted = [0x55, 0xaa] ∧ t.serial.output = [0x55] := by
  have hscr : TE &&& TE ≠ 0 := by decide
  have hpermitted : Permitted (start ⟨0, 0, 0⟩ ⟨1, 0, 0⟩ TE quietSerial)
      twoBytes :=
    ⟨by decide, trivial, trivial, by decide, trivial, trivial, trivial⟩
  have h := transmitted_once hscr ⟨0, 0, 0⟩ ⟨1, 0, 0⟩ quietSerial hpermitted
  refine ⟨by decide +kernel, h.trans ?_⟩
  decide +kernel

end Transmission

end BrickEmu
