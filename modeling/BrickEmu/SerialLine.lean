import BrickEmu.SerialTransmission
import Mathlib.Data.List.ModifyLast

/-!
# The serial interface at its socket

The socket to the infrared server has a queue in each direction.  A read finds
the first byte of its queue or, while that is still on its way, nothing.  What
the guest hands over leaves through the one queue, and what arrives through
the other reaches the guest in RDR; the records of these bytes are history
variables.  The program does not look at what `write` returns, and a write to
the socket is taken to succeed.
-/

namespace BrickEmu

open Serial

/-- An access of the guest, an update, or a reset of the peripherals. -/
inductive LineEvent where
  | event (event : SerialEvent) (arrives : Bool)
  | reset

/-- A byte handed over, and whether a reset has taken it back. -/
structure HandedByte where
  byte : Byte
  takenBack : Bool
  deriving DecidableEq

/-- `handed` are the bytes handed over with the transmitter enabled, `arrived`
those read from the socket, `taken` those the guest had in RDR when it cleared
RDRF. -/
structure SerialLine where
  serial : Serial
  toServer : List Byte
  toBrick : List Byte
  handed : List HandedByte
  resets : ℕ
  arrived : List Byte
  taken : List Byte

namespace Serial

/-- The byte handed over that has not left. -/
def waiting (serial : Serial) : List Byte :=
  if serial.ssr &&& TDRE = 0 ∧ serial.scr &&& TE ≠ 0 then [serial.tdr] else []

/-- The byte received that the guest has not acknowledged. -/
def unread (serial : Serial) : List Byte :=
  if serial.ssr &&& RDRF ≠ 0 then [serial.rdr] else []

def outgoing (serial : Serial) : List Byte :=
  serial.output ++ serial.waiting

/-- The guest writes TDR while TDRE is set, switches the transmitter while no
byte waits and stays with eight data bits. -/
def Orderly (serial : Serial) : SerialEvent → Prop
  | .writeTDR _ => serial.ssr &&& TDRE ≠ 0
  | .writeSCR val => serial.ssr &&& TDRE ≠ 0 ∨ val &&& TE = serial.scr &&& TE
  | .writeSMR val => val &&& CHR = 0
  | _ => True

end Serial

namespace SerialLine

def handedBy (serial : Serial) : SerialEvent → List Byte
  | .writeSSR val =>
      if serial.Accepts val ∧ serial.scr &&& TE ≠ 0 then [serial.tdr] else []
  | _ => []

def takenBy (serial serial' : Serial) : SerialEvent → List Byte
  | .writeSSR _ => if serial'.ssr &&& RDRF = 0 then serial.unread else []
  | _ => []

/-- A byte that is still on its way. -/
def hand (byte : Byte) : HandedByte :=
  ⟨byte, false⟩

/-- The bytes that no reset has taken back. -/
def keptBytes (handed : List HandedByte) : List Byte :=
  (handed.filter fun handed => !handed.takenBack).map HandedByte.byte

/-- A reset takes back the byte that waits. -/
def step (clock : Clock) (l : SerialLine) : LineEvent → SerialLine
  | .event event arrives =>
      let next := if arrives then l.toBrick.head? else none
      let serial :=
        Serial.handle clock { l.serial with input := [next] } event
      let read := if serial.input = [] then next.toList else []
      { serial := serial
        toServer := l.toServer ++ serial.output.drop l.serial.output.length
        toBrick := l.toBrick.drop read.length
        handed := l.handed ++ (handedBy l.serial event).map hand
        resets := l.resets
        arrived := l.arrived ++ read
        taken := l.taken ++ takenBy l.serial serial event }
  | .reset =>
      { l with
        serial := serReset clock l.serial
        resets := l.resets + 1
        handed := if l.serial.waiting = [] then l.handed
          else l.handed.modifyLast fun last => { last with takenBack := true } }

def Permits (l : SerialLine) : LineEvent → Prop
  | .event event _ => l.serial.Orderly event
  | .reset => True

/-- What is handed over leaves or waits, but for at most one byte for each
reset, nothing is doubled or out of order, and whatever the guest takes has
arrived, in this order. -/
structure Ledger (l : SerialLine) : Prop where
  kept : keptBytes l.handed = l.serial.outgoing
  waiting : (l.serial.waiting.map hand).IsSuffix l.handed
  takenBack : l.handed.countP HandedByte.takenBack ≤ l.resets
  taken : (l.taken ++ l.serial.unread).Sublist l.arrived
  eightBits : l.serial.smr &&& CHR = 0

end SerialLine

section Outgoing

theorem waiting_eq {serial serial' : Serial}
    (h : SameTransmitter serial serial') :
    serial'.waiting = serial.waiting := by
  unfold waiting
  simp only [tdre_eq_zero, h.tdre, h.scr, h.tdr]

theorem outgoing_eq {serial serial' : Serial}
    (h : SameTransmitter serial serial') :
    serial'.outgoing = serial.outgoing := by
  rw [outgoing, outgoing, h.output, waiting_eq h]

theorem outgoing_of_set {serial : Serial}
    (hset : serial.ssr.getLsbD 7 = true) : serial.outgoing = serial.output := by
  rw [outgoing, waiting, if_neg, List.append_nil]
  rintro ⟨hclear, -⟩
  rw [tdre_eq_zero, hset] at hclear
  cases hclear

theorem outgoing_of_clear {serial : Serial} (hclear : serial.ssr &&& TDRE = 0) :
    serial.outgoing = serial.output ++
      if serial.scr &&& TE ≠ 0 then [serial.tdr] else [] := by
  rw [outgoing, waiting]
  simp only [hclear, true_and]

/-- An update may send the byte that waits. -/
theorem outgoing_transmit (clock : Clock) (serial : Serial) :
    (serTransmit clock serial).outgoing = serial.outgoing := by
  unfold serTransmit
  by_cases hdue : 0 ≤ int32 ((clock.cycles : ℤ) - serial.txCycle)
  · rw [if_pos hdue]
    by_cases hclear : serial.ssr &&& TDRE = 0
    · rw [if_pos hclear, outgoing_of_clear hclear]
      by_cases henabled : serial.scr &&& TE ≠ 0
      · simp only [if_pos henabled]
        exact outgoing_of_set (Transmission.getLsbD_or_tdre _)
      · simp only [if_neg henabled, List.append_nil]
        exact outgoing_of_set (Transmission.getLsbD_or_tdre _)
    · rw [if_neg hclear]
      apply outgoing_eq
      refine ⟨rfl, rfl, rfl, ?_⟩
      simp [TEND]
  · rw [if_neg hdue]

/-- A byte handed over leaves at once or waits; one that waits already may
leave. -/
theorem outgoing_startTransmission (clock : Clock) (serial : Serial) :
    (startTransmission clock serial).outgoing = serial.outgoing ++
      if serial.ssr &&& TDRE ≠ 0 ∧ serial.scr &&& TE ≠ 0 then [serial.tdr]
      else [] := by
  have hsum : serial.outgoing ++
      (if serial.ssr &&& TDRE ≠ 0 ∧ serial.scr &&& TE ≠ 0 then [serial.tdr]
        else []) =
      serial.output ++ if serial.scr &&& TE ≠ 0 then [serial.tdr] else [] := by
    by_cases hclear : serial.ssr &&& TDRE = 0
    · have hnot : ¬ (serial.ssr &&& TDRE ≠ 0 ∧ serial.scr &&& TE ≠ 0) :=
        fun h => h.1 hclear
      rw [if_neg hnot, outgoing_of_clear hclear, List.append_nil]
    · have hset : serial.ssr.getLsbD 7 = true := by
        simpa using (tdre_eq_zero _).not.mp hclear
      rw [outgoing_of_set hset]
      simp only [ne_eq, hclear, not_false_eq_true, true_and]
  rw [hsum]
  unfold startTransmission
  by_cases hidle : int32 ((serial.txCycle : ℤ) - clock.cycles) < 0
  · simp only [if_pos hidle]
    by_cases henabled : serial.scr &&& TE ≠ 0
    · simp only [if_pos henabled]
      exact outgoing_of_set (Transmission.getLsbD_or_tdre _)
    · simp only [if_neg henabled, List.append_nil]
      exact outgoing_of_set (Transmission.getLsbD_or_tdre _)
  · simp only [if_neg hidle]
    have hcleared : (serial.ssr &&& ~~~(TDRE ||| TEND)) &&& TDRE = 0 := by
      rw [tdre_eq_zero]
      simp [TDRE, TEND]
    exact outgoing_of_clear hcleared

end Outgoing

section Incoming

theorem rdrf_eq_zero (v : Byte) : v &&& RDRF = 0 ↔ v.getLsbD 6 = false :=
  and_mask_eq_zero v 6 (by omega) rfl

theorem unread_eq {serial serial' : Serial}
    (hrdr : serial'.rdr = serial.rdr)
    (hrdrf : serial'.ssr.getLsbD 6 = serial.ssr.getLsbD 6) :
    serial'.unread = serial.unread := by
  unfold unread
  simp only [ne_eq, rdrf_eq_zero, hrdrf, hrdr]

theorem unread_transmit (clock : Clock) (serial : Serial) :
    (serTransmit clock serial).unread = serial.unread := by
  unfold serTransmit
  split_ifs
  · exact unread_eq rfl (by simp [Serial.write, TDRE])
  · exact unread_eq rfl (by simp [TDRE])
  · exact unread_eq rfl (by simp [TEND])
  · rfl

/-- What an update finds at the socket: it does not read, a byte is dropped or
nothing has arrived, or a byte comes into the empty RDR. -/
theorem receive_cases (clock : Clock) {serial : Serial} {next : Option Byte}
    (hinput : serial.input = [next]) (hbits : serial.smr &&& CHR = 0) :
    ((serReceive clock serial).input = [next] ∧
        (serReceive clock serial).unread = serial.unread) ∨
      ((serReceive clock serial).input = [] ∧
        ((serReceive clock serial).unread = serial.unread ∨
          serial.unread = [] ∧
            (serReceive clock serial).unread = next.toList)) := by
  unfold serReceive
  split_ifs
  · cases next with
    | none =>
        have hread : serial.read = (none, { serial with input := [] }) := by
          simp [Serial.read, hinput]
        rw [hread]
        exact Or.inr ⟨rfl, Or.inl rfl⟩
    | some buf =>
        have hread : serial.read = (some buf, { serial with input := [] }) := by
          simp [Serial.read, hinput]
        rw [hread]
        simp only
        by_cases henabled : serial.scr &&& RE ≠ 0
        · rw [if_pos henabled]
          by_cases hfull : serial.ssr &&& RDRF ≠ 0
          · rw [if_pos hfull]
            exact Or.inr ⟨rfl, Or.inl (unread_eq rfl (by simp [ORER]))⟩
          · rw [if_neg hfull]
            refine Or.inr ⟨rfl, Or.inr ⟨if_neg hfull, ?_⟩⟩
            have hset : (serial.ssr ||| RDRF) &&& RDRF ≠ 0 := by
              rw [ne_eq, rdrf_eq_zero]
              simp [RDRF]
            refine (if_pos hset).trans ?_
            simp only [if_neg (not_not_intro hbits)]
            rfl
        · rw [if_neg henabled]
          exact Or.inr ⟨rfl, Or.inl rfl⟩
  · exact Or.inl ⟨hinput, rfl⟩

theorem unread_startTransmission (clock : Clock) (serial : Serial) :
    (startTransmission clock serial).unread = serial.unread := by
  unfold startTransmission
  simp only
  split_ifs
  · exact unread_eq rfl (by simp [Serial.write, TDRE, TEND])
  · exact unread_eq rfl (by simp [TDRE, TEND])
  · exact unread_eq rfl (by simp [TDRE, TEND])

end Incoming

namespace SerialLine

variable {l : SerialLine} {clock : Clock}

theorem transmit_input (clock : Clock) (serial : Serial) :
    (serTransmit clock serial).input = serial.input := by
  unfold serTransmit
  split_ifs <;> rfl

theorem transmit_smr (clock : Clock) (serial : Serial) :
    (serTransmit clock serial).smr = serial.smr := by
  unfold serTransmit
  split_ifs <;> rfl

theorem receive_smr (clock : Clock) (serial : Serial) :
    (serReceive clock serial).smr = serial.smr := by
  unfold serReceive
  split
  · split
    · next buf serial' hread =>
        obtain ⟨-, rfl⟩ := Prod.mk.inj hread
        simp only
        split_ifs <;> rfl
    · next serial' hread =>
        obtain ⟨-, rfl⟩ := Prod.mk.inj hread
        rfl
  · rfl

theorem outgoing_setSSR (clock : Clock) (serial : Serial) (val : Byte) :
    (setSSR val clock serial).1.outgoing =
      serial.outgoing ++ handedBy serial (.writeSSR val) := by
  by_cases hwrite : serial.readssr &&& ~~~val &&& TDRE ≠ 0
  · have hsame : SameTransmitter (startTransmission clock serial)
        (setSSR val clock serial).1 := by
      simp only [setSSR, if_pos hwrite]
      exact ⟨rfl, rfl, rfl, tdre_maskedSSR _ _ _⟩
    have haccepts : serial.Accepts val ↔ serial.ssr &&& TDRE ≠ 0 := by
      rw [Transmission.accepts_iff _ _ hwrite, ne_eq, tdre_eq_zero]
      simp
    rw [outgoing_eq hsame, outgoing_startTransmission]
    simp only [handedBy, haccepts]
  · have hsame : SameTransmitter serial (setSSR val clock serial).1 := by
      simp only [setSSR, if_neg hwrite]
      exact ⟨rfl, rfl, rfl, tdre_maskedSSR _ _ _⟩
    have hnot := Transmission.not_accepts serial val hwrite
    rw [outgoing_eq hsame]
    simp only [handedBy, hnot, false_and, if_false, List.append_nil]

/-- What the guest hands over is what leaves and what waits. -/
theorem outgoing_handle (clock : Clock) {serial : Serial}
    {event : SerialEvent} (horderly : serial.Orderly event) :
    (serial.handle clock event).outgoing =
      serial.outgoing ++ handedBy serial event := by
  have hsame {serial' : Serial} (h : SameTransmitter serial serial') :
      serial'.outgoing = serial.outgoing ++ [] :=
    (outgoing_eq h).trans (List.append_nil _).symm
  cases event with
  | readSSR => exact hsame ⟨rfl, rfl, rfl, rfl⟩
  | writeSSR val => exact outgoing_setSSR clock serial val
  | writeTDR val =>
      have hset : serial.ssr.getLsbD 7 = true := by
        simpa using (tdre_eq_zero _).not.mp horderly
      have hset' : (serial.handle clock (.writeTDR val)).ssr.getLsbD 7 =
          true := hset
      rw [outgoing_of_set hset', outgoing_of_set hset]
      exact (List.append_nil _).symm
  | writeSCR val =>
      refine Eq.trans ?_ (List.append_nil _).symm
      rcases horderly with hset | hsame
      · have hset : serial.ssr.getLsbD 7 = true := by
          simpa using (tdre_eq_zero _).not.mp hset
        have hset' : (serial.handle clock (.writeSCR val)).ssr.getLsbD 7 =
            true := hset
        rw [outgoing_of_set hset', outgoing_of_set hset]
        rfl
      · simp only [Serial.handle, setSCR, outgoing, waiting, hsame]
  | writeSMR val => exact hsame ⟨rfl, rfl, rfl, rfl⟩
  | writeBRR val => exact hsame ⟨rfl, rfl, rfl, rfl⟩
  | updateTime =>
      exact ((outgoing_eq (serReceive_transmitter clock _)).trans
        (outgoing_transmit clock serial)).trans (List.append_nil _).symm

/-- A write of SSR does not set RDRF. -/
theorem rdrf_of_maskedSSR {ssr readssr val : Byte} :
    let masked := ssr &&&
      (~~~readssr ||| val ||| ~~~(RDRF ||| ORER ||| FER ||| PER))
    (masked ^^^ ((masked ^^^ val) &&& MPBT)).getLsbD 6 = true →
      ssr.getLsbD 6 = true := by
  simp only [BitVec.getLsbD_xor, BitVec.getLsbD_and]
  have hmpbt : MPBT.getLsbD 6 = false := by decide
  rw [hmpbt, Bool.and_false, Bool.xor_false, Bool.and_eq_true]
  exact And.left

theorem unread_setSSR (clock : Clock) (serial : Serial) (val : Byte) :
    takenBy serial (setSSR val clock serial).1 (.writeSSR val) ++
      (setSSR val clock serial).1.unread = serial.unread := by
  by_cases hclear : (setSSR val clock serial).1.ssr &&& RDRF = 0
  · have hnone : (setSSR val clock serial).1.unread = [] :=
      if_neg (not_not_intro hclear)
    rw [takenBy, if_pos hclear, hnone, List.append_nil]
  · rw [takenBy, if_neg hclear, List.nil_append]
    have hset : (setSSR val clock serial).1.ssr.getLsbD 6 = true := by
      simpa using (rdrf_eq_zero _).not.mp hclear
    by_cases hwrite : serial.readssr &&& ~~~val &&& TDRE ≠ 0
    · simp only [setSSR, if_pos hwrite] at hset ⊢
      refine Eq.trans ?_ (unread_startTransmission clock serial)
      exact unread_eq rfl (hset.trans (rdrf_of_maskedSSR hset).symm)
    · simp only [setSSR, if_neg hwrite] at hset ⊢
      exact unread_eq rfl (hset.trans (rdrf_of_maskedSSR hset).symm)

theorem unread_handle (clock : Clock) (serial : Serial) {event : SerialEvent}
    (h : event ≠ .updateTime) :
    takenBy serial (serial.handle clock event) event ++
      (serial.handle clock event).unread = serial.unread := by
  cases event with
  | updateTime => exact absurd rfl h
  | writeSSR val => exact unread_setSSR clock serial val
  | _ => rfl

theorem handle_eightBits (clock : Clock) {serial : Serial}
    {event : SerialEvent} (horderly : serial.Orderly event)
    (hbits : serial.smr &&& CHR = 0) :
    (serial.handle clock event).smr &&& CHR = 0 := by
  cases event with
  | writeSMR val => exact horderly
  | writeSSR val =>
      have hsmr : (setSSR val clock serial).1.smr = serial.smr := by
        simp only [setSSR, startTransmission]
        split_ifs <;> rfl
      exact hsmr ▸ hbits
  | updateTime =>
      have hsmr : (serial.handle clock .updateTime).smr = serial.smr :=
        (receive_smr clock _).trans (transmit_smr clock serial)
      rw [hsmr]
      exact hbits
  | _ => exact hbits

/-- The second part of the ledger, for what the socket gave. -/
theorem sublist_handle {taken arrived : List Byte} {serial : Serial}
    {next : Option Byte} {event : SerialEvent}
    (hinput : serial.input = [next]) (hbits : serial.smr &&& CHR = 0)
    (h : (taken ++ serial.unread).Sublist arrived) :
    (taken ++ takenBy serial (serial.handle clock event) event ++
      (serial.handle clock event).unread).Sublist
      (arrived ++
        if (serial.handle clock event).input = [] then next.toList
        else []) := by
  have hmore (new : List Byte) :
      (taken ++ serial.unread).Sublist (arrived ++ new) :=
    h.trans (List.sublist_append_left arrived new)
  by_cases hevent : event = .updateTime
  · subst hevent
    have hread := receive_cases clock
      ((transmit_input clock serial).trans hinput)
      ((congrArg (· &&& CHR) (transmit_smr clock serial)).trans hbits)
    rw [unread_transmit] at hread
    have htaken : takenBy serial (serial.handle clock .updateTime)
        .updateTime = [] := rfl
    have hhandle : serial.handle clock .updateTime =
        serReceive clock (serTransmit clock serial) := rfl
    rw [htaken, List.append_nil, hhandle]
    rcases hread with ⟨-, hunread⟩ | ⟨hempty, hunread | ⟨hnone, hunread⟩⟩
    · rw [hunread]
      exact hmore _
    · rw [hunread]
      exact hmore _
    · rw [hunread, if_pos hempty]
      rw [hnone, List.append_nil] at h
      exact h.append (List.Sublist.refl _)
  · rw [List.append_assoc, unread_handle clock serial hevent]
    exact hmore _

theorem keptBytes_append (before handed : List HandedByte) :
    keptBytes (before ++ handed) = keptBytes before ++ keptBytes handed := by
  rw [keptBytes, List.filter_append, List.map_append]
  rfl

theorem keptBytes_hand (bytes : List Byte) :
    keptBytes (bytes.map hand) = bytes := by
  simp [keptBytes, List.filter_map, Function.comp_def, hand]

theorem handle_output (clock : Clock) (serial : Serial) (event : SerialEvent) :
    ∃ new, (serial.handle clock event).output = serial.output ++ new := by
  have hnone : ∃ new, serial.output = serial.output ++ new :=
    ⟨[], (List.append_nil _).symm⟩
  cases event with
  | writeSSR val =>
      simp only [Serial.handle, setSSR, startTransmission, Serial.write]
      split_ifs
      · exact ⟨_, rfl⟩
      all_goals exact hnone
  | updateTime =>
      have hreceive := (serReceive_transmitter clock
        (serTransmit clock serial)).output
      have htransmit : ∃ new, (serTransmit clock serial).output =
          serial.output ++ new := by
        simp only [serTransmit, Serial.write]
        split_ifs
        · exact ⟨_, rfl⟩
        all_goals exact hnone
      obtain ⟨new, hnew⟩ := htransmit
      exact ⟨new, hreceive.trans hnew⟩
  | _ => exact hnone

/-- What waits behind an access was waiting before it or is handed over by
it. -/
theorem waiting_handle (clock : Clock) {serial : Serial}
    {event : SerialEvent} (horderly : serial.Orderly event) :
    (serial.handle clock event).waiting.IsSuffix
      (serial.waiting ++ handedBy serial event) := by
  have hsum := outgoing_handle clock horderly
  obtain ⟨new, hnew⟩ := handle_output clock serial event
  rw [outgoing, outgoing, hnew, List.append_assoc, List.append_assoc] at hsum
  exact ⟨new, List.append_cancel_left hsum⟩

theorem waiting_cases (serial : Serial) :
    serial.waiting = [] ∨ serial.waiting = [serial.tdr] := by
  unfold waiting
  split_ifs
  · exact Or.inr rfl
  · exact Or.inl rfl

/-- The byte that waits is the last one handed over. -/
theorem Ledger.handed_eq (h : l.Ledger)
    (hwaits : l.serial.waiting = [l.serial.tdr]) :
    ∃ sent, l.handed = sent ++ [hand l.serial.tdr] ∧
      keptBytes sent = l.serial.output := by
  obtain ⟨sent, hsent⟩ := h.waiting
  rw [hwaits] at hsent
  have hkept := h.kept
  rw [← hsent, keptBytes_append, keptBytes_hand, outgoing, hwaits] at hkept
  exact ⟨sent, hsent.symm, List.append_cancel_right hkept⟩

theorem ledger_reset (h : l.Ledger) : (l.step clock .reset).Ledger := by
  have hset : (serReset clock l.serial).ssr.getLsbD 7 = true := by
    change (0x84 : Byte).getLsbD 7 = true
    decide
  have houtgoing : (serReset clock l.serial).outgoing = l.serial.output :=
    outgoing_of_set hset
  have hnone : (serReset clock l.serial).waiting = [] :=
    if_neg fun h => by
      rw [tdre_eq_zero, hset] at h
      exact absurd h.1 (by decide)
  have hunread : (serReset clock l.serial).unread = [] :=
    if_neg (by change ¬ (0x84 : Byte) &&& RDRF ≠ 0; decide)
  have htaken : (l.taken ++ (serReset clock l.serial).unread).Sublist
      l.arrived := by
    rw [hunread, List.append_nil]
    exact (List.sublist_append_left _ _).trans h.taken
  have hbits : (serReset clock l.serial).smr &&& CHR = 0 := by
    change (0 : Byte) &&& CHR = 0
    decide
  have hcount := h.takenBack
  rcases waiting_cases l.serial with hidle | hwaits
  · have hhanded : (l.step clock .reset).handed = l.handed := if_pos hidle
    have hkept := h.kept
    rw [outgoing, hidle, List.append_nil] at hkept
    exact ⟨by rw [hhanded, hkept]; exact houtgoing.symm,
      by simp only [step, hnone]; exact List.nil_suffix,
      by rw [hhanded]; exact hcount.trans (Nat.le_succ _), htaken, hbits⟩
  · obtain ⟨sent, hsent, hkept⟩ := h.handed_eq hwaits
    have hhanded : (l.step clock .reset).handed =
        sent ++ [⟨l.serial.tdr, true⟩] := by
      refine (if_neg (by simp [hwaits])).trans ?_
      rw [hsent, List.modifyLast_concat]
      rfl
    rw [hsent, List.countP_append] at hcount
    exact ⟨by
        rw [hhanded, keptBytes_append, hkept]
        exact (List.append_nil _).trans houtgoing.symm,
      by simp only [step, hnone]; exact List.nil_suffix,
      by
        rw [hhanded, List.countP_append]
        simp only [step, hand, List.countP_singleton] at hcount ⊢
        simp only [Bool.false_eq_true, if_false, if_true] at hcount ⊢
        omega, htaken, hbits⟩

theorem ledger_step (h : l.Ledger) {event : LineEvent}
    (hpermits : l.Permits event) : (l.step clock event).Ledger := by
  cases event with
  | event event arrives =>
      have horderly : Serial.Orderly
          { l.serial with
            input := [if arrives then l.toBrick.head? else none] } event :=
        hpermits
      exact {
        kept := by
          refine Eq.trans ?_ (outgoing_handle clock horderly).symm
          refine (keptBytes_append _ _).trans ?_
          rw [keptBytes_hand, h.kept]
          rfl
        waiting := by
          have hsuffix := (waiting_handle clock horderly).map hand
          rw [List.map_append] at hsuffix
          obtain ⟨before, hbefore⟩ := h.waiting
          refine hsuffix.trans ⟨before, ?_⟩
          rw [← List.append_assoc]
          exact congrArg (· ++ (handedBy l.serial event).map hand) hbefore
        takenBack := by
          have hnew : ((handedBy l.serial event).map hand).countP
              HandedByte.takenBack = 0 := by
            simp [List.countP_map, Function.comp_def, hand]
          simp only [step, List.countP_append]
          exact hnew ▸ h.takenBack
        taken := sublist_handle rfl h.eightBits h.taken
        eightBits := handle_eightBits clock horderly h.eightBits }
  | reset => exact ledger_reset h

/-- The bytes read from the socket come from the front of its queue. -/
theorem step_arrived (clock : Clock) (l : SerialLine) (event : LineEvent) :
    (l.step clock event).arrived ++ (l.step clock event).toBrick =
      l.arrived ++ l.toBrick := by
  cases event with
  | reset => rfl
  | event event arrives =>
      simp only [step, List.append_assoc]
      congr 1
      cases hqueue : l.toBrick with
      | nil => cases arrives <;> simp
      | cons byte rest =>
          cases arrives with
          | false => simp
          | true =>
              simp only [if_true, List.head?_cons, Option.toList_some]
              split_ifs <;> rfl

/-- What the interface sends goes to the end of the queue. -/
theorem step_toServer (clock : Clock) (l : SerialLine) (event : LineEvent) :
    ∃ new, (l.step clock event).serial.output = l.serial.output ++ new ∧
      (l.step clock event).toServer = l.toServer ++ new := by
  cases event with
  | reset => exact ⟨[], (List.append_nil _).symm, (List.append_nil _).symm⟩
  | event event arrives =>
      obtain ⟨new, hnew⟩ := handle_output clock
        { l.serial with
          input := [if arrives then l.toBrick.head? else none] } event
      refine ⟨new, hnew, ?_⟩
      simp only [step]
      rw [hnew, List.drop_left]

end SerialLine

end BrickEmu
