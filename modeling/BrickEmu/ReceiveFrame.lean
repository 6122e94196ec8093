import BrickEmu.RomUpdate
import BrickEmu.SerialReceiver

/-!
# What the receive interrupt writes

Besides its own variables, the timer and the run flag, the receive interrupt
writes a byte of data to the place where a download has got to.
-/

namespace BrickEmu

namespace Rom

/-- The place to which a byte of data goes. -/
def storesAt (m : Ram) : Option Word :=
  let m' := rxiRestart m
  if m serialXmitFlag = 0x4f ∧
      ¬ (m' serialUseComplement ≠ 0 ∧ m' serialExpectComplement ≠ 0) ∧
      m' serialReceiveState = 6 ∧
      m'.get16 serialReceiveLengthRemaining = 0 ∧
      m'.get16 serialIncomingDataptr ≠ 0 then
    some (m'.get16 serialIncomingDataptr)
  else none

/-- The cells that the handler uses; the two addresses among its variables are
only read. -/
def Scratch (addr : Word) : Prop :=
  let a := addr.toNat
  0xef9d ≤ a ∧ a < 0xf09d ∧ a ≠ 0xefb4 ∧ a ≠ 0xefb5 ∧ a ≠ 0xefb8 ∧
      a ≠ 0xefb9 ∨
    a = 0xee64 ∨ a = 0xee74 ∨ a = 0xee75

instance (addr : Word) : Decidable (Scratch addr) :=
  inferInstanceAs (Decidable (_ ∨ _))

/-- The variables of the receiver are set up, and the index is one that the
handler produces. -/
structure Wired (m : Ram) : Prop where
  timer : m.get16 serialTimerStruct = 0xee74
  runFlag : m.get16 serialHandlerRunFlagAddr = 0xee64
  index : (m serialReceiveIndex).toNat < 10 ∨
    0xc4 ≤ (m serialReceiveIndex).toNat
  xmitFlag : m serialXmitFlag = 0x4f ∨ m serialXmitFlag = 0x13

/-- Only cells of the handler have changed, and its variables are in order. -/
structure Tidy (m m' : Ram) : Prop where
  frame : ∀ addr, ¬ Scratch addr → m' addr = m addr
  wired : Wired m'

section Tidy

variable {m m' : Ram} {byte : Byte}

theorem Wired.tidy (h : Wired m) : Tidy m m :=
  ⟨fun _ _ => rfl, h⟩

/-- The index stays when another cell is written. -/
theorem Tidy.set (h : Tidy m m') {a : Word} (ha : Scratch a)
    (hne : serialReceiveIndex ≠ a) (val : Byte) : Tidy m (m'.set a val) := by
  have hsame (b : Word) (hb : ¬ Scratch b) : (m'.set a val) b = m' b := by
    apply Ram.set_of_ne
    rintro rfl
    exact hb ha
  constructor
  · intro addr haddr
    rw [hsame addr haddr, h.frame addr haddr]
  · constructor
    · rw [Ram.get16, hsame _ (by decide), hsame _ (by decide)]
      exact h.wired.timer
    · rw [Ram.get16, hsame _ (by decide), hsame _ (by decide)]
      exact h.wired.runFlag
    · rw [Ram.set_of_ne hne]
      exact h.wired.index
    · rw [hsame _ (by decide)]
      exact h.wired.xmitFlag

theorem Tidy.set16 (h : Tidy m m') {a : Word} (ha : Scratch a)
    (ha' : Scratch (a + 1)) (hne : serialReceiveIndex ≠ a)
    (hne' : serialReceiveIndex ≠ a + 1) (val : Word) :
    Tidy m (m'.set16 a val) :=
  (h.set ha hne _).set ha' hne' _

theorem Tidy.setIndex (h : Tidy m m') {val : Byte}
    (hval : val.toNat < 10 ∨ 0xc4 ≤ val.toNat) :
    Tidy m (m'.set serialReceiveIndex val) := by
  have hsame (b : Word) (hb : ¬ Scratch b) :
      (m'.set serialReceiveIndex val) b = m' b := by
    apply Ram.set_of_ne
    rintro rfl
    exact hb (by decide)
  constructor
  · intro addr haddr
    rw [hsame addr haddr, h.frame addr haddr]
  · constructor
    · rw [Ram.get16, hsame _ (by decide), hsame _ (by decide)]
      exact h.wired.timer
    · rw [Ram.get16, hsame _ (by decide), hsame _ (by decide)]
      exact h.wired.runFlag
    · rw [Ram.set_self]
      exact hval
    · rw [hsame _ (by decide)]
      exact h.wired.xmitFlag

theorem Tidy.rxiResetState (h : Tidy m m') : Tidy m (rxiResetState m') :=
  (h.set (by decide) (by decide) _).set (by decide) (by decide) _

theorem Tidy.markValid (h : Tidy m m') : Tidy m (markValid m') := by
  have hvalid : Tidy m (m'.set serialValidIncomingData 1) :=
    h.set (by decide) (by decide) _
  simp only [Rom.markValid, hvalid.wired.runFlag]
  exact hvalid.set (by decide) (by decide) _

theorem index_next {index : Byte}
    (hindex : index.toNat < 10 ∨ 0xc4 ≤ index.toNat) :
    (if index + 1 = 10 then 0 else index + 1).toNat < 10 ∨
      0xc4 ≤ (if index + 1 = 10 then 0 else index + 1).toNat := by
  revert index
  decide

theorem Tidy.storeIncoming (h : Tidy m m') (byte : Byte) :
    Tidy m (storeIncoming byte m') := by
  have hindex := h.wired.index
  have hlt := (m' serialReceiveIndex).isLt
  have hplace : Scratch (serialIncomingPacket +
      (m' serialReceiveIndex).setWidth 16) := by
    left
    rw [packet_toNat]
    omega
  have hne : serialReceiveIndex ≠ serialIncomingPacket +
      (m' serialReceiveIndex).setWidth 16 := by
    intro heq
    have hsame := congrArg BitVec.toNat heq
    have hbase : serialReceiveIndex.toNat = 0xefb0 := rfl
    rw [packet_toNat, hbase] at hsame
    omega
  exact (h.set hplace hne byte).setIndex (index_next hindex)

theorem Tidy.opcode (h : Tidy m m') (byte : Byte) :
    Tidy m ((((((((m'.set serialUnpackIndex 0).set serialReceiveIndex 1).set
      serialIncomingPacket byte).set serialReceiveLengthRemaining
      (parameters byte)).set serialLastReceivedByte byte).set
      serialReceiveChksum byte).set serialExpectComplement 1)) := by
  iterate 5 refine Tidy.set ?_ (by decide) (by decide) _
  refine Tidy.setIndex ?_ (by decide)
  exact h.set (by decide) (by decide) _

theorem Tidy.rxiState2 (h : Tidy m m') : Tidy m (rxiState2 byte m') := by
  have hopcode := h.opcode byte
  unfold Rom.rxiState2
  split_ifs
  · exact h
  · exact hopcode.set (by decide) (by decide) _
  · exact ((hopcode.set (by decide) (by decide) _).set (by decide) (by decide)
      _).set (by decide) (by decide) _
  · exact hopcode.set (by decide) (by decide) _

theorem Tidy.rxiState3 (h : Tidy m m') : Tidy m (rxiState3 byte m') := by
  simp only [Rom.rxiState3]
  split_ifs
  · iterate 5 refine Tidy.set ?_ (by decide) (by decide) _
    exact h.storeIncoming byte
  · iterate 4 refine Tidy.set ?_ (by decide) (by decide) _
    exact h.storeIncoming byte

theorem Tidy.rxiState4 (h : Tidy m m') : Tidy m (rxiState4 byte m') := by
  have hstored := ((h.storeIncoming byte).set
    (by decide : Scratch serialLastReceivedByte) (by decide) byte).set
    (by decide : Scratch serialExpectComplement) (by decide) 1
  simp only [Rom.rxiState4]
  split_ifs
  · exact hstored.set (by decide) (by decide) _
  · exact hstored.markValid.rxiResetState
  · exact hstored.rxiResetState

theorem Tidy.rxiState5 (h : Tidy m m') : Tidy m (rxiState5 byte m') := by
  simp only [Rom.rxiState5]
  iterate 2 refine Tidy.set ?_ (by decide) (by decide) _
  refine Tidy.storeIncoming ?_ _
  iterate 2 refine Tidy.set ?_ (by decide) (by decide) _
  exact h.storeIncoming byte

theorem Tidy.evaluateHeader (h : Tidy m m') : Tidy m (evaluateHeader m') := by
  simp only [Rom.evaluateHeader]
  split_ifs
  · exact (h.set16 (by decide) (by decide) (by decide) (by decide) _).set16
      (by decide) (by decide) (by decide) (by decide) _
  · exact ((h.set16 (by decide) (by decide) (by decide) (by decide) _).set16
      (by decide) (by decide) (by decide) (by decide) _).set16
      (by decide) (by decide) (by decide) (by decide) _

theorem Tidy.rxiComplement (h : Tidy m m') :
    Tidy m (rxiComplement byte m') := by
  have hexpect : Tidy m (m'.set serialExpectComplement 0) :=
    h.set (by decide) (by decide) _
  simp only [Rom.rxiComplement]
  split_ifs
  · exact hexpect.rxiResetState
  · exact hexpect.markValid.rxiResetState
  · exact hexpect

theorem Tidy.rxiRestart (h : Tidy m m') : Tidy m (rxiRestart m') := by
  simp only [Rom.rxiRestart, h.wired.timer]
  apply Tidy.set16 _ (by decide) (by decide) (by decide) (by decide)
  split_ifs
  · exact ((h.set (by decide) (by decide) _).set (by decide) (by decide)
      _).set (by decide) (by decide) _
  · exact h

theorem Tidy.eriHandler (h : Tidy m m') : Tidy m (eriHandler m') := by
  have hstate : Tidy m (if m' serialReceiveState - 5 ≤ 1 then m'
      else m'.set serialReceiveState 2) := by
    split_ifs
    · exact h
    · exact h.set (by decide) (by decide) _
  simp only [Rom.eriHandler, hstate.wired.timer]
  exact hstate.set16 (by decide) (by decide) (by decide) (by decide) _

/-- The place of the firmware. -/
def InFirmware (addr : Word) : Prop :=
  0x8000 ≤ addr.toNat ∧ addr.toNat < 0xcc00

instance (addr : Word) : Decidable (InFirmware addr) :=
  inferInstanceAs (Decidable (_ ∧ _))

/-- The cells below the variables of the ROM. -/
def Below (addr : Word) : Prop :=
  addr.toNat < 0xee5e

instance (addr : Word) : Decidable (Below addr) :=
  inferInstanceAs (Decidable (_ < _))

theorem Wired.setData (h : Wired m) {a : Word} (ha : Below a)
    (val : Byte) : Wired (m.set a val) := by
  have hsame (b : Word) (hb : ¬ Below b) : (m.set a val) b = m b := by
    apply Ram.set_of_ne
    rintro rfl
    exact hb ha
  constructor
  · rw [Ram.get16, hsame _ (by decide), hsame _ (by decide)]
    exact h.timer
  · rw [Ram.get16, hsame _ (by decide), hsame _ (by decide)]
    exact h.runFlag
  · rw [hsame _ (by decide)]
    exact h.index
  · rw [hsame _ (by decide)]
    exact h.xmitFlag

theorem Tidy.setData (h : Tidy m m') {a : Word} (ha : Below a)
    (val : Byte) : Tidy (m.set a val) (m'.set a val) where
  frame addr haddr := by
    by_cases hsame : addr = a
    · rw [hsame, Ram.set_self, Ram.set_self]
    · rw [Ram.set_of_ne hsame, Ram.set_of_ne hsame, h.frame addr haddr]
  wired := h.wired.setData ha val

/-- The memory in which a byte of data is stored, if it is one. -/
def withData (byte : Byte) (m : Ram) : Ram :=
  match storesAt m with
  | some addr => m.set addr byte
  | none => m

theorem Tidy.storeData (h : Tidy m m')
    (hne : m'.get16 serialIncomingDataptr ≠ 0)
    (hdata : Below (m'.get16 serialIncomingDataptr)) :
    Tidy (m.set (m'.get16 serialIncomingDataptr) byte)
      (storeData byte m') := by
  simp only [Rom.storeData, if_neg hne]
  split_ifs
  · refine Tidy.set ?_ (by decide) (by decide) _
    refine Tidy.set16 ?_ (by decide) (by decide) (by decide) (by decide) _
    refine Tidy.set ?_ (by decide) (by decide) _
    refine Tidy.set16 ?_ (by decide) (by decide) (by decide) (by decide) _
    exact h.setData hdata byte
  · refine Tidy.set16 ?_ (by decide) (by decide) (by decide) (by decide) _
    refine Tidy.set ?_ (by decide) (by decide) _
    refine Tidy.set16 ?_ (by decide) (by decide) (by decide) (by decide) _
    exact h.setData hdata byte

theorem Tidy.storeData_none (h : Tidy m m')
    (hdata : m'.get16 serialIncomingDataptr = 0) :
    Tidy m (Rom.storeData byte m') := by
  simp only [Rom.storeData, if_pos hdata]
  split_ifs
  · refine Tidy.set ?_ (by decide) (by decide) _
    exact h.set16 (by decide) (by decide) (by decide) (by decide) _
  · exact h.set16 (by decide) (by decide) (by decide) (by decide) _

/-- A byte in state 6, behind the header or in it. -/
theorem Tidy.rxiState6_header (h : Tidy m m')
    (hremaining : m'.get16 serialReceiveLengthRemaining ≠ 0) :
    Tidy m (rxiState6 byte m') := by
  have hlast := (h.set (by decide : Scratch serialLastReceivedByte) (by decide)
    byte).set (by decide : Scratch serialReceiveChksum) (by decide)
    ((m'.set serialLastReceivedByte byte) serialReceiveChksum + byte)
  have hremaining' : ((m'.set serialLastReceivedByte byte).set
      serialReceiveChksum ((m'.set serialLastReceivedByte byte)
        serialReceiveChksum + byte)).get16 serialReceiveLengthRemaining ≠ 0 := by
    rw [Ram.get16_set_of_ne (by decide) (by decide),
      Ram.get16_set_of_ne (by decide) (by decide)]
    exact hremaining
  simp only [rxiState6, if_pos hremaining']
  apply Tidy.set _ (by decide) (by decide)
  split_ifs
  · apply Tidy.evaluateHeader
    exact (hlast.storeIncoming byte).set (by decide) (by decide) _
  · exact (hlast.storeIncoming byte).set (by decide) (by decide) _

theorem rxiState6_data (hremaining :
      m.get16 serialReceiveLengthRemaining = 0) :
    rxiState6 byte m =
      (storeData byte ((m.set serialLastReceivedByte byte).set
        serialReceiveChksum (m serialReceiveChksum + byte))).set
          serialExpectComplement 1 := by
  have hchksum : (m.set serialLastReceivedByte byte) serialReceiveChksum =
      m serialReceiveChksum := Ram.set_of_ne (by decide)
  have hremaining' : ¬ ((m.set serialLastReceivedByte byte).set
      serialReceiveChksum (m serialReceiveChksum + byte)).get16
        serialReceiveLengthRemaining ≠ 0 := by
    rw [Ram.get16_set_of_ne (by decide) (by decide),
      Ram.get16_set_of_ne (by decide) (by decide)]
    exact not_not.mpr hremaining
  simp only [rxiState6, hchksum, if_neg hremaining']

theorem Tidy.rxiState6_stored (h : Tidy m m')
    (hremaining : m'.get16 serialReceiveLengthRemaining = 0)
    (hne : m'.get16 serialIncomingDataptr ≠ 0)
    (hdata : Below (m'.get16 serialIncomingDataptr)) :
    Tidy (m.set (m'.get16 serialIncomingDataptr) byte)
      (rxiState6 byte m') := by
  have hlast := (h.set (by decide : Scratch serialLastReceivedByte) (by decide)
    byte).set (by decide : Scratch serialReceiveChksum) (by decide)
    (m' serialReceiveChksum + byte)
  have hptr : ((m'.set serialLastReceivedByte byte).set serialReceiveChksum
      (m' serialReceiveChksum + byte)).get16 serialIncomingDataptr =
        m'.get16 serialIncomingDataptr := by
    rw [Ram.get16_set_of_ne (by decide) (by decide),
      Ram.get16_set_of_ne (by decide) (by decide)]
  rw [rxiState6_data hremaining]
  apply Tidy.set _ (by decide) (by decide)
  rw [← hptr]
  exact hlast.storeData (hptr ▸ hne) (hptr ▸ hdata)

theorem Tidy.rxiState6_skipped (h : Tidy m m')
    (hremaining : m'.get16 serialReceiveLengthRemaining = 0)
    (hdata : m'.get16 serialIncomingDataptr = 0) :
    Tidy m (rxiState6 byte m') := by
  have hlast := (h.set (by decide : Scratch serialLastReceivedByte) (by decide)
    byte).set (by decide : Scratch serialReceiveChksum) (by decide)
    (m' serialReceiveChksum + byte)
  rw [rxiState6_data hremaining]
  apply Tidy.set _ (by decide) (by decide)
  apply hlast.storeData_none
  rw [Ram.get16_set_of_ne (by decide) (by decide),
    Ram.get16_set_of_ne (by decide) (by decide)]
  exact hdata

theorem withData_of_none (h : storesAt m = none) : withData byte m = m := by
  rw [withData, h]

theorem withData_of_some {addr : Word} (h : storesAt m = some addr) :
    withData byte m = m.set addr byte := by
  rw [withData, h]

/-- Apart from its own cells, the handler changes the byte of data only. -/
theorem tidy_rxiHandler (h : Wired m)
    (hdata : ∀ addr, storesAt m = some addr → Below addr) :
    Tidy (withData byte m) (rxiHandler byte m) := by
  have hrestart := h.tidy.rxiRestart
  unfold rxiHandler
  simp only
  by_cases hidle : m serialXmitFlag = 0x4f
  · have hzero : ¬ m serialXmitFlag - 0x4f ≠ 0 := by
      rw [hidle]
      decide
    rw [if_neg hzero]
    by_cases hwait : rxiRestart m serialUseComplement ≠ 0 ∧
        rxiRestart m serialExpectComplement ≠ 0
    · rw [if_pos hwait, withData_of_none (if_neg fun hall => hall.2.1 hwait)]
      exact hrestart.rxiComplement
    · rw [if_neg hwait]
      by_cases hsix : rxiRestart m serialReceiveState = 6
      · have hdispatch : rxiDispatch byte (rxiRestart m) =
            rxiState6 byte (rxiRestart m) := by
          rw [rxiDispatch, hsix]
          rfl
        rw [hdispatch]
        by_cases hremaining :
            (rxiRestart m).get16 serialReceiveLengthRemaining = 0
        · by_cases hptr : (rxiRestart m).get16 serialIncomingDataptr = 0
          · rw [withData_of_none (if_neg fun hall => hall.2.2.2.2 hptr)]
            exact hrestart.rxiState6_skipped hremaining hptr
          · have hstores : storesAt m =
                some ((rxiRestart m).get16 serialIncomingDataptr) :=
              if_pos ⟨hidle, hwait, hsix, hremaining, hptr⟩
            rw [withData_of_some hstores]
            exact hrestart.rxiState6_stored hremaining hptr
              (hdata _ hstores)
        · rw [withData_of_none (if_neg fun hall => hremaining hall.2.2.2.1)]
          exact hrestart.rxiState6_header hremaining
      · have hnone : storesAt m = none := if_neg fun hall => hsix hall.2.2.1
        rw [withData_of_none hnone, rxiDispatch]
        split
        · exact hrestart.rxiState2
        · exact hrestart.rxiState3
        · exact hrestart.rxiState4
        · exact hrestart.rxiState5
        · next heq => exact absurd (BitVec.eq_of_toNat_eq heq) hsix
        · exact hrestart.rxiResetState
  · have hflag : m serialXmitFlag - 0x4f = 0xc4 := by
      rw [h.xmitFlag.resolve_left hidle]
      decide
    rw [hflag, if_pos (by decide),
      withData_of_none (if_neg fun hall => hidle hall.1)]
    apply Tidy.setIndex _ (by decide)
    exact h.tidy.set (by decide) (by decide) _

end Tidy

end Rom

end BrickEmu
