import BrickEmu.SerialPackets

/-!
# Sent packets are received

`send_packet` puts the encoded message behind a header, and the receiver takes
it back.
-/

namespace BrickEmu

namespace Rom

section Sending

/-- The packet to be sent. -/
def outgoing (m : Ram) : List Byte :=
  m.bytes serialOutgoingPacket (m.get16 serialOutRemaining).toNat

/-- The place where the packet is made. -/
def InOutgoing (addr : Word) : Prop :=
  0xef52 ≤ addr.toNat ∧ addr.toNat < 0xef92

instance (addr : Word) : Decidable (InOutgoing addr) :=
  inferInstanceAs (Decidable (_ ∧ _))

/-- The message lies at the address, apart from the place of the packet. -/
inductive StoredAt (m : Ram) : Word → List Byte → Prop
  | nil (addr : Word) : StoredAt m addr []
  | cons {addr : Word} {message : List Byte} (hapart : ¬ InOutgoing addr)
      (h : StoredAt m (addr + 1) message) :
      StoredAt m addr (m addr :: message)

variable {m : Ram} {addr : Word} {message : List Byte}

theorem StoredAt.congr {m' : Ram} (h : StoredAt m addr message)
    (hsame : ∀ a, ¬ InOutgoing a → m' a = m a) :
    StoredAt m' addr message := by
  induction h with
  | nil addr => exact .nil addr
  | cons hapart h ih =>
      rw [← hsame _ hapart]
      exact .cons hapart ih

theorem StoredAt.set (h : StoredAt m addr message) {a : Word}
    (ha : InOutgoing a) (val : Byte) : StoredAt (m.set a val) addr message := by
  apply h.congr
  intro b hb
  apply Ram.set_of_ne
  rintro rfl
  exact hb ha

theorem bytes_congr {m' : Ram} (n : ℕ) (addr : Word)
    (hsame : ∀ i < n, m' (addr + BitVec.ofNat 16 i) =
      m (addr + BitVec.ofNat 16 i)) :
    m'.bytes addr n = m.bytes addr n := by
  induction n generalizing addr with
  | zero => rfl
  | succ n ih =>
      have hfirst := hsame 0 (by omega)
      rw [BitVec.add_zero] at hfirst
      rw [Ram.bytes, Ram.bytes, hfirst, ih]
      intro i hi
      rw [← Ram.addr_succ]
      exact hsame (i + 1) (by omega)

theorem bytes_append (m : Ram) (addr : Word) (n k : ℕ) :
    m.bytes addr (n + k) =
      m.bytes addr n ++ m.bytes (addr + BitVec.ofNat 16 n) k := by
  induction n generalizing addr with
  | zero => simp [Ram.bytes]
  | succ n ih =>
      rw [Nat.succ_add, Ram.bytes, ih, Ram.bytes, Ram.addr_succ]
      rfl

/-- The places of the outgoing packet. -/
def outCell (k : ℕ) : Word :=
  serialOutgoingPacket + BitVec.ofNat 16 k

theorem outCell_toNat {k : ℕ} (hk : k < 64) : (outCell k).toNat = 0xef52 + k := by
  have hbase : serialOutgoingPacket.toNat = 0xef52 := rfl
  rw [outCell, BitVec.toNat_add, BitVec.toNat_ofNat, hbase]
  omega

theorem inOutgoing_outCell {k : ℕ} (hk : k < 64) : InOutgoing (outCell k) := by
  rw [InOutgoing, outCell_toNat hk]
  omega

theorem outCell_succ (k : ℕ) : outCell (k + 1) = outCell k + 1 := by
  rw [outCell, outCell, BitVec.ofNat_add, BitVec.add_assoc]
  rfl

theorem outCell_add (k i : ℕ) :
    outCell k + BitVec.ofNat 16 i = outCell (k + i) := by
  rw [outCell, outCell, BitVec.ofNat_add, BitVec.add_assoc]

/-- The packet holds these bytes from a place on, up to the end of it. -/
structure Packed (m m' : Ram) (k : ℕ) (bytes : List Byte) : Prop where
  bytes : m'.bytes (outCell k) bytes.length = bytes
  before : ∀ i < k, m' (outCell i) = m (outCell i)
  apart : ∀ a, ¬ InOutgoing a → m' a = m a

theorem packed_nil (m : Ram) (k : ℕ) : Packed m m k [] :=
  ⟨rfl, fun _ _ => rfl, fun _ _ => rfl⟩

/-- A byte is put in place, and the rest behind it. -/
theorem Packed.cons {m' : Ram} {k : ℕ} {byte : Byte} {bytes : List Byte}
    (h : Packed (m.set (outCell k) byte) m' (k + 1) bytes) (hk : k < 64) :
    Packed m m' k (byte :: bytes) := by
  constructor
  · rw [List.length_cons, Ram.bytes, ← outCell_succ, h.bytes,
      h.before k (by omega), Ram.set_self]
  · intro i hi
    rw [h.before i (by omega)]
    apply Ram.set_of_ne
    intro heq
    have hsame := congrArg BitVec.toNat heq
    rw [outCell_toNat hk, outCell_toNat (by omega)] at hsame
    omega
  · intro a ha
    rw [h.apart a ha]
    apply Ram.set_of_ne
    rintro rfl
    exact ha (inOutgoing_outCell hk)

theorem Packed.append {m' m'' : Ram} {k : ℕ} {bytes bytes' : List Byte}
    (h : Packed m m' k bytes)
    (h' : Packed m' m'' (k + bytes.length) bytes') :
    Packed m m'' k (bytes ++ bytes') := by
  constructor
  · rw [List.length_append, bytes_append]
    rw [outCell_add, h'.bytes]
    congr 1
    refine (bytes_congr _ _ ?_).trans h.bytes
    intro i hi
    rw [outCell_add, h'.before (k + i) (by omega)]
  · intro i hi
    rw [h'.before i (by omega), h.before i hi]
  · intro a ha
    rw [h'.apart a ha, h.apart a ha]

theorem packMessage_packed (h : StoredAt m addr message) (k : ℕ)
    (chksum : Byte) (hk : k + 2 * message.length ≤ 64) :
    ∃ m', packMessage true message.length addr (BitVec.ofNat 16 k) chksum m =
        (BitVec.ofNat 16 (k + 2 * message.length), chksum + message.sum, m') ∧
      Packed m m' k (withComplements message) := by
  induction message generalizing addr k chksum m with
  | nil =>
      refine ⟨m, ?_, packed_nil m k⟩
      simp [packMessage]
  | cons byte message ih =>
      cases h with
      | cons hapart h =>
          simp only [List.length_cons] at hk
          have hfirst : InOutgoing (outCell k) := inOutgoing_outCell (by omega)
          have hsecond : InOutgoing (outCell (k + 1)) :=
            inOutgoing_outCell (by omega)
          obtain ⟨m', hm', hpacked⟩ := ih
            ((h.set hfirst (m addr)).set hsecond (~~~m addr)) (k + 2)
            (chksum + m addr) (by omega)
          refine ⟨m', ?_, (hpacked.cons (by omega)).cons (by omega)⟩
          rw [outCell_succ] at hm'
          simp only [packMessage, if_true, List.length_cons]
          have hplace : BitVec.ofNat 16 k + 2 = BitVec.ofNat 16 (k + 2) :=
            (BitVec.ofNat_add k 2).symm
          rw [hplace]
          refine hm'.trans ?_
          rw [List.sum_cons, ← add_assoc]
          congr 2
          omega

/-- The header, and the message with its checksum. -/
def packet (message : List Byte) : List Byte :=
  0x55 :: 0xff :: 0x00 :: encode message

theorem withComplements_length (bytes : List Byte) :
    (withComplements bytes).length = 2 * bytes.length := by
  induction bytes with
  | nil => rfl
  | cons byte bytes ih =>
      simp only [withComplements, List.flatMap_cons, List.length_append,
        List.length_cons, List.length_nil] at ih ⊢
      omega

theorem packet_length (message : List Byte) :
    (packet message).length = 2 * message.length + 5 := by
  simp only [packet, encode, withComplements_length, List.length_cons,
    List.length_append, List.length_nil]
  omega

theorem packShort_packed (h : StoredAt m addr message)
    (hheader : m serialHasPacketHeader ≠ 0)
    (hcomplement : m serialUseComplement ≠ 0)
    (hne : message ≠ []) (hlength : message.length ≤ 29) :
    ∃ m', packShort addr (BitVec.ofNat 16 message.length) m =
        m'.set16 serialOutRemaining
          (BitVec.ofNat 16 (packet message).length) ∧
      Packed m m' 0 (packet message) := by
  have hpos : message.length ≠ 0 := fun hzero =>
    hne (List.length_eq_zero_iff.mp hzero)
  have hcount : (BitVec.ofNat 16 message.length).toNat % 256 =
      message.length := by
    rw [BitVec.toNat_ofNat]
    omega
  let m₃ := ((m.set (outCell 0) 0x55).set (outCell 1) 0xff).set (outCell 2) 0x00
  have hstored : StoredAt m₃ addr message :=
    ((h.set (inOutgoing_outCell (by omega)) _).set
      (inOutgoing_outCell (by omega)) _).set (inOutgoing_outCell (by omega)) _
  have huse : m₃ serialUseComplement ≠ 0 := by
    have hsame : m₃ serialUseComplement = m serialUseComplement := by
      simp (disch := decide) only [m₃, Ram.set_of_ne]
    rw [hsame]
    exact hcomplement
  obtain ⟨m₄, hm₄, hpacked⟩ := packMessage_packed hstored 3 0 (by omega)
  let k := 3 + 2 * message.length
  let m₆ := (m₄.set (outCell k) message.sum).set (outCell (k + 1))
    (~~~message.sum)
  have hend : Packed m₄ m₆ k [message.sum, ~~~message.sum] :=
    ((packed_nil m₆ (k + 2)).cons (by omega)).cons (by omega)
  have hk : 3 + (withComplements message).length = k := by
    rw [withComplements_length]
  have hbody := hpacked.append (hk ▸ hend)
  rw [show withComplements message ++ [message.sum, ~~~message.sum] =
    encode message by rw [encode_eq]; simp] at hbody
  refine ⟨m₆, ?_, ((hbody.cons (by omega)).cons (by omega)).cons (by omega)⟩
  have hm₃ : ((m.set serialOutgoingPacket 0x55).set
      (serialOutgoingPacket + 1) 0xff).set (serialOutgoingPacket + 2) 0x00 =
        m₃ := by
    simp only [m₃, outCell]
    rfl
  simp only [packShort, if_pos hheader, hm₃, hcount, if_neg hpos, huse,
    ne_eq, not_false_eq_true, decide_true]
  rw [hm₄]
  simp only [if_true, zero_add]
  have hnext : (BitVec.ofNat 16 (3 + 2 * message.length)) + 1 =
      BitVec.ofNat 16 (k + 1) := (BitVec.ofNat_add k 1).symm
  have hremaining : BitVec.ofNat 16 (k + 1) + 1 =
      BitVec.ofNat 16 (packet message).length := by
    rw [packet_length, show 2 * message.length + 5 = k + 1 + 1 by omega]
    exact (BitVec.ofNat_add (k + 1) 1).symm
  rw [hnext, hremaining]
  rfl

theorem bytes_outgoing_congr {m' : Ram} {n : ℕ} (hn : n ≤ 64)
    (hsame : ∀ a, InOutgoing a → m' a = m a) :
    m'.bytes serialOutgoingPacket n = m.bytes serialOutgoingPacket n := by
  apply bytes_congr
  intro i hi
  exact hsame _ (inOutgoing_outCell (by omega))

theorem get16_remaining (m : Ram) (code length : Word) :
    ((((m.set16 serialOutRemaining length).set16 serialOutPackettype
      code).set serialSendIndex 0).set serialXmitFlag 0x13).get16
        serialOutRemaining = length := by
  simp (disch := decide) only [Ram.set16, Ram.get16, Ram.set_self,
    Ram.set_of_ne]
  exact BitVec.extractLsb'_append_extractLsb'

/-- The packet that waits for the transmitter. -/
theorem outgoing_sendPacket (opcode : Word) (h : StoredAt m addr message)
    (hheader : m serialHasPacketHeader ≠ 0)
    (hcomplement : m serialUseComplement ≠ 0)
    (hidle : m serialXmitFlag = 0x4f)
    (hne : message ≠ []) (hlength : message.length ≤ 29) :
    outgoing (sendPacket 0x1775 opcode addr
      (BitVec.ofNat 16 message.length) m).2 = packet message := by
  obtain ⟨m', hm', hpacked⟩ :=
    packShort_packed h hheader hcomplement hne hlength
  have hlen := packet_length message
  simp only [sendPacket, hidle, hm', ne_eq, not_true_eq_false, if_false,
    true_or, if_true]
  rw [if_neg (by decide)]
  have hbytes : (packet message).length ≤ 64 := by omega
  have hremaining : (BitVec.ofNat 16 (packet message).length).toNat =
      (packet message).length := by
    rw [BitVec.toNat_ofNat]
    omega
  rw [outgoing, get16_remaining, hremaining]
  refine (bytes_outgoing_congr hbytes ?_).trans hpacked.bytes
  intro a ha
  have hother (b : Word) (hb : ¬ InOutgoing b) : a ≠ b := by
    rintro rfl
    exact hb ha
  simp (disch := (apply hother; decide)) only [Ram.set16, Ram.set_of_ne]

end Sending

section Receiving

/-- The receiver takes the bytes one by one: no pause runs out its counter,
nothing is sent meanwhile, and the rest of the program may clear the mark. -/
inductive Fed : Ram → List Byte → Ram → Prop
  | nil (m : Ram) : Fed m [] m
  | cons {m m₁ m' : Ram} {byte : Byte} {bytes : List Byte} (hkept : Kept m m₁)
      (hpacket : m₁.receiver.packet = m.receiver.packet) (huse : InUse m₁)
      (hidle : m₁ serialXmitFlag = 0x4f) (hcounter : resetCounter m₁ ≠ 0)
      (h : Fed (rxiHandler byte m₁) bytes m') : Fed m (byte :: bytes) m'

/-- The start of a message of `total` bytes is received. -/
structure Holds (message : List Byte) (total : ℕ) (r : Receiver) : Prop where
  state : r.state = if message.length = total then 4 else 3
  chksum : r.chksum = message.sum
  index : r.index.toNat = message.length
  remaining : message.length + r.remaining.toNat = total
  packet : ∀ i : Fin 10, i.val < message.length →
    message[i.val]? = some (r.packet i)

variable {m m' : Ram} {byte : Byte} {bytes message : List Byte}
  {r : Receiver} {total : ℕ}

theorem Fed.step (h : Fed m (byte :: bytes) m')
    (hindex : m.receiver.state = 3 ∨ m.receiver.state = 4 →
      Placed m.receiver.index)
    (hstate : m.receiver.state ≠ 5 ∧ m.receiver.state ≠ 6) :
    ∃ valid m₁, Fed m₁ bytes m' ∧
      m₁.receiver = ({ m.receiver with valid := valid } : Receiver).step byte := by
  cases h with
  | @cons _ m₁ _ _ _ hkept hpacket huse hidle hcounter h =>
      have hentered : m₁.entered =
          { m.receiver with valid := m₁.receiver.valid } := by
        rw [Ram.entered, if_neg hcounter]
        apply Receiver.ext
        · exact hkept.state
        · exact hkept.expect
        · exact hkept.last
        · exact hkept.chksum
        · exact hkept.remaining
        · exact hkept.index
        · rfl
        · exact hpacket
      refine ⟨m₁.receiver.valid, _, h, ?_⟩
      rw [← hentered]
      apply receiver_rxiHandler huse hidle
      · rw [hentered]
        exact hindex
      · rw [hentered]
        exact hstate

theorem Holds.placed (h : Holds message total r) (htotal : total ≤ 6) :
    Placed r.index := by
  have hindex := h.index
  have hremaining := h.remaining
  left
  omega

theorem Holds.state_cases (h : Holds message total r) :
    r.state = 3 ∨ r.state = 4 := by
  rw [h.state]
  split_ifs
  · exact Or.inr rfl
  · exact Or.inl rfl

theorem Holds.not_data (h : Holds message total r) :
    r.state ≠ 5 ∧ r.state ≠ 6 := by
  rcases h.state_cases with hstate | hstate <;> simp [hstate]

theorem Holds.complement (h : Holds message total r) (hexpect : r.expect ≠ 0)
    (hlast : r.last = byte) :
    Holds message total (r.step (~~~byte)) ∧
      (r.step (~~~byte)).expect = 0 := by
  have h99 : r.state ≠ 99 := by
    rcases h.state_cases with hstate | hstate <;> simp [hstate]
  have hstep : r.step (~~~byte) = { r with expect := 0 } := by
    rw [Receiver.step, if_pos hexpect]
    simp only [Receiver.complement, hlast, BitVec.not_not, ne_eq,
      not_true_eq_false, if_false, if_neg h99]
  rw [hstep]
  exact ⟨⟨h.state, h.chksum, h.index, h.remaining, h.packet⟩, rfl⟩

theorem store_packet (hindex : r.index.toNat = message.length)
    (hpacket : ∀ i : Fin 10, i.val < message.length →
      message[i.val]? = some (r.packet i)) (i : Fin 10)
    (hi : i.val < message.length + 1) :
    (message ++ [byte])[i.val]? = some ((r.store byte).packet i) := by
  simp only [Receiver.store, hindex]
  by_cases hlast : i.val = message.length
  · rw [if_pos hlast, hlast, List.getElem?_concat_length]
  · rw [if_neg hlast, List.getElem?_append_left (by omega)]
    exact hpacket i (by omega)

theorem Holds.operand (h : Holds message total r) (hexpect : r.expect = 0)
    (htotal : total ≤ 6) (hlt : message.length < total) :
    Holds (message ++ [byte]) total (r.step byte) ∧
      (r.step byte).expect ≠ 0 ∧ (r.step byte).last = byte := by
  have hone : (1 : Byte).toNat = 1 := rfl
  have hten : (10 : Byte).toNat = 10 := rfl
  have hindex := h.index
  have hsum := h.remaining
  have hstate : r.state = 3 := by
    rw [h.state, if_neg (by omega)]
  have hstep : r.step byte = r.operand byte := by
    rw [Receiver.step, if_neg (not_not.mpr hexpect), if_neg (by simp [hstate]),
      if_pos hstate]
  have hnext : (r.index + 1).toNat = r.index.toNat + 1 := by
    rw [BitVec.toNat_add, hone]
    omega
  have hring : r.index + 1 ≠ 10 := by
    intro heq
    rw [heq] at hnext
    omega
  have hdown : (r.remaining - 1).toNat = r.remaining.toNat - 1 := by
    have hbound := r.remaining.isLt
    rw [BitVec.toNat_sub, hone]
    omega
  have hdone : r.remaining - 1 = 0 ↔ message.length + 1 = total := by
    rw [← BitVec.toNat_inj, hdown]
    have hzero : (0 : Byte).toNat = 0 := rfl
    omega
  rw [hstep]
  refine ⟨⟨?_, ?_, ?_, ?_, ?_⟩, by simp [Receiver.operand], rfl⟩
  · simp only [Receiver.operand, hdone, hstate, List.length_append,
      List.length_singleton]
  · rw [sum_append_byte, ← h.chksum]
    rfl
  · simp only [Receiver.operand, Receiver.store, if_neg hring, hnext, hindex,
      List.length_append, List.length_singleton]
  · simp only [Receiver.operand, hdown, List.length_append,
      List.length_singleton]
    omega
  · intro i hi
    rw [List.length_append, List.length_singleton] at hi
    exact store_packet hindex h.packet i hi

theorem Holds.with_valid (h : Holds message total r) (valid : Byte) :
    Holds message total { r with valid := valid } :=
  ⟨h.state, h.chksum, h.index, h.remaining, h.packet⟩

/-- The complement after a byte of the message. -/
theorem Fed.complement (h : Fed m (~~~byte :: bytes) m')
    (hholds : Holds message total m.receiver) (htotal : total ≤ 6)
    (hexpect : m.receiver.expect ≠ 0) (hlast : m.receiver.last = byte) :
    ∃ m₁, Fed m₁ bytes m' ∧ Holds message total m₁.receiver ∧
      m₁.receiver.expect = 0 := by
  obtain ⟨valid, m₁, hfed, hm₁⟩ :=
    h.step (fun _ => hholds.placed htotal) hholds.not_data
  have hstep := @Holds.complement byte message _ total (hholds.with_valid valid)
    hexpect hlast
  rw [← hm₁] at hstep
  exact ⟨m₁, hfed, hstep⟩

theorem fed_operands (params : List Byte) {rest : List Byte}
    (h : Fed m (withComplements params ++ rest) m')
    (hholds : Holds message total m.receiver) (hexpect : m.receiver.expect = 0)
    (htotal : total ≤ 6) (hlength : message.length + params.length ≤ total) :
    ∃ m₁, Fed m₁ rest m' ∧ Holds (message ++ params) total m₁.receiver ∧
      m₁.receiver.expect = 0 := by
  induction params generalizing message m with
  | nil =>
      rw [List.append_nil]
      exact ⟨m, h, hholds, hexpect⟩
  | cons byte params ih =>
      rw [List.length_cons] at hlength
      obtain ⟨valid, m₁, hfed, hm₁⟩ :=
        h.step (fun _ => hholds.placed htotal) hholds.not_data
      have hstep := @Holds.operand byte message _ total
        (hholds.with_valid valid) hexpect htotal (by omega)
      rw [← hm₁] at hstep
      obtain ⟨m₂, hfed, hholds, hexpect⟩ :=
        hfed.complement hstep.1 htotal hstep.2.1 hstep.2.2
      have hlength' : (message ++ [byte]).length + params.length ≤ total := by
        rw [List.length_append, List.length_singleton]
        omega
      obtain ⟨m₃, hfed, hholds, hexpect⟩ := ih hfed hholds hexpect hlength'
      rw [List.append_assoc] at hholds
      exact ⟨m₃, hfed, hholds, hexpect⟩

theorem step_header (hstate : r.state = 2)
    (hbyte : byte = 0 ∨ byte = 0xff ∨ byte = 0x55) :
    (r.step byte).state = 2 ∧ (r.step byte).expect = 0 := by
  unfold Receiver.step
  by_cases hexpect : r.expect ≠ 0
  · rw [if_pos hexpect]
    simp only [Receiver.complement, Receiver.reset, hstate]
    split_ifs with hlast h99
    · exact ⟨rfl, rfl⟩
    · exact absurd h99 (by decide)
    · exact ⟨rfl, rfl⟩
  · rw [if_neg hexpect, if_pos hstate, Receiver.opcode, if_pos hbyte]
    exact ⟨hstate, not_not.mp hexpect⟩

theorem Fed.header (h : Fed m (byte :: bytes) m')
    (hstate : m.receiver.state = 2)
    (hbyte : byte = 0 ∨ byte = 0xff ∨ byte = 0x55) :
    ∃ m₁, Fed m₁ bytes m' ∧ m₁.receiver.state = 2 ∧
      m₁.receiver.expect = 0 := by
  obtain ⟨valid, m₁, hfed, hm₁⟩ :=
    h.step (by simp [hstate]) (by simp [hstate])
  refine ⟨m₁, hfed, ?_⟩
  rw [hm₁]
  exact step_header hstate hbyte

theorem holds_opcode (hstate : r.state = 2) (hexpect : r.expect = 0)
    (hskip : ¬ (byte = 0 ∨ byte = 0xff ∨ byte = 0x55))
    (hdata : ¬ IsDownload byte) :
    Holds [byte] ((parameters byte).toNat + 1) (r.step byte) ∧
      (r.step byte).expect ≠ 0 ∧ (r.step byte).last = byte := by
  have hremaining : (if parameters byte ≠ 0 ∧ byte &&& 0xf7 = 0x45 then 4
      else parameters byte) = parameters byte :=
    if_neg fun hboth => hdata hboth.2
  have hdata' : ¬ byte &&& 0xf7 = 0x45 := hdata
  have hnone : parameters byte = 0 ↔ 1 = (parameters byte).toNat + 1 := by
    rw [← BitVec.toNat_inj]
    have hzero : (0 : Byte).toNat = 0 := rfl
    omega
  rw [Receiver.step, if_neg (not_not.mpr hexpect), if_pos hstate,
    Receiver.opcode, if_neg hskip, hremaining]
  refine ⟨⟨?_, ?_, rfl, ?_, ?_⟩, by simp, rfl⟩
  · simp only [if_neg hdata', hnone, List.length_singleton]
  · simp
  · simp only [List.length_singleton]
    omega
  · intro i hi
    rw [List.length_singleton] at hi
    have hfirst : i.val = 0 := by omega
    simp only [hfirst, if_true]
    rfl

/-- The checksum and its complement end the packet. -/
theorem fed_checksum (h : Fed m [message.sum, ~~~message.sum] m')
    (hholds : Holds message total m.receiver) (hexpect : m.receiver.expect = 0)
    (htotal : total ≤ 6) (hlength : message.length = total) :
    m'.receiver.valid = 1 ∧ ∀ i : Fin 10, i.val < message.length →
      message[i.val]? = some (m'.receiver.packet i) := by
  obtain ⟨valid, m₁, hfed, hm₁⟩ :=
    h.step (fun _ => hholds.placed htotal) hholds.not_data
  have hstate : m.receiver.state = 4 := by
    rw [hholds.state, if_pos hlength]
  have hsum := hholds.chksum
  have hchecked : m₁.receiver =
      { ({ m.receiver with valid := valid } : Receiver).store message.sum with
        expect := 1, last := message.sum, state := 99 } := by
    rw [hm₁, Receiver.step, if_neg (not_not.mpr hexpect),
      if_neg (by simp [hstate]), if_neg (by simp [hstate]), if_pos hstate]
    simp only [Receiver.checksum]
    rw [if_pos (by exact hsum)]
  obtain ⟨valid', m₂, hfed, hm₂⟩ :=
    hfed.step (by simp [hchecked]) (by simp [hchecked])
  cases hfed with
  | nil =>
      have hfinal : m'.receiver.valid = 1 ∧
          m'.receiver.packet = (m.receiver.store message.sum).packet := by
        rw [hm₂, hchecked]
        simp [Receiver.step, Receiver.complement, Receiver.reset,
          Receiver.store]
      refine ⟨hfinal.1, ?_⟩
      intro i hi
      have hstored := @store_packet message.sum message m.receiver
        hholds.index hholds.packet i (by omega)
      rw [hfinal.2, ← hstored, List.getElem?_append_left hi]

theorem bytes_eq (addr : Word)
    (h : ∀ i < message.length, message[i]? =
      some (m (addr + BitVec.ofNat 16 i))) :
    m.bytes addr message.length = message := by
  induction message generalizing addr with
  | nil => rfl
  | cons byte message ih =>
      have hfirst := h 0 (by simp)
      rw [BitVec.add_zero] at hfirst
      rw [List.length_cons, Ram.bytes, ih]
      · rw [← Option.some.inj hfirst]
      · intro i hi
        have hnext := h (i + 1) (by simpa using hi)
        rw [Ram.addr_succ] at hnext
        exact hnext

theorem encode_cons (opcode : Byte) (params : List Byte) :
    encode (opcode :: params) = opcode :: ~~~opcode ::
      (withComplements params ++
        [(opcode :: params).sum, ~~~(opcode :: params).sum]) := by
  rw [encode_eq]
  simp [withComplements]

theorem fed_packet {opcode : Byte} {params : List Byte}
    (h : Fed m (packet (opcode :: params)) m')
    (hstate : m serialReceiveState = 2)
    (hlength : params.length = (parameters opcode).toNat)
    (hskip : ¬ (opcode = 0 ∨ opcode = 0xff ∨ opcode = 0x55))
    (hdata : ¬ IsDownload opcode) :
    m' serialValidIncomingData = 1 ∧
      m'.bytes serialIncomingPacket (params.length + 1) =
        opcode :: params := by
  have hle := parameters_le opcode
  have htotal : (parameters opcode).toNat + 1 ≤ 6 := by omega
  obtain ⟨m₁, hfed, hstate, -⟩ := h.header hstate (by simp)
  obtain ⟨m₂, hfed, hstate, -⟩ := hfed.header hstate (by simp)
  obtain ⟨m₃, hfed, hstate, hexpect⟩ := hfed.header hstate (by simp)
  rw [encode_cons] at hfed
  obtain ⟨valid, m₄, hfed, hm₄⟩ :=
    hfed.step (by simp [hstate]) (by simp [hstate])
  have hopcode := @holds_opcode opcode
    { m₃.receiver with valid := valid } hstate hexpect hskip hdata
  rw [← hm₄] at hopcode
  obtain ⟨m₅, hfed, hholds, hexpect⟩ :=
    hfed.complement hopcode.1 htotal hopcode.2.1 hopcode.2.2
  obtain ⟨m₆, hfed, hholds, hexpect⟩ := fed_operands params hfed hholds hexpect
    htotal (by rw [List.length_singleton]; omega)
  obtain ⟨hvalid, hpacket⟩ := fed_checksum hfed hholds hexpect htotal
    (by simp [hlength])
  refine ⟨hvalid, @bytes_eq m' (opcode :: params) serialIncomingPacket ?_⟩
  intro i hi
  have hten : i < 10 := by
    simp at hi
    omega
  exact hpacket ⟨i, hten⟩ hi

end Receiving

section Agreement

/-- The packets that are sent are received, and nothing else is. -/
theorem send_receive_agree :
    (∀ (opcode : Byte) (params : List Byte),
      params.length = (parameters opcode).toNat →
      opcode ∉ [0x00, 0x55, 0xff] → ¬ IsDownload opcode →
      ∀ (sender : Ram) (addr parameter : Word),
        StoredAt sender addr (opcode :: params) →
        sender serialHasPacketHeader ≠ 0 → sender serialUseComplement ≠ 0 →
        sender serialXmitFlag = 0x4f →
      ∀ receiver receiver' : Ram, receiver serialReceiveState = 2 →
        Fed receiver (outgoing (sendPacket 0x1775 parameter addr
          (BitVec.ofNat 16 (params.length + 1)) sender).2) receiver' →
        receiver' serialValidIncomingData = 1 ∧
          receiver'.bytes serialIncomingPacket (params.length + 1) =
            opcode :: params) ∧
    ∀ (bytes : List Byte) (m : Ram) (byte opcode : Byte), Heard bytes m →
      InUse m → m serialXmitFlag = 0x4f → Accepts byte m →
      (m.entered.consumed byte bytes).head? = some opcode →
      ¬ IsDownload opcode →
      ∃ params, m.entered.consumed byte bytes = encode (opcode :: params) ∧
        params.length = (parameters opcode).toNat := by
  constructor
  · intro opcode params hlength hskip hdata sender addr parameter hstored
      hheader hcomplement hidle receiver receiver' hstate hfed
    have hle := parameters_le opcode
    have hshort : (opcode :: params).length ≤ 29 := by
      rw [List.length_cons]
      omega
    have hpacket := outgoing_sendPacket parameter hstored hheader hcomplement
      hidle (by simp) hshort
    rw [List.length_cons] at hpacket
    rw [hpacket] at hfed
    apply fed_packet hfed hstate hlength _ hdata
    intro hequal
    apply hskip
    rcases hequal with rfl | rfl | rfl <;> simp
  · intro bytes m byte opcode hheard huse hidle haccepts hhead hdata
    rcases hheard.complete huse hidle haccepts with
      ⟨opcode', hhead', hdata'⟩ | ⟨opcode', params, hbytes, hlength⟩
    · rw [hhead] at hhead'
      cases hhead'
      exact absurd hdata' hdata
    · rw [hbytes] at hhead
      cases hhead
      exact ⟨params, hbytes, hlength⟩

/-- A quiet brick with a message at `0xeef6`. -/
def brickWith (r : Receiver) : Ram := fun addr =>
  if h : InPacket addr then
    r.packet ⟨addr.toNat - 0xef9d, by unfold InPacket at h; omega⟩
  else if addr = serialReceiveState then r.state
  else if addr = serialExpectComplement then r.expect
  else if addr = serialLastReceivedByte then r.last
  else if addr = serialReceiveChksum then r.chksum
  else if addr = serialReceiveLengthRemaining then r.remaining
  else if addr = serialReceiveIndex then r.index
  else if addr = serialValidIncomingData then r.valid
  else if addr = serialHasPacketHeader then 1
  else if addr = serialUseComplement then 1
  else if addr = serialXmitFlag then 0x4f
  else if addr = serialTimerStruct then 0xee
  else if addr = serialTimerStruct + 1 then 0x74
  else if addr = serialHandlerRunFlagAddr then 0xee
  else if addr = serialHandlerRunFlagAddr + 1 then 0x64
  else if addr = 0xee75 then 30
  else if addr = 0xeef6 then 0x51
  else if addr = 0xeef7 then 0x05
  else 0

theorem receiver_brickWith (r : Receiver) : (brickWith r).receiver = r := by
  apply Receiver.ext
  · rfl
  · rfl
  · rfl
  · rfl
  · rfl
  · rfl
  · rfl
  · funext i
    have hi := i.isLt
    have hplace : InPacket (packetCell i) := by
      rw [InPacket, packetCell_toNat]
      omega
    have hindex (j : Fin 10) (hj : j.val = (packetCell i).toNat - 0xef9d) :
        r.packet j = r.packet i := by
      rw [packetCell_toNat] at hj
      rw [show j = i from Fin.ext (by omega)]
    simp only [Ram.receiver, brickWith, dif_pos hplace]
    exact hindex _ rfl

theorem get16_brickWith (r : Receiver) {addr : Word} {high low : Byte}
    (hhigh : brickWith r addr = high) (hlow : brickWith r (addr + 1) = low) :
    (brickWith r).get16 addr = high ++ low := by
  rw [Ram.get16, hhigh, hlow]

theorem inUse_brickWith (r : Receiver) : InUse (brickWith r) := by
  have htimer : (brickWith r).get16 serialTimerStruct = 0xee#8 ++ 0x74#8 :=
    get16_brickWith r rfl rfl
  have hflag : (brickWith r).get16 serialHandlerRunFlagAddr =
      0xee#8 ++ 0x64#8 := get16_brickWith r rfl rfl
  refine ⟨?_, ?_, ?_, ?_, ?_⟩
  · exact (by decide : (1 : Byte) ≠ 0)
  · exact (by decide : (1 : Byte) ≠ 0)
  · rw [htimer]
    decide
  · rw [htimer]
    decide
  · rw [hflag]
    decide

theorem resetCounter_brickWith (r : Receiver) :
    resetCounter (brickWith r) ≠ 0 := by
  have htimer : (brickWith r).get16 serialTimerStruct = 0xee#8 ++ 0x74#8 :=
    get16_brickWith r rfl rfl
  have hcounter : (brickWith r).get16 0xee74 = 0#8 ++ 30#8 :=
    get16_brickWith r rfl rfl
  have hplace : 0xee#8 ++ 0x74#8 = (0xee74 : Word) := by decide
  rw [resetCounter, htimer, hplace, hcounter]
  decide

/-- The receiver is outside a download before each of the bytes. -/
def Receiver.Takes : List Byte → Receiver → Prop
  | [], _ => True
  | byte :: bytes, r =>
      (r.index.toNat < 10 ∧ r.state ≠ 5 ∧ r.state ≠ 6) ∧
        Takes bytes (r.step byte)

instance decidableTakes :
    (bytes : List Byte) → (r : Receiver) → Decidable (r.Takes bytes)
  | [], _ => .isTrue trivial
  | byte :: bytes, r =>
      have := decidableTakes bytes (r.step byte)
      inferInstanceAs (Decidable (_ ∧ _))

theorem entered_brickWith (r : Receiver) : (brickWith r).entered = r := by
  rw [Ram.entered, receiver_brickWith, if_neg (resetCounter_brickWith r)]

theorem receiver_rxiHandler_brickWith {r : Receiver} (byte : Byte)
    (hindex : r.index.toNat < 10) (hstate : r.state ≠ 5 ∧ r.state ≠ 6) :
    (rxiHandler byte (brickWith r)).receiver = r.step byte := by
  rw [receiver_rxiHandler (inUse_brickWith r) rfl, entered_brickWith]
  · rw [entered_brickWith]
    exact fun _ => Or.inl hindex
  · rw [entered_brickWith]
    exact hstate

theorem kept_brickWith {m : Ram} {r : Receiver} (hm : m.receiver = r) :
    Kept m (brickWith r) ∧
      (brickWith r).receiver.packet = m.receiver.packet := by
  have hsame : (brickWith r).receiver = m.receiver := by
    rw [receiver_brickWith, hm]
  constructor
  · constructor <;> rw [hsame]
  · rw [hsame]

theorem Receiver.Takes.fed {bytes : List Byte} {r : Receiver} {m : Ram}
    (h : r.Takes bytes) (hm : m.receiver = r) : ∃ m', Fed m bytes m' := by
  induction bytes generalizing r m with
  | nil => exact ⟨m, .nil m⟩
  | cons byte bytes ih =>
      obtain ⟨⟨hindex, hstate⟩, hrest⟩ := h
      obtain ⟨m', hfed⟩ :=
        ih hrest (receiver_rxiHandler_brickWith byte hindex hstate)
      obtain ⟨hkept, hpacket⟩ := kept_brickWith hm
      exact ⟨m', .cons hkept hpacket (inUse_brickWith r) rfl
        (resetCounter_brickWith r) hfed⟩

theorem Heard.brickWith {bytes : List Byte} {r : Receiver}
    (h : Heard bytes (brickWith r)) (byte : Byte)
    (hindex : r.index.toNat < 10) (hstate : r.state ≠ 5 ∧ r.state ≠ 6) :
    Heard (r.consumed byte bytes) (Rom.brickWith (r.step byte)) := by
  have hstep := h.received byte (inUse_brickWith r) rfl
  rw [entered_brickWith] at hstep
  exact hstep.kept
    (kept_brickWith (receiver_rxiHandler_brickWith byte hindex hstate)).1

theorem accepts_brickWith {r : Receiver} {byte : Byte} (hvalid : r.valid = 0)
    (hindex : r.index.toNat < 10) (hstate : r.state ≠ 5 ∧ r.state ≠ 6)
    (hset : (r.step byte).valid ≠ 0) : Accepts byte (brickWith r) := by
  have hsame : (brickWith r).set serialValidIncomingData 0 = brickWith r := by
    have hold : brickWith r serialValidIncomingData = 0 := hvalid
    rw [Ram.set, ← hold]
    exact Function.update_eq_self ..
  have hstep := receiver_rxiHandler_brickWith byte hindex hstate
  rw [← hstep] at hset
  rw [Accepts, hsame]
  exact hset

def quietReceiver : Receiver where
  state := 2
  expect := 0
  last := 0xff
  chksum := 0
  remaining := 0
  index := 0
  valid := 0
  packet _ := 0

/-- The message 51 05 comes over, and 10 is accepted from its four bytes. -/
theorem send_receive_agree_51 :
    (∃ m', Fed (brickWith quietReceiver) (outgoing (sendPacket 0x1775 0x51
        0xeef6 2 (brickWith quietReceiver)).2) m' ∧
      m' serialValidIncomingData = 1 ∧
        m'.bytes serialIncomingPacket 2 = [0x51, 0x05]) ∧
    ∃ params, [0x10, 0xef, 0x10, 0xef] = encode (0x10 :: params) := by
  have hstored : StoredAt (brickWith quietReceiver) 0xeef6 [0x51, 0x05] :=
    .cons (by decide) (.cons (by decide) (.nil _))
  have hpacket := outgoing_sendPacket 0x51 hstored (by decide) (by decide)
    (by decide) (by simp) (by simp)
  have htakes : quietReceiver.Takes (packet [0x51, 0x05]) := by
    decide +kernel
  constructor
  · obtain ⟨m', hfed⟩ := htakes.fed (receiver_brickWith quietReceiver)
    have hfed' : Fed (brickWith quietReceiver) (outgoing (sendPacket 0x1775
        0x51 0xeef6 2 (brickWith quietReceiver)).2) m' := by
      rw [← hpacket] at hfed
      exact hfed
    exact ⟨m', hfed', send_receive_agree.1 0x51 [0x05] (by decide) (by decide)
      (by unfold IsDownload; decide) (brickWith quietReceiver) 0xeef6 0x51
      hstored (by decide) (by decide) (by decide) (brickWith quietReceiver) m'
      (by decide) hfed'⟩
  · have hstart : Heard [] (brickWith quietReceiver) := .start rfl
    have hheard := ((hstart.brickWith 0x10 (by decide) (by decide)).brickWith
      0xef (by decide) (by decide)).brickWith 0x10 (by decide) (by decide)
    obtain ⟨params, hbytes, -⟩ := send_receive_agree.2 _ _ 0xef 0x10 hheard
      (inUse_brickWith _) rfl
      (accepts_brickWith rfl (by decide) (by decide) (by decide))
      (by rw [entered_brickWith]; decide) (by unfold IsDownload; decide)
    rw [entered_brickWith] at hbytes
    exact ⟨params, hbytes⟩

end Agreement

end Rom

end BrickEmu
