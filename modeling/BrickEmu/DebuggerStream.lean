import BrickEmu.DebuggerBuffer

/-!
# Packets across reads

A debugger sends acknowledgements, Ctrl-C bytes and packets, and the socket
delivers them in pieces.  The parser passes everything on exactly when each
read leaves it with input that it parses cleanly: it stops at a packet of
which at least three bytes have arrived, and behind a packet it steps over as
many bytes as the packet has.
-/

namespace BrickEmu

/-- A packet `$data#cs` with a correct checksum. -/
structure Packet where
  data : List Byte
  high : Byte
  low : Byte
  noDollar : DOLLAR ∉ data
  noHash : HASH ∉ data
  checksum : data.sum.setWidth 32 = (hex high <<< 4) ||| hex low

namespace Packet

def bytes (packet : Packet) : List Byte :=
  DOLLAR :: (packet.data ++ [HASH, packet.high, packet.low])

/-- The data behind the sequence id, if the packet has one. -/
def payload (packet : Packet) : List Byte :=
  if packet.data.getD 2 0 = COLON then packet.data.drop 3 else packet.data

theorem length_bytes (packet : Packet) :
    packet.bytes.length = packet.data.length + 4 := by
  simp [bytes]

theorem bytes_append (packet : Packet) (rest : List Byte) :
    packet.bytes ++ rest = DOLLAR ::
      (packet.data ++ HASH :: packet.high :: packet.low :: rest) := by
  simp [bytes]

theorem packetEvents_eq (packet : Packet) :
    DbState.packetEvents packet.data packet.high packet.low =
      [.packet packet.payload] := by
  rw [DbState.packetEvents, if_pos packet.checksum]
  rfl

theorem count_dollar (packet : Packet) : packet.bytes.count DOLLAR = 1 := by
  have hdigits : packet.high ≠ DOLLAR ∧ packet.low ≠ DOLLAR :=
    DbState.digit_ne (by decide) packet.checksum
  have hhash : HASH ≠ DOLLAR := by decide
  simp only [bytes, List.count_cons_self, List.count_append,
    List.count_eq_zero.mpr packet.noDollar]
  simp [hdigits, hhash]

end Packet

/-- One item of the debugger's stream.  An acknowledgement stands for every
byte that the parser skips without an effect. -/
inductive Token where
  | ack (b : Byte) (hdollar : b ≠ DOLLAR) (hctrl : b ≠ CTRLC)
  | interrupt
  | packet (p : Packet)

namespace Token

def bytes : Token → List Byte
  | .ack b _ _ => [b]
  | .interrupt => [CTRLC]
  | .packet p => p.bytes

def event : Token → Option DbEvent
  | .ack _ _ _ => none
  | .interrupt => some .interrupt
  | .packet p => some (.packet p.payload)

end Token

def streamBytes (tokens : List Token) : List Byte :=
  tokens.flatMap Token.bytes

def streamEvents (tokens : List Token) : List DbEvent :=
  tokens.filterMap Token.event

/-- The pending input is parsed without a loss, and what is left of it. -/
inductive ParsesCleanly : List Byte → List Byte → Prop
  | idle {garbage : List Byte} (hgarbage : DOLLAR ∉ garbage) :
      ParsesCleanly garbage []
  | unfinished {garbage data tail : List Byte} (hgarbage : DOLLAR ∉ garbage)
      (hdata : HASH ∉ data) (htail : tail.length = 2) :
      ParsesCleanly (garbage ++ DOLLAR :: (data ++ tail))
        (DOLLAR :: (data ++ tail))
  | last {garbage : List Byte} (packet : Packet)
      (hgarbage : DOLLAR ∉ garbage) :
      ParsesCleanly (garbage ++ packet.bytes) []
  | left {garbage rest : List Byte} {ack : Byte} (packet : Packet)
      (hgarbage : DOLLAR ∉ garbage) (hdollar : ack ≠ DOLLAR)
      (hctrl : ack ≠ CTRLC)
      (hrest : rest.length < packet.bytes.length) :
      ParsesCleanly (garbage ++ (packet.bytes ++ ack :: rest)) (0 :: rest)
  | more {garbage acks rest left : List Byte} (packet : Packet)
      (hgarbage : DOLLAR ∉ garbage) (hdollar : DOLLAR ∉ acks)
      (hctrl : CTRLC ∉ acks) (hacks : acks.length = packet.bytes.length)
      (hrest : rest ≠ []) (hmore : ParsesCleanly rest left) :
      ParsesCleanly (garbage ++ (packet.bytes ++ (acks ++ rest))) left

/-- Every read finds input that is parsed cleanly, and at the end nothing but
skipped bytes is pending. -/
inductive ReadsCleanly : List Byte → List (List Byte) → Prop
  | done {pending : List Byte} (hdollar : DOLLAR ∉ pending)
      (hctrl : CTRLC ∉ pending) : ReadsCleanly pending []
  | read {pending input left : List Byte} {reads : List (List Byte)}
      (hparse : ParsesCleanly (pending ++ input) left)
      (hreads : ReadsCleanly left reads) :
      ReadsCleanly pending (input :: reads)

@[simp] theorem streamBytes_nil : streamBytes [] = [] :=
  rfl

@[simp] theorem streamBytes_cons (token : Token) (tokens : List Token) :
    streamBytes (token :: tokens) = token.bytes ++ streamBytes tokens :=
  rfl

@[simp] theorem streamBytes_append (first second : List Token) :
    streamBytes (first ++ second) =
      streamBytes first ++ streamBytes second :=
  List.flatMap_append

@[simp] theorem streamEvents_append (first second : List Token) :
    streamEvents (first ++ second) =
      streamEvents first ++ streamEvents second :=
  List.filterMap_append

theorem streamEvents_cons (token : Token) (tokens : List Token) :
    streamEvents (token :: tokens) =
      token.event.toList ++ streamEvents tokens := by
  cases token <;> simp [streamEvents, Token.event, List.filterMap_cons]

theorem interruptsIn_cons (b : Byte) (garbage : List Byte) :
    interruptsIn (b :: garbage) =
      (if b = CTRLC then [.interrupt] else []) ++ interruptsIn garbage := by
  by_cases hb : b = CTRLC <;> simp [interruptsIn, hb]

/-- Bytes in front of a `$` are whole tokens. -/
theorem stream_garbage {garbage : List Byte} (hgarbage : DOLLAR ∉ garbage) :
    ∀ {rest : List Byte} {tokens : List Token},
      garbage ++ rest = streamBytes tokens →
      ∃ skipped tokens', tokens = skipped ++ tokens' ∧
        streamBytes skipped = garbage ∧ rest = streamBytes tokens' ∧
        streamEvents skipped = interruptsIn garbage := by
  induction garbage with
  | nil =>
      intro rest tokens h
      exact ⟨[], tokens, rfl, rfl, h, rfl⟩
  | cons b garbage ih =>
      intro rest tokens h
      rw [List.mem_cons, not_or] at hgarbage
      match tokens with
      | [] => simp at h
      | .packet packet :: tokens =>
          simp only [streamBytes_cons, Token.bytes, Packet.bytes,
            List.cons_append, List.cons.injEq] at h
          exact absurd h.1.symm hgarbage.1
      | .ack a hdollar hctrl :: tokens =>
          simp only [streamBytes_cons, Token.bytes, List.cons_append,
            List.nil_append, List.cons.injEq] at h
          obtain ⟨rfl, h⟩ := h
          obtain ⟨skipped, tokens', rfl, hbytes, hrest, hevents⟩ :=
            ih hgarbage.2 h
          refine ⟨.ack b hdollar hctrl :: skipped, tokens', rfl, ?_, hrest, ?_⟩
          · simp [Token.bytes, hbytes]
          · rw [streamEvents_cons, interruptsIn_cons, if_neg hctrl, hevents]
            rfl
      | .interrupt :: tokens =>
          simp only [streamBytes_cons, Token.bytes, List.cons_append,
            List.nil_append, List.cons.injEq] at h
          obtain ⟨rfl, h⟩ := h
          obtain ⟨skipped, tokens', rfl, hbytes, hrest, hevents⟩ :=
            ih hgarbage.2 h
          refine ⟨.interrupt :: skipped, tokens', rfl, ?_, hrest, ?_⟩
          · simp [Token.bytes, hbytes]
          · rw [streamEvents_cons, interruptsIn_cons, if_pos rfl, hevents]
            rfl

theorem hash_unique {data data' rest rest' : List Byte} (hdata : HASH ∉ data)
    (hdata' : HASH ∉ data')
    (h : data ++ HASH :: rest = data' ++ HASH :: rest') :
    data = data' ∧ rest = rest' := by
  induction data generalizing data' with
  | nil =>
      cases data' with
      | nil => exact ⟨rfl, (List.cons.inj h).2⟩
      | cons b data' =>
          have := (List.cons.inj h).1
          exact absurd (this ▸ List.mem_cons_self) hdata'
  | cons b data ih =>
      rw [List.mem_cons, not_or] at hdata
      cases data' with
      | nil => exact absurd (List.cons.inj h).1.symm hdata.1
      | cons b' data' =>
          rw [List.mem_cons, not_or] at hdata'
          obtain ⟨rfl, htail⟩ := List.cons.inj h
          obtain ⟨rfl, hrest⟩ := ih hdata.2 hdata'.2 htail
          exact ⟨rfl, hrest⟩

/-- A complete packet in front of the stream is its first token. -/
theorem stream_packet {data rest : List Byte} {high low : Byte}
    {tokens : List Token} (hdata : HASH ∉ data)
    (h : DOLLAR :: (data ++ HASH :: high :: low :: rest) =
      streamBytes tokens) :
    ∃ packet tokens', tokens = .packet packet :: tokens' ∧
      packet.data = data ∧ packet.high = high ∧ packet.low = low ∧
      rest = streamBytes tokens' := by
  match tokens with
  | [] => simp at h
  | .ack a hdollar hctrl :: tokens =>
      simp only [streamBytes_cons, Token.bytes, List.singleton_append,
        List.cons.injEq] at h
      exact absurd h.1.symm hdollar
  | .interrupt :: tokens =>
      simp only [streamBytes_cons, Token.bytes, List.singleton_append,
        List.cons.injEq] at h
      exact absurd h.1 (by decide)
  | .packet packet :: tokens =>
      rw [streamBytes_cons, Token.bytes, Packet.bytes_append] at h
      obtain ⟨rfl, htail⟩ :=
        hash_unique hdata packet.noHash (List.cons.inj h).2
      simp only [List.cons.injEq] at htail
      exact ⟨packet, tokens, rfl, rfl, htail.1.symm, htail.2.1.symm,
        htail.2.2⟩

/-- What a pass finds behind the bytes it skips is a token of the stream. -/
theorem stream_found {garbage data rest : List Byte} {high low : Byte}
    {tokens : List Token} (hgarbage : DOLLAR ∉ garbage) (hdata : HASH ∉ data)
    (h : garbage ++ DOLLAR :: (data ++ HASH :: high :: low :: rest) =
      streamBytes tokens) :
    ∃ (packet : Packet) (tokens' : List Token), packet.data = data ∧
      packet.high = high ∧ packet.low = low ∧ rest = streamBytes tokens' ∧
      streamEvents tokens = interruptsIn garbage ++
        DbState.packetEvents data high low ++ streamEvents tokens' := by
  obtain ⟨skipped, tokens', rfl, -, hfound, hevents⟩ :=
    stream_garbage hgarbage h
  obtain ⟨packet, tokens'', rfl, rfl, rfl, rfl, hrest⟩ :=
    stream_packet hdata hfound
  refine ⟨packet, tokens'', rfl, rfl, rfl, hrest, ?_⟩
  rw [streamEvents_append, streamEvents_cons, hevents,
    packet.packetEvents_eq, List.append_assoc]
  rfl

theorem interruptsIn_eq_nil {garbage : List Byte} (hctrl : CTRLC ∉ garbage) :
    interruptsIn garbage = [] := by
  have : garbage.filter (· = CTRLC) = [] := by
    rw [List.filter_eq_nil_iff]
    intro b hb heq
    exact hctrl (of_decide_eq_true heq ▸ hb)
  simp [interruptsIn, this]

/-- The byte that overwrites an acknowledgement is skipped like it. -/
def Token.erased : Token :=
  .ack 0 (by decide) (by decide)

theorem streamBytes_erased (tokens : List Token) :
    streamBytes (Token.erased :: tokens) = 0 :: streamBytes tokens :=
  rfl

theorem streamEvents_erased (tokens : List Token) :
    streamEvents (Token.erased :: tokens) = streamEvents tokens := by
  rw [streamEvents_cons]
  rfl

/-- Input that is parsed cleanly loses no event. -/
theorem ParsesCleanly.exact {content left : List Byte}
    (h : ParsesCleanly content left) :
    ∀ {future : List Byte} {tokens : List Token},
      content ++ future = streamBytes tokens →
      ∃ events tokens', DbParses content events left ∧
        left ++ future = streamBytes tokens' ∧
        events ++ streamEvents tokens' = streamEvents tokens := by
  induction h with
  | idle hgarbage =>
      intro future tokens hstream
      obtain ⟨skipped, tokens', rfl, -, hrest, hevents⟩ :=
        stream_garbage hgarbage hstream
      refine ⟨_, tokens', DbParses.idle hgarbage, hrest, ?_⟩
      rw [streamEvents_append, hevents]
  | unfinished hgarbage hdata htail =>
      intro future tokens hstream
      rw [List.append_assoc] at hstream
      obtain ⟨skipped, tokens', rfl, -, hrest, hevents⟩ :=
        stream_garbage hgarbage hstream
      refine ⟨_, tokens', DbParses.unfinished hgarbage hdata htail, hrest, ?_⟩
      rw [streamEvents_append, hevents]
  | last packet hgarbage =>
      intro future tokens hstream
      rw [List.append_assoc, Packet.bytes_append] at hstream
      obtain ⟨-, tokens', -, -, -, hrest, hevents⟩ :=
        stream_found hgarbage packet.noHash hstream
      exact ⟨_, tokens', @DbParses.last _ _ [] _ _ hgarbage packet.noHash
        (Nat.zero_le _), hrest, hevents.symm⟩
  | @left garbage rest ack packet hgarbage hdollar hctrl hrest =>
      intro future tokens hstream
      rw [List.append_assoc, List.append_assoc, List.cons_append,
        Packet.bytes_append] at hstream
      obtain ⟨-, tokens', -, -, -, hfuture, hevents⟩ :=
        stream_found hgarbage packet.noHash hstream
      have hack : DOLLAR ∉ [ack] := by simpa using Ne.symm hdollar
      obtain ⟨skipped, tokens'', rfl, -, hbytes, hnone⟩ :=
        @stream_garbage [ack] hack (rest ++ future) tokens' hfuture
      have hquiet : interruptsIn [ack] = [] :=
        interruptsIn_eq_nil (by simpa using Ne.symm hctrl)
      rw [Packet.length_bytes] at hrest
      refine ⟨interruptsIn garbage ++ DbState.packetEvents packet.data
        packet.high packet.low, Token.erased :: tokens'', ?_, ?_, ?_⟩
      · rw [Packet.bytes_append]
        exact DbParses.last hgarbage packet.noHash (by simp; omega)
      · rw [streamBytes_erased, ← hbytes]
        rfl
      · rw [streamEvents_erased, hevents, streamEvents_append, hnone, hquiet]
        rfl
  | @more garbage acks rest left packet hgarbage hdollar hctrl hacks hrest
      hmore ih =>
      intro future tokens hstream
      rw [List.append_assoc, List.append_assoc, List.append_assoc,
        Packet.bytes_append] at hstream
      obtain ⟨-, tokens', -, -, -, hfuture, hevents⟩ :=
        stream_found hgarbage packet.noHash hstream
      obtain ⟨skipped, tokens'', rfl, -, hbytes, hnone⟩ :=
        stream_garbage hdollar hfuture
      obtain ⟨events, tokens₃, hparses, hleft, hrest'⟩ := ih hbytes
      rw [Packet.length_bytes] at hacks
      refine ⟨interruptsIn garbage ++ DbState.packetEvents packet.data
        packet.high packet.low ++ events, tokens₃, ?_, hleft, ?_⟩
      · rw [Packet.bytes_append]
        exact DbParses.more hgarbage packet.noHash hacks hrest hparses
      · rw [hevents, streamEvents_append, hnone, interruptsIn_eq_nil hctrl,
          List.append_assoc, hrest']
        rfl

/-- The number of packets among the events. -/
def packetCount (events : List DbEvent) : ℕ :=
  events.countP fun event => event ≠ .interrupt

def interruptCount (events : List DbEvent) : ℕ :=
  events.countP fun event => event = .interrupt

@[simp] theorem packetCount_append (first second : List DbEvent) :
    packetCount (first ++ second) =
      packetCount first + packetCount second :=
  List.countP_append

@[simp] theorem interruptCount_append (first second : List DbEvent) :
    interruptCount (first ++ second) =
      interruptCount first + interruptCount second :=
  List.countP_append

theorem packetCount_interruptsIn (garbage : List Byte) :
    packetCount (interruptsIn garbage) = 0 := by
  simp [packetCount, interruptsIn, List.countP_eq_zero]

theorem packetCount_packetEvents_le (data : List Byte) (high low : Byte) :
    packetCount (DbState.packetEvents data high low) ≤ 1 := by
  unfold DbState.packetEvents
  split_ifs <;> simp [packetCount]

theorem interruptCount_interruptsIn_pos {garbage : List Byte}
    (hctrl : CTRLC ∈ garbage) :
    0 < interruptCount (interruptsIn garbage) := by
  rw [interruptCount, List.countP_pos_iff]
  refine ⟨.interrupt, ?_, by simp⟩
  rw [interruptsIn, List.mem_map]
  exact ⟨CTRLC, by simpa using hctrl, rfl⟩

/-- Every packet of the stream starts with the only `$` in it. -/
theorem count_dollar_streamBytes (tokens : List Token) :
    (streamBytes tokens).count DOLLAR =
      packetCount (streamEvents tokens) := by
  induction tokens with
  | nil => rfl
  | cons token tokens ih =>
      rw [streamBytes_cons, List.count_append, ih, streamEvents_cons,
        packetCount_append, Nat.add_right_cancel_iff]
      cases token with
      | ack b hdollar hctrl =>
          simp [Token.bytes, Token.event, packetCount, hdollar]
      | interrupt => decide
      | packet p => simp [Token.bytes, Token.event, packetCount, p.count_dollar]

theorem count_clobber_le (rest : List Byte) :
    (clobber rest).count DOLLAR ≤ rest.count DOLLAR := by
  cases rest with
  | nil => simp [clobber]
  | cons b rest =>
      have hzero : (0 : Byte) ≠ DOLLAR := by decide
      rw [clobber, List.count_cons_of_ne hzero]
      exact List.count_le_count_cons

/-- No packet is made up: for each packet that is passed on, a `$` has left
the buffer. -/
theorem DbParses.dollars {content left : List Byte} {events : List DbEvent}
    (h : DbParses content events left) :
    packetCount events + left.count DOLLAR ≤ content.count DOLLAR := by
  induction h with
  | idle hgarbage => simp [packetCount_interruptsIn]
  | unfinished hgarbage hdata htail =>
      rw [packetCount_interruptsIn, List.count_append]
      omega
  | @last garbage data rest high low hgarbage hdata hrest =>
      have hone := packetCount_packetEvents_le data high low
      have hclobber := count_clobber_le rest
      simp only [packetCount_append, packetCount_interruptsIn,
        List.count_append, List.count_cons_self, List.count_cons]
      omega
  | @more garbage data skipped rest left high low events hgarbage hdata
      hskipped hrest hmore ih =>
      have hone := packetCount_packetEvents_le data high low
      simp only [packetCount_append, packetCount_interruptsIn,
        List.count_append, List.count_cons_self, List.count_cons]
      omega

/-- On a stream of tokens the parser loses a packet, or loses a Ctrl-C, or
parses cleanly. -/
theorem DbParses.aligned {content left : List Byte} {events : List DbEvent}
    (h : DbParses content events left) :
    ∀ {future : List Byte} {tokens : List Token},
      content ++ future = streamBytes tokens →
      packetCount events + left.count DOLLAR < content.count DOLLAR ∨
        ∃ tokens', left ++ future = streamBytes tokens' ∧
          (interruptCount events + interruptCount (streamEvents tokens') <
              interruptCount (streamEvents tokens) ∨
            (ParsesCleanly content left ∧
              events ++ streamEvents tokens' = streamEvents tokens)) := by
  induction h with
  | idle hgarbage =>
      intro future tokens hstream
      obtain ⟨skipped, tokens', rfl, -, hrest, hevents⟩ :=
        stream_garbage hgarbage hstream
      refine Or.inr ⟨tokens', hrest, Or.inr ⟨.idle hgarbage, ?_⟩⟩
      rw [streamEvents_append, hevents]
  | unfinished hgarbage hdata htail =>
      intro future tokens hstream
      rw [List.append_assoc] at hstream
      obtain ⟨skipped, tokens', rfl, -, hrest, hevents⟩ :=
        stream_garbage hgarbage hstream
      refine Or.inr ⟨tokens', hrest,
        Or.inr ⟨.unfinished hgarbage hdata htail, ?_⟩⟩
      rw [streamEvents_append, hevents]
  | @last garbage data rest high low hgarbage hdata hrest =>
      intro future tokens hstream
      simp only [List.append_assoc, List.cons_append] at hstream
      obtain ⟨packet, tokens', rfl, rfl, rfl, hfuture, hevents⟩ :=
        stream_found hgarbage hdata hstream
      cases rest with
      | nil =>
          refine Or.inr ⟨tokens', hfuture, Or.inr ⟨?_, hevents.symm⟩⟩
          exact .last packet hgarbage
      | cons b rest =>
          by_cases hdollar : b = DOLLAR
          · left
            have hone := packetCount_packetEvents_le packet.data packet.high
              packet.low
            have hzero : (0 : Byte) ≠ DOLLAR := by decide
            subst hdollar
            rw [packetCount_append, packetCount_interruptsIn, clobber,
              List.count_cons_of_ne hzero]
            simp only [List.count_append, List.count_cons_self,
              List.count_cons]
            omega
          · have hb : DOLLAR ∉ [b] := by simpa using Ne.symm hdollar
            obtain ⟨skipped, tokens'', rfl, -, hbytes, hskipped⟩ :=
              @stream_garbage [b] hb (rest ++ future) tokens' hfuture
            refine Or.inr ⟨Token.erased :: tokens'', ?_, ?_⟩
            · rw [streamBytes_erased, ← hbytes]
              rfl
            rw [streamEvents_erased, hevents, streamEvents_append, hskipped]
            by_cases hctrl : b = CTRLC
            · left
              have hpos : 0 < interruptCount (interruptsIn [b]) :=
                interruptCount_interruptsIn_pos (by simp [hctrl])
              simp only [interruptCount_append]
              omega
            · right
              rw [@interruptsIn_eq_nil [b] (by simpa using Ne.symm hctrl)]
              refine ⟨?_, rfl⟩
              rw [← Packet.bytes_append]
              refine .left packet hgarbage hdollar hctrl ?_
              rw [Packet.length_bytes]
              simp only [List.length_cons] at hrest
              omega
  | @more garbage data skipped rest left high low events hgarbage hdata
      hskipped hrest hmore ih =>
      intro future tokens hstream
      simp only [List.append_assoc, List.cons_append] at hstream
      obtain ⟨packet, tokens', rfl, rfl, rfl, hfuture, hevents⟩ :=
        stream_found hgarbage hdata hstream
      have hone := packetCount_packetEvents_le packet.data packet.high
        packet.low
      by_cases hdollar : DOLLAR ∈ skipped
      · left
        have hlost := List.count_pos_iff.mpr hdollar
        have hdollars := hmore.dollars
        simp only [packetCount_append, packetCount_interruptsIn,
          List.count_append, List.count_cons_self, List.count_cons]
        omega
      obtain ⟨singles, tokens'', rfl, -, hbytes, hsingles⟩ :=
        stream_garbage hdollar hfuture
      rcases ih hbytes with hlost | ⟨tokens₃, hleft, hlost | ⟨hclean, hexact⟩⟩
      · left
        simp only [packetCount_append, packetCount_interruptsIn,
          List.count_append, List.count_cons_self, List.count_cons]
        omega
      · refine Or.inr ⟨tokens₃, hleft, Or.inl ?_⟩
        rw [hevents, streamEvents_append]
        simp only [interruptCount_append]
        omega
      · refine Or.inr ⟨tokens₃, hleft, ?_⟩
        rw [hevents, streamEvents_append, hsingles, ← hexact]
        by_cases hctrl : CTRLC ∈ skipped
        · left
          have hpos := interruptCount_interruptsIn_pos hctrl
          simp only [interruptCount_append]
          omega
        · right
          rw [interruptsIn_eq_nil hctrl]
          refine ⟨?_, by simp⟩
          rw [← Packet.bytes_append]
          refine .more packet hgarbage hdollar hctrl ?_ hrest hclean
          rw [Packet.length_bytes]
          exact hskipped

open DbState

theorem receive_holds {s : DbState} {pending : List Byte}
    (h : s.Holds pending) (input : List Byte) :
    ((s.receive input).store (s.receive input).len 0).Holds
      (pending ++ input) := by
  have hlen := h.len_eq
  constructor
  · simp [receive, hlen]
  · intro j hj
    rw [List.length_append] at hj
    simp only [store_inBuffer, receive]
    rw [Function.update_of_ne (by omega)]
    by_cases hlow : j < pending.length
    · rw [if_neg (by omega), h.byte_eq j hlow]
      simp [List.getElem?_append_left hlow]
    · rw [if_pos (by omega), hlen]
      simp [List.getElem?_append_right (Nat.le_of_not_lt hlow)]

theorem dbHandlefd_eq {s : DbState} {pending input : List Byte}
    (h : s.Holds pending) (hinput : input ≠ []) :
    dbHandlefd input s = dbParseLoop (pending ++ input).length 0
      ((s.receive input).store (s.receive input).len 0) := by
  unfold dbHandlefd dbParsePacket
  rw [if_neg hinput]
  simp only [store_len]
  rw [← (receive_holds h input).len_eq]
  rfl

theorem DbParses.handlefd {s : DbState} {pending input left : List Byte}
    {events : List DbEvent} (hs : s.Holds pending) (hinput : input ≠ [])
    (hparses : DbParses (pending ++ input) events left) :
    ∃ s', dbHandlefd input s = .ok s' ∧ s'.Holds left ∧
      s'.events = s.events ++ events := by
  have hne : pending ++ input ≠ [] := by simp [hinput]
  rw [dbHandlefd_eq hs hinput]
  exact @DbParses.loop _ _ _ hparses hne _ [] _ (receive_holds hs input)
    le_rfl

theorem dbHandlefd_ok {s s' : DbState} {pending input : List Byte}
    (hs : s.Holds pending) (hinput : input ≠ [])
    (hok : dbHandlefd input s = .ok s') :
    ∃ events left, DbParses (pending ++ input) events left ∧
      s'.Holds left ∧ s'.events = s.events ++ events := by
  have hne : pending ++ input ≠ [] := by simp [hinput]
  rcases @dbParseLoop_cases _ _ hne _ [] (receive_holds hs input) le_rfl with
    ⟨events, left, hparses⟩ | herror
  · obtain ⟨s₂, hloop, hleft, hevents'⟩ := hparses.handlefd hs hinput
    rw [hok] at hloop
    cases hloop
    exact ⟨events, left, hparses, hleft, hevents'⟩
  · rw [dbHandlefd_eq hs hinput] at hok
    cases hok.symm.trans herror

theorem dbHandleReads_cons_ok {input : List Byte} {reads : List (List Byte)}
    {s s' : DbState} (hok : dbHandleReads (input :: reads) s = .ok s') :
    ∃ s₁, dbHandlefd input s = .ok s₁ ∧ dbHandleReads reads s₁ = .ok s' := by
  unfold dbHandleReads at hok
  split at hok
  · cases hok
  · next s₁ heq => exact ⟨s₁, heq, hok⟩

/-- Over any reads, at most one packet is passed on for each `$`. -/
theorem reads_dollars (reads : List (List Byte))
    (hreads : ∀ input ∈ reads, input ≠ []) :
    ∀ {s s' : DbState} {pending : List Byte}, s.Holds pending →
      dbHandleReads reads s = .ok s' →
      packetCount s'.events ≤ packetCount s.events +
        (pending ++ reads.flatten).count DOLLAR := by
  induction reads with
  | nil =>
      intro s s' pending hs hok
      cases hok
      omega
  | cons input reads ih =>
      intro s s' pending hs hok
      rw [List.forall_mem_cons] at hreads
      obtain ⟨s₁, hfd, hrest⟩ := dbHandleReads_cons_ok hok
      obtain ⟨events, left, hparses, hleft, hevents⟩ :=
        dbHandlefd_ok hs hreads.1 hfd
      have hrun := ih hreads.2 hleft hrest
      have hdollars := hparses.dollars
      rw [hevents, packetCount_append] at hrun
      simp only [List.count_append, List.flatten_cons] at hrun hdollars ⊢
      omega

/-- On a stream of tokens, a packet is lost or no Ctrl-C is made up. -/
theorem reads_interrupts (reads : List (List Byte))
    (hreads : ∀ input ∈ reads, input ≠ []) :
    ∀ {s s' : DbState} {pending : List Byte} {tokens : List Token},
      s.Holds pending → pending ++ reads.flatten = streamBytes tokens →
      dbHandleReads reads s = .ok s' →
      packetCount s'.events <
          packetCount s.events + packetCount (streamEvents tokens) ∨
        interruptCount s'.events ≤
          interruptCount s.events + interruptCount (streamEvents tokens) := by
  induction reads with
  | nil =>
      intro s s' pending tokens hs hstream hok
      cases hok
      right
      omega
  | cons input reads ih =>
      intro s s' pending tokens hs hstream hok
      rw [List.forall_mem_cons] at hreads
      obtain ⟨s₁, hfd, hrest⟩ := dbHandleReads_cons_ok hok
      obtain ⟨events, left, hparses, hleft, hevents⟩ :=
        dbHandlefd_ok hs hreads.1 hfd
      have hdollars := hparses.dollars
      have htotal := count_dollar_streamBytes tokens
      rw [← hstream] at htotal
      rw [List.flatten_cons, ← List.append_assoc] at hstream
      simp only [List.count_append, List.flatten_cons] at htotal hdollars
      have haligned := hparses.aligned hstream
      rcases haligned with hlost | ⟨tokens', hstream', hcounts⟩
      · left
        have hrun := reads_dollars reads hreads.2 hleft hrest
        rw [hevents, packetCount_append] at hrun
        simp only [List.count_append] at hrun hlost
        omega
      · have htotal' := count_dollar_streamBytes tokens'
        rw [← hstream', List.count_append] at htotal'
        have hrun := ih hreads.2 hleft hstream' hrest
        rw [hevents, packetCount_append, interruptCount_append] at hrun
        have hle : interruptCount events +
            interruptCount (streamEvents tokens') ≤
              interruptCount (streamEvents tokens) := by
          rcases hcounts with hlost | ⟨-, hexact⟩
          · omega
          · rw [← hexact, interruptCount_append]
        rcases hrun with hrun | hrun
        · left
          omega
        · right
          omega

theorem streamEvents_eq_nil_iff (tokens : List Token) :
    streamEvents tokens = [] ↔
      DOLLAR ∉ streamBytes tokens ∧ CTRLC ∉ streamBytes tokens := by
  constructor
  · intro hnil
    have hdollar : DOLLAR ∉ streamBytes tokens := by
      rw [← List.count_eq_zero, count_dollar_streamBytes, hnil]
      rfl
    refine ⟨hdollar, fun hctrl => ?_⟩
    obtain ⟨skipped, tokens', rfl, hbytes, hrest, hevents⟩ :=
      @stream_garbage _ hdollar [] tokens (List.append_nil _)
    have hpos := interruptCount_interruptsIn_pos hctrl
    rw [streamEvents_append, List.append_eq_nil_iff] at hnil
    rw [← hevents, hnil.1] at hpos
    exact absurd hpos (by decide)
  · rintro ⟨hdollar, hctrl⟩
    obtain ⟨skipped, tokens', rfl, hbytes, hrest, hevents⟩ :=
      @stream_garbage _ hdollar [] tokens (List.append_nil _)
    have htokens' : tokens' = [] := by
      cases tokens' with
      | nil => rfl
      | cons token tokens' =>
          cases token <;>
            simp [Token.bytes, Packet.bytes] at hrest
    rw [htokens', List.append_nil, hevents, interruptsIn_eq_nil hctrl]

theorem reads_iff (reads : List (List Byte))
    (hreads : ∀ input ∈ reads, input ≠ []) :
    ∀ {s : DbState} {pending : List Byte} {tokens : List Token},
      s.Holds pending → pending ++ reads.flatten = streamBytes tokens →
      ((∃ s', dbHandleReads reads s = .ok s' ∧
          s'.events = s.events ++ streamEvents tokens) ↔
        ReadsCleanly pending reads) := by
  induction reads with
  | nil =>
      intro s pending tokens hs hstream
      rw [List.flatten_nil, List.append_nil] at hstream
      subst hstream
      constructor
      · rintro ⟨s', hok, hevents⟩
        cases hok
        have hnil := (streamEvents_eq_nil_iff tokens).mp (by simpa using hevents)
        exact .done hnil.1 hnil.2
      · intro hclean
        cases hclean with
        | done hdollar hctrl =>
            refine ⟨s, rfl, ?_⟩
            rw [(streamEvents_eq_nil_iff tokens).mpr ⟨hdollar, hctrl⟩,
              List.append_nil]
  | cons input reads ih =>
      intro s pending tokens hs hstream
      rw [List.forall_mem_cons] at hreads
      have htotal := count_dollar_streamBytes tokens
      rw [← hstream] at htotal
      rw [List.flatten_cons, ← List.append_assoc] at hstream
      constructor
      · rintro ⟨s', hok, hfinal⟩
        obtain ⟨s₁, hfd, hrest⟩ := dbHandleReads_cons_ok hok
        obtain ⟨events, left, hparses, hleft, hevents⟩ :=
          dbHandlefd_ok hs hreads.1 hfd
        have hdollars := hparses.dollars
        simp only [List.count_append, List.flatten_cons] at htotal hdollars
        have hpackets := congrArg packetCount hfinal
        have hinterrupts := congrArg interruptCount hfinal
        rw [packetCount_append] at hpackets
        rw [interruptCount_append] at hinterrupts
        rcases hparses.aligned hstream with
          hlost | ⟨tokens', hstream', hlost | ⟨hclean, hexact⟩⟩
        · have hrun := reads_dollars reads hreads.2 hleft hrest
          rw [hevents, packetCount_append] at hrun
          simp only [List.count_append] at hrun hlost
          omega
        · have htotal' := count_dollar_streamBytes tokens'
          rw [← hstream', List.count_append] at htotal'
          have hrun := reads_interrupts reads hreads.2 hleft hstream' hrest
          rw [hevents, packetCount_append, interruptCount_append] at hrun
          omega
        · refine .read hclean ((ih hreads.2 hleft hstream').mp
            ⟨s', hrest, ?_⟩)
          rw [hfinal, hevents, List.append_assoc, hexact]
      · intro hclean
        cases hclean with
        | read hparse hrest =>
            obtain ⟨events, tokens', hparses, hstream', hexact⟩ :=
              hparse.exact hstream
            obtain ⟨s₁, hfd, hleft, hevents⟩ :=
              hparses.handlefd hs hreads.1
            obtain ⟨s', hok, hfinal⟩ :=
              (ih hreads.2 hleft hstream').mpr hrest
            refine ⟨s', ?_, ?_⟩
            · unfold dbHandleReads
              rw [hfd]
              exact hok
            · rw [hfinal, hevents, List.append_assoc, hexact]

/-- However the stream is cut into reads, the parser passes on every packet
and every Ctrl-C once, in order and with its data, exactly when each read is
parsed cleanly. -/
theorem debugger_stream_iff (tokens : List Token) (reads : List (List Byte))
    (hreads : ∀ input ∈ reads, input ≠ [])
    (hstream : reads.flatten = streamBytes tokens) :
    (∃ s, dbHandleReads reads dbInit = .ok s ∧
        s.events = streamEvents tokens) ↔
      ReadsCleanly [] reads :=
  reads_iff reads hreads ⟨rfl, fun j hj => by simp at hj⟩ hstream

/-- The request for the registers, `$g#67`. -/
def registersPacket : Packet where
  data := [0x67]
  high := 0x36
  low := 0x37
  noDollar := by decide
  noHash := by decide
  checksum := by decide

/-- A packet of which three bytes arrive first is passed on. -/
theorem debugger_stream_three_bytes :
    ∃ s, dbHandleReads [[DOLLAR, 0x67, HASH], [0x36, 0x37]] dbInit = .ok s ∧
      s.events = streamEvents [.packet registersPacket] := by
  refine (debugger_stream_iff [.packet registersPacket]
    [[DOLLAR, 0x67, HASH], [0x36, 0x37]] (by simp) rfl).mpr ?_
  have hfirst : ParsesCleanly [DOLLAR, 0x67, HASH] [DOLLAR, 0x67, HASH] :=
    @ParsesCleanly.unfinished [] [] [0x67, HASH] (by simp) (by simp) rfl
  have hsecond : ParsesCleanly registersPacket.bytes [] :=
    @ParsesCleanly.last [] registersPacket (by simp)
  exact .read hfirst (.read hsecond (.done (by simp) (by simp)))

/-- The same packet is lost when only its first byte arrives first, and a
second packet is lost when it arrives together with the first. -/
theorem debugger_stream_loses_packets :
    (¬∃ s, dbHandleReads [[DOLLAR], [0x67, HASH, 0x36, 0x37]] dbInit =
          .ok s ∧
        s.events = streamEvents [.packet registersPacket]) ∧
      ¬∃ s, dbHandleReads [registersPacket.bytes ++ registersPacket.bytes]
          dbInit = .ok s ∧
        s.events = streamEvents
          [.packet registersPacket, .packet registersPacket] := by
  have hfault : (dbHandleReads [[DOLLAR], [0x67, HASH, 0x36, 0x37]]
      dbInit).toOption.map DbState.events = none := by decide
  have hlost : (dbHandleReads
      [registersPacket.bytes ++ registersPacket.bytes]
      dbInit).toOption.map DbState.events =
        some [.packet [0x67]] := by decide
  constructor
  · rintro ⟨s, hok, -⟩
    rw [hok] at hfault
    cases hfault
  · rintro ⟨s, hok, hevents⟩
    rw [hok] at hlost
    have := (Option.some.inj hlost).symm.trans hevents
    exact absurd this (by decide)

end BrickEmu
