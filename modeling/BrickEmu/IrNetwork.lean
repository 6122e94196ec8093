import BrickEmu.IrServer
import BrickEmu.SerialLine

/-!
# Bricks in infrared contact

The emulators that are connected to the infrared server, each behind a
descriptor of the server.  Emulators and server take their steps in any order,
clients come and go, and bytes wait in the queues of the sockets.  The record
of the bytes that the server has read, with the descriptors they came from, is
what is in the air for all bricks.
-/

namespace BrickEmu

open Program

namespace IrServer

/-- The client that the step reads from. -/
def source (s : IrServer) : Option Fd :=
  if s.exited = false ∧ s.slot < MAX_CLIENTS ∧ s.isReady s.slot then
    s.sockets s.slot
  else none

/-- The client that the step accepts. -/
def joins (s : IrServer) (input : IrInput) : Option Fd :=
  if s.exited = false ∧ ¬ s.slot < MAX_CLIENTS ∧
      isReady 0 { s with rfds := fun fd => s.isOpen fd && input.ready fd } then
    input.accept
  else none

/-- What the step reads from a client. -/
def readFrom (s : IrServer) (input : IrInput) (fd : Fd) : List Byte :=
  if s.source = some fd then input.read.getD [] else []

/-- What the step writes to a client. -/
def writtenTo (s : IrServer) (input : IrInput) (fd : Fd) : List Byte :=
  (((s.step input).deliveries fd).drop (s.deliveries fd).length).flatten

end IrServer

/-- `joined` is the length of the record when the client came. -/
structure IrNetwork where
  server : IrServer
  line : Fd → SerialLine
  joined : Fd → ℕ
  air : List (Fd × Byte)

/-- A step of the emulator behind a descriptor, or of the server, with the
emulator that joins if the step accepts one. -/
inductive NetworkEvent where
  | brick (fd : Fd) (clock : Clock) (event : LineEvent)
  | server (input : IrInput) (joining : SerialLine)

/-- The emulator of a client that is accepted has read nothing, and what it
has sent waits. -/
structure SerialLine.Joins (l : SerialLine) : Prop where
  ledger : l.Ledger
  toServer : l.toServer = l.serial.output
  toBrick : l.toBrick = []
  arrived : l.arrived = []

namespace IrNetwork

def step (n : IrNetwork) : NetworkEvent → IrNetwork
  | .brick fd clock event =>
      { n with
        line := Function.update n.line fd ((n.line fd).step clock event) }
  | .server input joining =>
      { server := n.server.step input
        line := fun fd =>
          if n.server.joins input = some fd then joining
          else
            { n.line fd with
              toServer := (n.line fd).toServer.drop
                (n.server.readFrom input fd).length
              toBrick := (n.line fd).toBrick ++ n.server.writtenTo input fd }
        joined := fun fd =>
          if n.server.joins input = some fd then n.air.length
          else n.joined fd
        air := n.air ++ n.server.source.toList.flatMap fun fd =>
          (input.read.getD []).map fun byte => (fd, byte) }

def run (n : IrNetwork) (events : List NetworkEvent) : IrNetwork :=
  events.foldl step n

/-- A read of the server finds the front of the queue. -/
def Possible (n : IrNetwork) : NetworkEvent → Prop
  | .brick fd _ event => (n.line fd).Permits event
  | .server input joining =>
      n.server.NewDescriptor input ∧
        (∀ fd ∈ n.server.source,
          (input.read.getD []).IsPrefix (n.line fd).toServer) ∧
        ∀ fd ∈ n.server.joins input, joining.Joins

/-- Every event of a run is possible when it happens. -/
def Along : IrNetwork → List NetworkEvent → Prop
  | _, [] => True
  | n, event :: rest => n.Possible event ∧ Along (n.step event) rest

def start (listening : Fd) (line : Fd → SerialLine) : IrNetwork where
  server := IrServer.start listening
  line := line
  joined := fun _ => 0
  air := []

/-- What has been in the air since the client came. -/
def airSince (n : IrNetwork) (c : Fd) : List (Fd × Byte) :=
  n.air.drop (n.joined c)

/-- What a brick hands over goes into the air, but for the bytes that still
wait and at most one byte that each of its resets has taken back; everything
in the air arrives at the brick, but for the bytes that are still on their
way, and what the brick takes has arrived.  All of this is in order, and no
byte is doubled or lost elsewhere before RDR. -/
structure Contact (n : IrNetwork) (c : Fd) : Prop where
  sent : SerialLine.keptBytes (n.line c).handed =
    ((n.airSince c).filter fun sent => sent.1 = c).map Prod.snd ++
      (n.line c).toServer ++ (n.line c).serial.waiting
  takenBack : (n.line c).handed.countP HandedByte.takenBack ≤
    (n.line c).resets
  heard : (n.airSince c).map Prod.snd =
    (n.line c).arrived ++ (n.line c).toBrick
  taken : ((n.line c).taken ++ (n.line c).serial.unread).Sublist
    (n.line c).arrived

end IrNetwork

namespace IrServer

variable {s : IrServer} {input : IrInput} {c : Fd}

theorem serve_some (input : IrInput) (i : ℕ) (s : IrServer) {buff : List Byte}
    (hread : input.read = some buff) :
    Closes { s with reads := s.reads ++ [buff] } (serve input i s).2 := by
  simp only [serve, hread, change_bind]
  exact closes_bind (keeps_writeOthers input buff i clientSlots)
    (fun _ => keeps_write input buff i) _

theorem serve_none (input : IrInput) (i : ℕ) (s : IrServer)
    (hread : input.read = none) : Closes s (serve input i s).2 := by
  simp only [serve, hread]
  exact keeps_close i s

theorem serve_reads (input : IrInput) (i : ℕ) (s : IrServer) :
    (serve input i s).2.reads = s.reads ++ input.read.toList := by
  cases hread : input.read with
  | none =>
      rw [(serve_none input i s hread).reads]
      exact (List.append_nil _).symm
  | some buff => exact (serve_some input i s hread).reads

/-- A step that reads does not connect anyone. -/
theorem serve_connected {i : ℕ} (h : (serve input i s).2.Connected c) :
    s.Connected c := by
  obtain ⟨k, hk, hsocket⟩ := h
  cases hread : input.read with
  | none => exact ⟨k, hk, (serve_none input i s hread).some_of_some hsocket⟩
  | some buff =>
      exact ⟨k, hk, (serve_some input i s hread).some_of_some hsocket⟩

theorem enter_reads (client : Fd) (s : IrServer) :
    (s.enter client).reads = s.reads := by
  unfold enter
  split <;> rfl

theorem select_reads (input : IrInput) (s : IrServer) :
    (select input s).reads = s.reads := by
  simp only [select]
  split
  · split
    · rfl
    · exact enter_reads _ _
  · rfl

theorem isReady_iff {i : ℕ} :
    s.isReady i ↔ ∃ fd, s.sockets i = some fd ∧ s.rfds fd = true := by
  unfold isReady
  cases s.sockets i with
  | none => simp
  | some fd => simp

theorem source_eq_some (hrunning : s.exited = false)
    (hslot : s.slot < MAX_CLIENTS) (hready : s.isReady s.slot) :
    ∃ fd, s.source = some fd ∧ s.sockets s.slot = some fd := by
  obtain ⟨fd, hfd, -⟩ := isReady_iff.mp hready
  exact ⟨fd, (if_pos ⟨hrunning, hslot, hready⟩).trans hfd, hfd⟩

theorem pass_eq (input : IrInput) (s : IrServer) :
    (pass input s).2 =
      if s.slot < MAX_CLIENTS then
        if s.isReady s.slot then
          (serve input s.slot { s with slot := s.slot + 1 }).2
        else { s with slot := s.slot + 1 }
      else select input s := by
  have hsame : ({ s with slot := s.slot + 1 } : IrServer).isReady s.slot =
      s.isReady s.slot := rfl
  simp only [pass, gets_bind]
  by_cases hslot : s.slot < MAX_CLIENTS
  · simp only [if_pos hslot, change_bind, gets_bind, hsame]
    by_cases hready : s.isReady s.slot = true
    · simp only [hready, if_true]
    · simp only [hready, Bool.false_eq_true, if_false]
      rfl
  · simp only [if_neg hslot]
    rfl

theorem step_running (input : IrInput) (hrunning : s.exited = false) :
    ∃ exited, s.step input = { (pass input s).2 with exited := exited } := by
  rw [step, if_neg (by simp [hrunning])]
  rcases pass input s with ⟨result, s'⟩
  cases result with
  | ok _ => exact ⟨s'.exited, rfl⟩
  | error _ => exact ⟨true, rfl⟩

/-- A step reads from its source, if there is one. -/
theorem step_reads (s : IrServer) (input : IrInput) :
    (s.step input).reads =
      s.reads ++ s.source.toList.flatMap fun _ => input.read.toList := by
  cases hexited : s.exited with
  | true =>
      rw [step, if_pos hexited, source, if_neg (by simp [hexited])]
      exact (List.append_nil _).symm
  | false =>
      obtain ⟨exited, hstep⟩ := step_running input hexited
      rw [hstep]
      change (pass input s).2.reads = _
      rw [pass_eq]
      split_ifs with hslot hready
      · obtain ⟨fd, hsource, -⟩ := source_eq_some hexited hslot hready
        rw [serve_reads, hsource]
        simp
      · rw [source, if_neg fun h => hready h.2.2]
        exact (List.append_nil _).symm
      · rw [source, if_neg fun h => hslot h.2.1]
        exact (select_reads input s).trans (List.append_nil _).symm

theorem connected_enter {client : Fd} (h : (s.enter client).Connected c) :
    s.Connected c ∨ client = c := by
  obtain ⟨k, hk, hsocket⟩ := h
  unfold enter at hsocket
  split at hsocket
  · next free hfree =>
      by_cases hkf : k = free
      · subst hkf
        have hself : (s.setSocket k (some client)).sockets k = some client :=
          Function.update_self ..
        exact Or.inr (Option.some.inj (hself.symm.trans hsocket))
      · have hother : (s.setSocket free (some client)).sockets k =
            s.sockets k := Function.update_of_ne hkf ..
        exact Or.inl ⟨k, hk, hother.symm.trans hsocket⟩
  · exact Or.inl ⟨k, hk, hsocket⟩

theorem connected_select (hrunning : s.exited = false)
    (hslot : ¬ s.slot < MAX_CLIENTS) (h : (select input s).Connected c) :
    s.Connected c ∨ s.joins input = some c := by
  simp only [select] at h
  split_ifs at h with hready
  · cases haccept : input.accept with
    | none =>
        rw [haccept] at h
        exact Or.inl h
    | some client =>
        rw [haccept] at h
        rcases connected_enter (c := c) h with hbefore | rfl
        · exact Or.inl hbefore
        · exact Or.inr ((if_pos ⟨hrunning, hslot, hready⟩).trans haccept)
  · exact Or.inl h

/-- A client that is connected was it before the step or joins with it. -/
theorem connected_step (h : (s.step input).Connected c) :
    s.Connected c ∨ s.joins input = some c := by
  cases hexited : s.exited with
  | true =>
      rw [step, if_pos hexited] at h
      exact Or.inl h
  | false =>
      obtain ⟨exited, hstep⟩ := step_running input hexited
      rw [hstep] at h
      replace h : (pass input s).2.Connected c := h
      rw [pass_eq] at h
      split_ifs at h with hslot hready
      · have hbefore : ({ s with slot := s.slot + 1 } : IrServer).Connected c :=
          serve_connected h
        exact Or.inl hbefore
      · exact Or.inl h
      · exact connected_select hexited hslot h

theorem writtenTo_eq (hsound : s.Sound) (hafter : (s.step input).Connected c) :
    s.writtenTo input c =
      s.source.toList.flatMap fun _ => input.read.getD [] := by
  obtain ⟨new, hreads, hdeliveries⟩ := step_follows hsound hafter
  rw [step_reads] at hreads
  rw [writtenTo, hdeliveries, List.drop_left,
    ← List.append_cancel_left hreads]
  cases s.source <;> cases input.read <;> simp

theorem source_of_joins (h : s.joins input = some c) : s.source = none := by
  unfold joins at h
  split_ifs at h with hjoins
  exact if_neg fun hsource => hjoins.2.1 hsource.2.1

end IrServer

namespace IrNetwork

variable {n : IrNetwork} {c : Fd} {input : IrInput} {joining : SerialLine}

/-- The contact with what is still in the interface. -/
structure InTouch (n : IrNetwork) (c : Fd) : Prop where
  ledger : (n.line c).Ledger
  joined : n.joined c ≤ n.air.length
  sent : ((n.airSince c).filter fun sent => sent.1 = c).map Prod.snd ++
    (n.line c).toServer = (n.line c).serial.output
  heard : (n.airSince c).map Prod.snd =
    (n.line c).arrived ++ (n.line c).toBrick

structure Inv (n : IrNetwork) : Prop where
  server : n.server.Sound
  clients : ∀ c, n.server.Connected c → n.InTouch c

theorem InTouch.toContact (h : n.InTouch c) : n.Contact c where
  sent := by rw [h.sent, h.ledger.kept, Serial.outgoing]
  takenBack := h.ledger.takenBack
  heard := h.heard
  taken := h.ledger.taken

/-- An emulator takes a step. -/
theorem InTouch.brick (h : n.InTouch c) {fd : Fd} {clock : Clock}
    {event : LineEvent} (hpermits : (n.line fd).Permits event) :
    (n.step (.brick fd clock event)).InTouch c := by
  by_cases hfd : c = fd
  · subst hfd
    have hline : (n.step (.brick c clock event)).line c =
        (n.line c).step clock event := Function.update_self ..
    obtain ⟨new, houtput, hqueue⟩ := (n.line c).step_toServer clock event
    exact {
      ledger := by
        rw [hline]
        exact SerialLine.ledger_step h.ledger hpermits
      joined := h.joined
      sent := by
        rw [hline, houtput, hqueue, ← List.append_assoc]
        exact congrArg (· ++ new) h.sent
      heard := by
        rw [hline, SerialLine.step_arrived]
        exact h.heard }
  · have hline : (n.step (.brick fd clock event)).line c = n.line c :=
      Function.update_of_ne hfd ..
    exact {
      ledger := hline ▸ h.ledger
      joined := h.joined
      sent := by rw [hline]; exact h.sent
      heard := by rw [hline]; exact h.heard }

/-- The client is in contact from the moment it joins. -/
theorem inTouch_joins (hjoins : n.server.joins input = some c)
    (h : joining.Joins) : (n.step (.server input joining)).InTouch c := by
  have hline : (n.step (.server input joining)).line c = joining :=
    if_pos hjoins
  have hair : (n.step (.server input joining)).air = n.air := by
    simp only [step]
    rw [IrServer.source_of_joins hjoins]
    exact List.append_nil _
  have hjoined : (n.step (.server input joining)).joined c = n.air.length :=
    if_pos hjoins
  have hsince : (n.step (.server input joining)).airSince c = [] := by
    rw [airSince, hair, hjoined, List.drop_length]
  exact {
    ledger := by rw [hline]; exact h.ledger
    joined := by rw [hjoined, hair]
    sent := by rw [hsince, hline, h.toServer]; rfl
    heard := by rw [hsince, hline, h.arrived, h.toBrick]; rfl }

/-- What the server takes from a queue goes into the air. -/
theorem own_append_rest
    (hread : ∀ fd ∈ n.server.source,
      (input.read.getD []).IsPrefix (n.line fd).toServer) :
    ((n.server.source.toList.flatMap fun fd =>
        (input.read.getD []).map fun byte => (fd, byte)).filter
          fun sent => sent.1 = c).map Prod.snd ++
      (n.line c).toServer.drop (n.server.readFrom input c).length =
        (n.line c).toServer := by
  unfold IrServer.readFrom
  cases hsource : n.server.source with
  | none => simp
  | some fd =>
      by_cases hfd : fd = c
      · subst hfd
        obtain ⟨rest, hrest⟩ := hread fd hsource
        rw [← hrest, if_pos rfl, List.drop_left]
        simp [List.filter_map, Function.comp_def]
      · have hne : some fd ≠ some c := fun h => hfd (Option.some.inj h)
        rw [if_neg hne]
        simp [List.filter_map, Function.comp_def, hfd]

/-- The server takes a step, and the client stays connected. -/
theorem InTouch.server (h : n.InTouch c) (hsound : n.server.Sound)
    (hjoins : n.server.joins input ≠ some c)
    (hread : ∀ fd ∈ n.server.source,
      (input.read.getD []).IsPrefix (n.line fd).toServer)
    (hafter : (n.server.step input).Connected c) :
    (n.step (.server input joining)).InTouch c := by
  have hline : (n.step (.server input joining)).line c =
      { n.line c with
        toServer := (n.line c).toServer.drop
          (n.server.readFrom input c).length
        toBrick := (n.line c).toBrick ++ n.server.writtenTo input c } :=
    if_neg hjoins
  have hjoined : (n.step (.server input joining)).joined c = n.joined c :=
    if_neg hjoins
  have hsince : (n.step (.server input joining)).airSince c =
      n.airSince c ++ n.server.source.toList.flatMap fun fd =>
        (input.read.getD []).map fun byte => (fd, byte) := by
    rw [airSince, hjoined]
    exact List.drop_append_of_le_length h.joined
  have hair : n.air.length ≤ (n.step (.server input joining)).air.length := by
    simp only [step, List.length_append]
    omega
  exact {
    ledger := by
      rw [hline]
      exact ⟨h.ledger.kept, h.ledger.waiting, h.ledger.takenBack,
        h.ledger.taken, h.ledger.eightBits⟩
    joined := by
      rw [hjoined]
      exact h.joined.trans hair
    sent := by
      rw [hsince, hline, List.filter_append, List.map_append, ← h.sent,
        List.append_assoc]
      congr 1
      exact own_append_rest hread
    heard := by
      have hall : (n.server.source.toList.flatMap fun fd =>
          (input.read.getD []).map fun byte => (fd, byte)).map Prod.snd =
            n.server.writtenTo input c := by
        rw [IrServer.writtenTo_eq hsound hafter, List.map_flatMap]
        simp
      rw [hsince, hline, List.map_append, h.heard, hall, List.append_assoc] }

theorem inv_step (h : n.Inv) {event : NetworkEvent}
    (hpossible : n.Possible event) : (n.step event).Inv := by
  cases event with
  | brick fd clock event =>
      exact {
        server := h.server
        clients := fun c hc => (h.clients c hc).brick hpossible }
  | server input joining =>
      obtain ⟨hnew, hread, hjoining⟩ := hpossible
      exact {
        server := IrServer.step_sound h.server hnew
        clients := fun c hc => by
          by_cases hjoins : n.server.joins input = some c
          · exact inTouch_joins hjoins (hjoining c hjoins)
          · have hbefore := (IrServer.connected_step hc).resolve_right hjoins
            exact (h.clients c hbefore).server h.server hjoins hread hc }

theorem inv_run {events : List NetworkEvent} (h : n.Inv)
    (hpossible : n.Along events) : (n.run events).Inv := by
  induction events generalizing n with
  | nil => exact h
  | cons event rest ih => exact ih (inv_step h hpossible.1) hpossible.2

theorem inv_start (listening : Fd) (line : Fd → SerialLine) :
    (start listening line).Inv where
  server := IrServer.sound_start listening
  clients := fun c hc => by
    obtain ⟨k, hk, hsocket⟩ := hc
    have hpos : k ≠ 0 := by
      have hbound := IrServer.mem_clientSlots.mp hk
      omega
    simp [start, IrServer.start, hpos] at hsocket

/-- Whatever the emulators and the server do, and in whatever order, every
brick that is connected is in contact with all the others. -/
theorem every_client_in_contact {listening : Fd} {line : Fd → SerialLine}
    {events : List NetworkEvent}
    (hpossible : (start listening line).Along events) {c : Fd}
    (hconnected : ((start listening line).run events).server.Connected c) :
    ((start listening line).run events).Contact c :=
  ((inv_run (inv_start listening line) hpossible).clients c
    hconnected).toContact

section Exchange

/-- The read loop passes over a slot that is not ready. -/
theorem step_idle (joining : SerialLine) (hrunning : n.server.exited = false)
    (hslot : n.server.slot < MAX_CLIENTS)
    (hquiet : n.server.isReady n.server.slot = false) :
    n.step (.server IrServer.idle joining) =
      { n with server := { n.server with slot := n.server.slot + 1 } } := by
  have hserver := IrServer.step_idle hrunning hslot hquiet
  have hsource : n.server.source = none :=
    if_neg fun h => by simp [hquiet] at h
  have hjoins : n.server.joins IrServer.idle = none :=
    if_neg fun h => h.2.1 hslot
  have hwritten (fd : Fd) : n.server.writtenTo IrServer.idle fd = [] := by
    rw [IrServer.writtenTo, hserver]
    exact congrArg List.flatten (List.drop_length ..)
  simp only [step, hserver, hsource, hjoins, hwritten, IrServer.readFrom]
  simp

/-- No slot is ready. -/
def Quiet (n : IrNetwork) : Prop :=
  ∀ i ∈ clientSlots, n.server.isReady i = false

theorem run_idle (joining : SerialLine) (k : ℕ)
    (hrunning : n.server.exited = false) (hpos : 1 ≤ n.server.slot)
    (hslot : n.server.slot + k ≤ MAX_CLIENTS) (hquiet : n.Quiet) :
    n.run (List.replicate k (.server IrServer.idle joining)) =
        { n with server := { n.server with slot := n.server.slot + k } } ∧
      n.Along (List.replicate k (.server IrServer.idle joining)) := by
  induction k generalizing n with
  | zero => exact ⟨rfl, trivial⟩
  | succ k ih =>
      have hlt : n.server.slot < MAX_CLIENTS := by omega
      have hready := hquiet n.server.slot
        (IrServer.mem_clientSlots.mpr ⟨hpos, hlt⟩)
      have hfirst := step_idle joining hrunning hlt hready
      have hpossible : n.Possible (.server IrServer.idle joining) :=
        ⟨(fun _ hfd => nomatch hfd), (fun _ _ => List.nil_prefix),
          fun fd hjoins => by
            have hnone : n.server.joins IrServer.idle = none :=
              if_neg fun h => h.2.1 hlt
            rw [hnone] at hjoins
            cases hjoins⟩
      obtain ⟨hrun, halong⟩ := ih (n := n.step (.server IrServer.idle joining))
        (by rw [hfirst]; exact hrunning)
        (by rw [hfirst]; exact Nat.le_add_left ..)
        (by rw [hfirst]; simp only; omega) (by rw [hfirst]; exact hquiet)
      refine ⟨?_, hpossible, halong⟩
      rw [List.replicate_succ, run, List.foldl_cons]
      refine hrun.trans ?_
      rw [hfirst]
      simp only [Nat.add_assoc, Nat.add_comm 1 k]

theorem Along.append {before events : List NetworkEvent}
    (hbefore : n.Along before) (hevents : (n.run before).Along events) :
    n.Along (before ++ events) := by
  induction before generalizing n with
  | nil => exact hevents
  | cons event rest ih => exact ⟨hbefore.1, ih hbefore.2 hevents⟩

theorem run_append (n : IrNetwork) (before events : List NetworkEvent) :
    n.run (before ++ events) = (n.run before).run events :=
  List.foldl_append

def lineWith (serial : Serial) : SerialLine :=
  ⟨serial, [], [], [], 0, [], []⟩

def quietLine : SerialLine :=
  lineWith Transmission.quietSerial

def sender : SerialLine :=
  lineWith { Transmission.quietSerial with
    tdr := 0x55, scr := Serial.TE, ssr := Serial.TDRE }

def listener : SerialLine :=
  lineWith { Transmission.quietSerial with
    scr := Serial.RE, ssr := Serial.TDRE }

def idles (k : ℕ) : List NetworkEvent :=
  List.replicate k (.server IrServer.idle quietLine)

/-- A byte is handed over, sent, read by the server, received and taken; the
next one is handed over and taken back by a reset. -/
def exchange : List NetworkEvent :=
  [.brick 4 ⟨10, 0, 0⟩ (.event .readSSR false),
    .brick 4 ⟨12, 0, 0⟩ (.event (.writeSSR 0) false),
    .brick 4 ⟨12, 0, 0⟩ (.event (.writeTDR 0xaa) false),
    .brick 4 ⟨12, 0, 0⟩ (.event .readSSR false),
    .brick 4 ⟨12, 0, 0⟩ (.event (.writeSSR 0) false),
    .brick 4 ⟨12, 0, 0⟩ .reset,
    .server { IrServer.idle with ready := fun fd => fd = 4 } quietLine,
    .server { IrServer.idle with read := some [0x55] } quietLine,
    .brick 5 ⟨20, 0, 0⟩ (.event .updateTime true),
    .brick 5 ⟨22, 0, 0⟩ (.event .readSSR false),
    .brick 5 ⟨24, 0, 0⟩ (.event (.writeSSR 0x80) false)]

def twoBricks : List NetworkEvent :=
  (.server (IrServer.connect 4) sender :: idles 999) ++
    ((.server (IrServer.connect 5) listener :: idles 999) ++ exchange)

/-- The network behind the connections. -/
def oneBrick : IrNetwork :=
  let n := (start 3 fun _ => quietLine).step
    (.server (IrServer.connect 4) sender)
  { n with server := { n.server with slot := MAX_CLIENTS } }

def bothBricks : IrNetwork :=
  let n := oneBrick.step (.server (IrServer.connect 5) listener)
  { n with server := { n.server with slot := MAX_CLIENTS } }

theorem joins_lineWith {serial : Serial} (hwaiting : serial.waiting = [])
    (hunread : serial.unread = []) (houtput : serial.output = [])
    (hbits : serial.smr &&& Serial.CHR = 0) : (lineWith serial).Joins where
  ledger := ⟨by
    change [] = serial.outgoing
    rw [Serial.outgoing, houtput, hwaiting]
    rfl, by
    change (serial.waiting.map SerialLine.hand).IsSuffix []
    rw [hwaiting]
    exact List.nil_suffix, le_rfl, by
    change ([] ++ serial.unread).Sublist []
    rw [hunread]
    exact List.Sublist.refl _, hbits⟩
  toServer := houtput.symm
  toBrick := rfl
  arrived := rfl

/-- A client connects, and the read loop finds nothing. -/
theorem connect_idles {client : Fd} {joining : SerialLine} {k : ℕ}
    (hk : 1 + k = MAX_CLIENTS) (hjoins : joining.Joins)
    (hpossible : n.server.NewDescriptor (IrServer.connect client))
    (hsource : n.server.source = none)
    (hquiet : (n.step (.server (IrServer.connect client) joining)).Quiet)
    (hrunning : (n.step (.server (IrServer.connect client)
      joining)).server.exited = false)
    (hslot : (n.step (.server (IrServer.connect client)
      joining)).server.slot = 1) :
    let n' := n.step (.server (IrServer.connect client) joining)
    n.run (.server (IrServer.connect client) joining :: idles k) =
        { n' with server := { n'.server with slot := MAX_CLIENTS } } ∧
      n.Along (.server (IrServer.connect client) joining :: idles k) := by
  obtain ⟨hrun, halong⟩ := run_idle quietLine k hrunning hslot.ge
    (hslot ▸ hk.le) hquiet
  rw [hslot, hk] at hrun
  exact ⟨hrun, ⟨hpossible, (fun fd hfd => by rw [hsource] at hfd; cases hfd),
    fun _ _ => hjoins⟩, halong⟩

theorem run_oneBrick :
    (start 3 fun _ => quietLine).run
        (.server (IrServer.connect 4) sender :: idles 999) = oneBrick ∧
      (start 3 fun _ => quietLine).Along
        (.server (IrServer.connect 4) sender :: idles 999) :=
  connect_idles rfl
    (joins_lineWith (by decide) (by decide) rfl (by decide))
    (by decide +kernel) (by decide +kernel)
    (by unfold Quiet; decide +kernel) (by decide +kernel) (by decide +kernel)

theorem run_bothBricks :
    oneBrick.run (.server (IrServer.connect 5) listener :: idles 999) =
        bothBricks ∧
      oneBrick.Along
        (.server (IrServer.connect 5) listener :: idles 999) :=
  connect_idles rfl
    (joins_lineWith (by decide) (by decide) rfl (by decide))
    (by decide +kernel) (by decide +kernel)
    (by unfold Quiet; decide +kernel) (by decide +kernel) (by decide +kernel)

/-- The server takes a step without accepting anyone. -/
theorem possible_server (hnone : input.accept = none)
    (hread : ∀ fd ∈ n.server.source,
      (input.read.getD []).IsPrefix (n.line fd).toServer) :
    n.Possible (.server input joining) := by
  refine ⟨fun fd hfd => ?_, hread, fun fd hfd => ?_⟩
  · rw [hnone] at hfd
    cases hfd
  · unfold IrServer.joins at hfd
    split_ifs at hfd
    · rw [hnone] at hfd
      cases hfd
    · cases hfd

theorem along_exchange : bothBricks.Along exchange := by
  have hset : ((bothBricks.run (exchange.take 2)).line 4).serial.ssr &&&
      Serial.TDRE ≠ 0 := by decide +kernel
  exact ⟨trivial, trivial, hset, trivial, trivial, trivial,
    possible_server rfl (by decide +kernel),
    possible_server rfl (by decide +kernel), trivial, trivial, trivial, trivial⟩

theorem every_client_in_contact_two_bricks :
    let n := (start 3 fun _ => quietLine).run twoBricks
    n.Contact 4 ∧ n.Contact 5 ∧ n.air = [(4, 0x55)] ∧
      (n.line 4).handed = [⟨0x55, false⟩, ⟨0xaa, true⟩] ∧
      (n.line 5).taken = [0x55] := by
  have hrun : (start 3 fun _ => quietLine).run twoBricks =
      bothBricks.run exchange := by
    rw [twoBricks, run_append, run_oneBrick.1, run_append, run_bothBricks.1]
  have halong : (start 3 fun _ => quietLine).Along twoBricks := by
    refine run_oneBrick.2.append ?_
    rw [run_oneBrick.1]
    refine run_bothBricks.2.append ?_
    rw [run_bothBricks.1]
    exact along_exchange
  have hfirst : ((start 3 fun _ => quietLine).run twoBricks).server.Connected
      4 := by
    rw [hrun]
    decide +kernel
  have hsecond : ((start 3 fun _ => quietLine).run twoBricks).server.Connected
      5 := by
    rw [hrun]
    decide +kernel
  refine ⟨every_client_in_contact halong hfirst,
    every_client_in_contact halong hsecond, ?_⟩
  rw [hrun]
  decide +kernel

end Exchange

end IrNetwork

end BrickEmu
