import BrickEmu.HostInteger
import BrickEmu.Program

/-!
# The infrared server

The loop of `ir-server.c`, one step for each call of `select` with the
connection it accepts and one for each slot the read loop comes to.  The
descriptors that become ready, the results of `accept` and `read` and the
success of each `write` are inputs.  A write delivers its whole buffer or
fails.

The buffers read and the deliveries are recorded; nothing in the server looks
at these records.
-/

namespace BrickEmu

open Program

abbrev Fd := ℕ

def MAX_CLIENTS : ℕ := 1000

/-- The indices of the loops over the clients. -/
def clientSlots : List ℕ :=
  List.range' 1 (MAX_CLIENTS - 1)

/-- A slot of `sockets` that holds -1 is empty; the first one listens.  `slot`
is the index of the read loop, `MAX_CLIENTS` behind it. -/
structure IrServer where
  sockets : ℕ → Option Fd
  rfds : Fd → Bool
  slot : ℕ
  exited : Bool
  reads : List (List Byte)
  writes : List (Fd × List Byte)

/-- What the system calls of one step return. -/
structure IrInput where
  ready : Fd → Bool
  accept : Option Fd
  read : Option (List Byte)
  write : ℕ → Bool

namespace IrServer

abbrev Action := Program IrServer Unit

def noClients (s : IrServer) : Bool :=
  clientSlots.all fun i => s.sockets i = none

def setSocket (i : ℕ) (fd : Option Fd) (s : IrServer) : IrServer :=
  { s with sockets := Function.update s.sockets i fd }

def deliver (fd : Fd) (buff : List Byte) (s : IrServer) : IrServer :=
  { s with writes := s.writes ++ [(fd, buff)] }

/-- `close`, followed by `check_exit`. -/
def close (i : ℕ) : Action Unit := do
  change (setSocket i none)
  leaveIf noClients () id

/-- `write` to a slot, which is closed when that fails. -/
def write (input : IrInput) (buff : List Byte) (j : ℕ) : Action Unit := do
  match ← gets fun s => s.sockets j with
  | some fd =>
      if input.write j then change (deliver fd buff) else close j
  | none => close j

/-- The loop that writes to the other sockets. -/
def writeOthers (input : IrInput) (buff : List Byte) (i : ℕ) :
    List ℕ → Action Unit
  | [] => return ()
  | j :: rest => do
      if ← gets fun s => decide (i ≠ j ∧ s.sockets j ≠ none) then
        write input buff j
      writeOthers input buff i rest

/-- The body of the read loop for a slot that is ready. -/
def serve (input : IrInput) (i : ℕ) : Action Unit := do
  match input.read with
  | none => close i
  | some buff =>
      change fun s => { s with reads := s.reads ++ [buff] }
      writeOthers input buff i clientSlots
      write input buff i

/-- The first free slot; without one the connection is closed. -/
def enter (client : Fd) (s : IrServer) : IrServer :=
  match clientSlots.find? fun i => s.sockets i = none with
  | some i => s.setSocket i (some client)
  | none => s

def isOpen (fd : Fd) (s : IrServer) : Bool :=
  (0 :: clientSlots).any fun i => s.sockets i = some fd

def isReady (i : ℕ) (s : IrServer) : Bool :=
  (s.sockets i).any s.rfds

/-- `select` and what precedes the read loop.  When `accept` fails, the loop
is skipped. -/
def select (input : IrInput) (s : IrServer) : IrServer :=
  let s := { s with rfds := fun fd => s.isOpen fd && input.ready fd }
  if s.isReady 0 then
    match input.accept with
    | none => s
    | some client => { s.enter client with slot := 1 }
  else { s with slot := 1 }

def pass (input : IrInput) : Action Unit := do
  let i ← gets slot
  if i < MAX_CLIENTS then
    change fun s => { s with slot := i + 1 }
    if ← gets (isReady i) then serve input i
  else
    change (select input)

def step (s : IrServer) (input : IrInput) : IrServer :=
  if s.exited then s
  else
    match pass input s with
    | (.ok _, s) => s
    | (.error _, s) => { s with exited := true }

def run (s : IrServer) (inputs : List IrInput) : IrServer :=
  inputs.foldl step s

/-- The server in front of its loop. -/
def start (listening : Fd) : IrServer where
  sockets := fun i => if i = 0 then some listening else none
  rfds := fun _ => false
  slot := MAX_CLIENTS
  exited := false
  reads := []
  writes := []

/-- Slots are only closed. -/
structure Closes (s s' : IrServer) : Prop where
  reads : s'.reads = s.reads
  slot : s'.slot = s.slot
  sockets : ∀ i, s'.sockets i = s.sockets i ∨ s'.sockets i = none

namespace Closes

theorem refl (s : IrServer) : Closes s s :=
  ⟨rfl, rfl, fun _ => .inl rfl⟩

theorem trans {s s' s'' : IrServer} (h : Closes s s') (h' : Closes s' s'') :
    Closes s s'' := by
  refine ⟨h'.reads.trans h.reads, h'.slot.trans h.slot, fun i => ?_⟩
  rcases h'.sockets i with heq | hnone
  · rw [heq]
    exact h.sockets i
  · exact .inr hnone

theorem some_of_some {s s' : IrServer} (h : Closes s s') {i : ℕ} {fd : Fd}
    (hfd : s'.sockets i = some fd) : s.sockets i = some fd := by
  rcases h.sockets i with heq | hnone
  · rw [← heq, hfd]
  · rw [hnone] at hfd
    cases hfd

end Closes

theorem closes_bind {α β : Type} {p : Action α} {f : α → Action β}
    (hp : Keeps Closes p) (hf : ∀ a, Keeps Closes (f a)) :
    Keeps Closes (p >>= f) :=
  keeps_bind (R := Closes) (fun _ _ h => h) (fun _ _ _ => Closes.trans) hp hf

theorem closes_setSocket (i : ℕ) (s : IrServer) :
    Closes s (s.setSocket i none) := by
  refine ⟨rfl, rfl, fun j => ?_⟩
  by_cases hj : j = i
  · subst hj
    exact .inr (Function.update_self ..)
  · exact .inl (Function.update_of_ne hj ..)

theorem keeps_close (i : ℕ) : Keeps Closes (close i) := by
  apply closes_bind (keeps_change (closes_setSocket i))
  intro _
  exact keeps_leaveIf Closes.refl Closes.refl

theorem keeps_write (input : IrInput) (buff : List Byte) (j : ℕ) :
    Keeps Closes (write input buff j) := by
  apply closes_bind (keeps_gets Closes.refl _)
  intro socket
  cases socket with
  | none => exact keeps_close j
  | some fd =>
      by_cases hok : input.write j = true
      · simp only [hok, if_true]
        exact keeps_change fun s => ⟨rfl, rfl, fun _ => .inl rfl⟩
      · simp only [hok, Bool.false_eq_true, if_false]
        exact keeps_close j

theorem keeps_writeOthers (input : IrInput) (buff : List Byte) (i : ℕ)
    (rest : List ℕ) : Keeps Closes (writeOthers input buff i rest) := by
  induction rest with
  | nil => exact keeps_pure Closes.refl _
  | cons j rest ih =>
      apply closes_bind (keeps_gets Closes.refl _)
      intro other
      cases other with
      | false => exact ih
      | true =>
          exact closes_bind (keeps_write input buff j) fun _ => ih

/-- The buffers that went to a descriptor. -/
def deliveries (fd : Fd) (s : IrServer) : List (List Byte) :=
  (s.writes.filter fun delivery => delivery.1 = fd).map Prod.snd

/-- The descriptors of the clients differ. -/
def Distinct (s : IrServer) : Prop :=
  ∀ i ∈ clientSlots, ∀ j ∈ clientSlots, ∀ fd, s.sockets i = some fd →
    s.sockets j = some fd → i = j

theorem Closes.distinct {s s' : IrServer} (h : Closes s s')
    (hdistinct : s.Distinct) : s'.Distinct := by
  intro i hi j hj fd hfd hfd'
  exact hdistinct i hi j hj fd (h.some_of_some hfd) (h.some_of_some hfd')

theorem deliveries_deliver (fd c : Fd) (buff : List Byte) (s : IrServer) :
    (s.deliver fd buff).deliveries c =
      s.deliveries c ++ if fd = c then [buff] else [] := by
  by_cases hfd : fd = c
  · simp [deliver, deliveries, hfd]
  · simp [deliver, deliveries, hfd]

theorem close_snd (i : ℕ) (s : IrServer) :
    (close i s).2 = s.setSocket i none := by
  simp only [close, change_bind, leaveIf]
  split_ifs <;> rfl

/-- The server exits only when all clients are gone. -/
theorem close_leaves (i : ℕ) (s : IrServer) :
    LeavesWith (fun _ s' => s'.noClients = true) (close i) s := by
  intro e s' h
  simp only [close, change_bind, leaveIf] at h
  split_ifs at h with hempty
  · obtain ⟨-, rfl⟩ := Prod.mk.inj h
    exact hempty
  · cases h

theorem not_noClients {s : IrServer} {k : ℕ} {c : Fd} (hk : k ∈ clientSlots)
    (hsocket : s.sockets k = some c) : s.noClients = false := by
  apply List.all_eq_false.mpr
  exact ⟨k, hk, by simp [hsocket]⟩

section Deliveries

variable {s : IrServer} {input : IrInput} {buff : List Byte} {i j k : ℕ}
  {c : Fd}

theorem write_leaves (input : IrInput) (buff : List Byte) (j : ℕ)
    (s : IrServer) :
    LeavesWith (fun _ s' => s'.noClients = true) (write input buff j) s := by
  intro e s' h
  rw [write, gets_bind] at h
  cases hsocket : s.sockets j with
  | none =>
      rw [hsocket] at h
      exact close_leaves j s e s' h
  | some fd =>
      rw [hsocket] at h
      by_cases hok : input.write j = true
      · simp only [hok, if_true] at h
        cases h
      · simp only [hok, Bool.false_eq_true, if_false] at h
        exact close_leaves j s e s' h

/-- A client that is still there after a write has got the buffer if it was
meant. -/
theorem write_delivers (hdistinct : s.Distinct) (hj : j ∈ clientSlots)
    (hk : k ∈ clientSlots)
    (hafter : (write input buff j s).2.sockets k = some c) :
    (write input buff j s).2.deliveries c =
      s.deliveries c ++ if j = k then [buff] else [] := by
  have hbefore : s.sockets k = some c :=
    (keeps_write input buff j s).some_of_some hafter
  have hclose : (close j s).2.sockets k = some c →
      (close j s).2.deliveries c =
        s.deliveries c ++ if j = k then [buff] else [] := by
    intro hopen
    rw [close_snd] at hopen ⊢
    have hne : j ≠ k := by
      rintro rfl
      have hnone : (s.setSocket j none).sockets j = none :=
        Function.update_self ..
      rw [hnone] at hopen
      cases hopen
    rw [if_neg hne, List.append_nil]
    rfl
  rw [write, gets_bind] at hafter ⊢
  cases hsocket : s.sockets j with
  | none =>
      rw [hsocket] at hafter
      exact hclose hafter
  | some fd =>
      rw [hsocket] at hafter
      by_cases hok : input.write j = true
      · simp only [hok, if_true] at hafter ⊢
        have hiff : fd = c ↔ j = k := by
          constructor
          · intro hfd
            exact hdistinct j hj k hk c (hfd ▸ hsocket) hbefore
          · rintro rfl
            exact Option.some.inj (hsocket.symm.trans hbefore)
        rw [change, deliveries_deliver]
        simp only [hiff]
      · simp only [hok, Bool.false_eq_true, if_false] at hafter ⊢
        exact hclose hafter

theorem writeOthers_leaves (input : IrInput) (buff : List Byte) (i : ℕ)
    (rest : List ℕ) (s : IrServer) :
    LeavesWith (fun _ s' => s'.noClients = true)
      (writeOthers input buff i rest) s := by
  induction rest generalizing s with
  | nil => exact leavesWith_pure _ s
  | cons j rest ih =>
      intro e s' h
      rw [writeOthers, gets_bind] at h
      split_ifs at h with hother
      · rcases hwrite : write input buff j s with ⟨result, s₁⟩
        cases result with
        | ok _ =>
            rw [bind_ok hwrite] at h
            exact ih s₁ e s' h
        | error e₁ =>
            rw [bind_error hwrite] at h
            obtain ⟨-, rfl⟩ := Prod.mk.inj h
            exact write_leaves input buff j s e₁ s₁ hwrite
      · exact ih s e s' h

/-- While there is a client the loop goes on. -/
theorem goes_on {α β : Type} {p : Action α} {f : α → Action β}
    (hleaves : LeavesWith (fun _ s' => s'.noClients = true) p s)
    (hk : k ∈ clientSlots) (hafter : ((p >>= f) s).2.sockets k = some c) :
    ∃ a s', p s = (.ok a, s') := by
  rcases hrun : p s with ⟨result, s'⟩
  cases result with
  | ok a => exact ⟨a, s', rfl⟩
  | error e =>
      rw [bind_error hrun] at hafter
      have hempty : s'.noClients = true := hleaves e s' hrun
      rw [not_noClients hk hafter] at hempty
      cases hempty

theorem writeOthers_delivers {rest : List ℕ} (hdistinct : s.Distinct)
    (hrest : ∀ j ∈ rest, j ∈ clientSlots) (hnodup : rest.Nodup)
    (hk : k ∈ clientSlots)
    (hafter : (writeOthers input buff i rest s).2.sockets k = some c) :
    (writeOthers input buff i rest s).2.deliveries c =
      s.deliveries c ++ if k ∈ rest ∧ i ≠ k then [buff] else [] := by
  induction rest generalizing s with
  | nil =>
      simp only [List.not_mem_nil, false_and, if_false, List.append_nil]
      rfl
  | cons j rest ih =>
      obtain ⟨hj, hrest⟩ := List.forall_mem_cons.mp hrest
      obtain ⟨hfresh, hnodup⟩ := List.nodup_cons.mp hnodup
      have hbefore := (keeps_writeOthers input buff i (j :: rest) s).some_of_some
        hafter
      rw [writeOthers, gets_bind] at hafter ⊢
      by_cases hother : i ≠ j ∧ s.sockets j ≠ none
      · simp only [hother, ne_eq, not_false_eq_true, and_self, decide_true,
          if_true] at hafter ⊢
        obtain ⟨_, s₁, hwrite⟩ :=
          goes_on (write_leaves input buff j s) hk hafter
        rw [bind_ok hwrite] at hafter ⊢
        have hcloses := keeps_write input buff j s
        have hopen := (keeps_writeOthers input buff i rest s₁).some_of_some
          hafter
        have hfirst := write_delivers hdistinct hj hk
          (by rw [hwrite]; exact hopen)
        rw [hwrite] at hcloses hfirst
        rw [ih (hcloses.distinct hdistinct) hrest hnodup hafter, hfirst,
          List.append_assoc]
        congr 1
        by_cases hjk : j = k
        · subst hjk
          simp [hfresh, hother.1]
        · have hkj : k ≠ j := fun h => hjk h.symm
          simp [hjk, hkj]
      · simp only [hother, decide_false, Bool.false_eq_true, if_false]
          at hafter ⊢
        rw [ih hdistinct hrest hnodup hafter]
        congr 1
        by_cases hjk : j = k
        · subst hjk
          have hij : i = j := by simpa [hbefore] using hother
          simp [hij]
        · have hkj : k ≠ j := fun h => hjk h.symm
          simp [hkj]

/-- What a step adds to the buffers read it adds to those delivered to a
client. -/
def Follows (c : Fd) (s s' : IrServer) : Prop :=
  ∃ new, s'.reads = s.reads ++ new ∧
    s'.deliveries c = s.deliveries c ++ new

theorem Follows.refl (c : Fd) (s : IrServer) : Follows c s s :=
  ⟨[], by simp, by simp⟩

theorem Follows.trans {s s' s'' : IrServer} (h : Follows c s s')
    (h' : Follows c s' s'') : Follows c s s'' := by
  obtain ⟨new, hreads, hdeliveries⟩ := h
  obtain ⟨new', hreads', hdeliveries'⟩ := h'
  refine ⟨new ++ new', ?_, ?_⟩
  · rw [hreads', hreads, List.append_assoc]
  · rw [hdeliveries', hdeliveries, List.append_assoc]

theorem nodup_clientSlots : clientSlots.Nodup :=
  List.nodup_range'

theorem serve_follows (hdistinct : s.Distinct) (hi : i ∈ clientSlots)
    (hk : k ∈ clientSlots)
    (hafter : (serve input i s).2.sockets k = some c) :
    Follows c s (serve input i s).2 := by
  unfold serve at hafter ⊢
  cases hread : input.read with
  | none =>
      refine ⟨[], ?_, ?_⟩
      · simp [close_snd, setSocket]
      · simp [close_snd, setSocket, deliveries]
  | some buff =>
      simp only [hread, change_bind] at hafter ⊢
      have hdistinct₀ : ({ s with reads := s.reads ++ [buff] } :
          IrServer).Distinct := hdistinct
      obtain ⟨_, s₁, hothers⟩ :=
        goes_on (writeOthers_leaves input buff i clientSlots _) hk hafter
      rw [bind_ok hothers] at hafter ⊢
      have hcloses := keeps_writeOthers input buff i clientSlots
        { s with reads := s.reads ++ [buff] }
      have hopen := (keeps_write input buff i s₁).some_of_some hafter
      have hfirst := writeOthers_delivers hdistinct₀ (fun _ h => h)
        nodup_clientSlots hk (by rw [hothers]; exact hopen)
      rw [hothers] at hcloses hfirst
      refine ⟨[buff], ?_, ?_⟩
      · rw [(keeps_write input buff i s₁).reads, hcloses.reads]
      · rw [write_delivers (hcloses.distinct hdistinct₀) hi hk hafter, hfirst,
          List.append_assoc]
        by_cases hik : i = k
        · simp [hik, deliveries]
        · simp [hik, hk, deliveries]

end Deliveries

section Runs

/-- The client is in one of the slots. -/
def Connected (c : Fd) (s : IrServer) : Prop :=
  ∃ k ∈ clientSlots, s.sockets k = some c

instance (c : Fd) (s : IrServer) : Decidable (s.Connected c) :=
  inferInstanceAs (Decidable (∃ k ∈ clientSlots, s.sockets k = some c))

/-- `accept` returns a descriptor that is not in use. -/
def NewDescriptor (s : IrServer) (input : IrInput) : Prop :=
  ∀ fd ∈ input.accept, s.isOpen fd = false

instance (s : IrServer) (input : IrInput) :
    Decidable (NewDescriptor s input) :=
  inferInstanceAs (Decidable (∀ fd ∈ input.accept, s.isOpen fd = false))

/-- Every step of a run. -/
def Throughout (P : IrServer → IrInput → Prop) :
    IrServer → List IrInput → Prop
  | _, [] => True
  | s, input :: rest => P s input ∧ Throughout P (s.step input) rest

/-- The client is connected before, between and after the steps. -/
def StaysConnected (c : Fd) : IrServer → List IrInput → Prop
  | s, [] => s.Connected c
  | s, input :: rest => s.Connected c ∧ StaysConnected c (s.step input) rest

instance instDecidableStaysConnected (c : Fd) :
    ∀ s inputs, Decidable (StaysConnected c s inputs)
  | s, [] => inferInstanceAs (Decidable (s.Connected c))
  | s, input :: rest =>
      have := instDecidableStaysConnected c (s.step input) rest
      inferInstanceAs (Decidable (s.Connected c ∧ _))

/-- The buffers read during a run. -/
def readsIn (s : IrServer) (inputs : List IrInput) : List (List Byte) :=
  (s.run inputs).reads.drop s.reads.length

/-- The buffers written to a client during a run. -/
def deliveredIn (c : Fd) (s : IrServer) (inputs : List IrInput) :
    List (List Byte) :=
  ((s.run inputs).deliveries c).drop (s.deliveries c).length

structure Sound (s : IrServer) : Prop where
  distinct : s.Distinct
  slot : 1 ≤ s.slot

variable {s : IrServer} {input : IrInput} {c : Fd}

theorem mem_clientSlots {i : ℕ} :
    i ∈ clientSlots ↔ 1 ≤ i ∧ i < MAX_CLIENTS := by
  rw [clientSlots, List.mem_range'_1]
  rfl

theorem sound_start (listening : Fd) : (start listening).Sound := by
  refine ⟨?_, Nat.one_le_of_lt (Nat.lt_add_one 999)⟩
  intro i hi j hj fd hfd
  have hpos : i ≠ 0 := by
    have hbound := mem_clientSlots.mp hi
    omega
  simp [start, hpos] at hfd

theorem Closes.sound {s s' : IrServer} (h : Closes s s')
    (hsound : s.Sound) : s'.Sound :=
  ⟨h.distinct hsound.distinct, h.slot ▸ hsound.slot⟩

theorem serve_sound {i : ℕ} (hsound : s.Sound) :
    (serve input i s).2.Sound := by
  unfold serve
  cases input.read with
  | none => exact (keeps_close i s).sound hsound
  | some buff =>
      have hread : ({ s with reads := s.reads ++ [buff] } : IrServer).Sound :=
        ⟨hsound.distinct, hsound.slot⟩
      exact (closes_bind (keeps_writeOthers input buff i clientSlots)
        (fun _ => keeps_write input buff i) _).sound hread

theorem distinct_enter {client : Fd} (hdistinct : s.Distinct)
    (hnew : s.isOpen client = false) : (s.enter client).Distinct := by
  unfold enter
  split
  · next free hfree =>
      have hothers : ∀ j ∈ clientSlots, s.sockets j ≠ some client := by
        intro j hj hopen
        have hfalse := List.any_eq_false.mp hnew j (List.mem_cons_of_mem 0 hj)
        exact hfalse (by simp [hopen])
      have hself : (s.setSocket free (some client)).sockets free = some client :=
        Function.update_self ..
      have hrest : ∀ j, j ≠ free →
          (s.setSocket free (some client)).sockets j = s.sockets j :=
        fun j hj => Function.update_of_ne hj ..
      intro i hi j hj fd hfd hfd'
      by_cases hif : i = free <;> by_cases hjf : j = free
      · rw [hif, hjf]
      · rw [hif, hself] at hfd
        rw [hrest j hjf, ← hfd] at hfd'
        exact absurd hfd' (hothers j hj)
      · rw [hjf, hself] at hfd'
        rw [hrest i hif, ← hfd'] at hfd
        exact absurd hfd (hothers i hi)
      · rw [hrest i hif] at hfd
        rw [hrest j hjf] at hfd'
        exact hdistinct i hi j hj fd hfd hfd'
  · exact hdistinct

theorem select_sound (hsound : s.Sound) (hnew : NewDescriptor s input) :
    (select input s).Sound := by
  simp only [select]
  split
  · split
    · exact ⟨hsound.distinct, hsound.slot⟩
    · next client haccept =>
        refine ⟨?_, le_rfl⟩
        have hentered : ({ s with
            rfds := fun fd => s.isOpen fd && input.ready fd } :
            IrServer).Distinct := hsound.distinct
        exact distinct_enter hentered (hnew client haccept)
  · exact ⟨hsound.distinct, le_rfl⟩

theorem select_records (c : Fd) (s : IrServer) :
    Follows c s (select input s) := by
  have henter : ∀ (s : IrServer) (client : Fd),
      (s.enter client).reads = s.reads ∧
        (s.enter client).writes = s.writes := by
    intro s client
    unfold enter
    split <;> exact ⟨rfl, rfl⟩
  simp only [select]
  split
  · split
    · exact Follows.refl c s
    · next client _ =>
        obtain ⟨hreads, hwrites⟩ := henter { s with
          rfds := fun fd => s.isOpen fd && input.ready fd } client
        exact ⟨[], by rw [hreads]; simp, by simp [deliveries, hwrites]⟩
  · exact Follows.refl c s

theorem pass_sound (hsound : s.Sound) (hnew : NewDescriptor s input) :
    (pass input s).2.Sound := by
  simp only [pass, gets_bind]
  split_ifs with hslot
  · have hnext : ({ s with slot := s.slot + 1 } : IrServer).Sound :=
      ⟨hsound.distinct, Nat.le_add_left 1 s.slot⟩
    simp only [change_bind, gets_bind]
    split_ifs
    · exact serve_sound hnext
    · exact hnext
  · exact select_sound hsound hnew

theorem pass_follows (hsound : s.Sound)
    (hafter : (pass input s).2.Connected c) :
    Follows c s (pass input s).2 := by
  simp only [pass, gets_bind] at hafter ⊢
  split_ifs at hafter ⊢ with hslot
  · have hnext : ({ s with slot := s.slot + 1 } : IrServer).Distinct :=
      hsound.distinct
    have hi := mem_clientSlots.mpr ⟨hsound.slot, hslot⟩
    simp only [change_bind, gets_bind] at hafter ⊢
    split_ifs at hafter ⊢
    · obtain ⟨k, hk, hsocket⟩ := hafter
      exact serve_follows hnext hi hk hsocket
    · exact Follows.refl c s
  · exact select_records c s

/-- Apart from the exit a step is a pass of the loop. -/
theorem step_cases (s : IrServer) (input : IrInput) :
    s.step input = s ∨
      ∃ exited, s.step input = { (pass input s).2 with exited := exited } := by
  unfold step
  split_ifs
  · exact .inl rfl
  · rcases pass input s with ⟨result, s'⟩
    cases result with
    | ok _ => exact .inr ⟨s'.exited, rfl⟩
    | error _ => exact .inr ⟨true, rfl⟩

theorem step_sound (hsound : s.Sound) (hnew : NewDescriptor s input) :
    (s.step input).Sound := by
  rcases step_cases s input with hstep | ⟨exited, hstep⟩
  · rw [hstep]
    exact hsound
  · have hpass := pass_sound hsound hnew
    rw [hstep]
    exact ⟨hpass.distinct, hpass.slot⟩

theorem step_follows (hsound : s.Sound)
    (hafter : (s.step input).Connected c) : Follows c s (s.step input) := by
  rcases step_cases s input with hstep | ⟨exited, hstep⟩
  · rw [hstep]
    exact Follows.refl c s
  · rw [hstep] at hafter ⊢
    exact pass_follows hsound hafter

theorem run_sound {inputs : List IrInput} (hsound : s.Sound)
    (hnew : Throughout NewDescriptor s inputs) : (s.run inputs).Sound := by
  induction inputs generalizing s with
  | nil => exact hsound
  | cons input rest ih => exact ih (step_sound hsound hnew.1) hnew.2

theorem StaysConnected.connected {inputs : List IrInput}
    (hstays : StaysConnected c s inputs) : s.Connected c := by
  cases inputs with
  | nil => exact hstays
  | cons input rest => exact hstays.1

theorem run_follows {inputs : List IrInput} (hsound : s.Sound)
    (hnew : Throughout NewDescriptor s inputs)
    (hstays : StaysConnected c s inputs) : Follows c s (s.run inputs) := by
  induction inputs generalizing s with
  | nil => exact Follows.refl c s
  | cons input rest ih =>
      have hfirst := step_follows hsound hstays.2.connected
      exact hfirst.trans (ih (step_sound hsound hnew.1) hnew.2 hstays.2)

theorem run_append (s : IrServer) (before inputs : List IrInput) :
    s.run (before ++ inputs) = (s.run before).run inputs :=
  List.foldl_append

theorem Throughout.append {P : IrServer → IrInput → Prop}
    {before inputs : List IrInput} (h : Throughout P s (before ++ inputs)) :
    Throughout P s before ∧ Throughout P (s.run before) inputs := by
  induction before generalizing s with
  | nil => exact ⟨trivial, h⟩
  | cons input rest ih =>
      obtain ⟨hrest, hinputs⟩ := ih h.2
      exact ⟨⟨h.1, hrest⟩, hinputs⟩

theorem Throughout.join {P : IrServer → IrInput → Prop}
    {before inputs : List IrInput} (hbefore : Throughout P s before)
    (hinputs : Throughout P (s.run before) inputs) :
    Throughout P s (before ++ inputs) := by
  induction before generalizing s with
  | nil => exact hinputs
  | cons input rest ih => exact ⟨hbefore.1, ih hbefore.2 hinputs⟩

theorem deliveredIn_eq_readsIn {inputs : List IrInput}
    (h : Follows c s (s.run inputs)) :
    deliveredIn c s inputs = readsIn s inputs := by
  obtain ⟨new, hreads, hdeliveries⟩ := h
  rw [deliveredIn, readsIn, hreads, hdeliveries, List.drop_left,
    List.drop_left]

/-- Clients that stay connected receive every buffer read in the meantime,
in the order of the reads. -/
theorem total_order_broadcast {listening a b : Fd}
    {before inputs : List IrInput}
    (hnew : Throughout NewDescriptor (start listening) (before ++ inputs))
    (ha : StaysConnected a ((start listening).run before) inputs)
    (hb : StaysConnected b ((start listening).run before) inputs) :
    let s := (start listening).run before
    deliveredIn a s inputs = readsIn s inputs ∧
      deliveredIn b s inputs = readsIn s inputs ∧
      (deliveredIn a s inputs).flatten = (deliveredIn b s inputs).flatten := by
  obtain ⟨hbefore, hduring⟩ := hnew.append
  have hsound := run_sound (sound_start listening) hbefore
  have hfirst := deliveredIn_eq_readsIn (run_follows hsound hduring ha)
  have hsecond := deliveredIn_eq_readsIn (run_follows hsound hduring hb)
  exact ⟨hfirst, hsecond, by rw [hfirst, hsecond]⟩

section Idle

/-- Nothing happens. -/
def idle : IrInput := ⟨fun _ => false, none, none, fun _ => true⟩

theorem step_idle (hrunning : s.exited = false) (hslot : s.slot < MAX_CLIENTS)
    (hquiet : s.isReady s.slot = false) :
    s.step idle = { s with slot := s.slot + 1 } := by
  have hready : ({ s with slot := s.slot + 1 } : IrServer).isReady s.slot =
      false := hquiet
  have hpass : pass idle s = (.ok (), { s with slot := s.slot + 1 }) := by
    simp only [pass, gets_bind, hslot, if_true, change_bind, hready,
      Bool.false_eq_true, if_false]
    rfl
  rw [step, if_neg (by simp [hrunning]), hpass]

/-- The read loop passes over slots that are not ready. -/
theorem run_idle (n : ℕ) (hrunning : s.exited = false) (hpos : 1 ≤ s.slot)
    (hslot : s.slot + n ≤ MAX_CLIENTS)
    (hquiet : ∀ i ∈ clientSlots, s.isReady i = false) :
    s.run (List.replicate n idle) = { s with slot := s.slot + n } := by
  induction n generalizing s with
  | zero => rfl
  | succ n ih =>
      have hlt : s.slot < MAX_CLIENTS := by omega
      have hfirst := step_idle hrunning hlt
        (hquiet s.slot (mem_clientSlots.mpr ⟨hpos, hlt⟩))
      rw [List.replicate_succ, run, List.foldl_cons, hfirst]
      have hrest : ({ s with slot := s.slot + 1 } : IrServer).run
          (List.replicate n idle) =
            { s with slot := s.slot + 1 + n } :=
        ih hrunning (Nat.le_add_left 1 s.slot) (by simp only; omega) hquiet
      rw [run] at hrest
      rw [hrest, Nat.add_assoc, Nat.add_comm 1 n]

theorem throughout_idle (n : ℕ) (s : IrServer) :
    Throughout NewDescriptor s (List.replicate n idle) := by
  induction n generalizing s with
  | zero => exact trivial
  | succ n ih => exact ⟨(fun _ hfd => nomatch hfd), ih (s.step idle)⟩

end Idle

/-- A client connects. -/
def connect (fd : Fd) : IrInput :=
  { idle with ready := fun other => other = 3, accept := some fd }

/-- Two clients connect, then the first one sends. -/
def twoClients : List IrInput :=
  (connect 4 :: List.replicate 999 idle) ++
    ((connect 5 :: List.replicate 999 idle) ++
      [{ idle with ready := fun fd => fd = 4 }])

/-- The server between the connections, and when the first client sends. -/
def oneConnected : IrServer :=
  { (start 3).step (connect 4) with slot := MAX_CLIENTS }

def sending : IrServer :=
  IrServer.step { oneConnected.step (connect 5) with slot := MAX_CLIENTS }
    { idle with ready := fun fd => fd = 4 }

theorem run_oneConnected :
    (start 3).run (connect 4 :: List.replicate 999 idle) = oneConnected := by
  rw [run, List.foldl_cons]
  exact run_idle 999 (by decide +kernel) (by decide +kernel)
    (by decide +kernel) (by decide +kernel)

theorem run_bothConnected :
    oneConnected.run (connect 5 :: List.replicate 999 idle) =
      { oneConnected.step (connect 5) with slot := MAX_CLIENTS } := by
  rw [run, List.foldl_cons]
  exact run_idle 999 (by decide +kernel) (by decide +kernel)
    (by decide +kernel) (by decide +kernel)

theorem run_twoClients : (start 3).run twoClients = sending := by
  rw [twoClients, run_append, run_oneConnected, run_append, run_bothConnected]
  rfl

theorem twoClients_newDescriptor :
    Throughout NewDescriptor (start 3)
      (twoClients ++ [{ idle with read := some [7] }]) := by
  rw [twoClients, List.append_assoc, List.append_assoc]
  apply Throughout.join
  · exact ⟨by decide +kernel, throughout_idle 999 _⟩
  rw [run_oneConnected]
  apply Throughout.join
  · exact ⟨by decide +kernel, throughout_idle 999 _⟩
  exact ⟨(fun _ hfd => nomatch hfd), (fun _ hfd => nomatch hfd), trivial⟩

theorem total_order_broadcast_two_clients :
    deliveredIn 4 ((start 3).run twoClients) [{ idle with read := some [7] }] =
        [[7]] ∧
      deliveredIn 5 ((start 3).run twoClients)
        [{ idle with read := some [7] }] = [[7]] := by
  have hreads : readsIn sending [{ idle with read := some [7] }] = [[7]] := by
    decide +kernel
  have hfirst : StaysConnected 4 ((start 3).run twoClients)
      [{ idle with read := some [7] }] := by
    rw [run_twoClients]
    decide +kernel
  have hsecond : StaysConnected 5 ((start 3).run twoClients)
      [{ idle with read := some [7] }] := by
    rw [run_twoClients]
    decide +kernel
  obtain ⟨ha, hb, -⟩ :=
    total_order_broadcast twoClients_newDescriptor hfirst hsecond
  rw [ha, hb, run_twoClients, hreads]
  exact ⟨rfl, rfl⟩

end Runs

end IrServer

end BrickEmu
