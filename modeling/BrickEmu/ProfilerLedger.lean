import BrickEmu.Frame
import Mathlib.Data.BitVec

/-!
# The books of the profiler

Beside the accounts of `frame.c` a ledger keeps, for every open frame, the
cycles spent in other threads and the local cycles credited to the frames
begun inside it.  When a frame ends, the two agree: what passed between its
begin and its end outside the other threads has been credited as local cycles
to it and to the frames inside.
-/

namespace BrickEmu

/-- The calls of `frame.c` with what they read from the processor. -/
inductive FrameEvent where
  | start (pc fp : Word) (inIrq : Bool)
  | finish (memory : ℕ → Byte) (fp : Word)
  | switch (pc oldframe newframe : Word)

/-- The state after `frame_init`. -/
def frameInit : Frames :=
  ⟨fun _ => ⟨0, 0, 0, 0, emptyFrame, []⟩, 0, hashInit 5, none, fun _ => none⟩

/-- The frame that `frame_end` takes from the current thread. -/
def Frames.ended (cycles : CycleCount) (memory : ℕ → Byte) (fp : Word)
    (frames : Frames) : FrameInfo :=
  match frames.stack with
  | some thread => (thread.unwound cycles memory fp).top
  | none => emptyFrame

/-- The local cycles of a finished frame. -/
def FrameInfo.loc (frame : FrameInfo) (cycles : CycleCount) : CycleCount :=
  frame.total cycles - frame.childcycles

section Ledger

/-- An open frame: when it was begun, the cycles spent in other threads and
the local cycles credited inside it since then, and whether every frame begun
inside it has a frame pointer. -/
structure Account where
  fp : Word
  start : ℕ
  away : ℕ
  credited : ℕ
  regular : Bool
  deriving DecidableEq

/-- The open frames of every thread, the innermost one first. -/
structure Ledger where
  now : ℕ
  accounts : ℕ → List Account

/-- The time passes for the current thread; the others are away. -/
def Ledger.elapse (current : Option ℕ) (cycles : ℕ) (ledger : Ledger) :
    Ledger where
  now := cycles
  accounts id :=
    if current = some id then ledger.accounts id
    else (ledger.accounts id).map fun account =>
      { account with away := account.away + (cycles - ledger.now) }

def Ledger.start (id : ℕ) (fp : Word) (ledger : Ledger) : Ledger :=
  { ledger with
    accounts := Function.update ledger.accounts id
      (⟨fp, ledger.now, 0, 0, true⟩ ::
        (ledger.accounts id).map fun account =>
          { account with regular := account.regular && fp ≠ 0 }) }

def Ledger.finish (id : ℕ) (loc : ℕ) (ledger : Ledger) : Ledger :=
  { ledger with
    accounts := Function.update ledger.accounts id
      ((ledger.accounts id).tail.map fun account =>
        { account with credited := account.credited + loc }) }

end Ledger

/-- The profiler and the ledger. -/
structure Profiled where
  frames : Frames
  ledger : Ledger

namespace Profiled

def init : Profiled :=
  ⟨frameInit, ⟨0, fun _ => []⟩⟩

def step (s : Profiled) (cycles : CycleCount) : FrameEvent → Profiled
  | .start pc fp inIrq =>
      let ledger := s.ledger.elapse s.frames.current cycles.toNat
      ⟨frameBegin cycles pc fp inIrq s.frames,
        match s.frames.current with
        | some id => ledger.start id fp
        | none => ledger⟩
  | .finish memory fp =>
      let ledger := s.ledger.elapse s.frames.current cycles.toNat
      ⟨frameEnd cycles memory fp s.frames,
        match s.frames.current with
        | some id =>
            ledger.finish id
              ((s.frames.ended cycles memory fp).loc cycles).toNat
        | none => ledger⟩
  | .switch pc oldframe newframe =>
      ⟨frameSwitch cycles pc oldframe newframe s.frames,
        s.ledger.elapse s.frames.current cycles.toNat⟩

def run (s : Profiled) (trace : List (CycleCount × FrameEvent)) : Profiled :=
  trace.foldl (fun s entry => s.step entry.1 entry.2) s

/-- The innermost open frame of the current thread. -/
def innermost (s : Profiled) : Option Account :=
  s.frames.current.bind fun id => (s.ledger.accounts id).head?

/-- The cycle count does not go back, and `frame_end` comes with the frame
pointer of the innermost open frame. -/
def Admits (s : Profiled) (cycles : CycleCount) (event : FrameEvent) : Prop :=
  s.ledger.now ≤ cycles.toNat ∧
    match event with
    | .finish _ fp => ∀ account ∈ s.innermost, account.fp = fp
    | _ => True

def WellNested : Profiled → List (CycleCount × FrameEvent) → Prop
  | _, [] => True
  | s, (cycles, event) :: trace =>
      s.Admits cycles event ∧ WellNested (s.step cycles event) trace

instance (s : Profiled) (cycles : CycleCount) :
    (event : FrameEvent) → Decidable (s.Admits cycles event)
  | .start _ _ _ | .switch _ _ _ =>
      inferInstanceAs (Decidable (_ ≤ _ ∧ True))
  | .finish _ fp =>
      inferInstanceAs
        (Decidable (_ ≤ _ ∧ ∀ account ∈ s.innermost, account.fp = fp))

instance decidableWellNested (s : Profiled) :
    (trace : List (CycleCount × FrameEvent)) → Decidable (s.WellNested trace)
  | [] => inferInstanceAs (Decidable True)
  | (cycles, event) :: trace =>
      have := decidableWellNested (s.step cycles event) trace
      inferInstanceAs (Decidable (s.Admits cycles event ∧ _))

end Profiled

section Books

/-- What an account owes: the frame is begun at `start`, and so much has been
accounted for. -/
def Account.settled (account : Account) : ℕ :=
  account.start + account.away + account.credited

/-- The frames of a thread agree with its accounts.  The cycles in other
threads and the credited ones of the frames above are handed down, with the
time up to which the frame above is settled. -/
inductive Agree :
    CycleCount → CycleCount → ℕ → List FrameInfo → List Account → Prop
  | bottom {thread credit : CycleCount} {limit : ℕ} {frame : FrameInfo}
      (hfp : frame.fp = 0) : Agree thread credit limit [frame] []
  | frame {thread credit : CycleCount} {limit : ℕ} {frame : FrameInfo}
      {below : List FrameInfo} {account : Account} {outer : List Account}
      (hfp : frame.fp = account.fp)
      (hstart : account.start = frame.startcycle.toNat)
      (haway : account.regular = true →
        BitVec.ofNat 64 account.away = thread + frame.threadcycles)
      (hcredited : account.regular = true →
        BitVec.ofNat 64 account.credited =
          credit + (frame.childcycles + frame.irqcycles))
      (hlimit : account.regular = true → account.settled ≤ limit)
      (hnext : ∀ next ∈ outer.head?, next.regular = true →
        account.regular = true ∧ account.fp ≠ 0)
      (hrest : Agree (thread + frame.threadcycles)
        (credit + (frame.childcycles + frame.irqcycles)) account.settled
        below outer) :
      Agree thread credit limit (frame :: below) (account :: outer)

namespace Agree

variable {thread credit : CycleCount} {limit : ℕ} {frames : List FrameInfo}
  {accounts : List Account}

/-- What changes all accounts alike keeps the link between neighbours. -/
theorem next_map {account : Account} {outer : List Account}
    (hnext : ∀ next ∈ outer.head?, next.regular = true →
      account.regular = true ∧ account.fp ≠ 0)
    {change : Account → Account} {mark : Bool}
    (hregular : ∀ a, (change a).regular = (a.regular && mark))
    (hfp : ∀ a, (change a).fp = a.fp) :
    ∀ next ∈ (outer.map change).head?, next.regular = true →
      (change account).regular = true ∧ (change account).fp ≠ 0 := by
  intro next hmem hreg
  cases outer with
  | nil => cases hmem
  | cons other outer =>
      cases hmem
      rw [hregular, Bool.and_eq_true] at hreg
      obtain ⟨hother, hne⟩ := hnext other rfl hreg.1
      rw [hregular, hfp, Bool.and_eq_true]
      exact ⟨⟨hother, hreg.2⟩, hne⟩

/-- Time in other threads is added to every account and to what is handed
down. -/
theorem away (h : Agree thread credit limit frames accounts) (n : ℕ) :
    Agree (thread + BitVec.ofNat 64 n) credit (limit + n) frames
      (accounts.map fun account =>
        { account with away := account.away + n }) := by
  induction h with
  | bottom hfp => exact .bottom hfp
  | @frame thread credit limit frame below account outer hfp hstart haway
      hcredited hlimit hnext _ ih =>
      have hthread : thread + BitVec.ofNat 64 n + frame.threadcycles =
          thread + frame.threadcycles + BitVec.ofNat 64 n := by
        ring
      have hsettled : Account.settled
          { account with away := account.away + n } =
            account.settled + n := by
        simp only [Account.settled]
        omega
      refine .frame hfp hstart (fun hreg => ?_) hcredited (fun hreg => ?_)
        (@next_map _ _ hnext _ true (fun _ => (Bool.and_true _).symm)
          fun _ => rfl) ?_
      · rw [hthread, ← haway hreg, BitVec.ofNat_add]
      · rw [hsettled]
        exact Nat.add_le_add_right (hlimit hreg) n
      · rw [hthread, hsettled]
        exact ih

/-- Local cycles credited to a frame above. -/
theorem credited (h : Agree thread credit limit frames accounts)
    (loc : CycleCount) :
    Agree thread (credit + loc) (limit + loc.toNat) frames
      (accounts.map fun account =>
        { account with credited := account.credited + loc.toNat }) := by
  induction h with
  | bottom hfp => exact .bottom hfp
  | @frame thread credit limit frame below account outer hfp hstart haway
      hcredited hlimit hnext _ ih =>
      have hcredit : credit + loc + (frame.childcycles + frame.irqcycles) =
          credit + (frame.childcycles + frame.irqcycles) + loc := by
        ring
      have hsettled : Account.settled
          { account with credited := account.credited + loc.toNat } =
            account.settled + loc.toNat := by
        simp only [Account.settled]
        omega
      refine .frame hfp hstart haway (fun hreg => ?_) (fun hreg => ?_)
        (@next_map _ _ hnext _ true (fun _ => (Bool.and_true _).symm)
          fun _ => rfl) ?_
      · rw [hcredit, ← hcredited hreg, BitVec.ofNat_add, BitVec.ofNat_toNat,
          BitVec.setWidth_eq]
      · rw [hsettled]
        exact Nat.add_le_add_right (hlimit hreg) loc.toNat
      · rw [hcredit, hsettled]
        exact ih

theorem mono (h : Agree thread credit limit frames accounts) {limit' : ℕ}
    (hle : limit ≤ limit') : Agree thread credit limit' frames accounts := by
  cases h with
  | bottom hfp => exact .bottom hfp
  | frame hfp hstart haway hcredited hlimit hnext hrest =>
      exact .frame hfp hstart haway hcredited
        (fun hreg => (hlimit hreg).trans hle) hnext hrest

/-- A frame without a frame pointer makes the accounts around it irregular. -/
theorem marked (h : Agree thread credit limit frames accounts) (mark : Bool) :
    Agree thread credit limit frames
      (accounts.map fun account =>
        { account with regular := account.regular && mark }) := by
  induction h with
  | bottom hfp => exact .bottom hfp
  | frame hfp hstart haway hcredited hlimit hnext _ ih =>
      exact .frame hfp hstart
        (fun hreg => haway (Bool.and_eq_true_iff.mp hreg).1)
        (fun hreg => hcredited (Bool.and_eq_true_iff.mp hreg).1)
        (fun hreg => hlimit (Bool.and_eq_true_iff.mp hreg).1)
        (next_map hnext (fun _ => rfl) fun _ => rfl) ih

/-- Around an irregular account nothing is promised. -/
theorem irregular (h : Agree thread credit limit frames accounts)
    (hhead : ∀ account ∈ accounts.head?, account.regular = false)
    (thread' credit' : CycleCount) (limit' : ℕ) :
    Agree thread' credit' limit' frames accounts := by
  induction h generalizing thread' credit' limit' with
  | bottom hfp => exact .bottom hfp
  | @frame thread credit limit frame below account outer hfp hstart haway
      hcredited hlimit hnext _ ih =>
      have hfalse : account.regular = false := hhead account rfl
      have hnever : ¬ account.regular = true := by simp [hfalse]
      refine .frame hfp hstart (fun hreg => absurd hreg hnever)
        (fun hreg => absurd hreg hnever) (fun hreg => absurd hreg hnever)
        hnext (ih ?_ _ _ _)
      intro next hmem
      by_contra hreg
      exact hnever (hnext next hmem (Bool.eq_true_of_not_eq_false hreg)).1

/-- The top frame takes over what was handed down to it. -/
theorem absorb {top top' : FrameInfo} {below : List FrameInfo}
    (h : Agree thread credit limit (top :: below) accounts)
    (hfp : top'.fp = top.fp) (hstart : top'.startcycle = top.startcycle)
    (hthread : top'.threadcycles = thread + top.threadcycles)
    (hcredit : top'.childcycles + top'.irqcycles =
      credit + (top.childcycles + top.irqcycles)) :
    Agree 0 0 limit (top' :: below) accounts := by
  cases h with
  | bottom hbottom => exact .bottom (hfp.trans hbottom)
  | frame hfp' hstart' haway hcredited hlimit hnext hrest =>
      refine .frame (hfp.trans hfp') ?_ (fun hreg => ?_) (fun hreg => ?_)
        hlimit hnext ?_
      · rw [hstart, hstart']
      · rw [haway hreg, hthread, zero_add]
      · rw [hcredited hreg, hcredit, zero_add]
      · rw [hthread, hcredit, zero_add, zero_add]
        exact hrest

/-- A call. -/
theorem started {fp : Word} {frame : FrameInfo}
    (h : Agree 0 0 limit frames accounts) (hfp : frame.fp = fp)
    (hstart : frame.startcycle.toNat = limit) (hchild : frame.childcycles = 0)
    (hirq : frame.irqcycles = 0) (hthread : frame.threadcycles = 0) :
    Agree 0 0 limit (frame :: frames)
      (⟨fp, limit, 0, 0, true⟩ :: accounts.map fun account =>
        { account with regular := account.regular && fp ≠ 0 }) := by
  refine .frame hfp hstart.symm (fun _ => ?_) (fun _ => ?_) (fun _ => le_rfl)
    ?_ ?_
  · rw [hthread]
    rfl
  · rw [hchild, hirq]
    rfl
  · intro next hmem hreg
    cases accounts with
    | nil => cases hmem
    | cons account outer =>
        cases hmem
        obtain ⟨-, hne⟩ := Bool.and_eq_true_iff.mp hreg
        exact ⟨rfl, by simpa using hne⟩
  · rw [hthread, hchild, hirq]
    exact h.marked (fp ≠ 0)

/-- The books of the frame that ends. -/
theorem balance {cycles : CycleCount} {top : FrameInfo}
    {below : List FrameInfo} {account : Account} {outer : List Account}
    (h : Agree 0 0 cycles.toNat (top :: below) (account :: outer))
    (hregular : account.regular = true) :
    cycles.toNat = account.settled + (top.loc cycles).toNat := by
  cases h with
  | frame hfp hstart haway hcredited hlimit hnext hrest =>
      have hle := hlimit hregular
      have hloc : top.loc cycles =
          BitVec.ofNat 64 (cycles.toNat - account.settled) := by
        have hcycles : cycles = BitVec.ofNat 64 account.settled +
            BitVec.ofNat 64 (cycles.toNat - account.settled) := by
          rw [← BitVec.ofNat_add, Nat.add_sub_cancel' hle,
            BitVec.ofNat_toNat, BitVec.setWidth_eq]
        have hsettled : BitVec.ofNat 64 account.settled =
            top.startcycle + top.threadcycles +
              (top.childcycles + top.irqcycles) := by
          rw [Account.settled, BitVec.ofNat_add, BitVec.ofNat_add,
            haway hregular, hcredited hregular, hstart, BitVec.ofNat_toNat,
            BitVec.setWidth_eq]
          ring
        have hleft : BitVec.ofNat 64 (cycles.toNat - account.settled) =
            cycles - BitVec.ofNat 64 account.settled :=
          eq_sub_of_add_eq' hcycles.symm
        rw [hleft, hsettled, FrameInfo.loc, FrameInfo.total]
        ring
      have hsmall : cycles.toNat - account.settled < 2 ^ 64 :=
        lt_of_le_of_lt (Nat.sub_le _ _) cycles.isLt
      rw [hloc, BitVec.toNat_ofNat, Nat.mod_eq_of_lt hsmall]
      omega

/-- The return of a call. -/
theorem finished {cycles : CycleCount} {top parent : FrameInfo}
    {rest : List FrameInfo} {account : Account} {outer : List Account}
    (h : Agree 0 0 cycles.toNat (top :: parent :: rest) (account :: outer)) :
    Agree 0 0 cycles.toNat (parent.afterReturn top cycles :: rest)
      (outer.map fun other =>
        { other with credited := other.credited + (top.loc cycles).toNat }) := by
  have hbalance := h.balance
  have hfp' : (parent.afterReturn top cycles).fp = parent.fp := by
    unfold FrameInfo.afterReturn
    split_ifs <;> rfl
  have hstart' : (parent.afterReturn top cycles).startcycle =
      parent.startcycle := by
    unfold FrameInfo.afterReturn
    split_ifs <;> rfl
  cases h with
  | frame hfp hstart haway hcredited hlimit hnext hrest =>
      have hcredited := hrest.credited (top.loc cycles)
      by_cases hregular : ∃ next ∈ outer.head?, next.regular = true
      · obtain ⟨next, hmem, hreg⟩ := hregular
        obtain ⟨haccount, hne⟩ := hnext next hmem hreg
        have htop : ¬ top.fp = 0 := hfp ▸ hne
        have hsettled : account.settled + (top.loc cycles).toNat ≤
            cycles.toNat := (hbalance haccount).ge
        apply (hcredited.mono hsettled).absorb hfp' hstart'
        · simp only [FrameInfo.afterReturn, if_neg htop]
          split_ifs <;> ring
        · simp only [FrameInfo.afterReturn, if_neg htop, FrameInfo.loc]
          split_ifs <;> ring
      · have hhead : ∀ next ∈ (outer.map fun other => { other with
            credited := other.credited + (top.loc cycles).toNat }).head?,
            next.regular = false := by
          intro next hmem
          cases outer with
          | nil => cases hmem
          | cons other outer =>
              cases hmem
              rw [Bool.eq_false_iff]
              intro hreg
              exact hregular ⟨other, rfl, hreg⟩
        apply (hcredited.irregular hhead
          ((parent.afterReturn top cycles).threadcycles - parent.threadcycles)
          ((parent.afterReturn top cycles).childcycles +
            (parent.afterReturn top cycles).irqcycles -
              (parent.childcycles + parent.irqcycles))
          cycles.toNat).absorb hfp' hstart'
        · ring
        · ring

end Agree

end Books

namespace Hash

variable {α : Type*} {P : α → Prop} {hash : Hash α}

/-- Every element of the table has the property. -/
def All (P : α → Prop) (hash : Hash α) : Prop :=
  ∀ idx, ∀ entry ∈ hash.list idx, P entry.2

theorem hashGet_push (hash : Hash α) (key : ℕ) (elem : α) :
    hashGet (hash.push key elem) key = some elem := by
  simp [hashGet, push]

theorem All.get (h : hash.All P) {key : ℕ} {elem : α}
    (hget : hashGet hash key = some elem) : P elem := by
  obtain ⟨entry, hfind, rfl⟩ := Option.map_eq_some_iff.mp hget
  exact h _ entry (List.mem_of_find?_eq_some hfind)

theorem All.push (h : hash.All P) (key : ℕ) {elem : α} (helem : P elem) :
    (hash.push key elem).All P := by
  intro idx entry hmem
  by_cases hidx : idx = key % hash.size
  · subst hidx
    simp only [Hash.push, Function.update_self, List.mem_cons] at hmem
    rcases hmem with rfl | hmem
    · exact helem
    · exact h _ entry hmem
  · simp only [Hash.push, Function.update_of_ne hidx] at hmem
    exact h _ entry hmem

theorem All.unlink (h : hash.All P) (key : ℕ) : (hash.unlink key).All P := by
  intro idx entry hmem
  by_cases hidx : idx = key % hash.size
  · subst hidx
    simp only [Hash.unlink, Function.update_self] at hmem
    exact h _ entry (List.mem_of_mem_eraseP hmem)
  · simp only [Hash.unlink, Function.update_of_ne hidx] at hmem
    exact h _ entry hmem

theorem All.move (h : hash.All P) (key newkey : ℕ) :
    (hashMove hash key newkey).2.All P := by
  unfold hashMove
  cases hget : hashGet hash key with
  | none => exact h
  | some elem => exact (h.unlink key).push newkey (h.get hget)

theorem All.grow (h : hash.All P) : (hashGrow hash).All P := by
  have hfold : ∀ entries : List (ℕ × α), ∀ start : Hash α, start.All P →
      (∀ entry ∈ entries, P entry.2) →
        (entries.foldl (fun hash entry => hash.push entry.1 entry.2)
          start).All P := by
    intro entries
    induction entries with
    | nil => exact fun _ hstart _ => hstart
    | cons entry entries ih =>
        intro start hstart hentries
        apply ih _ (hstart.push entry.1 (hentries entry (by simp)))
        exact fun other hmem => hentries other (by simp [hmem])
  apply hfold
  · intro idx entry hmem
    cases hmem
  · intro entry hmem
    obtain ⟨idx, -, hentry⟩ := List.mem_flatMap.mp hmem
    exact h idx entry hentry

theorem All.create (h : hash.All P) (key : ℕ) {elem : α} (helem : P elem) :
    (hashCreate hash key elem).All P := by
  unfold hashCreate
  apply All.push _ key helem
  split_ifs
  · exact h.grow
  · exact h

theorem All.mono {Q : α → Prop} (h : hash.All P) (himp : ∀ a, P a → Q a) :
    hash.All Q :=
  fun idx entry hmem => himp _ (h idx entry hmem)

theorem hashGet_create (hash : Hash α) (key : ℕ) (elem : α) :
    hashGet (hashCreate hash key elem) key = some elem :=
  hashGet_push _ key elem

theorem hashGet_move {key newkey : ℕ} {elem : α}
    (hfound : (hashMove hash key newkey).1 = some elem) :
    hashGet (hashMove hash key newkey).2 newkey = some elem := by
  unfold hashMove at hfound ⊢
  cases hget : hashGet hash key with
  | none =>
      rw [hget] at hfound
      cases hfound
  | some found =>
      rw [hget] at hfound
      cases hfound
      exact hashGet_push _ newkey elem

theorem All.found (h : hash.All P) {key newkey : ℕ} {elem : α}
    (hfound : (hashMove hash key newkey).1 = some elem) : P elem := by
  unfold hashMove at hfound
  cases hget : hashGet hash key with
  | none =>
      rw [hget] at hfound
      cases hfound
  | some found =>
      rw [hget] at hfound
      cases hfound
      exact h.get hget

end Hash

namespace Profiled

/-- The current thread is the first entry under key 0, and the books of every
thread agree.  A suspended thread is away since its last switch. -/
structure Sound (s : Profiled) : Prop where
  entered : ∀ id ∈ s.frames.current, hashGet s.frames.threads 0 = some id
  known : s.frames.threads.All (· < s.frames.allocated)
  running : ∀ id ∈ s.frames.current, id < s.frames.allocated
  fresh : ∀ id, s.frames.allocated ≤ id → s.ledger.accounts id = []
  books : ∀ id, Agree
    (if s.frames.current = some id then 0
      else BitVec.ofNat 64 s.ledger.now - (s.frames.heap id).switchcycle)
    0 s.ledger.now (s.frames.heap id).frames (s.ledger.accounts id)

variable {s : Profiled}

theorem sound_init : init.Sound where
  entered id hid := by cases hid
  known idx entry hmem := by cases hmem
  running id hid := by cases hid
  fresh _ _ := rfl
  books _ := .bottom rfl

theorem Sound.elapse (h : s.Sound) {cycles : ℕ} (hle : s.ledger.now ≤ cycles) :
    Sound ⟨s.frames, s.ledger.elapse s.frames.current cycles⟩ where
  entered := h.entered
  known := h.known
  running := h.running
  fresh id hid := by
    simp [Ledger.elapse, h.fresh id hid]
  books id := by
    have hbooks := h.books id
    by_cases hcurrent : s.frames.current = some id
    · rw [if_pos hcurrent] at hbooks
      simp only [Ledger.elapse, if_pos hcurrent]
      exact hbooks.mono hle
    · rw [if_neg hcurrent] at hbooks
      simp only [Ledger.elapse, if_neg hcurrent]
      have haway := hbooks.away (cycles - s.ledger.now)
      have htime : BitVec.ofNat 64 s.ledger.now -
          (s.frames.heap id).switchcycle +
            BitVec.ofNat 64 (cycles - s.ledger.now) =
          BitVec.ofNat 64 cycles - (s.frames.heap id).switchcycle := by
        have hsum : BitVec.ofNat 64 cycles = BitVec.ofNat 64 s.ledger.now +
            BitVec.ofNat 64 (cycles - s.ledger.now) := by
          rw [← BitVec.ofNat_add, Nat.add_sub_cancel' hle]
        rw [hsum]
        ring
      rw [htime, Nat.add_sub_cancel' hle] at haway
      exact haway

section Threads

variable {frames frames' : Frames} {ledger : Ledger} {id : ℕ}

/-- Only the frames of one thread, and perhaps the profiles, are new. -/
structure Replaced (id : ℕ) (thread : ThreadInfo) (frames frames' : Frames) :
    Prop where
  heap : frames'.heap = Function.update frames.heap id thread
  allocated : frames'.allocated = frames.allocated
  threads : frames'.threads = frames.threads
  current : frames'.current = frames.current

theorem Replaced.createProfile {thread : ThreadInfo}
    (h : Replaced id thread frames frames') (entry : Word) :
    Replaced id thread frames (frames'.createProfile entry) := by
  unfold Frames.createProfile
  split
  · exact h
  · exact ⟨h.heap, h.allocated, h.threads, h.current⟩

theorem Replaced.modifyProfile {thread : ThreadInfo}
    (h : Replaced id thread frames frames') (entry : Word)
    (change : ProfileInfo → ProfileInfo) :
    Replaced id thread frames (frames'.modifyProfile entry change) :=
  ⟨h.heap, h.allocated, h.threads, h.current⟩

theorem Sound.replace (h : Sound ⟨frames, ledger⟩) {thread : ThreadInfo}
    (hcurrent : frames.current = some id)
    (hreplaced : Replaced id thread frames frames') {accounts : List Account}
    (hbooks : Agree 0 0 ledger.now thread.frames accounts) :
    Sound ⟨frames', { ledger with
      accounts := Function.update ledger.accounts id accounts }⟩ where
  entered other hother := by
    rw [hreplaced.current] at hother
    rw [hreplaced.threads]
    exact h.entered other hother
  known := by
    rw [hreplaced.threads, hreplaced.allocated]
    exact h.known
  running other hother := by
    rw [hreplaced.current] at hother
    rw [hreplaced.allocated]
    exact h.running other hother
  fresh other hother := by
    rw [hreplaced.allocated] at hother
    have hid : id < frames.allocated := h.running id hcurrent
    have hne : other ≠ id := by omega
    simp only [Function.update_of_ne hne]
    exact h.fresh other hother
  books other := by
    simp only [hreplaced.current, hreplaced.heap]
    by_cases hother : other = id
    · subst hother
      rw [Function.update_self, Function.update_self, if_pos hcurrent]
      exact hbooks
    · rw [Function.update_of_ne hother, Function.update_of_ne hother]
      exact h.books other

theorem replaced_modifyThread (frames : Frames) (id : ℕ)
    (change : ThreadInfo → ThreadInfo) :
    Replaced id (change (frames.heap id)) frames
      (frames.modifyThread id change) :=
  ⟨rfl, rfl, rfl, rfl⟩

theorem Replaced.modifyThread {thread : ThreadInfo}
    (h : Replaced id thread frames frames') (change : ThreadInfo → ThreadInfo) :
    Replaced id (change thread) frames (frames'.modifyThread id change) where
  heap := by
    simp [Frames.modifyThread, h.heap]
  allocated := h.allocated
  threads := h.threads
  current := h.current

/-- `frame_grow_num_frames` finds the current thread again. -/
theorem replaced_grow {thread : ThreadInfo}
    (h : Replaced id thread frames frames') (hcurrent : frames.current = some id)
    (hentered : hashGet frames.threads 0 = some id) :
    (frameGrowNumFrames id frames').1 = id ∧
      ∃ grown, Replaced id grown frames (frameGrowNumFrames id frames').2 ∧
        grown.below = thread.frames ∧ thread.sizeFrames ≤ grown.sizeFrames ∧
        (thread.numFrames < thread.sizeFrames →
          grown.numFrames < grown.sizeFrames) := by
  have hpushed := h.modifyThread fun thread =>
    { thread with top := emptyFrame, below := thread.frames }
  have hthread : (frames'.modifyThread id fun thread =>
      { thread with top := emptyFrame, below := thread.frames }).heap id =
        { thread with top := emptyFrame, below := thread.frames } := by
    rw [hpushed.heap, Function.update_self]
  have hlength : thread.frames.length = thread.numFrames + 1 := rfl
  simp only [frameGrowNumFrames, hthread]
  split_ifs with hfull
  · have hrealloc : hashRealloc frames'.threads 0 id = (id, frames'.threads) := by
      rw [h.threads, hashRealloc, hentered]
    have hgrown := hpushed.modifyThread fun thread =>
      { thread with sizeFrames := thread.sizeFrames + 10 }
    simp only [Frames.modifyThread] at hgrown ⊢
    rw [hrealloc]
    refine ⟨rfl, _, ⟨hgrown.heap, hgrown.allocated, hgrown.threads, ?_⟩, rfl,
      Nat.le_add_right _ 10, fun hlt => ?_⟩
    · exact hcurrent.symm
    · simp only [ThreadInfo.numFrames, hlength] at hlt ⊢
      omega
  · exact ⟨rfl, _, hpushed, rfl, le_rfl, fun _ => not_le.mp hfull⟩

theorem frameGrowNumFrames_profiles (id : ℕ) (frames : Frames) :
    (frameGrowNumFrames id frames).2.profiles = frames.profiles := by
  simp only [frameGrowNumFrames]
  split_ifs <;> rfl

/-- `frame_begin` puts a frame on the current thread and makes sure that the
caller has a profile entry. -/
theorem frameBegin_eq {cycles : CycleCount} {pc fp : Word} {inIrq : Bool}
    (hcurrent : frames.current = some id)
    (hentered : hashGet frames.threads 0 = some id) :
    ∃ thread started, frameBegin cycles pc fp inIrq frames =
        started.createProfile (frames.heap id).top.entry ∧
      started.profiles = frames.profiles ∧
      Replaced id thread frames started ∧
      thread.top = ⟨cycles, 0, 0, 0, pc ||| (if inIrq then 1 else 0), fp⟩ ∧
      thread.below = (frames.heap id).frames ∧
      (frames.heap id).sizeFrames ≤ thread.sizeFrames ∧
      ((frames.heap id).numFrames < (frames.heap id).sizeFrames →
        thread.numFrames < thread.sizeFrames) := by
  obtain ⟨lowered, hlowered⟩ : ∃ lowered, lowered =
      if fp < (frames.heap id).minfp then
        { frames.heap id with minfp := fp } else frames.heap id := ⟨_, rfl⟩
  have hframes : lowered.frames = (frames.heap id).frames := by
    rw [hlowered]
    split_ifs <;> rfl
  have hsize : lowered.sizeFrames = (frames.heap id).sizeFrames := by
    rw [hlowered]
    split_ifs <;> rfl
  have hnum : lowered.numFrames = (frames.heap id).numFrames := by
    rw [hlowered]
    split_ifs <;> rfl
  have hmin := replaced_modifyThread frames id fun thread =>
    if fp < thread.minfp then { thread with minfp := fp } else thread
  rw [← hlowered] at hmin
  obtain ⟨hid, grown, hgrown, hbelow, hlarger, hroom⟩ :=
    replaced_grow hmin hcurrent hentered
  rw [hsize] at hlarger hroom
  rw [hnum] at hroom
  have hprofiles := frameGrowNumFrames_profiles id (frames.modifyThread id
    fun thread => if fp < thread.minfp then { thread with minfp := fp }
      else thread)
  simp only [frameBegin, hcurrent]
  generalize pc ||| (if inIrq then 1 else 0) = mark
  generalize frameGrowNumFrames id (frames.modifyThread id fun thread =>
    if fp < thread.minfp then { thread with minfp := fp } else thread) = result
    at hid hgrown hprofiles
  obtain ⟨id', frames'⟩ := result
  obtain rfl : id' = id := hid
  have htop := hgrown.modifyThread fun thread => { thread with
    top := ⟨cycles, 0, 0, 0, mark, fp⟩ }
  refine ⟨{ grown with top := ⟨cycles, 0, 0, 0, mark, fp⟩ },
    frames'.modifyThread id' fun thread => { thread with
      top := ⟨cycles, 0, 0, 0, mark, fp⟩ }, ?_, hprofiles, htop, rfl,
    hbelow.trans hframes, hlarger, hroom⟩
  have hhead : ((frames'.modifyThread id' fun thread => { thread with
      top := ⟨cycles, 0, 0, 0, mark, fp⟩ }).heap id').below.head? =
        some (frames.heap id').top := by
    rw [htop.heap, Function.update_self]
    simp only [hbelow, hframes]
    rfl
  simp only [hhead]

theorem replaced_frameEnd {cycles : CycleCount} {memory : ℕ → Byte} {fp : Word}
    (hcurrent : frames.current = some id) :
    Replaced id (((frames.heap id).unwound cycles memory fp).returnTop cycles)
      frames (frameEnd cycles memory fp frames) := by
  have hreturned := replaced_modifyThread frames id fun _ =>
    ((frames.heap id).unwound cycles memory fp).returnTop cycles
  simp only [frameEnd, hcurrent]
  apply Replaced.modifyProfile
  apply Replaced.createProfile
  split
  · split_ifs
    · exact hreturned.modifyProfile _ _
    · exact hreturned
  · exact hreturned

/-- Without a frame that never returned, `frame_end` takes the top frame. -/
theorem unwound_of_not_lt {cycles : CycleCount} {memory : ℕ → Byte} {fp : Word}
    {thread : ThreadInfo} (hbelow : thread.below ≠ [])
    (hfp : ¬ (thread.top.fp ≠ 0 ∧ thread.top.fp < fp)) :
    thread.unwound cycles memory fp = thread := by
  have hparent : thread.ensureParent cycles memory fp = thread := by
    rw [ThreadInfo.ensureParent, if_neg]
    simpa [ThreadInfo.numFrames] using hbelow
  rw [ThreadInfo.unwound, hparent, frameDropUnreturned, if_neg hfp]

theorem unwound_bottom {cycles : CycleCount} {memory : ℕ → Byte} {fp : Word}
    {thread : ThreadInfo} (hbelow : thread.below = [])
    (hfp : thread.top.fp = 0) :
    thread.unwound cycles memory fp =
      frameInsertSubframe cycles memory fp thread := by
  have hparent : thread.ensureParent cycles memory fp =
      frameInsertSubframe cycles memory fp thread := by
    rw [ThreadInfo.ensureParent, if_pos]
    simp [ThreadInfo.numFrames, hbelow]
  have hstop : ¬ ((frameInsertSubframe cycles memory fp thread).top.fp ≠ 0 ∧
      (frameInsertSubframe cycles memory fp thread).top.fp < fp) := by
    intro hloop
    exact hloop.1 hfp
  rw [ThreadInfo.unwound, hparent, frameDropUnreturned, if_neg hstop]

end Threads

section Steps

variable {cycles : CycleCount}

theorem Sound.start (h : s.Sound) (hnow : s.ledger.now = cycles.toNat)
    {id : ℕ} (hcurrent : s.frames.current = some id) (pc fp : Word)
    (inIrq : Bool) :
    Sound ⟨frameBegin cycles pc fp inIrq s.frames, s.ledger.start id fp⟩ := by
  obtain ⟨thread, started, hbegin, -, hreplaced, htop, hbelow, -⟩ :=
    @frameBegin_eq s.frames id cycles pc fp inIrq hcurrent
      (h.entered id hcurrent)
  rw [hbegin]
  apply h.replace hcurrent (hreplaced.createProfile _)
  have hbooks := h.books id
  rw [if_pos hcurrent, ← hbelow] at hbooks
  rw [ThreadInfo.frames, htop]
  exact hbooks.started rfl hnow.symm rfl rfl rfl

/-- `frame_end` finds the innermost open frame on top. -/
theorem Sound.unwound (h : s.Sound) (hnow : s.ledger.now = cycles.toNat)
    {id : ℕ} (hcurrent : s.frames.current = some id) (memory : ℕ → Byte)
    {account : Account} {outer : List Account}
    (haccounts : s.ledger.accounts id = account :: outer) :
    (s.frames.heap id).unwound cycles memory account.fp = s.frames.heap id ∧
      ∃ parent rest, (s.frames.heap id).below = parent :: rest ∧
        Agree 0 0 cycles.toNat ((s.frames.heap id).top :: parent :: rest)
          (account :: outer) := by
  have hbooks := h.books id
  rw [if_pos hcurrent, hnow, haccounts] at hbooks
  generalize s.frames.heap id = thread at hbooks ⊢
  obtain ⟨savefp, minfp, switchcycle, sizeFrames, top, below⟩ := thread
  have htop : top.fp = account.fp := by
    cases hbooks with
    | frame hfp => exact hfp
  have hbelow : below ≠ [] := by
    rintro rfl
    cases hbooks with
    | frame _ _ _ _ _ _ hrest => cases hrest
  have hstop : ¬ (top.fp ≠ 0 ∧ top.fp < account.fp) := by
    rintro ⟨-, hlt⟩
    rw [htop] at hlt
    exact BitVec.lt_irrefl _ hlt
  obtain ⟨parent, rest, rfl⟩ := List.exists_cons_of_ne_nil hbelow
  exact ⟨unwound_of_not_lt hbelow hstop, parent, rest, rfl, hbooks⟩

theorem ended_eq {id : ℕ} (hcurrent : s.frames.current = some id)
    (memory : ℕ → Byte) (fp : Word) :
    s.frames.ended cycles memory fp =
      ((s.frames.heap id).unwound cycles memory fp).top := by
  simp [Frames.ended, Frames.stack, hcurrent]

theorem Sound.finish (h : s.Sound) (hnow : s.ledger.now = cycles.toNat)
    {id : ℕ} (hcurrent : s.frames.current = some id) (memory : ℕ → Byte)
    {fp : Word} (hnested : ∀ account ∈ s.innermost, account.fp = fp) :
    Sound ⟨frameEnd cycles memory fp s.frames, s.ledger.finish id
      ((s.frames.ended cycles memory fp).loc cycles).toNat⟩ := by
  apply h.replace hcurrent (replaced_frameEnd hcurrent)
  rw [ended_eq hcurrent, hnow]
  cases haccounts : s.ledger.accounts id with
  | nil =>
      have hbooks := h.books id
      rw [haccounts] at hbooks
      generalize s.frames.heap id = thread at hbooks ⊢
      obtain ⟨savefp, minfp, switchcycle, sizeFrames, top, below⟩ := thread
      cases hbooks with
      | bottom hfp =>
          have hbottom : top.fp = 0 := hfp
          rw [unwound_bottom rfl hfp]
          apply Agree.bottom
          simp [frameInsertSubframe, ThreadInfo.returnTop,
            FrameInfo.afterReturn, hbottom, emptyFrame]
  | cons account outer =>
      obtain rfl : account.fp = fp := by
        apply hnested account
        simp [innermost, hcurrent, haccounts]
      obtain ⟨hunwound, parent, rest, hbelow, hbooks⟩ :=
        h.unwound hnow hcurrent memory haccounts
      rw [hunwound, ThreadInfo.returnTop, hbelow]
      exact hbooks.finished

/-- The books while no thread runs. -/
structure Suspended (frames : Frames) (ledger : Ledger) : Prop where
  known : frames.threads.All (· < frames.allocated)
  fresh : ∀ id, frames.allocated ≤ id → ledger.accounts id = []
  books : ∀ id, Agree
    (BitVec.ofNat 64 ledger.now - (frames.heap id).switchcycle) 0 ledger.now
    (frames.heap id).frames (ledger.accounts id)

theorem Sound.suspend (h : s.Sound) (hnow : s.ledger.now = cycles.toNat)
    (oldframe : Word) :
    Suspended (s.frames.suspend cycles oldframe) s.ledger := by
  cases hcurrent : s.frames.current with
  | none =>
      simp only [Frames.suspend, hcurrent]
      refine ⟨h.known, h.fresh, fun id => ?_⟩
      have hbooks := h.books id
      rw [if_neg (by simp [hcurrent])] at hbooks
      exact hbooks
  | some id =>
      simp only [Frames.suspend, hcurrent]
      refine ⟨h.known.move 0 _, h.fresh, fun other => ?_⟩
      have hbooks := h.books other
      by_cases hother : other = id
      · subst hother
        rw [if_pos hcurrent] at hbooks
        have hzero : BitVec.ofNat 64 s.ledger.now - cycles = 0 := by
          rw [hnow, BitVec.ofNat_toNat, BitVec.setWidth_eq]
          exact sub_self cycles
        simp only [Frames.modifyThread, Function.update_self, hzero]
        exact hbooks
      · have hne : ¬ s.frames.current = some other := by
          rw [hcurrent]
          rintro ⟨⟩
          exact hother rfl
        rw [if_neg hne] at hbooks
        simp only [Frames.modifyThread, Function.update_of_ne hother]
        exact hbooks

/-- The thread that comes next takes the cycles it was away. -/
theorem Suspended.resume {frames : Frames} {ledger : Ledger}
    (h : Suspended frames ledger) (hnow : ledger.now = cycles.toNat)
    (pc newframe : Word) {id : ℕ}
    (hid : (frames.resume cycles pc newframe).current = some id) :
    Sound ⟨(frames.resume cycles pc newframe).modifyThread id fun thread =>
      { thread with
        top := { thread.top with
          threadcycles := thread.top.threadcycles +
            (cycles - thread.switchcycle) } }, ledger⟩ := by
  unfold Frames.resume at hid ⊢
  have hmoved := h.known.move newframe.toNat 0
  cases hfound : (hashMove frames.threads newframe.toNat 0).1 with
  | some found =>
      simp only [hfound, Option.some.injEq] at hid ⊢
      subst hid
      refine ⟨?_, hmoved, ?_, h.fresh, fun other => ?_⟩
      · rintro _ ⟨⟩
        exact Hash.hashGet_move hfound
      · rintro _ ⟨⟩
        exact h.known.found hfound
      · by_cases hother : other = found
        · subst hother
          simp only [Frames.modifyThread, Function.update_self, if_true]
          have hcycles : BitVec.ofNat 64 ledger.now = cycles := by
            rw [hnow, BitVec.ofNat_toNat, BitVec.setWidth_eq]
          have hback : Agree 0 0 ledger.now
              ({ (frames.heap other).top with
                threadcycles := (frames.heap other).top.threadcycles +
                  (cycles - (frames.heap other).switchcycle) } ::
                (frames.heap other).below) (ledger.accounts other) := by
            apply (h.books other).absorb
            · rfl
            · rfl
            · simp only [hcycles]
              ring
            · exact (zero_add _).symm
          exact hback
        · have hne : ¬ some found = some other := by
            rintro ⟨⟩
            exact hother rfl
          simp only [Frames.modifyThread, Function.update_of_ne hother,
            if_neg hne]
          exact h.books other
  | none =>
      simp only [hfound, Option.some.injEq] at hid ⊢
      subst hid
      refine ⟨?_, ?_, ?_, ?_, fun other => ?_⟩
      · rintro _ ⟨⟩
        exact Hash.hashGet_create _ 0 _
      · have hlater : Hash.All (· < frames.allocated + 1)
            (hashMove frames.threads newframe.toNat 0).2 :=
          hmoved.mono fun id hlt => Nat.lt_succ_of_lt hlt
        exact hlater.create 0 (Nat.lt_succ_self _)
      · rintro _ ⟨⟩
        exact Nat.lt_succ_self _
      · intro other hother
        exact h.fresh other (Nat.le_of_succ_le hother)
      · by_cases hother : other = frames.allocated
        · subst hother
          simp only [Frames.modifyThread, Function.update_self, if_true,
            h.fresh _ le_rfl]
          exact .bottom rfl
        · have hne : ¬ some frames.allocated = some other := by
            rintro ⟨⟩
            exact hother rfl
          simp only [Frames.modifyThread, Function.update_of_ne hother,
            if_neg hne]
          exact h.books other

theorem Sound.switch (h : s.Sound) (hnow : s.ledger.now = cycles.toNat)
    (pc oldframe newframe : Word) :
    Sound ⟨frameSwitch cycles pc oldframe newframe s.frames, s.ledger⟩ := by
  unfold frameSwitch
  split_ifs with hsame
  · exact h
  · obtain ⟨id, hid⟩ : ∃ id, ((s.frames.suspend cycles oldframe).resume cycles
        pc newframe).current = some id := by
      unfold Frames.resume
      cases hfound : (hashMove (s.frames.suspend cycles oldframe).threads
          newframe.toNat 0).1 with
      | some id => exact ⟨id, by simp [hfound]⟩
      | none => exact ⟨_, by simp [hfound]; rfl⟩
    simp only [hid]
    exact (h.suspend hnow oldframe).resume hnow pc newframe hid

theorem Sound.step (h : s.Sound) {event : FrameEvent}
    (hadmits : s.Admits cycles event) : (s.step cycles event).Sound := by
  obtain ⟨hle, hnested⟩ := hadmits
  have helapsed := h.elapse hle
  cases event with
  | start pc fp inIrq =>
      cases hcurrent : s.frames.current with
      | none =>
          simp only [Profiled.step, frameBegin, hcurrent] at helapsed ⊢
          exact helapsed
      | some id =>
          have hstart := helapsed.start rfl hcurrent pc fp inIrq
          simpa only [Profiled.step, hcurrent] using hstart
  | finish memory fp =>
      cases hcurrent : s.frames.current with
      | none =>
          simp only [Profiled.step, frameEnd, hcurrent] at helapsed ⊢
          exact helapsed
      | some id =>
          have hsame : Profiled.innermost
              ⟨s.frames, s.ledger.elapse s.frames.current cycles.toNat⟩ =
                s.innermost := by
            simp [innermost, Ledger.elapse, hcurrent]
          have hfinish := helapsed.finish rfl hcurrent memory
            (hsame ▸ hnested)
          simpa only [Profiled.step, hcurrent] using hfinish
  | switch pc oldframe newframe =>
      exact helapsed.switch rfl pc oldframe newframe

end Steps

theorem Sound.run (h : s.Sound) {trace : List (CycleCount × FrameEvent)}
    (hnested : s.WellNested trace) : (s.run trace).Sound := by
  induction trace generalizing s with
  | nil => exact h
  | cons entry trace ih => exact ih (h.step hnested.1) hnested.2

theorem WellNested.split {before after : List (CycleCount × FrameEvent)}
    {cycles : CycleCount} {event : FrameEvent}
    (h : s.WellNested (before ++ (cycles, event) :: after)) :
    s.WellNested before ∧ (s.run before).Admits cycles event := by
  induction before generalizing s with
  | nil => exact ⟨trivial, h.1⟩
  | cons entry before ih =>
      obtain ⟨hfirst, hrest⟩ := ih h.2
      exact ⟨⟨h.1, hfirst⟩, hrest⟩

theorem Sound.balance (h : s.Sound) {cycles : CycleCount}
    (hle : s.ledger.now ≤ cycles.toNat) {account : Account}
    (hopen : account ∈ s.innermost) (hregular : account.regular = true)
    (memory : ℕ → Byte) :
    cycles.toNat = account.settled +
      ((s.frames.ended cycles memory account.fp).loc cycles).toNat := by
  obtain ⟨id, hcurrent, hhead⟩ := Option.bind_eq_some_iff.mp hopen
  obtain ⟨outer, haccounts⟩ : ∃ outer,
      s.ledger.accounts id = account :: outer := by
    cases hlist : s.ledger.accounts id with
    | nil =>
        rw [hlist] at hhead
        cases hhead
    | cons head outer =>
        rw [hlist] at hhead
        cases hhead
        exact ⟨outer, rfl⟩
  have hsame : (s.ledger.elapse s.frames.current cycles.toNat).accounts id =
      account :: outer := by
    simp [Ledger.elapse, hcurrent, haccounts]
  obtain ⟨hunwound, parent, rest, -, hbooks⟩ :=
    (h.elapse hle).unwound rfl hcurrent memory hsame
  rw [ended_eq hcurrent, hunwound]
  exact hbooks.balance hregular

section Profiles

variable {frames : Frames}

theorem profiles_create_modify (frames : Frames) (entry : Word)
    (change : ProfileInfo → ProfileInfo) :
    ((frames.createProfile entry).modifyProfile entry change).profiles entry =
      some (change ((frames.profiles entry).getD emptyProfile)) := by
  unfold Frames.createProfile
  cases hentry : frames.profiles entry with
  | none => simp [Frames.modifyProfile]
  | some prof => simp [Frames.modifyProfile, hentry]

/-- `frame_end` credits the local cycles to the function of the frame. -/
theorem frameEnd_credits {id : ℕ} (hcurrent : frames.current = some id)
    (cycles : CycleCount) (memory : ℕ → Byte) (fp : Word) :
    ((frameEnd cycles memory fp frames).profiles
        (frames.ended cycles memory fp).entry).map ProfileInfo.localCycles =
      some (((frames.profiles (frames.ended cycles memory fp).entry).getD
        emptyProfile).localCycles +
          (frames.ended cycles memory fp).loc cycles) := by
  have hended : frames.ended cycles memory fp =
      ((frames.heap id).unwound cycles memory fp).top := by
    simp [Frames.ended, Frames.stack, hcurrent]
  rw [hended]
  simp only [frameEnd, hcurrent]
  generalize (frames.heap id).unwound cycles memory fp = thread
  rw [profiles_create_modify]
  simp only [Option.map_some, ProfileInfo.record, Option.some.injEq]
  congr 1
  split
  · next parent _ =>
      split_ifs
      · simp only [Frames.modifyProfile, Frames.modifyThread]
        by_cases hsame : thread.top.entry = parent.entry
        · rw [hsame, Function.update_self]
          cases frames.profiles parent.entry <;> rfl
        · rw [Function.update_of_ne hsame]
      · rfl
  · rfl

end Profiles

/-- When a frame ends in a well nested trace, the cycles since its begin
outside the other threads are the local cycles credited to it and to the
frames begun inside it, unless one of these had no frame pointer. -/
theorem loses_no_cycles (before after : List (CycleCount × FrameEvent))
    (cycles : CycleCount) (memory : ℕ → Byte) (fp : Word)
    (hnested : init.WellNested
      (before ++ (cycles, .finish memory fp) :: after))
    (account : Account) (hopen : account ∈ (init.run before).innermost)
    (hregular : account.regular = true) :
    cycles.toNat - account.start - account.away =
      account.credited +
        (((init.run before).frames.ended cycles memory fp).loc
          cycles).toNat := by
  obtain ⟨hbefore, hle, hfp⟩ := hnested.split
  obtain rfl : account.fp = fp := hfp account hopen
  have hbalance := (sound_init.run hbefore).balance hle hopen hregular memory
  rw [Account.settled] at hbalance
  omega

/-- A call with an interrupt and a switch to another thread inside. -/
def callTrace (irqFp : Word) : List (CycleCount × FrameEvent) :=
  [(0, .switch 0x100 0 0xff00), (10, .start 0x200 0xfefe false),
    (20, .start 0x300 irqFp true), (25, .switch 0x310 0xfef4 0xf000),
    (30, .switch 0x320 0xf000 0xfef4), (50, .finish (fun _ => 0) irqFp)]

theorem loses_no_cycles_call :
    60 - 10 - 5 = 25 +
      (((init.run (callTrace 0xfef8)).frames.ended 60 (fun _ => 0) 0xfefe).loc
        60).toNat := by
  have hopen : (⟨0xfefe, 10, 5, 25, true⟩ : Account) ∈
      (init.run (callTrace 0xfef8)).innermost := by
    decide +kernel
  exact loses_no_cycles (callTrace 0xfef8) [] 60 (fun _ => 0) 0xfefe
    (by decide +kernel) _ hopen rfl

/-- An interrupt with frame pointer 0 is taken for the bottom of a thread, and
its cycles stay local cycles of the frame it interrupted. -/
theorem counts_cycles_twice :
    ¬ ∀ before after cycles memory fp,
      init.WellNested (before ++ (cycles, .finish memory fp) :: after) →
      ∀ account ∈ (init.run before).innermost, account.fp ≠ 0 →
        cycles.toNat - account.start - account.away =
          account.credited +
            (((init.run before).frames.ended cycles memory fp).loc
              cycles).toNat := by
  intro hclaim
  have hopen : (⟨0xfefe, 10, 5, 25, false⟩ : Account) ∈
      (init.run (callTrace 0)).innermost := by
    decide +kernel
  have hsum := hclaim (callTrace 0) [] 60 (fun _ => 0) 0xfefe (by decide +kernel)
    _ hopen (by decide)
  exact absurd hsum (by decide +kernel)

end Profiled

end BrickEmu
