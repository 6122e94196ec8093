import BrickEmu.FirmwareVerified

/-!
# A run that starts a firmware

A run of the main loop from a reset to the firmware can be computed when the
memory it works on is a number: the first bytes of the firmware and the
variables of the ROM are its digits, and all other cells are 0.  The loops over
the empty rest of the firmware are passed as a whole.
-/

namespace BrickEmu

namespace Rom

section Blank

variable {c : Conf}

/-- The firmware behind its first bytes. -/
def InBody (addr : Word) : Prop :=
  0x8004 ≤ addr.toNat ∧ addr.toNat < 0xcc00

instance (addr : Word) : Decidable (InBody addr) :=
  inferInstanceAs (Decidable (_ ∧ _))

theorem InBody.inFirmware {addr : Word} (h : InBody addr) :
    InFirmware addr := by
  obtain ⟨hlow, hhigh⟩ := h
  exact ⟨by omega, hhigh⟩

/-- Nothing but the first bytes of the firmware is there. -/
def Conf.Blank (c : Conf) : Prop :=
  ∀ addr, InBody addr → c.ram addr = 0

namespace Conf

theorem Blank.store (h : c.Blank) {a : Word} (ha : ¬ InBody a)
    (val : Byte) : (c.store a val).Blank := by
  intro addr haddr
  have hne : addr ≠ a := fun heq => ha (heq ▸ haddr)
  exact (Ram.set_of_ne hne).trans (h addr haddr)

theorem Blank.store16 (h : c.Blank) {a : Word} (ha : ¬ InBody a)
    (ha' : ¬ InBody (a + 1)) (val : Word) : (c.store16 a val).Blank :=
  (h.store ha _).store ha' _

theorem Blank.become (h : c.Blank) (state : Byte) : (c.become state).Blank :=
  h.store (by decide) state

theorem Blank.init (h : c.Blank) (state : Byte) (place : Place) :
    (c.init state place).Blank := by
  intro addr haddr
  have hmain : addr ≠ romMainLoopState := by
    rintro rfl
    exact absurd haddr (by decide)
  have hupdate : addr ≠ romUpdateState := by
    rintro rfl
    exact absurd haddr (by decide)
  have hserial : ¬ InSerial addr := by
    intro hin
    have hlow := hin.1
    have hhigh := haddr.2
    omega
  change (((initSerial c.ram).set romUpdateState 0).set romMainLoopState
    state) addr = 0
  rw [Ram.set_of_ne hmain, Ram.set_of_ne hupdate,
    serialOnly_initSerial c.ram addr hserial, h addr haddr]

theorem Blank.unlock (h : c.Blank) : c.unlock.Blank := by
  unfold Conf.unlock
  split_ifs
  · exact h
  · refine Blank.become ?_ 8
    refine Blank.store ?_ (by decide) 0x13
    refine Blank.store16 ?_ (by decide) (by decide) _
    refine Blank.store16 ?_ (by decide) (by decide) 30
    exact h.store (by decide) 0x13

theorem Blank.receiveLoop (h : c.Blank) (stop : Byte) (r4 : Word)
    (count : ℕ) : (c.receiveLoop stop r4 count).Blank := by
  unfold Conf.receiveLoop
  split_ifs with hstop
  · exact h
  · have hcount : count < 10 := by omega
    have hkey := (receiveBuffer_free hcount).1
    exact Blank.store h (fun hin => hkey (Or.inl hin.inFirmware)) _

theorem Blank.message (h : c.Blank) : c.message.Blank := by
  have hopcode (val : Byte) : (c.store lastReceivedOpcode val).Blank :=
    h.store (by decide) val
  unfold Conf.message
  simp only
  split_ifs
  · exact h.become 5
  · split
    · exact (hopcode _).become 5
    · exact (hopcode _).become 5
    · exact (hopcode _).become 5
    · exact hopcode _
    · exact hopcode _
    · exact (hopcode _).become 1
    · exact (hopcode _).become 2

theorem Blank.startDownload (h : c.Blank) : c.startDownload.Blank := by
  have hentry := h.store16 (a := highFirmwareEntry) (by decide) (by decide)
    (c.word 1)
  exact ((hentry.store16 (a := highFirmwareChecksum) (by decide) (by decide)
    (c.word 3)).store16 (a := highFirmwareChecksumInv) (by decide) (by decide)
    (~~~c.word 3))

theorem Blank.clear (h : c.Blank) (r1 : Word) : (c.clear r1).Blank := by
  unfold Conf.clear
  split_ifs
  · exact (h.store16 (by decide) (by decide) 1).become 5
  · intro addr haddr
    change (c.ram.set (r1 - 1) 0) addr = 0
    by_cases heq : addr = r1 - 1
    · rw [heq, Ram.set_self]
    · rw [Ram.set_of_ne heq, h addr haddr]

theorem Blank.transfer (h : c.Blank) : c.transfer.Blank := by
  unfold Conf.transfer
  split_ifs
  · exact h
  · exact h.become 2
  · exact (h.store16 (by decide) (by decide) _).become 5

theorem Blank.update (h : c.Blank) : c.update.Blank := by
  unfold Conf.update
  split
  · exact h.become 7
  · exact h
  · split_ifs
    · exact h
    · exact h.become 4
  · exact h
  · exact h
  · exact h
  · exact h
  · exact h.become 2
  · exact h

theorem Blank.next (h : c.Blank) : c.next.Blank := by
  unfold Conf.next
  split
  · split_ifs
    · exact h.init 8 .mainLoop
    · exact h.store (by decide) 0
  · unfold Conf.mainLoop
    simp only
    split_ifs <;> exact h
  · split_ifs <;> exact h
  · exact h
  · exact h
  · exact h.init 0xd .update
  · exact h.update
  · unfold Conf.check
    simp only
    split_ifs <;> exact h
  · split_ifs <;> exact h
  · exact h
  · split_ifs
    · exact h.become 3
    · exact (h.store (by decide) 0xff).become 2
  · exact h.unlock
  · exact h
  · exact h
  · exact h.receiveLoop _ _ _
  · exact (h.store (by decide) _).store (by decide) _
  · exact h.message
  · exact h.startDownload
  · exact h.store16 (by decide) (by decide) 0xffff
  · exact h.store16 (by decide) (by decide) 0x8000
  · exact h.clear _
  · exact h.transfer
  · exact (h.store16 (by decide) (by decide) 0).become 5
  · unfold Conf.reply
    split_ifs
    · exact h
    · exact (h.store (by decide) 0x13).become _
  · exact h
  · unfold Conf.returned
    split_ifs
    · exact h.store (by decide) 0
    · exact h

end Conf

end Blank

section Image

/-- The variables of the ROM that the main loop and the receiver use, and the
start of the firmware: the first address and the number of bytes of each
block. -/
def blocks : List (ℕ × ℕ) :=
  [(0xef9d, 41), (0xeef6, 10), (0xfd88, 6), (0xef0a, 3), (0xef50, 2),
    (0xee62, 3), (0xee74, 2), (0xee82, 2), (0xee5e, 1), (0xef06, 1),
    (0xef93, 1), (0x8000, 4)]

/-- The number of a variable. -/
def slotIn : List (ℕ × ℕ) → ℕ → Option ℕ
  | [], _ => none
  | (start, len) :: rest, addr =>
      if start ≤ addr ∧ addr < start + len then some (addr - start)
      else (slotIn rest addr).map (len + ·)

def addresses (blocks : List (ℕ × ℕ)) : List ℕ :=
  blocks.flatMap fun (start, len) => List.range' start len

theorem addresses_slotIn {blocks : List (ℕ × ℕ)} {addr i : ℕ}
    (h : slotIn blocks addr = some i) : (addresses blocks)[i]? = some addr := by
  induction blocks generalizing i with
  | nil => cases h
  | cons block rest ih =>
      obtain ⟨start, len⟩ := block
      rw [slotIn] at h
      rw [addresses, List.flatMap_cons]
      split_ifs at h with hin
      · cases h
        rw [List.getElem?_append_left (by simp; omega), List.getElem?_range']
        · congr 1
          omega
        · omega
      · obtain ⟨j, hj, rfl⟩ := Option.map_eq_some_iff.mp h
        rw [List.getElem?_append_right (by simp), List.length_range',
          Nat.add_sub_cancel_left]
        exact ih hj

theorem slotIn_eq_none {blocks : List (ℕ × ℕ)} {addr : ℕ} :
    slotIn blocks addr = none ↔
      ∀ block ∈ blocks, addr < block.1 ∨ block.1 + block.2 ≤ addr := by
  induction blocks with
  | nil => simp [slotIn]
  | cons block rest ih =>
      obtain ⟨start, len⟩ := block
      rw [slotIn, List.forall_mem_cons]
      split_ifs with hin
      · exact iff_of_false (by simp) fun h => by omega
      · rw [Option.map_eq_none_iff, ih]
        exact ⟨fun h => ⟨by omega, h⟩, And.right⟩

/-- A number with the bytes as its digits. -/
def pack : List Byte → ℕ
  | [] => 0
  | byte :: bytes => byte.toNat + 256 * pack bytes

def digit (n i : ℕ) : Byte :=
  BitVec.ofNat 8 (n >>> (8 * i))

theorem digit_pack {bytes : List Byte} {i : ℕ} {byte : Byte}
    (h : bytes[i]? = some byte) : digit (pack bytes) i = byte := by
  induction bytes generalizing i with
  | nil => cases h
  | cons first bytes ih =>
      have hfirst := first.isLt
      cases i with
      | zero =>
          cases h
          apply BitVec.eq_of_toNat_eq
          rw [digit, BitVec.toNat_ofNat, pack, Nat.mul_zero,
            Nat.shiftRight_zero]
          omega
      | succ i =>
          have hrest : pack (first :: bytes) >>> 8 = pack bytes := by
            rw [pack, Nat.shiftRight_eq_div_pow]
            omega
          have hplace : 8 * (i + 1) = 8 + 8 * i := by omega
          rw [digit, hplace, Nat.shiftRight_add, hrest]
          exact ih h

/-- The memory of a number. -/
def image (n : ℕ) : Ram := fun addr =>
  match slotIn blocks addr.toNat with
  | some i => digit n i
  | none => 0

def Ram.packed (m : Ram) : ℕ :=
  pack ((addresses blocks).map fun addr => m (BitVec.ofNat 16 addr))

theorem image_packed (m : Ram) {addr : Word} {i : ℕ}
    (h : slotIn blocks addr.toNat = some i) :
    image m.packed addr = m addr := by
  have hcell := addresses_slotIn h
  rw [image, h]
  apply digit_pack
  rw [List.getElem?_map, hcell, Option.map_some, BitVec.ofNat_toNat,
    BitVec.setWidth_eq]

theorem image_body (n : ℕ) {addr : Word} (haddr : InBody addr) :
    image n addr = 0 := by
  have hnone : slotIn blocks addr.toNat = none := by
    obtain ⟨hlow, hhigh⟩ := haddr
    rw [slotIn_eq_none]
    simp only [blocks, List.forall_mem_cons, List.not_mem_nil,
      false_implies, implies_true, and_true]
    omega
  rw [image, hnone]

/-- A guarded cell is a variable or lies in the firmware. -/
theorem guarded_cases {addr : Word} (haddr : Guarded addr) :
    InBody addr ∨ ∃ i, slotIn blocks addr.toNat = some i := by
  by_cases hin : InBody addr
  · exact Or.inl hin
  · right
    apply Option.ne_none_iff_exists'.mp
    rw [ne_eq, slotIn_eq_none]
    simp only [blocks, List.forall_mem_cons]
    simp only [InBody] at hin
    simp only [Guarded] at haddr
    omega

/-- The other cells may be cleared by other routines. -/
theorem aside_packed {m : Ram} (hblank : ∀ addr, InBody addr → m addr = 0)
    (hxmit : m serialXmitFlag = 0x4f ∨ m serialXmitFlag = 0x13) :
    Aside m (image m.packed) where
  guarded addr haddr := by
    rcases guarded_cases haddr with hin | ⟨i, hi⟩
    · rw [image_body _ hin, hblank addr hin]
    · exact image_packed m hi
  xmitFlag := by
    have hslot : slotIn blocks serialXmitFlag.toNat = some 71 := rfl
    rw [image_packed m hslot]
    exact hxmit

end Image

section Moves

/-- A state of the main loop whose memory is a number. -/
structure Snapshot where
  place : Place
  asleep : Bool
  cells : ℕ
  announced : Word

def Snapshot.conf (s : Snapshot) : Conf :=
  ⟨s.place, s.asleep, image s.cells, s.announced⟩

def Conf.snapshot (c : Conf) : Snapshot :=
  ⟨c.place, c.asleep, c.ram.packed, c.announced⟩

/-- A part of the run: a step of the main loop, a byte that comes in while the
main loop idles, the loops that clear the rest of the firmware and add its
bytes, and the end of a transmission and of the hold-off. -/
inductive Move where
  | next
  | received (byte : Byte)
  | cleared
  | added
  | rested

namespace Snapshot

def settle (c : Conf) : Option Snapshot :=
  if c.place ≠ .started ∧
      (c.ram serialXmitFlag = 0x4f ∨ c.ram serialXmitFlag = 0x13) then
    some c.snapshot
  else none

/-- The transmission has ended, and so has the hold-off. -/
def rest (s : Snapshot) : Snapshot :=
  { s with cells := ((s.conf.ram.set serialXmitFlag 0x4f).set16
      firmwareHoldoffTimer 0).packed }

/-- A byte of data goes into the start of the firmware, and no sum relies on
it. -/
def takes (c : Conf) : Bool :=
  match storesAt c.ram with
  | none => true
  | some addr =>
      decide ((0x8000 ≤ addr.toNat ∧ addr.toNat < 0x8004) ∧
        c.ram romMainLoopState ≠ 0x13 ∧ c.ram romUpdateState ≠ 3)

/-- The state after a part of the run, if it is possible. -/
def move (s : Snapshot) : Move → Option Snapshot
  | .next => if s.place = .started then none else settle s.conf.next
  | .received byte =>
      if s.place = .mainLoop ∧ s.conf.ram romMainLoopState ≠ 0 ∧
          takes s.conf then
        settle (s.conf.after (.received byte))
      else none
  | .cleared =>
      if s.place = .clear 0xcc00 then some { s with place := .clear 0x8004 }
      else none
  | .added =>
      match s.place with
      | .check 0x8004 sum => some { s with place := .compare sum }
      | _ => none
  | .rested => if s.place = .started then none else some s.rest

def play (s : Snapshot) : List Move → Option Snapshot
  | [] => some s
  | move :: moves => (s.move move).bind fun s => s.play moves

end Snapshot

variable {s s' : Snapshot} {c : Conf}

open Relation

theorem Snapshot.conf_blank (s : Snapshot) : s.conf.Blank :=
  fun _ haddr => image_body s.cells haddr

/-- Other routines clear the cells that are no variables. -/
theorem settle_run (hblank : c.Blank) (h : Snapshot.settle c = some s') :
    ReflTransGen Conf.SparingStep c s'.conf := by
  unfold Snapshot.settle at h
  split_ifs at h with hready
  cases h
  exact .single ⟨.aside (image c.ram.packed),
    ⟨hready.1, aside_packed hblank hready.2⟩, trivial, rfl⟩

theorem next_run (hplace : c.place ≠ .started) :
    ReflTransGen Conf.SparingStep c c.next :=
  .single ⟨.main, hplace, trivial, rfl⟩

/-- The loop over the part of the firmware that is empty already. -/
theorem clear_run (hblank : c.Blank) (n : ℕ) {r1 : Word}
    (hplace : c.place = .clear r1) (hr1 : r1.toNat = 0x8004 + n)
    (hn : n ≤ 0x4bfc) :
    ReflTransGen Conf.SparingStep c { c with place := .clear 0x8004 } := by
  induction n generalizing c r1 with
  | zero =>
      have hend : r1 = 0x8004 := BitVec.eq_of_toNat_eq hr1
      rw [← hend, ← hplace]
  | succ n ih =>
      have hone : (1 : Word).toNat = 1 := rfl
      have hprev : (r1 - 1).toNat = 0x8004 + n := by
        rw [BitVec.toNat_sub, hone]
        omega
      have hne : r1 ≠ 0x8000 := by
        rintro rfl
        have hstart : (0x8000 : Word).toNat = 0x8000 := rfl
        omega
      have hzero : c.ram (r1 - 1) = 0 := hblank _ ⟨by omega, by omega⟩
      have hnext : c.next = { c with place := .clear (r1 - 1) } := by
        rw [Conf.next, hplace]
        simp only [Conf.clear, if_neg hne, Conf.store, Conf.goto, Ram.set]
        rw [← hzero, Function.update_eq_self]
      have hrest := ih (c := c.next) (hnext ▸ hblank) (by rw [hnext]) hprev
        (by omega)
      rw [hnext] at hrest
      exact (next_run (by simp [hplace])).trans (hnext ▸ hrest)

/-- The loop that adds the bytes of the rest of the firmware. -/
theorem check_run (hblank : c.Blank) (n : ℕ) {addr sum : Word}
    (hplace : c.place = .check addr sum)
    (haddr : addr.toNat + n + 1 = 0xcc00) (hlow : 0x8004 ≤ addr.toNat) :
    ReflTransGen Conf.SparingStep c { c with place := .compare sum } := by
  have hin : InBody addr := ⟨hlow, by omega⟩
  have hsucc := toNat_succ hin.inFirmware
  have hzero : c.ram addr = 0 := hblank addr hin
  have hsum : sum + (0 : Byte).setWidth 16 = sum := BitVec.add_zero sum
  have hend : (0xcc00 : Word).toNat = 0xcc00 := rfl
  induction n generalizing c addr with
  | zero =>
      have hlast : addr + 1 = 0xcc00 := BitVec.eq_of_toNat_eq (by omega)
      have hnext : c.next = { c with place := .compare sum } := by
        rw [Conf.next, hplace]
        simp only [Conf.check, if_pos hlast, hzero, Conf.goto]
        rw [hsum]
      exact hnext ▸ next_run (by simp [hplace])
  | succ n ih =>
      have hnot : addr + 1 ≠ 0xcc00 := by
        intro heq
        rw [heq] at hsucc
        omega
      have hnext : c.next = { c with place := .check (addr + 1) sum } := by
        rw [Conf.next, hplace]
        simp only [Conf.check, if_neg hnot, hzero, Conf.goto]
        rw [hsum]
      have hin' : InBody (addr + 1) := ⟨by omega, by omega⟩
      have hrest := ih (c := c.next) (hnext ▸ hblank) (by rw [hnext])
        (by omega) (by omega) hin' (toNat_succ hin'.inFirmware)
        (hnext ▸ hblank _ hin')
      rw [hnext] at hrest
      exact (next_run (by simp [hplace])).trans (hnext ▸ hrest)

theorem rest_run (hplace : s.place ≠ .started) :
    ReflTransGen Conf.SparingStep s.conf s.rest.conf := by
  have haside : Aside s.conf.ram (image s.rest.cells) := by
    constructor
    · intro addr haddr
      rcases guarded_cases haddr with hin | ⟨i, hi⟩
      · rw [image_body _ hin, s.conf_blank addr hin]
      · have hother {a : Word} (ha : ¬ Guarded a) : addr ≠ a :=
          fun heq => ha (heq ▸ haddr)
        change image (Ram.packed _) addr = _
        rw [image_packed _ hi, Ram.set16, Ram.set_of_ne (hother (by decide)),
          Ram.set_of_ne (hother (by decide)),
          Ram.set_of_ne (hother (by decide))]
    · left
      have hslot : slotIn blocks serialXmitFlag.toNat = some 71 := rfl
      change image (Ram.packed _) serialXmitFlag = _
      rw [image_packed _ hslot, Ram.set16, Ram.set_of_ne (by decide),
        Ram.set_of_ne (by decide), Ram.set_self]
  exact .single ⟨.aside _, ⟨hplace, haside⟩, trivial, rfl⟩

theorem place_of_takes {addr : Word} (h : Snapshot.takes c)
    (hstores : storesAt c.ram = some addr) :
    (0x8000 ≤ addr.toNat ∧ addr.toNat < 0x8004) ∧
      c.ram romMainLoopState ≠ 0x13 ∧ c.ram romUpdateState ≠ 3 := by
  rw [Snapshot.takes, hstores] at h
  exact of_decide_eq_true h

theorem received_run {byte : Byte} (hinv : s.conf.Inv)
    (hplace : s.place = .mainLoop) (hmain : s.conf.ram romMainLoopState ≠ 0)
    (htakes : Snapshot.takes s.conf)
    (h : Snapshot.settle (s.conf.after (.received byte)) = some s') :
    ReflTransGen Conf.SparingStep s.conf s'.conf := by
  have hconf : s.conf.place = .mainLoop := hplace
  have hlistening : s.conf.Listening := by
    simp only [Conf.Listening, hconf]
    exact ⟨by simp, by simp, by simp, fun _ => hmain⟩
  have hspares : s.conf.Spares (.received byte) := by
    intro addr haddr
    obtain ⟨⟨hlow, hhigh⟩, h13, h3⟩ := place_of_takes htakes haddr
    refine ⟨by rw [Below]; omega, fun _ hrelies => ?_⟩
    simp only [Conf.Relies, hconf] at hrelies
    rcases hrelies with harmed | harmed
    · exact absurd harmed h13
    · exact absurd harmed h3
  have htidy : Tidy (withData byte s.conf.ram) (rxiHandler byte s.conf.ram) :=
    tidy_rxiHandler (hinv.wired hlistening)
      fun addr haddr => (hspares addr haddr).1
  have hblank : (s.conf.after (.received byte)).Blank := by
    intro addr haddr
    have hkey : Key addr := Or.inl haddr.inFirmware
    refine (htidy.keys addr hkey).trans ?_
    cases hstores : storesAt s.conf.ram with
    | none =>
        rw [withData_of_none hstores]
        exact s.conf_blank addr haddr
    | some place =>
        obtain ⟨⟨-, hhigh⟩, -⟩ := place_of_takes htakes hstores
        have hlow := haddr.1
        have hne : addr ≠ place := by
          rintro rfl
          omega
        rw [withData_of_some hstores, Ram.set_of_ne hne]
        exact s.conf_blank addr haddr
  exact (ReflTransGen.single ⟨.received byte, hlistening, hspares, rfl⟩).trans
    (settle_run hblank h)

theorem move_run {move : Move} (hinv : s.conf.Inv)
    (h : s.move move = some s') :
    ReflTransGen Conf.SparingStep s.conf s'.conf := by
  cases move with
  | next =>
      simp only [Snapshot.move] at h
      split_ifs at h with hstarted
      exact (next_run hstarted).trans (settle_run s.conf_blank.next h)
  | received byte =>
      simp only [Snapshot.move] at h
      split_ifs at h with hready
      exact received_run hinv hready.1 hready.2.1 hready.2.2 h
  | cleared =>
      simp only [Snapshot.move] at h
      split_ifs at h with hplace
      cases h
      exact clear_run s.conf_blank 0x4bfc hplace rfl le_rfl
  | added =>
      simp only [Snapshot.move] at h
      split at h
      · next sum hplace =>
          cases h
          exact check_run s.conf_blank 0x4bfb hplace rfl (by decide)
      · cases h
  | rested =>
      simp only [Snapshot.move] at h
      split_ifs at h with hstarted
      cases h
      exact rest_run hstarted

theorem play_run {moves : List Move} (hinv : s.conf.Inv)
    (h : s.play moves = some s') :
    ReflTransGen Conf.SparingStep s.conf s'.conf := by
  induction moves generalizing s with
  | nil =>
      cases h
      exact .refl
  | cons move moves ih =>
      obtain ⟨s₁, hmove, hmoves⟩ := Option.bind_eq_some_iff.mp h
      have hrun := move_run hinv hmove
      exact hrun.trans (ih (hinv.run hrun) hmoves)

end Moves

section Start

/-- A reset with an empty memory. -/
def resetSnapshot : Snapshot :=
  ⟨.boot 0, false, 0, 0⟩

theorem starts_resetSnapshot : resetSnapshot.conf.Starts where
  place := ⟨0, rfl⟩
  announced := by decide

/-- A message with its checksum, and the complements. -/
def message (bytes : List Byte) : List Move :=
  (bytes ++ [bytes.foldl (· + ·) 0]).flatMap fun byte =>
    [.received byte, .received (~~~byte)]

/-- The checksum 0x42 is announced, and the firmware cleared. -/
def announce : List Move :=
  .next :: message [0x75, 0x00, 0x80, 0x42, 0x00, 0x00] ++
    List.replicate 29 .next ++ .cleared :: List.replicate 12 .next ++ [.rested]

/-- A block of data with the one byte 0x42. -/
def sendBlock : List Move :=
  message [0x45, 1, 0, 1, 0, 0x42, 0x42] ++ List.replicate 27 .next ++ [.rested]

def unlockFirmware : List Move :=
  message [0xa5, 0, 0, 0, 0, 0] ++ List.replicate 26 .next ++ .added ::
    List.replicate 10 .next ++ .rested :: List.replicate 2 .next

theorem play_download :
    (resetSnapshot.play (announce ++ sendBlock ++ unlockFirmware)).map
        (fun s => (s.place, s.conf.ram 0x8000, s.announced)) =
      some (.launch, 0x42, 0x42) := by
  decide +kernel

/-- The firmware is started, and its sum is the one announced. -/
theorem started_download : ∃ c c' : Conf, c.Starts ∧
    Relation.ReflTransGen Conf.SparingStep c c' ∧ c'.place = .started ∧
      c'.ram 0x8000 = 0x42 ∧ c'.announced = 0x42 ∧
      firmwareSum c'.ram = c'.announced := by
  obtain ⟨s, hplay, hends⟩ := Option.map_eq_some_iff.mp play_download
  obtain ⟨hlaunch, hbyte, hannounced⟩ :
      s.place = .launch ∧ s.conf.ram 0x8000 = 0x42 ∧ s.announced = 0x42 := by
    simpa only [Prod.mk.injEq] using hends
  have hplace : s.conf.place = .launch := hlaunch
  have hnot : s.conf.place ≠ .started := by
    rw [hplace]
    decide
  have hrun := (play_run starts_resetSnapshot.inv hplay).trans (next_run hnot)
  have hstarted : s.conf.next.place = .started := by
    rw [Conf.next, hplace]
    rfl
  have hsame : s.conf.next.ram = s.conf.ram ∧
      s.conf.next.announced = s.announced := by
    rw [Conf.next, hplace]
    exact ⟨rfl, rfl⟩
  exact ⟨_, _, starts_resetSnapshot, hrun, hstarted, hsame.1 ▸ hbyte,
    hsame.2.trans hannounced,
    Conf.started_verified starts_resetSnapshot hrun hstarted⟩

end Start

end Rom

end BrickEmu
