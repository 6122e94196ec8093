import BrickEmu.ReceiveFrame

/-!
# Starting the firmware

The main loop starts the firmware some time after it has checked the sum.  As
long as no data come in meanwhile, what it starts is what it has checked.
-/

namespace BrickEmu

namespace Rom

section Sum

/-- The 16-bit sum of some bytes. -/
def sumBytes (m : Ram) : Word → ℕ → Word
  | _, 0 => 0
  | addr, n + 1 => (m addr).setWidth 16 + sumBytes m (addr + 1) n

def firmwareSum (m : Ram) : Word :=
  sumBytes m 0x8000 0x4c00

variable {m m' : Ram}

theorem toNat_succ {addr : Word} (haddr : InFirmware addr) :
    (addr + 1).toNat = addr.toNat + 1 := by
  have hone : (1 : Word).toNat = 1 := rfl
  have hhigh := haddr.2
  rw [BitVec.toNat_add, hone]
  omega

theorem sumBytes_congr (n : ℕ) {addr : Word} (hlow : 0x8000 ≤ addr.toNat)
    (hhigh : addr.toNat + n ≤ 0xcc00)
    (hsame : ∀ a, addr.toNat ≤ a.toNat → a.toNat < addr.toNat + n →
      m' a = m a) :
    sumBytes m' addr n = sumBytes m addr n := by
  induction n generalizing addr with
  | zero => rfl
  | succ n ih =>
      have hnext := toNat_succ ⟨hlow, by omega⟩
      have hrest : sumBytes m' (addr + 1) n = sumBytes m (addr + 1) n := by
        apply ih (by omega) (by omega)
        intro a ha ha'
        exact hsame a (by omega) (by omega)
      rw [sumBytes, sumBytes, hsame addr (by omega) (by omega), hrest]

theorem sumBytes_append (m : Ram) (n k : ℕ) {addr : Word}
    (hlow : 0x8000 ≤ addr.toNat) (hhigh : addr.toNat + n ≤ 0xcc00) :
    sumBytes m addr (n + k) =
      sumBytes m addr n + sumBytes m (addr + BitVec.ofNat 16 n) k := by
  induction n generalizing addr with
  | zero =>
      rw [Nat.zero_add, sumBytes, BitVec.add_zero]
      exact (BitVec.zero_add _).symm
  | succ n ih =>
      have hnext := toNat_succ ⟨hlow, by omega⟩
      rw [Nat.add_right_comm, sumBytes, sumBytes, Ram.addr_succ,
        ih (by omega) (by omega)]
      exact (BitVec.add_assoc _ _ _).symm

theorem firmwareSum_congr
    (hsame : ∀ addr, InFirmware addr → m' addr = m addr) :
    firmwareSum m' = firmwareSum m :=
  sumBytes_congr 0x4c00 (by decide) (by decide)
    fun a hlow hhigh => hsame a ⟨hlow, hhigh⟩

end Sum

section Invariant

namespace Conf

/-- The check has succeeded. -/
def Armed (c : Conf) : Prop :=
  c.ram romMainLoopState = 0x13 ∨ c.ram romUpdateState = 3

/-- What is known at a place. -/
def Known (c : Conf) : Prop :=
  match c.place with
  | .boot _ | .init => True
  | .mainLoop =>
      c.ram romMainLoopState ≠ 0 → c.Armed → firmwareSum c.ram = c.announced
  | .ending | .returned => c.Armed → firmwareSum c.ram = c.announced
  | .holdoff | .launch | .started =>
      c.ram romMainLoopState = 0x13 ∧ firmwareSum c.ram = c.announced
  | .update =>
      c.ram romMainLoopState ≠ 0x13 ∧
        (c.ram romUpdateState = 3 → firmwareSum c.ram = c.announced)
  | .check addr sum =>
      ¬ c.Armed ∧ InFirmware addr ∧
        sum + sumBytes c.ram addr (0xcc00 - addr.toNat) = firmwareSum c.ram
  | .compare sum => ¬ c.Armed ∧ sum = firmwareSum c.ram
  | .compareInverse sum =>
      ¬ c.Armed ∧ sum = firmwareSum c.ram ∧ sum = c.announced
  | .verdict good =>
      ¬ c.Armed ∧ (good = true → firmwareSum c.ram = c.announced)
  | .unlock =>
      c.ram romUpdateState = 3 ∧ firmwareSum c.ram = c.announced
  | .clear r1 => ¬ c.Armed ∧ 0x8000 ≤ r1.toNat ∧ r1.toNat ≤ 0xcc00
  | .reply following => ¬ c.Armed ∧ following ≠ 3
  | .receiveData | .receiveFrom _ | .receiveLoop _ _ _ | .receiveEnd _
  | .message | .startDownload | .downloadNumber | .downloadPtr
  | .transfer | .transferDone => ¬ c.Armed

structure Inv (c : Conf) : Prop where
  announced : c.ram.get16 highFirmwareChecksum = c.announced
  wired : c.Listening → Wired c.ram
  known : c.Known

end Conf

/-- The cells that the invariant speaks of. -/
def Key (addr : Word) : Prop :=
  InFirmware addr ∨ addr = romMainLoopState ∨ addr = romUpdateState ∨
    addr = highFirmwareChecksum ∨ addr = highFirmwareChecksum + 1

instance (addr : Word) : Decidable (Key addr) :=
  inferInstanceAs (Decidable (_ ∨ _))

def SameKeys (m m' : Ram) : Prop :=
  ∀ addr, Key addr → m' addr = m addr

variable {c : Conf} {m m' : Ram}

theorem SameKeys.set (h : SameKeys m m') {a : Word} (ha : ¬ Key a)
    (val : Byte) : SameKeys m (m'.set a val) := by
  intro addr haddr
  have hne : addr ≠ a := fun heq => ha (heq ▸ haddr)
  rw [Ram.set_of_ne hne, h addr haddr]

theorem SameKeys.set16 (h : SameKeys m m') {a : Word} (ha : ¬ Key a)
    (ha' : ¬ Key (a + 1)) (val : Word) : SameKeys m (m'.set16 a val) :=
  (h.set ha _).set ha' _

theorem SameKeys.sum (h : SameKeys m m') : firmwareSum m' = firmwareSum m :=
  firmwareSum_congr fun addr haddr => h addr (Or.inl haddr)

theorem SameKeys.checksum (h : SameKeys m m') :
    m'.get16 highFirmwareChecksum = m.get16 highFirmwareChecksum := by
  rw [Ram.get16, h _ (by decide), h _ (by decide)]
  rfl

theorem SameKeys.armed (h : SameKeys c.ram m') :
    ({ c with ram := m' } : Conf).Armed ↔ c.Armed := by
  simp only [Conf.Armed]
  rw [h _ (by decide), h _ (by decide)]

theorem known_congr (h : c.Known) (hsame : SameKeys c.ram m') :
    ({ c with ram := m' } : Conf).Known := by
  have hmain : m' romMainLoopState = c.ram romMainLoopState :=
    hsame _ (by decide)
  have hupdate : m' romUpdateState = c.ram romUpdateState :=
    hsame _ (by decide)
  obtain ⟨place, asleep, ram, announced⟩ := c
  cases place with
  | boot counter => trivial
  | init => trivial
  | check addr sum =>
      obtain ⟨harmed, hin, hsum⟩ := h
      refine ⟨fun harmed' => harmed (hsame.armed.mp harmed'), hin, ?_⟩
      have hbound := hin.2
      have hrest : sumBytes m' addr (0xcc00 - addr.toNat) =
          sumBytes ram addr (0xcc00 - addr.toNat) :=
        sumBytes_congr _ hin.1 (by omega) fun a hlow hhigh =>
          hsame a (Or.inl ⟨hin.1.trans hlow, by omega⟩)
      simp only
      rw [hrest, hsame.sum]
      exact hsum
  | _ =>
      simp only [Conf.Known, Conf.Armed] at h ⊢
      simp only [hmain, hupdate, hsame.sum]
      exact h

/-- The cells by which the receiver is set up. -/
def Wire (addr : Word) : Prop :=
  addr = serialTimerStruct ∨ addr = serialTimerStruct + 1 ∨
    addr = serialHandlerRunFlagAddr ∨ addr = serialHandlerRunFlagAddr + 1 ∨
    addr = serialReceiveIndex ∨ addr = serialXmitFlag

instance (addr : Word) : Decidable (Wire addr) :=
  inferInstanceAs (Decidable (_ ∨ _))

theorem Wired.congr (h : Wired m)
    (hsame : ∀ addr, Wire addr → m' addr = m addr) :
    Wired m' where
  timer := by
    rw [Ram.get16, hsame _ (by decide), hsame _ (by decide)]
    exact h.timer
  runFlag := by
    rw [Ram.get16, hsame _ (by decide), hsame _ (by decide)]
    exact h.runFlag
  index := by
    rw [hsame _ (by decide)]
    exact h.index
  xmitFlag := by
    rw [hsame _ (by decide)]
    exact h.xmitFlag

theorem Wired.set (h : Wired m) {a : Word} (ha : ¬ Wire a) (val : Byte) :
    Wired (m.set a val) :=
  h.congr fun _ haddr => Ram.set_of_ne fun heq => ha (heq ▸ haddr)

theorem Wired.set16 (h : Wired m) {a : Word} (ha : ¬ Wire a)
    (ha' : ¬ Wire (a + 1)) (val : Word) : Wired (m.set16 a val) :=
  (h.set ha _).set ha' _

/-- The transmitter becomes busy. -/
theorem Wired.setXmit (h : Wired m) : Wired (m.set serialXmitFlag 0x13) where
  timer := by
    rw [Ram.get16_set_of_ne (by decide) (by decide)]
    exact h.timer
  runFlag := by
    rw [Ram.get16_set_of_ne (by decide) (by decide)]
    exact h.runFlag
  index := by
    rw [Ram.set_of_ne (by decide)]
    exact h.index
  xmitFlag := Or.inr (Ram.set_self _ _ _)

namespace Conf

/-- A step that keeps the cells keeps the invariant if it leads to a place
whose knowledge holds. -/
theorem Inv.move (h : c.Inv) (hwired : Wired m) (hkeys : SameKeys c.ram m)
    {place : Place} {asleep : Bool}
    (hknown : ({ c with place := place, asleep := asleep } : Conf).Known) :
    ({ c with place := place, asleep := asleep, ram := m } : Conf).Inv where
  announced := hkeys.checksum.trans h.announced
  wired _ := hwired
  known := known_congr hknown hkeys

theorem firmwareSum_set {a : Word} (ha : ¬ InFirmware a) (m : Ram)
    (val : Byte) : firmwareSum (m.set a val) = firmwareSum m :=
  firmwareSum_congr fun _ haddr => Ram.set_of_ne fun heq => ha (heq ▸ haddr)

theorem Inv.become (h : c.Inv) {state : Byte} (hwired : Wired m)
    (hkeys : SameKeys c.ram m) (hmain : c.ram romMainLoopState ≠ 0x13)
    (hstate : state = 3 → firmwareSum c.ram = c.announced) :
    (({ c with ram := m } : Conf).become state).Inv where
  announced := by
    change (m.set romUpdateState state).get16 highFirmwareChecksum = _
    rw [Ram.get16_set_of_ne (by decide) (by decide), hkeys.checksum]
    exact h.announced
  wired _ := hwired.set (by decide) state
  known := by
    change _ ∨ _ → firmwareSum (m.set romUpdateState state) = _
    rw [firmwareSum_set (by decide), hkeys.sum]
    rintro (harmed | harmed)
    · change (m.set romUpdateState state) romMainLoopState = _ at harmed
      rw [Ram.set_of_ne (by decide), hkeys _ (by decide)] at harmed
      exact absurd harmed hmain
    · change (m.set romUpdateState state) romUpdateState = _ at harmed
      rw [Ram.set_self] at harmed
      exact hstate harmed

theorem Inv.goto (h : c.Inv) (hwired : Wired c.ram) {place : Place}
    (hknown : (c.goto place).Known) : (c.goto place).Inv :=
  h.move hwired (fun _ _ => rfl) hknown

/-- A place at which the receiver is set up in any case. -/
theorem Inv.wired_of (h : c.Inv) {place : Place} (hplace : c.place = place)
    (hserves : place ≠ .started ∧ place ≠ .init ∧ place ≠ .mainLoop ∧
      ∀ counter, place ≠ .boot counter) : Wired c.ram := by
  obtain ⟨hstarted, hinit, hmain, hboot⟩ := hserves
  apply h.wired
  rw [Listening, hplace]
  exact ⟨hstarted, hinit, hboot, fun heq => absurd heq hmain⟩

theorem Inv.enterInit (h : c.Inv) : (c.goto .init).Inv where
  announced := h.announced
  wired hlistening := absurd rfl hlistening.2.1
  known := trivial

theorem Inv.mainLoop (h : c.Inv) (hplace : c.place = .mainLoop) :
    c.mainLoop.Inv := by
  have hknown := h.known
  simp only [Known, hplace] at hknown
  unfold Conf.mainLoop
  simp only
  by_cases h0 : c.ram romMainLoopState = 0
  · have h13 : c.ram romMainLoopState ≠ 0x13 := by
      rw [h0]
      decide
    rw [if_neg h13, if_pos h0]
    exact h.enterInit
  · have hwired : Wired c.ram := by
      apply h.wired
      simp only [Listening, hplace]
      exact ⟨by simp, by simp, by simp, fun _ => h0⟩
    split_ifs with h13
    · exact h.goto hwired ⟨h13, hknown h0 (Or.inl h13)⟩
    · exact h.move hwired (fun _ _ => rfl)
        ⟨h13, fun h3 => hknown h0 (Or.inr h3)⟩

theorem Inv.update (h : c.Inv) (hplace : c.place = .update) :
    c.update.Inv := by
  have hwired := h.wired_of hplace (by simp)
  have hknown := h.known
  simp only [Known, hplace] at hknown
  obtain ⟨hmain, hverified⟩ := hknown
  have hcell {n : ℕ} (hn : (c.ram romUpdateState).toNat = n) (hne : n ≠ 3) :
      ¬ c.Armed := by
    rintro (h13 | h3)
    · exact hmain h13
    · rw [h3] at hn
      exact hne hn.symm
  have hbecome (state : Byte) (hne : state ≠ 3) : (c.become state).Inv :=
    h.become hwired (fun _ _ => rfl) hmain fun heq => absurd heq hne
  have hending : (c.goto .ending).Inv :=
    h.goto hwired fun harmed => harmed.elim (fun h13 => absurd h13 hmain)
      hverified
  unfold Conf.update
  split
  · exact hbecome 7 (by decide)
  · next heq =>
      refine h.goto hwired ⟨hcell heq (by decide), by decide, ?_⟩
      change 0 + sumBytes c.ram 0x8000 0x4c00 = sumBytes c.ram 0x8000 0x4c00
      exact BitVec.zero_add _
  · split_ifs
    · exact hending
    · exact hbecome 4 (by decide)
  · next heq =>
      have h3 : c.ram romUpdateState = 3 := BitVec.eq_of_toNat_eq heq
      exact h.goto hwired ⟨h3, hverified h3⟩
  · next heq => exact h.goto hwired (hcell heq (by decide))
  · next heq => exact h.goto hwired ⟨hcell heq (by decide), by decide⟩
  · next heq => exact h.goto hwired ⟨hcell heq (by decide), by decide⟩
  · exact hbecome 2 (by decide)
  · exact hending

theorem sumBytes_next (m : Ram) {addr : Word} (hin : InFirmware addr) :
    sumBytes m addr (0xcc00 - addr.toNat) =
      (m addr).setWidth 16 +
        sumBytes m (addr + 1) (0xcc00 - (addr + 1).toNat) := by
  have hnext := toNat_succ hin
  have hhigh := hin.2
  have hcount : 0xcc00 - addr.toNat = (0xcc00 - (addr + 1).toNat) + 1 := by
    omega
  rw [hcount, sumBytes]

theorem Inv.check (h : c.Inv) {addr sum : Word}
    (hplace : c.place = .check addr sum) : (c.check addr sum).Inv := by
  have hwired := h.wired_of hplace (by simp)
  have hknown := h.known
  simp only [Known, hplace] at hknown
  obtain ⟨harmed, hin, hsum⟩ := hknown
  rw [sumBytes_next _ hin, ← BitVec.add_assoc] at hsum
  unfold Conf.check
  simp only
  by_cases hend : addr + 1 = 0xcc00
  · rw [if_pos hend]
    refine h.goto hwired ⟨harmed, ?_⟩
    rw [hend] at hsum
    exact (BitVec.add_zero _).symm.trans hsum
  · rw [if_neg hend]
    refine h.goto hwired ⟨harmed, ?_, hsum⟩
    have hnext := toNat_succ hin
    have hlow := hin.1
    have hhigh := hin.2
    have hne : (addr + 1).toNat ≠ 0xcc00 :=
      fun heq => hend (BitVec.eq_of_toNat_eq heq)
    exact ⟨by omega, by omega⟩

theorem Inv.verdict (h : c.Inv) {good : Bool}
    (hplace : c.place = .verdict good) : c.next.Inv := by
  have hwired := h.wired_of hplace (by simp)
  have hknown := h.known
  simp only [Known, hplace] at hknown
  obtain ⟨harmed, hverified⟩ := hknown
  have hmain : c.ram romMainLoopState ≠ 0x13 := fun h13 => harmed (Or.inl h13)
  simp only [next, hplace]
  cases good with
  | true =>
      exact h.become hwired (fun _ _ => rfl) hmain fun _ => hverified rfl
  | false =>
      exact h.become (hwired.set (by decide) _)
        (SameKeys.set (fun _ _ => rfl) (by decide) _) hmain
        fun heq => absurd heq (by decide)

theorem Inv.unlock (h : c.Inv) (hplace : c.place = .unlock) :
    c.unlock.Inv := by
  have hwired := h.wired_of hplace (by simp)
  have hknown := h.known
  simp only [Known, hplace] at hknown
  obtain ⟨-, hverified⟩ := hknown
  unfold Conf.unlock
  split_ifs with hbusy
  · exact h.goto hwired fun _ => hverified
  · have hkeys : SameKeys c.ram (((c.ram.set serialXmitFlag 0x13).set16
        firmwareHoldoffTimer 30).set16 firmwareEntry
          (((c.ram.set serialXmitFlag 0x13).set16 firmwareHoldoffTimer
            30).get16 highFirmwareEntry)) := by
      apply SameKeys.set16 _ (by decide) (by decide)
      apply SameKeys.set16 _ (by decide) (by decide)
      exact SameKeys.set (fun _ _ => rfl) (by decide) _
    constructor
    · change ((Ram.set _ romMainLoopState _).set romUpdateState _).get16
        highFirmwareChecksum = _
      rw [Ram.get16_set_of_ne (by decide) (by decide),
        Ram.get16_set_of_ne (by decide) (by decide)]
      exact hkeys.checksum.trans h.announced
    · intro _
      apply Wired.set _ (by decide)
      apply Wired.set _ (by decide)
      apply Wired.set16 _ (by decide) (by decide)
      apply Wired.set16 _ (by decide) (by decide)
      exact hwired.setXmit
    · intro _
      change firmwareSum ((Ram.set _ romMainLoopState _).set
        romUpdateState _) = _
      rw [firmwareSum_set (by decide), firmwareSum_set (by decide)]
      exact hkeys.sum.trans hverified

/-- At the places of `update` where nothing is verified. -/
theorem Inv.idle (h : c.Inv) {place : Place} (hplace : c.place = place)
    (hserves : place ≠ .started ∧ place ≠ .init ∧ place ≠ .mainLoop ∧
      ∀ counter, place ≠ .boot counter)
    (hknown : ({ c with place := place } : Conf).Known → ¬ c.Armed) :
    Wired c.ram ∧ ¬ c.Armed := by
  refine ⟨h.wired_of hplace hserves, hknown ?_⟩
  subst hplace
  exact h.known

theorem receiveBuffer_free {count : ℕ} (hcount : count < 10) :
    ¬ Key (romReceiveBuffer + BitVec.ofNat 16 count) ∧
      ¬ Wire (romReceiveBuffer + BitVec.ofNat 16 count) := by
  interval_cases count <;> decide

theorem Inv.receiveLoop (h : c.Inv) {stop : Byte} {r4 : Word} {count : ℕ}
    (hplace : c.place = .receiveLoop stop r4 count) :
    (c.receiveLoop stop r4 count).Inv := by
  obtain ⟨hwired, harmed⟩ := h.idle hplace (by simp) id
  unfold Conf.receiveLoop
  split_ifs with hstop
  · exact h.goto hwired harmed
  · have hcount : count < 10 := by omega
    obtain ⟨hkey, hwire⟩ := receiveBuffer_free hcount
    exact h.move (hwired.set hwire _) (SameKeys.set (fun _ _ => rfl) hkey _)
      harmed

theorem Inv.message (h : c.Inv) (hplace : c.place = .message) :
    c.message.Inv := by
  obtain ⟨hwired, harmed⟩ := h.idle hplace (by simp) id
  have hmain : c.ram romMainLoopState ≠ 0x13 := fun h13 => harmed (Or.inl h13)
  have hwired' (val : Byte) : Wired (c.ram.set lastReceivedOpcode val) :=
    hwired.set (by decide) val
  have hkeys (val : Byte) : SameKeys c.ram (c.ram.set lastReceivedOpcode val) :=
    SameKeys.set (fun _ _ => rfl) (by decide) val
  have hbecome (val state : Byte) (hne : state ≠ 3) :
      ((c.store lastReceivedOpcode val).become state).Inv :=
    h.become (hwired' val) (hkeys val) hmain fun heq => absurd heq hne
  unfold Conf.message
  simp only
  split_ifs
  · exact h.become hwired (fun _ _ => rfl) hmain
      fun heq => absurd heq (by decide)
  · split
    · exact hbecome _ 5 (by decide)
    · exact hbecome _ 5 (by decide)
    · exact hbecome _ 5 (by decide)
    · exact h.move (hwired' _) (hkeys _) harmed
    · exact h.move (hwired' _) (hkeys _) harmed
    · exact hbecome _ 1 (by decide)
    · exact hbecome _ 2 (by decide)

theorem Inv.startDownload (h : c.Inv) (hplace : c.place = .startDownload) :
    c.startDownload.Inv := by
  obtain ⟨hwired, harmed⟩ := h.idle hplace (by simp) id
  constructor
  · change (Ram.set16 (Ram.set16 _ highFirmwareChecksum _)
      highFirmwareChecksumInv _).get16 highFirmwareChecksum = _
    rw [Ram.set16, Ram.get16_set_of_ne (by decide) (by decide),
      Ram.get16_set_of_ne (by decide) (by decide), get16_set16]
    rfl
  · intro _
    apply Wired.set16 _ (by decide) (by decide)
    apply Wired.set16 _ (by decide) (by decide)
    exact hwired.set16 (by decide) (by decide) _
  · have hcell (state : Word) (hne : state = romMainLoopState ∨
        state = romUpdateState) :
        c.startDownload.ram state = c.ram state := by
      change (Ram.set16 (Ram.set16 (Ram.set16 _ highFirmwareEntry _)
        highFirmwareChecksum _) highFirmwareChecksumInv _) state = _
      rcases hne with rfl | rfl
      · rw [Ram.set16_of_ne (by decide) (by decide),
          Ram.set16_of_ne (by decide) (by decide),
          Ram.set16_of_ne (by decide) (by decide)]
      · rw [Ram.set16_of_ne (by decide) (by decide),
          Ram.set16_of_ne (by decide) (by decide),
          Ram.set16_of_ne (by decide) (by decide)]
    intro harmed'
    apply harmed
    rcases harmed' with h13 | h3
    · exact Or.inl ((hcell _ (Or.inl rfl)).symm.trans h13)
    · exact Or.inr ((hcell _ (Or.inr rfl)).symm.trans h3)

theorem Inv.clear (h : c.Inv) {r1 : Word} (hplace : c.place = .clear r1) :
    (c.clear r1).Inv := by
  obtain ⟨hwired, harmed⟩ := h.idle hplace (by simp) And.left
  have hknown := h.known
  simp only [Known, hplace] at hknown
  obtain ⟨-, hlow, hhigh⟩ := hknown
  have hmain : c.ram romMainLoopState ≠ 0x13 := fun h13 => harmed (Or.inl h13)
  unfold Conf.clear
  by_cases hend : r1 = 0x8000
  · rw [if_pos hend]
    exact h.become (hwired.set16 (by decide) (by decide) _)
      (SameKeys.set16 (fun _ _ => rfl) (by decide) (by decide) _) hmain
      fun heq => absurd heq (by decide)
  · rw [if_neg hend]
    have hne : r1.toNat ≠ 0x8000 := fun heq => hend (BitVec.eq_of_toNat_eq heq)
    have hone : (1 : Word).toNat = 1 := rfl
    have hprev : (r1 - 1).toNat = r1.toNat - 1 := by
      rw [BitVec.toNat_sub, hone]
      omega
    have hin : InFirmware (r1 - 1) := ⟨by omega, by omega⟩
    have hother {addr : Word} (haddr : ¬ InFirmware addr) :
        (c.ram.set (r1 - 1) 0) addr = c.ram addr :=
      Ram.set_of_ne fun heq => haddr (heq ▸ hin)
    constructor
    · change (c.ram.set (r1 - 1) 0).get16 highFirmwareChecksum = _
      rw [Ram.get16, hother (by decide), hother (by decide)]
      exact h.announced
    · intro _
      exact hwired.setData (show Below (r1 - 1) from by
        have hbound := hin.2
        rw [Below]
        omega) 0
    · refine ⟨?_, hin.1, by omega⟩
      rintro (h13 | h3)
      · exact harmed (Or.inl ((hother (by decide)).symm.trans h13))
      · exact harmed (Or.inr ((hother (by decide)).symm.trans h3))

theorem Inv.transfer (h : c.Inv) (hplace : c.place = .transfer) :
    c.transfer.Inv := by
  obtain ⟨hwired, harmed⟩ := h.idle hplace (by simp) id
  have hmain : c.ram romMainLoopState ≠ 0x13 := fun h13 => harmed (Or.inl h13)
  unfold Conf.transfer
  split_ifs
  · exact h.goto hwired harmed
  · exact h.become hwired (fun _ _ => rfl) hmain
      fun heq => absurd heq (by decide)
  · exact h.become (hwired.set16 (by decide) (by decide) _)
      (SameKeys.set16 (fun _ _ => rfl) (by decide) (by decide) _) hmain
      fun heq => absurd heq (by decide)

end Conf

end Invariant

end Rom

end BrickEmu
