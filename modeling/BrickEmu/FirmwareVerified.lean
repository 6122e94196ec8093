import BrickEmu.FirmwareStart

/-!
# What the main loop starts

The steps of the main loop, the interrupts and the other routines keep what is
known about the firmware, unless a byte of data replaces one that has been
added.
-/

namespace BrickEmu

namespace Rom

section Serial

variable {m m' : Ram}

theorem memclr_outside (start : Word) {n : ℕ} {addr : Word}
    (hfits : start.toNat + n ≤ 0x10000)
    (haddr : addr.toNat < start.toNat ∨ start.toNat + n ≤ addr.toNat) :
    memclr m start n addr = m addr := by
  induction n with
  | zero => rfl
  | succ n ih =>
      have hplace : (start + BitVec.ofNat 16 n).toNat = start.toNat + n := by
        rw [BitVec.toNat_add, BitVec.toNat_ofNat]
        omega
      have hne : addr ≠ start + BitVec.ofNat 16 n := by
        rintro rfl
        omega
      rw [memclr, Ram.set_of_ne hne, ih (by omega) (by omega)]

/-- The cells that `init_serial` writes. -/
def InSerial (addr : Word) : Prop :=
  0xef50 ≤ addr.toNat ∧ addr.toNat < 0xefbe

instance (addr : Word) : Decidable (InSerial addr) :=
  inferInstanceAs (Decidable (_ ∧ _))

/-- Nothing else changes. -/
def SerialOnly (m m' : Ram) : Prop :=
  ∀ addr, ¬ InSerial addr → m' addr = m addr

theorem SerialOnly.set (h : SerialOnly m m') {a : Word} (ha : InSerial a)
    (val : Byte) : SerialOnly m (m'.set a val) := by
  intro addr haddr
  have hne : addr ≠ a := fun heq => haddr (heq ▸ ha)
  rw [Ram.set_of_ne hne, h addr haddr]

theorem SerialOnly.set16 (h : SerialOnly m m') {a : Word} (ha : InSerial a)
    (ha' : InSerial (a + 1)) (val : Word) : SerialOnly m (m'.set16 a val) :=
  (h.set ha _).set ha' _

theorem SerialOnly.memclr (h : SerialOnly m m') {start : Word} {n : ℕ}
    (hlow : 0xef50 ≤ start.toNat) (hhigh : start.toNat + n ≤ 0xefbe) :
    SerialOnly m (memclr m' start n) := by
  intro addr haddr
  have hout : addr.toNat < start.toNat ∨ start.toNat + n ≤ addr.toNat := by
    rw [InSerial] at haddr
    omega
  rw [memclr_outside start (by omega) hout, h addr haddr]

theorem serialOnly_initSerial (m : Ram) : SerialOnly m (initSerial m) := by
  unfold initSerial
  simp only
  iterate 4 refine SerialOnly.set ?_ (by decide) _
  refine SerialOnly.set16 ?_ (by decide) (by decide) _
  refine SerialOnly.set16 ?_ (by decide) (by decide) _
  refine SerialOnly.memclr ?_ (by decide) (by decide)
  refine SerialOnly.memclr ?_ (by decide) (by decide)
  refine SerialOnly.set16 ?_ (by decide) (by decide) _
  refine SerialOnly.set ?_ (by decide) _
  refine SerialOnly.set16 ?_ (by decide) (by decide) _
  refine SerialOnly.set ?_ (by decide) _
  refine SerialOnly.set ?_ (by decide) _
  refine SerialOnly.set16 ?_ (by decide) (by decide) _
  iterate 3 refine SerialOnly.set ?_ (by decide) _
  exact fun _ _ => rfl

theorem wired_initSerial (m : Ram) : Wired (initSerial m) where
  timer := by
    simp (disch := decide) only [initSerial, Ram.get16, Ram.set16,
      Ram.set_of_ne, memclr_outside, Ram.set_self]
    rfl
  runFlag := by
    simp (disch := decide) only [initSerial, Ram.get16, Ram.set16,
      Ram.set_of_ne, memclr_outside, Ram.set_self]
    rfl
  index := by
    simp (disch := decide) only [initSerial, Ram.set_of_ne, Ram.set_self]
    decide
  xmitFlag := by
    simp only [initSerial, Ram.set_self]
    decide

end Serial

variable {c : Conf} {m m' : Ram}

section MainLoop

namespace Conf

theorem Inv.init (h : c.Inv) {state : Byte} {place : Place}
    (hstate : state ≠ 0x13) (hplace : place = .mainLoop ∨ place = .update) :
    (c.init state place).Inv := by
  have honly := serialOnly_initSerial c.ram
  have hmain : (c.init state place).ram romMainLoopState = state := by
    change (((initSerial c.ram).set romUpdateState 0).set romMainLoopState
      state) romMainLoopState = _
    exact Ram.set_self _ _ _
  have hupdate : (c.init state place).ram romUpdateState = 0 := by
    change (((initSerial c.ram).set romUpdateState 0).set romMainLoopState
      state) romUpdateState = _
    rw [Ram.set_of_ne (by decide), Ram.set_self]
  have h3 : (c.init state place).ram romUpdateState ≠ 3 := by
    rw [hupdate]
    decide
  constructor
  · change (((initSerial c.ram).set romUpdateState 0).set romMainLoopState
      state).get16 highFirmwareChecksum = _
    rw [Ram.get16_set_of_ne (by decide) (by decide),
      Ram.get16_set_of_ne (by decide) (by decide), Ram.get16,
      honly _ (by decide), honly _ (by decide)]
    exact h.announced
  · intro _
    exact ((wired_initSerial c.ram).set (by decide) 0).set (by decide) state
  · rcases hplace with rfl | rfl
    · rintro - (h13 | h3')
      · exact absurd (hmain.symm.trans h13) hstate
      · exact absurd h3' h3
    · exact ⟨fun h13 => hstate (hmain.symm.trans h13),
        fun h3' => absurd h3' h3⟩

theorem Inv.boot (h : c.Inv) {counter : Byte}
    (hplace : c.place = .boot counter) : c.next.Inv := by
  simp only [next, hplace]
  split_ifs
  · exact h.init (by decide) (Or.inl rfl)
  · have hmain : (c.ram.set romMainLoopState 0) romMainLoopState = 0 :=
      Ram.set_self _ _ _
    constructor
    · change (c.ram.set romMainLoopState 0).get16 highFirmwareChecksum = _
      rw [Ram.get16_set_of_ne (by decide) (by decide)]
      exact h.announced
    · intro hlistening
      exact absurd hmain (hlistening.2.2.2 rfl)
    · intro hne
      exact absurd hmain hne

theorem Inv.returned (h : c.Inv) (hplace : c.place = .returned) :
    c.returned.Inv := by
  have hwired := h.wired_of hplace (by simp)
  have hknown := h.known
  simp only [Known, hplace] at hknown
  unfold Conf.returned
  split_ifs
  · constructor
    · change (c.ram.set romMainLoopState 0).get16 highFirmwareChecksum = _
      rw [Ram.get16_set_of_ne (by decide) (by decide)]
      exact h.announced
    · intro hlistening
      exact absurd rfl hlistening.2.1
    · trivial
  · exact h.goto hwired fun _ => hknown

theorem Inv.holdoff (h : c.Inv) (hplace : c.place = .holdoff) :
    c.next.Inv := by
  have hwired := h.wired_of hplace (by simp)
  have hknown := h.known
  simp only [Known, hplace] at hknown
  simp only [next, hplace]
  split_ifs
  · exact h.goto hwired fun _ _ => hknown.2
  · exact h.goto hwired hknown

theorem Inv.compare (h : c.Inv) {sum : Word}
    (hplace : c.place = .compare sum) : c.next.Inv := by
  have hwired := h.wired_of hplace (by simp)
  have hknown := h.known
  simp only [Known, hplace] at hknown
  simp only [next, hplace]
  split_ifs with hsum
  · exact h.goto hwired ⟨hknown.1, hknown.2, hsum.trans h.announced⟩
  · exact h.goto hwired ⟨hknown.1, fun hgood => absurd hgood (by decide)⟩

theorem Inv.compareInverse (h : c.Inv) {sum : Word}
    (hplace : c.place = .compareInverse sum) : c.next.Inv := by
  have hwired := h.wired_of hplace (by simp)
  have hknown := h.known
  simp only [Known, hplace] at hknown
  simp only [next, hplace]
  exact h.goto hwired ⟨hknown.1, fun _ => hknown.2.1.symm.trans hknown.2.2⟩

theorem Inv.reply (h : c.Inv) {following : Byte}
    (hplace : c.place = .reply following) : (c.reply following).Inv := by
  have hknown := h.known
  simp only [Known, hplace] at hknown
  obtain ⟨hwired, harmed⟩ := h.idle hplace (by simp) And.left
  have hmain : c.ram romMainLoopState ≠ 0x13 := fun h13 => harmed (Or.inl h13)
  unfold Conf.reply
  split_ifs
  · exact h.goto hwired fun harmed' => absurd harmed' harmed
  · exact h.become hwired.setXmit (SameKeys.set (fun _ _ => rfl) (by decide) _)
      hmain fun heq => absurd heq hknown.2

theorem Inv.next (h : c.Inv) (hstarted : c.place ≠ .started) :
    c.next.Inv := by
  cases hplace : c.place with
  | boot counter => exact h.boot hplace
  | mainLoop =>
      rw [Conf.next, hplace]
      exact h.mainLoop hplace
  | holdoff => exact h.holdoff hplace
  | launch =>
      have hknown := h.known
      simp only [Known, hplace] at hknown
      rw [Conf.next, hplace]
      exact h.goto (h.wired_of hplace (by simp)) hknown
  | started => exact absurd hplace hstarted
  | init =>
      rw [Conf.next, hplace]
      exact h.init (by decide) (Or.inr rfl)
  | update =>
      rw [Conf.next, hplace]
      exact h.update hplace
  | check addr sum =>
      rw [Conf.next, hplace]
      exact h.check hplace
  | compare sum => exact h.compare hplace
  | compareInverse sum => exact h.compareInverse hplace
  | verdict good => exact h.verdict hplace
  | unlock =>
      rw [Conf.next, hplace]
      exact h.unlock hplace
  | receiveData =>
      obtain ⟨hwired, harmed⟩ := h.idle hplace (by simp) id
      rw [Conf.next, hplace]
      exact h.goto hwired harmed
  | receiveFrom stop =>
      obtain ⟨hwired, harmed⟩ := h.idle hplace (by simp) id
      rw [Conf.next, hplace]
      exact h.goto hwired harmed
  | receiveLoop stop r4 count =>
      rw [Conf.next, hplace]
      exact h.receiveLoop hplace
  | receiveEnd r4 =>
      obtain ⟨hwired, harmed⟩ := h.idle hplace (by simp) id
      rw [Conf.next, hplace]
      exact h.move ((hwired.set (by decide) _).set (by decide) _)
        (SameKeys.set (SameKeys.set (fun _ _ => rfl) (by decide) _)
          (by decide) _) harmed
  | message =>
      rw [Conf.next, hplace]
      exact h.message hplace
  | startDownload =>
      rw [Conf.next, hplace]
      exact h.startDownload hplace
  | downloadNumber =>
      obtain ⟨hwired, harmed⟩ := h.idle hplace (by simp) id
      rw [Conf.next, hplace]
      exact h.move (hwired.set16 (by decide) (by decide) _)
        (SameKeys.set16 (fun _ _ => rfl) (by decide) (by decide) _) harmed
  | downloadPtr =>
      obtain ⟨hwired, harmed⟩ := h.idle hplace (by simp) id
      rw [Conf.next, hplace]
      exact h.move (hwired.set16 (by decide) (by decide) _)
        (SameKeys.set16 (fun _ _ => rfl) (by decide) (by decide) _)
        ⟨harmed, by decide, by decide⟩
  | clear r1 =>
      rw [Conf.next, hplace]
      exact h.clear hplace
  | transfer =>
      rw [Conf.next, hplace]
      exact h.transfer hplace
  | transferDone =>
      obtain ⟨hwired, harmed⟩ := h.idle hplace (by simp) id
      rw [Conf.next, hplace]
      exact h.become (hwired.set16 (by decide) (by decide) _)
        (SameKeys.set16 (fun _ _ => rfl) (by decide) (by decide) _)
        (fun h13 => harmed (Or.inl h13)) fun heq => absurd heq (by decide)
  | reply following =>
      rw [Conf.next, hplace]
      exact h.reply hplace
  | ending =>
      have hknown := h.known
      simp only [Known, hplace] at hknown
      rw [Conf.next, hplace]
      exact h.goto (h.wired_of hplace (by simp)) hknown
  | returned =>
      rw [Conf.next, hplace]
      exact h.returned hplace

end Conf

end MainLoop

section Interrupts

theorem Aside.keys (h : Aside m m') : SameKeys m m' := by
  intro addr haddr
  apply h.guarded
  rcases haddr with hin | rfl | rfl | rfl | rfl
  · exact Or.inl hin
  · right
    decide
  · right
    decide
  · right
    decide
  · right
    decide

theorem Aside.wired (h : Aside m m') (hwired : Wired m) : Wired m' where
  timer := by
    rw [Ram.get16, h.guarded _ (by decide), h.guarded _ (by decide)]
    exact hwired.timer
  runFlag := by
    rw [Ram.get16, h.guarded _ (by decide), h.guarded _ (by decide)]
    exact hwired.runFlag
  index := by
    rw [h.guarded _ (by decide)]
    exact hwired.index
  xmitFlag := h.xmitFlag

theorem key_not_scratch {addr : Word} (haddr : Key addr) :
    ¬ Scratch addr := by
  rcases haddr with ⟨hlow, hhigh⟩ | rfl | rfl | rfl | rfl
  · intro hscratch
    simp only [Scratch] at hscratch
    omega
  · decide
  · decide
  · decide
  · decide

theorem Tidy.keys (h : Tidy m m') : SameKeys m m' :=
  fun addr haddr => h.frame addr (key_not_scratch haddr)

namespace Conf

/-- The byte has been added to a sum that the start of the firmware relies
on. -/
def Relies (c : Conf) (addr : Word) : Prop :=
  match c.place with
  | .check next _ => addr.toNat < next.toNat
  | .compare _ | .compareInverse _ => True
  | .verdict good => good = true
  | _ => c.Armed

/-- A byte of data goes below the variables of the ROM, and where the check
has been, it is the byte that is there. -/
def Spares (c : Conf) : Event → Prop
  | .received byte =>
      ∀ addr, storesAt c.ram = some addr →
        Below addr ∧ (InFirmware addr → c.Relies addr → c.ram addr = byte)
  | _ => True

theorem Inv.setRam (h : c.Inv) (hwired : c.Listening → Wired m)
    (hkeys : SameKeys c.ram m) : ({ c with ram := m } : Conf).Inv where
  announced := hkeys.checksum.trans h.announced
  wired hlistening := by
    apply hwired
    obtain ⟨hstarted, hinit, hboot, hmain⟩ := hlistening
    refine ⟨hstarted, hinit, hboot, fun hplace => ?_⟩
    rw [← hkeys romMainLoopState (by decide)]
    exact hmain hplace
  known := known_congr h.known hkeys

theorem firmwareSum_split (m : Ram) {addr : Word} (hin : InFirmware addr) :
    firmwareSum m = sumBytes m 0x8000 (addr.toNat - 0x8000) +
      sumBytes m addr (0xcc00 - addr.toNat) := by
  have hlow := hin.1
  have hhigh := hin.2
  have hstart : (0x8000 : Word).toNat = 0x8000 := rfl
  have hnext : (0x8000 : Word) + BitVec.ofNat 16 (addr.toNat - 0x8000) =
      addr := by
    apply BitVec.eq_of_toNat_eq
    rw [BitVec.toNat_add, BitVec.toNat_ofNat, hstart]
    omega
  have hcount : addr.toNat - 0x8000 + (0xcc00 - addr.toNat) = 0x4c00 := by
    omega
  have happend : sumBytes m 0x8000 (addr.toNat - 0x8000 +
      (0xcc00 - addr.toNat)) = sumBytes m 0x8000 (addr.toNat - 0x8000) +
        sumBytes m (0x8000 + BitVec.ofNat 16 (addr.toNat - 0x8000))
          (0xcc00 - addr.toNat) :=
    sumBytes_append m _ _ (by omega) (by omega)
  rw [hcount, hnext] at happend
  exact happend

/-- A byte that has not been added is replaced. -/
theorem Inv.setData (h : c.Inv) (hlistening : c.Listening) {a : Word}
    (ha : InFirmware a) (hrelies : ¬ c.Relies a) (byte : Byte) :
    ({ c with ram := c.ram.set a byte } : Conf).Inv := by
  have hother {addr : Word} (haddr : ¬ InFirmware addr) :
      (c.ram.set a byte) addr = c.ram addr :=
    Ram.set_of_ne fun heq => haddr (heq ▸ ha)
  have harmed : ({ c with ram := c.ram.set a byte } : Conf).Armed ↔
      c.Armed := by
    simp only [Armed]
    rw [hother (by decide), hother (by decide)]
  constructor
  · change (c.ram.set a byte).get16 highFirmwareChecksum = _
    rw [Ram.get16, hother (by decide), hother (by decide)]
    exact h.announced
  · intro _
    apply (h.wired hlistening).setData
    have hhigh := ha.2
    rw [Below]
    omega
  · have hknown := h.known
    obtain ⟨place, asleep, ram, announced⟩ := c
    cases place with
    | boot counter => trivial
    | init => trivial
    | mainLoop =>
        intro _ harmed'
        exact absurd (harmed.mp harmed') hrelies
    | ending => exact fun harmed' => absurd (harmed.mp harmed') hrelies
    | returned => exact fun harmed' => absurd (harmed.mp harmed') hrelies
    | holdoff => exact absurd (Or.inl hknown.1) hrelies
    | launch => exact absurd (Or.inl hknown.1) hrelies
    | started => exact absurd (Or.inl hknown.1) hrelies
    | unlock => exact absurd (Or.inr hknown.1) hrelies
    | update =>
        have h3 : ram romUpdateState ≠ 3 := fun heq => hrelies (Or.inr heq)
        refine ⟨?_, fun heq => absurd ((hother (by decide)).symm.trans heq) h3⟩
        exact fun heq => hknown.1 ((hother (by decide)).symm.trans heq)
    | check next sum =>
        obtain ⟨hidle, hin, hsum⟩ := hknown
        have hlow := hin.1
        have hhigh := hin.2
        have hle : next.toNat ≤ a.toNat := Nat.le_of_not_lt hrelies
        refine ⟨fun harmed' => hidle (harmed.mp harmed'), hin, ?_⟩
        have hstart : (0x8000 : Word).toNat = 0x8000 := rfl
        -- The bytes in front of the place are those that have been added.
        have hfront : sumBytes (ram.set a byte) 0x8000 (next.toNat - 0x8000) =
            sumBytes ram 0x8000 (next.toNat - 0x8000) := by
          apply sumBytes_congr _ (by omega) (by omega)
          rintro b - hb
          apply Ram.set_of_ne
          rintro rfl
          omega
        have hchecked : sum =
            sumBytes ram 0x8000 (next.toNat - 0x8000) := by
          rw [firmwareSum_split ram hin] at hsum
          exact (BitVec.add_left_inj _).mp hsum
        rw [firmwareSum_split _ hin, hfront, hchecked]
    | compare sum => exact absurd trivial hrelies
    | compareInverse sum => exact absurd trivial hrelies
    | verdict good =>
        exact ⟨fun harmed' => hknown.1 (harmed.mp harmed'),
          fun hgood => absurd hgood hrelies⟩
    | clear r1 =>
        exact ⟨fun harmed' => hrelies (harmed.mp harmed'), hknown.2⟩
    | reply following =>
        exact ⟨fun harmed' => hrelies (harmed.mp harmed'), hknown.2⟩
    | _ => exact fun harmed' => hrelies (harmed.mp harmed')

theorem Inv.received (h : c.Inv) {byte : Byte} (hlistening : c.Listening)
    (hspares : c.Spares (.received byte)) :
    (c.after (.received byte)).Inv := by
  have hwired := h.wired hlistening
  have htidy : Tidy (withData byte c.ram) (rxiHandler byte c.ram) :=
    tidy_rxiHandler hwired fun addr haddr => (hspares addr haddr).1
  have hdata : ({ c with ram := withData byte c.ram } : Conf).Inv := by
    cases hstores : storesAt c.ram with
    | none =>
        rw [withData_of_none hstores]
        exact h
    | some addr =>
        obtain ⟨hbelow, hsame⟩ := hspares addr hstores
        rw [withData_of_some hstores]
        by_cases hin : InFirmware addr
        · by_cases hrelies : c.Relies addr
          · rw [← hsame hin hrelies, Ram.set, Function.update_eq_self]
            exact h
          · exact h.setData hlistening hin hrelies byte
        · apply h.setRam fun _ => hwired.setData hbelow byte
          apply SameKeys.set fun _ _ => rfl
          rintro (hin' | rfl | rfl | rfl | rfl)
          · exact hin hin'
          · exact absurd hbelow (by decide)
          · exact absurd hbelow (by decide)
          · exact absurd hbelow (by decide)
          · exact absurd hbelow (by decide)
  exact hdata.setRam (fun _ => htidy.wired) htidy.keys

theorem Inv.sleep (h : c.Inv) (hplace : c.place = .ending) :
    (c.store romMainLoopState 8).Inv := by
  have hwired := h.wired_of hplace (by simp)
  have hknown := h.known
  simp only [Known, hplace] at hknown
  constructor
  · change (c.ram.set romMainLoopState 8).get16 highFirmwareChecksum = _
    rw [Ram.get16_set_of_ne (by decide) (by decide)]
    exact h.announced
  · intro _
    exact hwired.set (by decide) 8
  · simp only [Known, store, hplace]
    rw [firmwareSum_set (by decide)]
    rintro (h13 | h3)
    · change (c.ram.set romMainLoopState 8) romMainLoopState = _ at h13
      rw [Ram.set_self] at h13
      exact absurd h13 (by decide)
    · change (c.ram.set romMainLoopState 8) romUpdateState = _ at h3
      rw [Ram.set_of_ne (by decide)] at h3
      exact hknown (Or.inr h3)

theorem Inv.after (h : c.Inv) {event : Event} (hpossible : c.Possible event)
    (hspares : c.Spares event) : (c.after event).Inv := by
  cases event with
  | main => exact h.next hpossible
  | aside m' =>
      exact h.setRam (fun hlistening => hpossible.2.wired (h.wired hlistening))
        hpossible.2.keys
  | sleep => exact h.sleep hpossible
  | received byte => exact h.received hpossible hspares
  | error =>
      have htidy := (h.wired hpossible).tidy.eriHandler
      exact h.setRam (fun _ => htidy.wired) htidy.keys

end Conf

end Interrupts

section Runs

namespace Conf

/-- The ROM starts at a reset; what is announced first is what the memory
holds. -/
structure Starts (c : Conf) : Prop where
  place : ∃ counter, c.place = .boot counter
  announced : c.ram.get16 highFirmwareChecksum = c.announced

theorem Starts.inv (h : c.Starts) : c.Inv where
  announced := h.announced
  wired hlistening := by
    obtain ⟨counter, hplace⟩ := h.place
    exact absurd hplace (hlistening.2.2.1 counter)
  known := by
    obtain ⟨counter, hplace⟩ := h.place
    simp only [Known, hplace]

/-- A step in which the received byte spares what is verified. -/
def SparingStep (c c' : Conf) : Prop :=
  ∃ event, c.Possible event ∧ c.Spares event ∧ c' = c.after event

theorem Inv.run {c' : Conf} (h : c.Inv)
    (hrun : Relation.ReflTransGen SparingStep c c') : c'.Inv := by
  induction hrun with
  | refl => exact h
  | tail _ hstep ih =>
      obtain ⟨event, hpossible, hspares, rfl⟩ := hstep
      exact ih.after hpossible hspares

theorem started_verified {c' : Conf} (hstarts : c.Starts)
    (hrun : Relation.ReflTransGen SparingStep c c')
    (hstarted : c'.place = .started) :
    firmwareSum c'.ram = c'.announced := by
  have hknown := (hstarts.inv.run hrun).known
  simp only [Known, hstarted] at hknown
  exact hknown.2

end Conf

end Runs

end Rom

end BrickEmu
