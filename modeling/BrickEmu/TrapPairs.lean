import BrickEmu.DebuggerBounds

/-!
# Setting and clearing breakpoints

The packet `Z` or-s the mask of its type into `memtype` and the packet `z`
takes the same bits out again.  The map also holds the write protection of
the ROM, and the types share bits, so that `z` gives back the map of before
exactly if none of the bits was there.

The packets of a session come in pairs that enclose one another.  A nest of
pairs leaves the map as `mem_init` has set it up if every `Z` in it finds its
bits free.
-/

namespace BrickEmu

open Machine

/-! ## Marks in a map -/

/-- Taking out the bits of a mask undoes putting them in for the values that
have none of them. -/
theorem or_and_not_eq_self_iff {w : ℕ} (x mask : BitVec w) :
    (x ||| mask) &&& ~~~mask = x ↔ x &&& mask = 0 := by
  have hbits : ∀ a b : Bool, ((a || b) && !b) = a ↔ (a && b) = false := by
    decide
  constructor
  · intro h
    apply BitVec.eq_of_getLsbD_eq
    intro i hi
    have hbit := congrArg (fun y : BitVec w => y.getLsbD i) h
    simp only [BitVec.getLsbD_and, BitVec.getLsbD_or, BitVec.getLsbD_not, hi,
      decide_true, Bool.true_and] at hbit
    rw [BitVec.getLsbD_and, (hbits _ _).mp hbit]
    simp
  · intro h
    apply BitVec.eq_of_getLsbD_eq
    intro i hi
    have hbit := congrArg (fun y : BitVec w => y.getLsbD i) h
    simp only [BitVec.getLsbD_and, BitVec.ofNat_eq_ofNat,
      BitVec.getLsbD_zero] at hbit
    simp only [BitVec.getLsbD_and, BitVec.getLsbD_or, BitVec.getLsbD_not, hi,
      decide_true, Bool.true_and]
    exact (hbits _ _).mpr hbit

/-- The addresses `first .. first + count` of a packet that is accepted, and
the bits of its type. -/
structure TrapRange where
  mask : Byte
  first : ℕ
  count : ℕ
  deriving DecidableEq

namespace TrapRange

def Covers (range : TrapRange) (addr : ℕ) : Prop :=
  range.first ≤ addr ∧ addr < range.first + range.count

instance (range : TrapRange) (addr : ℕ) : Decidable (range.Covers addr) :=
  inferInstanceAs (Decidable (_ ∧ _))

/-- The loop of both packets over the map. -/
def onMap (range : TrapRange) (change : Byte → Byte → Byte)
    (map : ℕ → Byte) (addr : ℕ) : Byte :=
  if range.Covers addr then change range.mask (map addr) else map addr

/-- None of the bits is set on any of the addresses. -/
def Free (range : TrapRange) (map : ℕ → Byte) : Prop :=
  ∀ addr, range.Covers addr → map addr &&& range.mask = 0

theorem onMap_clear_set_iff (range : TrapRange) (map : ℕ → Byte) :
    range.onMap (fun mask type => type &&& ~~~mask)
        (range.onMap (fun mask type => type ||| mask) map) = map ↔
      range.Free map := by
  constructor
  · intro h addr hcovers
    have hat := congrFun h addr
    rw [onMap, if_pos hcovers, onMap, if_pos hcovers] at hat
    exact (or_and_not_eq_self_iff _ _).mp hat
  · intro hfree
    funext addr
    by_cases hcovers : range.Covers addr
    · rw [onMap, if_pos hcovers, onMap, if_pos hcovers]
      exact (or_and_not_eq_self_iff _ _).mpr (hfree addr hcovers)
    · rw [onMap, if_neg hcovers, onMap, if_neg hcovers]

/-- What a packet with this text changes, if it is accepted. -/
def ofText (text : List Byte) : Option TrapRange :=
  match parseTraps text with
  | some (type, addr, length) =>
      if rangeAllowed addr length ∧ 0 ≤ type.toInt ∧ type.toInt < 6 then
        some ⟨bptype2mask.getD type.toNat 0, addr.toInt.toNat,
          ((addr + length).toInt - addr.toInt).toNat⟩
      else none
  | none => none

end TrapRange

/-! ## The two packets -/

namespace Monitor

theorem puts_machine (text : List Byte) :
    ∀ s : Monitor, (s.puts text).machine = s.machine := by
  induction text with
  | nil =>
      intro s
      rfl
  | cons ch text ih =>
      intro s
      exact ih (s.put ch)

theorem dbSendPacket_machine (s : Monitor) :
    s.dbSendPacket.machine = s.machine := by
  rw [dbSendPacket]
  split <;> rfl

theorem reply_machine (start : BitVec 32) (s : Monitor) :
    (s.reply start).machine = s.machine := by
  rw [reply, dbSendPacket_machine]
  rfl

theorem changeTraps_memtype (change : Byte → Byte → Byte) (mask : Byte)
    (count : ℕ) :
    ∀ (first : ℕ) (s : Monitor),
      (changeTraps (change mask) count first s).machine.memtype =
        TrapRange.onMap ⟨mask, first, count⟩ change s.machine.memtype := by
  induction count with
  | zero =>
      intro first s
      funext addr
      have hnone : ¬TrapRange.Covers ⟨mask, first, 0⟩ addr := by
        rintro ⟨hlow, hhigh⟩
        simp only at hlow hhigh
        omega
      rw [TrapRange.onMap, if_neg hnone]
      rfl
  | succ count ih =>
      intro first s
      have hnext : ((first : ℤ) + 1) = ((first + 1 : ℕ) : ℤ) := by
        push_cast
        rfl
      rw [changeTraps, hnext, ih]
      funext addr
      by_cases hat : addr = first
      · subst hat
        have hdone : ¬TrapRange.Covers ⟨mask, addr + 1, count⟩ addr := by
          rintro ⟨hlow, -⟩
          simp only at hlow
          omega
        have hfirst : TrapRange.Covers ⟨mask, addr, count + 1⟩ addr :=
          ⟨le_refl _, by simp only; omega⟩
        rw [TrapRange.onMap, if_neg hdone, TrapRange.onMap, if_pos hfirst]
        simp [log, onMachine, setMemtype]
      · have hsame : TrapRange.Covers ⟨mask, first + 1, count⟩ addr ↔
            TrapRange.Covers ⟨mask, first, count + 1⟩ addr := by
          simp only [TrapRange.Covers]
          omega
        simp only [TrapRange.onMap, hsame]
        simp [log, onMachine, setMemtype, Function.update_of_ne hat]

/-- A packet changes the map on its range, and not at all if it is
rejected. -/
theorem traps_memtype (change : Byte → Byte → Byte) (text : List Byte)
    (s : Monitor) :
    (s.traps change text).machine.memtype =
      ((TrapRange.ofText text).map fun range =>
        range.onMap change s.machine.memtype).getD s.machine.memtype := by
  rw [traps, TrapRange.ofText]
  cases hparse : parseTraps text with
  | none => exact congrArg Machine.memtype (puts_machine _ _)
  | some parsed =>
      obtain ⟨type, addr, length⟩ := parsed
      by_cases hallowed :
          rangeAllowed addr length ∧ 0 ≤ type.toInt ∧ type.toInt < 6
      · have hfirst : addr.toInt = (addr.toInt.toNat : ℤ) :=
          (Int.toNat_of_nonneg hallowed.1.1).symm
        simp only [if_pos hallowed, puts_machine, Option.map_some,
          Option.getD_some]
        rw [hfirst, changeTraps_memtype]
        rfl
      · simp only [if_neg hallowed, puts_machine, Option.map_none,
          Option.getD_none]

end Monitor

/-- A packet `Z` or `z` with the text behind the letter. -/
inductive TrapPacket where
  | set (text : List Byte)
  | clear (text : List Byte)
  deriving DecidableEq

def TrapPacket.content : TrapPacket → List Byte
  | .set text => 0x5a :: text
  | .clear text => 0x7a :: text

namespace Monitor

def handlePackets (packets : List TrapPacket) (s : Monitor) : Monitor :=
  packets.foldl (fun s packet => s.dbHandlePacket packet.content) s

/-- The map after a packet `Z`. -/
def mapSet (text : List Byte) (map : ℕ → Byte) : ℕ → Byte :=
  ((TrapRange.ofText text).map fun range =>
    range.onMap (fun mask type => type ||| mask) map).getD map

/-- The map after a packet `z`. -/
def mapClear (text : List Byte) (map : ℕ → Byte) : ℕ → Byte :=
  ((TrapRange.ofText text).map fun range =>
    range.onMap (fun mask type => type &&& ~~~mask) map).getD map

theorem handle_set_memtype (text : List Byte) (s : Monitor) :
    (s.handlePackets [.set text]).machine.memtype =
      mapSet text s.machine.memtype := by
  have hcommand : s.handlePackets [.set text] =
      ((s.put DOLLAR).setTraps text).reply (s.put DOLLAR).outLen := rfl
  rw [hcommand, reply_machine, setTraps, traps_memtype]
  rfl

theorem handle_clear_memtype (text : List Byte) (s : Monitor) :
    (s.handlePackets [.clear text]).machine.memtype =
      mapClear text s.machine.memtype := by
  have hcommand : s.handlePackets [.clear text] =
      ((s.put DOLLAR).clearTraps text).reply (s.put DOLLAR).outLen := rfl
  rw [hcommand, reply_machine, clearTraps, traps_memtype]
  rfl

theorem handle_pair_memtype (text : List Byte) (s : Monitor) :
    (s.handlePackets [.set text, .clear text]).machine.memtype =
      mapClear text (mapSet text s.machine.memtype) := by
  have hpair : s.handlePackets [.set text, .clear text] =
      (s.handlePackets [.set text]).handlePackets [.clear text] := by
    simp only [handlePackets, List.foldl_cons, List.foldl_nil]
  rw [hpair, handle_clear_memtype, handle_set_memtype]

/-- The packets `Z` and `z` with one text leave the map as it was. -/
def Undone (text : List Byte) (s : Monitor) : Prop :=
  (s.handlePackets [.set text, .clear text]).machine.memtype =
    s.machine.memtype

/-- If the packet is accepted, no address of its range has one of the bits of
its type, neither from another breakpoint nor from the protection of the
ROM. -/
def FindsFree (text : List Byte) (s : Monitor) : Prop :=
  ∀ range ∈ TrapRange.ofText text, range.Free s.machine.memtype

theorem mapClear_mapSet_iff (text : List Byte) (map : ℕ → Byte) :
    mapClear text (mapSet text map) = map ↔
      ∀ range ∈ TrapRange.ofText text, range.Free map := by
  rw [mapClear, mapSet]
  cases TrapRange.ofText text with
  | none => simp
  | some range => simp [TrapRange.onMap_clear_set_iff]

theorem undone_iff (text : List Byte) (s : Monitor) :
    s.Undone text ↔ s.FindsFree text := by
  rw [Undone, handle_pair_memtype, mapClear_mapSet_iff, FindsFree]

end Monitor

/-! ## Nests of pairs -/

/-- Well-nested pairs of packets: a pair with the pairs it encloses, and the
pairs behind it. -/
inductive TrapNest where
  | nil
  | pair (text : List Byte) (inner rest : TrapNest)

namespace TrapNest

def packets : TrapNest → List TrapPacket
  | nil => []
  | pair text inner rest =>
      (.set text :: inner.packets) ++ (.clear text :: rest.packets)

/-- Behind the `z` of every pair the map is that from in front of its `Z`. -/
def Restores : TrapNest → Monitor → Prop
  | nil, _ => True
  | pair text inner rest, s =>
      let opened := s.handlePackets [.set text]
      let closed := (opened.handlePackets inner.packets).handlePackets
        [.clear text]
      inner.Restores opened ∧ closed.machine.memtype = s.machine.memtype ∧
        rest.Restores closed

/-- Every `Z` finds the bits of its type free. -/
def FindsFree : TrapNest → Monitor → Prop
  | nil, _ => True
  | pair text inner rest, s =>
      let opened := s.handlePackets [.set text]
      let closed := (opened.handlePackets inner.packets).handlePackets
        [.clear text]
      s.FindsFree text ∧ inner.FindsFree opened ∧ rest.FindsFree closed

theorem handlePackets_pair (text : List Byte) (inner rest : TrapNest)
    (s : Monitor) :
    s.handlePackets (pair text inner rest).packets =
      (((s.handlePackets [.set text]).handlePackets
        inner.packets).handlePackets [.clear text]).handlePackets
          rest.packets := by
  simp only [packets, Monitor.handlePackets, List.foldl_append,
    List.foldl_cons, List.foldl_nil]

theorem Restores.memtype {nest : TrapNest} {s : Monitor}
    (h : nest.Restores s) :
    (s.handlePackets nest.packets).machine.memtype = s.machine.memtype := by
  induction nest generalizing s with
  | nil => rfl
  | pair text inner rest _ ihrest =>
      obtain ⟨-, hclosed, hrest⟩ := h
      rw [handlePackets_pair, ihrest hrest, hclosed]

/-- A pair around pairs that restore the map is like the pair alone. -/
theorem closed_memtype_iff {text : List Byte} {inner : TrapNest}
    {s : Monitor} (hinner : inner.Restores (s.handlePackets [.set text])) :
    (((s.handlePackets [.set text]).handlePackets
        inner.packets).handlePackets [.clear text]).machine.memtype =
        s.machine.memtype ↔
      s.FindsFree text := by
  rw [Monitor.handle_clear_memtype, hinner.memtype,
    Monitor.handle_set_memtype, Monitor.mapClear_mapSet_iff,
    Monitor.FindsFree]

theorem restores_iff (nest : TrapNest) (s : Monitor) :
    nest.Restores s ↔ nest.FindsFree s := by
  induction nest generalizing s with
  | nil => exact Iff.rfl
  | pair text inner rest ihinner ihrest =>
      constructor
      · intro h
        obtain ⟨hinner, hclosed, hrest⟩ := h
        exact ⟨(closed_memtype_iff hinner).mp hclosed,
          (ihinner _).mp hinner, (ihrest _).mp hrest⟩
      · intro h
        obtain ⟨htext, hinner, hrest⟩ := h
        have hinner' := (ihinner _).mpr hinner
        exact ⟨hinner', (closed_memtype_iff hinner').mpr htext,
          (ihrest _).mpr hrest⟩

end TrapNest

/-! ## From the map of `mem_init` -/

/-- The only bit of a type that `mem_init` sets is the write trap of the
ROM. -/
theorem memInit_and_mask_iff {mask : Byte} (hmask : mask ∈ bptype2mask)
    (addr : ℕ) :
    memInit addr &&& mask = 0 ↔
      mask &&& MEMTYPE_WRITETRAP = 0 ∨ 0x4000 ≤ addr := by
  have hrom : ∀ mask ∈ bptype2mask,
      (MEMTYPE_FAST ||| MEMTYPE_WRITETRAP) &&& mask = 0 ↔
        mask &&& MEMTYPE_WRITETRAP = 0 := by decide
  have helsewhere : ∀ mask ∈ bptype2mask, ∀ type ∈
      [MEMTYPE_DIV, 0, MEMTYPE_MOTOR, MEMTYPE_FAST], type &&& mask = 0 := by
    decide
  by_cases haddr : addr < 0x4000
  · have hnot : ¬0x4000 ≤ addr := by omega
    rw [memInit, if_pos haddr, hrom mask hmask, or_iff_left hnot]
  · have htype : memInit addr ∈
        [MEMTYPE_DIV, 0, MEMTYPE_MOTOR, MEMTYPE_FAST] := by
      rw [memInit, if_neg haddr]
      repeat' split
      all_goals simp
    exact iff_of_true (helsewhere mask hmask _ htype) (.inr (by omega))

theorem TrapRange.mask_mem {text : List Byte} {range : TrapRange}
    (h : range ∈ ofText text) : range.mask ∈ bptype2mask := by
  rw [ofText] at h
  split at h
  · next type addr length _ =>
      split at h
      · next hallowed =>
          obtain rfl := Option.some.inj h
          obtain ⟨-, hlow, hhigh⟩ := hallowed
          have htype : type.toNat < 6 := by
            rw [BitVec.toInt_eq_toNat_cond] at hlow hhigh
            split at hlow <;> omega
          rw [List.getD_eq_getElem?_getD, List.getElem?_eq_getElem htype]
          exact List.getElem_mem htype
      · cases h
  · cases h

/-- On the map of `mem_init` the packets that are not undone are those for
writes, or for all accesses, that reach into the ROM. -/
theorem free_memInit_iff {text : List Byte} {range : TrapRange}
    (h : range ∈ TrapRange.ofText text) :
    range.Free memInit ↔
      range.mask &&& MEMTYPE_WRITETRAP = 0 ∨ range.count = 0 ∨
        0x4000 ≤ range.first := by
  have hmask := TrapRange.mask_mem h
  constructor
  · intro hfree
    by_cases hcount : range.count = 0
    · exact .inr (.inl hcount)
    · have hfirst := hfree range.first ⟨le_refl _, by omega⟩
      rcases (memInit_and_mask_iff hmask _).mp hfirst with hno | hram
      · exact .inl hno
      · exact .inr (.inr hram)
  · intro hcase addr hcovers
    obtain ⟨hlow, hhigh⟩ := hcovers
    rw [memInit_and_mask_iff hmask]
    rcases hcase with hno | hempty | hram
    · exact .inl hno
    · omega
    · exact .inr (by omega)

/-- For every nest of pairs that starts with the map of `mem_init`: wherever
it is interrupted, a packet is undone exactly if it finds its bits free; all
pairs of the nest restore the map exactly if each of them does; and then the
ROM has its write traps at the end. -/
theorem trapPairs_iff (start : Monitor) (nest : TrapNest)
    (hstart : start.machine.memtype = memInit) :
    (∀ done rest, nest.packets = done ++ rest → ∀ text,
      ((start.handlePackets done).Undone text ↔
        (start.handlePackets done).FindsFree text)) ∧
    (nest.Restores start ↔ nest.FindsFree start) ∧
    (nest.FindsFree start →
      (start.handlePackets nest.packets).machine.memtype = memInit) := by
  refine ⟨fun done rest _ text => Monitor.undone_iff text _,
    nest.restores_iff start, ?_⟩
  intro hfree
  rw [((nest.restores_iff start).mpr hfree).memtype, hstart]

/-- `1,9000,2` -/
def breakpointText : List Byte :=
  [0x31, 0x2c, 0x39, 0x30, 0x30, 0x30, 0x2c, 0x32, 0]

/-- `3,8ffe,4` -/
def readTrapText : List Byte :=
  [0x33, 0x2c, 0x38, 0x66, 0x66, 0x65, 0x2c, 0x34, 0]

/-- `2,100,1` -/
def romWatchText : List Byte :=
  [0x32, 0x2c, 0x31, 0x30, 0x30, 0x2c, 0x31, 0]

/-- A breakpoint inside the range of a trap for reads. -/
theorem trapPairs_breakpointInside :
    (Session.begin.toMonitor.handlePackets
      (TrapNest.pair readTrapText (.pair breakpointText .nil .nil)
        .nil).packets).machine.memtype = memInit := by
  have hread : TrapRange.ofText readTrapText =
      some ⟨MEMTYPE_READTRAP, 0x8ffe, 4⟩ := by decide
  have hbreak : TrapRange.ofText breakpointText =
      some ⟨MEMTYPE_BREAKPOINT, 0x9000, 2⟩ := by decide
  have htypes : ∀ range ∈ TrapRange.ofText readTrapText,
      range.Free memInit := by
    intro range hrange
    refine (free_memInit_iff hrange).mpr (.inr (.inr ?_))
    rw [hread] at hrange
    obtain rfl := Option.some.inj hrange
    decide
  refine (trapPairs_iff Session.begin.toMonitor _ rfl).2.2
    ⟨htypes, ⟨?_, trivial, trivial⟩, trivial⟩
  intro range hrange addr hcovers
  rw [Monitor.handle_set_memtype, Monitor.mapSet, hread]
  rw [hbreak] at hrange
  obtain rfl := Option.some.inj hrange
  obtain ⟨hlow, hhigh⟩ := hcovers
  simp only at hlow hhigh
  have haddr : addr = 0x9000 ∨ addr = 0x9001 := by omega
  rcases haddr with rfl | rfl <;> decide

/-- A watchpoint for writes at the ROM address 0x100 takes the write
protection of that address with it. -/
theorem trapPairs_fails_romWatch :
    ¬Session.begin.toMonitor.Undone romWatchText ∧
      ((Session.begin.toMonitor.handlePackets
        [.set romWatchText, .clear romWatchText]).machine.memtype 0x100 &&&
          MEMTYPE_WRITETRAP = 0) := by
  have hwatch : TrapRange.ofText romWatchText =
      some ⟨MEMTYPE_WRITETRAP, 0x100, 1⟩ := by decide
  have hafter : (Session.begin.toMonitor.handlePackets
      [.set romWatchText, .clear romWatchText]).machine.memtype 0x100 =
        MEMTYPE_FAST := by
    rw [Monitor.handle_pair_memtype, Monitor.mapClear, Monitor.mapSet,
      hwatch]
    decide
  constructor
  · intro hundone
    have hat := congrFun hundone 0x100
    rw [hafter] at hat
    revert hat
    decide
  · rw [hafter]
    decide

end BrickEmu
