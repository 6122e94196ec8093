import BrickEmu.SavefileIdentity

/-!
# The command that loads a state

`savefile_read_fd` falls through from the case that loads to the case that
saves: after a load, also after one that was given up, the file is written
anew.  The compression of `zlib` is a parameter; reading gives back what was
written, and other files are read as they are.
-/

namespace BrickEmu

structure Gzip where
  deflate : List Byte → List Byte
  inflate : List Byte → List Byte
  inflate_deflate (contents : List Byte) :
    inflate (deflate contents) = contents

/-- The file named in the command and the state afterwards. -/
def savefileReadFd (gz : Gzip) (junk : Buffer) (cmd : Byte)
    (file : List Byte) (e : Emulator) : Option (List Byte × Emulator) :=
  let save (e : Emulator) :=
    let result := savefileSave junk e
    (gz.deflate result.1, result.2)
  if cmd = 0x4c ∨ cmd = 0x6c then
    (savefileLoad junk (gz.inflate file) e).map fun result => save result.2
  else if cmd = 0x53 ∨ cmd = 0x73 then some (save e)
  else some (file, e)

/-- The loader gives the file up. -/
def Rejected (gz : Gzip) (junk : Buffer) (file : List Byte) (e : Emulator) :
    Prop :=
  ∃ exit e', savefileLoad junk (gz.inflate file) e = some (exit, e') ∧
    exit ≠ .done

/-- Nothing but the host's clock differs. -/
def SameState (e e' : Emulator) : Prop :=
  { e' with
    machine := { e'.machine with
      stopped := e.machine.stopped
      lastusecs := e.machine.lastusecs
      nextsleep := e.machine.nextsleep
      hostTimes := e.machine.hostTimes } } = e

/-- The command ends, the file is as before, time goes on as before, and a
file that is given up has changed nothing. -/
def LoadSafe (gz : Gzip) (junk : Buffer) (file : List Byte) (e : Emulator) :
    Prop :=
  ∃ file' e', savefileReadFd gz junk 0x4c file e = some (file', e') ∧
    file' = file ∧ e'.machine.stopped = e.machine.stopped ∧
    (Rejected gz junk file e → SameState e e')

section Stopped

theorem stopped_contTime_stopTime (m : Machine) :
    m.stopTime.contTime.stopped = m.stopped := by
  unfold Machine.stopTime
  split
  · next hstopped => simp [Machine.contTime, hstopped]
  · next hstopped =>
      unfold Machine.contTime
      split
      · next hone =>
          simp only at hone
          omega
      · rfl

theorem stopped_stopTime (m : Machine) :
    m.stopTime.stopped = m.stopped + 1 := by
  unfold Machine.stopTime
  split
  · next hstopped => simp [hstopped]
  · rfl

theorem stopped_contTime (m : Machine) :
    m.contTime.stopped = m.stopped - 1 := by
  unfold Machine.contTime
  split
  · next hstopped => simp [hstopped]
  · rfl

theorem stopped_loadData (buf : Buffer) (e : Emulator)
    (p : SavedPeripheral) :
    (p.loadData buf e).machine.stopped = e.machine.stopped := by
  cases p <;> rfl

theorem symbols_loadData (buf : Buffer) (e : Emulator)
    (p : SavedPeripheral) :
    (p.loadData buf e).symbols = e.symbols := by
  cases p <;> rfl

/-- Only the regular end of the loop lets time go on; the loop leaves the
symbols alone. -/
theorem loadBlocks_exit {fuel : ℕ} {id len buffer : Buffer}
    {e e' : Emulator} {file : ByteStream} {exit : LoadExit}
    (hload : loadBlocks fuel id len buffer e file = some (exit, e')) :
    e'.symbols = e.symbols ∧
      e'.machine.stopped = if exit = .done then e.machine.stopped - 1
        else e.machine.stopped := by
  induction fuel generalizing id len buffer e file with
  | zero => cases hload
  | succ fuel ih =>
      have hend : (e.frameInit.contTime).symbols = e.symbols ∧
          (e.frameInit.contTime).machine.stopped = e.machine.stopped - 1 :=
        ⟨rfl, stopped_contTime _⟩
      rw [loadBlocks] at hload
      split at hload
      · cases hload
        simpa using hend
      · simp only at hload
        split at hload
        · cases hload
          simpa using hend
        · split at hload
          · cases hload
            exact ⟨rfl, rfl⟩
          · split at hload
            · have hrest := ih hload
              rwa [stopped_loadData, symbols_loadData] at hrest
            · split at hload
              · cases hload
              · exact ih hload

theorem savefileLoad_stopped {junk : Buffer} {contents : List Byte}
    {e e' : Emulator} {exit : LoadExit}
    (hload : savefileLoad junk contents e = some (exit, e')) :
    e'.machine.stopped = if exit = .done then e.machine.stopped
      else e.machine.stopped + 1 := by
  have hstop : e.stopTime.machine.stopped = e.machine.stopped + 1 :=
    stopped_stopTime e.machine
  rw [savefileLoad] at hload
  simp only at hload
  split at hload
  · cases hload
    exact hstop
  · split at hload
    · cases hload
    · have hstopped := (loadBlocks_exit hload).2
      rw [hstopped]
      simp only [hstop]
      rfl

theorem savefileLoad_symbols {junk : Buffer} {contents : List Byte}
    {e e' : Emulator} (hload : savefileLoad junk contents e =
      some (.done, e')) :
    ∃ loaded : List Symbol,
      e'.symbols = loaded.foldl (fun root sym => symbolsAdd sym root)
        e.symbols ∧
      ∀ sym ∈ loaded, sym.name.length ≤ 32767 ∧ 0 ∉ sym.name := by
  rw [savefileLoad] at hload
  simp only at hload
  split at hload
  · cases hload
  · split at hload
    · cases hload
    · next hsymbols =>
        rw [(loadBlocks_exit hload).1]
        exact loadSymbolsLoop_added hsymbols

end Stopped

section Resave

variable (saved present : Emulator)

theorem saveData_contTime (buf : Buffer) (e : Emulator)
    (p : SavedPeripheral) :
    p.saveData buf e.contTime = p.saveData buf e := by
  unfold Emulator.contTime Machine.contTime
  split <;> rfl

theorem ofNat_storedCycle (cycles : ℕ) :
    BitVec.ofNat 32 (storedCycle cycles) = BitVec.ofNat 32 cycles := by
  apply BitVec.eq_of_toNat_eq
  simp [storedCycle]

theorem bytesCycle_storedCycle (cycles : ℕ) :
    bytesCycle (storedCycle cycles) = bytesCycle cycles := by
  rw [bytesCycle, bytesCycle, ofNat_storedCycle]

theorem buttons_stopTime (e : Emulator) :
    e.stopTime.machine.buttons = e.machine.buttons := by
  unfold Emulator.stopTime Machine.stopTime
  split <;> rfl

/-- The deadlines of the processor after a load, as they are saved again. -/
theorem bytesCycle_clock (buttons : Buttons) (clock : Clock)
    (hdeadline : buttons.urgent ≠ 0 →
      storedCycle clock.nextTimerCycle = storedCycle clock.cycles) :
    let stored : Clock := ⟨storedCycle clock.cycles,
      storedCycle clock.nextTimerCycle, storedCycle clock.nextNmiCycle⟩
    bytesCycle (btnCheckNextCycle buttons stored).cycles =
        bytesCycle clock.cycles ∧
      bytesCycle (btnCheckNextCycle buttons stored).nextTimerCycle =
        bytesCycle clock.nextTimerCycle ∧
      bytesCycle (btnCheckNextCycle buttons stored).nextNmiCycle =
        bytesCycle clock.nextNmiCycle := by
  intro stored
  unfold btnCheckNextCycle
  split
  · next hurgent =>
      refine ⟨bytesCycle_storedCycle _, ?_, bytesCycle_storedCycle _⟩
      change bytesCycle (storedCycle clock.cycles) = _
      rw [← hdeadline hurgent, bytesCycle_storedCycle]
  · exact ⟨bytesCycle_storedCycle _, bytesCycle_storedCycle _,
      bytesCycle_storedCycle _⟩

theorem saveData_restored (buf : Buffer) (p : SavedPeripheral)
    (hbuttons : present.machine.buttons.btnState =
      saved.machine.buttons.btnState)
    (hdeadline : saved.machine.buttons.urgent ≠ 0 →
      storedCycle saved.machine.clock.nextTimerCycle =
        storedCycle saved.machine.clock.cycles) :
    p.saveData buf (restored saved present) = p.saveData buf saved := by
  have hbtn : restoredButtons saved.machine present.stopTime.machine =
      saved.machine.buttons := by
    apply restoredButtons_eq
    rw [buttons_stopTime, hbuttons]
  rw [restored, saveData_contTime]
  cases p with
  | serial => rfl
  | periph =>
      obtain ⟨hcycles, htimer, hnmi⟩ := bytesCycle_clock
        saved.machine.buttons saved.machine.clock hdeadline
      have htrap : BitVec.ofNat 32 (storedCycle saved.machine.dbTrap) =
          BitVec.ofNat 32 saved.machine.dbTrap :=
        ofNat_storedCycle saved.machine.dbTrap
      let clock := btnCheckNextCycle
        (restoredButtons saved.machine present.stopTime.machine)
        (restoredProcessor saved.machine present.stopTime.machine).clock
      change bytes32 saved.waitStates ++ buf.slice 4 4 ++
        bytesCycle clock.cycles ++ bytesCycle clock.nextTimerCycle ++
        bytesCycle clock.nextNmiCycle ++
        bytes32 (BitVec.ofNat 32 (storedCycle saved.machine.dbTrap)) ++
        (List.range 16).map
          (fun nr => saved.machine.reg (BitVec.ofNat 4 nr)) ++
        bytes16 (if saved.machine.sleeping then saved.machine.pc - 2
          else saved.machine.pc) ++
        [saved.machine.ccr, saved.machine.syscr] = _
      rw [htrap]
      simp only [clock, hbtn]
      rw [restoredProcessor, hcycles, htimer, hnmi]
      rfl
  | t16 =>
      change t16Save buf (restoredT16 saved.machine _) = _
      simp only [t16Save, restoredT16, bytesCycle_storedCycle]
      rfl
  | t8 =>
      change t8Save buf (restoredT8 saved.machine _) = _
      simp only [t8Save, restoredT8, restoredChannel, bytesCycle_storedCycle]
      rfl
  | buttons =>
      change btnSave (restoredButtons saved.machine present.stopTime.machine) =
        _
      rw [hbtn]
      rfl
  | lcd => rfl
  | ad =>
      change adSave buf (restoredAd saved.machine _) = _
      simp only [adSave, restoredAd, bytesCycle_storedCycle]
      rfl
  | wdog =>
      change wdogSave buf (restoredWdog saved.machine) = _
      simp only [wdogSave, restoredWdog, bytesCycle_storedCycle]
      rfl

theorem saveBlocks_congr {e e' : Emulator}
    (hdata : ∀ (buf : Buffer) (p : SavedPeripheral),
      p.saveData buf e = p.saveData buf e') (buf : Buffer)
    (ps : List SavedPeripheral) :
    saveBlocks e buf ps = saveBlocks e' buf ps := by
  induction ps generalizing buf with
  | nil => rfl
  | cons p ps ih => rw [saveBlocks, saveBlocks, blockBytes, blockBytes,
      hdata, ih]

/-- Every byte written lies in a field or behind one that was written
before. -/
theorem savefileContents_junk (junk junk' : Buffer) (e : Emulator) :
    savefileContents junk e = savefileContents junk' e := by
  have hblocks : saveBlocks e junk SavedPeripheral.all =
      saveBlocks e junk' SavedPeripheral.all := by
    rfl
  rw [savefileContents, savefileContents, hblocks]

theorem slice_overlay (saved present : ℕ → Byte) :
    Buffer.slice (overlay saved present) 0 0x10000 =
      Buffer.slice saved 0 0x10000 := by
  apply List.map_congr_left
  intro addr haddr
  rw [List.mem_range'_1] at haddr
  rw [overlay, if_pos (by omega)]

/-- A file loaded into an empty table describes the state that it would be
written from. -/
theorem savefileContents_restored (junk : Buffer)
    (hbuttons : present.machine.buttons.btnState =
      saved.machine.buttons.btnState)
    (hdeadline : saved.machine.buttons.urgent ≠ 0 →
      storedCycle saved.machine.clock.nextTimerCycle =
        storedCycle saved.machine.clock.cycles)
    (hsymbols : (restored saved present).symbols.toList =
      saved.symbols.toList) :
    savefileContents junk (restored saved present) =
      savefileContents junk saved := by
  have hblocks : saveBlocks (restored saved present) junk
      SavedPeripheral.all = saveBlocks saved junk SavedPeripheral.all :=
    saveBlocks_congr (fun buf p =>
      saveData_restored saved present buf p hbuttons hdeadline) _ _
  have hmemory : Buffer.slice (restored saved present).machine.memory 0
      0x10000 = Buffer.slice saved.machine.memory 0 0x10000 := by
    rw [← slice_overlay saved.machine.memory
      present.stopTime.machine.memory, restored, Emulator.contTime]
    unfold Machine.contTime
    split <;> rfl
  have hmemtype : Buffer.slice (restored saved present).machine.memtype 0
      0x10000 = Buffer.slice saved.machine.memtype 0 0x10000 := by
    rw [← slice_overlay saved.machine.memtype
      present.stopTime.machine.memtype, restored, Emulator.contTime]
    unfold Machine.contTime
    split <;> rfl
  rw [savefileContents, savefileContents, hblocks, hmemory, hmemtype,
    saveSymbols_eq, saveSymbols_eq, hsymbols]

end Resave

/-- The file is a save of some state, and loading it into the present one
gives back just that state: the table is empty, the symbols come in the order
in which the table keeps them, the buttons are held as they were, and a
pending button has its deadline. -/
structure SelfSaved (e saved : Emulator) : Prop where
  table : e.symbols = .nil
  readable : ∀ sym ∈ saved.symbols.toList, sym.Readable
  order : (saved.symbols.toList.foldl
    (fun root sym => symbolsAdd sym root) .nil).toList = saved.symbols.toList
  buttons : e.machine.buttons.btnState = saved.machine.buttons.btnState
  deadline : saved.machine.buttons.urgent ≠ 0 →
    storedCycle saved.machine.clock.nextTimerCycle =
      storedCycle saved.machine.clock.cycles

section Command

variable {gz : Gzip} {junk : Buffer} {file : List Byte} {e e' : Emulator}

/-- What the command does once the load has returned. -/
theorem savefileReadFd_load {exit : LoadExit}
    (hload : savefileLoad junk (gz.inflate file) e = some (exit, e')) :
    savefileReadFd gz junk 0x4c file e =
      some (gz.deflate (savefileContents junk e'), e'.stopTime.contTime) := by
  simp only [savefileReadFd, true_or, if_true, hload, Option.map_some,
    savefileSave, savefileContents_stopTime]

theorem loadSafe_of_selfSaved {saved : Emulator} (hsaved : SelfSaved e saved)
    (hfile : file = gz.deflate (savefileContents junk saved)) :
    LoadSafe gz junk file e := by
  have hinflate : gz.inflate file = savefileContents junk saved := by
    rw [hfile, gz.inflate_deflate]
  have hload : savefileLoad junk (gz.inflate file) e =
      some (.done, restored saved e) := by
    rw [hinflate]
    exact savefileLoad_contents saved junk junk e hsaved.readable
  have hsymbols : (restored saved e).symbols.toList =
      saved.symbols.toList := by
    change (saved.symbols.toList.foldl (fun root sym => symbolsAdd sym root)
      e.symbols).toList = _
    rw [hsaved.table, hsaved.order]
  refine ⟨_, _, savefileReadFd_load hload, ?_, ?_, ?_⟩
  · rw [savefileContents_restored saved e junk hsaved.buttons hsaved.deadline
      hsymbols, hfile]
  · calc
      (restored saved e).stopTime.contTime.machine.stopped =
          (restored saved e).machine.stopped := stopped_contTime_stopTime _
      _ = e.machine.stopped := savefileLoad_stopped hload
  · rintro ⟨exit, e', hrejected, hexit⟩
    rw [hload, Option.some.injEq, Prod.mk.injEq] at hrejected
    exact absurd hrejected.1.symm hexit

theorem buttons_restored (saved present : Emulator) :
    (restored saved present).machine.buttons =
      restoredButtons saved.machine present.machine := by
  have hbuttons : restoredButtons saved.machine present.stopTime.machine =
      restoredButtons saved.machine present.machine := by
    rw [restoredButtons, restoredButtons, buttons_stopTime]
  rw [← hbuttons, restored, Emulator.contTime]
  unfold Machine.contTime
  split <;> rfl

theorem clock_restored (saved present : Emulator) :
    (restored saved present).machine.clock =
      btnCheckNextCycle (restored saved present).machine.buttons
        ⟨storedCycle saved.machine.clock.cycles,
          storedCycle saved.machine.clock.nextTimerCycle,
          storedCycle saved.machine.clock.nextNmiCycle⟩ := by
  rw [restored, Emulator.contTime]
  unfold Machine.contTime
  split <;> rfl

/-- A table that comes back with the symbols of its own file was empty
before. -/
theorem readable_of_load
    (hnames : ∀ sym ∈ e.symbols.toList, sym.Readable)
    (hload : savefileLoad junk (savefileContents junk e') e =
      some (.done, e')) :
    ∀ sym ∈ e'.symbols.toList, sym.Readable := by
  let front := e'.symbols.toList.takeWhile (· ≠ ⟨0, 0, []⟩)
  have hshort : ∀ sym ∈ e'.symbols.toList,
      sym.name.length ≤ 32767 ∧ 0 ∉ sym.name := by
    obtain ⟨loaded, hsymbols, hloaded⟩ := savefileLoad_symbols hload
    intro sym hsym
    rw [hsymbols, (foldl_symbolsAdd_perm loaded e.symbols).mem_iff,
      List.mem_append] at hsym
    rcases hsym with hsym | hsym
    · exact hloaded sym hsym
    · exact ⟨(hnames sym hsym).1, (hnames sym hsym).2.1⟩
  have hfront : e'.symbols =
      front.foldl (fun root sym => symbolsAdd sym root) e.symbols := by
    have hcontents : savefileContents junk e' =
        SAVEFILE_MAGIC ++ (Buffer.slice e'.machine.memory 0 0x10000 ++
          (Buffer.slice e'.machine.memtype 0 0x10000 ++
            (saveSymbols e'.symbols [] ++
              (saveBlocks e' junk SavedPeripheral.all ++ [0])))) := by
      simp only [savefileContents, List.append_assoc]
    obtain ⟨rest', hread⟩ := loadSymbols_takeWhile junk e.symbols
      (saveBlocks e' junk SavedPeripheral.all ++ [0]) false hshort
    rw [hcontents, savefileLoad_arrays junk _ _ _ _ (length_slice _ _ _)
      (length_slice _ _ _), hread] at hload
    exact (loadBlocks_exit hload).1
  intro sym hsym
  refine ⟨(hshort sym hsym).1, (hshort sym hsym).2, ?_⟩
  rintro rfl
  -- a symbol that ends the list is not read, so it was in the table before
  rw [hfront, (foldl_symbolsAdd_perm front e.symbols).mem_iff,
    List.mem_append] at hsym
  rcases hsym with hsym | hsym
  · simpa [front] using List.mem_takeWhile_imp hsym
  · exact (hnames _ hsym).2.2 rfl

theorem selfSaved_of_load
    (hnames : ∀ sym ∈ e.symbols.toList, sym.Readable)
    (hload : savefileLoad junk (savefileContents junk e') e =
      some (.done, e')) :
    SelfSaved e e' := by
  have hreadable := readable_of_load hnames hload
  have hrestored : e' = restored e' e := by
    rw [savefileLoad_contents e' junk junk e hreadable, Option.some.injEq,
      Prod.mk.injEq] at hload
    exact hload.2.symm
  have hsymbols : e'.symbols = e'.symbols.toList.foldl
      (fun root sym => symbolsAdd sym root) e.symbols :=
    congrArg Emulator.symbols hrestored
  have htable : e.symbols = .nil := by
    have hlength := congrArg (fun root => root.toList.length) hsymbols
    simp only [(foldl_symbolsAdd_perm e'.symbols.toList
      e.symbols).length_eq, List.length_append] at hlength
    cases hroot : e.symbols with
    | nil => rfl
    | node left sym right =>
        rw [hroot] at hlength
        simp only [SplayTree.toList, List.length_append,
          List.length_cons] at hlength
        omega
  refine ⟨htable, hreadable, ?_, ?_, ?_⟩
  · rw [← htable, ← hsymbols]
  · have hbuttons := congrArg (fun e => e.machine.buttons.btnState) hrestored
    simp only [buttons_restored, restoredButtons] at hbuttons
    exact hbuttons.symm
  · intro hurgent
    have hclock := clock_restored e' e
    have hmoved : btnCheckNextCycle e'.machine.buttons
        ⟨storedCycle e'.machine.clock.cycles,
          storedCycle e'.machine.clock.nextTimerCycle,
          storedCycle e'.machine.clock.nextNmiCycle⟩ =
        ⟨storedCycle e'.machine.clock.cycles,
          storedCycle e'.machine.clock.cycles,
          storedCycle e'.machine.clock.nextNmiCycle⟩ :=
      if_pos hurgent
    rw [← hrestored, hmoved] at hclock
    rw [hclock]

end Command

/-- The command is safe exactly when the file is the one that it writes
itself. -/
theorem loadSafe_iff (gz : Gzip) (junk stale : Buffer) (file : List Byte)
    (e : Emulator) (hnames : ∀ sym ∈ e.symbols.toList, sym.Readable) :
    LoadSafe gz junk file e ↔
      ∃ saved, SelfSaved e saved ∧
        file = gz.deflate (savefileContents stale saved) := by
  simp only [savefileContents_junk stale junk]
  constructor
  · rintro ⟨file', e', hcommand, hfile, hstopped, -⟩
    cases hload : savefileLoad junk (gz.inflate file) e with
    | none =>
        simp [savefileReadFd, hload] at hcommand
    | some result =>
        obtain ⟨exit, loaded⟩ := result
        rw [savefileReadFd_load hload, Option.some.injEq,
          Prod.mk.injEq] at hcommand
        have hexit : exit = .done := by
          by_contra hne
          have hloaded := savefileLoad_stopped hload
          have hbalanced : e'.machine.stopped = loaded.machine.stopped := by
            rw [← hcommand.2]
            exact stopped_contTime_stopTime loaded.machine
          rw [if_neg hne] at hloaded
          omega
        have hwritten : file = gz.deflate (savefileContents junk loaded) := by
          rw [← hfile, hcommand.1]
        rw [hwritten, gz.inflate_deflate, hexit] at hload
        exact ⟨loaded, selfSaved_of_load hnames hload, hwritten⟩
  · rintro ⟨saved, hsaved, hfile⟩
    exact loadSafe_of_selfSaved hsaved hfile

/-- Compressed files are told by their first two bytes; other files are read
as they are. -/
def Gzip.framed : Gzip where
  deflate contents := 0x1f :: 0x8b :: contents
  inflate file :=
    match file with
    | 0x1f :: 0x8b :: contents => contents
    | file => file
  inflate_deflate _ := rfl

def sampleEmulator (symbols : SymbolTree) : Emulator :=
  ⟨Machine.powerOn (fun _ => none) [] [] [], symbols, 0, 0xf8⟩

/-- A program that runs, with its symbols. -/
def runningEmulator : Emulator where
  machine :=
    let m := Machine.powerOn (fun _ => none) [] [] []
    { m with
      clock := { m.clock with cycles := 900 }
      pc := 0x8002
      reg := fun nr => nr.setWidth 8
      memory := fun addr => if addr = 0x8002 then 0x54 else 0x70 }
  symbols := [⟨0x8000, 0, [0x61]⟩, ⟨0x8002, 0, [0x62]⟩].foldl
    (fun root sym => symbolsAdd sym root) .nil
  waitStates := 0
  serStcr := 0xf8

theorem loadSafe_sample :
    LoadSafe Gzip.framed (fun _ => 0)
      (Gzip.framed.deflate
        (savefileContents (fun _ => 0) runningEmulator))
      (sampleEmulator .nil) := by
  apply (loadSafe_iff _ _ (fun _ => 0) _ _ (by decide)).mpr
  exact ⟨runningEmulator, ⟨rfl, by decide +kernel, by decide +kernel, rfl,
    by decide⟩, rfl⟩

/-- A file that does not begin with the magic string: the command replaces
it, and time stays stopped. -/
theorem loadSafe_fails :
    ¬LoadSafe Gzip.framed (fun _ => 0) [1, 2, 3, 4, 5, 6, 7, 8]
      (sampleEmulator .nil) := by
  have hload : savefileLoad (fun _ => 0)
      (Gzip.framed.inflate [1, 2, 3, 4, 5, 6, 7, 8])
      (sampleEmulator .nil) =
        some (.wrongType, (sampleEmulator .nil).stopTime) := by
    rw [savefileLoad]
    exact if_pos (by decide)
  rintro ⟨file', e', hcommand, -, hstopped, -⟩
  rw [savefileReadFd_load hload, Option.some.injEq,
    Prod.mk.injEq] at hcommand
  have hbalanced := stopped_contTime_stopTime
    (sampleEmulator .nil).stopTime.machine
  have hloaded := savefileLoad_stopped hload
  rw [← hcommand.2] at hstopped
  have hone : (sampleEmulator .nil).stopTime.machine.stopped =
      (sampleEmulator .nil).machine.stopped :=
    hbalanced.symm.trans hstopped
  rw [hloaded, if_neg (by decide)] at hone
  omega

end BrickEmu
