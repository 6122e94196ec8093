import BrickEmu.SavefileBlocks
import BrickEmu.SavefileSymbols

/-!
# Saving and loading a state

The two functions of `savefile.c` over the contents of the file, that is
what `gzread` delivers and `gzwrite` is given.  A file begins with a magic
string, followed by memory, memory types, symbols and the blocks of the
peripherals; a zero in the place of an id ends it.
-/

namespace BrickEmu

open ByteStream

def SAVEFILE_MAGIC : List Byte :=
  [0x42, 0x72, 0x45, 0x6d, 0x75, 0x53, 0x46, 0x30]

namespace Emulator

def stopTime (e : Emulator) : Emulator :=
  { e with machine := e.machine.stopTime }

def contTime (e : Emulator) : Emulator :=
  { e with machine := e.machine.contTime }

def frameInit (e : Emulator) : Emulator :=
  { e with
    machine := { e.machine with
      frames := { e.machine.frames with
        threads := hashInit 5, current := none, profiles := fun _ => none } } }

end Emulator

/-- The bytes of one block: id, length and data. -/
def blockBytes (buf : Buffer) (e : Emulator) (p : SavedPeripheral) :
    List Byte :=
  p.id :: bytes16 (BitVec.ofNat 16 (p.saveData buf e).length) ++
    p.saveData buf e

/-- The loop of `savefile_save`; one buffer serves all the blocks. -/
def saveBlocks (e : Emulator) : Buffer → List SavedPeripheral → List Byte
  | _, [] => []
  | buf, p :: ps =>
      blockBytes buf e p ++ saveBlocks e (buf.fill (p.saveData buf e)) ps

/-- The contents `savefile_save` writes. -/
def savefileContents (junk : Buffer) (e : Emulator) : List Byte :=
  SAVEFILE_MAGIC ++ Buffer.slice e.machine.memory 0 0x10000 ++
    Buffer.slice e.machine.memtype 0 0x10000 ++ saveSymbols e.symbols [] ++
    saveBlocks e junk SavedPeripheral.all ++ [0]

/-- `symbols_iterate` leaves the table as it was. -/
def savefileSave (junk : Buffer) (e : Emulator) : List Byte × Emulator :=
  let e := e.stopTime
  (savefileContents junk e, e.contTime)

/-- The three ways out of `savefile_load`. -/
inductive LoadExit where
  | wrongType
  | tooMuchInfo
  | done
  deriving DecidableEq

/-- The ids of the peripherals that have no `load_data`. -/
def idsWithoutLoad : List Byte := [0x43, 0x46, 0x4d, 0x4f]

/-- `ntohs` in place. -/
def swapBytes (buf : Buffer) : Buffer :=
  Function.update (Function.update buf 0 (buf 1)) 1 (buf 0)

/-- The loop of `savefile_load`.  The variables keep their values when a read
comes up short.  A call of a missing `load_data` has no result. -/
def loadBlocks :
    ℕ → Buffer → Buffer → Buffer → Emulator → ByteStream →
      Option (LoadExit × Emulator)
  | 0, _, _, _, _, _ => none
  | fuel + 1, id, len, buffer, e, file =>
      if file.past then some (.done, e.frameInit.contTime)
      else
        let (id, file) := file.read 1 id
        if id 0 = 0 then some (.done, e.frameInit.contTime)
        else
          let (len, file) := file.read 2 len
          if 512 < (len.read16 0).toNat then some (.tooMuchInfo, e)
          else
            let (buffer, file) := file.read (len.read16 0).toNat buffer
            match SavedPeripheral.all.find? (fun p => p.id = id 0) with
            | some p =>
                loadBlocks fuel id (swapBytes len) buffer
                  (p.loadData buffer e) file
            | none =>
                if id 0 ∈ idsWithoutLoad then none
                else loadBlocks fuel id (swapBytes len) buffer e file

/-- `savefile_load`.  Every pass of its loop takes a byte from the file or
meets the end of it. -/
def savefileLoad (junk : Buffer) (contents : List Byte) (e : Emulator) :
    Option (LoadExit × Emulator) :=
  let e := e.stopTime
  let (buffer, file) := ByteStream.read 8 junk ⟨contents, false⟩
  if buffer.slice 0 8 ≠ SAVEFILE_MAGIC then some (.wrongType, e)
  else
    let (memory, file) := file.read 0x10000 e.machine.memory
    let (memtype, file) := file.read 0x10000 e.machine.memtype
    match loadSymbols junk e.symbols file with
    | none => none
    | some (symbols, file) =>
        loadBlocks (file.rest.length + 2) junk junk buffer
          { e with
            machine := { e.machine with memory := memory, memtype := memtype }
            symbols := symbols } file

section RoundTrip

variable (saved : Emulator)

theorem length_slice (buf : Buffer) (i count : ℕ) :
    (buf.slice i count).length = count := by
  simp [Buffer.slice]

theorem saveData_length_le (buf : Buffer) (p : SavedPeripheral) :
    (p.saveData buf saved).length ≤ 56 := by
  cases p <;>
    simp [SavedPeripheral.saveData, serSave, periphSave, t16Save, t8Save,
      btnSave, lcdSave, adSave, wdogSave, bytesCycle, length_slice]

theorem id_ne_zero (p : SavedPeripheral) : p.id ≠ 0 := by
  cases p <;> decide

theorem find_id (p : SavedPeripheral) :
    SavedPeripheral.all.find? (fun q => q.id = p.id) = some p := by
  cases p <;> decide

/-- The loop takes one saved block. -/
theorem loadBlocks_block (fuel : ℕ) (stale id len buffer : Buffer)
    (e : Emulator) (p : SavedPeripheral) (rest : List Byte) :
    ∃ id' len' buffer',
      loadBlocks (fuel + 1) id len buffer e
          ⟨blockBytes stale saved p ++ rest, false⟩ =
        loadBlocks fuel id' len' buffer' (p.restore saved e)
          ⟨rest, false⟩ := by
  let block := p.saveData stale saved
  let size := BitVec.ofNat 16 block.length
  have hlength : block.length ≤ 56 := saveData_length_le saved stale p
  have hsize : size.toNat = block.length := by
    rw [BitVec.toNat_ofNat]
    omega
  have hbytes : blockBytes stale saved p ++ rest =
      [p.id] ++ (bytes16 size ++ (block ++ rest)) := by
    simp [blockBytes, size, block]
  have hread : (len.fill (bytes16 size)).read16 0 = size :=
    append_bytes16 size
  refine ⟨id.fill [p.id], swapBytes (len.fill (bytes16 size)),
    buffer.fill block, ?_⟩
  rw [loadBlocks, hbytes, read_append id (show _ = 1 from rfl)]
  simp only [Bool.false_eq_true, if_false]
  rw [if_neg (show ¬(id.fill [p.id]) 0 = 0 from id_ne_zero p),
    read_append len (show _ = 2 from rfl)]
  simp only [hread, hsize]
  rw [if_neg (by omega), read_append buffer rfl]
  have hid : (id.fill [p.id]) 0 = p.id := rfl
  simp only [hid, find_id, block, loadData_saveData]

/-- The loop takes all the saved blocks and stops at the final zero. -/
theorem loadBlocks_saveBlocks (ps : List SavedPeripheral) (fuel : ℕ)
    (stale id len buffer : Buffer) (e : Emulator)
    (hfuel : ps.length < fuel) :
    loadBlocks fuel id len buffer e
        ⟨saveBlocks saved stale ps ++ [0], false⟩ =
      some (.done, (ps.foldl (fun e p => p.restore saved e)
        e).frameInit.contTime) := by
  induction ps generalizing fuel stale id len buffer e with
  | nil =>
      obtain ⟨fuel, rfl⟩ : ∃ n, fuel = n + 1 :=
        ⟨fuel - 1, (Nat.sub_add_cancel hfuel).symm⟩
      rfl
  | cons p ps ih =>
      obtain ⟨fuel, rfl⟩ : ∃ n, fuel = n + 1 := ⟨fuel - 1, by omega⟩
      obtain ⟨id', len', buffer', hstep⟩ := loadBlocks_block saved fuel stale
        id len buffer e p
        (saveBlocks saved (stale.fill (p.saveData stale saved)) ps ++ [0])
      rw [saveBlocks, List.append_assoc, hstep, List.foldl_cons]
      apply ih
      rw [List.length_cons] at hfuel
      omega

theorem length_le_saveBlocks (stale : Buffer) (ps : List SavedPeripheral) :
    ps.length ≤ (saveBlocks saved stale ps).length := by
  induction ps generalizing stale with
  | nil => simp
  | cons p ps ih =>
      have hrest := ih (stale.fill (p.saveData stale saved))
      simp only [saveBlocks, blockBytes, List.length_append, List.length_cons]
      omega

/-- Overlays the first 64 kB of an array. -/
def overlay (saved present : ℕ → Byte) : ℕ → Byte :=
  fun addr => if addr < 0x10000 then saved addr else present addr

theorem fill_slice (saved present : Buffer) :
    present.fill (saved.slice 0 0x10000) = overlay saved present := by
  funext addr
  unfold overlay
  split
  · next h => simp [Buffer.fill, Buffer.slice, h]
  · next h => simp [Buffer.fill, Buffer.slice, h]

/-- The state after loading the saved one into the present one. -/
def restored (saved present : Emulator) : Emulator :=
  let e := present.stopTime
  let e := { e with
    machine := { e.machine with
      memory := overlay saved.machine.memory e.machine.memory
      memtype := overlay saved.machine.memtype e.machine.memtype }
    symbols := saved.symbols.toList.foldl
      (fun root sym => symbolsAdd sym root) e.symbols }
  (SavedPeripheral.all.foldl (fun e p => p.restore saved e)
    e).frameInit.contTime

/-- Behind the magic string, memory and memory types the loader goes on with
the symbols. -/
theorem savefileLoad_arrays (junk : Buffer) (memory memtype rest : List Byte)
    (e : Emulator) (hmemory : memory.length = 0x10000)
    (hmemtype : memtype.length = 0x10000) :
    savefileLoad junk (SAVEFILE_MAGIC ++ (memory ++ (memtype ++ rest))) e =
      match loadSymbols junk e.symbols ⟨rest, false⟩ with
      | none => none
      | some (symbols, file) =>
          loadBlocks (file.rest.length + 2) junk junk
            (junk.fill SAVEFILE_MAGIC)
            { e.stopTime with
              machine := { e.stopTime.machine with
                memory := Buffer.fill e.stopTime.machine.memory memory
                memtype := Buffer.fill e.stopTime.machine.memtype memtype }
              symbols := symbols } file := by
  have hmagic : (junk.fill SAVEFILE_MAGIC).slice 0 8 = SAVEFILE_MAGIC :=
    Buffer.slice_fill junk SAVEFILE_MAGIC
  rw [savefileLoad, read_append junk (show _ = 8 from rfl)]
  simp only [hmagic, ne_eq, not_true_eq_false, if_false]
  rw [read_append _ hmemory, read_append _ hmemtype]
  rfl

theorem savefileLoad_contents (junk stale : Buffer) (present : Emulator)
    (hsymbols : ∀ sym ∈ saved.symbols.toList, sym.Readable) :
    savefileLoad junk (savefileContents stale saved) present =
      some (.done, restored saved present) := by
  let rest := saveBlocks saved stale SavedPeripheral.all ++ [0]
  have hcontents : savefileContents stale saved =
      SAVEFILE_MAGIC ++ (Buffer.slice saved.machine.memory 0 0x10000 ++
        (Buffer.slice saved.machine.memtype 0 0x10000 ++
          (saveSymbols saved.symbols [] ++ rest))) := by
    simp only [savefileContents, rest, List.append_assoc]
  have hlength := length_le_saveBlocks saved stale SavedPeripheral.all
  have hfuel : SavedPeripheral.all.length < rest.length + 2 := by
    simp only [rest, List.length_append]
    omega
  rw [hcontents, savefileLoad_arrays junk _ _ _ _ (length_slice _ _ _)
    (length_slice _ _ _), loadSymbols_saveSymbols junk _ rest false hsymbols,
    fill_slice, fill_slice]
  exact loadBlocks_saveBlocks saved SavedPeripheral.all (rest.length + 2)
    stale junk junk _ _ hfuel

end RoundTrip

end BrickEmu
