import BrickEmu.ProgramSlots

/-!
# The slots and the allocated blocks

A heap model says what callers may rely on: which blocks are allocated, that
calls keep the other blocks and the memory outside the heap, and that writes
to an allocated block do no harm.  Over any heap model the commands keep
every occupied slot on a block of its own, as long as no command frees the
program of a slot that it then does not replace.
-/

namespace BrickEmu

open Memory

/-- An allocator with the heaps it works on.  `Live heap addr size` says that
an allocated block with the given payload has room for `size` bytes. -/
structure HeapModel (alloc : Allocator) where
  Heap : Type
  memory : Heap → Memory
  region : Set ℕ
  Live : Heap → ℕ → ℕ → Prop
  FreeOk : Heap → ℕ → Prop
  MallocOk : Heap → ℕ → Prop
  live_lt : ∀ {heap addr size}, Live heap addr size → addr < 65536
  live_region : ∀ {heap addr size}, Live heap addr size →
    ∀ x, addr ≤ x → x < addr + size → x ∈ region
  free : ∀ {heap addr size}, Live heap addr size → FreeOk heap addr →
    ∃ heap', alloc.free addr (memory heap) = some (memory heap') ∧
      (∀ x ∉ region, memory heap' x = memory heap x) ∧
      ∀ other size, Live heap other size → other ≠ addr →
        Live heap' other size
  malloc : ∀ {heap size}, MallocOk heap size →
    ∃ addr heap', alloc.malloc size (memory heap) =
        some (addr, memory heap') ∧
      (∀ x ∉ region, memory heap' x = memory heap x) ∧
      (∀ other size, Live heap other size → Live heap' other size) ∧
      (addr ≠ 0 → Live heap' addr size ∧ ∀ size, ¬Live heap addr size)
  write : ∀ {heap addr size mem}, Live heap addr size →
    (∀ x ∈ region, ¬(addr ≤ x ∧ x < addr + size) → mem x = memory heap x) →
    ∃ heap', memory heap' = mem ∧
      ∀ other size, Live heap other size → Live heap' other size
  writeOutside : ∀ {heap mem}, (∀ x ∈ region, mem x = memory heap x) →
    ∃ heap', memory heap' = mem ∧
      ∀ other size, Live heap other size → Live heap' other size

namespace Memory

theorem writeBytes_of_outside {mem : Memory} {addr x : ℕ} {bytes : List Byte}
    (hx : x < addr ∨ addr + bytes.length ≤ x) :
    mem.writeBytes addr bytes x = mem x := by
  unfold writeBytes
  split
  · next hle =>
      rw [List.getD, List.getElem?_eq_none (by omega)]
      rfl
  · rfl

end Memory

/-- The file stays inside the block it is loaded into. -/
def ProgramFile.Fits (file : ProgramFile) (header : ProgramHeader)
    (text : ℕ) : Prop :=
  header.total < 65536 ∧
  match file with
  | .unreadable => True
  | .lx _ _ relocs => ∀ reloc ∈ relocs, reloc.toNat + 2 ≤ header.total
  | .coff _ sections => ∀ sect ∈ sections,
      text ≤ sect.1 ∧ sect.1 + sect.2.length ≤ text + header.total

section Install

variable {prog text x : ℕ} {header : ProgramHeader} {file : ProgramFile}
  {mem : Memory}

theorem relocate_foldl_of_outside {start base size : ℕ} {relocs : List Word}
    (hfits : ∀ reloc ∈ relocs, reloc.toNat + 2 ≤ size)
    (hx : x < start ∨ start + size ≤ x) :
    relocs.foldl (relocate start base) mem x = mem x := by
  induction relocs generalizing mem with
  | nil => rfl
  | cons reloc relocs ih =>
      have hreloc := hfits reloc List.mem_cons_self
      rw [List.foldl_cons, ih fun other hother =>
        hfits other (List.mem_cons_of_mem _ hother)]
      apply writeWord_of_ne <;> omega

theorem coffRead_of_outside {size : ℕ} {sections : List (ℕ × List Byte)}
    (hfits : ∀ sect ∈ sections,
      text ≤ sect.1 ∧ sect.1 + sect.2.length ≤ text + size)
    (hx : x < text ∨ text + size ≤ x) :
    coffRead sections mem x = mem x := by
  unfold coffRead
  induction sections generalizing mem with
  | nil => rfl
  | cons sect sections ih =>
      have hsect := hfits sect List.mem_cons_self
      rw [List.foldl_cons, ih fun other hother =>
        hfits other (List.mem_cons_of_mem _ hother)]
      apply writeBytes_of_outside
      omega

theorem readProgram_of_outside (hheader : file.header? = some header)
    (hfits : file.Fits header text)
    (hx : x < text ∨ text + header.total ≤ x) :
    readProgram file text mem x = mem x := by
  obtain ⟨-, hfits⟩ := hfits
  cases file with
  | unreadable => rfl
  | lx header' image relocs =>
      obtain rfl : header' = header := Option.some.inj hheader
      rw [readProgram, lxRead, relocate_foldl_of_outside hfits hx]
      apply writeBytes_of_outside
      rw [List.length_take]
      unfold ProgramHeader.loaded
      unfold ProgramHeader.total at hx
      omega
  | coff header' sections => exact coffRead_of_outside hfits hx

theorem writeEntries_of_outside (hx : x < prog + 2 ∨ prog + 22 ≤ x) :
    writeEntries prog text header mem x = mem x := by
  unfold writeEntries
  rw [writeBytes_of_outside (by simp only [List.length_singleton]; omega)]
  iterate 8 rw [writeWord_of_ne (by omega) (by omega)]

theorem writeSlot_of_outside (hx : x < prog ∨ prog + 22 ≤ x) :
    writeSlot prog text header mem x = mem x := by
  rw [writeSlot, writeEntries_of_outside (by omega),
    writeWord_of_ne (by omega) (by omega)]

/-- Outside the program the installation changes the slot only. -/
theorem install_of_outside (hheader : file.header? = some header)
    (hfits : file.Fits header text)
    (hx : x < text ∨ text + header.total ≤ x) :
    install prog text header file mem x =
      (writeSlot prog text header mem).writeWord (prog + 20) header.loaded
        x := by
  have hloaded : header.loaded + header.bssSize.toNat = header.extent := rfl
  have hextent : header.extent + header.dataSize.toNat = header.total := by
    unfold ProgramHeader.extent ProgramHeader.loaded ProgramHeader.total
    omega
  unfold install
  rw [writeWord_apply, writeWord_apply]
  split_ifs
  · rfl
  · rfl
  · rw [writeBytes_of_outside, writeBytes_of_outside,
      readProgram_of_outside hheader hfits hx]
    · rw [List.length_replicate]
      omega
    · rw [List.length_map, List.length_range]
      omega

end Install

section Slots

variable {alloc : Allocator} (model : HeapModel alloc) (programs : ℕ)

/-- The address in a slot. -/
def slotText (slot : Fin 8) (mem : Memory) : ℕ :=
  mem.readWord (slotAddr programs slot)

/-- The chosen slots name allocated blocks, each its own. -/
structure SoundOn (chosen : Fin 8 → Prop) (heap : model.Heap) : Prop where
  live : ∀ slot, chosen slot → occupied programs slot (model.memory heap) →
    ∃ size, model.Live heap (slotText programs slot (model.memory heap)) size
  distinct : ∀ slot other, chosen slot → chosen other →
    occupied programs slot (model.memory heap) →
    occupied programs other (model.memory heap) →
    slotText programs slot (model.memory heap) =
      slotText programs other (model.memory heap) → slot = other

/-- Every occupied slot names an allocated block, and no two the same. -/
def SlotsSound (heap : model.Heap) : Prop :=
  SoundOn model programs (fun _ => True) heap

/-- The table lies outside the heap. -/
def TableApart : Prop :=
  ∀ x, programs ≤ x → x < programs + 176 → x ∉ model.region

end Slots

section Words

variable {programs : ℕ} {mem mem' : Memory} {slot : Fin 8}

/-- The words of a slot that the commands look at. -/
theorem slot_congr (hsame : ∀ x, slotAddr programs slot ≤ x →
      x < slotAddr programs slot + 22 → mem' x = mem x) :
    (occupied programs slot mem' ↔ occupied programs slot mem) ∧
      slotText programs slot mem' = slotText programs slot mem := by
  constructor
  · unfold occupied
    rw [readWord_congr (hsame _ (by omega) (by omega))
      (hsame _ (by omega) (by omega))]
  · exact readWord_congr (hsame _ (by omega) (by omega))
      (hsame _ (by omega) (by omega))

theorem slotAddr_le (programs : ℕ) (slot : Fin 8) :
    programs ≤ slotAddr programs slot ∧
      slotAddr programs slot + 22 ≤ programs + 176 := by
  have hslot := slot.isLt
  unfold slotAddr
  omega

theorem slotAddr_apart (programs : ℕ) {other : Fin 8} (hne : other ≠ slot) :
    slotAddr programs other + 22 ≤ slotAddr programs slot ∨
      slotAddr programs slot + 22 ≤ slotAddr programs other := by
  have hval : other.val ≠ slot.val := fun h => hne (Fin.ext h)
  unfold slotAddr
  omega

end Words

section Steps

variable {alloc : Allocator} {model : HeapModel alloc} {programs : ℕ}
  {heap heap' : model.Heap} {chosen : Fin 8 → Prop}

/-- The slots stay sound when the table and the blocks they name are kept. -/
theorem SoundOn.keep {chosen' : Fin 8 → Prop}
    (hsound : SoundOn model programs chosen heap)
    (hsub : ∀ slot, chosen' slot → chosen slot)
    (hslots : ∀ slot, chosen' slot →
      (occupied programs slot (model.memory heap') →
        occupied programs slot (model.memory heap)) ∧
      slotText programs slot (model.memory heap') =
        slotText programs slot (model.memory heap))
    (hlive : ∀ slot size, chosen' slot →
      occupied programs slot (model.memory heap') →
      model.Live heap (slotText programs slot (model.memory heap)) size →
      model.Live heap' (slotText programs slot (model.memory heap)) size) :
    SoundOn model programs chosen' heap' := by
  constructor
  · intro slot hslot hocc
    obtain ⟨size, hblock⟩ :=
      hsound.live slot (hsub slot hslot) ((hslots slot hslot).1 hocc)
    rw [(hslots slot hslot).2]
    exact ⟨size, hlive slot size hslot hocc hblock⟩
  · intro slot other hslot hother hocc hocc' htext
    rw [(hslots slot hslot).2, (hslots other hother).2] at htext
    exact hsound.distinct slot other (hsub slot hslot) (hsub other hother)
      ((hslots slot hslot).1 hocc) ((hslots other hother).1 hocc') htext

/-- A change outside the table does not show in the slots. -/
theorem slots_of_frame (htable : TableApart model programs)
    (hframe : ∀ x ∉ model.region,
      model.memory heap' x = model.memory heap x) (slot : Fin 8) :
    (occupied programs slot (model.memory heap') ↔
        occupied programs slot (model.memory heap)) ∧
      slotText programs slot (model.memory heap') =
        slotText programs slot (model.memory heap) := by
  obtain ⟨hlow, hhigh⟩ := slotAddr_le programs slot
  apply slot_congr
  intro x hx hlt
  exact hframe x (htable x (by omega) (by omega))

/-- Freeing the program of a slot leaves the other slots sound. -/
theorem freeSlot_sound (htable : TableApart model programs)
    (hsound : SlotsSound model programs heap) (slot : Fin 8)
    (hfree : occupied programs slot (model.memory heap) →
      model.FreeOk heap (slotText programs slot (model.memory heap))) :
    ∃ heap', freeSlot alloc programs slot (model.memory heap) =
        some (model.memory heap') ∧
      (∀ x ∉ model.region, model.memory heap' x = model.memory heap x) ∧
      SoundOn model programs (fun other => other ≠ slot ∨
        ¬occupied programs slot (model.memory heap)) heap' := by
  by_cases hocc : occupied programs slot (model.memory heap)
  · obtain ⟨size, hlive⟩ := hsound.live slot trivial hocc
    obtain ⟨heap', hrun, hframe, hkept⟩ := model.free hlive (hfree hocc)
    refine ⟨heap', ?_, hframe, ?_⟩
    · rw [freeSlot, if_pos hocc]
      exact hrun
    apply hsound.keep (fun _ _ => trivial)
    · intro other _
      have hslots := slots_of_frame htable hframe other
      exact ⟨hslots.1.mp, hslots.2⟩
    · intro other size' hother hocc' hblock
      apply hkept _ _ hblock
      intro htext
      have hocc' := (slots_of_frame htable hframe other).1.mp hocc'
      rcases hother with hne | hempty
      · exact hne (hsound.distinct other slot trivial trivial hocc' hocc htext)
      · exact hempty hocc
  · refine ⟨heap, ?_, fun _ _ => rfl, ?_⟩
    · rw [freeSlot, if_neg hocc]
    · exact hsound.keep (fun _ _ => trivial)
        (fun _ _ => ⟨fun h => h, rfl⟩) (fun _ _ _ _ h => h)

theorem malloc_sound (htable : TableApart model programs)
    (hsound : SoundOn model programs chosen heap) {size : ℕ}
    (hmalloc : model.MallocOk heap size) :
    ∃ addr heap', alloc.malloc size (model.memory heap) =
        some (addr, model.memory heap') ∧
      (∀ x ∉ model.region, model.memory heap' x = model.memory heap x) ∧
      SoundOn model programs chosen heap' ∧
      (addr ≠ 0 → model.Live heap' addr size ∧
        ∀ slot, chosen slot → occupied programs slot (model.memory heap') →
          slotText programs slot (model.memory heap') ≠ addr) := by
  obtain ⟨addr, heap', hrun, hframe, hkept, hnew⟩ := model.malloc hmalloc
  refine ⟨addr, heap', hrun, hframe, ?_, ?_⟩
  · apply hsound.keep (fun _ hslot => hslot)
    · intro slot _
      have hslots := slots_of_frame htable hframe slot
      exact ⟨hslots.1.mp, hslots.2⟩
    · exact fun slot size _ _ hblock => hkept _ _ hblock
  · intro hne
    obtain ⟨hlive, hfresh⟩ := hnew hne
    refine ⟨hlive, ?_⟩
    intro slot hslot hocc htext
    have hslots := slots_of_frame htable hframe slot
    obtain ⟨size', hblock⟩ := hsound.live slot hslot (hslots.1.mp hocc)
    rw [← hslots.2, htext] at hblock
    exact hfresh size' hblock

theorem free_sound (htable : TableApart model programs)
    (hsound : SoundOn model programs chosen heap) {addr size : ℕ}
    (hlive : model.Live heap addr size) (hfree : model.FreeOk heap addr)
    (hother : ∀ slot, chosen slot →
      occupied programs slot (model.memory heap) →
        slotText programs slot (model.memory heap) ≠ addr) :
    ∃ heap', alloc.free addr (model.memory heap) =
        some (model.memory heap') ∧
      SoundOn model programs chosen heap' := by
  obtain ⟨heap', hrun, hframe, hkept⟩ := model.free hlive hfree
  refine ⟨heap', hrun, ?_⟩
  apply hsound.keep (fun _ hslot => hslot)
  · intro slot _
    have hslots := slots_of_frame htable hframe slot
    exact ⟨hslots.1.mp, hslots.2⟩
  · intro slot size' hslot hocc hblock
    have hocc' := (slots_of_frame htable hframe slot).1.mp hocc
    exact hkept _ _ hblock (hother slot hslot hocc')

theorem readWord_writeSlot (prog : ℕ) {text : ℕ} (header : ProgramHeader)
    (mem : Memory) (htext : text < 65536) :
    ((writeSlot prog text header mem).writeWord (prog + 20)
      header.loaded).readWord prog = text := by
  have hbyte : ∀ x, x < prog + 2 → ((writeSlot prog text header
      mem).writeWord (prog + 20) header.loaded) x =
        (mem.writeWord prog text) x := by
    intro x hx
    rw [writeWord_of_ne (by omega) (by omega), writeSlot,
      writeEntries_of_outside (Or.inl hx)]
  rw [readWord_congr (hbyte prog (by omega)) (hbyte (prog + 1) (by omega)),
    readWord_writeWord htext]

/-- A program that is installed in a block of its own makes its slot
sound. -/
theorem install_sound (htable : TableApart model programs)
    {slot : Fin 8} {text : ℕ} {header : ProgramHeader} {file : ProgramFile}
    (hsound : SoundOn model programs (fun other => other ≠ slot) heap)
    (hheader : file.header? = some header) (hfits : file.Fits header text)
    (hlive : model.Live heap text header.total)
    (hother : ∀ other, other ≠ slot →
      occupied programs other (model.memory heap) →
        slotText programs other (model.memory heap) ≠ text) :
    ∃ heap', model.memory heap' =
        install (slotAddr programs slot) text header file
          (model.memory heap) ∧
      SlotsSound model programs heap' := by
  let prog := slotAddr programs slot
  let mem := install prog text header file (model.memory heap)
  obtain ⟨hlow, hhigh⟩ := slotAddr_le programs slot
  -- a byte of the table is changed by the entries of the slot only
  have hentry : ∀ x, programs ≤ x → x < programs + 176 →
      mem x = (writeSlot prog text header (model.memory heap)).writeWord
        (prog + 20) header.loaded x := by
    intro x hx hlt
    apply install_of_outside hheader hfits
    by_contra hinside
    exact htable x hx hlt (model.live_region hlive x (by omega) (by omega))
  have hheap : ∀ x ∈ model.region,
      ¬(text ≤ x ∧ x < text + header.total) →
        mem x = model.memory heap x := by
    intro x hx houtside
    have hapart : ¬(programs ≤ x ∧ x < programs + 176) := fun h =>
      htable x h.1 h.2 hx
    change install prog text header file (model.memory heap) x = _
    rw [install_of_outside hheader hfits (by omega),
      writeWord_of_ne (by omega) (by omega),
      writeSlot_of_outside (by omega)]
  obtain ⟨heap', hmemory, hkept⟩ := model.write hlive hheap
  have hsame : ∀ other, other ≠ slot →
      (occupied programs other (model.memory heap') ↔
          occupied programs other (model.memory heap)) ∧
        slotText programs other (model.memory heap') =
          slotText programs other (model.memory heap) := by
    intro other hne
    obtain ⟨hlow', hhigh'⟩ := slotAddr_le programs other
    have hapart := slotAddr_apart programs hne
    apply slot_congr
    intro x hx hlt
    rw [hmemory, hentry x (by omega) (by omega),
      writeWord_of_ne (by omega) (by omega),
      writeSlot_of_outside (by omega)]
  have hown : slotText programs slot (model.memory heap') = text := by
    rw [hmemory, slotText, ← readWord_writeSlot prog header
      (model.memory heap) (model.live_lt hlive)]
    exact readWord_congr (hentry _ (by omega) (by omega))
      (hentry _ (by omega) (by omega))
  have hrest : SoundOn model programs (fun other => other ≠ slot) heap' := by
    apply hsound.keep (fun _ hne => hne)
    · exact fun other hne => ⟨(hsame other hne).1.mp, (hsame other hne).2⟩
    · exact fun other size _ _ hblock => hkept _ _ hblock
  refine ⟨heap', hmemory, ?_, ?_⟩
  · intro other _ hocc
    by_cases hne : other = slot
    · subst hne
      rw [hown]
      exact ⟨_, hkept _ _ hlive⟩
    · exact hrest.live other hne hocc
  · intro other other' _ _ hocc hocc' htext
    by_cases hne : other = slot
    · by_cases hne' : other' = slot
      · rw [hne, hne']
      · subst hne
        rw [hown, (hsame other' hne').2] at htext
        exact absurd htext.symm
          (hother other' hne' ((hsame other' hne').1.mp hocc'))
    · by_cases hne' : other' = slot
      · subst hne'
        rw [hown, (hsame other hne).2] at htext
        exact absurd htext (hother other hne ((hsame other hne).1.mp hocc))
      · exact hrest.distinct other other' hne hne' hocc hocc' htext

end Steps

inductive SlotCommand where
  | load (slot : Fin 8) (file : ProgramFile)
  | newprogram (slot : Fin 8) (size : Word)

def SlotCommand.run (alloc : Allocator) (programs : ℕ) (mem : Memory) :
    SlotCommand → Option Memory
  | .load slot file => loadProgram alloc programs slot file mem
  | .newprogram slot size =>
      (newprogramAddr alloc programs slot size mem).map Prod.snd

section Runs

variable {alloc : Allocator} (model : HeapModel alloc) (programs : ℕ)

/-- The allocator is able to free the program of a slot. -/
def Freeable (heap : model.Heap) (slot : Fin 8) : Prop :=
  occupied programs slot (model.memory heap) →
    model.FreeOk heap (slotText programs slot (model.memory heap))

/-- A load that replaces a program gets memory, and a COFF file gets it at
its address; the file stays inside the block.  The allocator is able to carry
out the calls. -/
def Permits (heap : model.Heap) : SlotCommand → Prop
  | .load slot file => ∀ header, file.header? = some header →
      Freeable model programs heap slot ∧
      ∀ freed, freeSlot alloc programs slot (model.memory heap) =
          some (model.memory freed) →
        model.MallocOk freed (header.total % 65536) ∧
        ∀ text taken, alloc.malloc (header.total % 65536)
            (model.memory freed) = some (text, model.memory taken) →
          if text = 0 then ¬occupied programs slot (model.memory heap)
          else if file.isCoff ∧ text ≠ header.base.toNat then
            ¬occupied programs slot (model.memory heap) ∧
              model.FreeOk taken text
          else file.Fits header text
  | .newprogram slot size =>
      Freeable model programs heap slot ∧
      ∀ mem freed, freeSlot alloc programs slot (model.memory heap) =
          some mem →
        model.memory freed =
          (if occupied programs slot (model.memory heap) then
            mem.writeWord (slotAddr programs slot + 8) 0 else mem) →
        model.MallocOk freed size.toNat ∧
        ∀ addr taken, alloc.malloc size.toNat (model.memory freed) =
            some (addr, model.memory taken) →
          addr ≠ 0 → model.FreeOk taken addr

variable {model programs}

theorem load_sound {heap : model.Heap} (htable : TableApart model programs)
    (hsound : SlotsSound model programs heap) {slot : Fin 8}
    {file : ProgramFile}
    (hpermits : Permits model programs heap (.load slot file)) :
    ∃ heap', loadProgram alloc programs slot file (model.memory heap) =
        some (model.memory heap') ∧ SlotsSound model programs heap' := by
  cases hheader : file.header? with
  | none =>
      refine ⟨heap, ?_, hsound⟩
      rw [loadProgram, hheader]
  | some header =>
      obtain ⟨hfreeable, hrest⟩ := hpermits header hheader
      obtain ⟨freed, hfree, -, hfreed⟩ :=
        freeSlot_sound htable hsound slot hfreeable
      obtain ⟨hmalloc, hplace⟩ := hrest freed hfree
      obtain ⟨text, taken, hrun, -, htaken, hnew⟩ :=
        malloc_sound htable hfreed hmalloc
      have hcase := hplace text taken hrun
      simp only [loadProgram, hheader, hfree, hrun]
      by_cases hzero : text = 0
      · rw [if_pos hzero] at hcase ⊢
        refine ⟨taken, rfl, ?_⟩
        exact htaken.keep (fun _ _ => Or.inr hcase)
          (fun _ _ => ⟨fun h => h, rfl⟩) (fun _ _ _ _ h => h)
      · rw [if_neg hzero] at hcase ⊢
        obtain ⟨hlive, hother⟩ := hnew hzero
        by_cases hcoff : file.isCoff ∧ text ≠ header.base.toNat
        · rw [if_pos hcoff] at hcase ⊢
          obtain ⟨hempty, hfreeOk⟩ := hcase
          obtain ⟨heap', hrun', hsound'⟩ :=
            free_sound htable htaken hlive hfreeOk hother
          refine ⟨heap', hrun', ?_⟩
          exact hsound'.keep (fun _ _ => Or.inr hempty)
            (fun _ _ => ⟨fun h => h, rfl⟩) (fun _ _ _ _ h => h)
        · rw [if_neg hcoff] at hcase ⊢
          rw [Nat.mod_eq_of_lt hcase.1] at hlive
          obtain ⟨heap', hmemory, hsound'⟩ := install_sound htable
            (htaken.keep (fun _ hne => Or.inl hne)
              (fun _ _ => ⟨fun h => h, rfl⟩) (fun _ _ _ _ h => h))
            hheader hcase hlive (fun other hne => hother other (Or.inl hne))
          exact ⟨heap', by rw [hmemory], hsound'⟩

/-- `newprogram_addr` empties the slot together with its block. -/
theorem clearSlot_sound {heap : model.Heap}
    (htable : TableApart model programs)
    (hsound : SlotsSound model programs heap) {slot : Fin 8}
    (hfreeable : Freeable model programs heap slot) :
    ∃ mem freed, freeSlot alloc programs slot (model.memory heap) =
        some mem ∧
      model.memory freed =
        (if occupied programs slot (model.memory heap) then
          mem.writeWord (slotAddr programs slot + 8) 0 else mem) ∧
      SlotsSound model programs freed := by
  obtain ⟨freed, hfree, -, hfreed⟩ :=
    freeSlot_sound htable hsound slot hfreeable
  by_cases hocc : occupied programs slot (model.memory heap)
  · let mem := (model.memory freed).writeWord (slotAddr programs slot + 8) 0
    obtain ⟨hlow, hhigh⟩ := slotAddr_le programs slot
    have hheap : ∀ x ∈ model.region, mem x = model.memory freed x := by
      intro x hx
      have hapart : ¬(programs ≤ x ∧ x < programs + 176) := fun h =>
        htable x h.1 h.2 hx
      apply writeWord_of_ne <;> omega
    obtain ⟨cleared, hmemory, hkept⟩ := model.writeOutside hheap
    refine ⟨_, cleared, hfree, ?_, ?_⟩
    · rw [hmemory, if_pos hocc]
    have hempty : ¬occupied programs slot (model.memory cleared) := by
      rw [hmemory, occupied, readWord_writeWord (by omega)]
      exact lt_irrefl 0
    have hsame : ∀ other, other ≠ slot →
        (occupied programs other (model.memory cleared) ↔
            occupied programs other (model.memory freed)) ∧
          slotText programs other (model.memory cleared) =
            slotText programs other (model.memory freed) := by
      intro other hne
      have hapart := slotAddr_apart programs hne
      apply slot_congr
      intro x hx hlt
      rw [hmemory]
      apply writeWord_of_ne <;> omega
    have hothers : SoundOn model programs (fun other => other ≠ slot)
        cleared := by
      apply hfreed.keep (fun _ hne => Or.inl hne)
      · exact fun other hne => ⟨(hsame other hne).1.mp, (hsame other hne).2⟩
      · exact fun _ _ _ _ hblock => hkept _ _ hblock
    have hne : ∀ other, occupied programs other (model.memory cleared) →
        other ≠ slot := by
      rintro other hother rfl
      exact hempty hother
    constructor
    · exact fun other _ hother => hothers.live other (hne other hother) hother
    · exact fun other other' _ _ hother hother' =>
        hothers.distinct other other' (hne other hother) (hne other' hother')
          hother hother'
  · refine ⟨_, freed, hfree, ?_, ?_⟩
    · rw [if_neg hocc]
    · exact hfreed.keep (fun _ _ => Or.inr hocc)
        (fun _ _ => ⟨fun h => h, rfl⟩) (fun _ _ _ _ h => h)

theorem newprogram_sound {heap : model.Heap}
    (htable : TableApart model programs)
    (hsound : SlotsSound model programs heap) {slot : Fin 8} {size : Word}
    (hpermits : Permits model programs heap (.newprogram slot size)) :
    ∃ addr heap', newprogramAddr alloc programs slot size
        (model.memory heap) = some (addr, model.memory heap') ∧
      SlotsSound model programs heap' := by
  obtain ⟨hfreeable, hrest⟩ := hpermits
  obtain ⟨mem, freed, hfree, hmemory, hfreed⟩ :=
    clearSlot_sound htable hsound hfreeable
  obtain ⟨hmalloc, hplace⟩ := hrest mem freed hfree hmemory
  obtain ⟨addr, taken, hrun, -, htaken, hnew⟩ :=
    malloc_sound htable hfreed hmalloc
  simp only [newprogramAddr, hfree, ← hmemory, hrun]
  by_cases hzero : addr = 0
  · rw [if_neg (not_not.mpr hzero)]
    exact ⟨addr, taken, rfl, htaken⟩
  · rw [if_pos hzero]
    obtain ⟨hlive, hother⟩ := hnew hzero
    obtain ⟨heap', hrun', hsound'⟩ := free_sound htable htaken hlive
      (hplace addr taken hrun hzero) hother
    exact ⟨addr, heap', by rw [hrun']; rfl, hsound'⟩

/-- One command. -/
theorem command_sound {heap : model.Heap}
    (htable : TableApart model programs)
    (hsound : SlotsSound model programs heap) {command : SlotCommand}
    (hpermits : Permits model programs heap command) :
    ∃ heap', command.run alloc programs (model.memory heap) =
        some (model.memory heap') ∧ SlotsSound model programs heap' := by
  cases command with
  | load slot file => exact load_sound htable hsound hpermits
  | newprogram slot size =>
      obtain ⟨addr, heap', hrun, hsound'⟩ :=
        newprogram_sound htable hsound hpermits
      exact ⟨heap', by rw [SlotCommand.run, hrun]; rfl, hsound'⟩

variable (model programs)

/-- The slots are sound after every command of the sequence. -/
def SlotsKept : List SlotCommand → model.Heap → Prop
  | [], _ => True
  | command :: commands, heap =>
      ∃ heap', command.run alloc programs (model.memory heap) =
          some (model.memory heap') ∧
        SlotsSound model programs heap' ∧ SlotsKept commands heap'

/-- Every command of the sequence is permitted in the heap in which it is
given. -/
def Permitted : List SlotCommand → model.Heap → Prop
  | [], _ => True
  | command :: commands, heap =>
      Permits model programs heap command ∧
        ∀ heap', command.run alloc programs (model.memory heap) =
            some (model.memory heap') →
          Permitted commands heap'

variable {model programs}

theorem slotsKept {heap : model.Heap} (htable : TableApart model programs)
    (hsound : SlotsSound model programs heap) (commands : List SlotCommand)
    (hpermitted : Permitted model programs commands heap) :
    SlotsKept model programs commands heap := by
  induction commands generalizing heap with
  | nil => trivial
  | cons command commands ih =>
      obtain ⟨hpermits, hrest⟩ := hpermitted
      obtain ⟨heap', hrun, hsound'⟩ := command_sound htable hsound hpermits
      exact ⟨heap', hrun, hsound', ih hsound' (hrest heap' hrun)⟩

end Runs

end BrickEmu
