import BrickEmu.BrickosRuns
import BrickEmu.LxRelocation

/-!
# The address that `newprogram_addr` promises

`newprogram_addr` frees the program of the slot, allocates the size of the
new program and frees that block again.  The allocation leaves small runs of
free blocks before its block, each merged to one block, and the second free
puts the run together again from which the block was cut.  So the allocation
of `load_program` finds its block at the same place.
-/

namespace BrickEmu

open Memory

section Lists

variable {stop size v w v' u u' : ℕ} {b c : Block} {bs cs bs' ds : List Block}
  {r : Option Block}

theorem coalesce_of_stopsAt (hstops : StopsAt Block.Free bs) :
    coalesce b bs v = (b, bs, v) := by
  cases bs with
  | nil => rfl
  | cons d ds =>
      have hd : ¬d.type = 0 := hstops d rfl
      rw [coalesce, if_neg hd]

/-- The block that was handed out and what is left behind it are one block
again. -/
theorem coalesce_taken (hc : c.type = 0) (hsize : size < c.len)
    (hstops : StopsAt Block.Free cs) :
    ∃ w, coalesce (taken size c).freed (remainder size c ++ cs) v =
      (c, cs, w) := by
  obtain ⟨addr, type, len⟩ := c
  obtain rfl : type = 0 := hc
  by_cases hsplit : size + 8 < len
  · rw [remainder, if_pos hsplit, List.singleton_append, coalesce,
      if_pos rfl, coalesce_of_stopsAt hstops]
    refine ⟨_, Prod.ext ?_ rfl⟩
    simp only [taken, Block.freed, Block.absorb, if_pos hsplit,
      Block.mk.injEq, true_and]
    omega
  · rw [remainder, if_neg hsplit, List.nil_append,
      coalesce_of_stopsAt hstops]
    refine ⟨v, Prod.ext ?_ rfl⟩
    simp only [taken, Block.freed, if_neg hsplit]

namespace Allocates

/-- The allocation does not touch a used block at the start. -/
theorem cons_used (hb : b.type ≠ 0)
    (h : Allocates stop size (b :: bs) v r bs' v') :
    ∃ cs, bs' = b :: cs ∧ Allocates stop size bs v r cs v' := by
  cases h with
  | used _ htail => exact ⟨_, rfl, htail⟩
  | small hfree => exact absurd hfree hb
  | found hfree => exact absurd hfree hb

/-- The allocation looks at the first run as one block. -/
theorem cons_free (hb : b.type = 0) (hstops : StopsAt Block.Free bs)
    (h : Allocates stop size (b :: bs) v r bs' v') :
    (size < b.len ∧ r = some (taken size b)) ∨
      (b.len ≤ size ∧ ∃ cs, Allocates stop size bs v r cs v') := by
  cases h with
  | used hused => exact absurd hb hused
  | small _ hmerge hle htail =>
      rw [coalesce_of_stopsAt hstops] at hmerge
      cases hmerge
      exact Or.inr ⟨hle, _, htail⟩
  | found _ hmerge hlt =>
      rw [coalesce_of_stopsAt hstops] at hmerge
      cases hmerge
      exact Or.inl ⟨hlt, rfl⟩

/-- Freeing the block passes over the blocks before it. -/
theorem release_cons (h : Allocates stop size bs v (some b) bs' v')
    (hsorted : (c :: bs').Pairwise fun b c => c.addr ≠ b.addr) :
    (release (b.addr + 4) (c :: bs') w).1 =
      c :: (release (b.addr + 4) bs' w).1 := by
  have hne : b.addr ≠ c.addr :=
    (List.pairwise_cons.mp hsorted).1 b h.granted.1
  rw [release, if_neg (by omega)]

theorem stopsAt_release (h : Allocates stop size bs v (some b) bs' v')
    (hsorted : bs'.Pairwise fun b c => c.addr ≠ b.addr)
    (hstops : StopsAt Block.Free bs) :
    StopsAt Block.Free (release (b.addr + 4) bs' w).1 := by
  cases bs with
  | nil => cases h
  | cons d ds =>
      have hd : d.type ≠ 0 := hstops d rfl
      obtain ⟨cs, rfl, htail⟩ := h.cons_used hd
      rw [htail.release_cons hsorted]
      rintro e ⟨rfl⟩
      exact hd

/-- The same size is found at the same place after the block is freed. -/
theorem release_allocates
    (h : Allocates stop size bs v (some b) bs' v')
    (hsorted : bs'.Pairwise fun b c => c.addr ≠ b.addr)
    (hagain : Allocates stop size (release (b.addr + 4) bs' w).1 u r ds u') :
    r = some b := by
  generalize hr : some b = found at h
  induction h generalizing w u ds u' with
  | exhausted => cases hr
  | @used e es es' v v' found he htail ih =>
      subst hr
      rw [htail.release_cons hsorted] at hagain
      obtain ⟨cs, -, hrest⟩ := hagain.cons_used he
      exact ih hsorted.of_cons hrest rfl
  | @small e c es cs cs' v w' v' found he hmerge hsize htail ih =>
      subst hr
      -- the merged run is too small the second time, too
      obtain ⟨run, -, -, hstops, -⟩ := coalesce_run hmerge
      have hc : c.type = 0 := (coalesce_head hmerge).2.trans he
      rw [htail.release_cons hsorted] at hagain
      rcases hagain.cons_free hc
        (htail.stopsAt_release hsorted.of_cons hstops) with
        ⟨hlt, -⟩ | ⟨-, cs, hrest⟩
      · omega
      · exact ih hsorted.of_cons hrest rfl
  | @found e c es cs v w' he hmerge hsize =>
      obtain rfl : b = taken size c := Option.some.inj hr
      obtain ⟨run, -, -, hstops, -⟩ := coalesce_run hmerge
      have hc : c.type = 0 := (coalesce_head hmerge).2.trans he
      obtain ⟨w'', hwhole⟩ := coalesce_taken (v := if w < c.addr then
        c.addr else w) hc hsize hstops
      rw [release, if_pos rfl, taken_addr, hwhole] at hagain
      rcases hagain.cons_free hc hstops with ⟨-, hfound⟩ | ⟨hle, -⟩
      · exact hfound
      · omega

end Allocates

end Lists

section Walks

variable {mmStart cell stop : ℕ}

/-- The last block is in use and ends where the heap does. -/
theorem Tiles.getLast? {mem : Memory} {ptr : ℕ} {bs : List Block}
    (htiles : Tiles mem stop ptr bs) :
    ∃ b, bs.getLast? = some b ∧ b.type ≠ 0 ∧ b.stop = stop := by
  induction htiles with
  | last haddr hin hused hreach hstop => exact ⟨_, rfl, hused, hstop⟩
  | @cons ptr b bs haddr hin htail ih =>
      obtain ⟨c, hc, hused, hstop⟩ := ih
      refine ⟨c, ?_, hused, hstop⟩
      rw [List.getLast?_cons, hc]
      rfl

/-- An address that is no block's leads through the whole heap. -/
theorem freeFrom_absent {mem : Memory} {ptr addr : ℕ} {bs : List Block}
    (htiles : Tiles mem stop ptr bs) (hwrap : stop < 65536 + mmStart)
    (hstart : mmStart ≤ ptr) (habsent : ∀ b ∈ bs, b.addr + 4 ≠ addr) :
    ∀ {fuel : ℕ}, bs.length < fuel →
      freeFrom mmStart cell addr fuel ptr mem = some mem := by
  induction htiles with
  | @last ptr b haddr hin hused hreach hstop =>
      intro fuel hfuel
      obtain ⟨fuel, rfl⟩ : ∃ n, fuel = n + 2 :=
        ⟨fuel - 2, by simp only [List.length_singleton] at hfuel; omega⟩
      have hnext : nextPtr ptr b.len = stop % 65536 := by
        rw [← hstop, ← haddr, nextPtr, Block.stop]
      have hother := habsent b List.mem_cons_self
      subst haddr
      rw [freeFrom, if_neg (by omega)]
      simp only [hin.len_eq, hnext, if_neg hother]
      rw [freeFrom, if_pos (by omega)]
  | @cons ptr b bs haddr hin htail ih =>
      intro fuel hfuel
      obtain ⟨fuel, rfl⟩ : ∃ n, fuel = n + 1 :=
        ⟨fuel - 1, by simp only [List.length_cons] at hfuel; omega⟩
      have hheader := htail.ptr_header
      have hother := habsent b List.mem_cons_self
      subst haddr
      rw [freeFrom, if_neg (by omega)]
      simp only [hin.len_eq, nextPtr_eq (show b.stop < 65536 by omega),
        if_neg hother]
      apply ih
      · simp only [Block.stop]
        omega
      · exact fun c hc => habsent c (List.mem_cons_of_mem b hc)
      · exact Nat.lt_of_succ_lt_succ hfuel

end Walks

section Placement

/-- The relocations or sections of the file do not overlap, and lie in the text
and the data of a program at `text`. -/
def ProgramFile.KeepsTo (file : ProgramFile) (header : ProgramHeader)
    (text : ℕ) : Prop :=
  header.total < 65536 ∧
  match file with
  | .unreadable => True
  | .lx _ _ relocs =>
      relocs.Pairwise (fun r r' =>
        r.toNat + 2 ≤ r'.toNat ∨ r'.toNat + 2 ≤ r.toNat) ∧
      ∀ r ∈ relocs, r.toNat + 2 ≤ header.loaded
  | .coff _ sections =>
      sections.Pairwise (fun sect sect' =>
        sect.1 + sect.2.length ≤ sect'.1 ∨
          sect'.1 + sect'.2.length ≤ sect.1) ∧
      ∀ sect ∈ sections,
        text ≤ sect.1 ∧ sect.1 + sect.2.length ≤ text + header.loaded

/-- The bytes of the file are in the memory, moved to `text` if they can be
relocated. -/
def ProgramFile.StandsAt (file : ProgramFile) (header : ProgramHeader)
    (text : ℕ) (mem : Memory) : Prop :=
  match file with
  | .unreadable => True
  | .lx _ image relocs =>
      (∀ i < image.length, i < header.loaded →
        (∀ r ∈ relocs, i < r.toNat ∨ r.toNat + 2 ≤ i) →
          mem (text + i) = image.getD i 0) ∧
      ∀ r ∈ relocs, r.toNat + 2 ≤ image.length →
        (mem.readWord (text + r.toNat) : ℤ) =
          ((image.getD r.toNat 0).toNat * 256 +
            (image.getD (r.toNat + 1) 0).toNat + text -
              header.base.toNat) % 2 ^ 16
  | .coff _ sections =>
      ∀ sect ∈ sections, ∀ i < sect.2.length,
        mem (sect.1 + i) = sect.2.getD i 0

variable {prog text : ℕ} {header : ProgramHeader} {file : ProgramFile}
  {mem : Memory}

theorem ProgramFile.KeepsTo.fits (h : file.KeepsTo header text) :
    file.Fits header text := by
  have hloaded : header.loaded ≤ header.total := by
    unfold ProgramHeader.loaded ProgramHeader.total
    omega
  obtain ⟨htotal, h⟩ := h
  refine ⟨htotal, ?_⟩
  cases file with
  | unreadable => trivial
  | lx _ _ relocs => exact fun r hr => (h.2 r hr).trans hloaded
  | coff _ sections =>
      intro sect hsect
      have hinside := h.2 sect hsect
      omega

/-- A section is not touched by the sections behind it. -/
theorem coffRead_apply {sections : List (ℕ × List Byte)}
    (hapart : sections.Pairwise fun sect sect' =>
      sect.1 + sect.2.length ≤ sect'.1 ∨ sect'.1 + sect'.2.length ≤ sect.1)
    {sect : ℕ × List Byte} (hsect : sect ∈ sections) {i : ℕ}
    (hi : i < sect.2.length) :
    coffRead sections mem (sect.1 + i) = sect.2.getD i 0 := by
  unfold coffRead
  induction sections generalizing mem with
  | nil => cases hsect
  | cons first sections ih =>
      obtain ⟨hfirst, hrest⟩ := List.pairwise_cons.mp hapart
      rw [List.foldl_cons]
      rcases List.mem_cons.mp hsect with rfl | hsect
      · have hkept : ∀ others : List (ℕ × List Byte), ∀ mem : Memory,
            (∀ other ∈ others, sect.1 + sect.2.length ≤ other.1 ∨
              other.1 + other.2.length ≤ sect.1) →
            others.foldl (fun mem sect => mem.writeBytes sect.1 sect.2) mem
              (sect.1 + i) = mem (sect.1 + i) := by
          intro others
          induction others with
          | nil => exact fun _ _ => rfl
          | cons other others ih =>
              intro mem hothers
              rw [List.forall_mem_cons] at hothers
              rw [List.foldl_cons, ih _ hothers.2, writeBytes_of_outside]
              omega
        rw [hkept sections _ hfirst, writeBytes_of_inside hi]
      · exact ih hrest hsect

/-- The word at the start of the slot names the program, and its bytes are
there. -/
theorem standsAt_install (hheader : file.header? = some header)
    (hkeeps : file.KeepsTo header text) (htext : text < 65536)
    (hslot : ∀ x, text ≤ x → x < prog ∨ prog + 22 ≤ x) :
    (install prog text header file mem).readWord prog = text ∧
      file.StandsAt header text (install prog text header file mem) := by
  have hoff : ∀ x, text ≤ x → x ≠ prog + 20 ∧ x ≠ prog + 21 := by
    intro x hx
    have hapart := hslot x hx
    omega
  have hloads : ∀ i < header.loaded,
      install prog text header file mem (text + i) =
        readProgram file text (writeSlot prog text header mem) (text + i) :=
    fun i hi => install_loaded hi (hoff _ (by omega))
  constructor
  · have hbelow : ∀ x < prog + 2, prog ≤ x → x < text := by
      intro x hx hle
      by_contra hnot
      have hapart := hslot x (by omega)
      omega
    have hword (x : ℕ) (hx : x < prog + 2) (hle : prog ≤ x) :
        install prog text header file mem x =
          mem.writeWord prog text x := by
      rw [install_of_outside hheader hkeeps.fits (Or.inl (hbelow x hx hle)),
        writeWord_of_ne (by omega) (by omega), writeSlot,
        writeEntries_of_outside (Or.inl hx)]
    rw [readWord_congr (hword prog (by omega) le_rfl)
      (hword (prog + 1) (by omega) (by omega)), readWord_writeWord htext]
  · obtain ⟨-, hkeeps⟩ := hkeeps
    cases file with
    | unreadable => trivial
    | lx _ image relocs =>
        cases hheader
        obtain ⟨hapart, hinside⟩ := hkeeps
        have himage : ∀ i < image.length, i < header.loaded →
            (writeSlot prog text header mem).writeBytes text
              (image.take header.loaded) (text + i) = image.getD i 0 := by
          intro i hi hlt
          rw [writeBytes_of_inside (by rw [List.length_take]; omega),
            List.getD_eq_getElem?_getD, List.getElem?_take_of_lt hlt,
            List.getD_eq_getElem?_getD]
        constructor
        · intro i hi hlt hothers
          rw [hloads i hlt, readProgram, lxRead,
            relocate_foldl_of_notMem hothers, himage i hi hlt]
        · intro r hr hlen
          have hlt := hinside r hr
          have hbase := header.base.isLt
          rw [readWord_congr (hloads r.toNat (by omega))
            (hloads (r.toNat + 1) (by omega)), readProgram, lxRead,
            readWord_relocate_foldl hapart hr, Memory.readWord,
            himage r.toNat (by omega) (by omega), add_assoc text,
            himage (r.toNat + 1) (by omega) (by omega)]
          omega
    | coff _ sections =>
        obtain ⟨hapart, hinside⟩ := hkeeps
        intro sect hsect i hi
        obtain ⟨hlow, hhigh⟩ := hinside sect hsect
        obtain ⟨k, hk⟩ := Nat.exists_eq_add_of_le hlow
        have hload := hloads (k + i) (by omega)
        rw [← add_assoc, ← hk] at hload
        rw [hload]
        exact coffRead_apply hapart hsect hi

end Placement

namespace BrickosHeap

variable {mmStart cell : ℕ}

/-- Any address but that of the last block may be freed. -/
theorem free_total (heap : BrickosHeap mmStart cell) {addr : ℕ}
    (hlast : ∀ b ∈ heap.blocks.getLast?, b.addr + 4 ≠ addr) :
    ∃ heap' : BrickosHeap mmStart cell,
      brickosFree mmStart cell addr heap.memory = some heap'.memory ∧
        ∀ x ∉ region mmStart cell, heap'.memory x = heap.memory x := by
  by_cases habsent : ∀ b ∈ heap.blocks, b.addr + 4 ≠ addr
  · refine ⟨heap, ?_, fun _ _ => rfl⟩
    rw [brickosFree, if_neg heap.mmStart_pos]
    exact freeFrom_absent heap.tiles heap.wraps le_rfl habsent heap.length_lt
  · push Not at habsent
    obtain ⟨b, hb, rfl⟩ := habsent
    have hdrop : b ∈ heap.blocks.dropLast := by
      apply List.mem_dropLast_of_mem_of_ne_getLast hb
      intro heq
      apply hlast b _ rfl
      rw [heq]
      exact List.getLast?_eq_some_getLast _
    obtain ⟨bs', mem', htiles, hrun, -, hspares⟩ := heap.free_refines hdrop
    exact ⟨heap.after htiles, hrun,
      fun x hx => heap.frame_of_freed hdrop hspares hx⟩

theorem addr_ne (heap : BrickosHeap mmStart cell) :
    heap.blocks.Pairwise fun b c => c.addr ≠ b.addr := by
  apply heap.tiles.pairwise.imp
  intro b c hstop
  simp only [Block.stop] at hstop
  omega

/-- The block that is handed out is not the last one. -/
theorem granted_mem_dropLast (heap : BrickosHeap mmStart cell) {size v v' : ℕ}
    {b : Block} {bs' : List Block} {mem' : Memory}
    (h : Allocates heap.stop size heap.blocks v (some b) bs' v')
    (htiles : Tiles mem' heap.stop mmStart bs') : b ∈ bs'.dropLast := by
  obtain ⟨hb, -, -, c, hc, haddr, hfree⟩ := h.granted
  obtain ⟨d, hd, hused, hdstop⟩ := heap.tiles.getLast?
  have hmem : d ∈ heap.blocks := List.mem_of_getLast? hd
  have hne : d ≠ b := by
    rintro rfl
    have heq := (heap.tiles.mem_in hmem).unique (heap.tiles.mem_in hc)
      haddr.symm
    rw [heq] at hused
    exact hused hfree
  apply List.mem_dropLast_of_mem_of_ne_getLast? hb
  intro hlast
  -- two blocks would end where the heap does
  obtain ⟨e, he, -, hestop⟩ := htiles.getLast?
  obtain rfl : b = e := Option.some.inj (hlast.trans he)
  have hapart := htiles.apart (h.mem_of_used hmem hused) hb hne
  simp only [Block.stop] at *
  omega

/-- After a size has been allocated and freed again, it is found at the same
place. -/
theorem malloc_after_free (heap : BrickosHeap mmStart cell)
    {size addr : ℕ} {mem mem' : Memory}
    (hmalloc : brickosMalloc mmStart cell size heap.memory =
      some (addr, mem)) (haddr : addr ≠ 0)
    (hfree : brickosFree mmStart cell addr mem = some mem') :
    (∀ x ∉ region mmStart cell, mem' x = heap.memory x) ∧
      ∃ mem'', brickosMalloc mmStart cell size mem' = some (addr, mem'') := by
  obtain ⟨r, bs', mem₁, htiles, hrun, hallocates, hspares⟩ :=
    heap.malloc_refines size
  obtain ⟨rfl, rfl⟩ : resultOf r = addr ∧ mem₁ = mem := by
    simpa only [hrun, Option.some.injEq, Prod.mk.injEq] using hmalloc
  cases r with
  | none => exact absurd rfl haddr
  | some b =>
      have hdrop := heap.granted_mem_dropLast hallocates htiles
      obtain ⟨bs'', mem₂, htiles', hrun', hrelease, hspares'⟩ :=
        (heap.after htiles).free_refines hdrop
      obtain rfl : mem₂ = mem' := by
        have heq := hrun'.symm.trans hfree
        exact Option.some.inj heq
      refine ⟨fun x hx => ?_, ?_⟩
      · obtain ⟨hcell, hcell', hout⟩ := heap.not_inFree hx
        calc mem₂ x
          _ = mem₁ x :=
              (heap.after htiles).frame_of_freed hdrop hspares' hx
          _ = heap.memory x := hspares x hcell hcell' hout
      · obtain ⟨r, cs, mem₃, -, hagain, hallocates', -⟩ :=
          ((heap.after htiles).after htiles').malloc_refines size
        have hblocks : ((heap.after htiles).after htiles').blocks =
            (release (b.addr + 4) bs' (mem₁.readWord cell)).1 :=
          (congrArg Prod.fst hrelease).symm
        rw [hblocks] at hallocates'
        have hsame := hallocates.release_allocates
          (heap.after htiles).addr_ne hallocates'
        subst hsame
        exact ⟨mem₃, hagain⟩

/-- `newprogram_addr` up to its allocation. -/
theorem freeSlot_clear (heap : BrickosHeap mmStart cell) {programs : ℕ}
    (htable : TableApart (brickosModel mmStart cell) programs) (slot : Fin 8)
    (hslot : occupied programs slot heap.memory →
      ∀ b ∈ heap.blocks.getLast?,
        b.addr + 4 ≠ slotText programs slot heap.memory) :
    ∃ freed, ∃ cleared : BrickosHeap mmStart cell,
      freeSlot (brickosAllocator mmStart cell) programs slot heap.memory =
        some freed ∧
      (if occupied programs slot heap.memory then
        freed.writeWord (slotAddr programs slot + 8) 0 else freed) =
          cleared.memory ∧
      ¬occupied programs slot cleared.memory := by
  by_cases hocc : occupied programs slot heap.memory
  · obtain ⟨heap', hrun, -⟩ := heap.free_total (hslot hocc)
    obtain ⟨hlow, hhigh⟩ := slotAddr_le programs slot
    have houtside : ∀ x ∈ region mmStart cell,
        heap'.memory.writeWord (slotAddr programs slot + 8) 0 x =
          heap'.memory x := by
      intro x hx
      have hapart : ¬(programs ≤ x ∧ x < programs + 176) := fun h =>
        htable x h.1 h.2 hx
      apply writeWord_of_ne <;> omega
    obtain ⟨cleared, hmemory, -⟩ := live_writeOutside houtside
    refine ⟨heap'.memory, cleared, ?_, ?_, ?_⟩
    · rw [freeSlot, if_pos hocc]
      exact hrun
    · rw [if_pos hocc, hmemory]
    · rw [hmemory, occupied, readWord_writeWord (by omega)]
      exact lt_irrefl 0
  · refine ⟨heap.memory, heap, ?_, if_neg hocc, hocc⟩
    rw [freeSlot, if_neg hocc]

/-- The program is placed at the address that `newprogram_addr` reports; only
a COFF file that is linked to another address is refused. -/
theorem newprogramAddr_kept (heap : BrickosHeap mmStart cell) {programs : ℕ}
    (htable : TableApart (brickosModel mmStart cell) programs) {slot : Fin 8}
    (hslot : occupied programs slot heap.memory →
      ∀ b ∈ heap.blocks.getLast?,
        b.addr + 4 ≠ slotText programs slot heap.memory)
    {size : Word} {addr : ℕ} {mem : Memory}
    (hprobe : brickosNewprogramAddr mmStart cell programs slot size
      heap.memory = some (addr, mem)) (haddr : addr ≠ 0)
    {file : ProgramFile} {header : ProgramHeader}
    (hheader : file.header? = some header)
    (htotal : header.total % 65536 = size.toNat) :
    ∃ placed loaded,
      brickosMalloc mmStart cell (header.total % 65536) mem =
        some (addr, placed) ∧
      (brickosLoadProgram mmStart cell programs slot file mem =
        if file.isCoff ∧ addr ≠ header.base.toNat then
          brickosFree mmStart cell addr placed
        else some loaded) ∧
      (file.KeepsTo header addr →
        slotText programs slot loaded = addr ∧
          file.StandsAt header addr loaded) := by
  obtain ⟨freed, cleared, hfreed, hcleared, hempty⟩ :=
    heap.freeSlot_clear htable slot hslot
  obtain ⟨result, heap', hmalloc, -, -, hlive⟩ :=
    cleared.live_malloc size.toNat
  obtain ⟨taken, htaken⟩ : ∃ taken, taken = heap'.memory := ⟨_, rfl⟩
  rw [← htaken] at hmalloc
  replace hmalloc : (brickosAllocator mmStart cell).malloc size.toNat
      cleared.memory = some (result, taken) := hmalloc
  obtain ⟨rfl, hfree⟩ : result = addr ∧
      brickosFree mmStart cell addr taken = some mem := by
    simp only [brickosNewprogramAddr, newprogramAddr, hfreed, hcleared,
      hmalloc] at hprobe
    by_cases hzero : result = 0
    · rw [if_neg (not_not.mpr hzero)] at hprobe
      cases hprobe
      exact absurd hzero haddr
    · rw [if_pos hzero, Option.map_eq_some_iff] at hprobe
      obtain ⟨mem', hfree, heq⟩ := hprobe
      cases heq
      exact ⟨rfl, hfree⟩
  obtain ⟨hframe, placed, hagain⟩ :=
    cleared.malloc_after_free hmalloc haddr hfree
  have hstill : ¬occupied programs slot mem := by
    obtain ⟨hlow, hhigh⟩ := slotAddr_le programs slot
    have hslots : occupied programs slot mem ↔
        occupied programs slot cleared.memory :=
      (slot_congr fun x hx hlt =>
        hframe x (htable x (by omega) (by omega))).1
    exact fun hocc => hempty (hslots.mp hocc)
  have hblock := (hlive haddr).1
  have hprog : ∀ x, result ≤ x →
      x < slotAddr programs slot ∨ slotAddr programs slot + 22 ≤ x := by
    intro x hx
    obtain ⟨hlow, hhigh⟩ := slotAddr_le programs slot
    have hregion := live_region hblock x hx
    have hapart : ¬(programs ≤ x ∧ x < programs + 176) :=
      fun hin => htable x hin.1 hin.2 hregion
    omega
  rw [← htotal] at hagain
  refine ⟨placed, install (slotAddr programs slot) result header file placed,
    hagain, ?_, fun hkeeps => standsAt_install hheader hkeeps hblock.1 hprog⟩
  have hagain : (brickosAllocator mmStart cell).malloc (header.total % 65536)
      mem = some (result, placed) := hagain
  simp only [brickosLoadProgram, loadProgram, hheader, freeSlot,
    if_neg hstill, hagain, if_neg haddr]
  rfl

/-- A program in slot 0, with room for a larger one behind its block. -/
def roomBehind : BrickosHeap 0x8000 0x7ffe where
  memory := ofWords [(0x7000, 0x8004), (0x7008, 4), (0x8000, 0xfffe),
    (0x8002, 4), (0x800c, 0), (0x800e, 0x40), (0x8090, 0xffff),
    (0x8092, 0x3fb6)]
  blocks := [⟨0x8000, 0xfffe, 4⟩, ⟨0x800c, 0, 0x40⟩, ⟨0x8090, 0xffff, 0x3fb6⟩]
  stop := 0x10000
  tiles := .cons rfl (by decide +kernel)
    (.cons rfl (by decide +kernel)
      (.last rfl (by decide +kernel) (by decide) (by decide) rfl))
  wraps := BrickosHeap.brickos_wraps
  above := BrickosHeap.brickos_above
  below := BrickosHeap.brickos_below

/-- A COFF program of 0x30 bytes that is linked to the place. -/
def linkedHeader : ProgramHeader := ⟨0x8004, 0x20, 8, 0, 0, 0⟩

def linkedSections : List (ℕ × List Byte) :=
  [(0x8004, [0x5e, 0, 0x80, 0x04]), (0x8024, [0x12, 0x34])]

/-- The larger program takes the place of the old one. -/
theorem newprogramAddr_kept_roomBehind :
    ∃ mem loaded,
      brickosNewprogramAddr 0x8000 0x7ffe 0x7000 0 0x30 roomBehind.memory =
        some (0x8004, mem) ∧
      brickosLoadProgram 0x8000 0x7ffe 0x7000 0
        (.coff linkedHeader linkedSections) mem = some loaded ∧
      slotText 0x7000 0 loaded = 0x8004 ∧
      ∀ sect ∈ linkedSections, ∀ i < sect.2.length,
        loaded (sect.1 + i) = sect.2.getD i 0 := by
  obtain ⟨mem, hprobe⟩ : ∃ mem, brickosNewprogramAddr 0x8000 0x7ffe 0x7000 0
      0x30 roomBehind.memory = some (0x8004, mem) := by
    have haddr : (brickosNewprogramAddr 0x8000 0x7ffe 0x7000 0 0x30
        roomBehind.memory).map Prod.fst = some 0x8004 := by
      decide +kernel
    obtain ⟨⟨addr, mem⟩, hrun, rfl⟩ := Option.map_eq_some_iff.mp haddr
    exact ⟨mem, hrun⟩
  have htable : TableApart (brickosModel 0x8000 0x7ffe) 0x7000 := by
    rintro x - hlt (hx | hx | hx) <;> omega
  have hslot : occupied 0x7000 0 roomBehind.memory →
      ∀ b ∈ roomBehind.blocks.getLast?,
        b.addr + 4 ≠ slotText 0x7000 0 roomBehind.memory := by
    rintro - b ⟨rfl⟩
    decide +kernel
  have hkeeps : (ProgramFile.coff linkedHeader linkedSections).KeepsTo
      linkedHeader 0x8004 :=
    ⟨by decide, by decide, by decide⟩
  have hheader : (ProgramFile.coff linkedHeader linkedSections).header? =
      some linkedHeader := rfl
  obtain ⟨placed, loaded, -, hload, hplaced⟩ := newprogramAddr_kept roomBehind
    htable hslot hprobe (by decide) hheader (by decide)
  have hlinked : ¬((ProgramFile.coff linkedHeader linkedSections).isCoff ∧
      0x8004 ≠ linkedHeader.base.toNat) := by decide
  rw [if_neg hlinked] at hload
  obtain ⟨htext, hstands⟩ := hplaced hkeeps
  exact ⟨mem, loaded, hprobe, hload, htext, hstands⟩

end BrickosHeap

end BrickEmu
