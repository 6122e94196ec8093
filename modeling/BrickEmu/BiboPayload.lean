import BrickEmu.BiboCalls

/-!
# Payloads under calls on the BiBo heap

`bibo_malloc` writes to free blocks only.  `bibo_free` writes the link of a
new entry of the free list into the block behind the freed one, and follows
address 0 as the next block when it frees the last block behind a free one.
-/

namespace BrickEmu

open Memory

/-- Outside the block and the pointer `bibo_malloc` writes nothing. -/
theorem takeFree_of_outside {size word ptr blocksize x : ℕ} {mem : Memory}
    (hsize : size + 4 ≤ blocksize)
    (hx : x < ptr + 2 ∨ ptr + blocksize + 2 ≤ x) (hne : x ≠ word)
    (hne' : x ≠ word + 1) : takeFree size word ptr blocksize mem x = mem x := by
  simp only [takeFree]
  split_ifs
  · rw [writeWord_of_ne hne hne', writeWord_of_ne (by omega) (by omega),
      writeWord_of_ne (by omega) (by omega),
      writeWord_of_ne (by omega) (by omega),
      writeWord_of_ne (by omega) (by omega),
      writeWord_of_ne (by omega) (by omega),
      writeWord_of_ne (by omega) (by omega)]
  · rw [writeWord_of_ne hne hne', writeWord_of_ne (by omega) (by omega)]

namespace BiboHeap

variable {mmStart cell : ℕ} (heap : BiboHeap mmStart cell)

/-- The call leaves the payloads of all allocated blocks alone, but for the
one it frees. -/
def SparesPayload (call : HeapCall) : Prop :=
  ∃ result mem', call.performBibo cell heap.memory = some (result, mem') ∧
    ∀ c ∈ heap.blocks, c.owner ≠ 0 → call ≠ .free (c.addr + 6) →
      ∀ x ∈ c.payload, mem' x = heap.memory x

/-- The word that `bibo_free` takes for the back pointer of a block behind
the last one is not the payload of an allocated block, or holds the value
already. -/
def WildWordSafe (p b : BiboBlock) : Prop :=
  heap.memory.readWord 4 = 0 →
    ∀ c ∈ heap.blocks, c ≠ b → c.owner ≠ 0 → ∀ x ∈ c.payload,
      heap.memory.writeWord (heap.memory.readWord 2) p.addr x =
        heap.memory x

/-- The next block is free, or its first word is the link of the new entry
of the free list, or it has no payload. -/
def NextWordSafe (n : BiboBlock) (rest : List BiboBlock) : Prop :=
  n.owner = 0 ∨ n.next = n.addr + 4 ∨
    heap.memory.readWord (n.addr + 6) = (freeAddrs rest).headD 0

/-- The words that `bibo_free` writes beside the blocks and links around its
block, given the blocks before and behind it. -/
def StrayWordsSafe (pre : List BiboBlock) (b : BiboBlock)
    (post : List BiboBlock) : Prop :=
  (∀ front p, pre = front ++ [p] → p.owner = 0 → post = [] →
      heap.WildWordSafe p b) ∧
    ((∀ front p, pre = front ++ [p] → p.owner ≠ 0) →
      ∀ n rest, post = n :: rest → heap.NextWordSafe n rest)

/-- The calls that write to no payload but that of the freed block. -/
def PayloadSafe : HeapCall → Prop
  | .malloc _ => True
  | .free addr =>
      ∃ pre b post, heap.blocks = pre ++ b :: post ∧ b.addr + 6 = addr ∧
        heap.StrayWordsSafe pre b post

/-- Where a payload byte lies with respect to another block. -/
theorem payload_apart {c f : BiboBlock} {x : ℕ} (hc : c ∈ heap.blocks)
    (hf : f ∈ heap.blocks) (hne : f ≠ c) (hx : x ∈ c.payload) :
    x < f.addr + 2 ∨
      f.next + 6 ≤ x ∧ f.addr + 4 ≤ f.next ∧
        (f.owner = 0 → f.addr + 8 ≤ f.next) := by
  obtain ⟨hlow, hhigh⟩ := hx
  rcases heap.chain.apart hf hc hne with hfc | hcf
  · have := hfc.next_le
    exact Or.inr ⟨by omega, hfc.size, hfc.freeSize⟩
  · have := hcf.next_le
    have := hcf.size
    rw [if_neg (by omega)] at hhigh
    exact Or.inl (by omega)

theorem payload_above {c : BiboBlock} {x : ℕ} (hc : c ∈ heap.blocks)
    (hx : x ∈ c.payload) : mmStart + 4 ≤ x := by
  have hle := heap.chain.le_addr hc
  have hlow := hx.1
  have := heap.start
  omega

/-- Pointers of the free list are not payload. -/
theorem pointer_apart {pre post : List BiboBlock} {b c : BiboBlock} {x : ℕ}
    (hblocks : heap.blocks = pre ++ b :: post) (hc : c ∈ heap.blocks)
    (hused : c.owner ≠ 0) (hx : x ∈ c.payload) :
    x ≠ pointer cell pre ∧ x ≠ pointer cell pre + 1 := by
  have hchain := heap.chain
  rw [hblocks] at hchain
  have habove := heap.payload_above hc hx
  have hhigh := heap.high
  rcases pointer_cases cell hchain with hp | ⟨f, hf, hfree, -, -, hp⟩
  · omega
  · have hne : f ≠ c := by
      rintro rfl
      exact hused hfree
    have hfmem : f ∈ heap.blocks := by simp [hblocks, hf]
    rcases heap.payload_apart hc hfmem hne hx with hlt | ⟨hle, -, hsize⟩
    · omega
    · have := hsize hfree
      omega

theorem malloc_sparesPayload (size : ℕ) :
    heap.SparesPayload (.malloc size) := by
  cases hfit : heap.firstFit size with
  | none => exact ⟨0, heap.memory, heap.malloc_none hfit, by simp⟩
  | some p =>
      obtain ⟨hp, pre, post, hblocks, hsmall⟩ :=
        List.find?_eq_some_iff_append.mp hfit
      obtain ⟨hp, hsize⟩ : p.owner = 0 ∧ roundSize size + 4 ≤ p.extent := by
        simpa using hp
      have hpmem : p ∈ heap.blocks := by simp [hblocks]
      have hrun := heap.malloc_some hblocks hp hsize (by
        intro c hc hfree hle
        have hnot := hsmall c hc
        simp [hfree, hle] at hnot)
      refine ⟨_, _, hrun, ?_⟩
      intro c hc hused _ x hx
      have hne : p ≠ c := by
        rintro rfl
        exact hused hp
      obtain ⟨hword, hword'⟩ := heap.pointer_apart hblocks hc hused hx
      apply takeFree_of_outside hsize _ hword hword'
      rcases heap.payload_apart hc hpmem hne hx with hlt | ⟨hle, hnext, -⟩
      · exact Or.inl hlt
      · have hextent : p.extent = p.next - p.addr := if_neg (by omega)
        omega

section Free

variable {pre front post rest : List BiboBlock} {p b n : BiboBlock}

/-- For a call of `bibo_free` the payloads of the other allocated blocks
count. -/
theorem free_sparesPayload_iff {mem' : Memory} (hb : b ∈ heap.blocks)
    (hrun : biboFree cell (b.addr + 6) heap.memory = some mem') :
    heap.SparesPayload (.free (b.addr + 6)) ↔
      ∀ c ∈ heap.blocks, c ≠ b → c.owner ≠ 0 → ∀ x ∈ c.payload,
        mem' x = heap.memory x := by
  have hother : ∀ c ∈ heap.blocks,
      HeapCall.free (b.addr + 6) ≠ .free (c.addr + 6) ↔ c ≠ b := by
    intro c hc
    obtain ⟨_, hbin⟩ := heap.chain.mem_in hb
    obtain ⟨_, hcin⟩ := heap.chain.mem_in hc
    rw [ne_eq, ne_eq, not_iff_not]
    constructor
    · intro heq
      injection heq with heq
      have haddr : c.addr = b.addr := by omega
      rw [hcin.eq, hbin.eq, haddr]
    · rintro rfl
      rfl
  constructor
  · rintro ⟨result, mem'', hperform, hsame⟩ c hc hne hused
    rw [HeapCall.performBibo, hrun] at hperform
    obtain ⟨-, rfl⟩ := Prod.mk.inj (Option.some.inj hperform)
    exact hsame c hc hused ((hother c hc).mpr hne)
  · intro hsame
    refine ⟨0, mem', by rw [HeapCall.performBibo, hrun]; rfl, ?_⟩
    intro c hc hused hcall
    exact hsame c hc ((hother c hc).mp hcall) hused

/-- Behind a free block and before another block everything is safe. -/
theorem free_behind_free_spares
    (hblocks : heap.blocks = front ++ p :: b :: n :: post)
    (hp : p.owner = 0) : heap.SparesPayload (.free (b.addr + 6)) := by
  have hchain := heap.chain
  rw [hblocks] at hchain
  have h := hchain.surrounded hp
  have hword : heap.memory.readWord (b.addr + 2) = n.addr + 1 := by
    rw [h.block.word, h.nextPlace]
    rfl
  have heven := h.next.even
  have hnext : clearFlag (n.addr + 1) = n.addr := by
    unfold clearFlag
    omega
  have hrun : biboFree cell (b.addr + 6) heap.memory =
      some (mergeWithPrevious b.addr n.addr heap.memory) := by
    rw [heap.free_addr (by simp [hblocks]), hword, if_pos (by omega), hnext]
  have hpmem : p ∈ heap.blocks := by simp [hblocks]
  have hbmem : b ∈ heap.blocks := by simp [hblocks]
  have hnmem : n ∈ heap.blocks := by simp [hblocks]
  rw [heap.free_sparesPayload_iff hbmem hrun]
  intro c hc hne hused x hx
  have hpc : p ≠ c := by
    rintro rfl
    exact hused hp
  have habove := heap.payload_above hc hx
  have hp' := heap.payload_apart hc hpmem hpc hx
  have hb' := heap.payload_apart hc hbmem (Ne.symm hne) hx
  have hsize := h.size
  have hplace := h.place
  have hplace' := h.nextPlace
  by_cases hn : n.owner = 0
  · have hnc : n ≠ c := by
      rintro rfl
      exact hused hn
    have hn' := heap.payload_apart hc hnmem hnc hx
    have hlast := h.next.freeSize hn
    apply (h.merge_free hn).same <;> omega
  · apply (h.merge_used hn).same
    by_cases hnc : n = c
    · subst hnc
      have := hx.1
      omega
    · omega

/-- The last block behind a free block. -/
theorem free_last_spares_iff (hblocks : heap.blocks = front ++ [p, b])
    (hp : p.owner = 0) :
    heap.SparesPayload (.free (b.addr + 6)) ↔ heap.WildWordSafe p b := by
  have hchain := heap.chain
  rw [hblocks] at hchain
  obtain ⟨u, -, hpin, hright⟩ := hchain.at_block
  obtain ⟨haddr, hbin, hright⟩ := hright.of_cons
  rw [Stretch.tag_free hp] at hbin
  have hlast : b.next = 0 := hright.of_nil.2
  have hpmem : p ∈ heap.blocks := by simp [hblocks]
  have hbmem : b ∈ heap.blocks := by simp [hblocks]
  have hword : heap.memory.readWord (b.addr + 2) = 1 := by
    rw [hbin.word, hlast]
    rfl
  have hrun : biboFree cell (b.addr + 6) heap.memory =
      some (mergeWithPrevious b.addr 0 heap.memory) := by
    rw [heap.free_addr hbmem, hword]
    rfl
  rw [heap.free_sparesPayload_iff hbmem hrun, mergeWithPrevious,
    hbin.back p.addr rfl, WildWordSafe]
  have hstart := heap.start
  have hpapart : ∀ c ∈ heap.blocks, c.owner ≠ 0 → ∀ x ∈ c.payload,
      mmStart + 4 ≤ x ∧ (x < p.addr + 2 ∨ p.addr + 14 ≤ x) := by
    intro c hc hused x hx
    have hpc : p ≠ c := by
      rintro rfl
      exact hused hp
    have habove := heap.payload_above hc hx
    rcases heap.payload_apart hc hpmem hpc hx with hlt | ⟨hle, -, hsize⟩
    · exact ⟨habove, Or.inl hlt⟩
    · have := hsize hp
      exact ⟨habove, Or.inr (by omega)⟩
  by_cases hzero : heap.memory.readWord 4 = 0
  · simp only [Nat.zero_add, if_pos hzero]
    have hvalue : ∀ c ∈ heap.blocks, c.owner ≠ 0 → ∀ x ∈ c.payload,
        (((heap.memory.writeWord (p.addr + 2)
          (heap.memory.readWord 2)).writeWord (heap.memory.readWord 2)
            p.addr).writeWord (p.addr + 6) (heap.memory.readWord 6)) x =
          heap.memory.writeWord (heap.memory.readWord 2) p.addr x := by
      intro c hc hused x hx
      obtain ⟨habove, hapart⟩ := hpapart c hc hused x hx
      have hfirst : heap.memory.writeWord (p.addr + 2)
          (heap.memory.readWord 2) x = heap.memory x :=
        writeWord_of_ne (by omega) (by omega)
      rw [writeWord_of_ne (by omega) (by omega), writeWord_apply, hfirst,
        ← writeWord_apply]
    constructor
    · intro hsame _ c hc hne hused x hx
      rw [← hvalue c hc hused x hx]
      exact hsame c hc hne hused x hx
    · intro hsafe c hc hne hused x hx
      rw [hvalue c hc hused x hx]
      exact hsafe hzero c hc hne hused x hx
  · simp only [Nat.zero_add, if_neg hzero]
    apply iff_of_true
    · intro c hc hne hused x hx
      obtain ⟨habove, hapart⟩ := hpapart c hc hused x hx
      rw [writeWord_of_ne (by omega) (by omega),
        writeWord_of_ne (by omega) (by omega),
        writeWord_of_ne (by omega) (by omega)]
    · exact fun h => absurd h hzero

/-- A block that enters the free list. -/
theorem free_enqueued (hblocks : heap.blocks = pre ++ b :: post)
    (hused : b.owner ≠ 0) (hb : b.In heap.memory none) :
    biboFree cell (b.addr + 6) heap.memory =
      some (enqueue b.addr b.next (pointer cell pre)
        ((freeAddrs post).headD 0)
          (heap.memory.writeWord (b.addr + 4) 0)) := by
  have heven := hb.nextEven
  have hword : heap.memory.readWord (b.addr + 2) = b.next := hb.word
  rw [heap.free_addr (by simp [hblocks]), hword, if_neg (by omega),
    heap.find_place hblocks hused]

/-- A block behind no free block, which is the last or has a free block
behind it. -/
theorem free_merging_spares (hblocks : heap.blocks = pre ++ b :: post)
    (hused : b.owner ≠ 0) (hb : b.In heap.memory none)
    (hnext : (freeAddrs post).headD 0 = b.next) :
    heap.SparesPayload (.free (b.addr + 6)) := by
  have hbmem : b ∈ heap.blocks := by simp [hblocks]
  rw [heap.free_sparesPayload_iff hbmem
    (heap.free_enqueued hblocks hused hb)]
  intro c hc hne hcused x hx
  obtain ⟨hword, hword'⟩ := heap.pointer_apart hblocks hc hcused hx
  have hapart := heap.payload_apart hc hbmem (Ne.symm hne) hx
  simp only [enqueue, if_pos hnext]
  rw [writeWord_of_ne (by omega) (by omega),
    writeWord_of_ne (by omega) (by omega), writeWord_of_ne hword hword',
    writeWord_of_ne (by omega) (by omega)]

/-- A block between allocated blocks. -/
theorem free_between_used_spares_iff
    (hblocks : heap.blocks = pre ++ b :: n :: rest)
    (hused : b.owner ≠ 0) (hb : b.In heap.memory none)
    (hn : n.owner ≠ 0) :
    heap.SparesPayload (.free (b.addr + 6)) ↔
      heap.NextWordSafe n rest := by
  have hchain := heap.chain
  rw [hblocks] at hchain
  obtain ⟨_, -, -, hright⟩ := hchain.at_block
  obtain ⟨hplace, hnin, hright⟩ := hright.of_cons
  have hpos := hnin.pos
  have hsize : b.addr + 4 ≤ b.next := by
    have := hb.size
    omega
  have hbmem : b ∈ heap.blocks := by simp [hblocks]
  have hnmem : n ∈ heap.blocks := by simp [hblocks]
  obtain ⟨v, hv⟩ : ∃ v, (freeAddrs rest).headD 0 = v := ⟨_, rfl⟩
  have hvbounds : v = 0 ∨ n.next ≤ v ∧ n.addr + 4 ≤ n.next ∧ v < 65536 := by
    cases hfree : freeAddrs rest with
    | nil =>
        rw [hfree] at hv
        exact Or.inl hv.symm
    | cons f fs =>
        rw [hfree, List.headD_cons] at hv
        subst hv
        obtain ⟨d, hd, -, rfl⟩ := mem_freeAddrs.mp
          (by rw [hfree]; exact List.mem_cons_self : f ∈ freeAddrs rest)
        have hagain : Stretch heap.memory none (mmStart - 2)
            ((pre ++ [b]) ++ n :: rest) heap.after 0 := by
          simpa using hchain
        have hnd := hagain.around.2 d hd
        have hbounds := heap.free_in (b := d) (by simp [hblocks, hd])
        exact Or.inr ⟨hnd.next_le, hnd.size, by omega⟩
  have hrun := heap.free_enqueued hblocks hused hb
  rw [freeAddrs_cons_used hn, hv] at hrun
  rw [heap.free_sparesPayload_iff hbmem hrun]
  simp only [enqueue, if_neg (show v ≠ b.next by omega)]
  generalize setFlag _ = flag
  -- only the first word of the next block is at stake
  have hvalue : ∀ c ∈ heap.blocks, c ≠ b → c.owner ≠ 0 → ∀ x ∈ c.payload,
      ((((heap.memory.writeWord (b.addr + 4) 0).writeWord
        (pointer cell pre) b.addr).writeWord (b.next + 2) flag).writeWord
          (b.next + 6) v) x = heap.memory.writeWord (n.addr + 6) v x := by
    intro c hc hne hcused x hx
    obtain ⟨hword, hword'⟩ := heap.pointer_apart hblocks hc hcused hx
    have hapart := heap.payload_apart hc hbmem (Ne.symm hne) hx
    have hnapart : x < n.addr + 2 ∨ n.addr + 6 ≤ x := by
      by_cases hnc : n = c
      · subst hnc
        exact Or.inr hx.1
      · rcases heap.payload_apart hc hnmem hnc hx with hlt | ⟨hle, hsz, -⟩
        · exact Or.inl hlt
        · exact Or.inr (by omega)
    have hbefore : (((heap.memory.writeWord (b.addr + 4) 0).writeWord
        (pointer cell pre) b.addr).writeWord (b.next + 2) flag) x =
          heap.memory x := by
      rw [writeWord_of_ne (by omega) (by omega), writeWord_of_ne hword hword',
        writeWord_of_ne (by omega) (by omega)]
    rw [writeWord_apply, hbefore, hplace, ← writeWord_apply]
  have hfirst : ∀ c ∈ heap.blocks, c ≠ n → ∀ x ∈ c.payload,
      heap.memory.writeWord (n.addr + 6) v x = heap.memory x := by
    intro c hc hne x hx
    have := heap.payload_apart hc hnmem (Ne.symm hne) hx
    exact writeWord_of_ne (by omega) (by omega)
  have hroom := hnin.room
  constructor
  · intro hsame
    by_cases hempty : n.next = n.addr + 4
    · exact Or.inr (Or.inl hempty)
    right
    right
    have hlong : ∀ x, x = n.addr + 6 ∨ x = n.addr + 7 → x ∈ n.payload := by
      intro x hx
      have hnsize := hnin.size
      have hneven := hnin.nextEven
      have heven := hnin.even
      refine ⟨by omega, ?_⟩
      split_ifs <;> omega
    have hbytes : ∀ x, x = n.addr + 6 ∨ x = n.addr + 7 →
        heap.memory.writeWord (n.addr + 6) v x = heap.memory x := by
      intro x hx
      have hne : n ≠ b := by
        rintro rfl
        omega
      rw [← hvalue n hnmem hne hn x (hlong x hx)]
      exact hsame n hnmem hne hn x (hlong x hx)
    rw [hv, ← readWord_congr (hbytes _ (Or.inl rfl)) (hbytes _ (Or.inr rfl))]
    exact readWord_writeWord (by omega)
  · intro hsafe c hc hne hcused x hx
    rw [hvalue c hc hne hcused x hx]
    by_cases hnc : c = n
    · subst hnc
      rcases hsafe with hfree | hempty | hword
      · exact absurd hfree hn
      · obtain ⟨hlow, hhigh⟩ := hx
        rw [hempty, if_neg (by omega)] at hhigh
        omega
      · rw [← hv, ← hword, writeWord_readWord]
    · exact hfirst c hc hnc x hx

/-- What happens to the payloads depends on the words beside the block. -/
theorem free_spares_iff (hblocks : heap.blocks = pre ++ b :: post)
    (hused : b.owner ≠ 0) :
    heap.SparesPayload (.free (b.addr + 6)) ↔
      heap.StrayWordsSafe pre b post := by
  have hchain := heap.chain
  rw [hblocks] at hchain
  obtain ⟨u, hleft, hb, hright⟩ := hchain.at_block
  cases u with
  | some q =>
      obtain ⟨front, p, rfl, hp⟩ := hleft.tagged
      have hmust : ∀ front' p', front ++ [p] = front' ++ [p'] → p' = p := by
        intro front' p' heq
        simpa using (List.append_inj' heq rfl).2.symm
      cases post with
      | nil =>
          rw [heap.free_last_spares_iff (by simpa using hblocks) hp]
          constructor
          · intro hsafe
            refine ⟨?_, fun hnone => absurd hp (hnone front p rfl)⟩
            intro front' p' heq _ _
            rw [hmust front' p' heq]
            exact hsafe
          · exact fun hsafe => hsafe.1 front p rfl hp rfl
      | cons n rest =>
          apply iff_of_true
          · exact heap.free_behind_free_spares (by simpa using hblocks) hp
          · refine ⟨?_, fun hnone => absurd hp (hnone front p rfl)⟩
            rintro _ _ _ _ ⟨⟩
  | none =>
      have hnone : ∀ front p, pre = front ++ [p] → p.owner ≠ 0 := by
        rintro front p rfl hp
        obtain ⟨_, -, -, hend⟩ := hleft.at_block
        have htag := hend.of_nil.1
        rw [Stretch.tag_free hp] at htag
        cases htag
      have hleftSafe : ∀ front p, pre = front ++ [p] → p.owner = 0 →
          post = [] → heap.WildWordSafe p b :=
        fun front p hpre hp => absurd hp (hnone front p hpre)
      cases post with
      | nil =>
          apply iff_of_true
          · apply heap.free_merging_spares hblocks hused hb
            exact hright.of_nil.2.symm
          · refine ⟨hleftSafe, ?_⟩
            rintro _ n rest ⟨⟩
      | cons n rest =>
          obtain ⟨hplace, -⟩ := hright.of_cons
          have hiff : heap.StrayWordsSafe pre b (n :: rest) ↔
              heap.NextWordSafe n rest := by
            constructor
            · exact fun hsafe => hsafe.2 hnone n rest rfl
            · intro hsafe
              refine ⟨hleftSafe, ?_⟩
              rintro _ _ _ ⟨rfl, rfl⟩
              exact hsafe
          rw [hiff]
          by_cases hn : n.owner = 0
          · apply iff_of_true _ (Or.inl hn)
            apply heap.free_merging_spares hblocks hused hb
            rw [freeAddrs_cons_free hn, List.headD_cons, hplace]
          · exact heap.free_between_used_spares_iff hblocks hused hb hn

end Free

/-- A call on an allocated block leaves the other payloads alone exactly when
the words that it writes beside the block are not payload. -/
theorem sparesPayload_iff (call : HeapCall)
    (hallowed : heap.FreesAllocated call) :
    heap.SparesPayload call ↔ heap.PayloadSafe call := by
  cases call with
  | malloc size => exact iff_of_true (heap.malloc_sparesPayload size) trivial
  | free addr =>
      obtain ⟨b, hb, hused, rfl⟩ := hallowed
      constructor
      · intro hspares
        obtain ⟨pre, post, hblocks⟩ := List.append_of_mem hb
        exact ⟨pre, b, post, hblocks, rfl,
          (heap.free_spares_iff hblocks hused).mp hspares⟩
      · rintro ⟨pre, c, post, hblocks, haddr, hsafe⟩
        obtain ⟨_, hbin⟩ := heap.chain.mem_in hb
        obtain ⟨_, hcin⟩ := heap.chain.mem_in
          (show c ∈ heap.blocks by simp [hblocks])
        obtain rfl : b = c := by
          have heq : b.addr = c.addr := by omega
          rw [hbin.eq, hcin.eq, heq]
        exact (heap.free_spares_iff hblocks hused).mpr hsafe

theorem sparesPayload_freeFirst :
    freeFirst.SparesPayload (.free 0x8024) := by
  apply (freeFirst.sparesPayload_iff (.free 0x8024)
    ⟨⟨0x801e, 0x803e, 1⟩, by simp [freeFirst], by decide, rfl⟩).mpr
  refine ⟨[⟨0x7ffe, 0x801e, 0⟩], ⟨0x801e, 0x803e, 1⟩, _, rfl, rfl, ?_, ?_⟩
  · rintro _ _ _ _ ⟨⟩
  · intro hnone
    exact absurd rfl (hnone [] ⟨0x7ffe, 0x801e, 0⟩ rfl)

/-- Three allocated blocks with program data in the last one. -/
def dataBehind : BiboHeap 0x8000 0x7ffc where
  memory := (threeBlocks 0 1 0).writeWord 0x8044 0x1234
  blocks := [⟨0x7ffe, 0x801e, 1⟩, ⟨0x801e, 0x803e, 1⟩,
    ⟨0x803e, 0, 0xffff⟩]
  after := none
  chain := .cons rfl (by decide +kernel) (.cons rfl (by decide +kernel)
    (.cons rfl (by decide +kernel) .nil))
  links := by decide +kernel
  start := bibo_start
  low := bibo_low
  high := bibo_high

/-- Freeing a block between allocated blocks overwrites the first word of the
next one. -/
theorem free_overwrites_next_payload :
    dataBehind.FreesAllocated (.free 0x8024) ∧
      ¬dataBehind.SparesPayload (.free 0x8024) := by
  refine ⟨⟨⟨0x801e, 0x803e, 1⟩, by simp [dataBehind], by decide, rfl⟩, ?_⟩
  rintro ⟨result, mem', hrun, hsame⟩
  have hword : (HeapCall.performBibo 0x7ffc dataBehind.memory
      (.free 0x8024)).map (fun r => r.2 0x8044) = some 0 := by
    decide +kernel
  rw [hrun, Option.map_some, Option.some.injEq] at hword
  have hkept := hsame ⟨0x803e, 0, 0xffff⟩ (by simp [dataBehind]) (by decide)
    (by simp) 0x8044 ⟨by decide, by decide⟩
  have hbefore : dataBehind.memory 0x8044 = 0x12 := by decide +kernel
  simp only at hword
  rw [hword, hbefore] at hkept
  cases hkept

end BiboHeap

end BrickEmu
