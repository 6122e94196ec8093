import BrickEmu.WordMemory

/-!
# The heap of BiBo

A block has a word for the free block before it, the address of the next
block with a flag in bit 0, its owner, and its payload, which reaches up to
the flag word of the next block.  A free block keeps the link of the free
list in the first word of its payload.
-/

namespace BrickEmu

open Memory

section Code

/-- The list of free blocks is never longer. -/
def linkLimit : ℕ := 65536

def clearFlag (word : ℕ) : ℕ :=
  word / 2 * 2

def setFlag (word : ℕ) : ℕ :=
  word / 2 * 2 + 1

/-- The place of a block in the free list: the word that will point to it and
the free block behind it. -/
def findPlace (addr : ℕ) (mem : Memory) : ℕ → ℕ → Option (ℕ × ℕ)
  | 0, _ => none
  | fuel + 1, prev =>
      let prevnext := mem.readWord prev
      if prevnext ≠ 0 ∧ prevnext < addr then
        findPlace addr mem fuel ((prevnext + 6) % 65536)
      else some (prev, prevnext)

/-- `bibo_free` for a block behind a free block. -/
def mergeWithPrevious (addr next : ℕ) (mem : Memory) : Memory :=
  let prev := mem.readWord addr
  if mem.readWord (next + 4) = 0 then
    let nextnext := mem.readWord (next + 2)
    let nextnextfree := mem.readWord (next + 6)
    ((mem.writeWord (prev + 2) nextnext).writeWord nextnext prev).writeWord
      (prev + 6) nextnextfree
  else
    let nextnext := mem.readWord (next + 2)
    ((mem.writeWord (next + 2) (setFlag nextnext)).writeWord (prev + 2)
      next).writeWord next prev

/-- `bibo_free` for a block that enters the free list. -/
def enqueue (addr next prev prevnext : ℕ) (mem : Memory) : Memory :=
  let mem := mem.writeWord prev addr
  if prevnext = next then
    let nextnext := mem.readWord (next + 2)
    let nextnextfree := mem.readWord (next + 6)
    (mem.writeWord (addr + 2) nextnext).writeWord (addr + 6) nextnextfree
  else
    let nextnext := setFlag (mem.readWord (next + 2))
    (mem.writeWord (next + 2) nextnext).writeWord (next + 6) prevnext

variable (cell : ℕ)

def biboFree (addr : ℕ) (mem : Memory) : Option Memory :=
  if addr = 0 then some mem
  else
    let addr := (addr + 65536 - 6) % 65536
    let next := mem.readWord (addr + 2)
    if next % 2 = 1 then some (mergeWithPrevious addr (clearFlag next) mem)
    else
      let mem := mem.writeWord (addr + 4) 0
      match findPlace addr mem linkLimit cell with
      | none => none
      | some (prev, prevnext) => some (enqueue addr next prev prevnext mem)

/-- `bibo_malloc` has found a block of the given size. -/
def takeFree (size pptr ptr blocksize : ℕ) (mem : Memory) : Memory :=
  let mem := mem.writeWord (ptr + 4) 0xfffe
  if size + 12 ≤ blocksize then
    let mem := mem.writeWord (ptr + size + 4 + 4) 0
    let mem := mem.writeWord (ptr + size + 4 + 2) (ptr + blocksize)
    let mem := mem.writeWord (ptr + blocksize) (ptr + size + 4)
    let mem := mem.writeWord (ptr + size + 4 + 6) (mem.readWord (ptr + 6))
    let mem := mem.writeWord (ptr + 2) (ptr + size + 4)
    mem.writeWord pptr (ptr + size + 4)
  else mem.writeWord pptr (mem.readWord (ptr + 6))

def biboMallocFrom (size : ℕ) (mem : Memory) :
    ℕ → ℕ → Option (ℕ × Memory)
  | 0, _ => none
  | fuel + 1, pptr =>
      let ptr := mem.readWord pptr
      if ptr = 0 then some (0, mem)
      else
        let blocksize := (mem.readWord (ptr + 2) + 65536 - ptr) % 65536
        if size + 4 ≤ blocksize then
          some ((ptr + 6) % 65536, takeFree size pptr ptr blocksize mem)
        else biboMallocFrom size mem fuel ((ptr + 6) % 65536)

/-- The size in whole words, in 16 bits. -/
def roundSize (size : ℕ) : ℕ :=
  clearFlag (size + 1) % 65536

def biboMalloc (size : ℕ) (mem : Memory) : Option (ℕ × Memory) :=
  biboMallocFrom (roundSize size) mem linkLimit cell

end Code

/-- A block with its address, the address of the next block and its owner.
The next block of the last block is 0, and a free block has owner 0. -/
structure BiboBlock where
  addr : ℕ
  next : ℕ
  owner : ℕ
  deriving DecidableEq

namespace BiboBlock

/-- What the next block knows about this one: its address if it is free. -/
def tag (b : BiboBlock) : Option ℕ :=
  if b.owner = 0 then some b.addr else none

/-- The payload, up to the flag word of the next block. -/
def payload (b : BiboBlock) : Set ℕ :=
  {x | b.addr + 6 ≤ x ∧ x < if b.next = 0 then 65536 else b.next + 2}

/-- The memory holds the block, with the given block before it. -/
structure In (b : BiboBlock) (mem : Memory) (before : Option ℕ) : Prop where
  even : b.addr % 2 = 0
  pos : 2 ≤ b.addr
  room : b.addr + 8 ≤ 65536
  nextEven : b.next % 2 = 0
  size : b.next = 0 ∨ b.addr + 4 ≤ b.next
  freeSize : b.owner = 0 → b.next = 0 ∨ b.addr + 8 ≤ b.next
  word : mem.readWord (b.addr + 2) =
    b.next + if before.isSome then 1 else 0
  owner_eq : mem.readWord (b.addr + 4) = b.owner
  back : ∀ p, before = some p → mem.readWord b.addr = p
  apart : b.owner = 0 → before = none

theorem in_iff {b : BiboBlock} {mem : Memory} {before : Option ℕ} :
    b.In mem before ↔
      (b.addr % 2 = 0 ∧ 2 ≤ b.addr ∧ b.addr + 8 ≤ 65536 ∧
        b.next % 2 = 0 ∧ (b.next = 0 ∨ b.addr + 4 ≤ b.next) ∧
        (b.owner = 0 → b.next = 0 ∨ b.addr + 8 ≤ b.next)) ∧
      mem.readWord (b.addr + 2) =
        b.next + (if before.isSome then 1 else 0) ∧
      mem.readWord (b.addr + 4) = b.owner ∧
      (∀ p ∈ before, mem.readWord b.addr = p) ∧
      (b.owner = 0 → before = none) := by
  constructor
  · intro h
    exact ⟨⟨h.even, h.pos, h.room, h.nextEven, h.size, h.freeSize⟩, h.word,
      h.owner_eq, h.back, h.apart⟩
  · rintro ⟨⟨heven, hpos, hroom, hnext, hsize, hfree⟩, hword, howner, hback,
      hapart⟩
    exact ⟨heven, hpos, hroom, hnext, hsize, hfree, hword, howner, hback,
      hapart⟩

instance (b : BiboBlock) (mem : Memory) (before : Option ℕ) :
    Decidable (b.In mem before) :=
  decidable_of_iff' _ in_iff

theorem In.transport {b : BiboBlock} {mem mem' : Memory}
    {before : Option ℕ} (h : b.In mem before)
    (hheader : ∀ x, b.addr + 2 ≤ x → x < b.addr + 6 → mem' x = mem x)
    (hback : ∀ p, before = some p → ∀ x, b.addr ≤ x → x < b.addr + 2 →
      mem' x = mem x) : b.In mem' before where
  even := h.even
  pos := h.pos
  room := h.room
  nextEven := h.nextEven
  size := h.size
  freeSize := h.freeSize
  word := by
    rw [← h.word]
    apply readWord_congr <;> apply hheader <;> omega
  owner_eq := by
    rw [← h.owner_eq]
    apply readWord_congr <;> apply hheader <;> omega
  back := by
    intro p hp
    rw [← h.back p hp]
    apply readWord_congr <;> apply hback p hp <;> omega
  apart := h.apart

/-- The memory determines the block at an address. -/
theorem In.eq {b : BiboBlock} {mem : Memory} {before : Option ℕ}
    (h : b.In mem before) :
    b = ⟨b.addr, clearFlag (mem.readWord (b.addr + 2)),
      mem.readWord (b.addr + 4)⟩ := by
  have heven := h.nextEven
  have hnext : clearFlag (mem.readWord (b.addr + 2)) = b.next := by
    rw [h.word, clearFlag]
    split_ifs <;> omega
  rw [hnext, h.owner_eq]

/-- The block ends before the other one begins. -/
structure Before (b c : BiboBlock) : Prop where
  next_le : b.next ≤ c.addr
  size : b.addr + 4 ≤ b.next
  freeSize : b.owner = 0 → b.addr + 8 ≤ b.next

end BiboBlock

/-- A stretch of blocks, with what is known before it and after it. -/
inductive Stretch (mem : Memory) :
    Option ℕ → ℕ → List BiboBlock → Option ℕ → ℕ → Prop
  | nil {t : Option ℕ} {ptr : ℕ} : Stretch mem t ptr [] t ptr
  | cons {t t' : Option ℕ} {ptr stop : ℕ} {b : BiboBlock}
      {bs : List BiboBlock} :
      b.addr = ptr → b.In mem t → Stretch mem b.tag b.next bs t' stop →
        Stretch mem t ptr (b :: bs) t' stop

namespace Stretch

variable {mem mem' : Memory} {t t' : Option ℕ} {ptr stop : ℕ}
  {b c : BiboBlock} {bs cs : List BiboBlock}

theorem append {u : Option ℕ} {mid : ℕ} (h : Stretch mem t ptr bs u mid)
    (h' : Stretch mem u mid cs t' stop) :
    Stretch mem t ptr (bs ++ cs) t' stop := by
  induction h with
  | nil => exact h'
  | cons haddr hin htail ih => exact cons haddr hin (ih h')

theorem split (h : Stretch mem t ptr (bs ++ cs) t' stop) :
    ∃ u mid, Stretch mem t ptr bs u mid ∧ Stretch mem u mid cs t' stop := by
  induction bs generalizing t ptr with
  | nil => exact ⟨t, ptr, nil, h⟩
  | cons b bs ih =>
      rcases h with _ | ⟨haddr, hin, htail⟩
      obtain ⟨u, mid, hleft, hright⟩ := ih htail
      exact ⟨u, mid, cons haddr hin hleft, hright⟩

theorem of_cons (h : Stretch mem t ptr (b :: bs) t' stop) :
    b.addr = ptr ∧ b.In mem t ∧ Stretch mem b.tag b.next bs t' stop := by
  cases h with
  | cons haddr hin htail => exact ⟨haddr, hin, htail⟩

theorem of_nil (h : Stretch mem t ptr [] t' stop) : t = t' ∧ ptr = stop := by
  cases h
  exact ⟨rfl, rfl⟩

/-- The stretches before and behind a block. -/
theorem at_block {pre post : List BiboBlock}
    (h : Stretch mem t ptr (pre ++ b :: post) t' stop) :
    ∃ u, Stretch mem t ptr pre u b.addr ∧ b.In mem u ∧
      Stretch mem b.tag b.next post t' stop := by
  obtain ⟨u, mid, hleft, hright⟩ := h.split
  obtain ⟨rfl, hin, htail⟩ := hright.of_cons
  exact ⟨u, hleft, hin, htail⟩

/-- A block that is followed by another one has a next address. -/
theorem next_of_mem (hin : b.In mem t)
    (htail : Stretch mem b.tag b.next bs t' stop) (hc : c ∈ bs) :
    b.addr + 4 ≤ b.next ∧ (b.owner = 0 → b.addr + 8 ≤ b.next) := by
  have hne : b.next ≠ 0 := by
    cases htail with
    | nil => cases hc
    | cons haddr hin' =>
        have hpos := hin'.pos
        omega
  refine ⟨hin.size.resolve_left hne, fun hfree => ?_⟩
  exact (hin.freeSize hfree).resolve_left hne

theorem le_addr (h : Stretch mem t ptr bs t' stop) (hb : b ∈ bs) :
    ptr ≤ b.addr := by
  induction h with
  | nil => cases hb
  | cons haddr hin htail ih =>
      rcases List.mem_cons.mp hb with rfl | hb
      · exact haddr.ge
      · have hnext := (next_of_mem hin htail hb).1
        have hle := ih hb
        omega

theorem mem_in (h : Stretch mem t ptr bs t' stop) (hb : b ∈ bs) :
    ∃ before, b.In mem before := by
  induction h with
  | nil => cases hb
  | cons haddr hin htail ih =>
      rcases List.mem_cons.mp hb with rfl | hb
      · exact ⟨_, hin⟩
      · exact ih hb

theorem pairwise (h : Stretch mem t ptr bs t' stop) :
    bs.Pairwise BiboBlock.Before := by
  induction h with
  | nil => exact List.Pairwise.nil
  | cons haddr hin htail ih =>
      refine List.pairwise_cons.mpr ⟨fun c hc => ?_, ih⟩
      obtain ⟨hsize, hfreeSize⟩ := next_of_mem hin htail hc
      exact ⟨htail.le_addr hc, hsize, hfreeSize⟩

theorem apart (h : Stretch mem t ptr bs t' stop) (hb : b ∈ bs)
    (hc : c ∈ bs) (hne : b ≠ c) : b.Before c ∨ c.Before b := by
  have heither : bs.Pairwise fun b c => b.Before c ∨ c.Before b :=
    h.pairwise.imp Or.inl
  have hsymm : Std.Symm fun b c : BiboBlock => b.Before c ∨ c.Before b :=
    ⟨fun _ _ => Or.symm⟩
  exact heither.forall hb hc hne

/-- A stretch is read from the words at its blocks; below the bound only
words that are not used may lie. -/
theorem transport (lo : ℕ) (h : Stretch mem t ptr bs t' stop)
    (hlo : lo ≤ ptr + 2) (htag : t = none ∨ lo ≤ ptr)
    (hsame : ∀ c ∈ bs, ∀ x, lo ≤ x → c.addr ≤ x → x < c.addr + 6 →
      mem' x = mem x) : Stretch mem' t ptr bs t' stop := by
  induction h with
  | nil => exact nil
  | @cons t t' ptr stop b bs haddr hin htail ih =>
      have hhead := hsame b List.mem_cons_self
      apply cons haddr
      · apply hin.transport
        · intro x hx hlt
          exact hhead x (by omega) (by omega) (by omega)
        · intro p hp x hx hlt
          rcases htag with hnone | hle
          · rw [hnone] at hp
            cases hp
          · exact hhead x (by omega) hx (by omega)
      · cases bs with
        | nil =>
            cases htail
            exact nil
        | cons c cs =>
            obtain ⟨hsize, hfreeSize⟩ :=
              next_of_mem hin htail (List.mem_cons_self (a := c) (l := cs))
            apply ih (by omega)
            · unfold BiboBlock.tag
              split_ifs with hfree
              · exact Or.inr (by have := hfreeSize hfree; omega)
              · exact Or.inl rfl
            · exact fun d hd => hsame d (List.mem_cons_of_mem b hd)

end Stretch

section FreeList

/-- The addresses of the free blocks. -/
def freeAddrs (bs : List BiboBlock) : List ℕ :=
  (bs.filter fun b => b.owner = 0).map BiboBlock.addr

/-- The links from a word through the given blocks. -/
def LinkPath (mem : Memory) : ℕ → List ℕ → Prop
  | _, [] => True
  | word, f :: fs => mem.readWord word = f ∧ LinkPath mem (f + 6) fs

/-- The last word of such a path. -/
def lastWord : ℕ → List ℕ → ℕ
  | word, [] => word
  | _, f :: fs => lastWord (f + 6) fs

/-- The free list from a word on. -/
def Linked (mem : Memory) (word : ℕ) (fs : List ℕ) : Prop :=
  LinkPath mem word fs ∧ mem.readWord (lastWord word fs) = 0

instance decidableLinkPath (mem : Memory) (word : ℕ) (fs : List ℕ) :
    Decidable (LinkPath mem word fs) :=
  match fs with
  | [] => inferInstanceAs (Decidable True)
  | f :: fs =>
      have := decidableLinkPath mem (f + 6) fs
      inferInstanceAs (Decidable (_ ∧ _))

instance (mem : Memory) (word : ℕ) (fs : List ℕ) :
    Decidable (Linked mem word fs) :=
  inferInstanceAs (Decidable (_ ∧ _))

variable {mem mem' : Memory} {word f : ℕ} {fs gs : List ℕ}

theorem freeAddrs_append (bs cs : List BiboBlock) :
    freeAddrs (bs ++ cs) = freeAddrs bs ++ freeAddrs cs := by
  simp [freeAddrs]

theorem freeAddrs_cons_free {b : BiboBlock} (hb : b.owner = 0)
    (bs : List BiboBlock) : freeAddrs (b :: bs) = b.addr :: freeAddrs bs := by
  simp [freeAddrs, hb]

theorem freeAddrs_cons_used {b : BiboBlock} (hb : b.owner ≠ 0)
    (bs : List BiboBlock) : freeAddrs (b :: bs) = freeAddrs bs := by
  simp [freeAddrs, hb]

theorem mem_freeAddrs {bs : List BiboBlock} :
    f ∈ freeAddrs bs ↔ ∃ b ∈ bs, b.owner = 0 ∧ b.addr = f := by
  simp [freeAddrs, and_assoc]

theorem linkPath_append :
    LinkPath mem word (fs ++ gs) ↔
      LinkPath mem word fs ∧ LinkPath mem (lastWord word fs) gs := by
  induction fs generalizing word with
  | nil => simp [LinkPath, lastWord]
  | cons g fs ih =>
      simp only [List.cons_append, LinkPath, lastWord, ih, and_assoc]

theorem lastWord_append :
    lastWord word (fs ++ gs) = lastWord (lastWord word fs) gs := by
  induction fs generalizing word with
  | nil => rfl
  | cons g fs ih => exact ih

theorem linked_append :
    Linked mem word (fs ++ gs) ↔
      LinkPath mem word fs ∧ Linked mem (lastWord word fs) gs := by
  rw [Linked, linkPath_append, lastWord_append, and_assoc]
  rfl

theorem linked_cons :
    Linked mem word (f :: fs) ↔
      mem.readWord word = f ∧ Linked mem (f + 6) fs := by
  simp only [Linked, LinkPath, lastWord, and_assoc]

/-- The words of a path but the last. -/
theorem LinkPath.transport (h : LinkPath mem word fs)
    (hword : fs ≠ [] → mem'.readWord word = mem.readWord word)
    (hsame : ∀ g ∈ fs.dropLast,
      mem'.readWord (g + 6) = mem.readWord (g + 6)) :
    LinkPath mem' word fs := by
  induction fs generalizing word with
  | nil => trivial
  | cons g fs ih =>
      refine ⟨(hword (by simp)).trans h.1, ih h.2 ?_ ?_⟩
      · intro hne
        obtain ⟨k, ks, rfl⟩ := List.exists_cons_of_ne_nil hne
        exact hsame g (by simp)
      · intro k hk
        obtain ⟨l, ls, rfl⟩ : ∃ l ls, fs = l :: ls :=
          List.exists_cons_of_ne_nil (by rintro rfl; simp at hk)
        exact hsame k (by simp [hk])

/-- A list that now starts at another word. -/
theorem Linked.transport {word' : ℕ} (h : Linked mem word fs)
    (hword : mem'.readWord word' = mem.readWord word)
    (hsame : ∀ g ∈ fs, mem'.readWord (g + 6) = mem.readWord (g + 6)) :
    Linked mem' word' fs := by
  induction fs generalizing word word' with
  | nil => exact ⟨trivial, hword.trans h.2⟩
  | cons g fs ih =>
      rw [linked_cons] at h ⊢
      refine ⟨hword.trans h.1, ih h.2 (hsame g (by simp)) ?_⟩
      exact fun k hk => hsame k (List.mem_cons_of_mem g hk)

theorem lastWord_cases (word : ℕ) (fs : List ℕ) :
    lastWord word fs = word ∨ ∃ f ∈ fs, lastWord word fs = f + 6 := by
  induction fs generalizing word with
  | nil => exact Or.inl rfl
  | cons g fs ih =>
      rcases ih (g + 6) with h | ⟨f, hf, h⟩
      · exact Or.inr ⟨g, by simp, h⟩
      · exact Or.inr ⟨f, by simp [hf], h⟩

end FreeList

/-- A memory with the blocks and the free list it holds. -/
structure BiboHeap (mmStart cell : ℕ) where
  memory : Memory
  blocks : List BiboBlock
  after : Option ℕ
  chain : Stretch memory none (mmStart - 2) blocks after 0
  links : Linked memory cell (freeAddrs blocks)
  start : 4 ≤ mmStart
  low : 2 ≤ cell
  high : cell + 2 ≤ mmStart

end BrickEmu
