import BrickEmu.WordMemory

/-!
# The heap of brickOS

`brickos_malloc` and `brickos_free` walk the blocks from `mm_start` until the
address wraps around, and merge the free blocks they meet.  The walks carry
fuel; a walk over a list of blocks that tile the memory never runs out of it.

Over the code stands the list of the blocks.  `coalesce`, `release` and
`Allocates` say what the two functions do to that list and to the cell
`mm_first_free`.
-/

namespace BrickEmu

open Memory

section Code

/-- A walk meets at most this many blocks. -/
def walkLimit : ℕ := 65536

def nextPtr (ptr len : ℕ) : ℕ :=
  (ptr + 4 + 2 * len) % 65536

variable (mmStart cell : ℕ)

/-- The cell moves from a block that is merged to the one that takes it in. -/
def moveCell (ptr nptr : ℕ) (mem : Memory) : Memory :=
  if nptr = mem.readWord cell then mem.writeWord cell ptr else mem

/-- Both functions merge the free blocks behind a free block. -/
def mergeAdjacent (ptr : ℕ) :
    ℕ → Memory → ℕ → ℕ → Option (Memory × ℕ × ℕ)
  | 0, _, _, _ => none
  | fuel + 1, mem, len, nptr =>
      if mem.readWord nptr = 0 then
        let mem := moveCell cell ptr nptr mem
        let len := (len + (2 + mem.readWord (nptr + 2))) % 65536
        let mem := mem.writeWord (ptr + 2) len
        mergeAdjacent ptr fuel mem len (nextPtr ptr len)
      else some (mem, len, nptr)

/-- `brickos_free` has found its block. -/
def markFree (ptr : ℕ) (mem : Memory) : Memory :=
  let mem := mem.writeWord ptr 0
  if mem.readWord cell < ptr then mem.writeWord cell ptr else mem

def freeFrom (addr : ℕ) : ℕ → ℕ → Memory → Option Memory
  | 0, _, _ => none
  | fuel + 1, ptr, mem =>
      if ptr < mmStart then some mem
      else
        let len := mem.readWord (ptr + 2)
        let nptr := nextPtr ptr len
        if ptr + 4 = addr then
          (mergeAdjacent cell ptr walkLimit (markFree cell ptr mem) len
            nptr).map Prod.fst
        else freeFrom addr fuel nptr mem

def brickosFree (addr : ℕ) (mem : Memory) : Option Memory :=
  if mmStart = 0 then some mem
  else freeFrom mmStart cell addr walkLimit mmStart mem

/-- The search for the next free block. -/
def findFree (mem : Memory) : ℕ → ℕ → Option ℕ
  | 0, _ => none
  | fuel + 1, nptr =>
      if mem.readWord nptr ≠ 0 ∧ mmStart ≤ nptr then
        findFree mem fuel (nextPtr nptr (mem.readWord (nptr + 2)))
      else some nptr

/-- A block that is much too large is split; the result is the place of the
next block. -/
def splitBlock (size ptr len nptr : ℕ) (mem : Memory) : ℕ × Memory :=
  if size + 8 < len then
    let mem := mem.writeWord (ptr + 2) size
    let nptr := nextPtr ptr size
    (nptr, (mem.writeWord nptr 0).writeWord (nptr + 2) (len - size - 2))
  else (nptr, mem)

/-- `brickos_malloc` has found a block. -/
def takeBlock (size ptr len nptr : ℕ) (mem : Memory) :
    Option (ℕ × Memory) :=
  let (nptr, mem) := splitBlock size ptr len nptr mem
  let mem := mem.writeWord ptr 0xfffe
  if ptr = mem.readWord cell then
    (findFree mmStart mem walkLimit nptr).map fun nptr =>
      ((ptr + 4) % 65536, mem.writeWord cell nptr)
  else some ((ptr + 4) % 65536, mem)

def mallocFrom (size : ℕ) : ℕ → ℕ → Memory → Option (ℕ × Memory)
  | 0, _, _ => none
  | fuel + 1, ptr, mem =>
      if ptr < mmStart then some (0, mem)
      else
        let type := mem.readWord ptr
        let len := mem.readWord (ptr + 2)
        let nptr := nextPtr ptr len
        let merged :=
          if type = 0 then mergeAdjacent cell ptr walkLimit mem len nptr
          else some (mem, len, nptr)
        match merged with
        | none => none
        | some (mem, len, nptr) =>
            if type = 0 ∧ size < len then
              takeBlock mmStart cell size ptr len nptr mem
            else mallocFrom size fuel nptr mem

def brickosMalloc (size : ℕ) (mem : Memory) : Option (ℕ × Memory) :=
  if mmStart = 0 then some (0, mem)
  else mallocFrom mmStart cell ((size + 1) / 2) walkLimit mmStart mem

end Code

/-- A block with its address, its type and its length in words. -/
structure Block where
  addr : ℕ
  type : ℕ
  len : ℕ
  deriving DecidableEq

namespace Block

def stop (b : Block) : ℕ :=
  b.addr + 4 + 2 * b.len

/-- The bytes of the payload; the last block may reach around the end of the
memory. -/
def payload (b : Block) : Set ℕ :=
  {x | ∃ y, b.addr + 4 ≤ y ∧ y < b.stop ∧ x = y % 65536}

/-- All bytes of the block. -/
def bytes (b : Block) : Set ℕ :=
  {x | ∃ y, b.addr ≤ y ∧ y < b.stop ∧ x = y % 65536}

/-- The memory holds the header of the block. -/
structure In (b : Block) (mem : Memory) : Prop where
  header : b.addr + 4 ≤ 65536
  type_eq : mem.readWord b.addr = b.type
  len_eq : mem.readWord (b.addr + 2) = b.len

theorem in_iff {b : Block} {mem : Memory} :
    b.In mem ↔ b.addr + 4 ≤ 65536 ∧ mem.readWord b.addr = b.type ∧
      mem.readWord (b.addr + 2) = b.len :=
  ⟨fun h => ⟨h.header, h.type_eq, h.len_eq⟩, fun h => ⟨h.1, h.2.1, h.2.2⟩⟩

instance (b : Block) (mem : Memory) : Decidable (b.In mem) :=
  decidable_of_iff' _ in_iff

theorem In.transport {b : Block} {mem mem' : Memory} (h : b.In mem)
    (hsame : ∀ x, b.addr ≤ x → x < b.addr + 4 → mem' x = mem x) :
    b.In mem' := by
  refine ⟨h.header, ?_, ?_⟩
  · rw [← h.type_eq]
    apply readWord_congr <;> apply hsame <;> omega
  · rw [← h.len_eq]
    apply readWord_congr <;> apply hsame <;> omega

/-- The memory determines the block at an address. -/
theorem In.unique {b c : Block} {mem : Memory} (hb : b.In mem)
    (hc : c.In mem) (haddr : b.addr = c.addr) : b = c := by
  obtain ⟨a, t, l⟩ := b
  obtain ⟨a', t', l'⟩ := c
  obtain rfl : a = a' := haddr
  have ht : t = t' := hb.type_eq.symm.trans hc.type_eq
  have hl : l = l' := hb.len_eq.symm.trans hc.len_eq
  rw [ht, hl]

def freed (b : Block) : Block :=
  { b with type := 0 }

@[simp] theorem freed_addr (b : Block) : b.freed.addr = b.addr :=
  rfl

@[simp] theorem freed_stop (b : Block) : b.freed.stop = b.stop :=
  rfl

@[simp] theorem freed_type (b : Block) : b.freed.type = 0 :=
  rfl

/-- The block together with the free block behind it. -/
def absorb (b c : Block) : Block :=
  { b with len := b.len + (2 + c.len) }

@[simp] theorem absorb_addr (b c : Block) : (b.absorb c).addr = b.addr :=
  rfl

@[simp] theorem absorb_type (b c : Block) : (b.absorb c).type = b.type :=
  rfl

theorem absorb_stop {b c : Block} (hnext : c.addr = b.stop) :
    (b.absorb c).stop = c.stop := by
  simp only [stop, absorb] at *
  omega

end Block

/-- Blocks that tile the memory from an address up to the end of the last
block, which is not free and reaches the end of the memory. -/
inductive Tiles (mem : Memory) (stop : ℕ) : ℕ → List Block → Prop
  | last {ptr : ℕ} {b : Block} :
      b.addr = ptr → b.In mem → b.type ≠ 0 → 65536 ≤ b.stop →
        b.stop = stop → Tiles mem stop ptr [b]
  | cons {ptr : ℕ} {b : Block} {bs : List Block} :
      b.addr = ptr → b.In mem → Tiles mem stop b.stop bs →
        Tiles mem stop ptr (b :: bs)

namespace Tiles

variable {mem mem' : Memory} {stop ptr : ℕ} {b : Block} {bs : List Block}

theorem le_addr (h : Tiles mem stop ptr bs) (hb : b ∈ bs) : ptr ≤ b.addr := by
  induction h with
  | last haddr =>
      cases List.mem_singleton.mp hb
      exact haddr.ge
  | @cons ptr c cs haddr hin htail ih =>
      rcases List.mem_cons.mp hb with rfl | hb
      · exact haddr.ge
      · have hle := ih hb
        simp only [Block.stop] at hle
        omega

theorem mem_in (h : Tiles mem stop ptr bs) (hb : b ∈ bs) : b.In mem := by
  induction h with
  | last haddr hin =>
      cases List.mem_singleton.mp hb
      exact hin
  | cons haddr hin htail ih =>
      rcases List.mem_cons.mp hb with rfl | hb
      · exact hin
      · exact ih hb

theorem ptr_header (h : Tiles mem stop ptr bs) : ptr + 4 ≤ 65536 := by
  cases h with
  | last haddr hin => exact haddr ▸ hin.header
  | cons haddr hin => exact haddr ▸ hin.header

theorem addr_lt_stop (h : Tiles mem stop ptr bs) : ptr + 4 ≤ stop := by
  induction h with
  | last haddr hin hused hreach hstop =>
      simp only [Block.stop] at hstop
      omega
  | cons haddr hin htail ih =>
      simp only [Block.stop] at ih
      omega

theorem reach (h : Tiles mem stop ptr bs) : 65536 ≤ stop := by
  induction h with
  | last haddr hin hused hreach hstop => exact hstop ▸ hreach
  | cons haddr hin htail ih => exact ih

/-- The tiling is read from the headers only. -/
theorem transport (h : Tiles mem stop ptr bs)
    (hsame : ∀ b ∈ bs, ∀ x, b.addr ≤ x → x < b.addr + 4 → mem' x = mem x) :
    Tiles mem' stop ptr bs := by
  induction h with
  | last haddr hin hused hreach hstop =>
      exact last haddr (hin.transport (hsame _ (by simp))) hused hreach hstop
  | cons haddr hin htail ih =>
      apply cons haddr (hin.transport (hsame _ (by simp)))
      exact ih fun b hb => hsame b (List.mem_cons_of_mem _ hb)

/-- A free block has a successor. -/
theorem of_free (h : Tiles mem stop ptr (b :: bs)) (hfree : b.type = 0) :
    b.addr = ptr ∧ b.In mem ∧ Tiles mem stop b.stop bs := by
  cases h with
  | last haddr hin hused => exact absurd hfree hused
  | cons haddr hin htail => exact ⟨haddr, hin, htail⟩

theorem free_stop (h : Tiles mem stop ptr bs) (hb : b ∈ bs)
    (hfree : b.type = 0) : b.stop + 4 ≤ 65536 := by
  induction h with
  | last haddr hin hused =>
      cases List.mem_singleton.mp hb
      exact absurd hfree hused
  | cons haddr hin htail ih =>
      rcases List.mem_cons.mp hb with rfl | hb
      · exact htail.ptr_header
      · exact ih hb

theorem length_le (h : Tiles mem stop ptr bs) :
    ptr + 4 * bs.length ≤ 65536 := by
  induction h with
  | last haddr hin =>
      have hheader := hin.header
      simp only [List.length_singleton]
      omega
  | cons haddr hin htail ih =>
      simp only [Block.stop] at ih
      simp only [List.length_cons]
      omega

/-- Earlier blocks end before later ones begin. -/
theorem pairwise (h : Tiles mem stop ptr bs) :
    bs.Pairwise fun b c => b.stop ≤ c.addr := by
  induction h with
  | last => exact List.pairwise_singleton _ _
  | cons haddr hin htail ih =>
      exact List.pairwise_cons.mpr ⟨fun c hc => htail.le_addr hc, ih⟩

theorem apart {c : Block} (h : Tiles mem stop ptr bs) (hb : b ∈ bs)
    (hc : c ∈ bs) (hne : b ≠ c) : b.stop ≤ c.addr ∨ c.stop ≤ b.addr := by
  have heither : bs.Pairwise fun b c => b.stop ≤ c.addr ∨ c.stop ≤ b.addr :=
    h.pairwise.imp Or.inl
  have hsymm : Std.Symm fun b c : Block =>
      b.stop ≤ c.addr ∨ c.stop ≤ b.addr := ⟨fun _ _ => Or.symm⟩
  exact heither.forall hb hc hne

theorem stop_le (h : Tiles mem stop ptr bs) (hb : b ∈ bs) :
    b.stop ≤ stop := by
  induction h with
  | last haddr hin hused hreach hstop =>
      cases List.mem_singleton.mp hb
      exact hstop.le
  | cons haddr hin htail ih =>
      rcases List.mem_cons.mp hb with rfl | hb
      · have hlt := htail.addr_lt_stop
        omega
      · exact ih hb

/-- The memory determines the blocks. -/
theorem unique {bs' : List Block} {stop' : ℕ} (h : Tiles mem stop ptr bs)
    (h' : Tiles mem stop' ptr bs') : bs = bs' ∧ stop = stop' := by
  have hover : ∀ {b : Block} {bs : List Block} {stop : ℕ},
      65536 ≤ b.stop → ¬Tiles mem stop b.stop bs := by
    intro b bs stop hreach htail
    have hheader := htail.ptr_header
    omega
  induction h generalizing bs' with
  | last haddr hin hused hreach hstop =>
      cases h' with
      | last haddr' hin' hused' hreach' hstop' =>
          cases hin.unique hin' (haddr.trans haddr'.symm)
          exact ⟨rfl, hstop.symm.trans hstop'⟩
      | cons haddr' hin' htail' =>
          cases hin.unique hin' (haddr.trans haddr'.symm)
          exact absurd htail' (hover hreach)
  | cons haddr hin htail ih =>
      cases h' with
      | last haddr' hin' hused' hreach' hstop' =>
          cases hin.unique hin' (haddr.trans haddr'.symm)
          exact absurd htail (hover hreach')
      | cons haddr' hin' htail' =>
          cases hin.unique hin' (haddr.trans haddr'.symm)
          obtain ⟨rfl, rfl⟩ := ih htail'
          exact ⟨rfl, rfl⟩

end Tiles

section Lists

/-- A free block takes in the free blocks behind it; the cell moves when it
names one of them. -/
def coalesce (b : Block) : List Block → ℕ → Block × List Block × ℕ
  | [], v => (b, [], v)
  | c :: cs, v =>
      if c.type = 0 then
        coalesce (b.absorb c) cs (if c.addr = v then b.addr else v)
      else (b, c :: cs, v)

theorem coalesce_head {b c : Block} {bs cs : List Block} {v w : ℕ}
    (h : coalesce b bs v = (c, cs, w)) : c.addr = b.addr ∧ c.type = b.type := by
  induction bs generalizing b v with
  | nil =>
      cases h
      exact ⟨rfl, rfl⟩
  | cons d ds ih =>
      by_cases hd : d.type = 0
      · rw [coalesce, if_pos hd] at h
        exact ih (b := b.absorb d) h
      · rw [coalesce, if_neg hd] at h
        cases h
        exact ⟨rfl, rfl⟩

theorem coalesce_suffix {b c : Block} {bs cs : List Block} {v w : ℕ}
    (h : coalesce b bs v = (c, cs, w)) : cs <:+ bs := by
  induction bs generalizing b v with
  | nil =>
      cases h
      exact List.suffix_refl _
  | cons d ds ih =>
      by_cases hd : d.type = 0
      · rw [coalesce, if_pos hd] at h
        exact (ih h).trans (List.suffix_cons d ds)
      · rw [coalesce, if_neg hd] at h
        cases h
        exact List.suffix_refl _

/-- What `brickos_free` does to the blocks and the cell. -/
def release (addr : ℕ) : List Block → ℕ → List Block × ℕ
  | [], v => ([], v)
  | b :: bs, v =>
      if b.addr + 4 = addr then
        let merged := coalesce b.freed bs
          (if v < b.addr then b.addr else v)
        (merged.1 :: merged.2.1, merged.2.2)
      else
        let rest := release addr bs v
        (b :: rest.1, rest.2)

/-- The first free block, or the place behind the last block. -/
def firstFree (stop : ℕ) : List Block → ℕ
  | [] => stop % 65536
  | b :: bs => if b.type = 0 then b.addr else firstFree stop bs

theorem Tiles.firstFree_lt {mem : Memory} {stop ptr : ℕ} {bs : List Block}
    (h : Tiles mem stop ptr bs) : firstFree stop bs < 65536 := by
  induction h with
  | last haddr hin hused hreach hstop =>
      rw [firstFree, if_neg hused, firstFree]
      omega
  | cons haddr hin htail ih =>
      have hheader := hin.header
      rw [firstFree]
      split_ifs
      · omega
      · exact ih

/-- The block that `brickos_malloc` hands out. -/
def taken (size : ℕ) (b : Block) : Block :=
  { b with
    type := 0xfffe
    len := if size + 8 < b.len then size else b.len }

@[simp] theorem taken_addr (size : ℕ) (b : Block) :
    (taken size b).addr = b.addr :=
  rfl

@[simp] theorem taken_type (size : ℕ) (b : Block) :
    (taken size b).type = 0xfffe :=
  rfl

/-- What is left of the block behind it. -/
def remainder (size : ℕ) (b : Block) : List Block :=
  if size + 8 < b.len then
    [⟨b.addr + 4 + 2 * size, 0, b.len - size - 2⟩]
  else []

/-- What `brickos_malloc` does to the blocks and the cell, with the block it
finds. -/
inductive Allocates (stop size : ℕ) :
    List Block → ℕ → Option Block → List Block → ℕ → Prop
  | exhausted {v : ℕ} : Allocates stop size [] v none [] v
  | used {b : Block} {bs bs' : List Block} {v v' : ℕ} {r : Option Block} :
      b.type ≠ 0 → Allocates stop size bs v r bs' v' →
        Allocates stop size (b :: bs) v r (b :: bs') v'
  | small {b c : Block} {bs cs cs' : List Block} {v w v' : ℕ}
      {r : Option Block} :
      b.type = 0 → coalesce b bs v = (c, cs, w) → c.len ≤ size →
        Allocates stop size cs w r cs' v' →
          Allocates stop size (b :: bs) v r (c :: cs') v'
  | found {b c : Block} {bs cs : List Block} {v w : ℕ} :
      b.type = 0 → coalesce b bs v = (c, cs, w) → size < c.len →
        Allocates stop size (b :: bs) v (some (taken size c))
          (taken size c :: (remainder size c ++ cs))
          (if c.addr = w then firstFree stop (remainder size c ++ cs)
            else w)

end Lists

end BrickEmu
