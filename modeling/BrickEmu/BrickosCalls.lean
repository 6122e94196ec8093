import BrickEmu.BrickosRefinement
import Mathlib.Order.CompletePartialOrder

/-!
# Sequences of calls on the brickOS heap

A heap is a memory together with the blocks that tile it.  Every call of
`brickos_malloc`, and every call of `brickos_free` on an allocated block
before the last one, leads from a heap to a heap and leaves the other
allocated blocks alone.
-/

namespace BrickEmu

open Memory

structure BrickosHeap (mmStart cell : ℕ) where
  memory : Memory
  blocks : List Block
  stop : ℕ
  tiles : Tiles memory stop mmStart blocks
  wraps : stop < 65536 + mmStart
  above : stop ≤ 65536 + cell
  below : cell + 2 ≤ mmStart

inductive HeapCall where
  | malloc (size : ℕ)
  | free (addr : ℕ)

/-- A call with its result; `brickos_free` returns nothing. -/
def HeapCall.perform (mmStart cell : ℕ) (mem : Memory) :
    HeapCall → Option (ℕ × Memory)
  | .malloc size => brickosMalloc mmStart cell size mem
  | .free addr => (brickosFree mmStart cell addr mem).map (Prod.mk 0)

section Lists

variable {stop size v w v' : ℕ} {b c d : Block} {bs cs bs' : List Block}

theorem mem_of_coalesce (h : coalesce b bs v = (c, cs, w)) (hd : d ∈ bs)
    (hused : d.type ≠ 0) : d ∈ cs := by
  induction bs generalizing b v with
  | nil => cases hd
  | cons e es ih =>
      by_cases he : e.type = 0
      · rw [coalesce, if_pos he] at h
        rcases List.mem_cons.mp hd with rfl | hd
        · exact absurd he hused
        · exact ih h hd
      · rw [coalesce, if_neg he] at h
        cases h
        exact hd

theorem mem_release {addr : ℕ} (hd : d ∈ bs) (hused : d.type ≠ 0)
    (hother : d.addr + 4 ≠ addr) : d ∈ (release addr bs v).1 := by
  induction bs with
  | nil => cases hd
  | cons e es ih =>
      rw [release]
      by_cases hhere : e.addr + 4 = addr
      · rw [if_pos hhere]
        rcases List.mem_cons.mp hd with rfl | hd
        · exact absurd hhere hother
        · exact List.mem_cons_of_mem _ (mem_of_coalesce rfl hd hused)
      · rw [if_neg hhere]
        rcases List.mem_cons.mp hd with rfl | hd
        · exact List.mem_cons_self
        · exact List.mem_cons_of_mem _ (ih hd)

namespace Allocates

variable {r : Option Block}

theorem mem_of_used (h : Allocates stop size bs v r bs' v') (hd : d ∈ bs)
    (hused : d.type ≠ 0) : d ∈ bs' := by
  induction h with
  | exhausted => cases hd
  | used hb htail ih =>
      rcases List.mem_cons.mp hd with rfl | hd
      · exact List.mem_cons_self
      · exact List.mem_cons_of_mem _ (ih hd)
  | small hb hmerge hsize htail ih =>
      rcases List.mem_cons.mp hd with rfl | hd
      · exact absurd hb hused
      · exact List.mem_cons_of_mem _ (ih (mem_of_coalesce hmerge hd hused))
  | found hb hmerge hsize =>
      rcases List.mem_cons.mp hd with rfl | hd
      · exact absurd hb hused
      · have hrest := mem_of_coalesce hmerge hd hused
        simp [hrest]

/-- The block that is found. -/
theorem granted (h : Allocates stop size bs v (some b) bs' v') :
    b ∈ bs' ∧ b.type = 0xfffe ∧ size ≤ b.len ∧
      ∃ c ∈ bs, c.addr = b.addr ∧ c.type = 0 := by
  generalize hr : some b = r at h
  induction h with
  | exhausted => cases hr
  | used hb htail ih =>
      obtain ⟨hmem, htype, hlen, c, hc, hfree⟩ := ih hr
      exact ⟨List.mem_cons_of_mem _ hmem, htype, hlen, c,
        List.mem_cons_of_mem _ hc, hfree⟩
  | small hb hmerge hsize htail ih =>
      obtain ⟨hmem, htype, hlen, c, hc, hfree⟩ := ih hr
      exact ⟨List.mem_cons_of_mem _ hmem, htype, hlen, c,
        List.mem_cons_of_mem _ ((coalesce_suffix hmerge).subset hc), hfree⟩
  | @found e c es cs v w he hmerge hsize =>
      obtain rfl : b = taken size c := Option.some.inj hr
      refine ⟨List.mem_cons_self, rfl, ?_, e, List.mem_cons_self,
        (coalesce_head hmerge).1.symm, he⟩
      simp only [taken]
      split_ifs
      · exact le_rfl
      · exact hsize.le

end Allocates

end Lists

namespace BrickosHeap

variable {mmStart cell : ℕ}

/-- What a call promises, from the heap before to the heap after. -/
structure Outcome (heap : BrickosHeap mmStart cell) (call : HeapCall)
    (result : ℕ) (heap' : BrickosHeap mmStart cell) : Prop where
  performed : call.perform mmStart cell heap.memory =
    some (result, heap'.memory)
  kept : ∀ b ∈ heap.blocks, b.type ≠ 0 → call ≠ .free (b.addr + 4) →
    b ∈ heap'.blocks ∧ ∀ x ∈ b.payload, heap'.memory x = heap.memory x
  granted : ∀ size, call = .malloc size → result ≠ 0 →
    ∃ b ∈ heap'.blocks, b.addr + 4 = result ∧ b.type = 0xfffe ∧
      size ≤ 2 * b.len ∧
      (∃ c ∈ heap.blocks, c.addr = b.addr ∧ c.type = 0) ∧
      ∀ c ∈ heap'.blocks, c.type ≠ 0 → c ≠ b → Disjoint b.bytes c.bytes

/-- The calls that free an allocated block. -/
def FreesAllocated (heap : BrickosHeap mmStart cell) : HeapCall → Prop
  | .malloc _ => True
  | .free addr => ∃ b ∈ heap.blocks, b.type ≠ 0 ∧ b.addr + 4 = addr

/-- The calls that free an allocated block before the last one. -/
def FreesBeforeLast (heap : BrickosHeap mmStart cell) : HeapCall → Prop
  | .malloc _ => True
  | .free addr => ∃ b ∈ heap.blocks.dropLast, b.type ≠ 0 ∧ b.addr + 4 = addr

/-- Every call of a sequence keeps the promise, as long as the calls are
allowed. -/
def SoundCalls (allowed : BrickosHeap mmStart cell → HeapCall → Prop) :
    List HeapCall → BrickosHeap mmStart cell → Prop
  | [], _ => True
  | call :: calls, heap =>
      allowed heap call →
        ∃ result heap', heap.Outcome call result heap' ∧
          SoundCalls allowed calls heap'

variable (heap : BrickosHeap mmStart cell)

theorem length_lt : heap.blocks.length < walkLimit := by
  have hlength := heap.tiles.length_le
  unfold walkLimit
  have hbelow := heap.below
  omega

theorem mmStart_pos (heap : BrickosHeap mmStart cell) : mmStart ≠ 0 := by
  have hbelow := heap.below
  omega

/-- The payload of an allocated block is away from the cell and from all
blocks but its own. -/
theorem payload_apart {b : Block} {x : ℕ} (hb : b ∈ heap.blocks)
    (hx : x ∈ b.payload) :
    x ≠ cell ∧ x ≠ cell + 1 ∧
      ∀ c ∈ heap.blocks, c ≠ b → ¬(c.addr ≤ x ∧ x < c.stop) := by
  obtain ⟨y, hlow, hhigh, rfl⟩ := hx
  have hwraps := heap.wraps
  have habove := heap.above
  have hbelow := heap.below
  have hstart := heap.tiles.le_addr hb
  have hstop := heap.tiles.stop_le hb
  refine ⟨by omega, by omega, ?_⟩
  rintro c hc hne ⟨hle, hlt⟩
  have hcstart := heap.tiles.le_addr hc
  rcases heap.tiles.apart hc hb hne with hapart | hapart <;> omega

theorem bytes_disjoint {b c : Block} (hb : b ∈ heap.blocks)
    (hc : c ∈ heap.blocks) (hne : b ≠ c) : Disjoint b.bytes c.bytes := by
  rw [Set.disjoint_left]
  rintro x ⟨y, hlow, hhigh, rfl⟩ ⟨z, hlow', hhigh', heq⟩
  have hwraps := heap.wraps
  have hbstart := heap.tiles.le_addr hb
  have hcstart := heap.tiles.le_addr hc
  have hbstop := heap.tiles.stop_le hb
  have hcstop := heap.tiles.stop_le hc
  rcases heap.tiles.apart hb hc hne with hapart | hapart <;> omega

/-- What a memory and a list of blocks after a call make of a heap. -/
def after {mem : Memory} {bs : List Block}
    (htiles : Tiles mem heap.stop mmStart bs) : BrickosHeap mmStart cell :=
  ⟨mem, bs, heap.stop, htiles, heap.wraps, heap.above, heap.below⟩

@[simp] theorem after_memory {mem : Memory} {bs : List Block}
    (htiles : Tiles mem heap.stop mmStart bs) :
    (heap.after htiles).memory = mem :=
  rfl

theorem malloc_refines (size : ℕ) :
    ∃ r bs' mem', ∃ htiles : Tiles mem' heap.stop mmStart bs',
      brickosMalloc mmStart cell size heap.memory =
        some (resultOf r, mem') ∧
      Allocates heap.stop ((size + 1) / 2) heap.blocks
        (heap.memory.readWord cell) r bs' (mem'.readWord cell) ∧
      Spares cell heap.blocks heap.memory (heap.after htiles).memory := by
  obtain ⟨r, mem', bs', hrun, hallocates, htiles, hspares⟩ :=
    mallocFrom_refines heap.below heap.wraps ((size + 1) / 2) _ rfl
      heap.tiles le_rfl heap.length_lt
  refine ⟨r, bs', mem', htiles, ?_, hallocates, hspares⟩
  rw [brickosMalloc, if_neg heap.mmStart_pos]
  exact hrun

theorem free_refines {b : Block} (hb : b ∈ heap.blocks.dropLast) :
    ∃ bs' mem', ∃ htiles : Tiles mem' heap.stop mmStart bs',
      brickosFree mmStart cell (b.addr + 4) heap.memory = some mem' ∧
      release (b.addr + 4) heap.blocks (heap.memory.readWord cell) =
        (bs', mem'.readWord cell) ∧
      Spares cell (b.freed :: heap.blocks) heap.memory
        (heap.after htiles).memory := by
  obtain ⟨mem', hrun, htiles, hcell, hspares⟩ :=
    freeFrom_refines heap.tiles heap.below le_rfl hb heap.length_lt
  refine ⟨_, mem', htiles, ?_, ?_, hspares⟩
  · rw [brickosFree, if_neg heap.mmStart_pos]
    exact hrun
  · rw [hcell]

theorem malloc_outcome (size : ℕ) :
    ∃ result heap', heap.Outcome (.malloc size) result heap' := by
  obtain ⟨r, bs', mem', htiles, hrun, hallocates, hspares⟩ :=
    heap.malloc_refines size
  refine ⟨resultOf r, heap.after htiles, hrun, ?_, ?_⟩
  · intro b hb hused _
    refine ⟨hallocates.mem_of_used hb hused, fun x hx => ?_⟩
    obtain ⟨hcell, hcell', hapart⟩ := heap.payload_apart hb hx
    apply hspares x hcell hcell'
    rintro ⟨c, hc, hfree, hin⟩
    apply hapart c hc _ hin
    rintro rfl
    exact hused hfree
  · rintro _ ⟨rfl⟩ hresult
    cases r with
    | none => exact absurd rfl hresult
    | some b =>
        obtain ⟨hmem, htype, hlen, hfree⟩ := hallocates.granted
        refine ⟨b, hmem, rfl, htype, by omega, hfree, ?_⟩
        intro c hc _ hne
        exact (heap.after htiles).bytes_disjoint hmem hc hne.symm

theorem free_outcome {b : Block} (hb : b ∈ heap.blocks.dropLast) :
    ∃ result heap', heap.Outcome (.free (b.addr + 4)) result heap' := by
  obtain ⟨bs', mem', htiles, hrun, hrelease, hspares⟩ :=
    heap.free_refines hb
  have hmem := List.dropLast_subset _ hb
  refine ⟨0, heap.after htiles, ?_, ?_, ?_⟩
  · rw [HeapCall.perform, hrun]
    rfl
  · intro c hc hused hother
    have hplace : c.addr + 4 ≠ b.addr + 4 := by
      rintro heq
      exact hother (congrArg HeapCall.free heq.symm)
    refine ⟨?_, fun x hx => ?_⟩
    · have hkept := mem_release (v := heap.memory.readWord cell) hc hused
        hplace
      rw [hrelease] at hkept
      exact hkept
    · obtain ⟨hcell, hcell', hapart⟩ := heap.payload_apart hc hx
      apply hspares x hcell hcell'
      rintro ⟨d, hd, hfree, hin⟩
      rcases List.mem_cons.mp hd with rfl | hd
      · apply hapart b hmem _ hin
        rintro rfl
        exact hplace rfl
      · apply hapart d hd _ hin
        rintro rfl
        exact hused hfree
  · rintro size ⟨⟩

theorem outcome {call : HeapCall} (hallowed : heap.FreesBeforeLast call) :
    ∃ result heap', heap.Outcome call result heap' := by
  cases call with
  | malloc size => exact heap.malloc_outcome size
  | free addr =>
      obtain ⟨b, hb, -, rfl⟩ := hallowed
      exact heap.free_outcome hb

/-- The heap stays a tiling, and allocated blocks are safe. -/
theorem soundCalls_freesBeforeLast (calls : List HeapCall) :
    SoundCalls FreesBeforeLast calls heap := by
  induction calls generalizing heap with
  | nil => trivial
  | cons call calls ih =>
      intro hallowed
      obtain ⟨result, heap', houtcome⟩ := heap.outcome hallowed
      exact ⟨result, heap', houtcome, ih heap'⟩

/- The heap of brickOS ends with the memory. -/

theorem brickos_wraps : 0x10000 < 0x10000 + 0x8000 := by decide

theorem brickos_above : 0x10000 ≤ 0x10000 + 0x7ffe := by decide

theorem brickos_below : 0x7ffe + 2 ≤ 0x8000 := by decide

/-- A heap of one block, which belongs to a beamed program. -/
def oneBlock : BrickosHeap 0x8000 0x7ffe where
  memory := ofWords [(0, 1), (0x8000, 0xfffe), (0x8002, 0x3ffe)]
  blocks := [⟨0x8000, 0xfffe, 0x3ffe⟩]
  stop := 0x10000
  tiles := Tiles.last rfl (by decide +kernel) (by decide) (by decide) rfl
  wraps := brickos_wraps
  above := brickos_above
  below := brickos_below

/-- Freeing the last block leaves a heap without an end. -/
theorem free_last_breaks_tiling :
    ¬SoundCalls FreesAllocated [.free 0x8004] oneBlock := by
  intro hsound
  obtain ⟨result, heap', houtcome, -⟩ :=
    hsound ⟨⟨0x8000, 0xfffe, 0x3ffe⟩, by simp [oneBlock], by decide, rfl⟩
  have hwords : (HeapCall.perform 0x8000 0x7ffe oneBlock.memory
      (.free 0x8004)).map (fun r => (r.2.readWord 0x8000,
        r.2.readWord 0x8002)) = some (0, 0x3ffe) := by
    decide +kernel
  rw [houtcome.performed, Option.map_some, Option.some.injEq,
    Prod.mk.injEq] at hwords
  have hheap := heap'.tiles
  generalize heap'.blocks = blocks at hheap
  cases hheap with
  | last haddr hin hused =>
      apply hused
      rw [← hin.type_eq, haddr]
      exact hwords.1
  | cons haddr hin htail =>
      have hheader := htail.ptr_header
      have hlen := hin.len_eq
      rw [haddr, hwords.2] at hlen
      simp only [Block.stop] at hheader
      omega

end BrickosHeap

end BrickEmu
