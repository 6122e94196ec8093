import Mathlib.Data.List.GetD
import BrickEmu.ByteStream
import BrickEmu.WordMemory

/-!
# Files of the host

A file is read from a position, and a read delivers what there is of the
bytes asked for.  What a loader does to the memory of the brick comes with
the list of the indices it has stored to, which nothing reads.
-/

namespace BrickEmu

/-- The array behind a loop that stores bytes from index `i` on. -/
def storeBytes (data : Memory) : List Byte → ℕ → ℕ → Byte
  | [], _ => data
  | byte :: bytes, i => storeBytes (Function.update data i byte) bytes (i + 1)

theorem storeBytes_below (bytes : List Byte) :
    ∀ (data : Memory) {i j : ℕ}, j < i →
      storeBytes data bytes i j = data j := by
  induction bytes with
  | nil =>
      intro data i j hj
      rfl
  | cons byte bytes ih =>
      intro data i j hj
      rw [storeBytes, ih _ (by omega), Function.update_of_ne (by omega)]

theorem storeBytes_get (bytes : List Byte) :
    ∀ (data : Memory) (i : ℕ) {j : ℕ}, j < bytes.length →
      storeBytes data bytes i (i + j) = bytes.getD j 0 := by
  induction bytes with
  | nil =>
      intro data i j hj
      simp at hj
  | cons byte bytes ih =>
      intro data i j hj
      cases j with
      | zero =>
          rw [storeBytes, add_zero, storeBytes_below _ _ (by omega)]
          simp
      | succ j =>
          have hrest := ih (Function.update data i byte) (i + 1)
            (by simpa using hj)
          rw [storeBytes, ← add_assoc, add_right_comm, hrest]
          rfl

/-! ## The memory of the brick -/

/-- `memory`, and where it has been stored to. -/
structure LoadMemory where
  memory : Memory
  stores : List ℕ

namespace LoadMemory

/-- Stores bytes one behind the other. -/
def store (addr : ℕ) (bytes : List Byte) (m : LoadMemory) : LoadMemory where
  memory := storeBytes m.memory bytes addr
  stores := m.stores ++ List.range' addr bytes.length

/-- All stores have been to `memory[0]` .. `memory[65535]`. -/
def InRange (m : LoadMemory) : Prop :=
  ∀ addr ∈ m.stores, addr < 0x10000

/-- All stores have been to the bytes from `lo` up to `hi`. -/
def Within (lo hi : ℕ) (m : LoadMemory) : Prop :=
  ∀ addr ∈ m.stores, lo ≤ addr ∧ addr < hi

theorem within_store (lo hi addr : ℕ) (bytes : List Byte) (m : LoadMemory) :
    (m.store addr bytes).Within lo hi ↔
      m.Within lo hi ∧
        (bytes = [] ∨ lo ≤ addr ∧ addr + bytes.length ≤ hi) := by
  rw [Within, store, List.forall_mem_append]
  refine and_congr_right fun _ => ?_
  constructor
  · intro h
    cases bytes with
    | nil => exact .inl rfl
    | cons byte bytes =>
        have hstored : ∀ i < bytes.length + 1,
            lo ≤ addr + i ∧ addr + i < hi := by
          intro i hi
          apply h
          simp only [List.mem_range', List.length_cons]
          exact ⟨i, hi, by omega⟩
        have hfirst := hstored 0 (by omega)
        have hlast := hstored bytes.length (by omega)
        rw [List.length_cons]
        exact .inr (by omega)
  · intro h x hx
    obtain ⟨i, hi, rfl⟩ := List.mem_range'.mp hx
    rcases h with rfl | h
    · simp at hi
    · omega

theorem inRange_iff (m : LoadMemory) : m.InRange ↔ m.Within 0 0x10000 :=
  forall₂_congr fun addr _ => (and_iff_right addr.zero_le).symm

theorem inRange_store (addr : ℕ) (bytes : List Byte) (m : LoadMemory) :
    (m.store addr bytes).InRange ↔
      m.InRange ∧ (bytes = [] ∨ addr + bytes.length ≤ 0x10000) := by
  rw [inRange_iff, inRange_iff, within_store, and_iff_right addr.zero_le]

/-- What a loop keeps, where what a pass demands does not depend on the
memory. -/
theorem foldl_iff {α : Type} {pass : LoadMemory → α → LoadMemory}
    {kept : LoadMemory → Prop} {fits : α → Prop}
    (hpass : ∀ m a, kept (pass m a) ↔ kept m ∧ fits a) (list : List α) :
    ∀ m : LoadMemory, kept (list.foldl pass m) ↔
      kept m ∧ ∀ a ∈ list, fits a := by
  induction list with
  | nil =>
      intro m
      simp
  | cons a list ih =>
      intro m
      rw [List.foldl_cons, ih, hpass, List.forall_mem_cons, and_assoc]

end LoadMemory

/-! ## Reading -/

structure CFile where
  bytes : List Byte
  pos : ℕ

namespace CFile

def fseek (pos : ℕ) (file : CFile) : CFile :=
  { file with pos := pos }

/-- The bytes of a call of `fread`, and the file behind it. -/
def fread (count : ℕ) (file : CFile) : List Byte × CFile :=
  let delivered := (file.bytes.drop file.pos).take count
  (delivered, { file with pos := file.pos + delivered.length })

theorem fread_append (file : CFile) {bytes rest : List Byte}
    (h : file.bytes.drop file.pos = bytes ++ rest) :
    file.fread bytes.length =
      (bytes, { file with pos := file.pos + bytes.length }) := by
  rw [fread, h]
  simp

theorem drop_fread (file : CFile) {bytes rest : List Byte}
    (h : file.bytes.drop file.pos = bytes ++ rest) :
    file.bytes.drop (file.pos + bytes.length) = rest := by
  rw [← List.drop_drop, h, List.drop_left]

end CFile

/-- A byte that is delivered does not depend on what was in the variable. -/
theorem getD_take_append {bytes rest : List Byte} {count i : ℕ}
    (hcount : i < count) (hi : i < bytes.length) (old old' : Byte) :
    ((bytes ++ rest).take count).getD i old = bytes.getD i old' := by
  have hlength : i < ((bytes ++ rest).take count).length := by
    rw [List.length_take, List.length_append]
    omega
  rw [List.getD_eq_getElem _ _ hlength, List.getD_eq_getElem _ _ hi,
    List.getElem_take, List.getElem_append_left hi]

end BrickEmu
