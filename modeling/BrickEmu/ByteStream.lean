import BrickEmu.HostInteger

/-!
# Streams of bytes and buffers

Numbers are stored with their most significant byte first.  A buffer is what
a program reads into: a read that comes up short keeps the rest of what was
in the buffer before and marks the stream as past its end.
-/

namespace BrickEmu

def bytes16 (val : BitVec 16) : List Byte :=
  [val.extractLsb' 8 8, val.extractLsb' 0 8]

def bytes32 (val : BitVec 32) : List Byte :=
  [val.extractLsb' 24 8, val.extractLsb' 16 8, val.extractLsb' 8 8,
    val.extractLsb' 0 8]

abbrev Buffer : Type := ℕ → Byte

namespace Buffer

def fill (buf : Buffer) (bytes : List Byte) : Buffer :=
  fun i => bytes.getD i (buf i)

def read16 (buf : Buffer) (i : ℕ) : BitVec 16 :=
  buf i ++ buf (i + 1)

def read32 (buf : Buffer) (i : ℕ) : BitVec 32 :=
  buf i ++ buf (i + 1) ++ buf (i + 2) ++ buf (i + 3)

/-- The first bytes of a buffer, starting at an offset. -/
def slice (buf : Buffer) (i count : ℕ) : List Byte :=
  (List.range' i count).map buf

end Buffer

structure ByteStream where
  rest : List Byte
  past : Bool
  deriving DecidableEq

namespace ByteStream

def read (count : ℕ) (buf : Buffer) (file : ByteStream) :
    Buffer × ByteStream :=
  (buf.fill (file.rest.take count),
    ⟨file.rest.drop count, file.past || file.rest.length < count⟩)

end ByteStream

theorem append_bytes16 (val : BitVec 16) :
    val.extractLsb' 8 8 ++ val.extractLsb' 0 8 = val := by
  apply BitVec.eq_of_getLsbD_eq
  intro i hi
  simp only [BitVec.getLsbD_append, BitVec.getLsbD_extractLsb']
  by_cases hlow : i < 8
  · simp [hlow]
  · have hhigh : 8 + (i - 8) = i := by omega
    simp [hlow, hhigh, show i - 8 < 8 by omega]

theorem append_bytes32 (val : BitVec 32) :
    val.extractLsb' 24 8 ++ val.extractLsb' 16 8 ++ val.extractLsb' 8 8 ++
      val.extractLsb' 0 8 = val := by
  apply BitVec.eq_of_getLsbD_eq
  intro i hi
  simp only [BitVec.getLsbD_append, BitVec.getLsbD_extractLsb']
  by_cases h0 : i < 8
  · simp [h0]
  by_cases h1 : i < 16
  · simp [h0, show i - 8 < 8 by omega, show 8 + (i - 8) = i by omega]
  by_cases h2 : i < 24
  · simp [h0, show ¬i - 8 < 8 by omega, show i - 8 - 8 < 8 by omega,
      show 16 + (i - 8 - 8) = i by omega]
  · simp [h0, show ¬i - 8 < 8 by omega, show ¬i - 8 - 8 < 8 by omega,
      show i - 8 - 8 - 8 < 8 by omega,
      show 24 + (i - 8 - 8 - 8) = i by omega]

@[simp] theorem length_bytes16 (val : BitVec 16) :
    (bytes16 val).length = 2 := rfl

@[simp] theorem length_bytes32 (val : BitVec 32) :
    (bytes32 val).length = 4 := rfl

namespace ByteStream

/-- Reading back what was written, with the rest of the stream untouched. -/
theorem read_append {bytes rest : List Byte} {count : ℕ} {past : Bool}
    (buf : Buffer) (hcount : bytes.length = count) :
    read count buf ⟨bytes ++ rest, past⟩ =
      (buf.fill bytes, ⟨rest, past⟩) := by
  subst hcount
  simp [read]

end ByteStream

namespace Buffer

/-- A slice that a fill covers holds the bytes filled in. -/
theorem slice_fill (buf : Buffer) (bytes : List Byte) :
    (buf.fill bytes).slice 0 bytes.length = bytes := by
  apply List.ext_getElem
  · simp [slice]
  · intro i hi hi'
    simp [slice, fill, hi']

end Buffer

end BrickEmu
