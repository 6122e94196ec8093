import BrickEmu.HostInteger

/-!
# Words in a memory of bytes

A word is stored with its high byte first and is read as a number below
`2 ^ 16`.  A word is changed by a write to it and kept by a write to any
other word that does not overlap it.
-/

namespace BrickEmu

abbrev Memory : Type := ℕ → BitVec 8

namespace Memory

def readWord (mem : Memory) (addr : ℕ) : ℕ :=
  (mem addr).toNat * 256 + (mem (addr + 1)).toNat

def writeWord (mem : Memory) (addr val : ℕ) : Memory :=
  Function.update (Function.update mem addr (BitVec.ofNat 8 (val / 256)))
    (addr + 1) (BitVec.ofNat 8 (val % 256))

/-- A memory that holds the given words and is zero elsewhere. -/
def ofWords (words : List (ℕ × ℕ)) : Memory :=
  words.foldl (fun mem word => mem.writeWord word.1 word.2) fun _ => 0

variable {mem mem' : Memory} {addr other val : ℕ}

theorem readWord_lt (mem : Memory) (addr : ℕ) : mem.readWord addr < 65536 := by
  have hhigh := (mem addr).isLt
  have hlow := (mem (addr + 1)).isLt
  unfold readWord
  omega

theorem readWord_congr (hhigh : mem' addr = mem addr)
    (hlow : mem' (addr + 1) = mem (addr + 1)) :
    mem'.readWord addr = mem.readWord addr := by
  unfold readWord
  rw [hhigh, hlow]

theorem writeWord_apply (mem : Memory) (addr val x : ℕ) :
    mem.writeWord addr val x =
      if x = addr + 1 then BitVec.ofNat 8 (val % 256)
      else if x = addr then BitVec.ofNat 8 (val / 256)
      else mem x := by
  simp only [writeWord, Function.update_apply]

theorem writeWord_of_ne {x : ℕ} (hhigh : x ≠ addr) (hlow : x ≠ addr + 1) :
    mem.writeWord addr val x = mem x := by
  rw [writeWord_apply, if_neg hlow, if_neg hhigh]

@[simp] theorem readWord_writeWord (hval : val < 65536) :
    (mem.writeWord addr val).readWord addr = val := by
  have hne : addr ≠ addr + 1 := by omega
  unfold readWord
  rw [writeWord_apply, writeWord_apply, if_neg hne, if_pos rfl, if_pos rfl,
    BitVec.toNat_ofNat, BitVec.toNat_ofNat]
  omega

theorem readWord_writeWord_of_apart
    (hapart : other + 2 ≤ addr ∨ addr + 2 ≤ other) :
    (mem.writeWord addr val).readWord other = mem.readWord other := by
  apply readWord_congr
  · apply writeWord_of_ne <;> omega
  · apply writeWord_of_ne <;> omega

/-- Writing the value that is there changes nothing. -/
theorem writeWord_readWord (mem : Memory) (addr : ℕ) :
    mem.writeWord addr (mem.readWord addr) = mem := by
  have hhigh := (mem addr).isLt
  have hlow := (mem (addr + 1)).isLt
  funext x
  rw [writeWord_apply]
  split_ifs with hx hx'
  · subst hx
    apply BitVec.eq_of_toNat_eq
    rw [BitVec.toNat_ofNat, readWord]
    omega
  · subst hx'
    apply BitVec.eq_of_toNat_eq
    rw [BitVec.toNat_ofNat, readWord]
    omega
  · rfl

end Memory

end BrickEmu
