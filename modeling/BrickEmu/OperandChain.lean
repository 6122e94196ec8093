import BrickEmu.AsmFlags

/-!
# Instructions on operands of several bytes

A guest computes with operands of several bytes from the lowest byte to the
highest.  Between two bytes it may move data around, as long as it keeps the
flags that the next instruction needs.
-/

namespace BrickEmu

open Program

/-- An instruction behind `GET_OPCODE`. -/
def perform (opc : Word) : Exec Unit :=
  match Mnemonic.decode (opc >>> 8).toNat with
  | some mnemonic => mnemonic.body opc
  | none => illegalIf true

/-- The opcode of an instruction on two byte registers. -/
def byteOpcode (code : Byte) (source dest : BitVec 4) : Word :=
  code ++ (source ++ dest)

/-- The opcode of an instruction on two word registers. -/
def wordOpcode (code : Byte) (source dest : BitVec 3) : Word :=
  code ++ ((0#1 ++ source) ++ (0#1 ++ dest))

/-- The opcode of an instruction with an operand of eight bits. -/
def immediateOpcode (code operand : Byte) : Word :=
  code ++ operand

/-- Executions of an instruction on the operands of one byte after the
other.  The registers may change from byte to byte. -/
inductive OperandChain (run : BitVec 4 → BitVec 4 → Exec Unit)
    (keep : Byte) :
    Machine → List (Byte × Byte) → List Byte → Machine → Prop where
  | nil (m : Machine) : OperandChain run keep m [] [] m
  | cons {m m₁ m₂ m' : Machine} (source dest : BitVec 4)
      {pairs : List (Byte × Byte)} {results : List Byte}
      (hkeep : m₁.ccr &&& keep = m.ccr &&& keep)
      (hrun : run source dest m₁ = (.ok (), m₂))
      (hrest : OperandChain run keep m₂ pairs results m') :
      OperandChain run keep m ((m₁.reg dest, m₁.reg source) :: pairs)
        (m₂.reg dest :: results) m'

/-- The lowest bytes take an instruction of their own. -/
inductive MultiByte (first rest : BitVec 4 → BitVec 4 → Exec Unit)
    (keep : Byte) : List (Byte × Byte) → List Byte → Machine → Prop where
  | intro {m₁ m₂ m' : Machine} (source dest : BitVec 4)
      {pairs : List (Byte × Byte)} {results : List Byte}
      (hrun : first source dest m₁ = (.ok (), m₂))
      (hrest : OperandChain rest keep m₂ pairs results m') :
      MultiByte first rest keep ((m₁.reg dest, m₁.reg source) :: pairs)
        (m₂.reg dest :: results) m'

/-- The number with the given bytes, the lowest one first. -/
def bytesValue (bytes : List Byte) : ℕ :=
  Nat.ofDigits 256 (bytes.map BitVec.toNat)

@[simp] theorem bytesValue_nil : bytesValue [] = 0 :=
  rfl

theorem bytesValue_cons (byte : Byte) (bytes : List Byte) :
    bytesValue (byte :: bytes) = byte.toNat + 256 * bytesValue bytes := by
  rw [bytesValue, List.map_cons, Nat.ofDigits_cons]
  rfl

theorem bytesValue_lt (bytes : List Byte) :
    bytesValue bytes < 256 ^ bytes.length := by
  induction bytes with
  | nil => exact Nat.one_pos
  | cons byte bytes ih =>
      have hbyte := byte.isLt
      rw [bytesValue_cons, List.length_cons, pow_succ]
      omega

section Opcodes

variable (code : Byte)

theorem opcode_code (low : Byte) :
    ((code ++ low : Word) >>> 8).toNat = code.toNat := by
  have hcode := code.isLt
  have hlow := low.isLt
  rw [BitVec.toNat_ushiftRight, toNat_append, Nat.shiftRight_eq_div_pow]
  omega

theorem opcval_append (low : Byte) : opcval (code ++ low) = low := by
  apply BitVec.eq_of_getLsbD_eq
  intro i hi
  simp only [opcval, BitVec.getLsbD_extractLsb', BitVec.getLsbD_append]
  simp [hi]

variable (source dest : BitVec 4)

theorem perform_byteOpcode {mnemonic : Mnemonic}
    (hcode : Mnemonic.decode code.toNat = some mnemonic) :
    perform (byteOpcode code source dest) =
      mnemonic.body (byteOpcode code source dest) := by
  rw [perform, byteOpcode, opcode_code, hcode]

theorem rd_byteOpcode : rd (byteOpcode code source dest) = dest := by
  apply BitVec.eq_of_getLsbD_eq
  intro i hi
  simp only [rd, byteOpcode, BitVec.getLsbD_extractLsb',
    BitVec.getLsbD_append]
  simp [hi, show i < 8 by omega]

theorem rs_byteOpcode : rs (byteOpcode code source dest) = source := by
  apply BitVec.eq_of_getLsbD_eq
  intro i hi
  simp only [rs, byteOpcode, BitVec.getLsbD_extractLsb',
    BitVec.getLsbD_append]
  simp [hi, show 4 + i < 8 by omega, show ¬4 + i < 4 by omega]

end Opcodes

section Words

variable (code : Byte) (source dest : BitVec 3)

theorem perform_wordOpcode {mnemonic : Mnemonic}
    (hcode : Mnemonic.decode code.toNat = some mnemonic) :
    perform (wordOpcode code source dest) =
      mnemonic.body (wordOpcode code source dest) := by
  rw [perform, wordOpcode, opcode_code, hcode]

theorem rd16_wordOpcode : rd16 (wordOpcode code source dest) = dest := by
  apply BitVec.eq_of_getLsbD_eq
  intro i hi
  simp only [rd16, wordOpcode, BitVec.getLsbD_extractLsb',
    BitVec.getLsbD_append]
  simp [hi, show i < 4 by omega, show i < 8 by omega]

theorem rs16_wordOpcode : rs16 (wordOpcode code source dest) = source := by
  apply BitVec.eq_of_getLsbD_eq
  intro i hi
  simp only [rs16, wordOpcode, BitVec.getLsbD_extractLsb',
    BitVec.getLsbD_append]
  simp [hi, show 4 + i < 8 by omega, show ¬4 + i < 4 by omega]

/-- The fields of the registers leave two bits free. -/
theorem wordOpcode_legal :
    opcval (wordOpcode code source dest) &&& 0x88 = 0 := by
  rw [wordOpcode, opcval_append]
  revert source dest
  decide

end Words

theorem perform_immediateOpcode {code : Byte} {mnemonic : Mnemonic}
    (hcode : Mnemonic.decode code.toNat = some mnemonic) (operand : Byte) :
    perform (immediateOpcode code operand) =
      mnemonic.body (immediateOpcode code operand) := by
  rw [perform, immediateOpcode, opcode_code, hcode]

end BrickEmu
