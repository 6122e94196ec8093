import BrickEmu.SubtractionFlags

/-!
# Decimal arithmetic

`DAA` and `DAS` correct a byte to packed decimal digits.  Both clear the half
carry before they look at it, so a carry out of the lower digit is lost, and
`DAA` loses the carry that its own correction of the lower digit causes.
-/

namespace BrickEmu

open CarryBits

/-! ## Packed digits -/

/-- Two decimal digits in a byte. -/
structure Decimal (byte : Byte) : Prop where
  low : byte.toNat % 16 ≤ 9
  high : byte.toNat / 16 ≤ 9

def decimalValue (byte : Byte) : ℕ :=
  10 * (byte.toNat / 16) + byte.toNat % 16

def pack (v : ℕ) : Byte :=
  BitVec.ofNat 8 (16 * (v / 10 % 10) + v % 10)

/-- The lowest digits of a number in packed bytes, the lowest byte first. -/
def packed : ℕ → ℕ → List Byte
  | 0, _ => []
  | n + 1, v => pack v :: packed n (v / 100)

/-- The number with the given packed digits. -/
def packedValue (bytes : List Byte) : ℕ :=
  Nat.ofDigits 100 (bytes.map decimalValue)

theorem packedValue_cons (byte : Byte) (bytes : List Byte) :
    packedValue (byte :: bytes) =
      decimalValue byte + 100 * packedValue bytes := by
  rw [packedValue, List.map_cons, Nat.ofDigits_cons]
  rfl

theorem toNat_pack (v : ℕ) :
    (pack v).toNat = 16 * (v / 10 % 10) + v % 10 := by
  rw [pack, BitVec.toNat_ofNat]
  omega

theorem pack_mod (v : ℕ) : pack (v % 100) = pack v := by
  apply BitVec.eq_of_toNat_eq
  rw [toNat_pack, toNat_pack]
  omega

/-! ## One byte -/

/-- What `DAA` makes of a sum with its carry. -/
def adjustSum (dest : Byte) (carry : Bool) : Byte × Bool :=
  let dest := if 0x09 < dest &&& 0x0f then dest + 6 else dest
  let high := carry || decide (0x90 < dest &&& 0xf0)
  (if high then dest + 0x60 else dest, high)

/-- What `DAS` makes of a difference with its borrow. -/
def adjustDifference (dest : Byte) (carry : Bool) : Byte :=
  if carry then dest + 0xa0 else dest

/-- The digits of a byte can be added without a carry out of the lower digit
and without one that only the correction of the lower digit causes. -/
def PlainSum (x y : Byte) (c : ℕ) : Prop :=
  x.toNat % 16 + y.toNat % 16 + c < 16 ∧
    ¬(x.toNat / 16 + y.toNat / 16 = 15 ∧
      10 ≤ x.toNat % 16 + y.toNat % 16 + c)

/-- The lower digits can be subtracted without a borrow. -/
def PlainDifference (x y : Byte) (c : ℕ) : Prop :=
  y.toNat % 16 + c ≤ x.toNat % 16

section Nibbles

theorem low_nibble : ∀ x : Byte, (x &&& 0x0f).toNat = x.toNat % 16 := by
  decide +kernel

theorem high_nibble : ∀ x : Byte,
    (x &&& 0xf0).toNat = 16 * (x.toNat / 16) := by
  decide +kernel

theorem adjustSum_eq (dest : Byte) (carry : Bool) :
    let low := if 9 < dest.toNat % 16 then (dest.toNat + 6) % 256
      else dest.toNat
    let high := carry || decide (9 < low / 16)
    (adjustSum dest carry).2 = high ∧
      (adjustSum dest carry).1.toNat =
        if high then (low + 96) % 256 else low := by
  intro low high
  have hdest : (if 0x09 < dest &&& 0x0f then dest + 6 else dest).toNat =
      low := by
    have hcond : (0x09 < dest &&& 0x0f) ↔ 9 < dest.toNat % 16 := by
      rw [BitVec.lt_def, low_nibble]
      rfl
    simp only [low, hcond]
    split
    · rw [BitVec.toNat_add]
      rfl
    · rfl
  rw [adjustSum]
  generalize (if 0x09 < dest &&& 0x0f then dest + 6 else dest) = first
    at hdest
  have hhigh : (carry || decide (0x90 < first &&& 0xf0)) = high := by
    have hcond : (0x90 < first &&& 0xf0) ↔ 9 < low / 16 := by
      rw [BitVec.lt_def, high_nibble, hdest]
      have h90 : (0x90 : Byte).toNat = 144 := rfl
      omega
    simp only [high, hcond]
  simp only [hhigh, true_and]
  split
  · rw [BitVec.toNat_add, hdest]
    rfl
  · exact hdest

end Nibbles

variable {x y : Byte}

/-- The digits and the value of a decimal byte. -/
theorem decimal_digits (hx : Decimal x) :
    ∃ high low, high ≤ 9 ∧ low ≤ 9 ∧ x.toNat = 16 * high + low ∧
      x.toNat / 16 = high ∧ x.toNat % 16 = low ∧
      decimalValue x = 10 * high + low := by
  have hlow := hx.low
  have hhigh := hx.high
  exact ⟨x.toNat / 16, x.toNat % 16, hhigh, hlow, by omega, rfl, rfl, rfl⟩

/-- All sums of two upper digits and of two lower ones with a carry. -/
theorem adjusted_digits : ∀ h < 19, ∀ l < 20,
    let dest := (16 * h + l) % 256
    let low := if 9 < dest % 16 then (dest + 6) % 256 else dest
    let high := decide (256 ≤ 16 * h + l) || decide (9 < low / 16)
    let v := 10 * h + l
    ((if high then (low + 96) % 256 else low) =
        16 * (v / 10 % 10) + v % 10 ↔ l < 16 ∧ ¬(h = 15 ∧ 10 ≤ l)) ∧
      (l < 16 ∧ ¬(h = 15 ∧ 10 ≤ l) → high = decide (100 ≤ v)) := by
  decide +kernel

/-- The corrected sum is right exactly if the digits are plain. -/
theorem adjustSum_iff (hx : Decimal x) (hy : Decimal y) (c : Bool) :
    let s := x.toNat + y.toNat + c.toNat
    let v := decimalValue x + decimalValue y + c.toNat
    let result := adjustSum (x + y + bit 8 c) (decide (256 ≤ s))
    (result.1 = pack v ↔ PlainSum x y c.toNat) ∧
      (PlainSum x y c.toNat → result.2 = decide (100 ≤ v)) := by
  intro s v result
  have hsum : (x + y + bit 8 c).toNat = s % 256 := toNat_adc x y c
  obtain ⟨hhigh, hvalue⟩ := adjustSum_eq (x + y + bit 8 c) (decide (256 ≤ s))
  rw [hsum] at hhigh hvalue
  have hpack : result.1 = pack v ↔
      result.1.toNat = 16 * (v / 10 % 10) + v % 10 := by
    rw [← toNat_pack]
    exact ⟨fun h => congrArg _ h, BitVec.eq_of_toNat_eq⟩
  have hc := Bool.toNat_le c
  obtain ⟨xh, xl, hxh, hxl, hx, hxhigh, hxlow, hxvalue⟩ := decimal_digits hx
  obtain ⟨yh, yl, hyh, hyl, hy, hyhigh, hylow, hyvalue⟩ := decimal_digits hy
  have hs : s = 16 * (xh + yh) + (xl + yl + c.toNat) := by omega
  have hv : v = 10 * (xh + yh) + (xl + yl + c.toNat) := by omega
  rw [hpack, hvalue, hhigh, PlainSum, hxhigh, hxlow, hyhigh, hylow, hs, hv]
  exact adjusted_digits (xh + yh) (by omega) (xl + yl + c.toNat) (by omega)

/-- All differences of two upper digits, moved up by 9, and of two lower ones
with a borrow, moved up by 10. -/
theorem subtracted_digits : ∀ h < 19, ∀ l < 20,
    let dest := (16 * h + l + 358) % 256
    let v := 10 * h + l
    ((if 16 * h + l < 154 then (dest + 160) % 256 else dest) =
        16 * (v / 10 % 10) + v % 10 ↔ 10 ≤ l) ∧
      (16 * h + l < 154 ↔ v < 100) := by
  decide +kernel

/-- The corrected difference is right exactly if the lower digits can be
subtracted; the borrow of the bytes always is that of the digits. -/
theorem adjustDifference_iff (hx : Decimal x) (hy : Decimal y) (c : Bool) :
    let borrow := decide (x.toNat < y.toNat + c.toNat)
    let v := decimalValue x + 100 - (decimalValue y + c.toNat)
    (adjustDifference (x - y - bit 8 c) borrow = pack v ↔
        PlainDifference x y c.toNat) ∧
      borrow = decide (decimalValue x < decimalValue y + c.toNat) := by
  intro borrow v
  have hc := Bool.toNat_le c
  have hdiff : (x - y - bit 8 c).toNat =
      (x.toNat + 512 - y.toNat - c.toNat) % 256 := toNat_sbb x y c
  obtain ⟨xh, xl, hxh, hxl, hx, hxhigh, hxlow, hxvalue⟩ := decimal_digits hx
  obtain ⟨yh, yl, hyh, hyl, hy, hyhigh, hylow, hyvalue⟩ := decimal_digits hy
  obtain ⟨h, hh⟩ : ∃ h, h = xh + 9 - yh := ⟨_, rfl⟩
  obtain ⟨l, hl⟩ : ∃ l, l = xl + 10 - (yl + c.toNat) := ⟨_, rfl⟩
  have hdest : x.toNat + 512 - y.toNat - c.toNat = 16 * h + l + 358 := by
    omega
  have hv : v = 10 * h + l := by omega
  have hborrow : x.toNat < y.toNat + c.toNat ↔ 16 * h + l < 154 := by omega
  obtain ⟨hdigits, hless⟩ := subtracted_digits h (by omega) l (by omega)
  have hresult : (adjustDifference (x - y - bit 8 c) borrow).toNat =
      if 16 * h + l < 154 then ((16 * h + l + 358) % 256 + 160) % 256
      else (16 * h + l + 358) % 256 := by
    simp only [adjustDifference, borrow, decide_eq_true_iff, hborrow]
    split
    · rw [BitVec.toNat_add, hdiff, hdest]
      rfl
    · rw [hdiff, hdest]
  have hpack : adjustDifference (x - y - bit 8 c) borrow = pack v ↔
      (adjustDifference (x - y - bit 8 c) borrow).toNat =
        16 * (v / 10 % 10) + v % 10 := by
    rw [← toNat_pack]
    exact ⟨fun h => congrArg _ h, BitVec.eq_of_toNat_eq⟩
  constructor
  · rw [hv] at hpack
    rw [hv]
    refine hpack.trans ?_
    rw [hresult]
    refine hdigits.trans ?_
    rw [PlainDifference, hxlow, hylow]
    omega
  · rw [decide_eq_decide]
    refine hborrow.trans (hless.trans ?_)
    omega

/-! ## The corrections as instructions -/

def adjustAdded (dest : BitVec 4) : Exec Unit :=
  perform (byteOpcode 0x0f 0 dest)

def adjustSubtracted (dest : BitVec 4) : Exec Unit :=
  perform (byteOpcode 0x1f 0 dest)

section Corrections

variable (dest : BitVec 4) (m : Machine)

/-- The carry is kept and the half carry is gone. -/
theorem kept_carry (ccr : Byte) :
    ¬(ccr &&& 0xd1 &&& 0x20 ≠ 0) ∧
      (ccr &&& 0xd1 &&& 0x01 ≠ 0 ↔ ccr.getLsbD 0 = true) ∧
      (ccr &&& 0xd1).getLsbD 0 = ccr.getLsbD 0 := by
  revert ccr
  decide +kernel

theorem setNZV_getLsbD_zero (dest ccr : Byte) :
    (setNZV dest ccr).getLsbD 0 = ccr.getLsbD 0 := by
  rw [setNZV, setNZ]
  split <;> simp

theorem adjustAdded_run :
    ∃ m', adjustAdded dest m = (.ok (), m') ∧
      m'.reg dest = (adjustSum (m.reg dest) (m.ccr.getLsbD 0)).1 ∧
      m'.ccr.getLsbD 0 = (adjustSum (m.reg dest) (m.ccr.getLsbD 0)).2 := by
  obtain ⟨hhalf, hcarry, hkept⟩ := kept_carry m.ccr
  rw [adjustAdded, perform_byteOpcode 0x0f 0 dest
    (show Mnemonic.decode (0x0f : Byte).toNat = some .daa by decide)]
  simp only [Mnemonic.body, Instr.daa, rd_byteOpcode]
  refine ⟨_, rfl, ?_, ?_⟩
  · refine (Function.update_self dest _ m.reg).trans ?_
    simp only [hhalf, hcarry, false_or, adjustSum, Bool.decide_or,
      Bool.decide_eq_true]
  · refine (setNZV_getLsbD_zero _ _).trans ?_
    simp only [hhalf, hcarry, false_or, adjustSum, Bool.decide_or,
      Bool.decide_eq_true]
    generalize decide (0x90 < (if 0x09 < m.reg dest &&& 0x0f
      then m.reg dest + 6 else m.reg dest) &&& 0xf0) = high
    cases high with
    | true => simp
    | false =>
        rw [Bool.or_false]
        split
        · simp_all
        · simp_all

theorem adjustSubtracted_run :
    ∃ m', adjustSubtracted dest m = (.ok (), m') ∧
      m'.reg dest =
        adjustDifference (m.reg dest) (m.ccr.getLsbD 0) ∧
      m'.ccr.getLsbD 0 = m.ccr.getLsbD 0 := by
  obtain ⟨hhalf, hcarry, hkept⟩ := kept_carry m.ccr
  rw [adjustSubtracted, perform_byteOpcode 0x1f 0 dest
    (show Mnemonic.decode (0x1f : Byte).toNat = some .das by decide)]
  simp only [Mnemonic.body, Instr.das, rd_byteOpcode]
  refine ⟨_, rfl, ?_, ?_⟩
  · refine (Function.update_self dest _ m.reg).trans ?_
    rw [if_neg hhalf]
    simp only [hcarry, adjustDifference]
  · exact (setNZV_getLsbD_zero _ _).trans hkept

end Corrections

/-! ## All bytes -/

/-- `ADD.B` or `ADDX.B` and the correction of its sum. -/
def addDecimals (source dest : BitVec 4) : Exec Unit := do
  addBytes source dest
  adjustAdded dest

def addXDecimals (source dest : BitVec 4) : Exec Unit := do
  addXBytes source dest
  adjustAdded dest

/-- `SUB.B` or `SUBX.B` and the correction of its difference. -/
def subDecimals (source dest : BitVec 4) : Exec Unit := do
  subBytes source dest
  adjustSubtracted dest

def subXDecimals (source dest : BitVec 4) : Exec Unit := do
  subXBytes source dest
  adjustSubtracted dest

/-- All operands have decimal digits. -/
def DecimalPairs (pairs : List (Byte × Byte)) : Prop :=
  ∀ pair ∈ pairs, Decimal pair.1 ∧ Decimal pair.2

/-- The packed numbers in the destinations and in the sources. -/
def leftDecimal (pairs : List (Byte × Byte)) : ℕ :=
  packedValue (pairs.map Prod.fst)

def rightDecimal (pairs : List (Byte × Byte)) : ℕ :=
  packedValue (pairs.map Prod.snd)

/-- Every byte of the sum is plain with the carry of the bytes below. -/
def PlainSums : ℕ → List (Byte × Byte) → Prop
  | _, [] => True
  | c, (x, y) :: pairs =>
      PlainSum x y c ∧
        PlainSums ((decimalValue x + decimalValue y + c) / 100) pairs

/-- Every byte of the difference is plain with the borrow of the bytes
below. -/
def PlainDifferences : ℕ → List (Byte × Byte) → Prop
  | _, [] => True
  | c, (x, y) :: pairs =>
      PlainDifference x y c ∧
        PlainDifferences (if decimalValue x < decimalValue y + c then 1 else 0)
          pairs

/-- The packed sum and its carry. -/
structure DecimalSum (pairs : List (Byte × Byte)) (results : List Byte)
    (ccr : Byte) : Prop where
  value : results = packed pairs.length
    ((leftDecimal pairs + rightDecimal pairs) % 100 ^ pairs.length)
  carry : ccr.getLsbD 0 =
    decide (100 ^ pairs.length ≤ leftDecimal pairs + rightDecimal pairs)

/-- The packed difference and its borrow. -/
structure DecimalDifference (pairs : List (Byte × Byte))
    (results : List Byte) (ccr : Byte) : Prop where
  value : results = packed pairs.length
    ((leftDecimal pairs + 100 ^ pairs.length - rightDecimal pairs) %
      100 ^ pairs.length)
  carry : ccr.getLsbD 0 = decide (leftDecimal pairs < rightDecimal pairs)

theorem packed_mod (n v : ℕ) : packed n (v % 100 ^ n) = packed n v := by
  induction n generalizing v with
  | zero => rfl
  | succ n ih =>
      have hlow : v % 100 ^ (n + 1) % 100 = v % 100 := by
        rw [pow_succ, Nat.mul_comm, Nat.mod_mul_right_mod]
      have hrest : v % 100 ^ (n + 1) / 100 = v / 100 % 100 ^ n := by
        rw [pow_succ, Nat.mul_comm, Nat.mod_mul_right_div_self]
      rw [packed, packed, hrest, ih, ← pack_mod, hlow, pack_mod]

theorem packedValue_lt {bytes : List Byte}
    (h : ∀ byte ∈ bytes, Decimal byte) :
    packedValue bytes < 100 ^ bytes.length := by
  induction bytes with
  | nil => exact Nat.one_pos
  | cons byte bytes ih =>
      have hbyte := h byte (List.mem_cons_self ..)
      have hrest := ih fun b hb => h b (List.mem_cons_of_mem _ hb)
      have hlow := hbyte.low
      have hhigh := hbyte.high
      rw [packedValue_cons, decimalValue, List.length_cons, pow_succ]
      omega

theorem leftDecimal_cons (x y : Byte) (pairs : List (Byte × Byte)) :
    leftDecimal ((x, y) :: pairs) =
      decimalValue x + 100 * leftDecimal pairs :=
  packedValue_cons x _

theorem rightDecimal_cons (x y : Byte) (pairs : List (Byte × Byte)) :
    rightDecimal ((x, y) :: pairs) =
      decimalValue y + 100 * rightDecimal pairs :=
  packedValue_cons y _

theorem rightDecimal_lt {pairs : List (Byte × Byte)}
    (h : DecimalPairs pairs) :
    rightDecimal pairs < 100 ^ pairs.length := by
  have hlt : packedValue (pairs.map Prod.snd) <
      100 ^ (pairs.map Prod.snd).length := by
    apply packedValue_lt
    intro byte hbyte
    obtain ⟨pair, hpair, rfl⟩ := List.mem_map.mp hbyte
    exact (h pair hpair).2
  rw [List.length_map] at hlt
  exact hlt

theorem decimalValue_lt (hx : Decimal x) : decimalValue x < 100 := by
  have hlow := hx.low
  have hhigh := hx.high
  rw [decimalValue]
  omega

theorem addXDecimals_eq (source dest : BitVec 4) (m : Machine) :
    addXDecimals source dest m =
      adjustAdded dest
        (Instr.addByte dest (m.reg source) (bit 8 (m.ccr.getLsbD 0)) m) := by
  rw [addXDecimals, ← carry_operand]
  exact Program.bind_ok (addXBytes_run source dest m) _

theorem addDecimals_eq (source dest : BitVec 4) (m : Machine) :
    addDecimals source dest m =
      adjustAdded dest
        (Instr.addByte dest (m.reg source) (bit 8 false) m) :=
  Program.bind_ok (addBytes_run source dest m) _

theorem subXDecimals_eq (source dest : BitVec 4) (m : Machine) :
    subXDecimals source dest m =
      adjustSubtracted dest (Instr.subXByte dest (m.reg source) m) :=
  Program.bind_ok (subXBytes_run source dest m) _

theorem subDecimals_eq (source dest : BitVec 4) (m : Machine) :
    subDecimals source dest m =
      adjustSubtracted dest (Instr.subByte dest (m.reg source) 0 m) :=
  Program.bind_ok (subBytes_run source dest m) _

/-- One byte of a decimal sum. -/
theorem adjustAdded_addByte {source dest : BitVec 4} {m m' : Machine}
    {c : Bool}
    (hrun : adjustAdded dest
      (Instr.addByte dest (m.reg source) (bit 8 c) m) = (.ok (), m'))
    (hx : Decimal (m.reg dest)) (hy : Decimal (m.reg source)) :
    let v := decimalValue (m.reg dest) + decimalValue (m.reg source) + c.toNat
    let plain := PlainSum (m.reg dest) (m.reg source) c.toNat
    (m'.reg dest = pack v ↔ plain) ∧
      (plain → m'.ccr.getLsbD 0 = decide (100 ≤ v)) := by
  intro v plain
  obtain ⟨m'', hadjust, hreg, hccr⟩ := adjustAdded_run dest
    (Instr.addByte dest (m.reg source) (bit 8 c) m)
  obtain ⟨-, rfl⟩ := Prod.mk.inj (hadjust.symm.trans hrun)
  obtain ⟨-, hcarry, -⟩ := addition_byte (m.reg dest) (m.reg source) c m.ccr
  rw [addByte_reg, addByte_ccr, hcarry] at hreg hccr
  rw [hreg, hccr]
  exact adjustSum_iff hx hy c

/-- One byte of a decimal difference. -/
theorem adjustSubtracted_of_borrow {dest : BitVec 4} {x y : Byte}
    {m m' : Machine} {c : Bool}
    (hreg : m.reg dest = x - y - bit 8 c)
    (hcarry : m.ccr.getLsbD 0 = decide (x.toNat < y.toNat + c.toNat))
    (hrun : adjustSubtracted dest m = (.ok (), m'))
    (hx : Decimal x) (hy : Decimal y) :
    (m'.reg dest =
        pack (decimalValue x + 100 - (decimalValue y + c.toNat)) ↔
      PlainDifference x y c.toNat) ∧
      m'.ccr.getLsbD 0 =
        decide (decimalValue x < decimalValue y + c.toNat) := by
  obtain ⟨m'', hadjust, hreg', hccr⟩ := adjustSubtracted_run dest m
  obtain ⟨-, rfl⟩ := Prod.mk.inj (hadjust.symm.trans hrun)
  rw [hreg', hccr, hreg, hcarry]
  exact adjustDifference_iff hx hy c

/-- Whoever sees the packed lower digits sees those of the byte. -/
theorem cons_eq_packed_iff {byte : Byte} {bytes : List Byte} {n v t : ℕ} :
    byte :: bytes = packed (n + 1) (v + 100 * t) ↔
      byte = pack v ∧ bytes = packed n (v / 100 + t) := by
  have hlow : pack (v + 100 * t) = pack v := by
    rw [← pack_mod, Nat.add_mul_mod_self_left, pack_mod]
  rw [packed, List.cons.injEq, hlow, Nat.add_mul_div_left _ _ (by decide)]

theorem decimalSum_of_chain {m m' : Machine} {pairs : List (Byte × Byte)}
    {results : List Byte}
    (hchain : OperandChain addXDecimals 1 m pairs results m')
    (hpairs : DecimalPairs pairs) :
    let total := leftDecimal pairs + rightDecimal pairs +
      (m.ccr.getLsbD 0).toNat
    (results = packed pairs.length total ∧
        m'.ccr.getLsbD 0 = decide (100 ^ pairs.length ≤ total)) ↔
      PlainSums (m.ccr.getLsbD 0).toNat pairs := by
  induction hchain with
  | nil m =>
      intro total
      have htotal : total = (m.ccr.getLsbD 0).toNat := Nat.zero_add _
      rw [htotal]
      cases m.ccr.getLsbD 0 <;> simp [packed, PlainSums]
  | @cons m m₁ m₂ m' source dest pairs results hkeep hrun _ ih =>
      intro total
      obtain ⟨hx, hy⟩ : Decimal (m₁.reg dest) ∧ Decimal (m₁.reg source) :=
        hpairs _ (List.mem_cons_self ..)
      have hrest := ih fun pair h => hpairs pair (List.mem_cons_of_mem _ h)
      rw [addXDecimals_eq] at hrun
      obtain ⟨hbyte, hcarry⟩ := adjustAdded_addByte hrun hx hy
      rw [getLsbD_of_kept hkeep] at hbyte hcarry
      obtain ⟨v, hv⟩ : ∃ v, v = decimalValue (m₁.reg dest) +
        decimalValue (m₁.reg source) + (m.ccr.getLsbD 0).toNat := ⟨_, rfl⟩
      rw [← hv] at hbyte hcarry
      have htotal : total =
          v + 100 * (leftDecimal pairs + rightDecimal pairs) := by
        simp only [total, leftDecimal_cons, rightDecimal_cons]
        omega
      have hlt : v < 200 := by
        have hx := decimalValue_lt hx
        have hy := decimalValue_lt hy
        have hc := Bool.toNat_le (m.ccr.getLsbD 0)
        omega
      rw [htotal, List.length_cons, cons_eq_packed_iff, PlainSums, hbyte,
        ← hv, and_assoc]
      apply and_congr_right
      intro hplain
      -- the digits above see the carry of the plain digits
      have hnext : (m₂.ccr.getLsbD 0).toNat = v / 100 := by
        rw [hcarry hplain]
        by_cases hover : 100 ≤ v
        · rw [decide_eq_true hover, Bool.toNat_true]
          omega
        · rw [decide_eq_false hover, Bool.toNat_false]
          omega
      have hpow : 100 ^ (pairs.length + 1) ≤
          v + 100 * (leftDecimal pairs + rightDecimal pairs) ↔
          100 ^ pairs.length ≤
            leftDecimal pairs + rightDecimal pairs + v / 100 := by
        rw [pow_succ]
        omega
      rw [hnext, Nat.add_comm _ (v / 100)] at hrest
      rw [Nat.add_comm _ (v / 100)] at hpow
      rw [decide_eq_decide.mpr hpow]
      exact hrest

theorem decimalDifference_of_chain {m m' : Machine}
    {pairs : List (Byte × Byte)} {results : List Byte}
    (hchain : OperandChain subXDecimals 1 m pairs results m')
    (hpairs : DecimalPairs pairs) :
    let taken := rightDecimal pairs + (m.ccr.getLsbD 0).toNat
    (results = packed pairs.length
          (leftDecimal pairs + 100 ^ pairs.length - taken) ∧
        m'.ccr.getLsbD 0 = decide (leftDecimal pairs < taken)) ↔
      PlainDifferences (m.ccr.getLsbD 0).toNat pairs := by
  induction hchain with
  | nil m =>
      intro taken
      have htaken : taken = (m.ccr.getLsbD 0).toNat := Nat.zero_add _
      have hleft : leftDecimal [] = 0 := rfl
      rw [htaken, hleft]
      cases m.ccr.getLsbD 0 <;> simp [packed, PlainDifferences]
  | @cons m m₁ m₂ m' source dest pairs results hkeep hrun _ ih =>
      intro taken
      obtain ⟨hx, hy⟩ : Decimal (m₁.reg dest) ∧ Decimal (m₁.reg source) :=
        hpairs _ (List.mem_cons_self ..)
      have htail : DecimalPairs pairs :=
        fun pair h => hpairs pair (List.mem_cons_of_mem _ h)
      have hrest := ih htail
      rw [subXDecimals_eq] at hrun
      obtain ⟨-, hborrow, -⟩ := subtraction_byte (m₁.reg dest)
        (m₁.reg source) (m₁.ccr.getLsbD 0) m₁.ccr
      have hreg := subXByte_reg dest (m₁.reg source) m₁
      rw [carry_operand] at hreg
      have hccr : (Instr.subXByte dest (m₁.reg source) m₁).ccr.getLsbD 0 =
          decide ((m₁.reg dest).toNat <
            (m₁.reg source).toNat + (m₁.ccr.getLsbD 0).toNat) := by
        rw [subXByte_ccr, (getLsbD_keepZero _ _).1, carry_operand]
        exact hborrow
      obtain ⟨hbyte, hcarry⟩ := adjustSubtracted_of_borrow hreg hccr hrun
        hx hy
      rw [getLsbD_of_kept hkeep] at hbyte hcarry
      have hxlt := decimalValue_lt hx
      have hylt := decimalValue_lt hy
      have hc := Bool.toNat_le (m.ccr.getLsbD 0)
      have hright := rightDecimal_lt htail
      obtain ⟨c, hcdef⟩ : ∃ c, c = (m.ccr.getLsbD 0).toNat := ⟨_, rfl⟩
      obtain ⟨v, hv⟩ : ∃ v, v = decimalValue (m₁.reg dest) + 100 -
        (decimalValue (m₁.reg source) + c) := ⟨_, rfl⟩
      obtain ⟨t, ht⟩ : ∃ t, t = leftDecimal pairs + 100 ^ pairs.length -
        (rightDecimal pairs + 1) := ⟨_, rfl⟩
      rw [← hcdef] at hc hbyte hcarry
      rw [← hv] at hbyte
      simp only [taken, ← hcdef, leftDecimal_cons, rightDecimal_cons,
        List.length_cons]
      have hwhole : decimalValue (m₁.reg dest) + 100 * leftDecimal pairs +
          100 ^ (pairs.length + 1) - (decimalValue (m₁.reg source) +
            100 * rightDecimal pairs + c) = v + 100 * t := by
        rw [pow_succ]
        omega
      rw [hwhole, cons_eq_packed_iff, hbyte, PlainDifferences, and_assoc]
      apply and_congr_right
      intro _
      have hnext : (m₂.ccr.getLsbD 0).toNat =
          if decimalValue (m₁.reg dest) < decimalValue (m₁.reg source) + c
          then 1 else 0 := by
        rw [hcarry]
        split
        · rename_i hless
          rw [decide_eq_true hless, Bool.toNat_true]
        · rename_i hless
          rw [decide_eq_false hless, Bool.toNat_false]
      simp only [hnext] at hrest
      refine Iff.trans (and_congr ?_ ?_) hrest
      · have hupper : v / 100 + t =
            leftDecimal pairs + 100 ^ pairs.length - (rightDecimal pairs +
              if decimalValue (m₁.reg dest) < decimalValue (m₁.reg source) + c
              then 1 else 0) := by
          split <;> omega
        rw [hupper]
      · have hless : decimalValue (m₁.reg dest) + 100 * leftDecimal pairs <
            decimalValue (m₁.reg source) + 100 * rightDecimal pairs + c ↔
            leftDecimal pairs < rightDecimal pairs +
              if decimalValue (m₁.reg dest) < decimalValue (m₁.reg source) + c
              then 1 else 0 := by
          split <;> omega
        rw [decide_eq_decide.mpr hless]

/-- The instruction on the lowest bytes is the one on the others behind a
cleared carry. -/
theorem addDecimals_eq_extended (source dest : BitVec 4) (m : Machine) :
    addDecimals source dest m =
      addXDecimals source dest (m.setCcr (m.ccr &&& 0xfe)) := by
  have hflags : ∀ ccr : Byte, (ccr &&& 0xfe).getLsbD 0 = false ∧
      ccr &&& 0xfe &&& 0xd0 = ccr &&& 0xd0 := by decide +kernel
  obtain ⟨hcarry, hmask⟩ := hflags m.ccr
  rw [addDecimals_eq, addXDecimals_eq]
  have hclear : (m.setCcr (m.ccr &&& 0xfe)).ccr.getLsbD 0 = false := hcarry
  rw [hclear]
  simp only [Instr.addByte, setHNZVC, Machine.setCcr, hmask]
  rfl

theorem subDecimals_eq_extended (source dest : BitVec 4) (m : Machine) :
    subDecimals source dest m =
      subXDecimals source dest (m.setCcr (m.ccr &&& 0xfe ||| 4)) := by
  have hflags : ∀ ccr : Byte, (ccr &&& 0xfe ||| 4) &&& 1 = 0 ∧
      (ccr &&& 0xfe ||| 4) &&& 0xd0 = ccr &&& 0xd0 ∧
      (ccr &&& 0xfe ||| 4) ||| ~~~4 = 0xff := by decide +kernel
  obtain ⟨hcarry, hmask, hzero⟩ := hflags m.ccr
  rw [subDecimals_eq, subXDecimals_eq]
  simp only [Instr.subXByte, Instr.subByte, Instr.subFlags, setHNZVC,
    Machine.setCcr, hmask, hzero, hcarry]
  have hall : ∀ ccr : Byte, ccr &&& 0xff = ccr := by decide +kernel
  rw [hall]
  rfl

/-- An execution on operands of several bytes starts with no carry. -/
theorem chain_of_multiByte {first rest : BitVec 4 → BitVec 4 → Exec Unit}
    {clear : Byte → Byte} (hclear : ∀ ccr, (clear ccr).getLsbD 0 = false)
    (hfirst : ∀ source dest m,
      first source dest m = rest source dest (m.setCcr (clear m.ccr)))
    {keep : Byte} {pairs : List (Byte × Byte)} {results : List Byte}
    {m' : Machine} (hrun : MultiByte first rest keep pairs results m') :
    ∃ m, m.ccr.getLsbD 0 = false ∧
      OperandChain rest keep m pairs results m' := by
  obtain ⟨source, dest, hlowest, hrest⟩ := hrun
  rename_i m₁ m₂ pairs results
  rw [hfirst] at hlowest
  have hchain := OperandChain.cons source dest
    (rfl : (m₁.setCcr (clear m₁.ccr)).ccr &&& keep = _) hlowest hrest
  exact ⟨m₁.setCcr (clear m₁.ccr), hclear m₁.ccr, hchain⟩

/-- For all operands with decimal digits and all executions: the packed sum
and its carry are right exactly if all sums of digits are plain, and the
packed difference and its borrow if all differences are. -/
theorem decimal_iff {pairs : List (Byte × Byte)}
    (hpairs : DecimalPairs pairs) {results : List Byte} {m' : Machine} :
    (MultiByte addDecimals addXDecimals 1 pairs results m' →
      (DecimalSum pairs results m'.ccr ↔ PlainSums 0 pairs)) ∧
    (MultiByte subDecimals subXDecimals 1 pairs results m' →
      (DecimalDifference pairs results m'.ccr ↔
        PlainDifferences 0 pairs)) := by
  constructor
  · intro hrun
    have hclear : ∀ ccr : Byte, (ccr &&& 0xfe).getLsbD 0 = false := by
      decide +kernel
    obtain ⟨m, hcarry, hchain⟩ :=
      chain_of_multiByte hclear addDecimals_eq_extended hrun
    have hiff := decimalSum_of_chain hchain hpairs
    simp only [hcarry, Bool.toNat_false, add_zero] at hiff
    rw [← packed_mod] at hiff
    exact ⟨fun h => hiff.mp ⟨h.value, h.carry⟩, fun h =>
      ⟨(hiff.mpr h).1, (hiff.mpr h).2⟩⟩
  · intro hrun
    have hclear : ∀ ccr : Byte, (ccr &&& 0xfe ||| 4).getLsbD 0 = false := by
      decide +kernel
    obtain ⟨m, hcarry, hchain⟩ :=
      chain_of_multiByte hclear subDecimals_eq_extended hrun
    have hiff := decimalDifference_of_chain hchain hpairs
    simp only [hcarry, Bool.toNat_false, add_zero] at hiff
    rw [← packed_mod] at hiff
    exact ⟨fun h => hiff.mp ⟨h.value, h.carry⟩, fun h =>
      ⟨(hiff.mpr h).1, (hiff.mpr h).2⟩⟩

/-- The digits 8 in two registers. -/
def eightPlusEight : Machine :=
  { Machine.powerOn (fun _ => none) [] [] [] with reg := fun _ => 8 }

theorem eights_decimal : DecimalPairs [(8, 8)] := by
  intro pair hpair
  rw [List.mem_singleton.mp hpair]
  exact ⟨⟨by decide, by decide⟩, by decide, by decide⟩

theorem eightPlusEight_run :
    ∃ m', MultiByte addDecimals addXDecimals 1 [(8, 8)] [0x10] m' := by
  obtain ⟨m', hrun, hreg, -⟩ := adjustAdded_run 0
    (Instr.addByte 0 (eightPlusEight.reg 1) (bit 8 false) eightPlusEight)
  rw [← addDecimals_eq] at hrun
  have hresult : m'.reg 0 = 0x10 := by
    rw [hreg]
    decide
  have hall := MultiByte.intro 1 0 hrun
    (.nil m' : OperandChain addXDecimals 1 m' [] [] m')
  rw [hresult] at hall
  exact ⟨m', hall⟩

theorem eightMinusEight_run :
    ∃ m', MultiByte subDecimals subXDecimals 1 [(8, 8)] [0] m' := by
  obtain ⟨m', hrun, hreg, -⟩ := adjustSubtracted_run 0
    (Instr.subByte 0 (eightPlusEight.reg 1) 0 eightPlusEight)
  rw [← subDecimals_eq] at hrun
  have hresult : m'.reg 0 = 0 := by
    rw [hreg]
    decide
  have hall := MultiByte.intro 1 0 hrun
    (.nil m' : OperandChain subXDecimals 1 m' [] [] m')
  rw [hresult] at hall
  exact ⟨m', hall⟩

theorem decimal_iff_eights :
    ∃ added subtracted : Machine,
      (DecimalSum [(8, 8)] [0x10] added.ccr ↔ PlainSums 0 [(8, 8)]) ∧
      (DecimalDifference [(8, 8)] [0] subtracted.ccr ↔
        PlainDifferences 0 [(8, 8)]) := by
  obtain ⟨added, hadd⟩ := eightPlusEight_run
  obtain ⟨subtracted, hsub⟩ := eightMinusEight_run
  exact ⟨added, subtracted, (decimal_iff eights_decimal).1 hadd,
    (decimal_iff eights_decimal).2 hsub⟩

/-- The carry out of the lower digit is lost: 8 and 8 make 10. -/
theorem decimalSum_fails_eights :
    DecimalPairs [(8, 8)] ∧
      ∃ m', MultiByte addDecimals addXDecimals 1 [(8, 8)] [0x10] m' ∧
        ¬DecimalSum [(8, 8)] [0x10] m'.ccr := by
  obtain ⟨m', hrun⟩ := eightPlusEight_run
  refine ⟨eights_decimal, m', hrun, fun hsum => ?_⟩
  have hvalue := hsum.value
  revert hvalue
  decide

end BrickEmu
