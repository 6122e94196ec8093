import BrickEmu.RomCode

/-!
# Rules for the arithmetic code of the ROM

One rule for each instruction says what the instruction leaves behind: the new
bytes and the carry by an equation between numbers, everything else as it was.
-/

namespace BrickEmu

open CarryBits

namespace Rom

def carry (ccr : Byte) : ℕ := (ccr &&& 1).toNat

theorem carry_eq : ∀ ccr : Byte, carry ccr = (ccr.getLsbD 0).toNat := by
  decide +kernel

theorem carry_le (ccr : Byte) : carry ccr ≤ 1 := by
  rw [carry_eq]
  exact Bool.toNat_le _

theorem and_one_eq_bit :
    ∀ ccr : Byte, ccr &&& 1 = bit 8 (ccr.getLsbD 0) := by
  decide +kernel

theorem taken_cs :
    ∀ ccr : Byte, Cond.cs.taken ccr = true ↔ carry ccr = 1 := by
  decide +kernel

theorem taken_cc :
    ∀ ccr : Byte, Cond.cc.taken ccr = true ↔ carry ccr = 0 := by
  decide +kernel

section Flags

variable {w : ℕ}

/-- The flags show a value, and the carry is as before. -/
structure Shows (val : BitVec w) (old new : Byte) : Prop where
  carry : carry new = carry old
  ne : Cond.ne.taken new = true ↔ val ≠ 0
  pl : Cond.pl.taken new = true ↔ val.msb = false

theorem getLsbD_flags (zero minus : Bool) (ccr : Byte) (hccr : ccr &&& 0x0c = 0) :
    Rom.carry (ccr ||| ((if zero then 0x04 else 0) |||
        if minus then 0x08 else 0)) = Rom.carry ccr ∧
      (Cond.ne.taken (ccr ||| ((if zero then 0x04 else 0) |||
        if minus then 0x08 else 0)) = true ↔ zero = false) ∧
      (Cond.pl.taken (ccr ||| ((if zero then 0x04 else 0) |||
        if minus then 0x08 else 0)) = true ↔ minus = false) := by
  cases zero <;> cases minus <;> (revert hccr; revert ccr; decide +kernel)

theorem shows_setNZ (hw : 8 ≤ w) (val : BitVec w) (ccr : Byte)
    (hccr : ccr &&& 0x0c = 0) : Shows val ccr (setNZ val ccr) := by
  obtain ⟨hcarry, hne, hpl⟩ :=
    getLsbD_flags (decide (val = 0)) val.msb ccr hccr
  rw [setNZ_eq hw]
  refine ⟨hcarry, hne.trans ?_, hpl⟩
  rw [decide_eq_false_iff_not]

theorem masked_flags :
    (∀ ccr : Byte, (ccr &&& 0xf1) &&& 0x0c = 0) ∧
      ∀ ccr : Byte, carry (ccr &&& 0xf1) = carry ccr := by
  decide +kernel

theorem shows_setNZV (hw : 8 ≤ w) (val : BitVec w) (ccr : Byte) :
    Shows val ccr (setNZV val ccr) := by
  have hshows := shows_setNZ hw val (ccr &&& 0xf1) (masked_flags.1 ccr)
  exact ⟨hshows.carry.trans (masked_flags.2 ccr), hshows.ne, hshows.pl⟩

theorem carry_flags (flags : HostFlags) (ccr : Byte) :
    carry ((ccr &&& 0xd0) ||| flags.ccr) = flags.carry.toNat ∧
      (Cond.ne.taken ((ccr &&& 0xd0) ||| flags.ccr) = true ↔
        flags.zero = false) := by
  rw [HostFlags.iflags2ccr_all]
  obtain ⟨carry, aux, zero, sign, overflow⟩ := flags
  revert ccr
  cases carry <;> cases aux <;> cases zero <;> cases sign <;>
    cases overflow <;> decide +kernel

theorem carry_add (hw : w = 8 ∨ w = 16) (x y : BitVec w) (c : Bool)
    (ccr : Byte) :
    (x + y + bit w c).toNat +
        2 ^ w * carry (setHNZVC false x y (x + y + bit w c) ccr) =
      x.toNat + y.toNat + c.toNat := by
  have hpos : 0 < w := by omega
  have hc : c.toNat ≤ 1 := Bool.toNat_le c
  have hx := x.isLt
  have hy := y.isLt
  rw [setHNZVC_eq hw, (carry_flags _ _).1, bitFlags_add (by omega) rfl]
  simp only [BitVec.carry, Nat.mod_eq_of_lt hx, Nat.mod_eq_of_lt hy]
  rw [BitVec.toNat_add, BitVec.toNat_add, toNat_bit hpos, Nat.mod_add_mod]
  by_cases hge : 2 ^ w ≤ x.toNat + y.toNat + c.toNat
  · rw [decide_eq_true hge, Bool.toNat_true, Nat.mod_eq_sub_mod hge,
      Nat.mod_eq_of_lt (by omega)]
    omega
  · rw [decide_eq_false hge, Bool.toNat_false, Nat.mod_eq_of_lt (by omega)]
    omega

theorem carry_sub (hw : w = 8 ∨ w = 16) (x y : BitVec w) (c : Bool)
    (ccr : Byte) :
    (x - y - bit w c).toNat + y.toNat + c.toNat =
      x.toNat +
        2 ^ w * carry (setHNZVC true x y (x - y - bit w c) ccr) := by
  have hpos : 0 < w := by omega
  have hc : c.toNat ≤ 1 := Bool.toNat_le c
  have hx := x.isLt
  have hy := y.isLt
  have hz := (x - y - bit w c).isLt
  have hback := congrArg BitVec.toNat (CarryBits.sub_add_cancel x y c)
  rw [BitVec.toNat_add, BitVec.toNat_add, toNat_bit hpos, Nat.mod_add_mod]
    at hback
  rw [setHNZVC_eq hw, (carry_flags _ _).1, bitFlags_sub (by omega) rfl]
  generalize (x - y - bit w c).toNat = z at hz hback ⊢
  show z + y.toNat + c.toNat =
    x.toNat + 2 ^ w * (decide (x.toNat < y.toNat + c.toNat)).toNat
  by_cases hge : 2 ^ w ≤ z + y.toNat + c.toNat
  · rw [Nat.mod_eq_sub_mod hge, Nat.mod_eq_of_lt (by omega)] at hback
    rw [decide_eq_true (by omega), Bool.toNat_true]
    omega
  · rw [Nat.mod_eq_of_lt (by omega)] at hback
    rw [decide_eq_false (by omega), Bool.toNat_false]
    omega

end Flags

namespace Data

variable (D : Data)

@[simp] theorem put_reg (r x : Reg8) (val ccr : Byte) :
    (D.put r val ccr).reg x = if x = r then val else D.reg x :=
  Function.update_apply ..

@[simp] theorem put_ccr (r : Reg8) (val ccr : Byte) :
    (D.put r val ccr).ccr = ccr := rfl

@[simp] theorem put_ram (r : Reg8) (val ccr : Byte) :
    (D.put r val ccr).ram = D.ram := rfl

@[simp] theorem put2_reg (r : Reg16) (x : Reg8) (high low ccr : Byte) :
    (D.put2 r high low ccr).reg x =
      if x = .l r then low else if x = .h r then high else D.reg x := by
  simp only [put2, put_reg]

@[simp] theorem put2_ccr (r : Reg16) (high low ccr : Byte) :
    (D.put2 r high low ccr).ccr = ccr := rfl

@[simp] theorem put2_ram (r : Reg16) (high low ccr : Byte) :
    (D.put2 r high low ccr).ram = D.ram := rfl

@[simp] theorem setCcr_reg (ccr : Byte) : (D.setCcr ccr).reg = D.reg := rfl
@[simp] theorem setCcr_ccr (ccr : Byte) : (D.setCcr ccr).ccr = ccr := rfl
@[simp] theorem setCcr_ram (ccr : Byte) : (D.setCcr ccr).ram = D.ram := rfl

theorem toNat_word (r : Reg16) :
    (D.word r).toNat =
      256 * (D.reg (.h r)).toNat + (D.reg (.l r)).toNat := by
  rw [word, toNat_append]

/-- Two word registers as a double word. -/
def long (high low : Reg16) : BitVec 32 :=
  D.word high ++ D.word low

theorem toNat_long (high low : Reg16) :
    (D.long high low).toNat =
      65536 * (D.word high).toNat + (D.word low).toNat := by
  rw [long, BitVec.toNat_append, Nat.shiftLeft_eq, Nat.mul_comm]
  exact (Nat.two_pow_add_eq_or_of_lt (D.word low).isLt _).symm

theorem highByte_word (r : Reg16) : highByte (D.word r) = D.reg (.h r) := by
  have hlow := (D.reg (.l r)).isLt
  apply BitVec.eq_of_toNat_eq
  rw [toNat_highByte, toNat_word]
  omega

theorem lowByte_word (r : Reg16) : lowByte (D.word r) = D.reg (.l r) := by
  have hlow := (D.reg (.l r)).isLt
  apply BitVec.eq_of_toNat_eq
  rw [toNat_lowByte, toNat_word]
  omega

end Data

/-- The state behind a sequence of instructions. -/
def After (ops : List Op) (Q : Data → Prop) (D : Data) : Prop :=
  Q (ops.foldl Op.exec D)

namespace After

variable {ops : List Op} {Q : Data → Prop} {D : Data}

theorem nil (h : Q D) : After [] Q D := h

theorem cons {o : Op} (h : After ops Q (o.exec D)) : After (o :: ops) Q D := h

theorem append {ops' : List Op} (h : After ops (After ops' Q) D) :
    After (ops ++ ops') Q D := by
  rw [After, List.foldl_append]
  exact h

theorem mono {Q' : Data → Prop} (hQ : ∀ D', Q D' → Q' D')
    (h : After ops Q D) : After ops Q' D :=
  hQ _ h

theorem putWord (r : Reg16) (val : Word) (ccr : Byte)
    (h : ∀ high low : Byte, 256 * high.toNat + low.toNat = val.toNat →
      After ops Q (D.put2 r high low ccr)) :
    After ops Q (D.putWord r val ccr) := by
  apply h
  rw [toNat_highByte, toNat_lowByte]
  omega

theorem movB_shows {src dst : Reg8}
    (h : ∀ val ccr : Byte, val = D.reg src → Shows val D.ccr ccr →
      After ops Q (D.put dst val ccr)) :
    After (.movB src dst :: ops) Q D :=
  h _ _ rfl (shows_setNZV (by omega) _ _)

theorem movB {src dst : Reg8}
    (h : ∀ val ccr : Byte, val = D.reg src → carry ccr = carry D.ccr →
      After ops Q (D.put dst val ccr)) :
    After (.movB src dst :: ops) Q D :=
  movB_shows fun val ccr hval hshows => h val ccr hval hshows.carry

theorem movBI {val : Byte} {dst : Reg8}
    (h : ∀ ccr, carry ccr = carry D.ccr → After ops Q (D.put dst val ccr)) :
    After (.movBI val dst :: ops) Q D :=
  h _ (shows_setNZV (by omega) _ _).carry

theorem notB {dst : Reg8}
    (h : ∀ val ccr : Byte, val.toNat = 255 - (D.reg dst).toNat →
      carry ccr = carry D.ccr → After ops Q (D.put dst val ccr)) :
    After (.notB dst :: ops) Q D := by
  have hshows := shows_setNZV (by omega) (~~~D.reg dst) D.ccr
  apply h _ _ ?_ hshows.carry
  rw [BitVec.toNat_not]

theorem movW_shows {src dst : Reg16}
    (h : ∀ high low ccr : Byte, high = D.reg (.h src) → low = D.reg (.l src) →
      Shows (D.word src) D.ccr ccr → After ops Q (D.put2 dst high low ccr)) :
    After (.movW src dst :: ops) Q D := by
  apply cons
  exact h _ _ _ (D.highByte_word src) (D.lowByte_word src)
    (shows_setNZV (by omega) _ _)

theorem movW {src dst : Reg16}
    (h : ∀ high low ccr : Byte, high = D.reg (.h src) → low = D.reg (.l src) →
      carry ccr = carry D.ccr → After ops Q (D.put2 dst high low ccr)) :
    After (.movW src dst :: ops) Q D :=
  movW_shows fun high low ccr hhigh hlow hshows =>
    h high low ccr hhigh hlow hshows.carry

theorem add {dst : Reg8} (src : Byte) (c : Bool)
    (h : ∀ val ccr : Byte,
      val.toNat + 256 * carry ccr =
        (D.reg dst).toNat + src.toNat + c.toNat →
      After ops Q (D.put dst val ccr)) :
    After ops Q (Op.add D dst src (bit 8 c)) :=
  h _ _ (carry_add (.inl rfl) _ _ _ _)

theorem addB {src dst : Reg8}
    (h : ∀ val ccr : Byte,
      val.toNat + 256 * carry ccr =
        (D.reg dst).toNat + (D.reg src).toNat →
      After ops Q (D.put dst val ccr)) :
    After (.addB src dst :: ops) Q D :=
  cons (add (D.reg src) false h)

theorem addBI {val : Byte} {dst : Reg8}
    (h : ∀ sum ccr : Byte,
      sum.toNat + 256 * carry ccr = (D.reg dst).toNat + val.toNat →
      After ops Q (D.put dst sum ccr)) :
    After (.addBI val dst :: ops) Q D :=
  cons (add val false h)

theorem addX {src dst : Reg8}
    (h : ∀ val ccr : Byte,
      val.toNat + 256 * carry ccr =
        (D.reg dst).toNat + (D.reg src).toNat + carry D.ccr →
      After ops Q (D.put dst val ccr)) :
    After (.addX src dst :: ops) Q D := by
  apply cons
  rw [Op.exec, and_one_eq_bit]
  rw [carry_eq] at h
  exact add (D.reg src) _ h

theorem addXI {val : Byte} {dst : Reg8}
    (h : ∀ sum ccr : Byte,
      sum.toNat + 256 * carry ccr =
        (D.reg dst).toNat + val.toNat + carry D.ccr →
      After ops Q (D.put dst sum ccr)) :
    After (.addXI val dst :: ops) Q D := by
  apply cons
  rw [Op.exec, and_one_eq_bit]
  rw [carry_eq] at h
  exact add val _ h

theorem addW {src dst : Reg16}
    (h : ∀ high low ccr : Byte,
      256 * high.toNat + low.toNat + 65536 * carry ccr =
        (D.word dst).toNat + (D.word src).toNat →
      After ops Q (D.put2 dst high low ccr)) :
    After (.addW src dst :: ops) Q D := by
  have hsum := carry_add (.inr rfl) (D.word dst) (D.word src) false D.ccr
  rw [bit_false, show (0 : Word) = 0#16 from rfl, BitVec.add_zero] at hsum
  apply cons
  apply putWord
  intro high low hval
  apply h
  rw [hval]
  exact hsum

theorem addS {dst : Reg16}
    (h : ∀ high low : Byte,
      256 * high.toNat + low.toNat = ((D.word dst).toNat + 1) % 65536 →
      After ops Q (D.put2 dst high low D.ccr)) :
    After (.addS dst :: ops) Q D := by
  apply cons
  apply putWord
  intro high low hval
  apply h
  rw [hval, BitVec.toNat_add]
  rfl

theorem subWFlags_carry (D : Data) (src dst : Reg16) :
    (D.word dst - D.word src).toNat + (D.word src).toNat =
      (D.word dst).toNat + 65536 * carry (Op.subWFlags D src dst) := by
  have hdiff := carry_sub (.inr rfl) (D.word dst) (D.word src) false D.ccr
  rw [bit_false, show (0 : Word) = 0#16 from rfl, BitVec.sub_zero] at hdiff
  exact hdiff

theorem subW {src dst : Reg16}
    (h : ∀ high low ccr : Byte,
      256 * high.toNat + low.toNat + (D.word src).toNat =
        (D.word dst).toNat + 65536 * carry ccr →
      After ops Q (D.put2 dst high low ccr)) :
    After (.subW src dst :: ops) Q D := by
  apply cons
  apply putWord
  intro high low hval
  apply h
  rw [hval]
  exact subWFlags_carry D src dst

theorem cmpW {src dst : Reg16}
    (h : ∀ ccr : Byte,
      carry ccr = (if (D.word dst).toNat < (D.word src).toNat then 1 else 0) →
      After ops Q (D.setCcr ccr)) :
    After (.cmpW src dst :: ops) Q D := by
  have hdiff := subWFlags_carry D src dst
  have hcarry := carry_le (Op.subWFlags D src dst)
  have hlt := (D.word dst - D.word src).isLt
  have hsrc := (D.word src).isLt
  apply cons
  apply h
  split <;> omega

theorem subX {src dst : Reg8}
    (h : ∀ val ccr : Byte,
      val.toNat + (D.reg src).toNat + carry D.ccr =
        (D.reg dst).toNat + 256 * carry ccr →
      After ops Q (D.put dst val ccr)) :
    After (.subX src dst :: ops) Q D := by
  have hkeep : ∀ old new : Byte,
      carry (new &&& (old ||| ~~~4)) = carry new := by
    intro old new
    rw [carry, carry, BitVec.and_assoc]
    congr 2
    revert old
    decide +kernel
  have hdiff := carry_sub (.inl rfl) (D.reg dst) (D.reg src)
    (D.ccr.getLsbD 0) D.ccr
  rw [← and_one_eq_bit, ← carry_eq] at hdiff
  apply cons
  apply h
  rw [hkeep]
  exact hdiff

theorem cmpBI {val : Byte} {dst : Reg8}
    (h : ∀ ccr : Byte,
      (Cond.ne.taken ccr = true ↔ D.reg dst ≠ val) →
      After ops Q (D.setCcr ccr)) :
    After (.cmpBI val dst :: ops) Q D := by
  apply cons
  apply h
  rw [setHNZVC_eq (.inl rfl), (carry_flags _ _).2, bitFlags,
    decide_eq_false_iff_not, BitVec.sub_eq_iff_eq_add]
  simp

theorem mulXU {src : Reg8} {dst : Reg16}
    (h : ∀ high low : Byte,
      256 * high.toNat + low.toNat =
        (D.reg (.l dst)).toNat * (D.reg src).toNat →
      After ops Q (D.put2 dst high low D.ccr)) :
    After (.mulXU src dst :: ops) Q D := by
  have hlt : (D.reg (.l dst)).toNat * (D.reg src).toNat < 65536 :=
    Nat.mul_lt_mul'' (D.reg (.l dst)).isLt (D.reg src).isLt
  apply cons
  apply putWord
  intro high low hval
  apply h
  rw [hval, BitVec.toNat_mul, BitVec.toNat_setWidth_of_le (by omega),
    BitVec.toNat_setWidth_of_le (by omega), Nat.mod_eq_of_lt hlt]

/-- The quotient keeps its lower byte only. -/
theorem divXU {src : Reg8} {dst : Reg16} (hsrc : D.reg src ≠ 0)
    (h : ∀ high low ccr : Byte, carry ccr = carry D.ccr →
      low.toNat = (D.word dst).toNat / (D.reg src).toNat % 256 →
      high.toNat = (D.word dst).toNat % (D.reg src).toNat →
      After ops Q (D.put2 dst high low ccr)) :
    After (.divXU src dst :: ops) Q D := by
  have hcarry : ∀ val old : Byte,
      carry ((old &&& 0xf3) ||| ((val >>> 4) &&& 0x08)) = carry old := by
    intro val old
    have hbit : (val >>> 4) &&& 0x08 = 0 ∨ (val >>> 4) &&& 0x08 = 0x08 := by
      revert val
      decide +kernel
    revert old
    rcases hbit with hbit | hbit <;> rw [hbit] <;> decide +kernel
  have hpos : 0 < (D.reg src).toNat := by
    rw [Nat.pos_iff_ne_zero]
    intro hzero
    exact hsrc (BitVec.eq_of_toNat_eq hzero)
  have hlt : (D.word dst).toNat % (D.reg src).toNat < 256 :=
    (Nat.mod_lt _ hpos).trans (D.reg src).isLt
  have hmask : ∀ val : Word, (val &&& ((255 : ℕ) : Word)).toNat =
      val.toNat % 256 := by
    intro val
    rw [BitVec.toNat_and]
    exact Nat.and_two_pow_sub_one_eq_mod _ 8
  apply cons
  rw [Op.exec, if_neg hsrc]
  apply putWord
  intro high low hval
  rw [BitVec.toNat_add, hmask, BitVec.toNat_udiv, BitVec.toNat_shiftLeft,
    BitVec.toNat_umod, BitVec.toNat_setWidth_of_le (by omega),
    Nat.shiftLeft_eq] at hval
  have hhigh := high.isLt
  have hlow := low.isLt
  have hquot : (D.word dst).toNat / (D.reg src).toNat % 256 < 256 :=
    Nat.mod_lt _ (by omega)
  apply h _ _ _ (hcarry _ _) <;> omega

theorem rotxl {dst : Reg8}
    (h : ∀ val ccr : Byte,
      val.toNat + 256 * carry ccr = 2 * (D.reg dst).toNat + carry D.ccr →
      After ops Q (D.put dst val ccr)) :
    After (.rotxl dst :: ops) Q D := by
  have hval : ∀ val : Byte, ∀ c : Bool,
      ((val <<< 1) ||| bit 8 c).toNat + 256 * (val >>> 7).toNat =
        2 * val.toNat + c.toNat := by
    decide +kernel
  have hmask : ∀ val : Byte, ∀ old : Byte,
      ((old &&& 0xf0) ||| (val >>> 7)) &&& 0x0c = 0 ∧
        carry ((old &&& 0xf0) ||| (val >>> 7)) = (val >>> 7).toNat := by
    intro val
    have hbit : val >>> 7 = 0 ∨ val >>> 7 = 1 := by
      revert val
      decide +kernel
    rcases hbit with hbit | hbit
    · rw [hbit]
      decide +kernel
    · rw [hbit]
      decide +kernel
  obtain ⟨hflags, hcarry⟩ := hmask (D.reg dst) D.ccr
  apply cons
  apply h
  rw [(shows_setNZ (by omega) _ _ hflags).carry, hcarry, carry_eq,
    and_one_eq_bit]
  exact hval _ _

theorem dec {dst : Reg8}
    (h : ∀ val ccr : Byte, val = D.reg dst - 1 → Shows val D.ccr ccr →
      After ops Q (D.put dst val ccr)) :
    After (.dec dst :: ops) Q D := by
  have hkeep : ∀ ccr : Byte, carry (ccr ||| 0x02) = carry ccr ∧
      Cond.ne.taken (ccr ||| 0x02) = Cond.ne.taken ccr ∧
      Cond.pl.taken (ccr ||| 0x02) = Cond.pl.taken ccr := by
    decide +kernel
  have hshows := shows_setNZV (by omega) (D.reg dst - 1) D.ccr
  apply cons
  apply h _ _ rfl
  split
  · obtain ⟨hcarry, hne, hpl⟩ := hkeep (setNZV (D.reg dst - 1) D.ccr)
    exact ⟨hcarry.trans hshows.carry, by rw [hne]; exact hshows.ne,
      by rw [hpl]; exact hshows.pl⟩
  · exact hshows

end After

theorem word_ne_zero {D : Data} {r : Reg16} (h : D.word r ≠ 0)
    (hhigh : D.reg (.h r) = 0) : D.reg (.l r) ≠ 0 := by
  intro hlow
  apply h
  rw [Data.word, hhigh, hlow]
  rfl

theorem toNat_ne_zero {x : Word} (hx : x ≠ 0) : x.toNat ≠ 0 :=
  fun hzero => hx (BitVec.eq_of_toNat_eq hzero)

namespace Data

variable (D : Data)

@[simp] theorem pushWord_ccr (val : Word) : (D.pushWord val).ccr = D.ccr := rfl

@[simp] theorem pushWord_reg_h (val : Word) {x : Reg16} (hx : x ≠ .r7) :
    (D.pushWord val).reg (.h x) = D.reg (.h x) := by
  simp [pushWord, putWord, hx]

@[simp] theorem pushWord_reg_l (val : Word) {x : Reg16} (hx : x ≠ .r7) :
    (D.pushWord val).reg (.l x) = D.reg (.l x) := by
  simp [pushWord, putWord, hx]

theorem word_putWord (r : Reg16) (val : Word) (ccr : Byte) :
    (D.putWord r val ccr).word r = val := by
  simp [word, putWord, highByte_append_lowByte]

@[simp] theorem pushWord_sp (val : Word) :
    (D.pushWord val).word .r7 = D.word .r7 - 2 :=
  word_putWord ..

theorem pushWord_word (val : Word) {r : Reg16} (hr : r ≠ .r7) :
    (D.pushWord val).word r = D.word r := by
  rw [word, pushWord_reg_h _ _ hr, pushWord_reg_l _ _ hr]
  rfl

@[simp] theorem dropWord_sp : D.dropWord.word .r7 = D.word .r7 + 2 :=
  word_putWord ..

@[simp] theorem dropWord_ccr : D.dropWord.ccr = D.ccr := rfl
@[simp] theorem dropWord_ram : D.dropWord.ram = D.ram := rfl

@[simp] theorem dropWord_reg_h {x : Reg16} (hx : x ≠ .r7) :
    D.dropWord.reg (.h x) = D.reg (.h x) := by
  simp [dropWord, putWord, hx]

@[simp] theorem dropWord_reg_l {x : Reg16} (hx : x ≠ .r7) :
    D.dropWord.reg (.l x) = D.reg (.l x) := by
  simp [dropWord, putWord, hx]

theorem dropWord_word {r : Reg16} (hr : r ≠ .r7) :
    D.dropWord.word r = D.word r := by
  rw [word, D.dropWord_reg_h hr, D.dropWord_reg_l hr]
  rfl

theorem pushWord_top (val : Word) : (D.pushWord val).top = val := by
  have hne : D.word .r7 - 2 ≠ D.word .r7 - 2 + 1 := by bv_omega
  rw [top, pushWord_sp, Ram.get16]
  change (D.ram.set16 (D.word .r7 - 2) val (D.word .r7 - 2) : Byte) ++
    (D.ram.set16 (D.word .r7 - 2) val (D.word .r7 - 2 + 1) : Byte) = val
  rw [Ram.set16, Ram.set_self, Ram.set_of_ne hne, Ram.set_self]
  exact highByte_append_lowByte val

/-- The words that lie in memory from an address on. -/
def Holds (m : Ram) : Word → List Word → Prop
  | _, [] => True
  | addr, val :: vals => m.get16 addr = val ∧ Holds m (addr + 2) vals

/-- The words on top of the stack. -/
def Stack (vals : List Word) : Prop :=
  Holds D.ram (D.word .r7) vals

variable {D} {vals : List Word}

theorem Holds.set16 {m : Ram} {addr sp : Word} (val : Word) (n : ℕ)
    (hm : Holds m addr vals) (haddr : (addr - sp).toNat = n)
    (hroom : n + 2 * vals.length < 65535) :
    Holds (m.set16 (sp - 2) val) addr vals := by
  induction vals generalizing addr n with
  | nil => trivial
  | cons top vals ih =>
      rw [List.length_cons] at hroom
      obtain ⟨htop, hrest⟩ := hm
      refine ⟨?_, ih (n + 2) hrest (by bv_omega) (by omega)⟩
      rw [← htop, Ram.get16, Ram.get16,
        Ram.set16_of_ne (by bv_omega) (by bv_omega),
        Ram.set16_of_ne (by bv_omega) (by bv_omega)]

theorem Stack.pushWord (val : Word) (h : D.Stack vals)
    (hroom : vals.length < 32767) :
    (D.pushWord val).Stack (val :: vals) := by
  have hback : D.word .r7 - 2 + 2 = D.word .r7 := by bv_omega
  refine ⟨D.pushWord_top val, ?_⟩
  rw [pushWord_sp, hback]
  apply Holds.set16 val 0 h
  · rw [BitVec.sub_self]
    rfl
  · omega

theorem Stack.top_eq {val : Word} (h : D.Stack (val :: vals)) :
    D.top = val :=
  h.1

theorem Stack.dropWord {val : Word} (h : D.Stack (val :: vals)) :
    D.dropWord.Stack vals := by
  rw [Stack, dropWord_sp]
  exact h.2

/-- Another state with the same stack. -/
def Keeps (D D' : Data) : Prop :=
  D'.ram = D.ram ∧ D'.word .r7 = D.word .r7

theorem Keeps.stack {D' : Data} (hkeeps : D.Keeps D') (h : D.Stack vals) :
    D'.Stack vals := by
  rw [Stack, hkeeps.1, hkeeps.2]
  exact h

theorem Keeps.trans {D' D'' : Data} (h : D.Keeps D') (h' : D'.Keeps D'') :
    D.Keeps D'' :=
  ⟨h'.1.trans h.1, h'.2.trans h.2⟩

end Data

namespace After

variable {ops : List Op} {Q : Data → Prop} {D : Data}

theorem push {src : Reg16}
    (h : ∀ ccr, carry ccr = carry D.ccr →
      After ops Q ((D.pushWord (D.word src)).setCcr ccr)) :
    After (.push src :: ops) Q D :=
  h _ (shows_setNZV (by omega) _ _).carry

theorem pop {dst : Reg16}
    (h : ∀ high low ccr : Byte, carry ccr = carry D.ccr →
      high ++ low = D.top → After ops Q (D.dropWord.put2 dst high low ccr)) :
    After (.pop dst :: ops) Q D :=
  h _ _ _ (shows_setNZV (by omega) _ _).carry (highByte_append_lowByte _)

end After

theorem After.negWord {r : Reg16} {ops : List Op} {Q : Data → Prop} {D : Data}
    (h : ∀ high low ccr : Byte, carry ccr = carry D.ccr →
      high ++ low = -D.word r → After ops Q (D.put2 r high low ccr)) :
    After (Rom.negWord r ++ ops) Q D := by
  apply After.notB
  intro v₁ c₁ hv₁ hc₁
  apply After.notB
  intro v₂ c₂ hv₂ hc₂
  apply After.addS
  intro high low hsum
  have hput : ((D.put (.h r) v₁ c₁).put (.l r) v₂ c₂).put2 r high low c₂ =
      D.put2 r high low c₂ := by
    refine Data.ext ?_ rfl rfl
    funext x
    simp only [Data.put2_reg, Data.put_reg]
    by_cases hlow : x = .l r
    · rw [if_pos hlow, if_pos hlow]
    · by_cases hhigh : x = .h r
      · rw [if_neg hlow, if_pos hhigh, if_neg hlow, if_pos hhigh]
      · simp only [hlow, hhigh, if_false]
  rw [Data.put_ccr, hput]
  apply h
  · exact hc₂.trans hc₁
  · simp only [Data.toNat_word, Data.put_reg, reduceCtorEq, if_false,
      if_true] at hv₂ hsum
    have hword := D.toNat_word r
    apply BitVec.eq_of_toNat_eq
    rw [toNat_append, BitVec.toNat_neg]
    omega

theorem After.negLong {high low : Reg16} {ops : List Op} {Q : Data → Prop}
    {D : Data} (hne : high ≠ low)
    (h : ∀ D', D'.ram = D.ram → D'.long high low = -D.long high low →
      (∀ x, x ≠ high → x ≠ low → D'.word x = D.word x) → After ops Q D') :
    After (Rom.negLong high low ++ ops) Q D := by
  apply After.notB
  intro v₁ c₁ hv₁ _
  apply After.notB
  intro v₂ c₂ hv₂ _
  apply After.notB
  intro v₃ c₃ hv₃ _
  apply After.notB
  intro v₄ c₄ hv₄ _
  apply After.addBI
  intro s₁ k₁ hs₁
  apply After.addXI
  intro s₂ k₂ hs₂
  apply After.addXI
  intro s₃ k₃ hs₃
  apply After.addXI
  intro s₄ k₄ hs₄
  have hone : (1 : Byte).toNat = 1 := rfl
  have hzero : (0 : Byte).toNat = 0 := rfl
  simp only [Data.put_reg, Data.put_ccr, reduceCtorEq, if_false, if_true,
    Reg8.h.injEq, Reg8.l.injEq, hne, hne.symm, hone, hzero]
    at hv₁ hv₂ hv₃ hv₄ hs₁ hs₂ hs₃ hs₄
  apply h
  · rfl
  · apply BitVec.eq_of_toNat_eq
    rw [BitVec.toNat_neg, Data.toNat_long, Data.toNat_long, Data.toNat_word,
      Data.toNat_word, Data.toNat_word, Data.toNat_word]
    simp only [Data.put_reg, reduceCtorEq, if_false, if_true, Reg8.h.injEq,
      Reg8.l.injEq, hne, hne.symm]
    have h₁ := s₁.isLt
    have h₂ := s₂.isLt
    have h₃ := s₃.isLt
    have h₄ := s₄.isLt
    have b₁ := (D.reg (.l low)).isLt
    have b₂ := (D.reg (.h low)).isLt
    have b₃ := (D.reg (.l high)).isLt
    have b₄ := (D.reg (.h high)).isLt
    have hcarry := carry_le k₄
    have hsum : 16777216 * s₄.toNat + 65536 * s₃.toNat + 256 * s₂.toNat +
        s₁.toNat + 4294967296 * carry k₄ + (16777216 * (D.reg (.h high)).toNat +
        65536 * (D.reg (.l high)).toNat + 256 * (D.reg (.h low)).toNat +
        (D.reg (.l low)).toNat) = 4294967296 := by
      omega
    clear hv₁ hv₂ hv₃ hv₄ hs₁ hs₂ hs₃ hs₄
    omega
  · intro x hxhigh hxlow
    simp [Data.word, hxhigh, hxlow]

/-- A move of a register to itself only shows its value. -/
theorem After.testW {r : Reg16} {ops : List Op} {Q : Data → Prop} {D : Data}
    (h : ∀ ccr, Shows (D.word r) D.ccr ccr → After ops Q (D.setCcr ccr)) :
    After (.movW r r :: ops) Q D := by
  apply After.movW_shows
  rintro high low ccr rfl rfl hshows
  have hput : D.put2 r (D.reg (.h r)) (D.reg (.l r)) ccr = D.setCcr ccr := by
    refine Data.ext ?_ rfl rfl
    funext x
    rw [Data.put2_reg]
    split
    case isTrue hlow => rw [hlow]; rfl
    case isFalse =>
      split
      case isTrue hhigh => rw [hhigh]; rfl
      case isFalse => rfl
  rw [hput]
  exact h ccr hshows

theorem Shows.mi {w : ℕ} {val : BitVec w} {old new : Byte}
    (h : Shows val old new) : Cond.mi.taken new = true ↔ val.msb = true := by
  have hmi : ∀ ccr : Byte, Cond.mi.taken ccr = !Cond.pl.taken ccr := by
    decide +kernel
  have hpl := h.pl
  rw [hmi]
  cases hmsb : val.msb <;> simp_all

/-- The instructions stand in the code from `pc` up to `next`. -/
def Straight (next : Word) : Word → List Op → Prop
  | pc, [] => pc = next
  | pc, o :: ops => code pc = some (.op o) ∧ Straight next (pc + 2) ops

instance Straight.decidable (next : Word) :
    ∀ (pc : Word) (ops : List Op), Decidable (Straight next pc ops)
  | pc, [] => inferInstanceAs (Decidable (pc = next))
  | pc, _ :: ops =>
      have := Straight.decidable next (pc + 2) ops
      inferInstanceAs (Decidable (_ ∧ _))

/-- The code returns from an address in a state that satisfies `Q`. -/
def Ends (pc : Word) (D : Data) (Q : Word → Data → Prop) : Prop :=
  ∃ pc' D', Runs pc D pc' D' ∧ Q pc' D'

namespace Ends

variable {pc : Word} {D : Data} {Q : Word → Data → Prop}

theorem mono {Q' : Word → Data → Prop} (h : Ends pc D Q)
    (hQ : ∀ pc' D', Q pc' D' → Q' pc' D') : Ends pc D Q' := by
  obtain ⟨pc', D', hruns, hq⟩ := h
  exact ⟨pc', D', hruns, hQ pc' D' hq⟩

theorem block (next : Word) (ops : List Op) (hops : Straight next pc ops)
    (h : After ops (fun D' => Ends next D' Q) D) : Ends pc D Q := by
  induction ops generalizing pc D with
  | nil =>
      obtain rfl : pc = next := hops
      exact h
  | cons o ops ih =>
      obtain ⟨pc', D', hruns, hq⟩ := ih hops.2 h
      exact ⟨pc', D', .op hops.1 hruns, hq⟩

theorem taken {cond : Cond} {target : Word}
    (hline : code pc = some (.branch cond target))
    (hcond : cond.taken D.ccr = true) (h : Ends target D Q) : Ends pc D Q := by
  obtain ⟨pc', D', hruns, hq⟩ := h
  refine ⟨pc', D', .branch hline ?_, hq⟩
  rw [if_pos hcond]
  exact hruns

theorem passed {cond : Cond} {target : Word}
    (hline : code pc = some (.branch cond target))
    (hcond : ¬cond.taken D.ccr = true) (h : Ends (pc + 2) D Q) :
    Ends pc D Q := by
  obtain ⟨pc', D', hruns, hq⟩ := h
  refine ⟨pc', D', .branch hline ?_, hq⟩
  rw [if_neg hcond]
  exact hruns

section Tests

variable {w : ℕ} {val : BitVec w} {old : Byte} {target : Word}

theorem branch_ne (hline : code pc = some (.branch .ne target))
    (hshows : Shows val old D.ccr) (hne : val ≠ 0 → Ends target D Q)
    (heq : val = 0 → Ends (pc + 2) D Q) : Ends pc D Q := by
  by_cases hval : val = 0
  · exact passed hline (fun h => hshows.ne.mp h hval) (heq hval)
  · exact taken hline (hshows.ne.mpr hval) (hne hval)

theorem branch_pl (hline : code pc = some (.branch .pl target))
    (hshows : Shows val old D.ccr) (hpl : val.msb = false → Ends target D Q)
    (hmi : val.msb = true → Ends (pc + 2) D Q) : Ends pc D Q := by
  cases hval : val.msb with
  | false => exact taken hline (hshows.pl.mpr hval) (hpl hval)
  | true =>
      apply passed hline _ (hmi hval)
      rw [hshows.pl, hval]
      decide

theorem branch_mi (hline : code pc = some (.branch .mi target))
    (hshows : Shows val old D.ccr) (hmi : val.msb = true → Ends target D Q)
    (hpl : val.msb = false → Ends (pc + 2) D Q) : Ends pc D Q := by
  cases hval : val.msb with
  | true => exact taken hline (hshows.mi.mpr hval) (hmi hval)
  | false =>
      apply passed hline _ (hpl hval)
      rw [hshows.mi, hval]
      exact Bool.false_ne_true

end Tests

theorem bsr {target : Word} (hline : code pc = some (.bsr target))
    (h : Ends target (D.pushWord (pc + 2)) fun pc₁ D₁ => Ends pc₁ D₁ Q) :
    Ends pc D Q := by
  obtain ⟨pc₁, D₁, hcall, pc', D', hrest, hq⟩ := h
  exact ⟨pc', D', .bsr hline hcall hrest, hq⟩

theorem rts (hline : code pc = some .rts) (h : Q D.top D.dropWord) :
    Ends pc D Q :=
  ⟨_, _, .rts hline, h⟩

/-- The registers a routine saves come back before it returns. -/
theorem pop {r : Reg16} (hr : r ≠ .r7)
    (hline : code pc = some (.op (.pop r)))
    (h : ∀ D₁, D₁.ram = D.ram → D₁.word .r7 = D.word .r7 + 2 →
      D₁.word r = D.top →
      (∀ x, x ≠ r → x ≠ .r7 → D₁.word x = D.word x) →
      Ends (pc + 2) D₁ Q) : Ends pc D Q := by
  apply block (pc + 2) [.pop r] ⟨hline, rfl⟩
  apply After.pop
  intro high low ccr _ htop
  apply After.nil
  apply h (D.dropWord.put2 r high low ccr) rfl
  · rw [← D.dropWord_sp, Data.word, Data.word]
    simp [hr.symm]
  · rw [Data.word, ← htop]
    simp
  · intro x hxr hx7
    simp [Data.word, hxr, hx7]

/-- Two words pushed, three popped. -/
theorem sp_back (sp : Word) : sp - 2 - 2 + 2 + 2 + 2 = sp + 2 := by
  rw [BitVec.sub_add_cancel, BitVec.sub_add_cancel]

/-- `pop r1`, `pop r0` and the return. -/
theorem popBoth {ret val₀ val₁ : Word}
    (hpop₁ : code pc = some (.op (.pop .r1)))
    (hpop₀ : code (pc + 2) = some (.op (.pop .r0)))
    (hrts : code (pc + 2 + 2) = some .rts)
    (hstack : D.Stack [val₁, val₀, ret])
    (h : ∀ D', D'.ram = D.ram → D'.word .r7 = D.word .r7 + 2 + 2 + 2 →
      D'.word .r0 = val₀ → D'.word .r1 = val₁ →
      (∀ x, x ≠ .r0 → x ≠ .r1 → x ≠ .r7 → D'.word x = D.word x) →
      Q ret D') : Ends pc D Q := by
  obtain ⟨htop, hsecond, hthird, -⟩ := hstack
  apply pop (by decide) hpop₁
  intro D₁ hram₁ hsp₁ hr1 hkept₁
  apply pop (by decide) hpop₀
  intro D₂ hram₂ hsp₂ hr0 hkept₂
  rw [Data.top, hram₁, hsp₁, hsecond] at hr0
  have hret : D₂.top = ret := by
    rw [Data.top, hram₂, hram₁, hsp₂, hsp₁, hthird]
  apply rts hrts
  rw [hret]
  apply h
  · rw [Data.dropWord_ram, hram₂, hram₁]
  · rw [Data.dropWord_sp, hsp₂, hsp₁]
  · rw [D₂.dropWord_word (by decide), hr0]
  · rw [D₂.dropWord_word (by decide), hkept₂ .r1 (by decide) (by decide), hr1]
    exact htop
  · intro x hx0 hx1 hx7
    rw [D₂.dropWord_word hx7, hkept₂ x hx0 hx7, hkept₁ x hx1 hx7]

end Ends

/-- The routine comes back to its caller, with its stack and with `P`. -/
def Contract (entry : Word) (P : Data → Data → Prop) (D : Data) : Prop :=
  ∀ ret vals, D.Stack (ret :: vals) → vals.length ≤ 2 →
    Ends entry D fun pc' D' => pc' = ret ∧ D'.Stack vals ∧
      D'.word .r7 = D.word .r7 + 2 ∧ P D D'

namespace Ends

variable {pc : Word} {D : Data} {Q : Word → Data → Prop}

/-- The state behind a call, on the stack of the caller. -/
theorem call {target : Word} {P : Data → Data → Prop} {vals : List Word}
    (hline : code pc = some (.bsr target))
    (hcall : Contract target P (D.pushWord (pc + 2)))
    (hstack : D.Stack vals) (hroom : vals.length ≤ 2)
    (h : ∀ D₁, D₁.Stack vals → D₁.word .r7 = D.word .r7 →
      P (D.pushWord (pc + 2)) D₁ → Ends (pc + 2) D₁ Q) : Ends pc D Q := by
  apply bsr hline
  apply (hcall _ _ (hstack.pushWord _ (by omega)) hroom).mono
  rintro pc₁ D₁ ⟨rfl, hstack₁, hsp, hpost⟩
  rw [Data.pushWord_sp] at hsp
  apply h D₁ hstack₁ _ hpost
  rw [hsp]
  bv_omega

theorem unique {Q' : Word → Data → Prop} (h : Ends pc D Q)
    (h' : Ends pc D Q') : Ends pc D fun pc' D' => Q pc' D' ∧ Q' pc' D' := by
  obtain ⟨pc₁, D₁, hruns, hq⟩ := h
  obtain ⟨pc₂, D₂, hruns', hq'⟩ := h'
  obtain ⟨rfl, rfl⟩ := hruns.unique hruns'
  exact ⟨pc₁, D₁, hruns, hq, hq'⟩

/-- A loop of `w` rounds, by induction on those that are left: `head` starts a
round, `mid` counts it and `next` follows the last one. -/
theorem rounds {w : ℕ} {Inv : ℕ → ℕ → Data → Prop} {head mid next : Word}
    (hround : ∀ j k D, j < w → Inv j k D →
      (∀ D', Inv (j + 1) k D' → Ends mid D' Q) → Ends head D Q)
    (hcount : ∀ j k D, Inv j (k + 1) D →
      (k ≠ 0 → ∀ D', Inv j k D' → Ends head D' Q) →
      (k = 0 → ∀ D', Inv j 0 D' → Ends next D' Q) → Ends mid D Q)
    {j k : ℕ} (hj : j + (k + 1) = w) (hinv : Inv j (k + 1) D)
    (h : ∀ D', Inv w 0 D' → Ends next D' Q) : Ends head D Q := by
  induction k generalizing j D with
  | zero =>
      apply hround j 1 D (by omega) hinv
      intro D₁ hinv₁
      apply hcount (j + 1) 0 D₁ hinv₁
      · intro hne
        exact absurd rfl hne
      · intro _ D₂ hinv₂
        rw [show j + 1 = w by omega] at hinv₂
        exact h D₂ hinv₂
  | succ k ih =>
      apply hround j (k + 1 + 1) D (by omega) hinv
      intro D₁ hinv₁
      apply hcount (j + 1) (k + 1) D₁ hinv₁
      · intro _ D₂ hinv₂
        exact ih (by omega) hinv₂
      · intro hzero
        omega

end Ends

end Rom

end BrickEmu
