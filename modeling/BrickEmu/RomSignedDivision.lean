import BrickEmu.RomLongDivision

/-!
# When the 32-bit division of the ROM is exact

`udivmodsi3` chooses one of three ways by the size of the divisor, and
`divmodsi3` calls it with the magnitudes of its operands.  A division goes
wrong where the 16-bit remainder of the second way loses its top bit.
-/

namespace BrickEmu

namespace Rom

open RestoringDivision

variable {D : Data} {n d : ℕ}

/-- What `udivmodsi3` leaves in `r5:r6` and in `r3:r4`. -/
def quotient32 (n d : ℕ) : ℕ :=
  if 256 ≤ d ∧ d < 65536 then (rounds 32768 d n 24 24).quotient else n / d

def remainder32 (n d : ℕ) : ℕ :=
  if 256 ≤ d ∧ d < 65536 then (rounds 32768 d n 24 24).remainder else n % d

/-- No remainder on the way needs more than 15 bits, or the divisor has more
than 16. -/
def Narrow (n d : ℕ) : Prop :=
  65536 ≤ d ∨ ∀ j, 1 ≤ j → j ≤ 24 → n / 2 ^ j % d < 32768

theorem narrow_shifted (n d : ℕ) :
    (∀ j, 1 ≤ j → j ≤ 24 → n / 2 ^ j % d < 32768) ↔
      ∀ j < 24, shifted n 24 j % d < 32768 := by
  constructor
  · intro h j hj
    exact h (24 - j) (by omega) (by omega)
  · intro h j hpos hle
    have hshifted := h (24 - j) (by omega)
    rwa [shifted, show 24 - (24 - j) = j by omega] at hshifted

theorem narrow_of_small (hpos : 0 < d) (hd : d < 256) : Narrow n d := by
  right
  intro j _ _
  have hlt := Nat.mod_lt (n / 2 ^ j) hpos
  omega

theorem quotient32_iff (hpos : 0 < d) (hn : n < 4294967296) :
    quotient32 n d = n / d ↔ Narrow n d := by
  rw [quotient32]
  by_cases hword : 256 ≤ d ∧ d < 65536
  · have hfirst : n / 2 ^ 24 < d := by omega
    rw [if_pos hword, rounds_quotient_iff hfirst (by omega), Narrow,
      narrow_shifted]
    constructor
    · exact .inr
    · rintro (hlarge | h)
      · omega
      · exact h
  · rw [if_neg hword]
    constructor
    · intro _
      by_cases hsmall : d < 256
      · exact narrow_of_small hpos hsmall
      · left
        omega
    · intro _
      rfl

theorem remainder32_of_narrow (hn : n < 4294967296) (h : Narrow n d) :
    remainder32 n d = n % d := by
  rw [remainder32]
  by_cases hword : 256 ≤ d ∧ d < 65536
  · have hfirst : n / 2 ^ 24 < d := by omega
    rw [if_pos hword]
    apply rounds_remainder hfirst
    rw [← narrow_shifted]
    rcases h with hlarge | h
    · omega
    · exact h
  · rw [if_neg hword]

/-- The third way has room for every remainder. -/
theorem rounds16_exact (hn : n < 4294967296) (hd : 65536 ≤ d)
    (hle : d < 4294967296) :
    rounds 2147483648 d n 16 16 = ⟨n % d, n / d⟩ := by
  have hfirst : n / 2 ^ 16 < d := by omega
  have hroom : ∀ j < 16, shifted n 16 j % d < 2147483648 := by
    intro j hj
    have hhalf : shifted n 16 j ≤ n / 2 := by
      rw [shifted]
      apply Nat.div_le_div_left _ (by omega)
      exact Nat.le_self_pow (by omega) 2
    have hmod := Nat.mod_le (shifted n 16 j) d
    omega
  rw [rounds_exact le_rfl hfirst hroom, shifted_all]

theorem udivmodsi3_ends (hd : D.long .r3 .r4 ≠ 0) :
    Ends udivmodsi3 D (Divided32 D
      (quotient32 (D.long .r5 .r6).toNat (D.long .r3 .r4).toNat)
      (remainder32 (D.long .r5 .r6).toNat (D.long .r3 .r4).toNat)) := by
  have hdivisor := D.toNat_long .r3 .r4
  have hlow := (D.word .r4).isLt
  have hr4 := D.toNat_word .r4
  have hr4l := (D.reg (.l .r4)).isLt
  apply Ends.block 0x308 [.movW .r3 .r3] (by decide)
  apply After.testW
  intro c₁ hc₁
  apply After.nil
  apply Ends.branch_ne rfl hc₁
  · intro hr3
    have hlarge : 65536 ≤ (D.long .r3 .r4).toNat := by
      have hpos := Nat.pos_of_ne_zero (toNat_ne_zero hr3)
      omega
    have hword : ¬(256 ≤ (D.long .r3 .r4).toNat ∧
        (D.long .r3 .r4).toNat < 65536) := by omega
    have hexact := rounds16_exact (D.long .r5 .r6).isLt hlarge
      (D.long .r3 .r4).isLt
    apply (divideLongLong_ends (D.setCcr c₁)).mono
    intro pc' D' hdivided
    refine Divided32.of_same (D := D) hdivided ⟨rfl, rfl⟩ rfl rfl ?_ ?_
    · rw [quotient32, if_neg hword]
      exact congrArg Partial.quotient hexact
    · rw [remainder32, if_neg hword]
      exact congrArg Partial.remainder hexact
  intro hr3
  have hr3h : D.reg (.h .r3) = 0 := by
    rw [← D.highByte_word, hr3]
    rfl
  have hzero : (D.word .r3).toNat = 0 := by
    rw [hr3]
    rfl
  apply Ends.block 0x30c [.cmpBI 0 (.h .r4)] (by decide)
  apply After.cmpBI
  intro c₂ hc₂
  apply After.nil
  by_cases hhigh : D.reg (.h .r4) = 0
  · have hr4h : (D.reg (.h .r4)).toNat = 0 := by
      rw [hhigh]
      rfl
    have hbyte : (D.long .r3 .r4).toNat = (D.reg (.l .r4)).toNat := by omega
    have hword : ¬(256 ≤ (D.long .r3 .r4).toNat ∧
        (D.long .r3 .r4).toNat < 65536) := by omega
    have hnonzero : D.reg (.l .r4) ≠ 0 := by
      intro hl
      apply hd
      apply BitVec.eq_of_toNat_eq
      rw [hbyte, hl]
      rfl
    apply Ends.passed rfl
    · intro htaken
      exact hc₂.mp htaken hhigh
    apply (divideLongByte_ends (D := (D.setCcr c₁).setCcr c₂) hnonzero hhigh
      hr3h).mono
    intro pc' D' hdivided
    refine Divided32.of_same (D := D) hdivided ⟨rfl, rfl⟩ rfl rfl ?_ ?_
    · rw [quotient32, if_neg hword, hbyte]
      rfl
    · rw [remainder32, if_neg hword, hbyte]
      rfl
  · have hr4h : (D.reg (.h .r4)).toNat ≠ 0 := by
      intro hz
      exact hhigh (BitVec.eq_of_toNat_eq hz)
    have hsame : (D.long .r3 .r4).toNat = (D.word .r4).toNat := by omega
    have hword : 256 ≤ (D.long .r3 .r4).toNat ∧
        (D.long .r3 .r4).toNat < 65536 := by omega
    apply Ends.taken rfl (hc₂.mpr hhigh)
    apply (divideLongWord_ends (D := (D.setCcr c₁).setCcr c₂) hr3h).mono
    intro pc' D' hdivided
    refine Divided32.of_same (D := D) hdivided ⟨rfl, rfl⟩ rfl rfl ?_ ?_
    · rw [quotient32, if_pos hword, hsame]
      rfl
    · rw [remainder32, if_pos hword, hsame]
      rfl

/-- The end of a division, with the results as double words. -/
structure Leaves32 (D : Data) (q r : BitVec 32) (pc' : Word) (D' : Data) :
    Prop where
  pc : pc' = D.top
  sp : D'.word .r7 = D.word .r7 + 2
  r0 : D'.word .r0 = D.word .r0
  r1 : D'.word .r1 = D.word .r1
  quotient : D'.long .r5 .r6 = q
  remainder : D'.long .r3 .r4 = r

/-- A state on the stack of `D`, with operands of its own. -/
structure Prepared32 (D : Data) (x y : BitVec 32) (D' : Data) : Prop where
  top : D'.top = D.top
  sp : D'.word .r7 = D.word .r7
  r0 : D'.word .r0 = D.word .r0
  r1 : D'.word .r1 = D.word .r1
  first : D'.long .r5 .r6 = x
  second : D'.long .r3 .r4 = y

namespace Prepared32

variable {D' : Data} {x y : BitVec 32}

theorem refl (D : Data) :
    Prepared32 D (D.long .r5 .r6) (D.long .r3 .r4) D :=
  ⟨rfl, rfl, rfl, rfl, rfl, rfl⟩

theorem test (h : Prepared32 D x y D') (ccr : Byte) :
    Prepared32 D x y (D'.setCcr ccr) :=
  ⟨h.top, h.sp, h.r0, h.r1, h.first, h.second⟩

/-- The negation of the first or the second operand. -/
theorem negFirst {ops : List Op} {Q : Data → Prop} (h : Prepared32 D x y D')
    (hrest : ∀ D₁, Prepared32 D (-x) y D₁ → After ops Q D₁) :
    After (negLong .r5 .r6 ++ ops) Q D' := by
  apply After.negLong (by decide)
  intro D₁ hram hneg hsame
  apply hrest
  have hsp := hsame .r7 (by decide) (by decide)
  refine ⟨?_, hsp.trans h.sp, ?_, ?_, ?_, ?_⟩
  · rw [← h.top, Data.top, hram, hsp]
    rfl
  · rw [hsame .r0 (by decide) (by decide), h.r0]
  · rw [hsame .r1 (by decide) (by decide), h.r1]
  · rw [hneg, h.first]
  · rw [← h.second, Data.long, hsame .r3 (by decide) (by decide),
      hsame .r4 (by decide) (by decide)]
    rfl

theorem negSecond {ops : List Op} {Q : Data → Prop} (h : Prepared32 D x y D')
    (hrest : ∀ D₁, Prepared32 D x (-y) D₁ → After ops Q D₁) :
    After (negLong .r3 .r4 ++ ops) Q D' := by
  apply After.negLong (by decide)
  intro D₁ hram hneg hsame
  apply hrest
  have hsp := hsame .r7 (by decide) (by decide)
  refine ⟨?_, hsp.trans h.sp, ?_, ?_, ?_, ?_⟩
  · rw [← h.top, Data.top, hram, hsp]
    rfl
  · rw [hsame .r0 (by decide) (by decide), h.r0]
  · rw [hsame .r1 (by decide) (by decide), h.r1]
  · rw [← h.first, Data.long, hsame .r5 (by decide) (by decide),
      hsame .r6 (by decide) (by decide)]
    rfl
  · rw [hneg, h.second]

theorem rts {pc : Word} (h : Prepared32 D x y D')
    (hline : code pc = some .rts) : Ends pc D' (Leaves32 D x y) := by
  apply Ends.rts hline
  refine ⟨h.top, ?_, ?_, ?_, ?_, ?_⟩
  · rw [Data.dropWord_sp, h.sp]
  · rw [D'.dropWord_word (by decide), h.r0]
  · rw [D'.dropWord_word (by decide), h.r1]
  · rw [Data.long, D'.dropWord_word (by decide), D'.dropWord_word (by decide),
      ← Data.long, h.first]
  · rw [Data.long, D'.dropWord_word (by decide), D'.dropWord_word (by decide),
      ← Data.long, h.second]

/-- The quotient and the remainder of the operands, as far as they are right. -/
theorem divide (h : Prepared32 D x y D') (hy : y ≠ 0) :
    Ends udivmodsi3 D' (Leaves32 D
      (BitVec.ofNat 32 (quotient32 x.toNat y.toNat))
      (BitVec.ofNat 32 (remainder32 x.toNat y.toNat))) := by
  have hends := udivmodsi3_ends (D := D') (h.second ▸ hy)
  rw [h.first, h.second] at hends
  apply hends.mono
  intro pc' D₁ hdivided
  refine ⟨hdivided.pc.trans h.top, ?_, hdivided.r0.trans h.r0,
    hdivided.r1.trans h.r1, ?_, ?_⟩
  · rw [hdivided.sp, h.sp]
  · rw [← hdivided.quotient, BitVec.ofNat_toNat, BitVec.setWidth_eq]
  · rw [← hdivided.remainder, BitVec.ofNat_toNat, BitVec.setWidth_eq]

theorem call {pc : Word} {Q : Word → Data → Prop} (h : Prepared32 D x y D')
    (hy : y ≠ 0) (hline : code pc = some (.bsr udivmodsi3))
    (hrest : ∀ D₁, Prepared32 D
      (BitVec.ofNat 32 (quotient32 x.toNat y.toNat))
      (BitVec.ofNat 32 (remainder32 x.toNat y.toNat)) D₁ →
      Ends (pc + 2) D₁ Q) : Ends pc D' Q := by
  have hstack : D'.Stack [D'.top] := ⟨rfl, trivial⟩
  have hpushed := hstack.pushWord (pc + 2) (by simp)
  have hlong : ∀ a b, a ≠ .r7 → b ≠ .r7 →
      (D'.pushWord (pc + 2)).long a b = D'.long a b := by
    intro a b ha hb
    rw [Data.long, D'.pushWord_word _ ha, D'.pushWord_word _ hb]
    rfl
  have hends := udivmodsi3_ends (D := D'.pushWord (pc + 2)) (by
    rw [hlong _ _ (by decide) (by decide), h.second]
    exact hy)
  rw [hlong _ _ (by decide) (by decide), hlong _ _ (by decide) (by decide),
    h.first, h.second] at hends
  apply Ends.bsr hline
  apply hends.mono
  intro pc₁ D₁ hdivided
  rw [hdivided.pc, Data.pushWord_top]
  have hstack₁ := hdivided.stack [D'.top] (by simp)
    ((D'.pushWord_top (pc + 2)).symm ▸ hpushed)
  apply hrest
  refine ⟨hstack₁.top_eq.trans h.top, ?_, ?_, ?_, ?_, ?_⟩
  · rw [hdivided.sp, Data.pushWord_sp, BitVec.sub_add_cancel, h.sp]
  · rw [hdivided.r0, D'.pushWord_word _ (by decide), h.r0]
  · rw [hdivided.r1, D'.pushWord_word _ (by decide), h.r1]
  · rw [← hdivided.quotient, BitVec.ofNat_toNat, BitVec.setWidth_eq]
  · rw [← hdivided.remainder, BitVec.ofNat_toNat, BitVec.setWidth_eq]

end Prepared32

theorem msb_long (D : Data) (high low : Reg16) :
    (D.long high low).msb = (D.word high).msb := by
  rw [Data.long, BitVec.msb_append]
  simp

/-- The results of `divmodsi3`, from the magnitudes of the operands. -/
def signedQuotient32 (x y : BitVec 32) : BitVec 32 :=
  signed (x.msb ^^ y.msb)
    (BitVec.ofNat 32 (quotient32 x.toInt.natAbs y.toInt.natAbs))

def signedRemainder32 (x y : BitVec 32) : BitVec 32 :=
  signed x.msb
    (BitVec.ofNat 32 (remainder32 x.toInt.natAbs y.toInt.natAbs))

section Signs

variable {x y : BitVec 32} {D' : Data}

theorem neg_ne_zero (hy : y ≠ 0) : -y ≠ 0 :=
  fun hzero => hy (BitVec.neg_eq_zero_iff.mp hzero)

/-- Both operands are negative, or the dividend alone. -/
theorem divmodsi3_minus (h : Prepared32 D x y D') (hx : x.msb = true)
    (hy : y ≠ 0) :
    Ends 0x272 D' (Leaves32 D (signedQuotient32 x y)
      (signedRemainder32 x y)) := by
  apply Ends.block 0x282 (negLong .r5 .r6) (by decide)
  apply h.negFirst
  intro D₁ h₁
  apply After.nil
  apply Ends.block 0x284 [.movW .r3 .r3] (by decide)
  apply After.testW
  intro c₂ hc₂
  have h₂ := h₁.test c₂
  apply After.nil
  have hmsb : (D₁.word .r3).msb = y.msb := by
    rw [← h₁.second, msb_long]
  apply Ends.branch_pl rfl hc₂
  · intro hpl
    rw [hmsb] at hpl
    apply h₂.call hy rfl
    intro D₃ h₃
    apply Ends.block 0x2ac (negLong .r5 .r6) (by decide)
    apply h₃.negFirst
    intro D₄ h₄
    apply After.nil
    apply Ends.block 0x2bc (negLong .r3 .r4) (by decide)
    apply h₄.negSecond
    intro D₅ h₅
    apply After.nil
    rw [signedQuotient32, signedRemainder32, hx, hpl, natAbs_of_mi hx,
      natAbs_of_pl hpl]
    exact h₅.rts rfl
  · intro hmi
    rw [hmsb] at hmi
    apply Ends.block 0x296 (negLong .r3 .r4) (by decide)
    apply h₂.negSecond
    intro D₃ h₃
    apply After.nil
    apply h₃.call (neg_ne_zero hy) rfl
    intro D₄ h₄
    apply Ends.taken rfl rfl
    apply Ends.block 0x2bc (negLong .r3 .r4) (by decide)
    apply h₄.negSecond
    intro D₅ h₅
    apply After.nil
    rw [signedQuotient32, signedRemainder32, hx, hmi, natAbs_of_mi hx,
      natAbs_of_mi hmi]
    exact h₅.rts rfl

/-- The dividend is positive. -/
theorem divmodsi3_plus (h : Prepared32 D x y D') (hx : x.msb = false)
    (hy : y ≠ 0) :
    Ends 0x2be D' (Leaves32 D (signedQuotient32 x y)
      (signedRemainder32 x y)) := by
  apply Ends.block 0x2c0 [.movW .r3 .r3] (by decide)
  apply After.testW
  intro c₁ hc₁
  have h₁ := h.test c₁
  apply After.nil
  have hmsb : (D'.word .r3).msb = y.msb := by
    rw [← h.second, msb_long]
  apply Ends.branch_pl rfl hc₁
  · intro hpl
    rw [hmsb] at hpl
    rw [signedQuotient32, signedRemainder32, hx, hpl, natAbs_of_pl hx,
      natAbs_of_pl hpl]
    exact h₁.divide hy
  · intro hmi
    rw [hmsb] at hmi
    apply Ends.block 0x2d2 (negLong .r3 .r4) (by decide)
    apply h₁.negSecond
    intro D₂ h₂
    apply After.nil
    apply h₂.call (neg_ne_zero hy) rfl
    intro D₃ h₃
    apply Ends.block 0x2e4 (negLong .r5 .r6) (by decide)
    apply h₃.negFirst
    intro D₄ h₄
    apply After.nil
    rw [signedQuotient32, signedRemainder32, hx, hmi, natAbs_of_pl hx,
      natAbs_of_mi hmi]
    exact h₄.rts rfl

end Signs

theorem divmodsi3_ends (hd : D.long .r3 .r4 ≠ 0) :
    Ends divmodsi3 D (Leaves32 D
      (signedQuotient32 (D.long .r5 .r6) (D.long .r3 .r4))
      (signedRemainder32 (D.long .r5 .r6) (D.long .r3 .r4))) := by
  apply Ends.block 0x270 [.movW .r5 .r5] (by decide)
  apply After.testW
  intro c₁ hc₁
  have h₁ := (Prepared32.refl D).test c₁
  apply After.nil
  apply Ends.branch_pl rfl hc₁
  · intro hpl
    exact divmodsi3_plus h₁ ((msb_long ..).trans hpl) hd
  · intro hmi
    exact divmodsi3_minus h₁ ((msb_long ..).trans hmi) hd

section Exact

theorem Ends.leaves32_iff {entry : Word} {q q' r r' : BitVec 32}
    (h : Ends entry D (Leaves32 D q r)) :
    Ends entry D (Leaves32 D q' r') ↔ q = q' ∧ r = r' := by
  constructor
  · intro h'
    obtain ⟨pc', D', -, hleaves, hleaves'⟩ := h.unique h'
    exact ⟨hleaves.quotient.symm.trans hleaves'.quotient,
      hleaves.remainder.symm.trans hleaves'.remainder⟩
  · rintro ⟨rfl, rfl⟩
    exact h

theorem quotient32_lt (hn : n < 4294967296) : quotient32 n d < 2 ^ 32 := by
  rw [quotient32]
  split
  · exact (rounds_quotient_lt ..).trans (by decide)
  · exact (Nat.div_le_self n d).trans_lt hn

/-- Quotient and remainder with their signs are right together. -/
theorem signed32_iff (negative negative' : Bool) (hpos : 0 < d)
    (hn : n < 4294967296) :
    signed negative (BitVec.ofNat 32 (quotient32 n d)) =
          signed negative (BitVec.ofNat 32 (n / d)) ∧
        signed negative' (BitVec.ofNat 32 (remainder32 n d)) =
          signed negative' (BitVec.ofNat 32 (n % d)) ↔
      Narrow n d := by
  rw [signed_inj negative (quotient32_lt hn)
    ((Nat.div_le_self n d).trans_lt hn), quotient32_iff hpos hn]
  constructor
  · exact fun h => h.1
  · intro h
    rw [remainder32_of_narrow hn h]
    exact ⟨h, rfl⟩

/-- `udivmodsi3` divides without sign and keeps `r0` and `r1`. -/
def UdivmodsiRight (D : Data) : Prop :=
  Ends udivmodsi3 D (Leaves32 D (D.long .r5 .r6 / D.long .r3 .r4)
    (D.long .r5 .r6 % D.long .r3 .r4))

/-- `divmodsi3` truncates the quotient and gives the remainder the sign of the
dividend. -/
def DivmodsiRight (D : Data) : Prop :=
  Ends divmodsi3 D (Leaves32 D
    (BitVec.ofInt 32 ((D.long .r5 .r6).toInt.tdiv (D.long .r3 .r4).toInt))
    (BitVec.ofInt 32 ((D.long .r5 .r6).toInt.tmod (D.long .r3 .r4).toInt)))

theorem long_pos {x : BitVec 32} (hx : x ≠ 0) : 0 < x.toNat :=
  Nat.pos_of_ne_zero fun hzero => hx (BitVec.eq_of_toNat_eq hzero)

theorem udivmodsiRight_iff (hd : D.long .r3 .r4 ≠ 0) :
    UdivmodsiRight D ↔
      Narrow (D.long .r5 .r6).toNat (D.long .r3 .r4).toNat := by
  rw [UdivmodsiRight, ((Prepared32.refl D).divide hd).leaves32_iff,
    ← signed32_iff false false (long_pos hd) (D.long .r5 .r6).isLt,
    BitVec.udiv_def, BitVec.umod_def]
  rfl

theorem divmodsiRight_iff (hd : D.long .r3 .r4 ≠ 0) :
    DivmodsiRight D ↔
      Narrow (D.long .r5 .r6).toInt.natAbs (D.long .r3 .r4).toInt.natAbs := by
  rw [DivmodsiRight, (divmodsi3_ends hd).leaves32_iff, ofInt_tdiv, ofInt_tmod,
    ← signed32_iff ((D.long .r5 .r6).msb ^^ (D.long .r3 .r4).msb)
      (D.long .r5 .r6).msb (Nat.pos_of_ne_zero (natAbs_ne_zero hd))
      (natAbs_lt _)]
  rfl

theorem division32_iff (D : Data) (hd : D.long .r3 .r4 ≠ 0) :
    UdivmodsiRight D ∧ DivmodsiRight D ↔
      Narrow (D.long .r5 .r6).toNat (D.long .r3 .r4).toNat ∧
        Narrow (D.long .r5 .r6).toInt.natAbs
          (D.long .r3 .r4).toInt.natAbs := by
  rw [udivmodsiRight_iff hd, divmodsiRight_iff hd]

/-- A dividend in `r5:r6` and a divisor in `r4`. -/
def operands32 (r5 r6 r4 : Word) : Data where
  reg := fun
    | .h .r5 => highByte r5
    | .l .r5 => lowByte r5
    | .h .r6 => highByte r6
    | .l .r6 => lowByte r6
    | .h .r4 => highByte r4
    | .l .r4 => lowByte r4
    | _ => 0
  ccr := 0
  ram := fun _ => 0

theorem division32_by_seven :
    UdivmodsiRight (operands32 0x1234 0x5678 7) ∧
      DivmodsiRight (operands32 0x1234 0x5678 7) :=
  (division32_iff (operands32 0x1234 0x5678 7) (by decide)).mpr
    ⟨narrow_of_small (by decide) (by decide),
      narrow_of_small (by decide) (by decide)⟩

/-- `0xfffe0000 / 0xffff` loses the top bit of a remainder. -/
theorem division32_wrong_by_ffff :
    (operands32 0xfffe 0 0xffff).long .r3 .r4 ≠ 0 ∧
      ¬(UdivmodsiRight (operands32 0xfffe 0 0xffff) ∧
        DivmodsiRight (operands32 0xfffe 0 0xffff)) := by
  refine ⟨by decide, fun hright => ?_⟩
  rcases (udivmodsiRight_iff (by decide)).mp hright.1 with hlarge | hroom
  · revert hlarge
    decide
  · have hfirst := hroom 16 (by decide) (by decide)
    revert hfirst
    decide

end Exact

end Rom

end BrickEmu
