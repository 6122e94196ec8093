import BrickEmu.RestoringDivision
import BrickEmu.RomRules

/-!
# The 16-bit division of the ROM

Divisors below 256 are handled by two byte divisions.  For the others the loop
that should shift and subtract has been lost in a comment, and a single
rotation is what remains of it.
-/

namespace BrickEmu

namespace Rom

open RestoringDivision

/-- What `udivmodhi3` leaves in `r6` and in `r5`, with the carry it is called
with. -/
def quotient16 (n d c : ℕ) : ℕ :=
  if d < 256 then n / d else 255 - (2 * n + c) % 256

def remainder16 (n d : ℕ) : ℕ :=
  if d < 256 then n % d else n / 128

structure Divided16 (D D' : Data) : Prop where
  r0 : D'.word .r0 = D.word .r0
  quotient : (D'.word .r6).toNat =
    quotient16 (D.word .r6).toNat (D.word .r5).toNat (carry D.ccr)
  remainder : (D'.word .r5).toNat =
    remainder16 (D.word .r6).toNat (D.word .r5).toNat

/-- The dividend without its lower byte is in `r0`. -/
structure Spread (D D' : Data) : Prop where
  upper : D'.reg (.h .r0) = 0
  lower : D'.reg (.l .r0) = D.reg (.h .r6)
  r5 : D'.word .r5 = D.word .r5
  r6 : D'.word .r6 = D.word .r6
  carry : carry D'.ccr = carry D.ccr
  test : Cond.ne.taken D'.ccr = true ↔ D.reg (.h .r5) ≠ 0

variable {D : Data}

theorem udivmodhi3_start (D : Data) :
    After udivmodhi3Start
      (fun D' => (D.pushWord (D.word .r0)).Keeps D' ∧ Spread D D') D := by
  apply After.push
  intro c₁ hc₁
  apply After.movBI
  intro c₂ hc₂
  apply After.movB
  intro upper c₃ hupper hc₃
  apply After.movB_shows
  intro high c₄ hhigh hshows
  apply After.nil
  simp at hc₂ hc₃ hupper hhigh hshows
  subst hupper hhigh
  have hcarry := hshows.carry
  refine ⟨⟨rfl, ?_⟩, ?_, ?_, ?_, ?_, ?_, hshows.ne⟩
  · simp [Data.word]
  · simp
  · simp
  · simp [Data.word]
  · simp [Data.word]
  · show carry c₄ = carry D.ccr
    omega

theorem divideByte_after (hupper : D.reg (.h .r0) = 0)
    (hlower : D.reg (.l .r0) = D.reg (.h .r6)) (hhigh : D.reg (.h .r5) = 0)
    (hlow : D.reg (.l .r5) ≠ 0) :
    After divideByte (fun D' => D.Keeps D' ∧
      (D'.word .r6).toNat = (D.word .r6).toNat / (D.word .r5).toNat ∧
      (D'.word .r5).toNat = (D.word .r6).toNat % (D.word .r5).toNat) D := by
  apply After.divXU hlow
  intro rem₁ quot₁ c₁ hc₁ hquot₁ hrem₁
  apply After.movB
  intro v₁ c₂ hv₁ hc₂
  apply After.movB
  intro v₂ c₃ hv₂ hc₃
  apply After.divXU
  · simpa using hlow
  intro rem₂ quot₂ c₄ hc₄ hquot₂ hrem₂
  apply After.movB
  intro v₃ c₅ hv₃ hc₅
  apply After.movB
  intro v₄ c₆ hv₄ hc₆
  apply After.nil
  simp only [Data.toNat_word, Data.put_reg, Data.put2_reg, hupper, hlower,
    hhigh, reduceCtorEq, if_false, if_true, Reg8.h.injEq, Reg8.l.injEq,
    BitVec.ofNat_eq_ofNat, BitVec.toNat_ofNat, Nat.zero_mod, Nat.mul_zero,
    Nat.zero_add]
    at hquot₁ hrem₁ hv₁ hv₂ hquot₂ hrem₂ hv₃ hv₄ ⊢
  subst hv₁ hv₂ hv₃ hv₄
  have hd : 0 < (D.reg (.l .r5)).toNat := by
    rw [Nat.pos_iff_ne_zero]
    intro hzero
    exact hlow (BitVec.eq_of_toNat_eq hzero)
  have hbyte : (D.reg (.l .r6)).toNat < 256 := (D.reg (.l .r6)).isLt
  rw [digit_div 256 _ _ hd, digit_mod 256]
  have hupperlt : (D.reg (.h .r6)).toNat / (D.reg (.l .r5)).toNat < 256 :=
    (Nat.div_le_self _ _).trans_lt (D.reg (.h .r6)).isLt
  have hlowerlt := digit_lt hd hbyte (a := (D.reg (.h .r6)).toNat)
  rw [Nat.mod_eq_of_lt hupperlt] at hquot₁
  rw [hrem₁, Nat.mod_eq_of_lt hlowerlt] at hquot₂
  rw [hrem₁] at hrem₂
  refine ⟨⟨rfl, ?_⟩, ?_, ?_⟩
  · simp [Data.word]
  · omega
  · omega

/-- The one rotation: the upper nine bits of the dividend and, inverted, the
lower seven with the carry. -/
theorem divideWord_after (hupper : D.reg (.h .r0) = 0) :
    After divideWord (fun D' => D.Keeps D' ∧
      (D'.word .r6).toNat = 255 - (2 * (D.word .r6).toNat + carry D.ccr) % 256 ∧
      (D'.word .r5).toNat = (D.word .r6).toNat / 128) D := by
  apply After.movB
  intro v₁ c₁ hv₁ hc₁
  apply After.movBI
  intro c₂ hc₂
  apply After.rotxl
  intro low c₃ hlow
  apply After.rotxl
  intro mid c₄ hmid
  apply After.rotxl
  intro high c₅ hhigh
  apply After.cmpW
  intro c₆ hc₆
  apply After.notB
  intro inv c₇ hinv hc₇
  apply After.movBI
  intro c₈ hc₈
  apply After.movW
  intro rem₁ rem₂ c₉ hrem₁ hrem₂ hc₉
  apply After.nil
  simp only [Data.toNat_word, Data.put_reg, Data.put2_reg, Data.put_ccr,
    Data.setCcr_reg, hupper, reduceCtorEq, if_false, if_true,
    Reg8.h.injEq, Reg8.l.injEq, BitVec.ofNat_eq_ofNat, BitVec.toNat_ofNat,
    Nat.zero_mod, Nat.mul_zero, Nat.zero_add]
    at hv₁ hc₁ hc₂ hlow hmid hhigh hinv hrem₁ hrem₂ ⊢
  subst hv₁ hrem₁ hrem₂
  have hcarry := carry_le D.ccr
  have hcarry₃ := carry_le c₃
  have hcarry₄ := carry_le c₄
  have hcarry₅ := carry_le c₅
  have hbyte := (D.reg (.l .r6)).isLt
  have hbyte' := low.isLt
  have hbyte'' := rem₁.isLt
  refine ⟨⟨rfl, ?_⟩, ?_, ?_⟩
  · simp [Data.word]
  · omega
  · omega

theorem udivmodhi3_return {D₁ : Data} {pc ret : Word} {vals : List Word}
    (hpop : code pc = some (.op (.pop .r0)))
    (hrts : code (pc + 2) = some .rts)
    (hstack : D₁.Stack (D.word .r0 :: ret :: vals))
    (hsp : D₁.word .r7 = D.word .r7 - 2)
    (hquot : (D₁.word .r6).toNat =
      quotient16 (D.word .r6).toNat (D.word .r5).toNat (carry D.ccr))
    (hrem : (D₁.word .r5).toNat =
      remainder16 (D.word .r6).toNat (D.word .r5).toNat) :
    Ends pc D₁ fun pc' D' => pc' = ret ∧ D'.Stack vals ∧
      D'.word .r7 = D.word .r7 + 2 ∧ Divided16 D D' := by
  apply Ends.pop (by decide) hpop
  intro D₂ hram₂ hsp₂ hr0 hkept
  rw [hstack.top_eq] at hr0
  have hstack₂ : D₂.Stack (ret :: vals) := by
    rw [Data.Stack, hram₂, hsp₂]
    exact hstack.2
  apply Ends.rts hrts
  refine ⟨hstack₂.top_eq, hstack₂.dropWord, ?_, ?_, ?_, ?_⟩
  · rw [Data.dropWord_sp, hsp₂, hsp]
    bv_omega
  · rw [D₂.dropWord_word (by decide), hr0]
  · rw [D₂.dropWord_word (by decide), hkept .r6 (by decide) (by decide), hquot]
  · rw [D₂.dropWord_word (by decide), hkept .r5 (by decide) (by decide), hrem]

theorem udivmodhi3_contract (hd : D.word .r5 ≠ 0) :
    Contract udivmodhi3 Divided16 D := by
  intro ret vals hstack hroom
  apply Ends.block 0x1c6 udivmodhi3Start (by decide)
  apply (udivmodhi3_start D).mono
  rintro D₁ ⟨hkeeps, hspread⟩
  have hstack₁ := hkeeps.stack
    (hstack.pushWord (D.word .r0) (by rw [List.length_cons]; omega))
  have hsp₁ := hkeeps.2.trans (D.pushWord_sp _)
  have hr5 : D₁.reg (.h .r5) = D.reg (.h .r5) := by
    have hbyte := congrArg highByte hspread.r5
    rwa [Data.highByte_word, Data.highByte_word] at hbyte
  have hr6 : D₁.reg (.h .r6) = D.reg (.h .r6) := by
    have hbyte := congrArg highByte hspread.r6
    rwa [Data.highByte_word, Data.highByte_word] at hbyte
  have hdivisor := D.toNat_word .r5
  have hlow := (D.reg (.l .r5)).isLt
  by_cases hhigh : D.reg (.h .r5) = 0
  · have hsmall : (D.word .r5).toNat < 256 := by
      rw [hdivisor, hhigh]
      show 256 * 0 + _ < 256
      omega
    apply Ends.passed rfl
    · rw [hspread.test]
      exact not_not_intro hhigh
    apply Ends.block 0x1d4 divideByte (by decide)
    apply (divideByte_after hspread.upper (hspread.lower.trans hr6.symm)
      (hr5.trans hhigh)
      (word_ne_zero (hspread.r5 ▸ hd) (hr5.trans hhigh))).mono
    rintro D₂ ⟨hkeeps₂, hquot, hrem⟩
    rw [hspread.r5, hspread.r6] at hquot hrem
    apply udivmodhi3_return rfl rfl (hkeeps₂.stack hstack₁)
      (hkeeps₂.2.trans hsp₁)
    · rw [hquot, quotient16, if_pos hsmall]
    · rw [hrem, remainder16, if_pos hsmall]
  · have hlarge : ¬(D.word .r5).toNat < 256 := by
      intro hsmall
      apply hhigh
      apply BitVec.eq_of_toNat_eq
      show _ = 0
      omega
    apply Ends.taken rfl (hspread.test.mpr hhigh)
    apply Ends.block 0x1ea divideWord (by decide)
    apply (divideWord_after hspread.upper).mono
    rintro D₂ ⟨hkeeps₂, hquot, hrem⟩
    rw [hspread.r6, hspread.carry] at hquot
    rw [hspread.r6] at hrem
    apply udivmodhi3_return rfl rfl (hkeeps₂.stack hstack₁)
      (hkeeps₂.2.trans hsp₁)
    · rw [hquot, quotient16, if_neg hlarge]
    · rw [hrem, remainder16, if_neg hlarge]

/-- A state with the operands of a division, on the stack of `D`. -/
structure Prepared (D : Data) (n d : ℕ) (D' : Data) : Prop where
  top : D'.top = D.top
  sp : D'.word .r7 = D.word .r7
  carry : carry D'.ccr = carry D.ccr
  dividend : (D'.word .r6).toNat = n
  divisor : (D'.word .r5).toNat = d

theorem Prepared.nonzero {D' : Data} {n d : ℕ} (h : Prepared D n d D')
    (hd : d ≠ 0) : D'.word .r5 ≠ 0 := by
  intro hzero
  apply hd
  rw [← h.divisor, hzero]
  rfl

theorem Prepared.divide {D' : Data} {n d : ℕ} (h : Prepared D n d D')
    (hd : d ≠ 0) :
    Ends udivmodhi3 D' fun pc' D₁ => pc' = D.top ∧
      D₁.word .r7 = D.word .r7 + 2 ∧ D₁.word .r0 = D'.word .r0 ∧
      D₁.word .r6 = BitVec.ofNat 16 (quotient16 n d (Rom.carry D.ccr)) ∧
      D₁.word .r5 = BitVec.ofNat 16 (remainder16 n d) := by
  have hstack : D'.Stack [D'.top] := ⟨rfl, trivial⟩
  apply (udivmodhi3_contract (h.nonzero hd) _ _ hstack (by simp)).mono
  rintro pc' D₁ ⟨hpc, -, hsp, hdivided⟩
  refine ⟨hpc.trans h.top, h.sp ▸ hsp, hdivided.r0, ?_, ?_⟩
  · rw [← h.dividend, ← h.divisor, ← h.carry, ← hdivided.quotient,
      BitVec.ofNat_toNat, BitVec.setWidth_eq]
  · rw [← h.dividend, ← h.divisor, ← hdivided.remainder,
      BitVec.ofNat_toNat, BitVec.setWidth_eq]

/-- A call of the unsigned division on the way. -/
theorem Prepared.call {D' : Data} {n d : ℕ} {pc : Word}
    {Q : Word → Data → Prop} (h : Prepared D n d D') (hd : d ≠ 0)
    (hline : code pc = some (.bsr udivmodhi3))
    (hrest : ∀ D₁, D₁.top = D.top → D₁.word .r7 = D.word .r7 →
      D₁.word .r6 = BitVec.ofNat 16 (quotient16 n d (Rom.carry D.ccr)) →
      D₁.word .r5 = BitVec.ofNat 16 (remainder16 n d) →
      Ends (pc + 2) D₁ Q) :
    Ends pc D' Q := by
  have hstack : D'.Stack [D'.top] := ⟨rfl, trivial⟩
  have hword : ∀ x, x ≠ .r7 → (D'.pushWord (pc + 2)).word x = D'.word x :=
    fun x hx => D'.pushWord_word _ hx
  apply Ends.call hline (udivmodhi3_contract ?_) hstack (by simp)
  · rintro D₁ hstack₁ hsp ⟨-, hquot, hrem⟩
    rw [hword .r6 (by decide), hword .r5 (by decide), h.dividend, h.divisor]
      at hquot hrem
    rw [Data.pushWord_ccr, h.carry] at hquot
    apply hrest D₁ (hstack₁.top_eq.trans h.top) (hsp.trans h.sp)
    · rw [← hquot, BitVec.ofNat_toNat, BitVec.setWidth_eq]
    · rw [← hrem, BitVec.ofNat_toNat, BitVec.setWidth_eq]
  · rw [hword .r5 (by decide)]
    exact h.nonzero hd

theorem Prepared.refl (D : Data) :
    Prepared D (D.word .r6).toNat (D.word .r5).toNat D :=
  ⟨rfl, rfl, rfl, rfl, rfl⟩

theorem Prepared.remainder {D' : Data} {n d : ℕ} (h : Prepared D n d D')
    (hd : d ≠ 0) :
    Ends umodhi3 D' fun pc' D₁ => pc' = D.top ∧
      D₁.word .r7 = D.word .r7 + 2 ∧
      D₁.word .r6 = BitVec.ofNat 16 (remainder16 n d) := by
  apply h.call hd rfl
  intro D₁ htop hsp _ hrem
  apply Ends.block 0x14e [.movW .r5 .r6] (by decide)
  apply After.movW
  rintro high low ccr rfl rfl _
  apply After.nil
  apply Ends.rts rfl
  refine ⟨htop, ?_, ?_⟩
  · rw [Data.dropWord_sp, ← hsp]
    simp [Data.word]
  · rw [← hrem]
    simp [Data.word]

theorem Prepared.quotientNegated {D' : Data} {n d : ℕ} (h : Prepared D n d D')
    (hd : d ≠ 0) :
    Ends 0x164 D' fun pc' D₁ => pc' = D.top ∧
      D₁.word .r7 = D.word .r7 + 2 ∧
      D₁.word .r6 =
        -BitVec.ofNat 16 (quotient16 n d (Rom.carry D.ccr)) := by
  apply h.call hd rfl
  intro D₁ htop hsp hquot _
  apply Ends.block 0x16c (negWord .r6) (by decide)
  apply After.negWord
  intro high low ccr _ hneg
  apply After.nil
  apply Ends.rts rfl
  refine ⟨htop, ?_, ?_⟩
  · rw [Data.dropWord_sp, ← hsp]
    simp [Data.word]
  · rw [← hquot, ← hneg]
    simp [Data.word]

section Signs

variable {D' : Data} {n d : ℕ}

theorem Prepared.test (h : Prepared D n d D') {ccr : Byte}
    (hcarry : Rom.carry ccr = Rom.carry D'.ccr) :
    Prepared D n d (D'.setCcr ccr) :=
  ⟨h.top, h.sp, hcarry.trans h.carry, h.dividend, h.divisor⟩

theorem Prepared.negDividend (h : Prepared D n d D') {high low ccr : Byte}
    (hcarry : Rom.carry ccr = Rom.carry D'.ccr)
    (hneg : high ++ low = -D'.word .r6) :
    Prepared D (-D'.word .r6).toNat d (D'.put2 .r6 high low ccr) := by
  refine ⟨h.top, ?_, hcarry.trans h.carry, ?_, ?_⟩
  · rw [← h.sp]
    simp [Data.word]
  · rw [← hneg]
    simp [Data.word]
  · rw [← h.divisor]
    simp [Data.word]

theorem Prepared.negDivisor (h : Prepared D n d D') {high low ccr : Byte}
    (hcarry : Rom.carry ccr = Rom.carry D'.ccr)
    (hneg : high ++ low = -D'.word .r5) :
    Prepared D n (-D'.word .r5).toNat (D'.put2 .r5 high low ccr) := by
  refine ⟨h.top, ?_, hcarry.trans h.carry, ?_, ?_⟩
  · rw [← h.sp]
    simp [Data.word]
  · rw [← h.dividend]
    simp [Data.word]
  · rw [← hneg]
    simp [Data.word]

theorem Prepared.plus (h : Prepared D n d D') {val : Word} (hval : D'.word .r5 = val)
    (hpl : val.msb = false) : Prepared D n val.toInt.natAbs D' := by
  rw [natAbs_of_pl hpl, ← hval]
  exact { h with divisor := rfl }

end Signs

/-- What a signed routine leaves in `r6`. -/
def Leaves (D : Data) (val : Word) (pc' : Word) (D' : Data) : Prop :=
  pc' = D.top ∧ D'.word .r7 = D.word .r7 + 2 ∧ D'.word .r6 = val

/-- The magnitudes of the operands and the sign of the quotient. -/
def signedQuotient (D : Data) : Word :=
  signed ((D.word .r6).msb ^^ (D.word .r5).msb)
    (BitVec.ofNat 16 (quotient16 (D.word .r6).toInt.natAbs
      (D.word .r5).toInt.natAbs (carry D.ccr)))

def signedRemainder (D : Data) : Word :=
  signed (D.word .r6).msb
    (BitVec.ofNat 16 (remainder16 (D.word .r6).toInt.natAbs
      (D.word .r5).toInt.natAbs))

theorem divhi3_minus (hd : D.word .r5 ≠ 0) (hn : (D.word .r6).msb = true)
    {D' : Data} (hsame : D'.reg = D.reg)
    (h : Prepared D (D.word .r6).toNat (D.word .r5).toNat D') :
    Ends 0x16e D' (Leaves D (signedQuotient D)) := by
  have hr5 : D'.word .r5 = D.word .r5 := by rw [Data.word, hsame]; rfl
  have hr6 : D'.word .r6 = D.word .r6 := by rw [Data.word, hsame]; rfl
  apply Ends.block 0x176 (negWord .r6 ++ [.movW .r5 .r5]) (by decide)
  apply After.negWord
  intro high low c₁ hc₁ hneg
  have h₁ := h.negDividend hc₁ hneg
  rw [hr6, ← natAbs_of_mi hn] at h₁
  apply After.testW
  intro c₂ hc₂
  have h₂ := h₁.test hc₂.carry
  have hword : (D'.put2 .r6 high low c₁).word .r5 = D.word .r5 := by
    rw [← hr5]
    simp [Data.word]
  rw [hword] at hc₂
  apply After.nil
  apply Ends.branch_pl rfl hc₂
  · intro hm
    apply ((h₂.plus hword hm).quotientNegated (natAbs_ne_zero hd)).mono
    rintro pc' D₁ ⟨hpc, hsp, hquot⟩
    refine ⟨hpc, hsp, ?_⟩
    rw [hquot, signedQuotient, hn, hm]
    rfl
  · intro hm
    apply Ends.block 0x17e (negWord .r5) (by decide)
    apply After.negWord
    intro high' low' c₃ hc₃ hneg'
    have h₃ := h₂.negDivisor hc₃ hneg'
    rw [show ((D'.put2 .r6 high low c₁).setCcr c₂).word .r5 = D.word .r5 from
      hword, ← natAbs_of_mi hm] at h₃
    apply After.nil
    apply Ends.taken rfl rfl
    apply (h₃.divide (natAbs_ne_zero hd)).mono
    rintro pc' D₁ ⟨hpc, hsp, -, hquot, -⟩
    refine ⟨hpc, hsp, ?_⟩
    rw [hquot, signedQuotient, hn, hm]
    rfl

theorem divhi3_plus (hd : D.word .r5 ≠ 0) (hn : (D.word .r6).msb = false)
    {D' : Data} (hsame : D'.reg = D.reg)
    (h : Prepared D (D.word .r6).toNat (D.word .r5).toNat D') :
    Ends 0x15a D' (Leaves D (signedQuotient D)) := by
  have hr5 : D'.word .r5 = D.word .r5 := by rw [Data.word, hsame]; rfl
  rw [← natAbs_of_pl hn] at h
  apply Ends.block 0x15c [.movW .r5 .r5] (by decide)
  apply After.testW
  intro c₁ hc₁
  have h₁ := h.test hc₁.carry
  rw [hr5] at hc₁
  apply After.nil
  apply Ends.branch_pl rfl hc₁
  · intro hm
    apply ((h₁.plus hr5 hm).divide (natAbs_ne_zero hd)).mono
    rintro pc' D₁ ⟨hpc, hsp, -, hquot, -⟩
    refine ⟨hpc, hsp, ?_⟩
    rw [hquot, signedQuotient, hn, hm]
    rfl
  · intro hm
    apply Ends.block 0x164 (negWord .r5) (by decide)
    apply After.negWord
    intro high low c₂ hc₂ hneg
    have h₂ := h₁.negDivisor hc₂ hneg
    rw [show (D'.setCcr c₁).word .r5 = D.word .r5 from hr5,
      ← natAbs_of_mi hm] at h₂
    apply After.nil
    apply (h₂.quotientNegated (natAbs_ne_zero hd)).mono
    rintro pc' D₁ ⟨hpc, hsp, hquot⟩
    refine ⟨hpc, hsp, ?_⟩
    rw [hquot, signedQuotient, hn, hm]
    rfl

theorem divhi3_ends (hd : D.word .r5 ≠ 0) :
    Ends divhi3 D (Leaves D (signedQuotient D)) := by
  apply Ends.block 0x158 [.movW .r6 .r6] (by decide)
  apply After.testW
  intro c₁ hc₁
  apply After.nil
  apply Ends.branch_mi rfl hc₁
  · intro hn
    exact divhi3_minus hd hn rfl ((Prepared.refl D).test hc₁.carry)
  · intro hn
    exact divhi3_plus hd hn rfl ((Prepared.refl D).test hc₁.carry)

/-- The sign of the remainder is that of the dividend. -/
theorem modhi3_dividend (hd : D.word .r5 ≠ 0) {D' : Data}
    (hr6 : D'.word .r6 = D.word .r6)
    (h : Prepared D (D.word .r6).toNat (D.word .r5).toInt.natAbs D') :
    Ends 0x192 D' (Leaves D (signedRemainder D)) := by
  apply Ends.block 0x194 [.movW .r6 .r6] (by decide)
  apply After.testW
  intro c₁ hc₁
  have h₁ := h.test hc₁.carry
  rw [hr6] at hc₁
  apply After.nil
  apply Ends.branch_pl rfl hc₁
  · intro hn
    rw [← natAbs_of_pl hn] at h₁
    apply (h₁.remainder (natAbs_ne_zero hd)).mono
    rintro pc' D₁ ⟨hpc, hsp, hrem⟩
    refine ⟨hpc, hsp, ?_⟩
    rw [hrem, signedRemainder, hn]
    rfl
  · intro hn
    apply Ends.block 0x19c (negWord .r6) (by decide)
    apply After.negWord
    intro high low c₂ hc₂ hneg
    have h₂ := h₁.negDividend hc₂ hneg
    rw [show (D'.setCcr c₁).word .r6 = D.word .r6 from hr6,
      ← natAbs_of_mi hn] at h₂
    apply After.nil
    apply h₂.call (natAbs_ne_zero hd) rfl
    intro D₁ htop hsp _ hrem
    apply Ends.block 0x1a6 (negWord .r5 ++ [.movW .r5 .r6]) (by decide)
    apply After.negWord
    intro high' low' c₃ _ hneg'
    apply After.movW
    rintro high'' low'' c₄ rfl rfl _
    apply After.nil
    apply Ends.rts rfl
    refine ⟨htop, ?_, ?_⟩
    · rw [Data.dropWord_sp, ← hsp]
      simp [Data.word]
    · rw [signedRemainder, hn, ← hrem, signed, if_pos rfl, ← hneg']
      simp [Data.word]

theorem modhi3_ends (hd : D.word .r5 ≠ 0) :
    Ends modhi3 D (Leaves D (signedRemainder D)) := by
  apply Ends.block 0x18a [.movW .r5 .r5] (by decide)
  apply After.testW
  intro c₁ hc₁
  have h₁ := (Prepared.refl D).test hc₁.carry
  apply After.nil
  apply Ends.branch_pl rfl hc₁
  · intro hm
    exact modhi3_dividend hd rfl (h₁.plus rfl hm)
  · intro hm
    apply Ends.block 0x192 (negWord .r5) (by decide)
    apply After.negWord
    intro high low c₂ hc₂ hneg
    have h₂ := h₁.negDivisor hc₂ hneg
    rw [show (D.setCcr c₁).word .r5 = D.word .r5 from rfl,
      ← natAbs_of_mi hm] at h₂
    apply After.nil
    apply modhi3_dividend hd _ h₂
    simp [Data.word]

section Exact

theorem Ends.leaves_iff {entry val val' : Word} (h : Ends entry D (Leaves D val)) :
    Ends entry D (Leaves D val') ↔ val = val' := by
  constructor
  · intro h'
    obtain ⟨pc', D', -, hval, hval'⟩ := h.unique h'
    exact hval.2.2.symm.trans hval'.2.2
  · rintro rfl
    exact h

theorem quotient16_lt {n d c : ℕ} (hn : n < 65536) :
    quotient16 n d c < 65536 := by
  rw [quotient16]
  split
  · exact (Nat.div_le_self n d).trans_lt hn
  · omega

theorem remainder16_lt {n d : ℕ} (hn : n < 65536) :
    remainder16 n d < 65536 := by
  rw [remainder16]
  split
  · exact (Nat.mod_le n d).trans_lt hn
  · omega

/-- The divisor is below 256, or the wrong results happen to be right. -/
def Fits16 (n d c : ℕ) : Prop :=
  d < 256 ∨ n / 128 < d ∧ n = n / 128 + d * (255 - (2 * n + c) % 256)

theorem fits16_iff {n d c : ℕ} (hd : d ≠ 0) :
    quotient16 n d c = n / d ∧ remainder16 n d = n % d ↔ Fits16 n d c := by
  have hpos : 0 < d := Nat.pos_of_ne_zero hd
  rw [quotient16, remainder16, Fits16]
  by_cases hsmall : d < 256
  · simp [hsmall]
  · have hunique := Nat.div_mod_unique hpos (a := n) (c := n / 128)
      (d := 255 - (2 * n + c) % 256)
    rw [if_neg hsmall, if_neg hsmall, eq_comm, eq_comm (b := n % d), hunique]
    simp only [hsmall, false_or]
    rw [and_comm, eq_comm]

/-- `udivmodhi3` divides without sign and keeps `r0`. -/
def UdivmodhiRight (D : Data) : Prop :=
  Ends udivmodhi3 D fun pc' D' => pc' = D.top ∧
    D'.word .r7 = D.word .r7 + 2 ∧ D'.word .r0 = D.word .r0 ∧
    D'.word .r6 = D.word .r6 / D.word .r5 ∧
    D'.word .r5 = D.word .r6 % D.word .r5

theorem quotient16_ofNat {n d c m : ℕ} (negative : Bool) (hn : n < 2 ^ 16) :
    signed negative (BitVec.ofNat 16 (quotient16 n d c)) =
        signed negative (BitVec.ofNat 16 (n / m)) ↔
      quotient16 n d c = n / m :=
  signed_inj negative (quotient16_lt hn) ((Nat.div_le_self n m).trans_lt hn)

theorem remainder16_ofNat {n d m : ℕ} (negative : Bool) (hn : n < 2 ^ 16) :
    signed negative (BitVec.ofNat 16 (remainder16 n d)) =
        signed negative (BitVec.ofNat 16 (n % m)) ↔
      remainder16 n d = n % m :=
  signed_inj negative (remainder16_lt hn) ((Nat.mod_le n m).trans_lt hn)

theorem udivmodhiRight_iff (hd : D.word .r5 ≠ 0) :
    UdivmodhiRight D ↔
      Fits16 (D.word .r6).toNat (D.word .r5).toNat (carry D.ccr) := by
  have hends := (Prepared.refl D).divide (toNat_ne_zero hd)
  have hn := (D.word .r6).isLt
  rw [← fits16_iff (toNat_ne_zero hd), ← quotient16_ofNat false hn,
    ← remainder16_ofNat false hn, signed, signed, signed, signed,
    if_neg Bool.false_ne_true, if_neg Bool.false_ne_true,
    if_neg Bool.false_ne_true, if_neg Bool.false_ne_true,
    ← BitVec.udiv_def, ← BitVec.umod_def]
  constructor
  · intro hright
    obtain ⟨pc', D', -, ⟨-, -, -, hquot, hrem⟩, -, -, -, hquot', hrem'⟩ :=
      hends.unique hright
    exact ⟨hquot.symm.trans hquot', hrem.symm.trans hrem'⟩
  · rintro ⟨hquot, hrem⟩
    rw [hquot, hrem] at hends
    exact hends

/-- The other routines, with the results in `r6`. -/
def UmodhiRight (D : Data) : Prop :=
  Ends umodhi3 D (Leaves D (D.word .r6 % D.word .r5))

def DivhiRight (D : Data) : Prop :=
  Ends divhi3 D (Leaves D
    (BitVec.ofInt 16 ((D.word .r6).toInt.tdiv (D.word .r5).toInt)))

def ModhiRight (D : Data) : Prop :=
  Ends modhi3 D (Leaves D
    (BitVec.ofInt 16 ((D.word .r6).toInt.tmod (D.word .r5).toInt)))

theorem umodhiRight_iff (hd : D.word .r5 ≠ 0) :
    UmodhiRight D ↔
      remainder16 (D.word .r6).toNat (D.word .r5).toNat =
        (D.word .r6).toNat % (D.word .r5).toNat := by
  have hends := (Prepared.refl D).remainder (toNat_ne_zero hd)
  rw [UmodhiRight, hends.leaves_iff,
    ← remainder16_ofNat false (D.word .r6).isLt, BitVec.umod_def]
  rfl

theorem divhiRight_iff (hd : D.word .r5 ≠ 0) :
    DivhiRight D ↔
      quotient16 (D.word .r6).toInt.natAbs (D.word .r5).toInt.natAbs
          (carry D.ccr) =
        (D.word .r6).toInt.natAbs / (D.word .r5).toInt.natAbs := by
  rw [DivhiRight, (divhi3_ends hd).leaves_iff, ofInt_tdiv, signedQuotient,
    quotient16_ofNat _ (natAbs_lt _)]

theorem modhiRight_iff (hd : D.word .r5 ≠ 0) :
    ModhiRight D ↔
      remainder16 (D.word .r6).toInt.natAbs (D.word .r5).toInt.natAbs =
        (D.word .r6).toInt.natAbs % (D.word .r5).toInt.natAbs := by
  rw [ModhiRight, (modhi3_ends hd).leaves_iff, ofInt_tmod, signedRemainder,
    remainder16_ofNat _ (natAbs_lt _)]

/-- The four routines give quotients and remainders. -/
structure Division16Right (D : Data) : Prop where
  udivmodhi3 : UdivmodhiRight D
  umodhi3 : UmodhiRight D
  divhi3 : DivhiRight D
  modhi3 : ModhiRight D

theorem division16Right_iff (D : Data) (hd : D.word .r5 ≠ 0) :
    Division16Right D ↔
      Fits16 (D.word .r6).toNat (D.word .r5).toNat (carry D.ccr) ∧
        Fits16 (D.word .r6).toInt.natAbs (D.word .r5).toInt.natAbs
          (carry D.ccr) := by
  have hfits := fits16_iff (n := (D.word .r6).toNat) (c := carry D.ccr)
    (toNat_ne_zero hd)
  have habs := fits16_iff (n := (D.word .r6).toInt.natAbs) (c := carry D.ccr)
    (natAbs_ne_zero hd)
  constructor
  · intro hright
    refine ⟨(udivmodhiRight_iff hd).mp hright.udivmodhi3, habs.mp ⟨?_, ?_⟩⟩
    · exact (divhiRight_iff hd).mp hright.divhi3
    · exact (modhiRight_iff hd).mp hright.modhi3
  · rintro ⟨hplain, hsigned⟩
    obtain ⟨hquot, hrem⟩ := habs.mpr hsigned
    exact
      { udivmodhi3 := (udivmodhiRight_iff hd).mpr hplain
        umodhi3 := (umodhiRight_iff hd).mpr (hfits.mpr hplain).2
        divhi3 := (divhiRight_iff hd).mpr hquot
        modhi3 := (modhiRight_iff hd).mpr hrem }

/-- 1000 by 7, and 1000 by 300. -/
def operands16 (high low : Byte) : Data where
  reg := fun
    | .h .r6 => 0x03
    | .l .r6 => 0xe8
    | .h .r5 => high
    | .l .r5 => low
    | _ => 0
  ccr := 0
  ram := fun _ => 0

theorem division16Right_by_seven : Division16Right (operands16 0 7) :=
  (division16Right_iff (operands16 0 7) (by decide)).mpr
    ⟨.inl (by decide), .inl (by decide)⟩

theorem division16_wrong_by_threehundred :
    (operands16 0x01 0x2c).word .r5 ≠ 0 ∧
      ¬Division16Right (operands16 0x01 0x2c) := by
  refine ⟨by decide, fun hright => ?_⟩
  have hfits := (udivmodhiRight_iff (by decide)).mp hright.udivmodhi3
  revert hfits
  rw [Fits16]
  decide

end Exact

end Rom

end BrickEmu
