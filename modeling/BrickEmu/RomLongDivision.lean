import BrickEmu.RestoringDivision
import BrickEmu.RomRules

/-!
# The 32-bit division of the ROM

Divisors of one byte are handled by byte divisions, divisors of one word by 24
rounds with a remainder of 16 bits and all others by 16 rounds with a remainder
of 32 bits.  Only the 16-bit remainder can overflow.
-/

namespace BrickEmu

namespace Rom

open RestoringDivision

variable {D : Data}

/-- The division is over: quotient, remainder and the registers kept. -/
structure Divided32 (D : Data) (q r : ℕ) (pc' : Word) (D' : Data) : Prop where
  pc : pc' = D.top
  sp : D'.word .r7 = D.word .r7 + 2
  r0 : D'.word .r0 = D.word .r0
  r1 : D'.word .r1 = D.word .r1
  stack : ∀ vals, vals.length ≤ 2 → D.Stack (D.top :: vals) → D'.Stack vals
  quotient : (D'.long .r5 .r6).toNat = q
  remainder : (D'.long .r3 .r4).toNat = r

/-- The same end, seen from a state before. -/
theorem Divided32.of_same {D₁ D' : Data} {q q' r r' : ℕ} {pc' : Word}
    (h : Divided32 D₁ q r pc' D') (hkeeps : D.Keeps D₁)
    (hr0 : D₁.word .r0 = D.word .r0) (hr1 : D₁.word .r1 = D.word .r1)
    (hq : q = q') (hr : r = r') : Divided32 D q' r' pc' D' := by
  have htop : D₁.top = D.top := by
    rw [Data.top, hkeeps.1, hkeeps.2]
    rfl
  refine ⟨h.pc.trans htop, ?_, h.r0.trans hr0, h.r1.trans hr1, ?_,
    h.quotient.trans hq, h.remainder.trans hr⟩
  · rw [h.sp, hkeeps.2]
  · intro vals hroom hstack
    apply h.stack vals hroom
    rw [htop]
    exact hkeeps.stack hstack

section ByteDivisor

/-- Label `4`: the last digit. -/
theorem divideLongByte_last (hd : D.reg (.l .r4) ≠ 0)
    (hhigh : D.reg (.h .r4) = 0)
    (hrem : (D.reg (.h .r6)).toNat < (D.reg (.l .r4)).toNat) :
    Ends 0x32c D (Divided32 D
      (65536 * (D.word .r5).toNat + 256 * (D.reg (.l .r3)).toNat +
        (D.word .r6).toNat / (D.reg (.l .r4)).toNat)
      ((D.word .r6).toNat % (D.reg (.l .r4)).toNat)) := by
  have hpos : 0 < (D.reg (.l .r4)).toNat := by omega
  have hlow : (D.reg (.l .r6)).toNat < 256 := (D.reg (.l .r6)).isLt
  have hdigit := digit_lt hpos hlow (a := (D.reg (.h .r6)).toNat)
  rw [Nat.mod_eq_of_lt hrem] at hdigit
  apply Ends.block 0x334 [.divXU (.l .r4) .r6, .movB (.h .r6) (.l .r4),
    .movB (.l .r3) (.h .r6), .subW .r3 .r3] (by decide)
  apply After.divXU hd
  intro high low c₁ _ hquot hmod
  apply After.movB
  intro v₁ c₂ hv₁ _
  apply After.movB
  intro v₂ c₃ hv₂ _
  apply After.subW
  intro v₃ v₄ c₄ hzero
  apply After.nil
  simp only [Data.toNat_word, Data.put_reg, Data.put2_reg, reduceCtorEq,
    if_false, if_true, Reg8.h.injEq, Reg8.l.injEq] at hquot hmod hv₁ hv₂ hzero
  subst hv₁ hv₂
  rw [Nat.mod_eq_of_lt hdigit] at hquot
  apply Ends.rts rfl
  have hkeeps : D.Keeps ((((D.put2 .r6 v₁ low c₁).put (.l .r4) v₁ c₂).put
      (.h .r6) (D.reg (.l .r3)) c₃).put2 .r3 v₃ v₄ c₄) := by
    refine ⟨rfl, ?_⟩
    simp [Data.word]
  refine ⟨rfl, ?_, ?_, ?_, ?_, ?_, ?_⟩
  · rw [Data.dropWord_sp, hkeeps.2]
  · simp [Data.word]
  · simp [Data.word]
  · intro vals _ hstack
    exact (hkeeps.stack hstack).dropWord
  · simp [Data.toNat_long, Data.toNat_word]
    omega
  · simp [Data.toNat_long, Data.toNat_word, hhigh]
    omega

/-- Labels `3`, `2` and `1`: a digit, whose remainder goes on. -/
theorem divideLongByte_third (hd : D.reg (.l .r4) ≠ 0)
    (hhigh : D.reg (.h .r4) = 0)
    (hrem : (D.reg (.h .r3)).toNat < (D.reg (.l .r4)).toNat) :
    Ends 0x328 D (Divided32 D
      (65536 * (D.word .r5).toNat +
        (256 * (D.word .r3).toNat + (D.reg (.l .r6)).toNat) /
          (D.reg (.l .r4)).toNat)
      ((256 * (D.word .r3).toNat + (D.reg (.l .r6)).toNat) %
        (D.reg (.l .r4)).toNat)) := by
  have hpos : 0 < (D.reg (.l .r4)).toNat := by omega
  have hlow : (D.reg (.l .r3)).toNat < 256 := (D.reg (.l .r3)).isLt
  have hdigit := digit_lt hpos hlow (a := (D.reg (.h .r3)).toNat)
  rw [Nat.mod_eq_of_lt hrem, ← D.toNat_word] at hdigit
  apply Ends.block 0x32c [.divXU (.l .r4) .r3, .movB (.h .r3) (.h .r6)]
    (by decide)
  apply After.divXU hd
  intro high low c₁ _ hquot hmod
  apply After.movB
  rintro v₁ c₂ rfl _
  apply After.nil
  rw [Nat.mod_eq_of_lt hdigit] at hquot
  have hlt := Nat.mod_lt (D.word .r3).toNat hpos
  have hlong := digit_div 256 (D.word .r3).toNat (D.reg (.l .r6)).toNat hpos
  have hmodulo := digit_mod 256 (D.word .r3).toNat (D.reg (.l .r6)).toNat
    (D.reg (.l .r4)).toNat
  rw [← hmod] at hlt hlong hmodulo
  rw [← hquot] at hlong
  apply (divideLongByte_last _ _ _).mono
  · intro pc' D' hdivided
    apply hdivided.of_same
    · exact ⟨rfl, by simp [Data.word]⟩
    · simp [Data.word]
    · simp [Data.word]
    · rw [hlong, ← Nat.add_assoc]
      simp [Data.toNat_word]
    · rw [hmodulo]
      simp [Data.toNat_word]
  · simpa using hd
  · simpa using hhigh
  · simpa using hlt

theorem divideLongByte_second (hd : D.reg (.l .r4) ≠ 0)
    (hhigh : D.reg (.h .r4) = 0)
    (hrem : (D.reg (.h .r3)).toNat < (D.reg (.l .r4)).toNat) :
    Ends 0x322 D (Divided32 D
      (16777216 * (D.reg (.h .r5)).toNat +
        (65536 * (D.word .r3).toNat + (D.word .r6).toNat) /
          (D.reg (.l .r4)).toNat)
      ((65536 * (D.word .r3).toNat + (D.word .r6).toNat) %
        (D.reg (.l .r4)).toNat)) := by
  have hpos : 0 < (D.reg (.l .r4)).toNat := by omega
  have hlow : (D.reg (.l .r3)).toNat < 256 := (D.reg (.l .r3)).isLt
  have hdigit := digit_lt hpos hlow (a := (D.reg (.h .r3)).toNat)
  rw [Nat.mod_eq_of_lt hrem, ← D.toNat_word] at hdigit
  apply Ends.block 0x328 [.divXU (.l .r4) .r3, .movB (.l .r3) (.l .r5),
    .movB (.h .r6) (.l .r3)] (by decide)
  apply After.divXU hd
  intro high low c₁ _ hquot hmod
  apply After.movB
  rintro v₁ c₂ hv₁ _
  apply After.movB
  rintro v₂ c₃ hv₂ _
  apply After.nil
  simp only [Data.put_reg, Data.put2_reg, reduceCtorEq, if_false, if_true,
    Reg8.h.injEq] at hv₁ hv₂
  subst hv₁ hv₂
  rw [Nat.mod_eq_of_lt hdigit] at hquot
  have hlt := Nat.mod_lt (D.word .r3).toNat hpos
  have hlong := digit_div 65536 (D.word .r3).toNat (D.word .r6).toNat hpos
  have hmodulo := digit_mod 65536 (D.word .r3).toNat (D.word .r6).toNat
    (D.reg (.l .r4)).toNat
  have hnext : 65536 * high.toNat + (D.word .r6).toNat =
      256 * (256 * high.toNat + (D.reg (.h .r6)).toNat) +
        (D.reg (.l .r6)).toNat := by
    rw [D.toNat_word]
    ring
  rw [← hmod] at hlt hlong hmodulo
  rw [← hquot, hnext] at hlong
  rw [hnext] at hmodulo
  apply (divideLongByte_third _ _ _).mono
  · intro pc' D' hdivided
    apply hdivided.of_same
    · exact ⟨rfl, by simp [Data.word]⟩
    · simp [Data.word]
    · simp [Data.word]
    · rw [hlong, ← Nat.add_assoc]
      simp [Data.toNat_word]
      ring
    · rw [hmodulo]
      simp [Data.toNat_word]
  · simpa using hd
  · simpa using hhigh
  · simpa using hlt

theorem divideLongByte_first (hd : D.reg (.l .r4) ≠ 0)
    (hhigh : D.reg (.h .r4) = 0)
    (hrem : (D.reg (.h .r3)).toNat < (D.reg (.l .r4)).toNat) :
    Ends 0x31c D (Divided32 D
      ((16777216 * (D.word .r3).toNat + (65536 * (D.reg (.l .r5)).toNat +
          (D.word .r6).toNat)) / (D.reg (.l .r4)).toNat)
      ((16777216 * (D.word .r3).toNat + (65536 * (D.reg (.l .r5)).toNat +
        (D.word .r6).toNat)) % (D.reg (.l .r4)).toNat)) := by
  have hpos : 0 < (D.reg (.l .r4)).toNat := by omega
  have hlow : (D.reg (.l .r3)).toNat < 256 := (D.reg (.l .r3)).isLt
  have hdigit := digit_lt hpos hlow (a := (D.reg (.h .r3)).toNat)
  rw [Nat.mod_eq_of_lt hrem, ← D.toNat_word] at hdigit
  apply Ends.block 0x322 [.divXU (.l .r4) .r3, .movB (.l .r3) (.h .r5),
    .movB (.l .r5) (.l .r3)] (by decide)
  apply After.divXU hd
  intro high low c₁ _ hquot hmod
  apply After.movB
  rintro v₁ c₂ hv₁ _
  apply After.movB
  rintro v₂ c₃ hv₂ _
  apply After.nil
  simp only [Data.put_reg, Data.put2_reg, reduceCtorEq, if_false, if_true,
    Reg8.l.injEq] at hv₁ hv₂
  subst hv₁ hv₂
  rw [Nat.mod_eq_of_lt hdigit] at hquot
  have hlt := Nat.mod_lt (D.word .r3).toNat hpos
  have hlong := digit_div 16777216 (D.word .r3).toNat
    (65536 * (D.reg (.l .r5)).toNat + (D.word .r6).toNat) hpos
  have hmodulo := digit_mod 16777216 (D.word .r3).toNat
    (65536 * (D.reg (.l .r5)).toNat + (D.word .r6).toNat)
    (D.reg (.l .r4)).toNat
  have hnext : 16777216 * high.toNat +
      (65536 * (D.reg (.l .r5)).toNat + (D.word .r6).toNat) =
      65536 * (256 * high.toNat + (D.reg (.l .r5)).toNat) +
        (D.word .r6).toNat := by
    ring
  rw [← hmod] at hlt hlong hmodulo
  rw [← hquot, hnext] at hlong
  rw [hnext] at hmodulo
  apply (divideLongByte_second _ _ _).mono
  · intro pc' D' hdivided
    apply hdivided.of_same
    · exact ⟨rfl, by simp [Data.word]⟩
    · simp [Data.word]
    · simp [Data.word]
    · rw [hlong]
      simp [Data.toNat_word]
    · rw [hmodulo]
      simp [Data.toNat_word]
  · simpa using hd
  · simpa using hhigh
  · simpa using hlt

theorem divideLongByte_ends (hd : D.reg (.l .r4) ≠ 0)
    (hhigh : D.reg (.h .r4) = 0) (hr3 : D.reg (.h .r3) = 0) :
    Ends 0x30e D (Divided32 D
      ((D.long .r5 .r6).toNat / (D.reg (.l .r4)).toNat)
      ((D.long .r5 .r6).toNat % (D.reg (.l .r4)).toNat)) := by
  have hpos : 0 < (D.reg (.l .r4)).toNat := by
    rw [Nat.pos_iff_ne_zero]
    exact fun hzero => hd (BitVec.eq_of_toNat_eq hzero)
  have hdividend : (D.long .r5 .r6).toNat =
      16777216 * (D.reg (.h .r5)).toNat + (65536 * (D.reg (.l .r5)).toNat +
        (256 * (D.reg (.h .r6)).toNat + (D.reg (.l .r6)).toNat)) := by
    rw [D.toNat_long, D.toNat_word, D.toNat_word]
    ring
  apply Ends.block 0x310 [.movB (.h .r5) (.l .r3)] (by decide)
  apply After.movB_shows
  rintro v₁ c₁ rfl hc₁
  apply After.nil
  apply Ends.branch_ne rfl hc₁
  · intro _
    apply (divideLongByte_first _ _ _).mono
    · intro pc' D' hdivided
      apply hdivided.of_same
      · exact ⟨rfl, by simp [Data.word]⟩
      · simp [Data.word]
      · simp [Data.word]
      · simp [Data.toNat_word, hdividend, hr3]
      · simp [Data.toNat_word, hdividend, hr3]
    · simpa using hd
    · simpa using hhigh
    · simpa [hr3] using hpos
  intro hr5h
  apply Ends.block 0x314 [.movB (.l .r5) (.l .r3)] (by decide)
  apply After.movB_shows
  intro v₂ c₂ hv₂ hc₂
  simp only [Data.put_reg, reduceCtorEq, Reg8.l.injEq, if_false] at hv₂
  subst hv₂
  apply After.nil
  apply Ends.branch_ne rfl hc₂
  · intro _
    apply (divideLongByte_second _ _ _).mono
    · intro pc' D' hdivided
      apply hdivided.of_same
      · exact ⟨rfl, by simp [Data.word]⟩
      · simp [Data.word]
      · simp [Data.word]
      · simp [Data.toNat_word, hdividend, hr3, hr5h]
      · simp [Data.toNat_word, hdividend, hr3, hr5h]
    · simpa using hd
    · simpa using hhigh
    · simpa [hr3] using hpos
  intro hr5l
  apply Ends.block 0x318 [.movB (.h .r6) (.l .r3)] (by decide)
  apply After.movB_shows
  intro v₃ c₃ hv₃ hc₃
  simp only [Data.put_reg, reduceCtorEq, if_false] at hv₃
  subst hv₃
  apply After.nil
  apply Ends.branch_ne rfl hc₃
  · intro _
    apply (divideLongByte_third _ _ _).mono
    · intro pc' D' hdivided
      apply hdivided.of_same
      · exact ⟨rfl, by simp [Data.word]⟩
      · simp [Data.word]
      · simp [Data.word]
      · simp [Data.toNat_word, hdividend, hr3, hr5h, hr5l]
      · simp [Data.toNat_word, hdividend, hr3, hr5h, hr5l]
    · simpa using hd
    · simpa using hhigh
    · simpa [hr3] using hpos
  intro hr6h
  apply Ends.taken rfl rfl
  apply (divideLongByte_last _ _ _).mono
  · intro pc' D' hdivided
    apply hdivided.of_same
    · exact ⟨rfl, by simp [Data.word]⟩
    · simp [Data.word]
    · simp [Data.word]
    · simp [Data.toNat_word, hdividend, hr5h, hr5l, hr6h]
    · simp [Data.toNat_word, hdividend, hr5h, hr5l, hr6h]
  · simpa using hd
  · simpa using hhigh
  · simpa [hr6h] using hpos

end ByteDivisor

section WordDivisor

/-- The 24 bits of the dividend that follow the remainder. -/
def low24 (D : Data) : ℕ :=
  65536 * (D.reg (.l .r5)).toNat + (D.word .r6).toNat

/-- What the rounds leave alone. -/
structure Frame24 (D D' : Data) : Prop where
  keeps : D.Keeps D'
  r0 : D'.word .r0 = D.word .r0
  r1 : D'.word .r1 = D.word .r1
  r4 : D'.word .r4 = D.word .r4

theorem Frame24.trans {D' D'' : Data} (h : Frame24 D D')
    (h' : Frame24 D' D'') : Frame24 D D'' :=
  ⟨h.keeps.trans h'.keeps, h'.r0.trans h.r0, h'.r1.trans h.r1,
    h'.r4.trans h.r4⟩

theorem rotate24_after (D : Data) :
    After rotate24 (fun D' => Frame24 D D' ∧
      D'.reg (.h .r5) = D.reg (.h .r5) ∧
      low24 D' = (2 * low24 D + carry D.ccr) % 2 ^ 24 ∧
      (D'.word .r3).toNat = (2 * (D.word .r3).toNat +
        (2 * low24 D + carry D.ccr) / 2 ^ 24) % (2 * 32768)) D := by
  apply After.rotxl
  intro v₁ c₁ hv₁
  apply After.rotxl
  intro v₂ c₂ hv₂
  apply After.rotxl
  intro v₃ c₃ hv₃
  apply After.rotxl
  intro v₄ c₄ hv₄
  apply After.rotxl
  intro v₅ c₅ hv₅
  apply After.nil
  simp only [low24, Data.toNat_word, Data.put_reg, Data.put_ccr, reduceCtorEq,
    if_false, if_true, Reg8.h.injEq, Reg8.l.injEq] at hv₁ hv₂ hv₃ hv₄ hv₅ ⊢
  refine ⟨⟨⟨rfl, ?_⟩, ?_, ?_, ?_⟩, trivial, ?_, ?_⟩
  · simp [Data.word]
  · simp [Data.word]
  · simp [Data.word]
  · simp [Data.word]
  · have h₁ := v₁.isLt
    have h₂ := v₂.isLt
    have h₃ := v₃.isLt
    clear hv₄ hv₅
    omega
  · have h₁ := v₁.isLt
    have h₂ := v₂.isLt
    have h₃ := v₃.isLt
    have h₄ := v₄.isLt
    have h₅ := v₅.isLt
    have hout : (2 * (65536 * (D.reg (.l .r5)).toNat +
        (256 * (D.reg (.h .r6)).toNat + (D.reg (.l .r6)).toNat)) +
        carry D.ccr) / 2 ^ 24 = carry c₃ := by
      clear hv₄ hv₅
      omega
    rw [hout]
    clear hv₁ hv₂ hv₃ hout
    omega

/-- The state after `j` rounds, with `k` in the counter. -/
structure Loop24 (D₀ : Data) (n d c₀ j k : ℕ) (D : Data) : Prop where
  frame : Frame24 D₀ D
  divisor : (D₀.word .r4).toNat = d
  count : (D.reg (.h .r5)).toNat = k
  remainder : (D.word .r3).toNat = (rounds 32768 d n 24 j).remainder
  register : Register 24 n c₀ j (low24 D) (carry D.ccr)
    (rounds 32768 d n 24 j).quotient

variable {D₀ : Data} {Q : Word → Data → Prop} {n d c₀ j k : ℕ}

/-- A round up to the counter. -/
theorem round24 (hloop : Loop24 D₀ n d c₀ j k D) (hj : j < 24) (hc₀ : c₀ ≤ 1)
    (h : ∀ D', Loop24 D₀ n d c₀ (j + 1) k D' → Ends 0x34a D' Q) :
    Ends 0x33a D Q := by
  have hquot := rounds_quotient_lt 32768 d n 24 j
  apply Ends.block 0x346 (rotate24 ++ [.cmpW .r4 .r3]) (by decide)
  apply After.append
  apply (rotate24_after D).mono
  rintro D₁ ⟨hframe, hcount, hlow, hrem⟩
  rw [(hloop.register.rotate hj hc₀).1, hloop.remainder] at hrem
  have hr4 : (D₁.word .r4).toNat = d := by
    rw [hframe.r4, hloop.frame.r4, hloop.divisor]
  apply After.cmpW
  intro c₁ hc₁
  apply After.nil
  rw [hr4, hrem] at hc₁
  by_cases hlt : (2 * (rounds 32768 d n 24 j).remainder +
      shifted n 24 (j + 1) % 2) % (2 * 32768) < d
  · rw [if_pos hlt] at hc₁
    apply Ends.taken rfl ((taken_cs c₁).mpr hc₁)
    apply h
    refine ⟨hloop.frame.trans ⟨hframe.keeps, hframe.r0, hframe.r1, hframe.r4⟩,
      hloop.divisor, ?_, ?_, ?_⟩
    · rw [← hloop.count, ← hcount]
      rfl
    · rw [rounds, round_of_lt hlt]
      exact hrem
    · rw [rounds, round_of_lt hlt]
      have hnext := hloop.register.next 1 hj hc₀ hquot le_rfl
      rw [← hlow] at hnext
      show Register 24 n c₀ (j + 1) (low24 D₁) (carry c₁) _
      rw [hc₁]
      exact hnext
  · rw [if_neg hlt] at hc₁
    have hle := not_lt.mp hlt
    apply Ends.passed rfl
    · rw [taken_cs]
      show ¬carry c₁ = 1
      omega
    apply Ends.block 0x34a [.subW .r4 .r3] (by decide)
    apply After.subW
    intro high low c₂ hsub
    apply After.nil
    have hword : (D₁.setCcr c₁).word .r4 = D₁.word .r4 ∧
        (D₁.setCcr c₁).word .r3 = D₁.word .r3 := ⟨rfl, rfl⟩
    rw [hword.1, hword.2, hr4, hrem] at hsub
    have hcarry : carry c₂ = 0 := by
      have hhigh := high.isLt
      have hlow' := low.isLt
      have hd := (D₀.word .r4).isLt
      have hdivisor := hloop.divisor
      have hone := carry_le c₂
      omega
    apply h
    refine ⟨hloop.frame.trans (hframe.trans ⟨⟨rfl, ?_⟩, ?_, ?_, ?_⟩),
      hloop.divisor, ?_, ?_, ?_⟩
    · simp [Data.word]
    · simp [Data.word]
    · simp [Data.word]
    · simp [Data.word]
    · rw [← hloop.count, ← hcount]
      simp
    · rw [rounds, round_of_le hle, Data.toNat_word]
      simp only [Data.put2_reg, reduceCtorEq, if_false, if_true]
      omega
    · rw [rounds, round_of_le hle]
      have hnext := hloop.register.next 0 hj hc₀ hquot (Nat.zero_le 1)
      rw [← hlow] at hnext
      have hsame : low24 ((D₁.setCcr c₁).put2 .r3 high low c₂) = low24 D₁ := by
        simp [low24, Data.word]
      rw [hsame, Data.put2_ccr, hcarry]
      exact hnext

theorem toNat_pred {val : Byte} (h : val.toNat = k + 1) :
    (val - 1).toNat = k := by
  have hlt := val.isLt
  have hone : (1 : Byte).toNat = 1 := rfl
  rw [BitVec.toNat_sub, hone]
  omega

theorem count24 (hloop : Loop24 D₀ n d c₀ j (k + 1) D)
    (hnext : k ≠ 0 → ∀ D', Loop24 D₀ n d c₀ j k D' → Ends 0x33a D' Q)
    (hlast : k = 0 → ∀ D', Loop24 D₀ n d c₀ j 0 D' → Ends 0x34e D' Q) :
    Ends 0x34a D Q := by
  apply Ends.block 0x34c [.dec (.h .r5)] (by decide)
  apply After.dec
  intro val c₁ hval hshows
  apply After.nil
  have hcount : val.toNat = k := by
    rw [hval]
    exact toNat_pred hloop.count
  have hloop' : Loop24 D₀ n d c₀ j k (D.put (.h .r5) val c₁) := by
    refine ⟨hloop.frame.trans ⟨⟨rfl, ?_⟩, ?_, ?_, ?_⟩, hloop.divisor, ?_, ?_, ?_⟩
    · simp [Data.word]
    · simp [Data.word]
    · simp [Data.word]
    · simp [Data.word]
    · simpa using hcount
    · rw [← hloop.remainder]
      simp [Data.word]
    · have hregister := hloop.register
      rw [← hshows.carry] at hregister
      simpa [low24, Data.word] using hregister
  apply Ends.branch_ne rfl hshows
  · intro hne
    apply hnext _ _ hloop'
    rintro rfl
    exact hne (BitVec.eq_of_toNat_eq hcount)
  · intro hzero
    have hk : k = 0 := by
      rw [← hcount, hzero]
      rfl
    subst hk
    exact hlast rfl _ hloop'

theorem finish24_after (D : Data) :
    After finish24 (fun D' => D.Keeps D' ∧ D'.word .r0 = D.word .r0 ∧
      D'.word .r1 = D.word .r1 ∧
      (D'.long .r5 .r6).toNat =
        2 ^ 24 - 1 - (2 * low24 D + carry D.ccr) % 2 ^ 24 ∧
      (D'.long .r3 .r4).toNat = (D.word .r3).toNat) D := by
  apply After.rotxl
  intro v₁ c₁ hv₁
  apply After.rotxl
  intro v₂ c₂ hv₂
  apply After.rotxl
  intro v₃ c₃ hv₃
  apply After.notB
  intro v₄ c₄ hv₄ _
  apply After.notB
  intro v₅ c₅ hv₅ _
  apply After.notB
  intro v₆ c₆ hv₆ _
  apply After.movBI
  intro c₇ _
  apply After.movW
  intro v₇ v₈ c₈ hv₇ hv₈ _
  apply After.subW
  intro v₉ v₁₀ c₉ hsub
  apply After.nil
  simp only [low24, Data.toNat_long, Data.toNat_word, Data.put_reg,
    Data.put2_reg, Data.put_ccr, reduceCtorEq, if_false, if_true,
    Reg8.h.injEq, Reg8.l.injEq, BitVec.ofNat_eq_ofNat, BitVec.toNat_ofNat,
    Nat.zero_mod, Nat.mul_zero, Nat.zero_add]
    at hv₁ hv₂ hv₃ hv₄ hv₅ hv₆ hv₇ hv₈ hsub ⊢
  subst hv₇ hv₈
  refine ⟨⟨rfl, ?_⟩, ?_, ?_, ?_, ?_⟩
  · simp [Data.word]
  · simp [Data.word]
  · simp [Data.word]
  · have h₁ := v₁.isLt
    have h₂ := v₂.isLt
    have h₃ := v₃.isLt
    clear hsub
    omega
  · have h₉ := v₉.isLt
    have h₁₀ := v₁₀.isLt
    clear hv₁ hv₂ hv₃ hv₄ hv₅ hv₆
    omega

theorem divideLongWord_start (hr3 : D.reg (.h .r3) = 0) :
    After [.movB (.h .r5) (.l .r3), .movBI 24 (.h .r5)]
      (Loop24 D (D.long .r5 .r6).toNat (D.word .r4).toNat (carry D.ccr) 0 24)
      D := by
  have hdividend : (D.long .r5 .r6).toNat =
      16777216 * (D.reg (.h .r5)).toNat + low24 D := by
    rw [D.toNat_long, D.toNat_word .r5, low24]
    ring
  have hlow : low24 D < 16777216 := by
    have h₁ := (D.reg (.l .r5)).isLt
    have h₂ := (D.word .r6).isLt
    rw [low24]
    omega
  apply After.movB
  rintro v₁ c₁ rfl hc₁
  apply After.movBI
  intro c₂ hc₂
  apply After.nil
  refine ⟨⟨⟨rfl, ?_⟩, ?_, ?_, ?_⟩, rfl, ?_, ?_, ?_⟩
  · simp [Data.word]
  · simp [Data.word]
  · simp [Data.word]
  · simp [Data.word]
  · simp
  · rw [rounds, hdividend]
    simp [Data.toNat_word, hr3]
    omega
  · have hfirst := Register.first 24 (D.long .r5 .r6).toNat (carry D.ccr)
    rw [show (D.long .r5 .r6).toNat % 2 ^ 24 = low24 D by omega] at hfirst
    have hsame : low24 ((D.put (.l .r3) (D.reg (.h .r5)) c₁).put (.h .r5) 24 c₂)
        = low24 D := by
      simp [low24, Data.word]
    rw [hsame, Data.put_ccr, hc₂, Data.put_ccr, hc₁]
    exact hfirst

theorem divideLongWord_ends (hr3 : D.reg (.h .r3) = 0) :
    Ends 0x336 D (Divided32 D
      (rounds 32768 (D.word .r4).toNat (D.long .r5 .r6).toNat 24 24).quotient
      (rounds 32768 (D.word .r4).toNat (D.long .r5 .r6).toNat 24 24).remainder)
      := by
  apply Ends.block 0x33a [.movB (.h .r5) (.l .r3), .movBI 24 (.h .r5)]
    (by decide)
  apply (divideLongWord_start hr3).mono
  intro D₁ hloop
  apply Ends.rounds (fun j k D₂ hj hloop₂ => round24 hloop₂ hj (carry_le D.ccr))
    (fun j k D₂ => count24) rfl hloop
  intro D₂ hloop₂
  apply Ends.block 0x360 finish24 (by decide)
  apply (finish24_after D₂).mono
  rintro D₃ ⟨hkeeps, hr0, hr1, hquot, hrem⟩
  have hkeeps' := hloop₂.frame.keeps.trans hkeeps
  apply Ends.rts rfl
  refine ⟨?_, ?_, ?_, ?_, ?_, ?_, ?_⟩
  · rw [Data.top, hkeeps'.1, hkeeps'.2]
    rfl
  · rw [Data.dropWord_sp, hkeeps'.2]
  · rw [D₃.dropWord_word (by decide), hr0, hloop₂.frame.r0]
  · rw [D₃.dropWord_word (by decide), hr1, hloop₂.frame.r1]
  · intro vals _ hstack
    exact (hkeeps'.stack hstack).dropWord
  · rw [Data.long, D₃.dropWord_word (by decide), D₃.dropWord_word (by decide),
      ← Data.long, hquot, hloop₂.register.last (rounds_quotient_lt ..)]
  · rw [Data.long, D₃.dropWord_word (by decide), D₃.dropWord_word (by decide),
      ← Data.long, hrem, hloop₂.remainder]

end WordDivisor

section LongDivisor

structure Frame16 (D D' : Data) : Prop where
  keeps : D.Keeps D'
  r3 : D'.word .r3 = D.word .r3
  r4 : D'.word .r4 = D.word .r4

theorem Frame16.trans {D' D'' : Data} (h : Frame16 D D')
    (h' : Frame16 D' D'') : Frame16 D D'' :=
  ⟨h.keeps.trans h'.keeps, h'.r3.trans h.r3, h'.r4.trans h.r4⟩

theorem rotate16_after (D : Data) :
    After rotate16 (fun D' => Frame16 D D' ∧
      D'.reg (.l .r1) = D.reg (.l .r1) ∧
      (D'.word .r6).toNat = (2 * (D.word .r6).toNat + carry D.ccr) % 2 ^ 16 ∧
      (D'.long .r0 .r5).toNat = (2 * (D.long .r0 .r5).toNat +
        (2 * (D.word .r6).toNat + carry D.ccr) / 2 ^ 16) %
          (2 * 2147483648)) D := by
  apply After.rotxl
  intro v₁ c₁ hv₁
  apply After.rotxl
  intro v₂ c₂ hv₂
  apply After.rotxl
  intro v₃ c₃ hv₃
  apply After.rotxl
  intro v₄ c₄ hv₄
  apply After.rotxl
  intro v₅ c₅ hv₅
  apply After.rotxl
  intro v₆ c₆ hv₆
  apply After.nil
  simp only [Data.toNat_long, Data.toNat_word, Data.put_reg, Data.put_ccr,
    reduceCtorEq, if_false, if_true, Reg8.h.injEq, Reg8.l.injEq]
    at hv₁ hv₂ hv₃ hv₄ hv₅ hv₆ ⊢
  refine ⟨⟨⟨rfl, ?_⟩, ?_, ?_⟩, trivial, ?_, ?_⟩
  · simp [Data.word]
  · simp [Data.word]
  · simp [Data.word]
  · have h₁ := v₁.isLt
    have h₂ := v₂.isLt
    clear hv₃ hv₄ hv₅ hv₆
    omega
  · have h₁ := v₁.isLt
    have h₂ := v₂.isLt
    have h₃ := v₃.isLt
    have h₄ := v₄.isLt
    have h₅ := v₅.isLt
    have h₆ := v₆.isLt
    have hout : (2 * (256 * (D.reg (.h .r6)).toNat +
        (D.reg (.l .r6)).toNat) + carry D.ccr) / 2 ^ 16 = carry c₂ := by
      clear hv₃ hv₄ hv₅ hv₆
      omega
    rw [hout]
    clear hv₁ hv₂ hout
    omega

theorem subtract16_after (D : Data) :
    After subtract16 (fun D' => Frame16 D D' ∧
      D'.reg (.l .r1) = D.reg (.l .r1) ∧ D'.word .r6 = D.word .r6 ∧
      (D'.long .r0 .r5).toNat + (D.long .r3 .r4).toNat =
        (D.long .r0 .r5).toNat + 4294967296 * carry D'.ccr) D := by
  apply After.subW
  intro v₁ v₂ c₁ hv₁
  apply After.subX
  intro v₃ c₂ hv₃
  apply After.subX
  intro v₄ c₃ hv₄
  apply After.nil
  simp only [Data.toNat_long, Data.toNat_word, Data.put_reg, Data.put2_reg,
    Data.put_ccr, Data.put2_ccr, reduceCtorEq, if_false, if_true,
    Reg8.h.injEq, Reg8.l.injEq] at hv₁ hv₃ hv₄ ⊢
  refine ⟨⟨⟨rfl, ?_⟩, ?_, ?_⟩, trivial, ?_, ?_⟩
  · simp [Data.word]
  · simp [Data.word]
  · simp [Data.word]
  · simp [Data.word]
  · omega

theorem restore16_after (D : Data) :
    After restore16 (fun D' => Frame16 D D' ∧
      D'.reg (.l .r1) = D.reg (.l .r1) ∧ D'.word .r6 = D.word .r6 ∧
      (D'.long .r0 .r5).toNat + 4294967296 * carry D'.ccr =
        (D.long .r0 .r5).toNat + (D.long .r3 .r4).toNat) D := by
  apply After.addW
  intro v₁ v₂ c₁ hv₁
  apply After.addX
  intro v₃ c₂ hv₃
  apply After.addX
  intro v₄ c₃ hv₄
  apply After.nil
  simp only [Data.toNat_long, Data.toNat_word, Data.put_reg, Data.put2_reg,
    Data.put_ccr, Data.put2_ccr, reduceCtorEq, if_false, if_true,
    Reg8.h.injEq, Reg8.l.injEq] at hv₁ hv₃ hv₄ ⊢
  refine ⟨⟨⟨rfl, ?_⟩, ?_, ?_⟩, trivial, ?_, ?_⟩
  · simp [Data.word]
  · simp [Data.word]
  · simp [Data.word]
  · simp [Data.word]
  · omega

/-- The state after `j` rounds, with `k` in the counter. -/
structure Loop16 (D₀ : Data) (n d c₀ j k : ℕ) (D : Data) : Prop where
  frame : Frame16 D₀ D
  divisor : (D₀.long .r3 .r4).toNat = d
  count : (D.reg (.l .r1)).toNat = k
  remainder : (D.long .r0 .r5).toNat = (rounds 2147483648 d n 16 j).remainder
  register : Register 16 n c₀ j (D.word .r6).toNat (carry D.ccr)
    (rounds 2147483648 d n 16 j).quotient

variable {D₀ : Data} {Q : Word → Data → Prop} {n d c₀ j k : ℕ}

theorem round16 (hloop : Loop16 D₀ n d c₀ j k D) (hj : j < 16) (hc₀ : c₀ ≤ 1)
    (h : ∀ D', Loop16 D₀ n d c₀ (j + 1) k D' → Ends 0x384 D' Q) :
    Ends 0x36a D Q := by
  have hquot := rounds_quotient_lt 2147483648 d n 16 j
  have hd := (D₀.long .r3 .r4).isLt
  rw [hloop.divisor] at hd
  apply Ends.block 0x37c (rotate16 ++ subtract16) (by decide)
  apply After.append
  apply (rotate16_after D).mono
  rintro D₁ ⟨hframe₁, hcount₁, hlow₁, hrem₁⟩
  rw [(hloop.register.rotate hj hc₀).1, hloop.remainder] at hrem₁
  have hdivisor : (D₁.long .r3 .r4).toNat = d := by
    rw [Data.long, hframe₁.r3, hframe₁.r4, hloop.frame.r3, hloop.frame.r4]
    exact hloop.divisor
  apply (subtract16_after D₁).mono
  rintro D₂ ⟨hframe₂, hcount₂, hlow₂, hrem₂⟩
  have hdivisor₂ : (D₂.long .r3 .r4).toNat = d := by
    rw [Data.long, hframe₂.r3, hframe₂.r4]
    exact hdivisor
  have hbound₂ := (D₂.long .r0 .r5).isLt
  rw [hdivisor, hrem₁] at hrem₂
  have hframe := hloop.frame.trans (hframe₁.trans hframe₂)
  by_cases hlt : (2 * (rounds 2147483648 d n 16 j).remainder +
      shifted n 16 (j + 1) % 2) % (2 * 2147483648) < d
  · -- the divisor did not fit and is added back
    have hcarry₂ : carry D₂.ccr = 1 := by
      have hone := carry_le D₂.ccr
      omega
    apply Ends.passed rfl
    · rw [taken_cc, hcarry₂]
      exact one_ne_zero
    apply Ends.block 0x384 restore16 (by decide)
    apply (restore16_after D₂).mono
    rintro D₃ ⟨hframe₃, hcount₃, hlow₃, hrem₃⟩
    rw [hdivisor₂] at hrem₃
    have hbound₃ := (D₃.long .r0 .r5).isLt
    have hcarry₃ : carry D₃.ccr = 1 := by
      have hone := carry_le D₃.ccr
      omega
    apply h
    refine ⟨hframe.trans hframe₃, hloop.divisor, ?_, ?_, ?_⟩
    · rw [hcount₃, hcount₂, hcount₁, hloop.count]
    · rw [rounds, round_of_lt hlt]
      show _ = (2 * (rounds 2147483648 d n 16 j).remainder +
        shifted n 16 (j + 1) % 2) % (2 * 2147483648)
      omega
    · rw [rounds, round_of_lt hlt, hlow₃, hlow₂, hlow₁, hcarry₃]
      exact hloop.register.next 1 hj hc₀ hquot le_rfl
  · have hle := not_lt.mp hlt
    have hcarry₂ : carry D₂.ccr = 0 := by
      have hone := carry_le D₂.ccr
      omega
    apply Ends.taken rfl ((taken_cc D₂.ccr).mpr hcarry₂)
    apply h
    refine ⟨hframe, hloop.divisor, ?_, ?_, ?_⟩
    · rw [hcount₂, hcount₁, hloop.count]
    · rw [rounds, round_of_le hle]
      show _ = (2 * (rounds 2147483648 d n 16 j).remainder +
        shifted n 16 (j + 1) % 2) % (2 * 2147483648) - d
      omega
    · rw [rounds, round_of_le hle, hlow₂, hlow₁, hcarry₂]
      exact hloop.register.next 0 hj hc₀ hquot (Nat.zero_le 1)

theorem count16 (hloop : Loop16 D₀ n d c₀ j (k + 1) D)
    (hnext : k ≠ 0 → ∀ D', Loop16 D₀ n d c₀ j k D' → Ends 0x36a D' Q)
    (hlast : k = 0 → ∀ D', Loop16 D₀ n d c₀ j 0 D' → Ends 0x388 D' Q) :
    Ends 0x384 D Q := by
  apply Ends.block 0x386 [.dec (.l .r1)] (by decide)
  apply After.dec
  intro val c₁ hval hshows
  apply After.nil
  have hcount : val.toNat = k := by
    rw [hval]
    exact toNat_pred hloop.count
  have hloop' : Loop16 D₀ n d c₀ j k (D.put (.l .r1) val c₁) := by
    refine ⟨hloop.frame.trans ⟨⟨rfl, ?_⟩, ?_, ?_⟩, hloop.divisor, ?_, ?_, ?_⟩
    · simp [Data.word]
    · simp [Data.word]
    · simp [Data.word]
    · simpa using hcount
    · rw [← hloop.remainder]
      simp [Data.long, Data.word]
    · have hregister := hloop.register
      rw [← hshows.carry] at hregister
      simpa [Data.word] using hregister
  apply Ends.branch_ne rfl hshows
  · intro hne
    apply hnext _ _ hloop'
    rintro rfl
    exact hne (BitVec.eq_of_toNat_eq hcount)
  · intro hzero
    have hk : k = 0 := by
      rw [← hcount, hzero]
      rfl
    subst hk
    exact hlast rfl _ hloop'

theorem finish16_after (D : Data) :
    After finish16 (fun D' => D.Keeps D' ∧
      (D'.long .r5 .r6).toNat =
        2 ^ 16 - 1 - (2 * (D.word .r6).toNat + carry D.ccr) % 2 ^ 16 ∧
      (D'.long .r3 .r4).toNat = (D.long .r0 .r5).toNat) D := by
  apply After.rotxl
  intro v₁ c₁ hv₁
  apply After.rotxl
  intro v₂ c₂ hv₂
  apply After.notB
  intro v₃ c₃ hv₃ _
  apply After.notB
  intro v₄ c₄ hv₄ _
  apply After.movW
  intro v₅ v₆ c₅ hv₅ hv₆ _
  apply After.movW
  intro v₇ v₈ c₆ hv₇ hv₈ _
  apply After.subW
  intro v₉ v₁₀ c₇ hsub
  apply After.nil
  simp only [Data.toNat_long, Data.toNat_word, Data.put_reg,
    Data.put2_reg, Data.put_ccr, reduceCtorEq, if_false, if_true,
    Reg8.h.injEq, Reg8.l.injEq]
    at hv₁ hv₂ hv₃ hv₄ hv₅ hv₆ hv₇ hv₈ hsub ⊢
  subst hv₅ hv₆ hv₇ hv₈
  refine ⟨⟨rfl, ?_⟩, ?_, rfl⟩
  · simp [Data.word]
  · have h₁ := v₁.isLt
    have h₂ := v₂.isLt
    have h₉ := v₉.isLt
    have h₁₀ := v₁₀.isLt
    have hzero : 256 * v₉.toNat + v₁₀.toNat = 0 := by
      clear hv₁ hv₂ hv₃ hv₄
      omega
    clear hsub
    omega

/-- The registers are saved, and the dividend is in `r0:r5:r6`. -/
theorem divideLongLong_start (D : Data) :
    After [.push .r0, .push .r1, .subW .r0 .r0, .movBI 16 (.l .r1)]
      (fun D' => ((D.pushWord (D.word .r0)).pushWord (D.word .r1)).Keeps D' ∧
        Loop16 D' (D.long .r5 .r6).toNat (D.long .r3 .r4).toNat (carry D'.ccr)
          0 16 D') D := by
  apply After.push
  intro c₁ hc₁
  apply After.push
  intro c₂ hc₂
  have hr1 : ((D.pushWord (D.word .r0)).setCcr c₁).word .r1 = D.word .r1 :=
    D.pushWord_word _ (by decide)
  rw [hr1]
  apply After.subW
  intro v₁ v₂ c₃ hv₁
  apply After.movBI
  intro c₄ _
  apply After.nil
  have hzero : v₁.toNat = 0 ∧ v₂.toNat = 0 := by
    have h₁ := v₁.isLt
    have h₂ := v₂.isLt
    omega
  have hdividend := D.toNat_long .r5 .r6
  have hlow := (D.word .r6).isLt
  have hupper : (D.long .r5 .r6).toNat / 2 ^ 16 = (D.word .r5).toNat := by
    omega
  have hlower : (D.long .r5 .r6).toNat % 2 ^ 16 = (D.word .r6).toNat := by
    omega
  refine ⟨⟨rfl, ?_⟩, ⟨⟨rfl, rfl⟩, rfl, rfl⟩, ?_, ?_, ?_, ?_⟩
  · rfl
  · simp [Data.long, Data.word]
  · simp
  · rw [rounds, hupper, D.toNat_word]
    simp [Data.toNat_long, Data.toNat_word, hzero.1, hzero.2]
  · have hfirst := Register.first 16 (D.long .r5 .r6).toNat (carry c₄)
    rw [hlower, D.toNat_word] at hfirst
    simpa [Data.toNat_word, rounds] using hfirst

theorem divideLongLong_ends (D : Data) :
    Ends 0x362 D (Divided32 D
      (rounds 2147483648 (D.long .r3 .r4).toNat (D.long .r5 .r6).toNat 16
        16).quotient
      (rounds 2147483648 (D.long .r3 .r4).toNat (D.long .r5 .r6).toNat 16
        16).remainder) := by
  apply Ends.block 0x36a
    [.push .r0, .push .r1, .subW .r0 .r0, .movBI 16 (.l .r1)] (by decide)
  apply (divideLongLong_start D).mono
  rintro D₁ ⟨hkeeps₁, hloop⟩
  apply Ends.rounds
    (fun j k D₂ hj hloop₂ => round16 hloop₂ hj (carry_le D₁.ccr))
    (fun j k D₂ => count16) rfl hloop
  intro D₂ hloop₂
  apply Ends.block 0x396 finish16 (by decide)
  apply (finish16_after D₂).mono
  rintro D₃ ⟨hkeeps₃, hquot, hrem⟩
  have hkeeps := hkeeps₁.trans (hloop₂.frame.keeps.trans hkeeps₃)
  have hstack : ∀ vals, vals.length ≤ 2 → D.Stack (D.top :: vals) →
      D₃.Stack (D.word .r1 :: D.word .r0 :: D.top :: vals) := by
    intro vals hroom hstack
    apply hkeeps.stack
    apply Data.Stack.pushWord
    · exact hstack.pushWord _ (by rw [List.length_cons]; omega)
    · rw [List.length_cons, List.length_cons]
      omega
  apply Ends.popBoth rfl rfl rfl (hstack [] (by simp) ⟨rfl, trivial⟩)
  intro D' hram hsp hr0 hr1 hsame
  refine ⟨rfl, ?_, hr0, hr1, ?_, ?_, ?_⟩
  · rw [hsp, hkeeps.2, Data.pushWord_sp, Data.pushWord_sp, Ends.sp_back]
  · intro vals hroom hvals
    rw [Data.Stack, hram, hsp]
    exact (hstack vals hroom hvals).2.2.2
  · rw [Data.long, hsame .r5 (by decide) (by decide) (by decide),
      hsame .r6 (by decide) (by decide) (by decide), ← Data.long, hquot,
      hloop₂.register.last (rounds_quotient_lt ..)]
  · rw [Data.long, hsame .r3 (by decide) (by decide) (by decide),
      hsame .r4 (by decide) (by decide) (by decide), ← Data.long, hrem,
      hloop₂.remainder]

end LongDivisor

end Rom

end BrickEmu
