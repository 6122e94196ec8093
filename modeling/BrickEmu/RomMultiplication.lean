import BrickEmu.RomRules

/-!
# The 32-bit multiplication of the ROM

The upper words are multiplied into the upper half of the result, the lower
words into all of it.  In both products of the upper words one partial product
is added twice.
-/

namespace BrickEmu

namespace Rom

variable {D : Data}

/-- The registers that hold the operands, but for one. -/
structure Operands (r : Reg16) (D D' : Data) : Prop where
  keeps : D.Keeps D'
  same : ∀ x, x ≠ r → x ≠ .r0 → x ≠ .r1 →
    D'.reg (.h x) = D.reg (.h x) ∧ D'.reg (.l x) = D.reg (.l x)

theorem mulsi3Upper_after (D : Data) :
    After mulsi3Upper (fun D' => Operands .r3 D D' ∧
      (D'.word .r3).toNat =
        ((D.reg (.l .r3)).toNat * (D.reg (.l .r6)).toNat +
          256 * ((D.reg (.l .r6)).toNat * (D.reg (.h .r3)).toNat +
            2 * ((D.reg (.l .r3)).toNat * (D.reg (.h .r6)).toNat))) %
          65536) D := by
  apply After.movW
  intro v₁ v₂ c₁ hv₁ hv₂ hc₁
  apply After.mulXU
  intro high₁ low₁ hmul₁
  apply After.movW
  intro v₃ v₄ c₂ hv₃ hv₄ hc₂
  apply After.mulXU
  intro high₂ low₂ hmul₂
  apply After.addB
  intro sum₁ c₃ hsum₁
  apply After.mulXU
  intro high₃ low₃ hmul₃
  apply After.addB
  intro sum₂ c₄ hsum₂
  apply After.addB
  intro sum₃ c₅ hsum₃
  apply After.nil
  simp only [Data.toNat_word, Data.put_reg, Data.put2_reg, reduceCtorEq,
    if_false, if_true, Reg8.h.injEq, Reg8.l.injEq]
    at hv₁ hv₂ hmul₁ hv₃ hv₄ hmul₂ hsum₁ hmul₃ hsum₂ hsum₃ ⊢
  subst hv₁ hv₂ hv₃ hv₄
  refine ⟨⟨⟨rfl, ?_⟩, ?_⟩, ?_⟩
  · simp [Data.word]
  · intro x hx hx0 hx1
    simp [hx, hx0, hx1]
  · have hbyte := sum₃.isLt
    have hbyte' := low₃.isLt
    omega

theorem mulsi3Lower_after (D : Data) :
    After mulsi3Lower (fun D' => Operands .r5 D D' ∧
      (D'.word .r5).toNat =
        ((D.reg (.l .r5)).toNat * (D.reg (.l .r4)).toNat +
          256 * ((D.reg (.l .r4)).toNat * (D.reg (.h .r5)).toNat +
            2 * ((D.reg (.l .r5)).toNat * (D.reg (.h .r4)).toNat)) +
          (D.word .r3).toNat) % 65536) D := by
  apply After.movW
  intro v₁ v₂ c₁ hv₁ hv₂ hc₁
  apply After.mulXU
  intro high₁ low₁ hmul₁
  apply After.movW
  intro v₃ v₄ c₂ hv₃ hv₄ hc₂
  apply After.mulXU
  intro high₂ low₂ hmul₂
  apply After.addB
  intro sum₁ c₃ hsum₁
  apply After.mulXU
  intro high₃ low₃ hmul₃
  apply After.addB
  intro sum₂ c₄ hsum₂
  apply After.addB
  intro sum₃ c₅ hsum₃
  apply After.addW
  intro sum₄ sum₅ c₆ hsum₄
  apply After.nil
  simp only [Data.toNat_word, Data.put_reg, Data.put2_reg, reduceCtorEq,
    if_false, if_true, Reg8.h.injEq, Reg8.l.injEq]
    at hv₁ hv₂ hmul₁ hv₃ hv₄ hmul₂ hsum₁ hmul₃ hsum₂ hsum₃ hsum₄ ⊢
  subst hv₁ hv₂ hv₃ hv₄
  refine ⟨⟨⟨rfl, ?_⟩, ?_⟩, ?_⟩
  · simp [Data.word]
  · intro x hx hx0 hx1
    simp [hx, hx0, hx1]
  · have hbyte := sum₄.isLt
    have hbyte' := sum₅.isLt
    omega

/-- A word added at the second byte, with the carries. -/
theorem add_at_byte {s₁ s₂ s₃ c₁ c₂ c₃ b₁ b₂ b₃ high low : ℕ}
    (h₁ : s₁ + 256 * c₁ = b₁ + low) (h₂ : s₂ + 256 * c₂ = b₂ + high + c₁)
    (h₃ : s₃ + 256 * c₃ = b₃ + c₂) :
    65536 * s₃ + 256 * s₂ + s₁ + 16777216 * c₃ =
      65536 * b₃ + 256 * b₂ + b₁ + (256 * high + low) := by
  omega

theorem mulsi3Words_after (D : Data) :
    After mulsi3Words (fun D' => D.Keeps D' ∧
      (D'.long .r5 .r6).toNat =
        (65536 * (D.word .r5).toNat +
          65536 * ((D.reg (.h .r4)).toNat * (D.reg (.h .r6)).toNat) +
          256 * ((D.reg (.l .r6)).toNat * (D.reg (.h .r4)).toNat) +
          256 * ((D.reg (.l .r4)).toNat * (D.reg (.h .r6)).toNat) +
          (D.reg (.l .r6)).toNat * (D.reg (.l .r4)).toNat) % 4294967296) D := by
  apply After.movB
  intro v₁ c₁ hv₁ hc₁
  apply After.mulXU
  intro high₁ low₁ hmul₁
  apply After.addW
  intro upper₁ upper₂ c₂ hupper
  apply After.movW
  intro v₂ v₃ c₃ hv₂ hv₃ hc₃
  apply After.mulXU
  intro high₂ low₂ hmul₂
  apply After.movW
  intro v₄ v₅ c₄ hv₄ hv₅ hc₄
  apply After.mulXU
  intro high₃ low₃ hmul₃
  apply After.mulXU
  intro high₄ low₄ hmul₄
  apply After.addB
  intro sum₁ c₅ hsum₁
  apply After.addX
  intro sum₂ c₆ hsum₂
  apply After.addXI
  intro sum₃ c₇ hsum₃
  apply After.addB
  intro sum₄ c₈ hsum₄
  apply After.addX
  intro sum₅ c₉ hsum₅
  apply After.addXI
  intro sum₆ c₁₀ hsum₆
  apply After.nil
  simp only [Data.toNat_long, Data.toNat_word, Data.put_reg, Data.put2_reg,
    Data.put_ccr, Data.put2_ccr, reduceCtorEq, if_false, if_true,
    Reg8.h.injEq, Reg8.l.injEq, BitVec.ofNat_eq_ofNat, BitVec.toNat_ofNat,
    Nat.zero_mod, Nat.add_zero]
    at hv₁ hmul₁ hupper hv₂ hv₃ hmul₂ hv₄ hv₅ hmul₃ hmul₄ hsum₁ hsum₂ hsum₃
      hsum₄ hsum₅ hsum₆ ⊢
  subst hv₁ hv₂ hv₃ hv₄ hv₅
  refine ⟨⟨rfl, ?_⟩, ?_⟩
  · simp [Data.word]
  · have hround₁ := add_at_byte hsum₁ hsum₂ hsum₃
    have hround₂ := add_at_byte hsum₄ hsum₅ hsum₆
    rw [hmul₃] at hround₁
    rw [hmul₂] at hround₂
    rw [hmul₁] at hupper
    have hlow := low₄.isLt
    have hbyte₄ := sum₄.isLt
    have hbyte₅ := sum₅.isLt
    have hbyte₆ := sum₆.isLt
    clear hsum₁ hsum₂ hsum₃ hsum₄ hsum₅ hsum₆ hmul₁ hmul₂ hmul₃
    omega

/-- The sixteen byte products, six of which lie above the result. -/
theorem product_mod (r3h r3l r4h r4l r5h r5l r6h r6l : ℕ) :
    (65536 * ((r5l * r4l + 256 * (r4l * r5h + 2 * (r5l * r4h)) +
          (r3l * r6l + 256 * (r6l * r3h + 2 * (r3l * r6h))) % 65536) % 65536) +
        65536 * (r4h * r6h) + 256 * (r6l * r4h) + 256 * (r4l * r6h) +
        r6l * r4l) % 4294967296 =
      ((65536 * (256 * r5h + r5l) + (256 * r6h + r6l)) *
          (65536 * (256 * r3h + r3l) + (256 * r4h + r4l)) +
        16777216 * (r6h * r3l + r4h * r5l)) % 4294967296 := by
  have hproduct : (65536 * (256 * r5h + r5l) + (256 * r6h + r6l)) *
      (65536 * (256 * r3h + r3l) + (256 * r4h + r4l)) =
      4294967296 * ((256 * r5h + r5l) * (256 * r3h + r3l) +
          (r5h * r4h + r6h * r3h)) +
        16777216 * (r5l * r4h + r4l * r5h + r6l * r3h + r3l * r6h) +
        65536 * (r5l * r4l + r4h * r6h + r3l * r6l) +
        256 * (r6l * r4h + r4l * r6h) + r6l * r4l := by
    ring
  rw [hproduct, Nat.mul_comm r6h r3l, Nat.mul_comm r4h r5l]
  omega

/-- The partial products that are added twice. -/
def twice (D : Data) : ℕ :=
  (D.reg (.h .r6)).toNat * (D.reg (.l .r3)).toNat +
    (D.reg (.h .r4)).toNat * (D.reg (.l .r5)).toNat

theorem mulsi3_body (D : Data) :
    After (mulsi3Upper ++ mulsi3Lower ++ mulsi3Words) (fun D' => D.Keeps D' ∧
      (D'.long .r5 .r6).toNat =
        ((D.long .r5 .r6).toNat * (D.long .r3 .r4).toNat +
          16777216 * twice D) % 4294967296) D := by
  apply After.append
  apply After.append
  apply (mulsi3Upper_after D).mono
  rintro D₁ ⟨⟨hkeeps₁, hsame₁⟩, hr3⟩
  apply (mulsi3Lower_after D₁).mono
  rintro D₂ ⟨⟨hkeeps₂, hsame₂⟩, hr5⟩
  apply (mulsi3Words_after D₂).mono
  rintro D₃ ⟨hkeeps₃, hresult⟩
  refine ⟨(hkeeps₁.trans hkeeps₂).trans hkeeps₃, ?_⟩
  obtain ⟨h4, l4⟩ := hsame₁ .r4 (by decide) (by decide) (by decide)
  obtain ⟨h5, l5⟩ := hsame₁ .r5 (by decide) (by decide) (by decide)
  obtain ⟨h6, l6⟩ := hsame₁ .r6 (by decide) (by decide) (by decide)
  obtain ⟨h4', l4'⟩ := hsame₂ .r4 (by decide) (by decide) (by decide)
  obtain ⟨h6', l6'⟩ := hsame₂ .r6 (by decide) (by decide) (by decide)
  rw [h4, l4, h5, l5, hr3] at hr5
  rw [hr5, h4', l4', h6', l6', h4, l4, h6, l6] at hresult
  rw [hresult, twice, D.toNat_long, D.toNat_long, D.toNat_word, D.toNat_word,
    D.toNat_word, D.toNat_word]
  generalize (D.reg (.h .r3)).toNat = r3h
  generalize (D.reg (.l .r3)).toNat = r3l
  generalize (D.reg (.h .r4)).toNat = r4h
  generalize (D.reg (.l .r4)).toNat = r4l
  generalize (D.reg (.h .r5)).toNat = r5h
  generalize (D.reg (.l .r5)).toNat = r5l
  generalize (D.reg (.h .r6)).toNat = r6h
  generalize (D.reg (.l .r6)).toNat = r6l
  exact product_mod r3h r3l r4h r4l r5h r5l r6h r6l

theorem mulsi3_push (D : Data) :
    After [.push .r0, .push .r1] (fun D' =>
      ((D.pushWord (D.word .r0)).pushWord (D.word .r1)).Keeps D' ∧
        D'.long .r5 .r6 = D.long .r5 .r6 ∧ D'.long .r3 .r4 = D.long .r3 .r4 ∧
        twice D' = twice D) D := by
  apply After.push
  intro c₁ hc₁
  apply After.push
  intro c₂ hc₂
  apply After.nil
  have hr1 : ((D.pushWord (D.word .r0)).setCcr c₁).word .r1 = D.word .r1 :=
    D.pushWord_word _ (by decide)
  rw [hr1]
  refine ⟨⟨rfl, rfl⟩, ?_, ?_, ?_⟩
  · simp [Data.long, Data.word]
  · simp [Data.long, Data.word]
  · simp [twice]

/-- `mulsi3` multiplies and keeps `r0`, `r1` and the stack pointer. -/
def MulsiRight (D : Data) : Prop :=
  Ends mulsi3 D fun pc' D' => pc' = D.top ∧ D'.word .r7 = D.word .r7 + 2 ∧
    D'.word .r0 = D.word .r0 ∧ D'.word .r1 = D.word .r1 ∧
    D'.long .r5 .r6 = D.long .r5 .r6 * D.long .r3 .r4

theorem mulsi3_ends (D : Data) :
    Ends mulsi3 D fun pc' D' => pc' = D.top ∧ D'.word .r7 = D.word .r7 + 2 ∧
      D'.word .r0 = D.word .r0 ∧ D'.word .r1 = D.word .r1 ∧
      (D'.long .r5 .r6).toNat =
        ((D.long .r5 .r6).toNat * (D.long .r3 .r4).toNat +
          16777216 * twice D) % 4294967296 := by
  have hstack : D.Stack [D.top] := ⟨rfl, trivial⟩
  have hpushed := (hstack.pushWord (D.word .r0) (by simp)).pushWord
    (D.word .r1) (by simp)
  apply Ends.block 0x202 [.push .r0, .push .r1] (by decide)
  apply (mulsi3_push D).mono
  rintro D₁ ⟨hkeeps₁, hfirst, hsecond, htwice⟩
  apply Ends.block 0x240 (mulsi3Upper ++ mulsi3Lower ++ mulsi3Words) (by decide)
  apply (mulsi3_body D₁).mono
  rintro D₂ ⟨hkeeps₂, hresult⟩
  have hkeeps := hkeeps₁.trans hkeeps₂
  apply Ends.popBoth rfl rfl rfl (hkeeps.stack hpushed)
  intro D' _ hsp hr0 hr1 hsame
  refine ⟨rfl, ?_, hr0, hr1, ?_⟩
  · rw [hsp, hkeeps.2, Data.pushWord_sp, Data.pushWord_sp, Ends.sp_back]
  · rw [Data.toNat_long] at hresult
    rw [Data.toNat_long, hsame .r5 (by decide) (by decide) (by decide),
      hsame .r6 (by decide) (by decide) (by decide), hresult, hfirst, hsecond,
      htwice]

theorem add_twice_mod {x k : ℕ} :
    (x + 16777216 * k) % 4294967296 = x % 4294967296 ↔ k % 256 = 0 := by
  omega

theorem mulsiRight_twice (D : Data) : MulsiRight D ↔ twice D % 256 = 0 := by
  have hends := mulsi3_ends D
  rw [← add_twice_mod
    (x := (D.long .r5 .r6).toNat * (D.long .r3 .r4).toNat)]
  constructor
  · intro hright
    obtain ⟨pc', D', -, ⟨-, -, -, -, hresult⟩, -, -, -, -, hproduct⟩ :=
      hends.unique hright
    rw [← hresult, hproduct, BitVec.toNat_mul]
  · intro hexact
    apply hends.mono
    rintro pc' D' ⟨hpc, hsp, hr0, hr1, hresult⟩
    refine ⟨hpc, hsp, hr0, hr1, ?_⟩
    apply BitVec.eq_of_toNat_eq
    rw [hresult, hexact, BitVec.toNat_mul]

theorem mulsiRight_iff (D : Data) :
    MulsiRight D ↔
      ((D.reg (.h .r6)).toNat * (D.reg (.l .r3)).toNat +
        (D.reg (.h .r4)).toNat * (D.reg (.l .r5)).toNat) % 256 = 0 :=
  mulsiRight_twice D

/-- `0x100 * 0x10000`. -/
def factors : Data where
  reg := fun
    | .h .r6 => 1
    | .l .r3 => 1
    | _ => 0
  ccr := 0
  ram := fun _ => 0

theorem mulsi3_wrong_factors : ¬MulsiRight factors := by
  rw [mulsiRight_twice]
  decide

end Rom

end BrickEmu
