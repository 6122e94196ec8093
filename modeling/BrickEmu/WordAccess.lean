import BrickEmu.AsmFlags

/-!
# Words and bytes of the emulated memory

`SET_WORD` and `GET_WORD` decide separately whether an access is illegal.  A
load refuses an odd address and a store does not, and a store to an illegal
area has written both bytes before it raises the trap.  Neither looks at the
type of the second byte.
-/

namespace BrickEmu

namespace Machine

/-- An access that finds no trap raised raises none. -/
def Accepts (access : Machine → Machine) (m : Machine) : Prop :=
  (access { m with dbTrap := 0 }).dbTrap = 0

/-- Neither a motor port nor a register of a peripheral. -/
def NoIo (addr : Word) (m : Machine) : Prop :=
  m.memtype addr.toNat &&& MEMTYPE_MOTOR = 0 ∧
    (m.isDiv addr.toNat = true → addr.toNat ≤ 0xff88)

/-- Stores and loads of a word agree on the address, and an accepted store
sets the two bytes and no others. -/
structure WordConsistent (m : Machine) (addr val : Word) : Prop where
  accepted : m.Accepts (setWord addr val) ↔
    m.Accepts fun m => (m.getWord addr).2
  word : m.Accepts (setWord addr val) →
    ((m.setWord addr val).getWord addr).1 = val
  high : m.Accepts (setWord addr val) →
    ((m.setWord addr val).getByte addr).1 = val.extractLsb' 8 8
  low : m.Accepts (setWord addr val) →
    ((m.setWord addr val).getByte (addr + 1)).1 = val.extractLsb' 0 8
  others : m.Accepts (setWord addr val) → ∀ other : Word, other ≠ addr →
    other ≠ addr + 1 →
      (m.setWord addr val).memory other.toNat = m.memory other.toNat
  refused : ¬m.Accepts (setWord addr val) → ∀ other : Word,
    (m.setWord addr val).memory other.toNat = m.memory other.toNat

section Accesses

variable {m : Machine} {addr val : Word}

theorem setWord_of_noIo (h : m.NoIo addr) (val : Word) :
    m.setWord addr val =
      let stored := (m.poke addr.toNat (val.extractLsb' 8 8)).poke
        (addr.toNat + 1) (val.extractLsb' 0 8)
      if m.isDiv addr.toNat then stored.illegalAccess else stored := by
  have hmotor : ¬m.memtype addr.toNat &&& MEMTYPE_MOTOR ≠ 0 :=
    not_not_intro h.1
  simp only [setWord, if_neg hmotor]
  cases hdiv : m.isDiv addr.toNat with
  | false =>
      have htype : ¬m.memtype addr.toNat &&& MEMTYPE_DIV ≠ 0 := by
        simpa [isDiv] using hdiv
      rw [if_neg htype]
      rfl
  | true =>
      have htype : m.memtype addr.toNat &&& MEMTYPE_DIV ≠ 0 := by
        simpa [isDiv] using hdiv
      rw [if_pos htype, if_neg (Nat.not_lt.mpr (h.2 hdiv))]
      rfl

/-- The bytes are stored whether or not the access is legal. -/
theorem setWord_memory (h : m.NoIo addr) (val : Word) (x : ℕ) :
    (m.setWord addr val).memory x =
      if x = addr.toNat + 1 then val.extractLsb' 0 8
      else if x = addr.toNat then val.extractLsb' 8 8
      else m.memory x := by
  have hstored : (m.setWord addr val).memory =
      ((m.poke addr.toNat (val.extractLsb' 8 8)).poke (addr.toNat + 1)
        (val.extractLsb' 0 8)).memory := by
    rw [setWord_of_noIo h]
    dsimp only
    split_ifs <;> rfl
  rw [hstored]
  simp only [poke, Function.update_apply]

theorem setWord_isDiv (h : m.NoIo addr) (val : Word) (x : ℕ) :
    (m.setWord addr val).isDiv x = m.isDiv x := by
  rw [setWord_of_noIo h]
  dsimp only
  split_ifs <;> rfl

theorem accepts_setWord_iff (h : m.NoIo addr) (val : Word) :
    m.Accepts (setWord addr val) ↔ m.isDiv addr.toNat = false := by
  have hready : ({ m with dbTrap := 0 } : Machine).NoIo addr := h
  have hsame : ({ m with dbTrap := 0 } : Machine).isDiv addr.toNat =
      m.isDiv addr.toNat := rfl
  rw [Accepts, setWord_of_noIo hready, hsame]
  cases m.isDiv addr.toNat with
  | false => exact iff_of_true rfl rfl
  | true => exact iff_of_false (Nat.succ_ne_zero 9) Bool.true_eq_false.mp

theorem accepts_getWord_iff (h : m.NoIo addr) :
    (m.Accepts fun m => (m.getWord addr).2) ↔
      addr &&& 1 = 0 ∧ m.isDiv addr.toNat = false := by
  have hsame : ({ m with dbTrap := 0 } : Machine).isDiv addr.toNat =
      m.isDiv addr.toNat := rfl
  rw [Accepts, getWord, hsame]
  by_cases hfast : addr &&& 1 = 0 ∧ ¬m.isDiv addr.toNat = true
  · rw [if_pos hfast]
    exact iff_of_true rfl ⟨hfast.1, Bool.eq_false_iff.mpr hfast.2⟩
  · rw [if_neg hfast]
    apply iff_of_false
    · rw [getWordDiv]
      dsimp only
      split_ifs with hodd hregister
      · exact Nat.succ_ne_zero 9
      · -- only a register could be read here
        have hdiv : m.isDiv addr.toNat = true := by
          by_contra hplain
          exact hfast ⟨not_not.mp hodd, hplain⟩
        exact absurd (h.2 hdiv) (Nat.not_le.mpr hregister)
      · exact Nat.succ_ne_zero 9
    · intro hlegal
      exact hfast ⟨hlegal.1, Bool.eq_false_iff.mp hlegal.2⟩

theorem toNat_succ_of_even (heven : addr &&& 1 = 0) :
    (addr + 1).toNat = addr.toNat + 1 := by
  have hbit : addr.toNat &&& 1 = 0 := congrArg BitVec.toNat heven
  have hlt := addr.isLt
  rw [Nat.and_one_is_mod] at hbit
  rw [BitVec.toNat_add]
  change (addr.toNat + 1) % 65536 = addr.toNat + 1
  omega

theorem highByte_append (high low : Byte) :
    (high ++ low).extractLsb' 8 8 = high :=
  BitVec.extractLsb'_append_eq_left

theorem lowByte_append (high low : Byte) :
    (high ++ low).extractLsb' 0 8 = low :=
  BitVec.extractLsb'_append_eq_right

theorem setWord_peekWord (h : m.NoIo addr) (val : Word) :
    (m.setWord addr val).peekWord addr.toNat = val := by
  rw [peekWord, setWord_memory h, setWord_memory h,
    if_neg (Nat.ne_of_lt (Nat.lt_succ_self _)), if_pos rfl, if_pos rfl]
  exact highByte_append_lowByte val

/-- The second byte of an accepted word can be read back unless it lies in an
illegal area, where every byte reads as 0. -/
theorem getByte_second (h : m.NoIo addr) (h' : m.NoIo (addr + 1))
    (heven : addr &&& 1 = 0) (val : Word) :
    ((m.setWord addr val).getByte (addr + 1)).1 =
      if m.isDiv (addr + 1).toNat then 0 else val.extractLsb' 0 8 := by
  have hnext : (addr + 1).toNat = addr.toNat + 1 := toNat_succ_of_even heven
  rw [getByte, setWord_isDiv h]
  split_ifs with hdiv
  · rw [getByteDiv, if_neg (Nat.not_lt.mpr (h'.2 hdiv))]
  · rw [setWord_memory h, hnext, if_pos rfl]

/-- Where nothing is accepted, the bytes are as before only if they held the
word already. -/
theorem setWord_memory_same_iff (h : m.NoIo addr) (hdiv : m.isDiv addr.toNat)
    (val : Word) :
    (∀ other : Word,
      (m.setWord addr val).memory other.toNat = m.memory other.toNat) ↔
        m.peekWord addr.toNat = val := by
  have hbound := h.2 hdiv
  have hnext : (addr + 1).toNat = addr.toNat + 1 := by
    rw [BitVec.toNat_add]
    change (addr.toNat + 1) % 65536 = addr.toNat + 1
    omega
  constructor
  · intro hsame
    have hfirst := hsame addr
    have hsecond := hsame (addr + 1)
    rw [hnext] at hsecond
    rw [← setWord_peekWord h val, peekWord, peekWord, hfirst, hsecond]
  · intro hval other
    rw [setWord_memory h, ← hval]
    split_ifs with hlow hhigh
    · rw [hlow]
      exact lowByte_append _ _
    · rw [hhigh]
      exact highByte_append _ _
    · rfl

/-- The stores and loads agree exactly in two cases: the address is even and
legal and so is that of the second byte (or this byte is 0), or the address is
illegal and held the word before. -/
theorem wordConsistent_iff (m : Machine) (addr val : Word) (h : m.NoIo addr)
    (h' : m.NoIo (addr + 1)) :
    m.WordConsistent addr val ↔
      (m.isDiv addr.toNat = false ∧ addr &&& 1 = 0 ∧
          (m.isDiv (addr + 1).toNat = false ∨ val.extractLsb' 0 8 = 0)) ∨
        (m.isDiv addr.toNat = true ∧ m.peekWord addr.toNat = val) := by
  have hset := accepts_setWord_iff h val
  have hget := accepts_getWord_iff h
  constructor
  · intro hconsistent
    cases hdiv : m.isDiv addr.toNat with
    | true =>
        refine Or.inr ⟨rfl, (setWord_memory_same_iff h hdiv val).mp ?_⟩
        apply hconsistent.refused
        rw [hset, hdiv]
        exact Bool.true_eq_false.mp
    | false =>
        have haccepted := hset.mpr hdiv
        have heven := (hget.mp (hconsistent.accepted.mp haccepted)).1
        refine Or.inl ⟨rfl, heven, ?_⟩
        have hlow := hconsistent.low haccepted
        rw [getByte_second h h' heven] at hlow
        split_ifs at hlow with hsecond
        · exact Or.inr hlow.symm
        · exact Or.inl (Bool.eq_false_iff.mpr hsecond)
  · rintro (⟨hdiv, heven, hsecond⟩ | ⟨hdiv, hval⟩)
    · have haccepted := hset.mpr hdiv
      have hstored : ∀ x, (m.setWord addr val).memory x = _ :=
        setWord_memory h val
      refine ⟨iff_of_true haccepted (hget.mpr ⟨heven, hdiv⟩), fun _ => ?_,
        fun _ => ?_, fun _ => ?_, fun _ other hfirst hnext => ?_,
        fun hrefused => absurd haccepted hrefused⟩
      · rw [getWord, setWord_isDiv h, hdiv,
          if_pos ⟨heven, Bool.false_ne_true⟩]
        exact setWord_peekWord h val
      · rw [getByte, setWord_isDiv h, hdiv, if_neg Bool.false_ne_true, hstored,
          if_neg (Nat.ne_of_lt (Nat.lt_succ_self _)), if_pos rfl]
      · rw [getByte_second h h' heven]
        split_ifs with hillegal
        · rcases hsecond with hplain | hzero
          · rw [hplain] at hillegal
            exact absurd hillegal Bool.false_ne_true
          · exact hzero.symm
        · rfl
      · have hhigh : other.toNat ≠ addr.toNat :=
          fun hsame => hfirst (BitVec.eq_of_toNat_eq hsame)
        have hlow : other.toNat ≠ addr.toNat + 1 := by
          rw [← toNat_succ_of_even heven]
          exact fun hsame => hnext (BitVec.eq_of_toNat_eq hsame)
        rw [hstored, if_neg hlow, if_neg hhigh]
    · have hrefused : ¬m.Accepts (setWord addr val) := by
        rw [hset, hdiv]
        exact Bool.true_eq_false.mp
      have hrefused' : ¬m.Accepts fun m => (m.getWord addr).2 := by
        rw [hget, hdiv]
        exact fun hlegal => Bool.true_eq_false.mp hlegal.2
      exact ⟨iff_of_false hrefused hrefused', fun h => absurd h hrefused,
        fun h => absurd h hrefused, fun h => absurd h hrefused,
        fun h => absurd h hrefused,
        fun _ => (setWord_memory_same_iff h hdiv val).mpr hval⟩

/-- A word of the RAM after power-on. -/
theorem wordConsistent_iff_ram :
    (powerOn (fun _ => none) [] [] []).WordConsistent 0x8000 0x1234 ↔
      ((powerOn (fun _ => none) [] [] []).isDiv 0x8000 = false ∧
          (0x8000 : Word) &&& 1 = 0 ∧
          ((powerOn (fun _ => none) [] [] []).isDiv 0x8001 = false ∨
            (0x1234 : Word).extractLsb' 0 8 = 0)) ∨
        ((powerOn (fun _ => none) [] [] []).isDiv 0x8000 = true ∧
          (powerOn (fun _ => none) [] [] []).peekWord 0x8000 = 0x1234) :=
  wordConsistent_iff (powerOn (fun _ => none) [] [] []) 0x8000 0x1234
    ⟨rfl, fun _ => by decide⟩ ⟨rfl, fun _ => by decide⟩

/-- A store to an odd address of the RAM is accepted, a load is not. -/
theorem wordConsistent_fails_odd :
    ¬∀ (m : Machine) (addr val : Word), m.NoIo addr → m.NoIo (addr + 1) →
      m.WordConsistent addr val := by
  intro hall
  have hnoIo (addr : Word) (haddr : addr.toNat ≤ 0xff88)
      (htype : memInit addr.toNat &&& MEMTYPE_MOTOR = 0) :
      (powerOn (fun _ => none) [] [] []).NoIo addr :=
    ⟨htype, fun _ => haddr⟩
  have hodd := hnoIo 0x8001 (by decide) rfl
  have hnext := hnoIo 0x8002 (by decide) rfl
  have hconsistent := hall _ 0x8001 0x1234 hodd hnext
  have hstore := (accepts_setWord_iff hodd 0x1234).mpr rfl
  have hload := (accepts_getWord_iff hodd).mp (hconsistent.accepted.mp hstore)
  exact absurd hload.1 (by decide)

end Accesses

end Machine

end BrickEmu
