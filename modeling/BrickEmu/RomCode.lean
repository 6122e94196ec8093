import BrickEmu.AsmFlags
import BrickEmu.RomSerial

/-!
# The arithmetic code of the ROM

The multiplication and division routines of `rom.s`, instruction by instruction
and at the addresses where the assembler places them.  All instructions take
two bytes.  They act on the registers, the flags and the memory as the bodies
of `h8300.pl` do.  The memory is plain: the stack lies in it.
-/

namespace BrickEmu

namespace Rom

inductive Reg16 where
  | r0 | r1 | r3 | r4 | r5 | r6 | r7
  deriving DecidableEq

/-- The upper and lower halves of the registers. -/
inductive Reg8 where
  | h (r : Reg16)
  | l (r : Reg16)
  deriving DecidableEq

@[ext] structure Data where
  reg : Reg8 → Byte
  ccr : Byte
  ram : Ram

namespace Data

def word (D : Data) (r : Reg16) : Word :=
  D.reg (.h r) ++ D.reg (.l r)

/-- A byte register with the flags that go with its new value. -/
def put (D : Data) (r : Reg8) (val ccr : Byte) : Data :=
  { D with reg := Function.update D.reg r val, ccr := ccr }

def put2 (D : Data) (r : Reg16) (high low ccr : Byte) : Data :=
  (D.put (.h r) high ccr).put (.l r) low ccr

def putWord (D : Data) (r : Reg16) (val : Word) (ccr : Byte) : Data :=
  D.put2 r (highByte val) (lowByte val) ccr

def setCcr (D : Data) (ccr : Byte) : Data :=
  { D with ccr := ccr }

/-- The word written below the stack pointer, which moves there. -/
def pushWord (D : Data) (val : Word) : Data :=
  let sp := D.word .r7 - 2
  ({ D with ram := D.ram.set16 sp val }).putWord .r7 sp D.ccr

def top (D : Data) : Word :=
  D.ram.get16 (D.word .r7)

def dropWord (D : Data) : Data :=
  D.putWord .r7 (D.word .r7 + 2) D.ccr

end Data

/-- The instructions without the branches. -/
inductive Op where
  | movB (src dst : Reg8)
  | movBI (val : Byte) (dst : Reg8)
  | movW (src dst : Reg16)
  | addB (src dst : Reg8)
  | addBI (val : Byte) (dst : Reg8)
  | addX (src dst : Reg8)
  | addXI (val : Byte) (dst : Reg8)
  | addW (src dst : Reg16)
  | addS (dst : Reg16)
  | subW (src dst : Reg16)
  | subX (src dst : Reg8)
  | cmpBI (val : Byte) (dst : Reg8)
  | cmpW (src dst : Reg16)
  | mulXU (src : Reg8) (dst : Reg16)
  | divXU (src : Reg8) (dst : Reg16)
  | rotxl (dst : Reg8)
  | notB (dst : Reg8)
  | dec (dst : Reg8)
  | push (src : Reg16)
  | pop (dst : Reg16)
  deriving DecidableEq

namespace Op

/-- Addition to a byte register. -/
def add (D : Data) (dst : Reg8) (src carry : Byte) : Data :=
  let oval := D.reg dst
  let dest := oval + src + carry
  D.put dst dest (setHNZVC false oval src dest D.ccr)

def moveByte (D : Data) (dst : Reg8) (val : Byte) : Data :=
  D.put dst val (setNZV val D.ccr)

def moveWord (D : Data) (dst : Reg16) (val : Word) : Data :=
  D.putWord dst val (setNZV val D.ccr)

/-- The flags of a subtraction from a word register. -/
def subWFlags (D : Data) (src dst : Reg16) : Byte :=
  let oval := D.word dst
  let src := D.word src
  setHNZVC true oval src (oval - src) D.ccr

def exec (D : Data) : Op → Data
  | movB src dst => moveByte D dst (D.reg src)
  | movBI val dst => moveByte D dst val
  | movW src dst => moveWord D dst (D.word src)
  | addB src dst => add D dst (D.reg src) 0
  | addBI val dst => add D dst val 0
  | addX src dst => add D dst (D.reg src) (D.ccr &&& 1)
  | addXI val dst => add D dst val (D.ccr &&& 1)
  | addW src dst =>
      let oval := D.word dst
      let src := D.word src
      let dest := oval + src
      D.putWord dst dest (setHNZVC false oval src dest D.ccr)
  | addS dst => D.putWord dst (D.word dst + 1) D.ccr
  | subW src dst =>
      D.putWord dst (D.word dst - D.word src) (subWFlags D src dst)
  | subX src dst =>
      let oval := D.reg dst
      let src := D.reg src
      let dest := oval - src - (D.ccr &&& 1)
      -- the zero flag survives only if it was set
      D.put dst dest (setHNZVC true oval src dest D.ccr &&& (D.ccr ||| ~~~4))
  | cmpBI val dst =>
      let oval := D.reg dst
      D.setCcr (setHNZVC true oval val (oval - val) D.ccr)
  | cmpW src dst => D.setCcr (subWFlags D src dst)
  | mulXU src dst =>
      D.putWord dst
        ((D.reg (.l dst)).setWidth 16 * (D.reg src).setWidth 16) D.ccr
  | divXU src dst =>
      let dest := D.word dst
      let src := D.reg src
      let ccr := (D.ccr &&& 0xf3) ||| ((src >>> 4) &&& 0x08)
      if src = 0 then D.putWord dst dest (ccr ||| 0x04)
      else D.putWord dst
        ((dest / src.setWidth 16 &&& 0xff) +
          (dest % src.setWidth 16) <<< 8) ccr
  | rotxl dst =>
      let val := D.reg dst
      let dest := (val <<< 1) ||| (D.ccr &&& 1)
      D.put dst dest (setNZ dest ((D.ccr &&& 0xf0) ||| (val >>> 7)))
  | notB dst => moveByte D dst (~~~D.reg dst)
  | dec dst =>
      let dest := D.reg dst - 1
      let ccr := setNZV dest D.ccr
      D.put dst dest (if dest = 0x7f then ccr ||| 0x02 else ccr)
  | push src =>
      let dest := D.word src
      (D.pushWord dest).setCcr (setNZV dest D.ccr)
  | pop dst => moveWord D.dropWord dst D.top

end Op

/-- The conditions of the branches. -/
inductive Cond where
  | ra | ne | cc | cs | pl | mi
  deriving DecidableEq

def Cond.taken : Cond → Byte → Bool
  | ra, _ => true
  | ne, ccr => ccr &&& 0x4 = 0
  | cc, ccr => ccr &&& 0x1 = 0
  | cs, ccr => ccr &&& 0x1 ≠ 0
  | pl, ccr => ccr &&& 0x8 = 0
  | mi, ccr => ccr &&& 0x8 ≠ 0

inductive Line where
  | op (o : Op)
  | branch (cond : Cond) (target : Word)
  | bsr (target : Word)
  | rts
  deriving DecidableEq

def umodhi3 : Word := 0x14a
def divhi3 : Word := 0x156
def modhi3 : Word := 0x188
def udivmodhi3 : Word := 0x1be
def mulsi3 : Word := 0x1fe
def divmodsi3 : Word := 0x26e
def udivmodsi3 : Word := 0x306

section Listing

open Op Reg16 Reg8 Line

/-- `x := -x` on a word register. -/
def negWord (r : Reg16) : List Op :=
  [notB (h r), notB (l r), addS r]

/-- `x := -x` on a pair of word registers. -/
def negLong (high low : Reg16) : List Op :=
  [notB (l low), notB (h low), notB (l high), notB (h high),
    addBI 1 (l low), addXI 0 (h low), addXI 0 (l high), addXI 0 (h high)]

def umodhi3Code : List Line :=
  [bsr udivmodhi3, op (movW r5 r6), rts]

def divhi3Code : List Line :=
  [op (movW r6 r6), branch .mi 0x16e, op (movW r5 r5),
    branch .pl udivmodhi3] ++
  (negWord r5).map op ++
  -- 164
  [bsr udivmodhi3] ++ (negWord r6).map op ++ [rts] ++
  -- 16e
  (negWord r6).map op ++ [op (movW r5 r5), branch .pl 0x164] ++
  (negWord r5).map op ++ [branch .ra udivmodhi3]

def modhi3Code : List Line :=
  [op (movW r5 r5), branch .pl 0x192] ++ (negWord r5).map op ++
  -- 192
  [op (movW r6 r6), branch .pl umodhi3] ++ (negWord r6).map op ++
  [bsr udivmodhi3] ++ (negWord r5).map op ++ [op (movW r5 r6), rts]

/-- Division by a byte. -/
def divideByte : List Op :=
  [divXU (l r5) r0, movB (l r0) (h r6), movB (l r6) (l r0), divXU (l r5) r0,
    movB (l r0) (l r6), movB (h r0) (l r5)]

/-- The comment behind `cmp.w` is not closed at the end of its line.  It runs
on over the branch, the subtraction, the loop and the last rotation. -/
def divideWord : List Op :=
  [movB (h r6) (l r0), movBI 8 (h r6),
    rotxl (l r6), rotxl (l r0), rotxl (h r0), cmpW r0 r5,
    notB (l r6), movBI 0 (h r6), movW r0 r5]

def udivmodhi3Start : List Op :=
  [push r0, movBI 0 (h r0), movB (h r6) (l r0), movB (h r5) (h r5)]

def udivmodhi3Code : List Line :=
  udivmodhi3Start.map op ++ [branch .ne 0x1d8] ++
  divideByte.map op ++ [op (pop r0), rts] ++
  -- 1d8
  divideWord.map op ++ [op (pop r0), rts]

/-- `r3 := r6 * r3`. -/
def mulsi3Upper : List Op :=
  [movW r6 r0, mulXU (h r3) r0, movW r3 r1, mulXU (h r6) r1, addB (l r1) (l r0),
    mulXU (l r6) r3, addB (l r1) (h r3), addB (l r0) (h r3)]

/-- `r5 := r4 * r5 + r3`. -/
def mulsi3Lower : List Op :=
  [movW r4 r0, mulXU (h r5) r0, movW r5 r1, mulXU (h r4) r1, addB (l r1) (l r0),
    mulXU (l r4) r5, addB (l r1) (h r5), addB (l r0) (h r5), addW r3 r5]

/-- `r5:r6 := (r5 << 16) + r4 * r6`. -/
def mulsi3Words : List Op :=
  [movB (h r4) (l r1), mulXU (h r6) r1, addW r1 r5,
    movW r6 r0, mulXU (h r4) r0, movW r4 r1, mulXU (h r6) r1, mulXU (l r4) r6,
    addB (l r1) (h r6), addX (h r1) (l r5), addXI 0 (h r5),
    addB (l r0) (h r6), addX (h r0) (l r5), addXI 0 (h r5)]

def mulsi3Code : List Line :=
  [op (push r0), op (push r1)] ++
  (mulsi3Upper ++ mulsi3Lower ++ mulsi3Words).map op ++
  [op (pop r1), op (pop r0), rts]

def divmodsi3Code : List Line :=
  [op (movW r5 r5), branch .pl 0x2be] ++ (negLong r5 r6).map op ++
  [op (movW r3 r3), branch .pl 0x29a] ++ (negLong r3 r4).map op ++
  [bsr udivmodsi3, branch .ra 0x2ac] ++
  -- 29a
  [bsr udivmodsi3] ++ (negLong r5 r6).map op ++
  -- 2ac
  (negLong r3 r4).map op ++ [rts] ++
  -- 2be
  [op (movW r3 r3), branch .pl udivmodsi3] ++ (negLong r3 r4).map op ++
  [bsr udivmodsi3] ++ (negLong r5 r6).map op ++ [rts]

/-- The divisor is a byte, and leading zero bytes are skipped. -/
def divideLongByte : List Line :=
  [op (movB (h r5) (l r3)), branch .ne 0x31c,
    op (movB (l r5) (l r3)), branch .ne 0x322,
    op (movB (h r6) (l r3)), branch .ne 0x328, branch .ra 0x32c,
    -- 31c
    op (divXU (l r4) r3), op (movB (l r3) (h r5)), op (movB (l r5) (l r3)),
    -- 322
    op (divXU (l r4) r3), op (movB (l r3) (l r5)), op (movB (h r6) (l r3)),
    -- 328
    op (divXU (l r4) r3), op (movB (h r3) (h r6)),
    -- 32c
    op (divXU (l r4) r6), op (movB (h r6) (l r4)), op (movB (l r3) (h r6)),
    op (subW r3 r3), rts]

/-- The rotation of a round, with the remainder in `r3`. -/
def rotate24 : List Op :=
  [rotxl (l r6), rotxl (h r6), rotxl (l r5), rotxl (l r3), rotxl (h r3)]

def finish24 : List Op :=
  [rotxl (l r6), rotxl (h r6), rotxl (l r5), notB (l r6), notB (h r6),
    notB (l r5), movBI 0 (h r5), movW r3 r4, subW r3 r3]

/-- The divisor is a word: 24 rounds. -/
def divideLongWord : List Line :=
  [op (movB (h r5) (l r3)), op (movBI 24 (h r5))] ++
  -- 33a
  rotate24.map op ++ [op (cmpW r4 r3), branch .cs 0x34a, op (subW r4 r3),
    -- 34a
    op (dec (h r5)), branch .ne 0x33a] ++
  finish24.map op ++ [rts]

/-- The rotation of a round, with the remainder in `r0:r5`. -/
def rotate16 : List Op :=
  [rotxl (l r6), rotxl (h r6), rotxl (l r5), rotxl (h r5), rotxl (l r0),
    rotxl (h r0)]

def subtract16 : List Op :=
  [subW r4 r5, subX (l r3) (l r0), subX (h r3) (h r0)]

def restore16 : List Op :=
  [addW r4 r5, addX (l r3) (l r0), addX (h r3) (h r0)]

def finish16 : List Op :=
  [rotxl (l r6), rotxl (h r6), notB (h r6), notB (l r6), movW r5 r4, movW r0 r3,
    subW r5 r5]

/-- The divisor is a double word: 16 rounds. -/
def divideLongLong : List Line :=
  [op (push r0), op (push r1), op (subW r0 r0), op (movBI 16 (l r1))] ++
  -- 36a
  (rotate16 ++ subtract16).map op ++ [branch .cc 0x384] ++ restore16.map op ++
  -- 384
  [op (dec (l r1)), branch .ne 0x36a] ++ finish16.map op ++
  [op (pop r1), op (pop r0), rts]

def udivmodsi3Code : List Line :=
  [op (movW r3 r3), branch .ne 0x362, op (cmpBI 0 (h r4)), branch .ne 0x336] ++
  divideLongByte ++
  -- 336
  divideLongWord ++
  -- 362
  divideLongLong

end Listing

/-- The line at an address of the routine that starts at `base`. -/
def lineAt (base : Word) (lines : List Line) (pc : Word) : Option Line :=
  if base ≤ pc ∧ pc &&& 1 = 0 then lines[(pc - base).toNat / 2]? else none

def code (pc : Word) : Option Line :=
  lineAt umodhi3 umodhi3Code pc <|> lineAt divhi3 divhi3Code pc <|>
    lineAt modhi3 modhi3Code pc <|> lineAt udivmodhi3 udivmodhi3Code pc <|>
    lineAt mulsi3 mulsi3Code pc <|> lineAt divmodsi3 divmodsi3Code pc <|>
    lineAt udivmodsi3 udivmodsi3Code pc

/-- The code from an address on runs until its routine returns. -/
inductive Runs : Word → Data → Word → Data → Prop where
  | op {pc pc' : Word} {D D' : Data} {o : Op} (hline : code pc = some (.op o))
      (hrest : Runs (pc + 2) (o.exec D) pc' D') : Runs pc D pc' D'
  | branch {pc pc' target : Word} {D D' : Data} {cond : Cond}
      (hline : code pc = some (.branch cond target))
      (hrest : Runs (if cond.taken D.ccr then target else pc + 2) D pc' D') :
      Runs pc D pc' D'
  | bsr {pc pc₁ pc' target : Word} {D D₁ D' : Data}
      (hline : code pc = some (.bsr target))
      (hcall : Runs target (D.pushWord (pc + 2)) pc₁ D₁)
      (hrest : Runs pc₁ D₁ pc' D') : Runs pc D pc' D'
  | rts {pc : Word} {D : Data} (hline : code pc = some .rts) :
      Runs pc D D.top D.dropWord

theorem Runs.unique {pc pc₁ pc₂ : Word} {D D₁ D₂ : Data}
    (h₁ : Runs pc D pc₁ D₁) (h₂ : Runs pc D pc₂ D₂) :
    pc₁ = pc₂ ∧ D₁ = D₂ := by
  induction h₁ generalizing pc₂ D₂ with
  | op hline _ ih =>
      cases h₂ with
      | op hline' hrest =>
          rw [hline, Option.some.injEq, Line.op.injEq] at hline'
          subst hline'
          exact ih hrest
      | branch hline' _ => rw [hline] at hline'; cases hline'
      | bsr hline' _ _ => rw [hline] at hline'; cases hline'
      | rts hline' => rw [hline] at hline'; cases hline'
  | branch hline _ ih =>
      cases h₂ with
      | branch hline' hrest =>
          rw [hline, Option.some.injEq, Line.branch.injEq] at hline'
          obtain ⟨rfl, rfl⟩ := hline'
          exact ih hrest
      | op hline' _ => rw [hline] at hline'; cases hline'
      | bsr hline' _ _ => rw [hline] at hline'; cases hline'
      | rts hline' => rw [hline] at hline'; cases hline'
  | bsr hline _ _ ihcall ihrest =>
      cases h₂ with
      | bsr hline' hcall hrest =>
          rw [hline, Option.some.injEq, Line.bsr.injEq] at hline'
          subst hline'
          obtain ⟨rfl, rfl⟩ := ihcall hcall
          exact ihrest hrest
      | op hline' _ => rw [hline] at hline'; cases hline'
      | branch hline' _ => rw [hline] at hline'; cases hline'
      | rts hline' => rw [hline] at hline'; cases hline'
  | rts hline =>
      cases h₂ with
      | rts _ => exact ⟨rfl, rfl⟩
      | op hline' _ => rw [hline] at hline'; cases hline'
      | branch hline' _ => rw [hline] at hline'; cases hline'
      | bsr hline' _ _ => rw [hline] at hline'; cases hline'

end Rom

end BrickEmu
