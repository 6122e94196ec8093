import BrickEmu.BiboHeap

/-!
# The cases in which BiBo's heap functions keep the heap

`bibo_free` keeps the blocks and the free list when the block before is free,
and when the block behind is free and the last.  `bibo_malloc` keeps them
when it splits a block that is not the last one, and when it takes the last
block whole.
-/

namespace BrickEmu

open Memory

namespace BiboBlock

variable {b : BiboBlock} {mem : Memory} {before : Option ℕ}

/-- The size that `bibo_malloc` computes for a free block. -/
def extent (b : BiboBlock) : ℕ :=
  if b.next = 0 then 65536 - b.addr else b.next - b.addr

theorem In.word_free (h : b.In mem before) (hfree : b.owner = 0) :
    mem.readWord (b.addr + 2) = b.next := by
  rw [h.word, h.apart hfree]
  rfl

theorem In.blocksize (h : b.In mem before) (hfree : b.owner = 0) :
    (mem.readWord (b.addr + 2) + 65536 - b.addr) % 65536 = b.extent := by
  have hpos := h.pos
  have hroom := h.room
  have hlt := readWord_lt mem (b.addr + 2)
  rw [h.word_free hfree] at hlt ⊢
  unfold extent
  rcases h.freeSize hfree with hlast | hnext
  · rw [if_pos hlast]
    omega
  · rw [if_neg (by omega)]
    omega

end BiboBlock

section Loops

variable {mem : Memory} {word size addr f : ℕ} {fs gs : List ℕ}

theorem biboMallocFrom_none (hlinked : Linked mem word fs)
    (hsmall : ∀ g ∈ fs, 2 ≤ g ∧ g + 8 ≤ 65536 ∧
      ¬size + 4 ≤ (mem.readWord (g + 2) + 65536 - g) % 65536) :
    ∀ {fuel : ℕ}, fs.length < fuel →
      biboMallocFrom size mem fuel word = some (0, mem) := by
  induction fs generalizing word with
  | nil =>
      rintro (_ | fuel) hfuel
      · cases hfuel
      · rw [biboMallocFrom]
        exact if_pos hlinked.2
  | cons g fs ih =>
      rintro (_ | fuel) hfuel
      · cases hfuel
      · rw [linked_cons] at hlinked
        obtain ⟨hlow, hhigh, hfit⟩ := hsmall g List.mem_cons_self
        have hlink : (g + 6) % 65536 = g + 6 := Nat.mod_eq_of_lt (by omega)
        rw [biboMallocFrom, hlinked.1]
        simp only [if_neg (show g ≠ 0 by omega), if_neg hfit, hlink]
        apply ih hlinked.2
        · exact fun k hk => hsmall k (List.mem_cons_of_mem g hk)
        · exact Nat.lt_of_succ_lt_succ hfuel

theorem biboMallocFrom_some
    (hlinked : Linked mem word (fs ++ f :: gs))
    (hsmall : ∀ g ∈ fs, 2 ≤ g ∧ g + 8 ≤ 65536 ∧
      ¬size + 4 ≤ (mem.readWord (g + 2) + 65536 - g) % 65536)
    (hlow : 2 ≤ f) (hhigh : f + 8 ≤ 65536)
    (hfit : size + 4 ≤ (mem.readWord (f + 2) + 65536 - f) % 65536) :
    ∀ {fuel : ℕ}, fs.length < fuel →
      biboMallocFrom size mem fuel word =
        some (f + 6, takeFree size (lastWord word fs) f
          ((mem.readWord (f + 2) + 65536 - f) % 65536) mem) := by
  induction fs generalizing word with
  | nil =>
      rintro (_ | fuel) hfuel
      · cases hfuel
      · rw [List.nil_append, linked_cons] at hlinked
        have hlink : (f + 6) % 65536 = f + 6 := Nat.mod_eq_of_lt (by omega)
        rw [biboMallocFrom, hlinked.1]
        simp only [if_neg (show f ≠ 0 by omega), if_pos hfit, hlink]
        rfl
  | cons g fs ih =>
      rintro (_ | fuel) hfuel
      · cases hfuel
      · rw [List.cons_append, linked_cons] at hlinked
        obtain ⟨hglow, hghigh, hgfit⟩ := hsmall g List.mem_cons_self
        have hlink : (g + 6) % 65536 = g + 6 := Nat.mod_eq_of_lt (by omega)
        rw [biboMallocFrom, hlinked.1]
        simp only [if_neg (show g ≠ 0 by omega), if_neg hgfit, hlink]
        apply ih hlinked.2
        · exact fun k hk => hsmall k (List.mem_cons_of_mem g hk)
        · exact Nat.lt_of_succ_lt_succ hfuel

theorem findPlace_eq (hlinked : Linked mem word (fs ++ gs))
    (hbefore : ∀ g ∈ fs, 2 ≤ g ∧ g + 8 ≤ 65536 ∧ g < addr)
    (hbehind : gs.headD 0 = 0 ∨ addr ≤ gs.headD 0) :
    ∀ {fuel : ℕ}, fs.length < fuel →
      findPlace addr mem fuel word =
        some (lastWord word fs, gs.headD 0) := by
  induction fs generalizing word with
  | nil =>
      rintro (_ | fuel) hfuel
      · cases hfuel
      · have hread : mem.readWord word = gs.headD 0 := by
          cases gs with
          | nil => exact hlinked.2
          | cons g gs => exact hlinked.1.1
        rw [findPlace, hread]
        exact if_neg (by omega)
  | cons g fs ih =>
      rintro (_ | fuel) hfuel
      · cases hfuel
      · rw [List.cons_append, linked_cons] at hlinked
        obtain ⟨hlow, hhigh, hlt⟩ := hbefore g List.mem_cons_self
        rw [findPlace, hlinked.1, Nat.mod_eq_of_lt (by omega)]
        simp only [if_pos (show g ≠ 0 ∧ g < addr by omega)]
        apply ih hlinked.2
        · exact fun k hk => hbefore k (List.mem_cons_of_mem g hk)
        · exact Nat.lt_of_succ_lt_succ hfuel

end Loops

namespace Stretch

variable {mem : Memory} {t t' : Option ℕ} {ptr stop start : ℕ}
  {b c p n : BiboBlock} {bs pre post : List BiboBlock}

/-- The blocks before and behind a block. -/
theorem around (h : Stretch mem t ptr (pre ++ b :: post) t' stop) :
    (∀ c ∈ pre, c.Before b) ∧ ∀ c ∈ post, b.Before c := by
  obtain ⟨-, htail, hacross⟩ := List.pairwise_append.mp h.pairwise
  exact ⟨fun c hc => hacross c hc b List.mem_cons_self,
    (List.pairwise_cons.mp htail).1⟩

theorem next_lt (h : b.In mem t) : b.next < 65536 := by
  have hlt := readWord_lt mem (b.addr + 2)
  rw [h.word] at hlt
  omega

theorem tag_free (hb : b.owner = 0) : b.tag = some b.addr :=
  if_pos hb

theorem tag_used (hb : b.owner ≠ 0) : b.tag = none :=
  if_neg hb

/-- The flag of the next block says that the last block is free. -/
theorem tagged {q : ℕ} (h : Stretch mem none start bs (some q) stop) :
    ∃ front p, bs = front ++ [p] ∧ p.owner = 0 := by
  rcases List.eq_nil_or_concat bs with rfl | ⟨front, p, rfl⟩
  · cases h.of_nil.1
  · rw [List.concat_eq_append] at h ⊢
    refine ⟨front, p, rfl, ?_⟩
    obtain ⟨u, -, -, hright⟩ := h.at_block
    have htag := hright.of_nil.1
    unfold BiboBlock.tag at htag
    split_ifs at htag with hfree
    exact hfree

/-- The block behind a free block is told about another free block. -/
theorem retag {mem' : Memory} {q p : ℕ}
    (h : Stretch mem (some q) ptr bs t' 0)
    (hback : ptr ≠ 0 → mem'.readWord ptr = p)
    (hsame : ∀ c ∈ bs, ∀ x, ptr + 2 ≤ x → c.addr ≤ x → x < c.addr + 6 →
      mem' x = mem x) : ∃ t'', Stretch mem' (some p) ptr bs t'' 0 := by
  cases h with
  | nil => exact ⟨some p, nil⟩
  | @cons _ _ _ _ b bs haddr hin htail =>
      have hpos := hin.pos
      refine ⟨t', cons haddr ?_ ?_⟩
      · have hhead := hsame b List.mem_cons_self
        exact
          { even := hin.even
            pos := hin.pos
            room := hin.room
            nextEven := hin.nextEven
            size := hin.size
            freeSize := hin.freeSize
            word := by
              rw [readWord_congr (hhead _ (by omega) (by omega) (by omega))
                (hhead _ (by omega) (by omega) (by omega)), hin.word]
              rfl
            owner_eq := by
              rw [readWord_congr (hhead _ (by omega) (by omega) (by omega))
                (hhead _ (by omega) (by omega) (by omega)), hin.owner_eq]
            back := by
              rintro _ ⟨rfl⟩
              rw [haddr]
              exact hback (by omega)
            apart := fun hfree => absurd (hin.apart hfree) (by simp) }
      · cases bs with
        | nil =>
            apply htail.transport 0 (by omega) (Or.inr (by omega))
            simp
        | cons c cs =>
            obtain ⟨hsize, hfreeSize⟩ :=
              next_of_mem hin htail (List.mem_cons_self (a := c) (l := cs))
            have hused : b.owner ≠ 0 := fun hfree =>
              absurd (hin.apart hfree) (by simp)
            apply htail.transport (b.addr + 2) (by omega)
            · exact Or.inl (tag_used hused)
            · intro d hd x hx hle hlt
              exact hsame d (List.mem_cons_of_mem b hd) x (by omega) hle hlt

end Stretch

section LinkWord

variable {mem mem' : Memory} {start cell : ℕ} {after : Option ℕ}
  {b : BiboBlock} {pre post : List BiboBlock}

theorem freeAddrs_pairwise {t t' : Option ℕ} {ptr stop : ℕ}
    {bs : List BiboBlock} (h : Stretch mem t ptr bs t' stop) :
    (freeAddrs bs).Pairwise fun f g => f + 8 ≤ g := by
  unfold freeAddrs
  rw [List.pairwise_map, List.pairwise_filter]
  apply h.pairwise.imp
  intro b c hbefore hb _
  have := hbefore.freeSize (by simpa using hb)
  have := hbefore.next_le
  omega

/-- The last link lies behind all others. -/
theorem lastWord_apart (word : ℕ) {fs : List ℕ}
    (hsorted : fs.Pairwise fun f g => f + 8 ≤ g) :
    ∀ g ∈ fs.dropLast, g + 8 ≤ lastWord word fs := by
  induction fs generalizing word with
  | nil => simp
  | cons f fs ih =>
      obtain ⟨hhead, htail⟩ := List.pairwise_cons.mp hsorted
      cases fs with
      | nil => simp
      | cons k ks =>
          intro g hg
          rcases List.mem_cons.mp hg with rfl | hg
          · have hk := hhead k List.mem_cons_self
            rcases lastWord_cases (k + 6) ks with hlast | ⟨l, hl, hlast⟩
            · rw [lastWord, lastWord, hlast]
              omega
            · have := hhead l (List.mem_cons_of_mem k hl)
              rw [lastWord, lastWord, hlast]
              omega
          · exact ih (f + 6) htail g hg

/-- The word that points to the first free block from a block on: the cell
or the link of a free block before. -/
def pointer (cell : ℕ) (pre : List BiboBlock) : ℕ :=
  lastWord cell (freeAddrs pre)

theorem pointer_cases (cell : ℕ)
    (h : Stretch mem none start (pre ++ b :: post) after 0) :
    pointer cell pre = cell ∨
      ∃ f ∈ pre, f.owner = 0 ∧ start ≤ f.addr ∧ f.addr + 8 ≤ b.addr ∧
        pointer cell pre = f.addr + 6 := by
  rcases lastWord_cases cell (freeAddrs pre) with hlast | ⟨f, hf, hlast⟩
  · exact Or.inl hlast
  · obtain ⟨c, hc, hfree, rfl⟩ := mem_freeAddrs.mp hf
    have hbefore := h.around.1 c hc
    have := hbefore.next_le
    have := hbefore.freeSize hfree
    exact Or.inr ⟨c, hc, hfree, h.le_addr (by simp [hc]), by omega, hlast⟩

/-- The blocks before keep their headers when the pointer is changed. -/
theorem Stretch.left_transport {u : Option ℕ}
    (h : Stretch mem none start (pre ++ b :: post) after 0)
    (hleft : Stretch mem none start pre u b.addr) (hcell : cell ≤ start)
    (hsame : ∀ x, x < b.addr + 2 → x ≠ pointer cell pre →
      x ≠ pointer cell pre + 1 → mem' x = mem x) :
    Stretch mem' none start pre u b.addr := by
  apply hleft.transport (start + 2) (by omega) (Or.inl rfl)
  intro c hc x hlo hle hlt
  have hcb := h.around.1 c hc
  have := hcb.next_le
  have := hcb.size
  rcases pointer_cases cell h with hp | ⟨f, hf, hfree, -, -, hp⟩
  · apply hsame <;> omega
  · by_cases heq : c = f
    · subst heq
      apply hsame <;> omega
    · rcases hleft.apart hc hf heq with hcf | hfc
      · have := hcf.next_le
        have := hcf.size
        apply hsame <;> omega
      · have := hfc.next_le
        have := hfc.freeSize hfree
        apply hsame <;> omega

/-- The links before keep, up to the pointer. -/
theorem LinkPath.left_transport {gs : List ℕ}
    (h : Stretch mem none start (pre ++ b :: post) after 0)
    (hcell : cell ≤ start)
    (hlinks : Linked mem cell (freeAddrs pre ++ gs))
    (hsame : ∀ x, x < b.addr + 2 → x ≠ pointer cell pre →
      x ≠ pointer cell pre + 1 → mem' x = mem x) :
    LinkPath mem' cell (freeAddrs pre) := by
  obtain ⟨u, mid, hleft, hright⟩ := h.split
  have hsorted := freeAddrs_pairwise hleft
  have hbound : ∀ f ∈ freeAddrs pre, start ≤ f ∧ f + 8 ≤ b.addr := by
    intro f hf
    obtain ⟨c, hc, hfree, rfl⟩ := mem_freeAddrs.mp hf
    have hbefore := h.around.1 c hc
    have := hbefore.next_le
    have := hbefore.freeSize hfree
    exact ⟨h.le_addr (by simp [hc]), by omega⟩
  have hlast := lastWord_apart cell hsorted
  apply (linked_append.mp hlinks).1.transport
  · intro hne
    have hpointer : start + 6 ≤ pointer cell pre := by
      obtain ⟨f, fs, hfs⟩ := List.exists_cons_of_ne_nil hne
      have hf := hbound f (by simp [hfs])
      rcases lastWord_cases (f + 6) fs with hword | ⟨g, hg, hword⟩
      · rw [pointer, hfs, lastWord, hword]
        omega
      · have := hbound g (by simp [hfs, hg])
        rw [pointer, hfs, lastWord, hword]
        omega
    have hb : start + 8 ≤ b.addr := by
      obtain ⟨f, fs, hfs⟩ := List.exists_cons_of_ne_nil hne
      have hf := hbound f (by simp [hfs])
      omega
    apply readWord_congr <;> apply hsame <;> omega
  · intro g hg
    have hg' := hlast g hg
    have := hbound g (List.dropLast_subset _ hg)
    have hpointer : g + 8 ≤ pointer cell pre := hg'
    apply readWord_congr <;> apply hsame <;> omega

end LinkWord

section MergeWithPrevious

variable {mem : Memory} {start : ℕ} {after : Option ℕ}
  {p b n : BiboBlock} {pre post : List BiboBlock}

/-- What `bibo_free` finds around a block behind a free one. -/
structure Surrounded (mem : Memory) (start : ℕ) (pre : List BiboBlock)
    (p b n : BiboBlock) (post : List BiboBlock) (after : Option ℕ) :
    Prop where
  left : Stretch mem none start pre none p.addr
  free : p.owner = 0
  previous : p.In mem none
  block : b.In mem (some p.addr)
  used : b.owner ≠ 0
  next : n.In mem none
  right : Stretch mem n.tag n.next post after 0
  place : p.next = b.addr
  nextPlace : b.next = n.addr
  size : p.addr + 8 ≤ b.addr
  blockSize : b.addr + 4 ≤ n.addr
  before : ∀ c ∈ pre, c.Before p
  behind : ∀ c ∈ post, n.Before c

theorem Stretch.surrounded
    (h : Stretch mem none start (pre ++ p :: b :: n :: post) after 0)
    (hp : p.owner = 0) : Surrounded mem start pre p b n post after := by
  obtain ⟨hbefore, hbeyond⟩ := h.around
  have hbehind : ∀ c ∈ post, n.Before c := by
    have hagain : Stretch mem none start
        ((pre ++ [p, b]) ++ n :: post) after 0 := by
      simpa using h
    exact hagain.around.2
  obtain ⟨u, hleft, hpin, hright⟩ := h.at_block
  obtain rfl := hpin.apart hp
  obtain ⟨hbaddr, hbin, hright⟩ := hright.of_cons
  rw [tag_free hp] at hbin
  have hused : b.owner ≠ 0 := fun hfree =>
    absurd (hbin.apart hfree) (by simp)
  obtain ⟨hnaddr, hnin, hright⟩ := hright.of_cons
  rw [tag_used hused] at hnin
  have hsize := (hbeyond b (by simp)).freeSize hp
  have hbpos := hnin.pos
  exact
    { left := hleft
      free := hp
      previous := hpin
      block := hbin
      used := hused
      next := hnin
      right := hright
      place := hbaddr.symm
      nextPlace := hnaddr.symm
      size := by omega
      blockSize := by
        have := hbin.size
        omega
      before := hbefore
      behind := hbehind }

namespace Surrounded

variable {mem' : Memory}

/-- What `bibo_free` writes between a free and an allocated block. -/
structure MergedUsed (p n : BiboBlock) (mem mem' : Memory) : Prop where
  same : ∀ x, x < p.addr + 2 ∨ p.addr + 4 ≤ x ∧ x < n.addr ∨
    n.addr + 4 ≤ x → mem' x = mem x
  link : mem'.readWord (p.addr + 2) = n.addr
  back : mem'.readWord n.addr = p.addr
  flag : mem'.readWord (n.addr + 2) = n.next + 1

/-- What `bibo_free` writes between two free blocks. -/
structure MergedFree (p n : BiboBlock) (mem mem' : Memory) : Prop where
  same : ∀ x, x ≠ p.addr + 2 → x ≠ p.addr + 3 → x ≠ p.addr + 6 →
    x ≠ p.addr + 7 → x ≠ n.next → x ≠ n.next + 1 → mem' x = mem x
  link : mem'.readWord (p.addr + 2) = n.next
  back : mem'.readWord n.next = p.addr
  free : mem'.readWord (p.addr + 6) = mem.readWord (n.addr + 6)

theorem merge_used (h : Surrounded mem start pre p b n post after)
    (hn : n.owner ≠ 0) :
    MergedUsed p n mem (mergeWithPrevious b.addr n.addr mem) := by
  have heven := h.next.nextEven
  have hlt := Stretch.next_lt h.next
  have hroom := h.next.room
  have hsize := h.size
  have hblockSize := h.blockSize
  have hflag : setFlag (mem.readWord (n.addr + 2)) = n.next + 1 := by
    have hword : mem.readWord (n.addr + 2) = n.next := h.next.word
    rw [hword, setFlag]
    omega
  simp only [mergeWithPrevious, h.next.owner_eq, if_neg hn, hflag,
    h.block.back p.addr rfl]
  refine ⟨?_, ?_, ?_, ?_⟩
  · intro x hx
    rw [writeWord_of_ne (by omega) (by omega),
      writeWord_of_ne (by omega) (by omega),
      writeWord_of_ne (by omega) (by omega)]
  · rw [readWord_writeWord_of_apart (by omega)]
    exact readWord_writeWord (by omega)
  · exact readWord_writeWord (by omega)
  · rw [readWord_writeWord_of_apart (by omega),
      readWord_writeWord_of_apart (by omega)]
    exact readWord_writeWord (by omega)

theorem merge_free (h : Surrounded mem start pre p b n post after)
    (hn : n.owner = 0) :
    MergedFree p n mem (mergeWithPrevious b.addr n.addr mem) := by
  have hlt := Stretch.next_lt h.next
  have hlinkLt := readWord_lt mem (n.addr + 6)
  have hroom := h.next.room
  have hsize := h.size
  have hblockSize := h.blockSize
  have hpos := h.previous.pos
  have hnext := h.next.freeSize hn
  simp only [mergeWithPrevious, h.next.owner_eq, if_pos hn,
    h.next.word_free hn, h.block.back p.addr rfl]
  refine ⟨?_, ?_, ?_, ?_⟩
  · intro x _ _ _ _ _ _
    rw [writeWord_of_ne (by omega) (by omega),
      writeWord_of_ne (by omega) (by omega),
      writeWord_of_ne (by omega) (by omega)]
  · rw [readWord_writeWord_of_apart (by omega),
      readWord_writeWord_of_apart (by omega)]
    exact readWord_writeWord hlt
  · rw [readWord_writeWord_of_apart (by omega)]
    exact readWord_writeWord (by omega)
  · exact readWord_writeWord hlinkLt

/-- `bibo_free` between a free block and an allocated one. -/
theorem free_between (h : Surrounded mem start pre p b n post after)
    (hn : n.owner ≠ 0) (hmem : MergedUsed p n mem mem') :
    Stretch mem' none start
      (pre ++ { p with next := n.addr } :: n :: post) after 0 := by
  have hsize := h.size
  have hblockSize := h.blockSize
  have hroom := h.next.room
  have howner : mem'.readWord (p.addr + 4) = p.owner :=
    (readWord_congr (hmem.same _ (by omega)) (hmem.same _ (by omega))).trans
      h.previous.owner_eq
  apply Stretch.append (u := none)
  · apply h.left.transport 0 (by omega) (Or.inr (by omega))
    intro c hc x _ hx hlt
    have hc := h.before c hc
    apply hmem.same x (Or.inl _)
    have := hc.next_le
    have := hc.size
    omega
  apply Stretch.cons (b := { p with next := n.addr }) rfl
  · exact
      { even := h.previous.even
        pos := h.previous.pos
        room := h.previous.room
        nextEven := h.next.even
        size := Or.inr (by simp only; omega)
        freeSize := fun _ => Or.inr (by simp only; omega)
        word := hmem.link
        owner_eq := howner
        back := by simp
        apart := fun _ => rfl }
  rw [Stretch.tag_free (b := { p with next := n.addr }) h.free]
  apply Stretch.cons rfl
  · exact
      { even := h.next.even
        pos := h.next.pos
        room := hroom
        nextEven := h.next.nextEven
        size := h.next.size
        freeSize := fun hfree => absurd hfree hn
        word := hmem.flag
        owner_eq := by
          rw [← h.next.owner_eq]
          exact readWord_congr (hmem.same _ (by omega))
            (hmem.same _ (by omega))
        back := by
          rintro _ ⟨rfl⟩
          exact hmem.back
        apart := fun hfree => absurd hfree hn }
  · apply h.right.transport 0 (by omega) (Or.inr (by omega))
    intro c hc x _ hx _
    have hc := h.behind c hc
    apply hmem.same x
    have := hc.next_le
    have := hc.size
    omega

/-- `bibo_free` between two free blocks. -/
theorem free_joining (h : Surrounded mem start pre p b n post after)
    (hn : n.owner = 0) (hmem : MergedFree p n mem mem') :
    ∃ after', Stretch mem' none start
      (pre ++ { p with next := n.next } :: post) after' 0 := by
  have hsize := h.size
  have hblockSize := h.blockSize
  have hfreeSize := h.next.freeSize hn
  have howner : mem'.readWord (p.addr + 4) = p.owner := by
    rw [← h.previous.owner_eq]
    apply readWord_congr <;> apply hmem.same <;> omega
  have hright := h.right
  rw [Stretch.tag_free hn] at hright
  obtain ⟨after', hright'⟩ := hright.retag (fun _ => hmem.back) (by
    intro c hc x hx hle _
    have hc := h.behind c hc
    have := hc.next_le
    have := hc.freeSize hn
    apply hmem.same <;> omega)
  refine ⟨after', ?_⟩
  apply Stretch.append (u := none)
  · apply h.left.transport 0 (by omega) (Or.inr (by omega))
    intro c hc x _ hx hlt
    obtain ⟨_, hcin⟩ := h.left.mem_in hc
    have hpos := hcin.pos
    have hc := h.before c hc
    have := hc.next_le
    have := hc.size
    apply hmem.same <;> omega
  apply Stretch.cons (b := { p with next := n.next }) rfl
  · exact
      { even := h.previous.even
        pos := h.previous.pos
        room := h.previous.room
        nextEven := h.next.nextEven
        size := by simp only; omega
        freeSize := fun _ => by simp only; omega
        word := hmem.link
        owner_eq := howner
        back := by simp
        apart := fun _ => rfl }
  · rw [Stretch.tag_free (b := { p with next := n.next }) h.free]
    exact hright'

variable {cell : ℕ}

theorem start_le (h : Surrounded mem start pre p b n post after) :
    start ≤ p.addr := by
  cases hpre : pre with
  | nil =>
      have hleft := h.left
      rw [hpre] at hleft
      cases hleft
      exact le_rfl
  | cons c cs =>
      have hmem : c ∈ pre := by simp [hpre]
      have hc := h.before c hmem
      have := h.left.le_addr hmem
      have := hc.next_le
      have := hc.size
      omega

/-- The link of a free block before it. -/
theorem link_before (h : Surrounded mem start pre p b n post after) {f : ℕ}
    (hf : f ∈ freeAddrs pre) : start ≤ f ∧ f + 8 ≤ p.addr := by
  obtain ⟨c, hc, hfree, rfl⟩ := mem_freeAddrs.mp hf
  have hbefore := h.before c hc
  have := hbefore.next_le
  have := hbefore.freeSize hfree
  exact ⟨h.left.le_addr hc, by omega⟩

theorem link_behind (h : Surrounded mem start pre p b n post after) {f : ℕ}
    (hf : f ∈ freeAddrs post) : n.next ≤ f ∧ n.addr + 4 ≤ n.next := by
  obtain ⟨c, hc, -, rfl⟩ := mem_freeAddrs.mp hf
  have hbehind := h.behind c hc
  exact ⟨hbehind.next_le, hbehind.size⟩

theorem links_between (h : Surrounded mem start pre p b n post after)
    (hn : n.owner ≠ 0) (hcell : cell ≤ start)
    (hmem : MergedUsed p n mem mem')
    (hlinks : Linked mem cell (freeAddrs (pre ++ p :: b :: n :: post))) :
    Linked mem' cell
      (freeAddrs (pre ++ { p with next := n.addr } :: n :: post)) := by
  have hsize := h.size
  have hblockSize := h.blockSize
  have hstart := h.start_le
  rw [freeAddrs_append, freeAddrs_cons_free (by exact h.free),
    freeAddrs_cons_used hn]
  rw [freeAddrs_append, freeAddrs_cons_free h.free,
    freeAddrs_cons_used h.used, freeAddrs_cons_used hn] at hlinks
  apply hlinks.transport
  · apply readWord_congr <;> apply hmem.same <;> omega
  · intro g hg
    rcases List.mem_append.mp hg with hg | hg
    · have hbefore := h.link_before hg
      apply readWord_congr <;> apply hmem.same <;> omega
    rcases List.mem_cons.mp hg with rfl | hg
    · apply readWord_congr <;> apply hmem.same <;> omega
    · have hbehind := h.link_behind hg
      apply readWord_congr <;> apply hmem.same <;> omega

theorem links_joining (h : Surrounded mem start pre p b n post after)
    (hn : n.owner = 0) (hlow : 2 ≤ cell) (hcell : cell ≤ start)
    (hmem : MergedFree p n mem mem')
    (hlinks : Linked mem cell (freeAddrs (pre ++ p :: b :: n :: post))) :
    Linked mem' cell
      (freeAddrs (pre ++ { p with next := n.next } :: post)) := by
  have hsize := h.size
  have hblockSize := h.blockSize
  have hfreeSize := h.next.freeSize hn
  have hstart := h.start_le
  have hsame : ∀ f, f ∈ freeAddrs pre →
      mem'.readWord (f + 6) = mem.readWord (f + 6) := by
    intro f hf
    have hbefore := h.link_before hf
    apply readWord_congr <;> apply hmem.same <;> omega
  rw [freeAddrs_append, freeAddrs_cons_free (by exact h.free),
    linked_append, linked_cons]
  rw [freeAddrs_append, freeAddrs_cons_free h.free,
    freeAddrs_cons_used h.used, freeAddrs_cons_free hn, linked_append,
    linked_cons, linked_cons] at hlinks
  obtain ⟨hpath, hp, -, hrest⟩ := hlinks
  have hcellSame : mem'.readWord cell = mem.readWord cell := by
    apply readWord_congr <;> apply hmem.same <;> omega
  refine ⟨?_, ?_, ?_⟩
  · apply hpath.transport (fun _ => hcellSame)
    exact fun f hf => hsame f (List.dropLast_subset _ hf)
  · rw [← hp]
    rcases lastWord_cases cell (freeAddrs pre) with hlast | ⟨f, hf, hlast⟩
    · rw [hlast]
      exact hcellSame
    · rw [hlast]
      exact hsame f hf
  · apply hrest.transport hmem.free
    intro f hf
    have hbehind := h.link_behind hf
    apply readWord_congr <;> apply hmem.same <;> omega

end Surrounded

end MergeWithPrevious

section Enqueue

variable {mem : Memory} {start cell : ℕ} {after : Option ℕ}
  {b n : BiboBlock} {pre : List BiboBlock}

/-- What `bibo_free` writes before the last block, which is free. -/
structure Enqueued (b : BiboBlock) (word : ℕ) (mem mem' : Memory) :
    Prop where
  same : ∀ x, x < b.addr + 2 ∨ b.addr + 8 ≤ x → x ≠ word → x ≠ word + 1 →
    mem' x = mem x
  header : mem'.readWord (b.addr + 2) = 0
  owner : mem'.readWord (b.addr + 4) = 0
  link : mem'.readWord (b.addr + 6) = 0
  pointer : mem'.readWord word = b.addr

/-- `bibo_free` of the block before the last one. -/
theorem Stretch.free_last {mem' : Memory}
    (h : Stretch mem none start (pre ++ [b, n]) after 0)
    (hleft : Stretch mem none start pre none b.addr) (hb : b.In mem none)
    (hcell : cell ≤ start) (hmem : Enqueued b (pointer cell pre) mem mem') :
    Stretch mem' none start (pre ++ [⟨b.addr, 0, 0⟩]) (some b.addr) 0 := by
  apply Stretch.append (u := none)
  · apply h.left_transport hleft hcell
    intro x hx hne hne'
    exact hmem.same x (Or.inl hx) hne hne'
  · apply Stretch.cons (b := ⟨b.addr, 0, 0⟩) rfl
    · exact
        { even := hb.even
          pos := hb.pos
          room := hb.room
          nextEven := rfl
          size := Or.inl rfl
          freeSize := fun _ => Or.inl rfl
          word := hmem.header
          owner_eq := hmem.owner
          back := by simp
          apart := fun _ => rfl }
    · exact Stretch.nil

theorem links_last {mem' : Memory} {gs : List ℕ}
    (h : Stretch mem none start (pre ++ [b, n]) after 0)
    (hcell : cell ≤ start) (hmem : Enqueued b (pointer cell pre) mem mem')
    (hlinks : Linked mem cell (freeAddrs pre ++ gs)) :
    Linked mem' cell (freeAddrs (pre ++ [⟨b.addr, 0, 0⟩])) := by
  rw [freeAddrs_append, freeAddrs_cons_free rfl, linked_append, linked_cons]
  refine ⟨?_, hmem.pointer, trivial, hmem.link⟩
  apply LinkPath.left_transport h hcell hlinks
  intro x hx hne hne'
  exact hmem.same x (Or.inl hx) hne hne'

theorem pointer_le {post : List BiboBlock}
    (h : Stretch mem none start (pre ++ b :: post) after 0)
    (hcell : cell ≤ start) : pointer cell pre ≤ b.addr := by
  have hstart := h.le_addr (b := b) (by simp)
  rcases pointer_cases cell h with hp | ⟨f, -, -, -, hf, hp⟩
  · omega
  · omega

theorem enqueue_last
    (h : Stretch mem none start (pre ++ [b, n]) after 0)
    (hn : n.owner = 0) (hsize : b.addr + 4 ≤ n.addr)
    (hnin : n.In mem none) (hlast : n.next = 0) (hcell : cell ≤ start)
    (hlink : mem.readWord (n.addr + 6) = 0) :
    Enqueued b (pointer cell pre) mem
      (enqueue b.addr n.addr (pointer cell pre) n.addr
        (mem.writeWord (b.addr + 4) 0)) := by
  have hpointer := pointer_le h hcell
  have hroom := hnin.room
  have hread : ∀ k, 2 ≤ k → ((mem.writeWord (b.addr + 4) 0).writeWord
      (pointer cell pre) b.addr).readWord (n.addr + k) =
        mem.readWord (n.addr + k) := by
    intro k hk
    rw [readWord_writeWord_of_apart (by omega),
      readWord_writeWord_of_apart (by omega)]
  simp only [enqueue, if_true, hread 2 le_rfl, hread 6 (by omega), hlink,
    hnin.word_free hn, hlast]
  refine ⟨?_, ?_, ?_, readWord_writeWord (by omega), ?_⟩
  · intro x hx hne hne'
    rw [writeWord_of_ne (by omega) (by omega),
      writeWord_of_ne (by omega) (by omega), writeWord_of_ne hne hne',
      writeWord_of_ne (by omega) (by omega)]
  · rw [readWord_writeWord_of_apart (by omega)]
    exact readWord_writeWord (by omega)
  · rw [readWord_writeWord_of_apart (by omega),
      readWord_writeWord_of_apart (by omega),
      readWord_writeWord_of_apart (by omega)]
    exact readWord_writeWord (by omega)
  · rw [readWord_writeWord_of_apart (by omega),
      readWord_writeWord_of_apart (by omega)]
    exact readWord_writeWord (by omega)

end Enqueue

section Take

variable {mem mem' : Memory} {start cell size : ℕ} {after : Option ℕ}
  {p : BiboBlock} {pre post : List BiboBlock}

/-- What `bibo_malloc` writes when it splits a block. -/
structure Divided (p : BiboBlock) (rest word : ℕ) (mem mem' : Memory) :
    Prop where
  same : ∀ x, x < p.addr + 2 ∨ p.next + 2 ≤ x → x ≠ word → x ≠ word + 1 →
    mem' x = mem x
  header : mem'.readWord (p.addr + 2) = rest
  owner : mem'.readWord (p.addr + 4) = 0xfffe
  restHeader : mem'.readWord (rest + 2) = p.next
  restOwner : mem'.readWord (rest + 4) = 0
  restLink : mem'.readWord (rest + 6) = mem.readWord (p.addr + 6)
  back : mem'.readWord p.next = rest
  pointer : mem'.readWord word = rest

theorem takeFree_divided (mem : Memory) {word : ℕ} (hsize : 2 ≤ size)
    (hfit : p.addr + size + 12 ≤ p.next) (hword : word ≤ p.addr)
    (hlt : p.next < 65536) :
    Divided p (p.addr + size + 4) word mem
      (takeFree size word p.addr (p.next - p.addr) mem) := by
  have hsplit : size + 12 ≤ p.next - p.addr := by omega
  have hend : p.addr + (p.next - p.addr) = p.next := by omega
  have hread : ((((mem.writeWord (p.addr + 4) 0xfffe).writeWord
      (p.addr + size + 4 + 4) 0).writeWord (p.addr + size + 4 + 2)
        p.next).writeWord p.next (p.addr + size + 4)).readWord
          (p.addr + 6) = mem.readWord (p.addr + 6) := by
    rw [readWord_writeWord_of_apart (by omega),
      readWord_writeWord_of_apart (by omega),
      readWord_writeWord_of_apart (by omega),
      readWord_writeWord_of_apart (by omega)]
  have hlinkLt := readWord_lt mem (p.addr + 6)
  simp only [takeFree, if_pos hsplit, hend, hread]
  refine ⟨?_, ?_, ?_, ?_, ?_, ?_, ?_, ?_⟩
  · intro x hx hne hne'
    rw [writeWord_of_ne hne hne', writeWord_of_ne (by omega) (by omega),
      writeWord_of_ne (by omega) (by omega),
      writeWord_of_ne (by omega) (by omega),
      writeWord_of_ne (by omega) (by omega),
      writeWord_of_ne (by omega) (by omega),
      writeWord_of_ne (by omega) (by omega)]
  · rw [readWord_writeWord_of_apart (by omega)]
    exact readWord_writeWord (by omega)
  · rw [readWord_writeWord_of_apart (by omega),
      readWord_writeWord_of_apart (by omega),
      readWord_writeWord_of_apart (by omega),
      readWord_writeWord_of_apart (by omega),
      readWord_writeWord_of_apart (by omega),
      readWord_writeWord_of_apart (by omega)]
    exact readWord_writeWord (by omega)
  · rw [readWord_writeWord_of_apart (by omega),
      readWord_writeWord_of_apart (by omega),
      readWord_writeWord_of_apart (by omega),
      readWord_writeWord_of_apart (by omega)]
    exact readWord_writeWord hlt
  · rw [readWord_writeWord_of_apart (by omega),
      readWord_writeWord_of_apart (by omega),
      readWord_writeWord_of_apart (by omega),
      readWord_writeWord_of_apart (by omega),
      readWord_writeWord_of_apart (by omega)]
    exact readWord_writeWord (by omega)
  · rw [readWord_writeWord_of_apart (by omega),
      readWord_writeWord_of_apart (by omega)]
    exact readWord_writeWord hlinkLt
  · rw [readWord_writeWord_of_apart (by omega),
      readWord_writeWord_of_apart (by omega),
      readWord_writeWord_of_apart (by omega)]
    exact readWord_writeWord (by omega)
  · exact readWord_writeWord (by omega)

/-- `bibo_malloc` splits a block that has a successor. -/
theorem Stretch.divide {rest : ℕ}
    (h : Stretch mem none start (pre ++ p :: post) after 0)
    (hp : p.owner = 0) (hcell : cell ≤ start)
    (hlow : p.addr + 4 ≤ rest) (hhigh : rest + 8 ≤ p.next)
    (heven : rest % 2 = 0)
    (hmem : Divided p rest (pointer cell pre) mem mem') :
    ∃ after', Stretch mem' none start
      (pre ++ ⟨p.addr, rest, 0xfffe⟩ :: ⟨rest, p.next, 0⟩ :: post)
        after' 0 := by
  obtain ⟨hbefore, hbehind⟩ := h.around
  have hpointer := pointer_le h hcell
  obtain ⟨u, hleft, hpin, hright⟩ := h.at_block
  obtain rfl := hpin.apart hp
  rw [tag_free hp] at hright
  have hnext := Stretch.next_lt hpin
  obtain ⟨after', hright'⟩ := hright.retag (fun _ => hmem.back) (by
    intro c hc x hx hle _
    exact hmem.same x (Or.inr hx) (by omega) (by omega))
  refine ⟨after', ?_⟩
  apply Stretch.append (u := none)
  · apply h.left_transport hleft hcell
    intro x hx hne hne'
    exact hmem.same x (Or.inl hx) hne hne'
  apply Stretch.cons (b := ⟨p.addr, rest, 0xfffe⟩) rfl
  · exact
      { even := hpin.even
        pos := hpin.pos
        room := hpin.room
        nextEven := heven
        size := Or.inr hlow
        freeSize := by simp
        word := hmem.header
        owner_eq := hmem.owner
        back := by simp
        apart := by simp }
  rw [tag_used (b := ⟨p.addr, rest, 0xfffe⟩) (by simp)]
  apply Stretch.cons (b := ⟨rest, p.next, 0⟩) rfl
  · exact
      { even := heven
        pos := by simp only; omega
        room := by simp only; omega
        nextEven := hpin.nextEven
        size := by simp only; omega
        freeSize := fun _ => Or.inr hhigh
        word := hmem.restHeader
        owner_eq := hmem.restOwner
        back := by simp
        apart := fun _ => rfl }
  exact hright'

theorem links_divide {rest : ℕ}
    (h : Stretch mem none start (pre ++ p :: post) after 0)
    (hp : p.owner = 0) (hcell : cell ≤ start)
    (hmem : Divided p rest (pointer cell pre) mem mem')
    (hlinks : Linked mem cell (freeAddrs (pre ++ p :: post))) :
    Linked mem' cell (freeAddrs
      (pre ++ ⟨p.addr, rest, 0xfffe⟩ :: ⟨rest, p.next, 0⟩ :: post)) := by
  have hpointer := pointer_le h hcell
  rw [freeAddrs_append, freeAddrs_cons_free hp] at hlinks
  rw [freeAddrs_append, freeAddrs_cons_used (by simp),
    freeAddrs_cons_free rfl, linked_append, linked_cons]
  refine ⟨?_, hmem.pointer, ?_⟩
  · apply LinkPath.left_transport h hcell hlinks
    intro x hx hne hne'
    exact hmem.same x (Or.inl hx) hne hne'
  · rw [linked_append, linked_cons] at hlinks
    apply hlinks.2.2.transport hmem.restLink
    intro f hf
    obtain ⟨c, hc, -, rfl⟩ := mem_freeAddrs.mp hf
    have hbehind := h.around.2 c hc
    have := hbehind.next_le
    have := hbehind.size
    apply readWord_congr <;> apply hmem.same <;> omega

/-- `bibo_malloc` takes the last block whole. -/
theorem Stretch.takeLast (hp : p.owner = 0)
    (h : Stretch mem none start (pre ++ [p]) after 0)
    (hcell : cell ≤ start)
    (hlinks : Linked mem cell (freeAddrs (pre ++ [p]))) :
    Stretch ((mem.writeWord (p.addr + 4) 0xfffe).writeWord
        (pointer cell pre) 0) none start (pre ++ [⟨p.addr, 0, 0xfffe⟩])
          none 0 ∧
      Linked ((mem.writeWord (p.addr + 4) 0xfffe).writeWord
        (pointer cell pre) 0) cell
          (freeAddrs (pre ++ [⟨p.addr, 0, 0xfffe⟩])) := by
  have hpointer := pointer_le h hcell
  have hsame : ∀ x, x < p.addr + 2 → x ≠ pointer cell pre →
      x ≠ pointer cell pre + 1 →
        ((mem.writeWord (p.addr + 4) 0xfffe).writeWord (pointer cell pre) 0)
          x = mem x := by
    intro x hx hne hne'
    rw [writeWord_of_ne hne hne', writeWord_of_ne (by omega) (by omega)]
  obtain ⟨u, hleft, hpin, hright⟩ := h.at_block
  obtain rfl := hpin.apart hp
  have hlast : p.next = 0 := hright.of_nil.2
  constructor
  · apply Stretch.append (u := none) (h.left_transport hleft hcell hsame)
    apply Stretch.cons (b := ⟨p.addr, 0, 0xfffe⟩) rfl
    · exact
        { even := hpin.even
          pos := hpin.pos
          room := hpin.room
          nextEven := rfl
          size := Or.inl rfl
          freeSize := by simp
          word := by
            rw [readWord_writeWord_of_apart (by simp only; omega),
              readWord_writeWord_of_apart (by simp only; omega)]
            exact (hpin.word_free hp).trans hlast
          owner_eq := by
            rw [readWord_writeWord_of_apart (by simp only; omega)]
            exact readWord_writeWord (by omega)
          back := by simp
          apart := by simp }
    · rw [tag_used (b := ⟨p.addr, 0, 0xfffe⟩) (by simp)]
      exact Stretch.nil
  · rw [freeAddrs_append, freeAddrs_cons_free hp] at hlinks
    rw [freeAddrs_append, freeAddrs_cons_used (by simp), linked_append]
    refine ⟨LinkPath.left_transport h hcell hlinks hsame, trivial, ?_⟩
    exact readWord_writeWord (by omega)

end Take

end BrickEmu
