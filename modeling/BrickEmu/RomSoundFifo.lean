import BrickEmu.RomSoundContents

/-!
# The sound queue is a queue

A call moves the tail after the entry is complete, so that the interrupt never
sees half an entry.  The interrupt between two instructions only makes room;
what the call knows about the head may be old, but then it is too careful.
-/

namespace BrickEmu

namespace Rom

namespace Enqueue

/-- The head was read when `seen` entries waited; since then entries may have
been taken. -/
structure HeadRead (tail : Byte) (count seen : ℕ) (r6h : Byte) : Prop where
  head_lt : r6h.toNat < 10
  tail_eq : (r6h.toNat + 1 + seen) % 10 = tail.toNat
  seen_le : seen ≤ 8
  count_le : count ≤ seen

/-- There is room for another entry in the slot of the tail. -/
structure Room (tail : Byte) (count seen : ℕ) (r5l r6l : Byte) : Prop where
  slot_eq : r5l = tail
  next_eq : r6l.toNat = (tail.toNat + 1) % 10
  count_le : count ≤ seen
  seen_lt : seen < 8

/-- The comparison with the head that was read tells whether eight waited. -/
theorem HeadRead.full_iff {tail r6h r6l : Byte} {count seen : ℕ}
    (h : HeadRead tail count seen r6h)
    (hr6l : r6l.toNat = (tail.toNat + 1) % 10) : r6h = r6l ↔ seen = 8 := by
  have hhead := h.head_lt
  have htail := h.tail_eq
  have hseen := h.seen_le
  rw [← BitVec.toNat_inj]
  omega

theorem Room.address {tail r5l r6l : Byte} {count seen : ℕ}
    (h : Room tail count seen r5l r6l) :
    (0#8 ++ r5l : Word) = tail.setWidth 16 := by
  rw [h.slot_eq, append_zero]

/-- What a call knows when it has come to an instruction. -/
def Known (tail : Byte) (count seen : ℕ) (slot : SoundEntry) (e : Enqueue) :
    Prop :=
  match e.place with
  | .loadHead => True
  | .loadTail => HeadRead tail count seen e.r6h
  | .copyTail => HeadRead tail count seen e.r6h ∧ e.r6l = tail
  | .increment =>
      HeadRead tail count seen e.r6h ∧ e.r5l = tail ∧ e.r6l = tail
  | .compareTen =>
      HeadRead tail count seen e.r6h ∧ e.r5l = tail ∧
        e.r6l.toNat = tail.toNat + 1
  | .branchTen =>
      HeadRead tail count seen e.r6h ∧ e.r5l = tail ∧
        e.r6l.toNat = tail.toNat + 1 ∧ e.zero = (e.r6l == 10)
  | .wrap =>
      HeadRead tail count seen e.r6h ∧ e.r5l = tail ∧ tail.toNat + 1 = 10
  | .compareHead =>
      HeadRead tail count seen e.r6h ∧ e.r5l = tail ∧
        e.r6l.toNat = (tail.toNat + 1) % 10
  | .branchHead =>
      HeadRead tail count seen e.r6h ∧ e.r5l = tail ∧
        e.r6l.toNat = (tail.toNat + 1) % 10 ∧ e.zero = (e.r6h == e.r6l)
  | .clearHigh => Room tail count seen e.r5l e.r6l
  | .loadType => Room tail count seen e.r5l e.r6l ∧ e.r5h = 0
  | .storeType =>
      Room tail count seen e.r5l e.r6l ∧ e.r5h = 0 ∧ e.r6h = e.entry.type
  | .loadValue =>
      Room tail count seen e.r5l e.r6l ∧ e.r5h = 0 ∧ slot.type = e.entry.type
  | .storeValue =>
      Room tail count seen e.r5l e.r6l ∧ e.r5h = 0 ∧
        slot.type = e.entry.type ∧ e.r6h = e.entry.value
  | .loadFreq =>
      Room tail count seen e.r5l e.r6l ∧ e.r5h = 0 ∧
        slot.type = e.entry.type ∧ slot.value = e.entry.value
  | .storeFreq =>
      Room tail count seen e.r5l e.r6l ∧ e.r5h = 0 ∧
        slot.type = e.entry.type ∧ slot.value = e.entry.value ∧
        e.r6h = e.entry.freq
  | .storeTail => Room tail count seen e.r5l e.r6l ∧ slot = e.entry
  | .loadPlaying | .storePlaying | .leave => seen ≤ 8

variable {tail : Byte} {count count' seen : ℕ} {slot : SoundEntry}

theorem HeadRead.mono {r6h : Byte} (h : HeadRead tail count seen r6h)
    (hcount : count' ≤ count) : HeadRead tail count' seen r6h :=
  { h with count_le := hcount.trans h.count_le }

theorem Room.mono {r5l r6l : Byte} (h : Room tail count seen r5l r6l)
    (hcount : count' ≤ count) : Room tail count' seen r5l r6l :=
  { h with count_le := hcount.trans h.count_le }

/-- The knowledge survives when entries are taken. -/
theorem Known.mono {e : Enqueue} (h : e.Known tail count seen slot)
    (hcount : count' ≤ count) : e.Known tail count' seen slot := by
  obtain ⟨place, entry, r5h, r5l, r6h, r6l, zero⟩ := e
  cases place with
  | loadHead => trivial
  | loadTail => exact HeadRead.mono h hcount
  | copyTail | increment | compareTen | branchTen | wrap | compareHead
  | branchHead => exact And.imp_left (HeadRead.mono · hcount) h
  | clearHigh => exact Room.mono h hcount
  | loadType | storeType | loadValue | storeValue | loadFreq | storeFreq
  | storeTail => exact And.imp_left (Room.mono · hcount) h
  | loadPlaying | storePlaying | leave => exact h

end Enqueue

/-- The invariant of the runs. -/
structure SoundQueue.Inv (timer flags : Word) (c : SoundQueue) : Prop where
  pointers : Pointers timer flags c.ram
  bounds : QueueBounds c.ram
  history : c.accepted = c.dequeued ++ c.ram.queuedSounds
  call : ∀ e, c.call = some e →
    e.Known (c.ram soundQueueTail) c.ram.queueCount c.seen
      (c.ram.soundEntry (c.ram soundQueueTail))

namespace SoundQueue

variable {timer flags : Word} {c : SoundQueue} {e : Enqueue}

namespace Inv

theorem waiting (h : Inv timer flags c) : c.waiting = c.ram.queueCount := by
  rw [SoundQueue.waiting, h.history, List.length_append, length_queuedSounds,
    Nat.add_sub_cancel_left]

/-- Only registers change. -/
theorem registers (h : Inv timer flags c) {seen executed : ℕ}
    (hknown : e.Known (c.ram soundQueueTail) c.ram.queueCount seen
      (c.ram.soundEntry (c.ram soundQueueTail))) :
    Inv timer flags
      { c with call := some e, seen := seen, executed := executed } where
  pointers := h.pointers
  bounds := h.bounds
  history := h.history
  call e' he' := by
    cases he'
    exact hknown

theorem returns (h : Inv timer flags c) {returned : List (SoundEntry × ℕ)}
    {executed : ℕ} :
    Inv timer flags
      { c with call := none, returned := returned, executed := executed } :=
  { h with call := by simp }

/-- The memory changes outside the contents of the queue. -/
theorem memory (h : Inv timer flags c) {ram : Ram} {call : Option Enqueue}
    {executed : ℕ} (hp : Pointers timer flags ram)
    (hhead : ram soundQueueHead = c.ram soundQueueHead)
    (htail : ram soundQueueTail = c.ram soundQueueTail)
    (hslots : ∀ index : Byte, index.toNat < 10 →
      index ≠ c.ram soundQueueTail →
        ram.soundEntry index = c.ram.soundEntry index)
    (hcall : ∀ e, call = some e →
      e.Known (c.ram soundQueueTail) c.ram.queueCount c.seen
        (ram.soundEntry (c.ram soundQueueTail))) :
    Inv timer flags
      { c with ram := ram, call := call, executed := executed } := by
  obtain ⟨hcount, hsounds⟩ := queuedSounds_congr h.bounds hhead htail hslots
  constructor
  · exact hp
  · exact h.bounds.congr hhead htail
  · exact h.history.trans (congrArg (c.dequeued ++ ·) hsounds.symm)
  · intro e he
    dsimp only
    rw [htail, hcount]
    exact hcall e he

theorem other (h : Inv timer flags c) {ram : Ram}
    (hkept : ∀ a, QueueCell a → ram a = c.ram a) :
    Inv timer flags { c with ram := ram } := by
  have hentry : ∀ index : Byte, index.toNat < 10 →
      ram.soundEntry index = c.ram.soundEntry index := by
    intro index hindex
    apply soundEntry_congr
    intro a ha
    exact hkept a (Or.inr (by omega))
  apply h.memory
  · exact h.pointers.congr fun a hlow hhigh => hkept a (Or.inl ⟨hlow, hhigh⟩)
  · exact hkept _ (Or.inr (by decide))
  · exact hkept _ (Or.inr (by decide))
  · exact fun index hindex _ => hentry index hindex
  · intro e he
    rw [hentry _ h.bounds.tail]
    exact h.call e he

/-- A byte goes into the slot of the tail. -/
theorem storeSlot (h : Inv timer flags c) {base : Word} {r5l r6l val : Byte}
    {executed : ℕ}
    (hroom : Enqueue.Room (c.ram soundQueueTail) c.ram.queueCount c.seen
      r5l r6l)
    (hbase : base = soundQueueType ∨ base = soundQueueValue ∨
      base = soundQueueFreq)
    (hknown : e.Known (c.ram soundQueueTail) c.ram.queueCount c.seen
      ((c.ram.set (base + (c.ram soundQueueTail).setWidth 16) val).soundEntry
        (c.ram soundQueueTail))) :
    Inv timer flags
      { c with
        ram := c.ram.set (base + (0#8 ++ r5l)) val
        call := some e
        executed := executed } := by
  rw [hroom.address]
  apply h.memory
  · apply h.pointers.congr
    intro a _ hhigh
    exact storeSlot_cells h.bounds hbase val (Or.inl (by omega))
  · exact storeSlot_cells h.bounds hbase val (Or.inl (by decide))
  · exact storeSlot_cells h.bounds hbase val (Or.inl (by decide))
  · intro index hindex hne
    apply soundEntry_congr
    intro a ha
    exact storeSlot_cells h.bounds hbase val
      (Or.inr ⟨index, hindex, hne, ha⟩)
  · intro e' he'
    cases he'
    exact hknown

/-- The tail moves behind the complete entry. -/
theorem storeTail (h : Inv timer flags c) {r5l r6l : Byte} (executed : ℕ)
    (hroom : Enqueue.Room (c.ram soundQueueTail) c.ram.queueCount c.seen
      r5l r6l)
    (hplace : e.place = .loadPlaying) :
    Inv timer flags
      { c with
        ram := c.ram.set soundQueueTail r6l
        call := some e
        accepted := c.accepted ++
          [c.ram.soundEntry (c.ram soundQueueTail)]
        executed := executed } := by
  have hcount : c.ram.queueCount ≤ 7 :=
    hroom.count_le.trans (Nat.le_of_lt_succ hroom.seen_lt)
  have hsounds := (queuedSounds_enqueue h.bounds hcount hroom.next_eq).2
  constructor
  · apply h.pointers.congr
    intro a _ hhigh
    apply Ram.set_of_ne
    rintro rfl
    exact absurd hhigh (by decide)
  · exact h.bounds.enqueue hcount hroom.next_eq
  · dsimp only
    rw [hsounds, h.history, List.append_assoc]
  · intro e' he'
    cases he'
    rw [Enqueue.Known, hplace]
    exact hroom.seen_lt.le

theorem interrupt (h : Inv timer flags c) (hapart : Apart timer flags)
    (labels : Labels) : Inv timer flags (c.interrupt labels) := by
  have htick := ociaHandler_queue hapart h.pointers h.bounds.head labels
  have hp := htick.pointers h.pointers
  rw [SoundQueue.interrupt]
  generalize ociaHandler labels c.ram = after at htick hp
  cases htick with
  | keeps hkept =>
      dsimp only [Option.toList]
      rw [List.append_nil]
      exact h.other hkept
  | @takes m' hne hcells =>
      have hhead : m' soundQueueHead = nextIndex (c.ram soundQueueHead) :=
        (hcells _ (Or.inr (by decide))).trans (Ram.set_self ..)
      have hother : ∀ a, QueueCell a → a ≠ soundQueueHead →
          m' a = c.ram a := fun a ha hne =>
        (hcells a ha).trans (Ram.set_of_ne hne)
      obtain ⟨hcount, hsounds⟩ :=
        queuedSounds_dequeue h.bounds hne hhead hother
      have hslot : m'.soundEntry (c.ram soundQueueTail) =
          c.ram.soundEntry (c.ram soundQueueTail) := by
        have htail := h.bounds.tail
        apply soundEntry_congr
        intro a ha
        apply hother a (Or.inr (by omega))
        rintro rfl
        change 0xefd7 = _ ∨ 0xefd7 = _ ∨ 0xefd7 = _ at ha
        omega
      constructor
      · exact hp
      · exact h.bounds.dequeue hne hhead hother
      · dsimp only [Option.toList]
        rw [h.history, hsounds, List.append_assoc, List.singleton_append]
      · intro e he
        dsimp only
        rw [hother _ (Or.inr (by decide)) (by decide), hslot]
        exact (h.call e he).mono (by omega)

/-- One instruction of the call. -/
theorem run (h : Inv timer flags c) (hcall : c.call = some e) :
    Inv timer flags (c.run e) := by
  have hknown := h.call e hcall
  have htail := h.bounds.tail
  obtain ⟨place, entry, r5h, r5l, r6h, r6l, zero⟩ := e
  cases place with
  | loadHead =>
      have hread : Enqueue.HeadRead (c.ram soundQueueTail) c.ram.queueCount
          c.waiting (c.ram soundQueueHead) := by
        have hhead := h.bounds.head
        have hroom := h.bounds.room
        rw [h.waiting]
        refine ⟨hhead, ?_, hroom, le_refl _⟩
        rw [Ram.queueCount]
        omega
      exact h.registers hread
  | loadTail => exact h.registers (And.intro hknown rfl)
  | copyTail =>
      obtain ⟨hread, hr6l⟩ := hknown
      exact h.registers (And.intro hread (And.intro hr6l hr6l))
  | increment =>
      obtain ⟨hread, hr5l, hr6l⟩ := hknown
      have hsucc : (r6l + 1).toNat = (c.ram soundQueueTail).toNat + 1 := by
        change r6l = _ at hr6l
        rw [hr6l]
        change (_ + 1) % 256 = _
        omega
      exact h.registers (And.intro hread (And.intro hr5l hsucc))
  | compareTen =>
      obtain ⟨hread, hr5l, hr6l⟩ := hknown
      exact h.registers
        (And.intro hread (And.intro hr5l (And.intro hr6l rfl)))
  | branchTen =>
      obtain ⟨hread, hr5l, hr6l, hzero⟩ := hknown
      change zero = (r6l == 10) at hzero
      cases zero with
      | true =>
          have hten : r6l = 10 := beq_iff_eq.mp hzero.symm
          have hwrap : (c.ram soundQueueTail).toNat + 1 = 10 := by
            rw [← hr6l]
            exact congrArg BitVec.toNat hten
          exact h.registers (And.intro hread (And.intro hr5l hwrap))
      | false =>
          have hten : r6l ≠ 10 := fun h => by rw [h] at hzero; cases hzero
          have hnat : r6l.toNat ≠ 10 := fun h => hten (BitVec.eq_of_toNat_eq h)
          have hnext : r6l.toNat = ((c.ram soundQueueTail).toNat + 1) % 10 := by
            change r6l.toNat = _ at hr6l
            omega
          exact h.registers (And.intro hread (And.intro hr5l hnext))
  | wrap =>
      obtain ⟨hread, hr5l, hten⟩ := hknown
      have hnext : (0 : Byte).toNat =
          ((c.ram soundQueueTail).toNat + 1) % 10 := by
        rw [hten]
        rfl
      exact h.registers (And.intro hread (And.intro hr5l hnext))
  | compareHead =>
      obtain ⟨hread, hr5l, hr6l⟩ := hknown
      exact h.registers
        (And.intro hread (And.intro hr5l (And.intro hr6l rfl)))
  | branchHead =>
      obtain ⟨hread, hr5l, hr6l, hzero⟩ := hknown
      change zero = (r6h == r6l) at hzero
      have hfull : r6h = r6l ↔ c.seen = 8 := hread.full_iff hr6l
      cases zero with
      | true =>
          exact h.registers hread.seen_le
      | false =>
          have hne : c.seen ≠ 8 := by
            rw [Ne, ← hfull]
            rintro rfl
            rw [beq_self_eq_true] at hzero
            cases hzero
          have hseen := hread.seen_le
          have hroom : Enqueue.Room (c.ram soundQueueTail) c.ram.queueCount
              c.seen r5l r6l := ⟨hr5l, hr6l, hread.count_le, by omega⟩
          exact h.registers hroom
  | clearHigh => exact h.registers (And.intro hknown rfl)
  | loadType =>
      obtain ⟨hroom, hr5h⟩ := hknown
      exact h.registers (And.intro hroom (And.intro hr5h rfl))
  | storeType =>
      obtain ⟨hroom, rfl, hr6h⟩ := hknown
      apply h.storeSlot hroom (Or.inl rfl)
      rw [soundEntry_setType]
      exact And.intro hroom (And.intro rfl hr6h)
  | loadValue =>
      obtain ⟨hroom, hr5h, htype⟩ := hknown
      exact h.registers
        (And.intro hroom (And.intro hr5h (And.intro htype rfl)))
  | storeValue =>
      obtain ⟨hroom, rfl, htype, hr6h⟩ := hknown
      apply h.storeSlot hroom (Or.inr (Or.inl rfl))
      rw [soundEntry_setValue]
      exact And.intro hroom (And.intro rfl (And.intro htype hr6h))
  | loadFreq =>
      obtain ⟨hroom, hr5h, htype, hvalue⟩ := hknown
      exact h.registers (And.intro hroom
        (And.intro hr5h (And.intro htype (And.intro hvalue rfl))))
  | storeFreq =>
      obtain ⟨hroom, rfl, htype, hvalue, hr6h⟩ := hknown
      apply h.storeSlot hroom (Or.inr (Or.inr rfl))
      rw [soundEntry_setFreq]
      refine And.intro hroom (SoundEntry.ext ?_ ?_ ?_)
      · exact htype
      · exact hvalue
      · exact hr6h
  | storeTail =>
      obtain ⟨hroom, hslot⟩ := hknown
      change _ = entry at hslot
      have hstored : Inv timer flags _ := h.storeTail (c.executed + 1)
        (e := ⟨.loadPlaying, entry, r5h, r5l, r6h, r6l, zero⟩) hroom rfl
      rw [hslot] at hstored
      exact hstored
  | loadPlaying => exact h.registers hknown
  | storePlaying =>
      have hkept : ∀ a, QueueCell a →
          (c.ram.set soundPlaying r6h) a = c.ram a := by
        intro a ha
        apply Ram.set_of_ne
        rintro rfl
        exact absurd ha (by decide)
      exact (h.other hkept).registers hknown
  | leave => exact h.returns

theorem start (labels : Labels) (timer flags : Word) (m : Ram) :
    Inv timer flags (SoundQueue.start labels timer flags m) := by
  obtain ⟨hhead, htail⟩ := initTimer_queue labels timer flags m
  have hcount : (initTimer labels timer flags m).queueCount = 0 := by
    rw [Ram.queueCount, hhead, htail]
    rfl
  have hbounds : QueueBounds (initTimer labels timer flags m) := by
    constructor
    · rw [hhead]
      decide
    · rw [htail]
      decide
    · rw [hcount]
      exact Nat.zero_le 8
  have hempty : (initTimer labels timer flags m).queuedSounds = [] := by
    rw [← List.length_eq_zero_iff, length_queuedSounds, hcount]
  constructor
  · exact initTimer_pointers labels timer flags m
  · exact hbounds
  · change [] = [] ++ (initTimer labels timer flags m).queuedSounds
    rw [hempty, List.nil_append]
  · intro e he
    cases he

theorem step {c' : SoundQueue} {labels : Labels} (h : Inv timer flags c)
    (hapart : Apart timer flags) (hstep : SoundStep labels c c') :
    Inv timer flags c' := by
  cases hstep with
  | @call e _ hplace =>
      apply h.registers
      rw [Enqueue.Known, hplace]
      trivial
  | run hcall => exact h.run hcall
  | interrupt => exact h.interrupt hapart labels
  | other hkept => exact h.other hkept

theorem reachable {labels : Labels} (hapart : Apart timer flags) (m : Ram)
    (h : Relation.ReflTransGen (SoundStep labels)
      (SoundQueue.start labels timer flags m) c) : Inv timer flags c := by
  induction h with
  | refl => exact Inv.start labels timer flags m
  | tail _ hstep ih => exact ih.step hapart hstep

end Inv

/-- The calls and the entries that were accepted. -/
structure Accounts (c : SoundQueue) : Prop where
  accepted : c.accepted = c.fitting ++ c.stored
  seen : ∀ call ∈ c.returned, call.2 ≤ 8
  executed : ∀ e, c.call = some e → c.executed ≤ e.place.ctorIdx

namespace Accounts

/-- Each instruction comes nearer to the end of the call. -/
theorem ctorIdx_step (m : Ram) (hplace : e.place ≠ .leave) :
    e.place.ctorIdx < (e.step m).2.place.ctorIdx := by
  obtain ⟨place, entry, r5h, r5l, r6h, r6l, zero⟩ := e
  cases place with
  | leave => exact absurd rfl hplace
  | branchTen =>
      cases zero with
      | true => exact Nat.lt_succ_self 5
      | false => exact (by decide : 5 < 7)
  | branchHead =>
      cases zero with
      | true => exact (by decide : 8 < 19)
      | false => exact Nat.lt_succ_self 8
  | _ => exact Nat.lt_succ_self _

/-- The return. -/
theorem accepted_leave (hacc : Accounts c) (hcall : c.call = some e)
    (hplace : e.place = .leave) :
    (c.run e).accepted = (c.run e).fitting ++ (c.run e).stored := by
  have haccepted := hacc.accepted
  rw [SoundQueue.stored, hcall] at haccepted
  dsimp only at haccepted
  rw [Enqueue.stored, hplace] at haccepted
  rw [SoundQueue.fitting] at haccepted
  simp only [SoundQueue.run, SoundQueue.fitting, SoundQueue.stored, hplace,
    reduceCtorEq, if_true, if_false, haccepted, List.filter_append,
    List.map_append, List.append_nil]
  by_cases hroom : c.seen < 8 <;> simp [hroom]

/-- An instruction before the return. -/
theorem accepted_run (h : Inv timer flags c) (hacc : Accounts c)
    (hcall : c.call = some e) (hplace : e.place ≠ .leave) :
    (c.run e).accepted = (c.run e).fitting ++ (c.run e).stored := by
  have haccepted := hacc.accepted
  have hknown := h.call e hcall
  obtain ⟨place, entry, r5h, r5l, r6h, r6l, zero⟩ := e
  rw [SoundQueue.stored, hcall] at haccepted
  cases place with
  | leave => exact absurd rfl hplace
  | branchTen => cases zero <;> exact haccepted
  | branchHead =>
      obtain ⟨hread, -, hr6l, hzero⟩ := hknown
      change zero = (r6h == r6l) at hzero
      cases zero with
      | true =>
          have hseen : c.seen = 8 :=
            (hread.full_iff hr6l).mp (beq_iff_eq.mp hzero.symm)
          have hnone : (c.run ⟨.branchHead, entry, r5h, r5l, r6h, r6l,
              true⟩).stored = [] := by
            change (if c.seen < 8 then [entry] else []) = []
            rw [if_neg (by omega)]
          rw [hnone]
          exact haccepted
      | false => exact haccepted
  | storeTail =>
      have hone : (c.run ⟨.storeTail, entry, r5h, r5l, r6h, r6l,
          zero⟩).stored = [entry] := by
        change (if c.seen < 8 then [entry] else []) = [entry]
        rw [if_pos hknown.1.seen_lt]
      rw [hone]
      exact congrArg (· ++ [entry]) (haccepted.trans (List.append_nil _))
  | _ => exact haccepted

theorem run (hacc : Accounts c) (h : Inv timer flags c)
    (hcall : c.call = some e) : Accounts (c.run e) := by
  by_cases hplace : e.place = .leave
  · have hseen : c.seen ≤ 8 := by
      have hknown := h.call e hcall
      rwa [Enqueue.Known, hplace] at hknown
    constructor
    · exact accepted_leave hacc hcall hplace
    · intro call hmem
      simp only [SoundQueue.run, hplace, if_true, List.mem_append,
        List.mem_singleton] at hmem
      rcases hmem with hold | rfl
      · exact hacc.seen call hold
      · exact hseen
    · intro e' he'
      simp only [SoundQueue.run, hplace, if_true, reduceCtorEq] at he'
  · constructor
    · exact accepted_run h hacc hcall hplace
    · intro call hmem
      simp only [SoundQueue.run, hplace, if_false] at hmem
      exact hacc.seen call hmem
    · intro e' he'
      simp only [SoundQueue.run, hplace, if_false, Option.some.injEq] at he'
      rw [← he']
      exact (Nat.succ_le_succ (hacc.executed e hcall)).trans
        (ctorIdx_step c.ram hplace)

theorem step {c' : SoundQueue} {labels : Labels} (hacc : Accounts c)
    (h : Inv timer flags c) (hstep : SoundStep labels c c') : Accounts c' := by
  cases hstep with
  | @call hnone e hplace =>
      have hnothing : e.stored c.seen = [] := by rw [Enqueue.stored, hplace]
      have haccepted := hacc.accepted
      rw [SoundQueue.stored, hnone] at haccepted
      constructor
      · exact haccepted.trans (congrArg (c.fitting ++ ·) hnothing.symm)
      · exact hacc.seen
      · intro e' _
        exact Nat.zero_le _
  | run hcall => exact hacc.run h hcall
  | interrupt => exact ⟨hacc.accepted, hacc.seen, hacc.executed⟩
  | other => exact ⟨hacc.accepted, hacc.seen, hacc.executed⟩

theorem reachable {labels : Labels} (hapart : Apart timer flags) (m : Ram)
    (h : Relation.ReflTransGen (SoundStep labels)
      (SoundQueue.start labels timer flags m) c) : Accounts c := by
  induction h with
  | refl =>
      constructor
      · rfl
      · intro call hmem
        exact absurd hmem List.not_mem_nil
      · intro e he
        cases he
  | tail hrun hstep ih => exact ih.step (.reachable hapart m hrun) hstep

end Accounts
end SoundQueue

variable {timer flags : Word}

/-- What was accepted and is not in the queue was dequeued, in order.  A call
ends, and its entry is accepted unless it saw eight entries waiting; the
interrupt takes the first entry whenever the next sound is due. -/
theorem soundQueue_fifo (labels : Labels) (hapart : Apart timer flags)
    (m : Ram) {c : SoundQueue}
    (h : Relation.ReflTransGen (SoundStep labels)
      (SoundQueue.start labels timer flags m) c) :
    c.accepted = c.dequeued ++ c.ram.queuedSounds ∧
      c.accepted = c.fitting ++ c.stored ∧
      (∀ call ∈ c.returned, call.2 ≤ 8) ∧
      (c.call ≠ none → c.executed < 20) ∧
      (ociaHandler labels c.ram).1 =
        (if SoundDue c.ram (tickedMotors c.ram (c.ram.get16 soundPitchPtr))
          then c.ram.queuedSounds.head? else none) ∧
      (c.ram soundQueueHead).toNat < 10 ∧
      (c.ram soundQueueTail).toNat < 10 := by
  have hinv := SoundQueue.Inv.reachable hapart m h
  have hacc := SoundQueue.Accounts.reachable hapart m h
  refine ⟨hinv.history, hacc.accepted, hacc.seen, ?_, ?_, hinv.bounds.head,
    hinv.bounds.tail⟩
  · intro hcall
    obtain ⟨e, he⟩ := Option.ne_none_iff_exists'.mp hcall
    have hlast : e.place.ctorIdx ≤ 19 := by cases e.place <;> decide
    exact Nat.lt_succ_of_le ((hacc.executed e he).trans hlast)
  · exact ociaHandler_entry hapart hinv.pointers hinv.bounds labels

/-- Eight of nine tones find room, and the tenth interrupt takes the first. -/
theorem soundQueue_fifo_nine :
    let labels : Labels := ⟨0x36ba, 0, 0, 0, 0⟩
    let tones : List SoundEntry :=
      [⟨130, 10, 4⟩, ⟨116, 20, 4⟩, ⟨103, 10, 4⟩, ⟨97, 10, 4⟩, ⟨87, 30, 4⟩,
        ⟨77, 10, 4⟩, ⟨69, 10, 4⟩, ⟨65, 10, 4⟩, ⟨58, 50, 4⟩]
    let start := SoundQueue.start labels romTimerStruct romHandlerStruct
      fun _ => 0
    let events : List SoundEvent := tones.flatMap (fun tone =>
      [.call tone, .instruction, .interrupt] ++
        .replicate 19 .instruction) ++ [.interrupt]
    let c := events.foldl (SoundQueue.handle labels) start
    c.accepted = tones.dropLast ∧ c.dequeued = [⟨130, 10, 4⟩] ∧
      c.returned.getLast? = some (⟨58, 50, 4⟩, 8) ∧
      c.accepted = c.dequeued ++ c.ram.queuedSounds ∧
      c.accepted = c.fitting ++ c.stored ∧
      (∀ call ∈ c.returned, call.2 ≤ 8) ∧
      (c.call ≠ none → c.executed < 20) ∧
      (ociaHandler labels c.ram).1 =
        (if SoundDue c.ram (tickedMotors c.ram (c.ram.get16 soundPitchPtr))
          then c.ram.queuedSounds.head? else none) ∧
      (c.ram soundQueueHead).toNat < 10 ∧
      (c.ram soundQueueTail).toNat < 10 := by
  intro labels tones start events c
  have hapart : Apart romTimerStruct romHandlerStruct := by
    constructor <;> decide
  refine ⟨by decide +kernel, by decide +kernel, by decide +kernel, ?_⟩
  exact soundQueue_fifo labels hapart (fun _ => 0)
    (SoundQueue.handle_steps labels _ start)

end Rom

end BrickEmu
