import BrickEmu.DebugPrintf

/-!
# Formats and their arguments

A format is a list of characters and conversions; what takes words from the
stack in it are the stars of the widths and precisions and all conversions
but `%%`.  Each of them has its words behind those of the one before it.

The scanner follows a format along its characters whatever the words are that
it reads.  It reads the words of the right argument everywhere if it never
has to go on behind a `%s` or a `%p`, the arms of which do not advance `fp`,
and gives a `*` to the right variable if none stands for a precision.
-/

namespace BrickEmu

/-! ## Formats -/

inductive FormatFlag where
  | minus
  | plus
  | space
  | num
  | zero

def FormatFlag.byte : FormatFlag → Byte
  | minus => 0x2d
  | plus => 0x2b
  | space => 0x20
  | num => 0x23
  | zero => 0x30

def digitByte (digit : Fin 10) : Byte :=
  BitVec.ofNat 8 (0x30 + digit)

/-- A leading 0 is a flag and not a part of the width. -/
inductive FormatWidth where
  | none
  | number (lead : Fin 10) (positive : lead ≠ 0) (digits : List (Fin 10))
  | star

def FormatWidth.text : FormatWidth → List Byte
  | none => []
  | number lead _ digits => digitByte lead :: digits.map digitByte
  | star => [0x2a]

inductive FormatPrecision where
  | none
  | number (digits : List (Fin 10))
  | star

def FormatPrecision.text : FormatPrecision → List Byte
  | none => []
  | number digits => 0x2e :: digits.map digitByte
  | star => [0x2e, 0x2a]

def DpModifier.text : DpModifier → List Byte
  | none => []
  | short => [0x68]
  | long => [0x6c]

structure FormatSpec where
  flags : List FormatFlag
  width : FormatWidth
  precision : FormatPrecision
  modifier : DpModifier
  conversion : DpConversion

inductive FormatItem where
  | char (ch : Byte) (plain : ch ≠ 0 ∧ ch ≠ 0x25)
  | conversion (spec : FormatSpec)

def FormatSpec.text (spec : FormatSpec) : List Byte :=
  0x25 :: (spec.flags.map FormatFlag.byte ++ (spec.width.text ++
    (spec.precision.text ++ (spec.modifier.text ++ [spec.conversion.byte]))))

def FormatItem.text : FormatItem → List Byte
  | char ch _ => [ch]
  | conversion spec => spec.text

def formatText (items : List FormatItem) : List Byte :=
  items.flatMap FormatItem.text

/-! ## What takes arguments -/

/-- The conversions that an `l` makes four bytes long. -/
def DpConversion.OfInteger : DpConversion → Prop
  | d | i | o | u | upperX | x => True
  | c | s | p | percent => False

instance : DecidablePred DpConversion.OfInteger := by
  intro conversion
  cases conversion <;> unfold DpConversion.OfInteger <;> infer_instance

/-- A part of a format that takes an argument. -/
inductive FormatSlot where
  | width
  | precision
  | convert (conversion : DpConversion) (modifier : DpModifier)
  deriving DecidableEq

namespace FormatSlot

/-- The bytes of its argument. -/
def size : FormatSlot → ℤ
  | width => 2
  | precision => 2
  | convert conversion modifier =>
      if conversion.OfInteger ∧ modifier = .long then 4 else 2

/-- The use of the argument at `addr`: a star sets what it stands for, and a
conversion formats its words. -/
def read (addr : ℤ) : FormatSlot → PrintfRead
  | width => .intoMin addr
  | precision => .intoMax addr
  | convert conversion modifier =>
      .convert conversion.byte
        (if conversion.OfInteger ∧ modifier = .long then [addr, addr + 2]
          else [addr])

/-- The conversions of strings and pointers. -/
def OfAddress : FormatSlot → Prop
  | convert .s _ => True
  | convert .p _ => True
  | _ => False

instance : DecidablePred OfAddress := by
  intro slot
  unfold OfAddress
  split <;> infer_instance

end FormatSlot

def FormatWidth.slots : FormatWidth → List FormatSlot
  | star => [.width]
  | _ => []

def FormatPrecision.slots : FormatPrecision → List FormatSlot
  | star => [.precision]
  | _ => []

def DpConversion.slots (modifier : DpModifier) :
    DpConversion → List FormatSlot
  | percent => []
  | conversion => [.convert conversion modifier]

def FormatItem.slots : FormatItem → List FormatSlot
  | char _ _ => []
  | conversion spec =>
      spec.width.slots ++ (spec.precision.slots ++
        spec.conversion.slots spec.modifier)

/-- What takes arguments in a format, in the order of the arguments. -/
def formatSlots (items : List FormatItem) : List FormatSlot :=
  items.flatMap FormatItem.slots

/-- Every slot with its own argument, the first of which is at `addr`. -/
def pairedReads : List FormatSlot → ℤ → List PrintfRead
  | [], _ => []
  | slot :: slots, addr =>
      slot.read addr :: pairedReads slots (addr + slot.size)

/-! ## What the arms of the scanner do instead -/

namespace FormatSlot

/-- How far `fp` advances. -/
def step (slot : FormatSlot) : ℤ :=
  if slot.OfAddress then 0 else slot.size

/-- Every star is read into `min`. -/
def made (addr : ℤ) : FormatSlot → PrintfRead
  | precision => .intoMin addr
  | slot => slot.read addr

theorem made_eq_read_iff (slot : FormatSlot) (fp addr : ℤ) :
    slot.made fp = slot.read addr ↔ fp = addr ∧ slot ≠ precision := by
  cases slot with
  | width => simp [made, read]
  | precision => simp [made, read]
  | convert conversion modifier =>
      simp only [made, read, PrintfRead.convert.injEq, true_and, ne_eq,
        reduceCtorEq, not_false_eq_true, and_true]
      split <;> simp

theorem step_eq_size_iff (slot : FormatSlot) :
    slot.step = slot.size ↔ ¬slot.OfAddress := by
  have hpos : 0 < slot.size := by
    cases slot with
    | width => simp [size]
    | precision => simp [size]
    | convert conversion modifier =>
        rw [size]
        split <;> simp
  rw [step]
  split
  · next h => exact iff_of_false (by omega) (not_not_intro h)
  · next h => exact iff_of_true rfl h

end FormatSlot

/-- The reads of the scanner. -/
def madeReads : List FormatSlot → ℤ → List PrintfRead
  | [], _ => []
  | slot :: slots, fp => slot.made fp :: madeReads slots (fp + slot.step)

theorem madeReads_append (slots slots' : List FormatSlot) :
    ∀ fp, madeReads (slots ++ slots') fp =
      madeReads slots fp ++
        madeReads slots' (fp + (slots.map FormatSlot.step).sum) := by
  induction slots with
  | nil =>
      intro fp
      simp [madeReads]
  | cons slot slots ih =>
      intro fp
      simp only [List.cons_append, madeReads, ih, List.map_cons,
        List.sum_cons, add_assoc]

/-- No star is for a precision and nothing takes an argument behind a
conversion of a string or a pointer. -/
def SlotsPaired (slots : List FormatSlot) : Prop :=
  .precision ∉ slots ∧ ∀ slot ∈ slots.dropLast, ¬slot.OfAddress

instance : DecidablePred SlotsPaired := fun _ =>
  inferInstanceAs (Decidable (_ ∧ _))

theorem slotsPaired_cons (slot : FormatSlot) (slots : List FormatSlot) :
    SlotsPaired (slot :: slots) ↔
      slot ≠ .precision ∧ (slots = [] ∨ ¬slot.OfAddress) ∧
        SlotsPaired slots := by
  cases slots with
  | nil => simp [SlotsPaired, eq_comm]
  | cons next slots =>
      rw [SlotsPaired, List.dropLast_cons_cons, List.forall_mem_cons,
        List.mem_cons, not_or, SlotsPaired, ne_comm, or_iff_right (by simp)]
      tauto

theorem madeReads_eq_iff (slots : List FormatSlot) :
    ∀ fp addr, madeReads slots fp = pairedReads slots addr ↔
      slots = [] ∨ (fp = addr ∧ SlotsPaired slots) := by
  induction slots with
  | nil =>
      intro fp addr
      simp [madeReads, pairedReads]
  | cons slot slots ih =>
      intro fp addr
      rw [madeReads, pairedReads, List.cons.injEq, slot.made_eq_read_iff, ih,
        slotsPaired_cons, ← slot.step_eq_size_iff]
      constructor
      · rintro ⟨⟨rfl, hslot⟩, hrest⟩
        refine .inr ⟨rfl, hslot, ?_⟩
        rcases hrest with rfl | ⟨hstep, hpaired⟩
        · exact ⟨.inl rfl, by simp [SlotsPaired]⟩
        · exact ⟨.inr (by omega), hpaired⟩
      · intro h
        rcases h with hnil | ⟨rfl, hslot, hlast, hpaired⟩
        · cases hnil
        · refine ⟨⟨rfl, hslot⟩, ?_⟩
          rcases hlast with hnil | hstep
          · exact .inl hnil
          · exact .inr ⟨by omega, hpaired⟩

/-! ## The scanner along a format -/

/-- Where the scanner is, apart from the values it has read. -/
structure PrintfPoint where
  state : DpState
  format : List Byte
  fp : ℤ
  cflags : DpModifier
  reads : List PrintfRead

namespace Printf

def point (s : Printf) : PrintfPoint :=
  ⟨s.state, s.format, s.fp, s.cflags, s.reads⟩

/-- The loop comes through a state at this point. -/
def Passes (s : Printf) (p : PrintfPoint) : Prop :=
  ∃ s' : Printf, s'.point = p ∧ s.scan = s'.scan

/-- The character ends what the scanner is after in a state. -/
def Ends (ch : Byte) : DpState → Prop
  | .flags => dpFlag ch = none
  | .min => ¬isdigit ch ∧ ch ≠ 0x2a
  | .dot => ch ≠ 0x2e
  | .max => ¬isdigit ch ∧ ch ≠ 0x2a
  | .mod => ch ≠ 0x68 ∧ ch ≠ 0x6c
  | _ => False

instance (ch : Byte) : DecidablePred (Ends ch) := by
  intro state
  unfold Ends
  split <;> infer_instance

/-- The state behind the part of a conversion that a state scans. -/
def after : DpState → DpState
  | .flags => .min
  | .min => .dot
  | .dot => .mod
  | .max => .mod
  | .mod => .conv
  | state => state

theorem Passes.start (s : Printf) : s.Passes s.point :=
  ⟨s, rfl, rfl⟩

variable {s : Printf} {state : DpState} {format : List Byte} {fp : ℤ}
  {cflags : DpModifier} {reads : List PrintfRead}

theorem Passes.step {p : PrintfPoint}
    (h : s.Passes ⟨state, format, fp, cflags, reads⟩)
    (hstate : state ≠ .done)
    (hstep : ∀ machine min max flags out,
      (scanStep ⟨machine, state, format, fp, min, max, flags, cflags, out,
        reads⟩).point = p) :
    s.Passes p := by
  obtain ⟨s', hpoint, hscan⟩ := h
  obtain ⟨machine, _, _, _, min, max, flags, _, out, _⟩ := s'
  cases hpoint
  refine ⟨_, hstep machine min max flags out, ?_⟩
  rw [hscan, scan, if_neg hstate]

/-- At the end of the format the loop is left. -/
theorem Passes.finish (h : s.Passes ⟨.default, [], fp, cflags, reads⟩) :
    s.scan.reads = reads := by
  have hdone : s.Passes ⟨.done, [], fp, cflags, reads⟩ :=
    h.step (by simp) fun _ _ _ _ _ => rfl
  obtain ⟨s', hpoint, hscan⟩ := hdone
  have hstate : s'.state = .done := congrArg PrintfPoint.state hpoint
  rw [hscan, scan, if_pos hstate]
  exact congrArg PrintfPoint.reads hpoint

/-- The step to the next part of a conversion takes no character. -/
theorem Passes.skip (h : s.Passes ⟨state, format, fp, cflags, reads⟩)
    (hch : format.headD 0 ≠ 0) (hends : Ends (format.headD 0) state) :
    s.Passes ⟨after state, format, fp, cflags, reads⟩ := by
  have hstate : state ≠ .done := by
    rintro rfl
    exact hends
  refine h.step hstate fun machine min max flags out => ?_
  cases state with
  | flags =>
      have hflag : dpFlag (format.headD 0) = none := hends
      simp only [scanStep, if_neg hch, hflag]
      rfl
  | min =>
      simp only [scanStep, if_neg hch, if_neg hends.1, if_neg hends.2]
      rfl
  | dot =>
      have hdot : format.headD 0 ≠ 0x2e := hends
      simp only [scanStep, if_neg hch, if_neg hdot]
      rfl
  | max =>
      simp only [scanStep, if_neg hch, if_neg hends.1, if_neg hends.2]
      rfl
  | mod =>
      simp only [scanStep, if_neg hch, if_neg hends.1, if_neg hends.2]
      rfl
  | default => exact hends.elim
  | conv => exact hends.elim
  | done => exact hends.elim

theorem Passes.char {ch : Byte} (hplain : ch ≠ 0 ∧ ch ≠ 0x25)
    (h : s.Passes ⟨.default, ch :: format, fp, cflags, reads⟩) :
    s.Passes ⟨.default, format, fp, cflags, reads⟩ := by
  have hnul : (ch :: format).headD 0 ≠ 0 := hplain.1
  have hpercent : (ch :: format).headD 0 ≠ 0x25 := hplain.2
  refine h.step (by simp) fun machine min max flags out => ?_
  simp only [scanStep, if_neg hnul, if_neg hpercent]
  rfl

theorem Passes.percent
    (h : s.Passes ⟨.default, 0x25 :: format, fp, cflags, reads⟩) :
    s.Passes ⟨.flags, format, fp, cflags, reads⟩ :=
  h.step (by simp) fun _ _ _ _ _ => rfl

theorem Passes.flags (flags : List FormatFlag)
    (h : s.Passes ⟨.flags, flags.map FormatFlag.byte ++ format, fp, cflags,
      reads⟩) :
    s.Passes ⟨.flags, format, fp, cflags, reads⟩ := by
  induction flags with
  | nil => exact h
  | cons flag flags ih =>
      apply ih
      refine h.step (by simp) fun machine min max flags out => ?_
      cases flag <;> rfl

theorem digitByte_facts (digit : Fin 10) :
    digitByte digit ≠ 0 ∧ isdigit (digitByte digit) ∧
      (digit ≠ 0 → dpFlag (digitByte digit) = none) := by
  revert digit
  decide

/-- In both states for numbers the scanner takes the digits. -/
theorem Passes.digits (hstate : state = .min ∨ state = .max)
    (digits : List (Fin 10))
    (h : s.Passes ⟨state, digits.map digitByte ++ format, fp, cflags,
      reads⟩) :
    s.Passes ⟨state, format, fp, cflags, reads⟩ := by
  induction digits with
  | nil => exact h
  | cons digit digits ih =>
      obtain ⟨hzero, hdigit, -⟩ := digitByte_facts digit
      have hnul : ((digit :: digits).map digitByte ++ format).headD 0 ≠ 0 :=
        hzero
      have hmore : isdigit
          (((digit :: digits).map digitByte ++ format).headD 0) := hdigit
      apply ih
      rcases hstate with rfl | rfl
      · refine h.step (by simp) fun machine min max flags out => ?_
        simp only [scanStep, if_neg hnul, if_pos hmore]
        rfl
      · refine h.step (by simp) fun machine min max flags out => ?_
        simp only [scanStep, if_neg hnul, if_pos hmore]
        rfl

/-- What the slots of a part of the format make of a point. -/
def pointAfter (state : DpState) (format : List Byte) (fp : ℤ)
    (cflags : DpModifier) (reads : List PrintfRead)
    (slots : List FormatSlot) : PrintfPoint :=
  ⟨state, format, fp + (slots.map FormatSlot.step).sum, cflags,
    reads ++ madeReads slots fp⟩

theorem pointAfter_nil : pointAfter state format fp cflags reads [] =
    ⟨state, format, fp, cflags, reads⟩ := by
  simp [pointAfter, madeReads]

theorem Passes.width (width : FormatWidth)
    (h : s.Passes ⟨.min, width.text ++ format, fp, cflags, reads⟩)
    (hch : format.headD 0 ≠ 0) (hends : Ends (format.headD 0) .min) :
    s.Passes (pointAfter .dot format fp cflags reads width.slots) := by
  cases width with
  | none =>
      have hskip := h.skip hch hends
      rwa [FormatWidth.slots.eq_def, pointAfter_nil]
  | number lead positive digits =>
      have hskip := (Passes.digits (.inl rfl) (lead :: digits) h).skip hch hends
      rwa [FormatWidth.slots.eq_def, pointAfter_nil]
  | star => exact h.step (by simp) fun machine min max flags out => rfl

theorem Passes.precision (precision : FormatPrecision)
    (h : s.Passes ⟨.dot, precision.text ++ format, fp, cflags, reads⟩)
    (hch : format.headD 0 ≠ 0) (hdot : Ends (format.headD 0) .dot)
    (hmax : Ends (format.headD 0) .max) :
    s.Passes (pointAfter .mod format fp cflags reads precision.slots) := by
  cases precision with
  | none =>
      have hskip := h.skip hch hdot
      rwa [FormatPrecision.slots.eq_def, pointAfter_nil]
  | number digits =>
      have hpoint : s.Passes
          ⟨.max, digits.map digitByte ++ format, fp, cflags, reads⟩ :=
        h.step (by simp) fun _ _ _ _ _ => rfl
      have hskip := (Passes.digits (.inr rfl) digits hpoint).skip hch hmax
      rwa [FormatPrecision.slots.eq_def, pointAfter_nil]
  | star =>
      have hpoint : s.Passes ⟨.max, 0x2a :: format, fp, cflags, reads⟩ :=
        h.step (by simp) fun _ _ _ _ _ => rfl
      exact hpoint.step (by simp) fun _ _ _ _ _ => rfl

theorem Passes.modifier (modifier : DpModifier)
    (h : s.Passes ⟨.mod, modifier.text ++ format, fp, .none, reads⟩)
    (hch : format.headD 0 ≠ 0) (hends : Ends (format.headD 0) .mod) :
    s.Passes ⟨.conv, format, fp, modifier, reads⟩ := by
  cases modifier with
  | none => exact h.skip hch hends
  | short => exact h.step (by simp) fun _ _ _ _ _ => rfl
  | long => exact h.step (by simp) fun _ _ _ _ _ => rfl

/-- One arm of the conversions: what it does with `fp` is the step of its
slot. -/
theorem convert_point (conversion : DpConversion) (s : Printf) :
    (s.convert conversion.byte).fp =
        s.fp + ((conversion.slots s.cflags).map FormatSlot.step).sum ∧
      (s.convert conversion.byte).reads =
        s.reads ++ madeReads (conversion.slots s.cflags) s.fp := by
  obtain ⟨machine, state, format, fp, min, max, flags, cflags, out, reads⟩ :=
    s
  cases conversion with
  | percent => exact ⟨(add_zero fp).symm, (List.append_nil reads).symm⟩
  | s => exact ⟨(add_zero fp).symm, rfl⟩
  | p => exact ⟨(add_zero fp).symm, rfl⟩
  | c => exact ⟨rfl, rfl⟩
  | d => cases cflags <;> exact ⟨rfl, rfl⟩
  | i => cases cflags <;> exact ⟨rfl, rfl⟩
  | o => cases cflags <;> exact ⟨rfl, rfl⟩
  | u => cases cflags <;> exact ⟨rfl, rfl⟩
  | upperX => cases cflags <;> exact ⟨rfl, rfl⟩
  | x => cases cflags <;> exact ⟨rfl, rfl⟩

theorem Passes.conversion (conversion : DpConversion)
    (h : s.Passes ⟨.conv, conversion.byte :: format, fp, cflags, reads⟩) :
    s.Passes (pointAfter .default format fp .none reads
      (conversion.slots cflags)) := by
  have hnul : (conversion.byte :: format).headD 0 ≠ 0 := by
    cases conversion <;> simp [DpConversion.byte]
  refine h.step (by simp) fun machine min max flags out => ?_
  have hpoint := convert_point conversion ⟨machine, .conv,
    conversion.byte :: format, fp, min, max, flags, cflags, out, reads⟩
  have hformat := convert_format conversion.byte ⟨machine, .conv,
    conversion.byte :: format, fp, min, max, flags, cflags, out, reads⟩
  simp only [scanStep, if_neg hnul]
  simp only [point, next, pointAfter, List.headD_cons, hpoint, hformat,
    List.tail_cons]

theorem headD_modifier (modifier : DpModifier) (conversion : DpConversion)
    (format : List Byte) :
    (modifier.text ++ conversion.byte :: format).headD 0 ≠ 0 ∧
      ∀ state ∈ [DpState.flags, .min, .dot, .max],
        Ends ((modifier.text ++ conversion.byte :: format).headD 0) state := by
  cases modifier <;> cases conversion <;>
    simp [DpModifier.text, DpConversion.byte, Ends, isdigit, dpFlag]

theorem headD_precision (precision : FormatPrecision)
    (modifier : DpModifier) (conversion : DpConversion)
    (format : List Byte) :
    let text := precision.text ++ (modifier.text ++ conversion.byte :: format)
    text.headD 0 ≠ 0 ∧ ∀ state ∈ [DpState.flags, .min],
      Ends (text.headD 0) state := by
  cases precision with
  | none =>
      obtain ⟨hnul, hends⟩ := headD_modifier modifier conversion format
      refine ⟨hnul, fun state hmem => hends state ?_⟩
      simp only [List.mem_cons, List.not_mem_nil, or_false] at hmem ⊢
      tauto
  | number digits =>
      simp [FormatPrecision.text, Ends, isdigit, dpFlag]
  | star => simp [FormatPrecision.text, Ends, isdigit, dpFlag]

theorem headD_width (spec : FormatSpec) (format : List Byte) :
    let text := spec.width.text ++ (spec.precision.text ++
      (spec.modifier.text ++ spec.conversion.byte :: format))
    text.headD 0 ≠ 0 ∧ Ends (text.headD 0) .flags := by
  cases h : spec.width with
  | none =>
      obtain ⟨hnul, hends⟩ := headD_precision spec.precision spec.modifier
        spec.conversion format
      exact ⟨hnul, hends .flags (by simp)⟩
  | number lead positive digits =>
      obtain ⟨hzero, -, hflag⟩ := digitByte_facts lead
      exact ⟨hzero, hflag positive⟩
  | star => simp [FormatWidth.text, Ends, dpFlag]

theorem Passes.item (item : FormatItem)
    (h : s.Passes ⟨.default, item.text ++ format, fp, .none, reads⟩) :
    s.Passes (pointAfter .default format fp .none reads item.slots) := by
  cases item with
  | char ch plain =>
      have hchar := Passes.char plain h
      rwa [FormatItem.slots, pointAfter_nil]
  | conversion spec =>
      have htext : (FormatItem.conversion spec).text ++ format =
          0x25 :: (spec.flags.map FormatFlag.byte ++ (spec.width.text ++
            (spec.precision.text ++ (spec.modifier.text ++
              spec.conversion.byte :: format)))) := by
        simp [FormatItem.text, FormatSpec.text]
      rw [htext] at h
      obtain ⟨hwidth, hwidthFlags⟩ := headD_width spec format
      obtain ⟨hprecision, hprecisionEnds⟩ := headD_precision spec.precision
        spec.modifier spec.conversion format
      obtain ⟨hmodifier, hmodifierEnds⟩ := headD_modifier spec.modifier
        spec.conversion format
      have hflags := (Passes.flags spec.flags h.percent).skip hwidth
        hwidthFlags
      have hdot := Passes.width spec.width hflags hprecision
        (hprecisionEnds .min (by simp))
      have hmod := Passes.precision spec.precision hdot hmodifier
        (hmodifierEnds .dot (by simp)) (hmodifierEnds .max (by simp))
      have hconv := Passes.modifier spec.modifier hmod
        (by cases spec.conversion <;> simp [DpConversion.byte])
        (by cases spec.conversion <;> simp [DpConversion.byte, Ends])
      have hdefault := Passes.conversion spec.conversion hconv
      simp only [pointAfter, FormatItem.slots, madeReads_append,
        List.map_append, List.sum_append, add_assoc, List.append_assoc]
        at hdefault ⊢
      exact hdefault

theorem Passes.items (items : List FormatItem) :
    ∀ {fp reads}, s.Passes ⟨.default, formatText items ++ format, fp, .none,
      reads⟩ →
    s.Passes (pointAfter .default format fp .none reads
      (formatSlots items)) := by
  induction items with
  | nil =>
      intro fp reads h
      rwa [formatSlots, List.flatMap_nil, pointAfter_nil]
  | cons item items ih =>
      intro fp reads h
      rw [formatText, List.flatMap_cons, List.append_assoc] at h
      have hrest := ih (Passes.item item h)
      simp only [pointAfter, formatSlots, List.flatMap_cons,
        madeReads_append, List.map_append, List.sum_append, add_assoc,
        List.append_assoc] at hrest ⊢
      exact hrest

end Printf

/-! ## `debug_printf` -/

/-- The text of the format that the program has given. -/
def formatOf (m : Machine) : List Byte :=
  (Printf.init m).format

/-- The address of the first argument, behind the return address and the
address of the format. -/
def firstArgument (m : Machine) : ℤ :=
  (m.reg16 7).toNat + 4

theorem debugPrintf_reads (m : Machine) (items : List FormatItem)
    (hformat : formatOf m = formatText items) :
    (debugPrintf m).reads =
      madeReads (formatSlots items) (firstArgument m) := by
  have hpoint : (Printf.init m).point =
      ⟨.default, formatText items ++ [], firstArgument m, .none, []⟩ := by
    have hfp : (Printf.init m).fp = firstArgument m := by
      change ((m.reg16 7).toNat + 2 + 2 : ℤ) = (m.reg16 7).toNat + 4
      omega
    rw [← hformat, ← hfp, List.append_nil]
    rfl
  have hstart := Printf.Passes.start (Printf.init m)
  rw [hpoint] at hstart
  exact (Printf.Passes.items items hstart).finish

/-- For every format and every stack: each part of the format that takes an
argument uses its own, and each star sets what it stands for, exactly if no
star stands for a precision and nothing that takes an argument follows a
`%s` or a `%p`. -/
theorem pairsArguments_iff (m : Machine) (items : List FormatItem)
    (hformat : formatOf m = formatText items) :
    (debugPrintf m).reads =
        pairedReads (formatSlots items) (firstArgument m) ↔
      SlotsPaired (formatSlots items) := by
  rw [debugPrintf_reads m items hformat, madeReads_eq_iff]
  constructor
  · intro h
    rcases h with hnil | ⟨-, hpaired⟩
    · rw [hnil]
      simp [SlotsPaired]
    · exact hpaired
  · exact fun hpaired => .inr ⟨rfl, hpaired⟩

theorem memoryText_eq {memory : ℕ → Byte} (text : List Byte)
    (htext : 0 ∉ text) :
    ∀ {count addr}, text.length < count →
      (∀ i ≤ text.length, memory (addr + i) = text.getD i 0) →
      memoryText memory count addr = text := by
  induction text with
  | nil =>
      intro count addr hcount hmemory
      obtain ⟨count, rfl⟩ := Nat.exists_eq_add_of_lt hcount
      have hnul : memory addr = 0 := hmemory 0 (le_refl _)
      simp only [List.length_nil, zero_add, memoryText, if_pos hnul]
  | cons ch text ih =>
      intro count addr hcount hmemory
      rw [List.mem_cons, not_or] at htext
      obtain ⟨count, rfl⟩ : ∃ count', count = count' + 1 :=
        ⟨count - 1, by omega⟩
      have hch : memory addr = ch := hmemory 0 (by simp)
      have hrest : memoryText memory count (addr + 1) = text := by
        refine ih htext.2 ?_ ?_
        · simpa using hcount
        · intro i hi
          rw [add_assoc, add_comm 1 i]
          exact hmemory (i + 1) (by simpa using hi)
      rw [memoryText, hch, if_neg (Ne.symm htext.1), hrest]

/-- A program with a text at 0x8000 as the format, the address of which is on
the stack at 0x9000. -/
def printing (format : List Byte) : Machine :=
  { Machine.powerOn (fun _ => none) [] [] [] with
    memory := fun addr =>
      if addr = 0x9002 then 0x80
      else if addr < 0x8000 then 0
      else format.getD (addr - 0x8000) 0
    reg := fun nr => if nr = 7 then 0x90 else 0 }

theorem formatOf_printing (format : List Byte) (htext : 0 ∉ format)
    (hshort : format.length < 0x1000) :
    formatOf (printing format) = format := by
  have hword : (printing format).getWord 0x9002 =
      (0x8000, printing format) := by
    have htype : (printing format).memtype = Machine.memInit := rfl
    have hplain : (printing format).isDiv 0x9002 = false := by
      rw [Machine.isDiv, htype]
      decide
    have hlow : (printing format).memory 0x9003 = 0 := by
      simp [printing, List.getElem?_eq_none (by omega : format.length ≤ 0x1003)]
    have hpeek : (printing format).peekWord 0x9002 = 0x8000 := by
      have hhigh : (printing format).memory 0x9002 = 0x80 := by
        simp [printing]
      rw [Machine.peekWord, hhigh, hlow]
      decide
    simp [Machine.getWord, hplain, hpeek]
  have hinit : formatOf (printing format) =
      memoryText (printing format).memory 0x8000 0x8000 := by
    have hreg : (printing format).reg16 7 = 0x9000 := by
      have hregs : (printing format).reg =
          fun nr => if nr = 7 then 0x90 else 0 := rfl
      rw [Machine.reg16, hregs]
      decide
    have haddr : BitVec.ofInt 16 (((printing format).reg16 7).toNat + 2) =
        (0x9002 : Word) := by
      rw [hreg]
      decide
    simp only [formatOf, Printf.init, haddr, hword]
    rfl
  rw [hinit]
  refine memoryText_eq format htext (by omega) fun i hi => ?_
  have hother : 0x8000 + i ≠ 0x9002 := by omega
  have hhigh : ¬0x8000 + i < 0x8000 := by omega
  simp only [printing, if_neg hother, if_neg hhigh, Nat.add_sub_cancel_left]

/-- `%ld%s` -/
def longThenString : List FormatItem :=
  [.conversion ⟨[], .none, .none, .long, .d⟩,
    .conversion ⟨[], .none, .none, .none, .s⟩]

theorem pairsArguments_longThenString :
    (debugPrintf (printing (formatText longThenString))).reads =
      pairedReads (formatSlots longThenString) 0x9004 :=
  (pairsArguments_iff (printing (formatText longThenString)) longThenString
    (formatOf_printing _ (by decide) (by decide))).mpr (by decide)

/-- `%s%d` -/
def stringThenInt : List FormatItem :=
  [.conversion ⟨[], .none, .none, .none, .s⟩,
    .conversion ⟨[], .none, .none, .none, .d⟩]

/-- `%.*d` -/
def starPrecision : List FormatItem :=
  [.conversion ⟨[], .none, .star, .none, .d⟩]

/-- In `%s%d` the number is read from the word of the string, and in `%.*d`
the star sets the width. -/
theorem pairsArguments_fails :
    (debugPrintf (printing (formatText stringThenInt))).reads ≠
        pairedReads (formatSlots stringThenInt) 0x9004 ∧
      (debugPrintf (printing (formatText starPrecision))).reads ≠
        pairedReads (formatSlots starPrecision) 0x9004 := by
  constructor
  · rw [debugPrintf_reads _ _ (formatOf_printing _ (by decide) (by decide))]
    decide
  · rw [debugPrintf_reads _ _ (formatOf_printing _ (by decide) (by decide))]
    decide

end BrickEmu
