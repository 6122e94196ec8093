import BrickEmu.Debugger
import Mathlib.Data.BitVec

/-!
# The buffer of the packet parser as a list

What a pass of `db_parse_packet` does, in terms of the list of bytes that the
buffer holds.  A pass skips bytes up to a `$`; then it stops, fails, or takes
a packet from the front and overwrites the byte behind it.
-/

namespace BrickEmu

namespace DbState

/-- The pending bytes of the buffer. -/
structure Holds (s : DbState) (content : List Byte) : Prop where
  len_eq : s.len = content.length
  byte_eq : ∀ j < content.length, s.inBuffer j = content.getD j 0

theorem Holds.mid {s : DbState} {before after : List Byte} {b : Byte}
    (h : s.Holds (before ++ b :: after)) : s.inBuffer before.length = b := by
  rw [h.byte_eq before.length (by simp)]
  simp

theorem Holds.log {s : DbState} {content : List Byte} (h : s.Holds content)
    (event : DbEvent) : (s.log event).Holds content :=
  ⟨h.len_eq, h.byte_eq⟩

theorem Holds.lt_len {s : DbState} {before after : List Byte} {b : Byte}
    (h : s.Holds (before ++ b :: after)) : before.length < s.len := by
  rw [h.len_eq, List.length_append, List.length_cons]
  omega

end DbState

/-- The events of bytes that are skipped. -/
def interruptsIn (garbage : List Byte) : List DbEvent :=
  (garbage.filter (· = CTRLC)).map fun _ => .interrupt

namespace DbState

/-- The state after events have been logged. -/
def logAll (events : List DbEvent) (s : DbState) : DbState :=
  { s with events := s.events ++ events }

theorem Holds.logAll {s : DbState} {content : List Byte}
    (h : s.Holds content) (events : List DbEvent) :
    (s.logAll events).Holds content :=
  ⟨h.len_eq, h.byte_eq⟩

theorem skipGarbage_eq {garbage rest : List Byte}
    (hgarbage : DOLLAR ∉ garbage) (hrest : rest.head? = some DOLLAR ∨ rest = []) :
    ∀ {s : DbState} {before : List Byte} {fuel : ℕ},
      s.Holds (before ++ (garbage ++ rest)) → garbage.length ≤ fuel →
      s.skipGarbage fuel before.length =
        (before.length + garbage.length, s.logAll (interruptsIn garbage)) := by
  induction garbage with
  | nil =>
      intro s before fuel h hfuel
      have hlog : s.logAll (interruptsIn []) = s := by
        simp [logAll, interruptsIn]
      rw [hlog]
      cases fuel with
      | zero => rfl
      | succ fuel =>
          unfold skipGarbage
          rw [if_neg]
          · rfl
          rintro ⟨hlt, hne⟩
          rcases hrest with hhead | rfl
          · obtain ⟨tail, rfl⟩ := List.head?_eq_some_iff.mp hhead
            exact hne h.mid
          · rw [h.len_eq] at hlt
            simp at hlt
  | cons b garbage ih =>
      intro s before fuel h hfuel
      rw [List.mem_cons, not_or] at hgarbage
      obtain ⟨fuel, rfl⟩ : ∃ k, fuel = k + 1 :=
        ⟨fuel - 1, by simp at hfuel; omega⟩
      rw [List.length_cons] at hfuel
      have hb : s.inBuffer before.length = b := h.mid
      have hnext : s.Holds ((before ++ [b]) ++ (garbage ++ rest)) := by
        simpa using h
      unfold skipGarbage
      rw [if_pos ⟨h.lt_len, by rw [hb]; exact Ne.symm hgarbage.1⟩, hb]
      by_cases hctrl : b = CTRLC
      · rw [if_pos hctrl]
        have := ih hgarbage.2 (hnext.log .interrupt) (by omega : _ ≤ fuel)
        rw [List.length_append, List.length_singleton] at this
        rw [this]
        refine Prod.ext (by simp; omega) ?_
        simp [logAll, log, interruptsIn, hctrl]
      · rw [if_neg hctrl]
        have := ih hgarbage.2 hnext (by omega : _ ≤ fuel)
        rw [List.length_append, List.length_singleton] at this
        rw [this]
        refine Prod.ext (by simp; omega) ?_
        simp [interruptsIn, hctrl]

theorem scanPacket_eq {data rest : List Byte} (hdata : HASH ∉ data) :
    ∀ {s : DbState} {before : List Byte} {fuel : ℕ} {checksum : Byte},
      s.Holds (before ++ (data ++ rest)) → data.length < fuel →
      2 ≤ rest.length → (rest.head? = some HASH ∨ rest.length = 2) →
      s.scanPacket fuel before.length checksum =
        (before.length + data.length, checksum + data.sum) := by
  induction data with
  | nil =>
      intro s before fuel checksum h hfuel htwo hrest
      obtain ⟨fuel, rfl⟩ : ∃ k, fuel = k + 1 := ⟨fuel - 1, by omega⟩
      unfold scanPacket
      rw [if_neg]
      · simp
      rintro ⟨hlt, hne⟩
      rcases hrest with hhead | hlen
      · obtain ⟨tail, rfl⟩ := List.head?_eq_some_iff.mp hhead
        exact hne h.mid
      · rw [h.len_eq] at hlt
        simp [hlen] at hlt
  | cons b data ih =>
      intro s before fuel checksum h hfuel htwo hrest
      rw [List.mem_cons, not_or] at hdata
      rw [List.length_cons] at hfuel
      obtain ⟨fuel, rfl⟩ : ∃ k, fuel = k + 1 := ⟨fuel - 1, by omega⟩
      have hb : s.inBuffer before.length = b := h.mid
      have hnext : s.Holds ((before ++ [b]) ++ (data ++ rest)) := by
        simpa using h
      have hlen := h.len_eq
      simp only [List.length_append, List.length_cons] at hlen
      unfold scanPacket
      rw [if_pos ⟨by omega, by rw [hb]; exact Ne.symm hdata.1⟩, hb]
      have hscan : s.scanPacket fuel (before ++ [b]).length (checksum + b) =
          _ := ih hdata.2 hnext (by omega) htwo hrest
      rw [List.length_append, List.length_singleton] at hscan
      rw [hscan]
      refine Prod.ext (by simp; omega) ?_
      simp [BitVec.add_assoc]

theorem Holds.suffix {s : DbState} {before after : List Byte}
    (h : s.Holds (before ++ after)) {j : ℕ} (hj : j < after.length) :
    s.inBuffer (before.length + j) = after.getD j 0 := by
  rw [h.byte_eq _ (by simp; omega)]
  simp [List.getElem?_append_right]

theorem shift_eq {s : DbState} {before after : List Byte}
    (h : s.Holds (before ++ after)) :
    ∃ s', s.shift before.length = .ok s' ∧ s'.Holds after ∧
      s'.events = s.events := by
  have hlen := h.len_eq
  rw [List.length_append] at hlen
  unfold shift
  rw [if_neg (by omega)]
  refine ⟨_, rfl, ⟨?_, ?_⟩, rfl⟩
  · change s.len - before.length = after.length
    omega
  · intro j hj
    change (if j < s.len - before.length then _ else _) = _
    rw [if_pos (by omega), h.suffix hj]

/-- What is logged for a packet with the given data: nothing, when its
checksum is wrong. -/
def packetEvents (data : List Byte) (high low : Byte) : List DbEvent :=
  if data.sum.setWidth 32 = (hex high <<< 4) ||| hex low then
    [.packet (if data.getD 2 0 = COLON then data.drop 3 else data)]
  else []

theorem bytes_eq {s : DbState} {before data after : List Byte}
    (h : s.Holds (before ++ (data ++ after))) :
    s.bytes before.length (before.length + data.length) = data := by
  unfold bytes
  apply List.ext_getElem
  · simp
  · intro j hj hj'
    rw [List.getElem_map, List.getElem_range', h.byte_eq _ (by simp; omega)]
    simp [List.getElem?_append_right, List.getElem?_append_left hj',
      List.getElem?_eq_getElem hj']

theorem bytes_congr {s s' : DbState} {start stop : ℕ}
    (h : ∀ j, start ≤ j → j < stop → s'.inBuffer j = s.inBuffer j) :
    s'.bytes start stop = s.bytes start stop := by
  refine List.map_congr_left fun j hj => ?_
  rw [List.mem_range'_1] at hj
  exact h j hj.1 (by omega)

/-- The digits of a correct checksum are digits. -/
theorem digit_ne {x high low ch : Byte} (hch : hex ch = -1)
    (h : x.setWidth 32 = (hex high <<< 4) ||| hex low) :
    high ≠ ch ∧ low ≠ ch := by
  have hbit : (x.setWidth 32).getLsbD 31 = false := by simp
  rw [h, BitVec.getLsbD_or] at hbit
  constructor
  · rintro rfl
    have : (hex high <<< 4).getLsbD 31 = true := by
      rw [hch]
      decide
    rw [this] at hbit
    cases hbit
  · rintro rfl
    have : (hex low).getLsbD 31 = true := by
      rw [hch]
      decide
    rw [this, Bool.or_true] at hbit
    cases hbit

@[simp] theorem store_len (s : DbState) (i : ℕ) (val : Byte) :
    (s.store i val).len = s.len :=
  rfl

@[simp] theorem reply_len (s : DbState) (bytes : List Byte) :
    (s.reply bytes).len = s.len :=
  rfl

@[simp] theorem log_len (s : DbState) (event : DbEvent) :
    (s.log event).len = s.len :=
  rfl

@[simp] theorem store_events (s : DbState) (i : ℕ) (val : Byte) :
    (s.store i val).events = s.events :=
  rfl

@[simp] theorem reply_events (s : DbState) (bytes : List Byte) :
    (s.reply bytes).events = s.events :=
  rfl

@[simp] theorem log_events (s : DbState) (event : DbEvent) :
    (s.log event).events = s.events ++ [event] :=
  rfl

@[simp] theorem reply_inBuffer (s : DbState) (bytes : List Byte) :
    (s.reply bytes).inBuffer = s.inBuffer :=
  rfl

@[simp] theorem log_inBuffer (s : DbState) (event : DbEvent) :
    (s.log event).inBuffer = s.inBuffer :=
  rfl

@[simp] theorem store_inBuffer (s : DbState) (i : ℕ) (val : Byte) :
    (s.store i val).inBuffer = Function.update s.inBuffer i val :=
  rfl

theorem Holds.high {s : DbState} {data rest : List Byte} {high low : Byte}
    (h : s.Holds (DOLLAR :: (data ++ HASH :: high :: low :: rest))) :
    s.inBuffer (data.length + 2) = high := by
  have h' : s.Holds ((DOLLAR :: data ++ [HASH]) ++ high :: low :: rest) := by
    simpa using h
  simpa using h'.mid

theorem Holds.low {s : DbState} {data rest : List Byte} {high low : Byte}
    (h : s.Holds (DOLLAR :: (data ++ HASH :: high :: low :: rest))) :
    s.inBuffer (data.length + 3) = low := by
  have h' : s.Holds ((DOLLAR :: data ++ [HASH, high]) ++ low :: rest) := by
    simpa using h
  simpa using h'.mid

/-- The third byte of the data tells whether a sequence id is present. -/
theorem Holds.third {s : DbState} {data rest : List Byte} {high low : Byte}
    (h : s.Holds (DOLLAR :: (data ++ HASH :: high :: low :: rest)))
    (hsum : data.sum.setWidth 32 = (hex high <<< 4) ||| hex low) :
    Function.update s.inBuffer (data.length + 1) 0 3 = COLON ↔
      data.getD 2 0 = COLON := by
  obtain ⟨hhigh, hlow⟩ := digit_ne (by decide : hex COLON = -1) hsum
  match data with
  | [] =>
      refine iff_of_false ?_ (by decide)
      have := h.low
      simp only [List.length_nil] at this
      simpa [this] using hlow
  | [a] =>
      refine iff_of_false ?_ (by simp [COLON])
      have := h.high
      simp only [List.length_singleton] at this
      simpa [this] using hhigh
  | [a, b] => exact iff_of_false (by simp [COLON]) (by simp [COLON])
  | a :: b :: c :: data =>
      have h' : s.Holds ([DOLLAR, a, b] ++
          c :: (data ++ HASH :: high :: low :: rest)) := by
        simpa using h
      have hc : s.inBuffer 3 = c := h'.mid
      simp [hc]

/-- What the parser overwrites in a packet stays clear of its data. -/
theorem bytes_packet {s s' : DbState} {data rest : List Byte}
    {high low : Byte} {n : ℕ}
    (h : s.Holds (DOLLAR :: (data ++ HASH :: high :: low :: rest)))
    (hn : n ≤ data.length)
    (hsame : ∀ j, n + 1 ≤ j → j < data.length + 1 →
      s'.inBuffer j = s.inBuffer j) :
    s'.bytes (n + 1) (data.length + 1) = data.drop n := by
  rw [bytes_congr hsame]
  have h' : s.Holds ((DOLLAR :: data.take n) ++
      (data.drop n ++ HASH :: high :: low :: rest)) := by
    rw [List.cons_append, ← List.append_assoc, List.take_append_drop]
    exact h
  have hbytes := bytes_eq h'
  rw [List.length_cons, List.length_take, List.length_drop,
    min_eq_left hn] at hbytes
  rwa [show n + 1 + (data.length - n) = data.length + 1 by omega] at hbytes

/-- A packet is answered; its place in the buffer may be overwritten, and so
is the byte behind it. -/
theorem acceptPacket_eq {s : DbState} {data rest : List Byte}
    {high low : Byte}
    (h : s.Holds (DOLLAR :: (data ++ HASH :: high :: low :: rest))) :
    (s.acceptPacket (data.length + 1) data.sum).len = s.len ∧
      (s.acceptPacket (data.length + 1) data.sum).events =
        s.events ++ packetEvents data high low ∧
      (s.acceptPacket (data.length + 1) data.sum).inBuffer
        (data.length + 4) = 0 ∧
      ∀ j, data.length + 4 < j →
        (s.acceptPacket (data.length + 1) data.sum).inBuffer j =
          s.inBuffer j := by
  have hhigh : (s.store (data.length + 1 + 3) 0).inBuffer
      (data.length + 1 + 1) = high := by
    rw [store_inBuffer, Function.update_of_ne (by omega)]
    exact h.high
  have hlow : (s.store (data.length + 1 + 3) 0).inBuffer
      (data.length + 1 + 2) = low := by
    rw [store_inBuffer, Function.update_of_ne (by omega)]
    exact h.low
  simp only [acceptPacket, hhigh, hlow]
  by_cases hsum : data.sum.setWidth 32 = (hex high <<< 4) ||| hex low
  · have hthird : ((s.store (data.length + 1 + 3) 0).reply [PLUS]
        |>.store (data.length + 1) 0).inBuffer 3 = COLON ↔
          data.getD 2 0 = COLON := by
      rw [← h.third hsum]
      simp only [store_inBuffer, reply_inBuffer]
      rw [Function.update_comm (by omega),
        Function.update_of_ne (by omega)]
    rw [if_neg (not_not.mpr hsum), packetEvents, if_pos hsum]
    by_cases hseq : data.getD 2 0 = COLON
    · have hthree : 3 ≤ data.length := by
        by_contra hlt
        have hnone : data[2]? = none := List.getElem?_eq_none (by omega)
        simp [hnone, COLON] at hseq
      rw [if_pos (hthird.mpr hseq), if_pos hseq]
      refine ⟨rfl, ?_, ?_, fun j hj => ?_⟩
      · rw [log_events, bytes_packet h hthree]
        · rfl
        intro j hlow hhigh
        simp only [store_inBuffer, reply_inBuffer]
        rw [Function.update_of_ne (by omega),
          Function.update_of_ne (by omega), Function.update_of_ne (by omega)]
      · simp
      · simp only [log_inBuffer, store_inBuffer, reply_inBuffer]
        rw [Function.update_of_ne (by omega),
          Function.update_of_ne (by omega), Function.update_of_ne (by omega)]
    · rw [if_neg (mt hthird.mp hseq), if_neg hseq]
      refine ⟨rfl, ?_, ?_, fun j hj => ?_⟩
      · refine congrArg (fun d => s.events ++ [DbEvent.packet d])
          (bytes_packet (n := 0) h (Nat.zero_le _) fun j hlow hhigh => ?_)
        simp only [store_inBuffer, reply_inBuffer]
        rw [Function.update_of_ne (by omega),
          Function.update_of_ne (by omega)]
      · simp
      · simp only [log_inBuffer, store_inBuffer, reply_inBuffer]
        rw [Function.update_of_ne (by omega),
          Function.update_of_ne (by omega)]
  · rw [if_pos hsum, packetEvents, if_neg hsum]
    refine ⟨rfl, by simp, by simp, fun j hj => ?_⟩
    simp only [reply_inBuffer, store_inBuffer]
    rw [Function.update_of_ne (by omega)]

end DbState

open DbState

/-- The rest of the buffer behind a packet, with its first byte overwritten. -/
def clobber : List Byte → List Byte
  | [] => []
  | _ :: rest => 0 :: rest

theorem Holds_shift_accept {s : DbState} {data rest : List Byte}
    {high low : Byte}
    (h : s.Holds (DOLLAR :: (data ++ HASH :: high :: low :: rest))) :
    ∃ s', (s.acceptPacket (data.length + 1) data.sum).shift
        (data.length + 1 + 3) = .ok s' ∧
      s'.Holds (clobber rest) ∧
      s'.events = s.events ++ packetEvents data high low := by
  obtain ⟨hlen, hevents, hzero, hsame⟩ := acceptPacket_eq h
  have hs := h.len_eq
  simp only [List.length_cons, List.length_append] at hs
  unfold shift
  rw [if_neg (by omega)]
  refine ⟨_, rfl, ⟨?_, fun j hj => ?_⟩, hevents⟩
  · cases rest <;> simp [clobber] at hs ⊢ <;> omega
  · cases rest with
    | nil => simp [clobber] at hj
    | cons b rest =>
        have h' : s.Holds ((DOLLAR :: data ++ [HASH, high, low]) ++
            b :: rest) := by
          simpa using h
        simp only [List.length_cons] at hs
        simp only [clobber, List.length_cons] at hj
        change (if j < _ - (data.length + 1 + 3) then _ else _) = _
        rw [if_pos (by omega)]
        cases j with
        | zero => exact hzero
        | succ j =>
            have hsuffix := h'.suffix (j := j + 1) (by simp; omega)
            rw [hsame _ (by omega)]
            simp only [List.length_append, List.length_cons,
              List.length_nil] at hsuffix
            rw [show data.length + 1 + 3 + (j + 1) =
              data.length + 1 + (0 + 1 + 1 + 1) + (j + 1) by omega, hsuffix]
            rfl

/-- A pass that finds nothing but bytes to skip. -/
theorem dbParseStep_idle {s : DbState} {before garbage : List Byte}
    (hgarbage : DOLLAR ∉ garbage) (h : s.Holds (before ++ garbage)) :
    ∃ s', dbParseStep before.length s = .ok (none, s') ∧ s'.Holds [] ∧
      s'.events = s.events ++ interruptsIn garbage := by
  have hlen := h.len_eq
  rw [List.length_append] at hlen
  have hskip := skipGarbage_eq hgarbage (Or.inr rfl)
    (by simpa using h : s.Holds (before ++ (garbage ++ [])))
    (by omega : garbage.length ≤ s.len - before.length)
  unfold dbParseStep
  rw [hskip]
  have hend : (s.logAll (interruptsIn garbage)).len ≤
      before.length + garbage.length := le_of_eq hlen
  simp only [hend, if_true]
  exact ⟨_, rfl, ⟨rfl, fun j hj => by simp at hj⟩, rfl⟩

/-- A pass that finds a `$`. -/
theorem dbParseStep_found {s : DbState} {before garbage rest : List Byte}
    (hgarbage : DOLLAR ∉ garbage)
    (h : s.Holds (before ++ (garbage ++ DOLLAR :: rest))) :
    ∃ s', dbParseStep before.length s = dbTakePacket s' ∧
      s'.Holds (DOLLAR :: rest) ∧
      s'.events = s.events ++ interruptsIn garbage := by
  have hlen := h.len_eq
  simp only [List.length_append, List.length_cons] at hlen
  have hskip := skipGarbage_eq hgarbage (Or.inl rfl) h
    (by omega : garbage.length ≤ s.len - before.length)
  have h' : (s.logAll (interruptsIn garbage)).Holds
      ((before ++ garbage) ++ DOLLAR :: rest) := by
    simpa using h.logAll (interruptsIn garbage)
  obtain ⟨s', hshift, hholds, hevents⟩ := shift_eq h'
  rw [List.length_append] at hshift
  have hmore : ¬(s.logAll (interruptsIn garbage)).len ≤
      before.length + garbage.length := by
    change ¬s.len ≤ _
    omega
  refine ⟨s', ?_, hholds, hevents⟩
  unfold dbParseStep
  rw [hskip]
  simp only [hmore, if_false, hshift]
  rfl

theorem acceptPacket_len (i : ℕ) (checksum : Byte) (s : DbState) :
    (s.acceptPacket i checksum).len = s.len := by
  simp only [acceptPacket]
  split_ifs <;> rfl

/-- One or two bytes of a packet are taken for a whole one. -/
theorem dbTakePacket_short {s : DbState} {content : List Byte}
    (h : s.Holds content) (hpos : 1 ≤ content.length)
    (hshort : content.length < 3) :
    dbTakePacket s = .error .negativeLength := by
  have hlen := h.len_eq
  have hscan : s.scanPacket s.len 1 0 = (1, 0) := by
    obtain ⟨fuel, hfuel⟩ : ∃ k, s.len = k + 1 := ⟨s.len - 1, by omega⟩
    rw [hfuel, scanPacket, if_neg (by omega)]
  have hne : ¬((1 : ℕ) : ℤ) = s.len - 2 := by omega
  have hshift : (s.acceptPacket 1 0).shift (1 + 3) =
      .error .negativeLength := by
    unfold shift
    rw [acceptPacket_len, if_pos (by omega)]
  unfold dbTakePacket
  rw [hscan]
  simp only [hne, if_false, hshift]
  rfl

theorem scanPacket_first {s : DbState} {data rest : List Byte}
    (h : s.Holds (DOLLAR :: (data ++ rest))) (hdata : HASH ∉ data)
    (htwo : 2 ≤ rest.length)
    (hrest : rest.head? = some HASH ∨ rest.length = 2) :
    s.scanPacket s.len 1 0 = (data.length + 1, data.sum) := by
  have hlen := h.len_eq
  simp only [List.length_cons, List.length_append] at hlen
  have hscan : s.scanPacket s.len [DOLLAR].length 0 = _ :=
    scanPacket_eq hdata h (by omega) htwo hrest
  rw [List.length_singleton] at hscan
  rw [hscan]
  refine Prod.ext ?_ ?_ <;> simp [Nat.add_comm]

/-- A packet whose end has not arrived is left alone. -/
theorem dbTakePacket_partial {s : DbState} {data rest : List Byte}
    (h : s.Holds (DOLLAR :: (data ++ rest))) (hdata : HASH ∉ data)
    (hrest : rest.length = 2) :
    dbTakePacket s = .ok (none, s) := by
  have hlen := h.len_eq
  simp only [List.length_cons, List.length_append] at hlen
  have hscan := scanPacket_first h hdata (by omega) (Or.inr hrest)
  have heq : ((data.length + 1 : ℕ) : ℤ) = s.len - 2 := by omega
  unfold dbTakePacket
  rw [hscan]
  simp only [heq, if_true]
  rfl

theorem dbTakePacket_complete {s : DbState} {data rest : List Byte}
    {high low : Byte} (hdata : HASH ∉ data)
    (h : s.Holds (DOLLAR :: (data ++ HASH :: high :: low :: rest))) :
    ∃ s', dbTakePacket s = .ok (some (data.length + 4), s') ∧
      s'.Holds (clobber rest) ∧
      s'.events = s.events ++ packetEvents data high low := by
  have hlen := h.len_eq
  simp only [List.length_cons, List.length_append] at hlen
  have hscan := scanPacket_first h hdata (by simp) (Or.inl rfl)
  obtain ⟨s', hshift, hholds, hevents⟩ := Holds_shift_accept h
  have hne : ¬((data.length + 1 : ℕ) : ℤ) = s.len - 2 := by omega
  refine ⟨s', ?_, hholds, hevents⟩
  unfold dbTakePacket
  rw [hscan]
  simp only [hne, if_false, hshift]
  rfl

/-- Where a pass goes on or stops: behind the bytes that are skipped there is
nothing, the beginning of a packet, or a packet. -/
theorem content_cases (content : List Byte) :
    DOLLAR ∉ content ∨
      ∃ garbage rest, DOLLAR ∉ garbage ∧
        content = garbage ++ DOLLAR :: rest ∧
        (rest.length < 2 ∨
          (∃ data tail, rest = data ++ tail ∧ HASH ∉ data ∧
            tail.length = 2) ∨
          ∃ data high low tail, HASH ∉ data ∧
            rest = data ++ HASH :: high :: low :: tail) := by
  by_cases hmem : DOLLAR ∈ content
  · right
    obtain ⟨garbage, rest, rfl, hgarbage⟩ := List.eq_append_cons_of_mem hmem
    refine ⟨garbage, rest, hgarbage, rfl, ?_⟩
    by_cases hshort : rest.length < 2
    · exact Or.inl hshort
    right
    have hsplit := List.take_append_drop (rest.length - 2) rest
    by_cases hhash : HASH ∈ rest.take (rest.length - 2)
    · right
      obtain ⟨data, middle, hdata, hnot⟩ := List.eq_append_cons_of_mem hhash
      have hlen : (rest.drop (rest.length - 2)).length = 2 := by
        rw [List.length_drop]
        omega
      rw [hdata] at hsplit
      obtain ⟨high, low, tail, htail⟩ : ∃ high low tail,
          middle ++ rest.drop (rest.length - 2) = high :: low :: tail := by
        match middle ++ rest.drop (rest.length - 2), (by
            rw [List.length_append]; omega : 2 ≤
              (middle ++ rest.drop (rest.length - 2)).length) with
        | high :: low :: tail, _ => exact ⟨high, low, tail, rfl⟩
      refine ⟨data, high, low, tail, hnot, ?_⟩
      rw [List.append_assoc, List.cons_append, htail] at hsplit
      exact hsplit.symm
    · left
      refine ⟨rest.take (rest.length - 2), rest.drop (rest.length - 2),
        hsplit.symm, hhash, ?_⟩
      rw [List.length_drop]
      omega
  · exact Or.inl hmem

/-- What `db_parse_packet` logs and leaves in the buffer. -/
inductive DbParses : List Byte → List DbEvent → List Byte → Prop
  | idle {garbage : List Byte} (hgarbage : DOLLAR ∉ garbage) :
      DbParses garbage (interruptsIn garbage) []
  | unfinished {garbage data tail : List Byte} (hgarbage : DOLLAR ∉ garbage)
      (hdata : HASH ∉ data) (htail : tail.length = 2) :
      DbParses (garbage ++ DOLLAR :: (data ++ tail)) (interruptsIn garbage)
        (DOLLAR :: (data ++ tail))
  | last {garbage data rest : List Byte} {high low : Byte}
      (hgarbage : DOLLAR ∉ garbage) (hdata : HASH ∉ data)
      (hrest : rest.length ≤ data.length + 4) :
      DbParses (garbage ++ DOLLAR :: (data ++ HASH :: high :: low :: rest))
        (interruptsIn garbage ++ packetEvents data high low) (clobber rest)
  | more {garbage data skipped rest left : List Byte} {high low : Byte}
      {events : List DbEvent} (hgarbage : DOLLAR ∉ garbage)
      (hdata : HASH ∉ data) (hskipped : skipped.length = data.length + 4)
      (hrest : rest ≠ []) (hmore : DbParses rest events left) :
      DbParses (garbage ++
          DOLLAR :: (data ++ HASH :: high :: low :: (skipped ++ rest)))
        (interruptsIn garbage ++ packetEvents data high low ++ events) left

theorem clobber_append {skipped : List Byte} (hne : skipped ≠ [])
    (rest : List Byte) :
    ∃ skipped', clobber (skipped ++ rest) = skipped' ++ rest ∧
      skipped'.length = skipped.length := by
  cases skipped with
  | nil => exact absurd rfl hne
  | cons b skipped => exact ⟨0 :: skipped, rfl, rfl⟩

theorem length_clobber (rest : List Byte) :
    (clobber rest).length = rest.length := by
  cases rest <;> rfl

theorem DbParses.loop {content left : List Byte} {events : List DbEvent}
    (h : DbParses content events left) (hne : content ≠ []) :
    ∀ {s : DbState} {before : List Byte} {fuel : ℕ},
      s.Holds (before ++ content) → (before ++ content).length ≤ fuel →
      ∃ s', dbParseLoop fuel before.length s = .ok s' ∧ s'.Holds left ∧
        s'.events = s.events ++ events := by
  have henter : ∀ {content : List Byte} (s : DbState) (before : List Byte),
      content ≠ [] → s.Holds (before ++ content) → before.length < s.len := by
    intro content s before hne hs
    have hpos := List.length_pos_of_ne_nil hne
    rw [hs.len_eq, List.length_append]
    omega
  induction h with
  | idle hgarbage =>
      intro s before fuel hs hfuel
      have hlt := henter s before hne hs
      obtain ⟨fuel, rfl⟩ : ∃ k, fuel = k + 1 :=
        ⟨fuel - 1, by have := hs.len_eq; omega⟩
      obtain ⟨s', hstep, hholds, hevents⟩ := dbParseStep_idle hgarbage hs
      refine ⟨s', ?_, hholds, hevents⟩
      rw [dbParseLoop, if_pos hlt, hstep]
  | unfinished hgarbage hdata htail =>
      intro s before fuel hs hfuel
      have hlt := henter s before hne hs
      obtain ⟨fuel, rfl⟩ : ∃ k, fuel = k + 1 :=
        ⟨fuel - 1, by have := hs.len_eq; omega⟩
      obtain ⟨s', hstep, hholds, hevents⟩ := dbParseStep_found hgarbage hs
      refine ⟨s', ?_, hholds, hevents⟩
      rw [dbParseLoop, if_pos hlt, hstep,
        dbTakePacket_partial hholds hdata htail]
  | last hgarbage hdata hrest =>
      intro s before fuel hs hfuel
      have hlt := henter s before hne hs
      obtain ⟨fuel, rfl⟩ : ∃ k, fuel = k + 1 :=
        ⟨fuel - 1, by have := hs.len_eq; omega⟩
      obtain ⟨s', hstep, hholds, hevents⟩ := dbParseStep_found hgarbage hs
      obtain ⟨s'', htake, hholds', hevents'⟩ :=
        dbTakePacket_complete hdata hholds
      refine ⟨s'', ?_, hholds', ?_⟩
      · rw [dbParseLoop, if_pos hlt, hstep, htake]
        have hlen := hholds'.len_eq
        rw [length_clobber] at hlen
        cases fuel with
        | zero => rfl
        | succ fuel => exact if_neg (by omega)
      · rw [hevents', hevents, List.append_assoc]
  | more hgarbage hdata hskipped hrest hmore ih =>
      intro s before fuel hs hfuel
      have hlt := henter s before hne hs
      obtain ⟨fuel, rfl⟩ : ∃ k, fuel = k + 1 :=
        ⟨fuel - 1, by have := hs.len_eq; omega⟩
      obtain ⟨s', hstep, hholds, hevents⟩ := dbParseStep_found hgarbage hs
      obtain ⟨s'', htake, hholds', hevents'⟩ :=
        dbTakePacket_complete hdata hholds
      obtain ⟨skipped', heq, hlen⟩ :=
        clobber_append (List.ne_nil_of_length_eq_add_one hskipped) _
      rw [heq] at hholds'
      obtain ⟨s₃, hloop, hholds₃, hevents₃⟩ := ih hrest hholds' (by
        simp only [List.length_append, List.length_cons] at hfuel ⊢
        omega : _ ≤ fuel)
      refine ⟨s₃, ?_, hholds₃, ?_⟩
      · rw [dbParseLoop, if_pos hlt, hstep, htake]
        rw [hlen, hskipped] at hloop
        exact hloop
      · rw [hevents₃, hevents', hevents]
        simp

theorem dbParseLoop_cases : ∀ {fuel : ℕ} {content : List Byte},
    content ≠ [] → ∀ {s : DbState} {before : List Byte},
      s.Holds (before ++ content) → (before ++ content).length ≤ fuel →
      (∃ events left, DbParses content events left) ∨
        dbParseLoop fuel before.length s = .error .negativeLength := by
  intro fuel
  induction fuel with
  | zero =>
      intro content hne s before hs hfuel
      have hpos := List.length_pos_of_ne_nil hne
      simp only [List.length_append] at hfuel
      omega
  | succ fuel ih =>
      intro content hne s before hs hfuel
      have hpos := List.length_pos_of_ne_nil hne
      have hlt : before.length < s.len := by
        rw [hs.len_eq, List.length_append]
        omega
      rcases content_cases content with hgarbage |
        ⟨garbage, rest, hgarbage, rfl, hshort | ⟨data, tail, rfl, hdata, htail⟩ |
          ⟨data, high, low, tail, hdata, rfl⟩⟩
      · exact Or.inl ⟨_, _, DbParses.idle hgarbage⟩
      · right
        obtain ⟨s', hstep, hholds, -⟩ := dbParseStep_found hgarbage hs
        rw [dbParseLoop, if_pos hlt, hstep,
          dbTakePacket_short hholds (by simp) (by simp; omega)]
      · exact Or.inl ⟨_, _, DbParses.unfinished hgarbage hdata htail⟩
      · by_cases hrest : tail.length ≤ data.length + 4
        · exact Or.inl ⟨_, _, DbParses.last hgarbage hdata hrest⟩
        obtain ⟨s', hstep, hholds, -⟩ := dbParseStep_found hgarbage hs
        obtain ⟨s'', htake, hholds', -⟩ := dbTakePacket_complete hdata hholds
        have hsplit := List.take_append_drop (data.length + 4) tail
        have hskipped : (tail.take (data.length + 4)).length =
            data.length + 4 := by
          rw [List.length_take]
          omega
        have hdrop : tail.drop (data.length + 4) ≠ [] := by
          intro hnil
          have := congrArg List.length hnil
          rw [List.length_drop, List.length_nil] at this
          omega
        obtain ⟨skipped', heq, hlen⟩ :=
          clobber_append (List.ne_nil_of_length_eq_add_one hskipped)
            (tail.drop (data.length + 4))
        rw [hsplit] at heq
        rw [heq] at hholds'
        rcases ih hdrop hholds' (by
          simp only [List.length_append, List.length_cons,
            List.length_drop] at hfuel ⊢
          omega) with ⟨events, left, hmore⟩ | herror
        · left
          rw [← hsplit]
          exact ⟨_, _, DbParses.more hgarbage hdata hskipped hdrop hmore⟩
        · right
          rw [dbParseLoop, if_pos hlt, hstep, htake]
          rw [hlen, hskipped] at herror
          exact herror

end BrickEmu
