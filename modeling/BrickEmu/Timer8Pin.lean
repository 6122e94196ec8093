import BrickEmu.OutputPin
import BrickEmu.Timer8Ticks

/-!
# The output pin of the 8-bit timer

The pieces handed to `sound_update` are a wave, one level for every cycle.
`t8_incr_tcnt` takes a lap at once.  After the first compare match it leaves
the position on the match and not behind it, so that the second match of the
lap comes a tick late, or never when the lap ends there.
-/

namespace BrickEmu

open Timer8

/-- The level of the pin over time. -/
def wave (sound : List (Byte × ℕ)) : List Byte :=
  sound.flatMap fun piece => List.replicate piece.2 piece.1

theorem wave_append (sound sound' : List (Byte × ℕ)) :
    wave (sound ++ sound') = wave sound ++ wave sound' :=
  List.flatMap_append

theorem wave_singleton (level : Byte) (duration : ℕ) :
    wave [(level, duration)] = List.replicate duration level := by
  simp [wave]

/-- A piece without duration makes no sound. -/
theorem wave_rest (sound : List (Byte × ℕ)) (level : Byte) (rest cycles : ℕ) :
    wave (if rest ≠ 0 then sound ++ [(level, rest * cycles)] else sound) =
      wave sound ++ List.replicate (rest * cycles) level := by
  by_cases hrest : rest = 0
  · simp [hrest]
  · rw [if_pos hrest, wave_append, wave_singleton]

/-- The compare registers in the order of `t8_incr_tcnt`, each with its
output select bits. -/
def T8Channel.pin (channel : T8Channel) : Pin Byte :=
  if hordered : channel.tcora.toNat ≤ channel.tcorb.toNat then
    { first := channel.tcora.toNat
      second := channel.tcorb.toNat
      ordered := hordered
      atFirst := t8Output channel.tcsr
      atSecond := t8Output (channel.tcsr >>> 2) }
  else
    { first := channel.tcorb.toNat
      second := channel.tcora.toNat
      ordered := Nat.le_of_not_le hordered
      atFirst := t8Output (channel.tcsr >>> 2)
      atSecond := t8Output channel.tcsr }

/-- The counter restarts behind the clearing value and behind `0xff`. -/
def T8Channel.restarts (channel : T8Channel) (count : ℕ) : Bool :=
  decide (channel.counter.clearAt = some count) || decide (count = 0xff)

section Select

/-- The status flags do not touch the output select bits. -/
theorem t8Output_congr {tcsr tcsr' : Byte}
    (hselect : tcsr' &&& 0x0f = tcsr &&& 0x0f) :
    t8Output tcsr' = t8Output tcsr ∧
      t8Output (tcsr' >>> 2) = t8Output (tcsr >>> 2) := by
  have hbits : ∀ tcsr : Byte, tcsr &&& 3 = tcsr &&& 0x0f &&& 3 ∧
      tcsr >>> 2 &&& (3 : Byte) = (tcsr &&& 0x0f) >>> 2 &&& (3 : Byte) := by
    decide +kernel
  obtain ⟨hlow, hhigh⟩ := hbits tcsr
  obtain ⟨hlow', hhigh'⟩ := hbits tcsr'
  constructor
  · funext out
    rw [t8Output, t8Output, hlow, hlow', hselect]
  · funext out
    rw [t8Output, t8Output, hhigh, hhigh', hselect]

theorem pin_congr {channel channel' : T8Channel}
    (htcora : channel'.tcora = channel.tcora)
    (htcorb : channel'.tcorb = channel.tcorb)
    (hselect : channel'.tcsr &&& 0x0f = channel.tcsr &&& 0x0f) :
    channel'.pin = channel.pin := by
  obtain ⟨hlow, hhigh⟩ := t8Output_congr hselect
  simp only [T8Channel.pin, htcora, htcorb, hlow, hhigh]

theorem restarts_congr {channel channel' : T8Channel}
    (htcr : channel'.tcr = channel.tcr)
    (htcora : channel'.tcora = channel.tcora)
    (htcorb : channel'.tcorb = channel.tcorb) :
    channel'.restarts = channel.restarts := by
  have hcounter : channel'.counter = channel.counter := by
    simp only [T8Channel.counter, htcr, htcora, htcorb]
  funext p
  rw [T8Channel.restarts, T8Channel.restarts, hcounter]

theorem t8Marks_select (channel : T8Channel) (low high : ℕ) :
    channel.counter.marks low high channel.tcsr &&& 0x0f =
      channel.tcsr &&& 0x0f :=
  CompareCounter.marks_and channel.tcsr
    (Or.inl (show CMFA &&& 0x0f = 0 by decide))
    (Or.inl (show CMFB &&& 0x0f = 0 by decide))

end Select

/-- One compare match without wrapping. -/
theorem t8Match_eq {compare cnt incr shift : ℕ} (select out : Byte)
    (sound : List (Byte × ℕ)) (hshift : shift ≤ 10)
    (hcompare : compare < 0x100) (hcnt : cnt < 0x100) (hincr : incr ≤ 0x100) :
    t8Match compare select shift (out, cnt, incr, sound) =
      if cnt ≤ compare ∧ compare < cnt + incr then
        (t8Output select out, compare, incr - (compare - cnt + 1),
          sound ++ [(out, (compare - cnt + 1) * 2 ^ shift)])
      else (out, cnt, incr, sound) := by
  have hsum : uint32 ((cnt : ℤ) + incr) = cnt + incr := by
    rw [← Nat.cast_add, uint32_natCast (by omega)]
  rw [t8Match]
  simp only [hsum]
  split
  · rename_i hmatch
    have hrest : uint32 ((incr : ℤ) - (compare - cnt + 1)) =
        incr - (compare - cnt + 1) := by
      have hcast : (incr : ℤ) - (compare - cnt + 1) =
          ((incr - (compare - cnt + 1) : ℕ) : ℤ) := by omega
      rw [hcast, uint32_natCast (by omega)]
    have hduration : uint32 (((compare : ℤ) - cnt + 1) * 2 ^ shift) =
        (compare - cnt + 1) * 2 ^ shift := by
      have hcast : ((compare : ℤ) - cnt + 1) * 2 ^ shift =
          (((compare - cnt + 1) * 2 ^ shift : ℕ) : ℤ) := by
        push_cast [Nat.cast_sub hmatch.1]
        ring
      have hpow : 2 ^ shift ≤ 2 ^ 10 := Nat.pow_le_pow_right (by omega) hshift
      have hmul := Nat.mul_le_mul (show compare - cnt + 1 ≤ 0x100 by omega)
        hpow
      rw [hcast, uint32_natCast (by omega)]
    rw [hrest, hduration]
  · rfl

/-- The two matches and the rest of a lap. -/
def t8Lap (pin : Pin Byte) (selectFirst selectSecond : Byte) (cnt incr shift : ℕ)
    (out : Byte) (sound : List (Byte × ℕ)) : Byte × List (Byte × ℕ) :=
  let (out, _, rest, sound) := t8Match pin.second selectSecond shift
    (t8Match pin.first selectFirst shift (out, cnt, incr, sound))
  (out, if rest ≠ 0 then sound ++ [(out, uint32 (rest * 2 ^ shift))]
    else sound)

theorem t8Lap_pin {pin : Pin Byte} {selectFirst selectSecond : Byte}
    (hfirst : t8Output selectFirst = pin.atFirst)
    (hsecond : t8Output selectSecond = pin.atSecond) {c k shift : ℕ}
    (hc : c < 0x100) (hk : c + k ≤ 0x100) (hshift : shift ≤ 10)
    (hrange : pin.second < 0x100) (o : Byte) (sound : List (Byte × ℕ)) :
    let lap := t8Lap pin selectFirst selectSecond c k shift o sound
    lap.1 = pin.bulkLevel c o (c + k) ∧
      wave lap.2 = wave sound ++
        stretch (2 ^ shift) ((List.range' c k).map (pin.bulkLevel c o)) := by
  intro lap
  have hordered := pin.ordered
  have hpow : 2 ^ shift ≤ 2 ^ 10 := Nat.pow_le_pow_right (by omega) hshift
  have hrest : ∀ rest : ℕ, rest ≤ 0x100 →
      uint32 ((rest : ℤ) * 2 ^ shift) = rest * 2 ^ shift := by
    intro rest hle
    have hmul := Nat.mul_le_mul hle hpow
    have hcast : (rest : ℤ) * 2 ^ shift = ((rest * 2 ^ shift : ℕ) : ℤ) := by
      push_cast
      rfl
    rw [hcast, uint32_natCast (by omega)]
  -- the pieces of a lap that is cut at the given lengths
  have hcut : ∀ {start length : ℕ} (m n : ℕ), m + n = length →
      (List.range' start length).map (pin.bulkLevel c o) =
        (List.range' start m).map (pin.bulkLevel c o) ++
          (List.range' (start + m) n).map (pin.bulkLevel c o) := by
    intro start length m n hsum
    rw [← List.map_append, ← hsum, ← List.range'_append_1]
  simp only [lap, t8Lap]
  rw [t8Match_eq selectFirst o sound hshift (by omega) hc (by omega)]
  by_cases hpassed : c ≤ pin.first ∧ pin.first < c + k
  · rw [if_pos hpassed, t8Match_eq _ _ _ hshift hrange (by omega) (by omega)]
    have hbefore : ∀ p, c ≤ p → p < c + (pin.first - c + 1) →
        pin.bulkLevel c o p = o := by
      intro p hlow hhigh
      rw [Pin.bulkLevel, if_neg (by omega), if_neg (by omega)]
    by_cases hmatch : pin.second + 1 < c + k
    · rw [if_pos (by omega)]
      simp only
      have hbetween : ∀ p, c + (pin.first - c + 1) ≤ p →
          p < c + (pin.first - c + 1) + (pin.second - pin.first + 1) →
          pin.bulkLevel c o p = pin.atFirst o := by
        intro p hlow hhigh
        rw [Pin.bulkLevel, if_pos (by omega), if_neg (by omega)]
      have hafter : ∀ p,
          c + (pin.first - c + 1) + (pin.second - pin.first + 1) ≤ p →
          p ≤ c + k →
          pin.bulkLevel c o p = pin.atSecond (pin.atFirst o) := by
        intro p hlow hhigh
        rw [Pin.bulkLevel, if_pos (by omega), if_pos (by omega)]
      rw [hrest _ (by omega), wave_rest, wave_append, wave_append,
        wave_singleton, wave_singleton,
        hcut (pin.first - c + 1) (k - (pin.first - c + 1)) (by omega),
        stretch_append, stretch_map_of_const hbefore,
        hcut (pin.second - pin.first + 1)
          (k - (pin.first - c + 1) - (pin.second - pin.first + 1)) (by omega),
        stretch_append, stretch_map_of_const hbetween, stretch_map_of_const
        (fun p hlow hhigh => hafter p hlow (by omega)), hfirst, hsecond,
        hafter (c + k) (by omega) le_rfl, List.append_assoc,
        List.append_assoc]
      exact ⟨rfl, rfl⟩
    · rw [if_neg (by omega)]
      simp only
      have hafter : ∀ p, c + (pin.first - c + 1) ≤ p → p ≤ c + k →
          pin.bulkLevel c o p = pin.atFirst o := by
        intro p hlow hhigh
        rw [Pin.bulkLevel, if_pos (by omega), if_neg (by omega)]
      rw [hrest _ (by omega), wave_rest, wave_append, wave_singleton,
        hcut (pin.first - c + 1) (k - (pin.first - c + 1)) (by omega),
        stretch_append, stretch_map_of_const hbefore, stretch_map_of_const
        (fun p hlow hhigh => hafter p hlow (by omega)), hfirst,
        hafter (c + k) (by omega) le_rfl, List.append_assoc]
      exact ⟨rfl, rfl⟩
  · rw [if_neg hpassed, t8Match_eq _ _ _ hshift hrange hc (by omega)]
    by_cases hmatch : c ≤ pin.second ∧ pin.second < c + k
    · rw [if_pos hmatch]
      simp only
      rw [hrest _ (by omega), wave_rest, wave_append, wave_singleton,
        hcut (pin.second - c + 1) (k - (pin.second - c + 1)) (by omega),
        stretch_append]
      have hbefore : ∀ p, c ≤ p → p < c + (pin.second - c + 1) →
          pin.bulkLevel c o p = o := by
        intro p hlow hhigh
        rw [Pin.bulkLevel, if_neg (by omega), if_neg (by omega)]
      have hafter : ∀ p, c + (pin.second - c + 1) ≤ p → p ≤ c + k →
          pin.bulkLevel c o p = pin.atSecond o := by
        intro p hlow hhigh
        rw [Pin.bulkLevel, if_neg (by omega), if_pos (by omega)]
      rw [stretch_map_of_const hbefore, stretch_map_of_const
        (fun p hlow hhigh => hafter p hlow (by omega)), hsecond,
        hafter (c + k) (by omega) le_rfl, List.append_assoc]
      exact ⟨rfl, rfl⟩
    · rw [if_neg hmatch]
      simp only
      have hall : ∀ p, c ≤ p → p ≤ c + k → pin.bulkLevel c o p = o := by
        intro p hlow hhigh
        rw [Pin.bulkLevel, if_neg (by omega), if_neg (by omega)]
      rw [hrest _ (by omega), wave_rest, hall (c + k) (by omega) le_rfl,
        stretch_map_of_const (fun p hlow hhigh => hall p hlow (by omega))]
      exact ⟨rfl, rfl⟩

/-- The status flags that a lap leaves. -/
theorem t8IncrTcnt_tcsr (channel : T8Channel) {incr : ℕ} (shift : ℕ)
    (sound : List (Byte × ℕ)) (hincr : channel.tcnt.toNat + incr < 2 ^ 32) :
    (t8IncrTcnt channel incr shift sound).1.tcsr &&& 0x0f =
      channel.tcsr &&& 0x0f := by
  rw [t8IncrTcnt_channel channel shift sound hincr]
  exact t8Marks_select channel _ _

theorem t8IncrTcnt_eq_lap (channel : T8Channel) {incr : ℕ} (shift : ℕ)
    (sound : List (Byte × ℕ)) (hincr : channel.tcnt.toNat + incr < 2 ^ 32) :
    ∃ selectFirst selectSecond,
      t8Output selectFirst = channel.pin.atFirst ∧
      t8Output selectSecond = channel.pin.atSecond ∧
      ((t8IncrTcnt channel incr shift sound).1.out,
        (t8IncrTcnt channel incr shift sound).2) =
          t8Lap channel.pin selectFirst selectSecond channel.tcnt.toNat incr
            shift channel.out sound := by
  obtain ⟨tcsr, htcsr⟩ : ∃ tcsr,
      tcsr = (t8IncrTcnt channel incr shift sound).1.tcsr := ⟨_, rfl⟩
  have hselect := t8IncrTcnt_tcsr channel shift sound hincr
  rw [← htcsr] at hselect
  obtain ⟨hlow, hhigh⟩ := t8Output_congr hselect
  have hzero : tcsr >>> 0 = tcsr := BitVec.ushiftRight_zero tcsr
  by_cases hordered : channel.tcora.toNat ≤ channel.tcorb.toNat
  · refine ⟨tcsr >>> 0, tcsr >>> (2 - 0), ?_, ?_, ?_⟩
    · rw [hzero, hlow, T8Channel.pin, dif_pos hordered]
    · rw [hhigh, T8Channel.pin, dif_pos hordered]
    · rw [htcsr, T8Channel.pin, dif_pos hordered]
      simp only [t8IncrTcnt, t8Lap, if_pos hordered]
  · refine ⟨tcsr >>> 2, tcsr >>> (2 - 2), ?_, ?_, ?_⟩
    · rw [hhigh, T8Channel.pin, dif_neg hordered]
    · rw [hzero, hlow, T8Channel.pin, dif_neg hordered]
    · rw [htcsr, T8Channel.pin, dif_neg hordered]
      simp only [t8IncrTcnt, t8Lap, if_neg hordered]

theorem pin_second_lt (channel : T8Channel) : channel.pin.second < 0x100 := by
  rw [T8Channel.pin]
  split
  · exact channel.tcorb.isLt
  · exact channel.tcora.isLt

/-- The level and the wave of a lap. -/
theorem t8IncrTcnt_pin (channel : T8Channel) {k shift : ℕ}
    (sound : List (Byte × ℕ)) (hk : channel.tcnt.toNat + k ≤ 0x100)
    (hshift : shift ≤ 10) :
    let c := channel.tcnt.toNat
    let level := channel.pin.bulkLevel c channel.out
    let counted := t8IncrTcnt channel k shift sound
    counted.1.out = level (c + k) ∧
      wave counted.2 = wave sound ++
        stretch (2 ^ shift) ((List.range' c k).map level) := by
  intro c level counted
  obtain ⟨selectFirst, selectSecond, hfirst, hsecond, hlap⟩ :=
    t8IncrTcnt_eq_lap channel shift sound
      (show channel.tcnt.toNat + k < 2 ^ 32 by omega)
  have hpin := t8Lap_pin hfirst hsecond channel.tcnt.isLt hk hshift
    (pin_second_lt channel) channel.out sound
  rw [← hlap] at hpin
  exact hpin

/-! ## The laps of the loop -/

/-- A lap of the counting loop over `n` ticks: how it starts, its length, and
how the loop goes on. -/
structure T8Lap (shift fuel n : ℕ) (channel : T8Channel)
    (sound : List (Byte × ℕ)) (k : ℕ) (start : T8Channel) : Prop where
  pos : 0 < k
  le : k ≤ n
  range : channel.tcnt.toNat + k ≤ 0x100
  start_eq : start = channel ∨
    start = { channel with tcsr := channel.tcsr ||| OVF }
  quiet : ∀ p, channel.tcnt.toNat ≤ p → p + 1 < channel.tcnt.toNat + k →
    channel.restarts p = false
  next :
    (channel.restarts (channel.tcnt.toNat + (k - 1)) = true ∧
      t8Loop shift (fuel + 1) n (channel, sound) =
        t8Loop shift fuel ((n - k : ℕ) : ℤ)
          ({ (t8IncrTcnt start k shift sound).1 with tcnt := 0 },
            (t8IncrTcnt start k shift sound).2)) ∨
    (k = n ∧ channel.restarts (channel.tcnt.toNat + (k - 1)) = false ∧
      (t8Loop shift (fuel + 1) n (channel, sound)).1.out =
        (t8IncrTcnt start k shift sound).1.out ∧
      (t8Loop shift (fuel + 1) n (channel, sound)).2 =
        (t8IncrTcnt start k shift sound).2)

theorem restarts_eq_false {channel : T8Channel} {p : ℕ} (htop : p < 0xff)
    (hclear : channel.counter.clearAt ≠ some p) :
    channel.restarts p = false := by
  rw [T8Channel.restarts, decide_eq_false hclear, decide_eq_false (by omega)]
  rfl

theorem restarts_of_clearAt {channel : T8Channel} {p : ℕ}
    (hclear : channel.counter.clearAt = some p) :
    channel.restarts p = true := by
  rw [T8Channel.restarts, decide_eq_true hclear]
  rfl

theorem t8Loop_lap (shift fuel : ℕ) {n : ℕ} (hn : 0 < n)
    (channel : T8Channel) (sound : List (Byte × ℕ)) :
    ∃ k start, T8Lap shift fuel n channel sound k start := by
  have hcnt := channel.tcnt.isLt
  have htcora := channel.tcora.isLt
  have htcorb := channel.tcorb.isLt
  have hloop := t8Loop.eq_2 shift n fuel channel sound
  have hcast : ∀ step ≤ n, (n : ℤ) - (step : ℕ) = ((n - step : ℕ) : ℤ) := by
    intro step hle
    omega
  -- a lap that ends at a clearing value
  have hclearLap : ∀ value, channel.counter.clearAt = some value →
      value < 0x100 → channel.tcnt.toNat ≤ value →
      value < channel.tcnt.toNat + n →
      t8Loop shift (fuel + 1) n (channel, sound) =
        t8Loop shift fuel ((n - (value + 1 - channel.tcnt.toNat) : ℕ) : ℤ)
          ({ (t8IncrTcnt channel (value + 1 - channel.tcnt.toNat) shift
              sound).1 with tcnt := 0 },
            (t8IncrTcnt channel (value + 1 - channel.tcnt.toNat) shift
              sound).2) →
      T8Lap shift fuel n channel sound (value + 1 - channel.tcnt.toNat)
        channel := by
    intro value hvalue htop hle hlt hnext
    refine ⟨by omega, by omega, by omega, Or.inl rfl, ?_, Or.inl ⟨?_, hnext⟩⟩
    · intro p hlow hhigh
      apply restarts_eq_false (by omega)
      rw [hvalue]
      simp only [ne_eq, Option.some.injEq]
      omega
    · apply restarts_of_clearAt
      rw [hvalue]
      congr 1
      omega
  simp only [Nat.cast_eq_zero, if_neg (show ¬n = 0 by omega)] at hloop
  by_cases hmatchA : channel.tcr &&& CCLR = CCLR0 ∧
      channel.tcnt.toNat ≤ channel.tcora.toNat ∧
        (channel.tcora.toNat : ℤ) < channel.tcnt.toNat + n
  · rw [if_pos hmatchA, hcast _ (by omega)] at hloop
    refine ⟨_, _, hclearLap channel.tcora.toNat ?_ htcora hmatchA.2.1
      (by omega) hloop⟩
    simp only [T8Channel.counter, t8Counter, if_pos hmatchA.1]
  rw [if_neg hmatchA] at hloop
  by_cases hmatchB : channel.tcr &&& CCLR = CCLR1 ∧
      channel.tcnt.toNat ≤ channel.tcorb.toNat ∧
        (channel.tcorb.toNat : ℤ) < channel.tcnt.toNat + n
  · have hother : ¬channel.tcr &&& CCLR = CCLR0 := by
      rw [hmatchB.1]
      decide
    rw [if_pos hmatchB, hcast _ (by omega)] at hloop
    refine ⟨_, _, hclearLap channel.tcorb.toNat ?_ htcorb hmatchB.2.1
      (by omega) hloop⟩
    simp only [T8Channel.counter, t8Counter, if_neg hother,
      if_pos hmatchB.1]
  rw [if_neg hmatchB] at hloop
  have hclear : ∀ p, channel.tcnt.toNat ≤ p → p < channel.tcnt.toNat + n →
      channel.counter.clearAt ≠ some p := by
    intro p hlow hhigh hvalue
    simp only [T8Channel.counter, t8Counter] at hvalue
    split_ifs at hvalue with hmodeA hmodeB
    · rw [Option.some.injEq] at hvalue
      exact hmatchA ⟨hmodeA, by omega, by omega⟩
    · rw [Option.some.injEq] at hvalue
      exact hmatchB ⟨hmodeB, by omega, by omega⟩
  by_cases hover : (0xff : ℤ) < channel.tcnt.toNat + n
  · rw [if_pos hover, hcast _ (by omega)] at hloop
    refine ⟨_, _, by omega, by omega, by omega, Or.inr rfl, ?_,
      Or.inl ⟨?_, hloop⟩⟩
    · intro p hlow hhigh
      exact restarts_eq_false (by omega) (hclear p hlow (by omega))
    · have htop : channel.tcnt.toNat + (0x100 - channel.tcnt.toNat - 1) =
          0xff := by omega
      rw [htop, T8Channel.restarts, decide_eq_true rfl, Bool.or_true]
  · rw [if_neg hover, uint32_natCast (by omega)] at hloop
    refine ⟨n, channel, hn, le_rfl, by omega, Or.inl rfl, ?_,
      Or.inr ⟨rfl, ?_, ?_, ?_⟩⟩
    · intro p hlow hhigh
      exact restarts_eq_false (by omega) (hclear p hlow (by omega))
    · exact restarts_eq_false (by omega) (hclear _ (by omega) (by omega))
    · rw [hloop]
    · rw [hloop]

namespace T8Lap

variable {shift fuel n k : ℕ} {channel start : T8Channel}
  {sound : List (Byte × ℕ)}

theorem start_count (hlap : T8Lap shift fuel n channel sound k start) :
    start.tcnt = channel.tcnt ∧ start.out = channel.out ∧
      start.tcr = channel.tcr ∧ start.tcora = channel.tcora ∧
      start.tcorb = channel.tcorb := by
  rcases hlap.start_eq with rfl | rfl <;> simp

theorem start_pin (hlap : T8Lap shift fuel n channel sound k start) :
    start.pin = channel.pin := by
  have hoverflow : ∀ tcsr : Byte, (tcsr ||| OVF) &&& 0x0f = tcsr &&& 0x0f := by
    decide +kernel
  rcases hlap.start_eq with rfl | rfl
  · rfl
  · exact pin_congr rfl rfl (hoverflow channel.tcsr)

/-- The level and the wave behind the lap. -/
theorem counted (hlap : T8Lap shift fuel n channel sound k start)
    (hshift : shift ≤ 10) :
    (t8IncrTcnt start k shift sound).1.out =
        channel.pin.bulkLevel channel.tcnt.toNat channel.out
          (channel.tcnt.toNat + k) ∧
      wave (t8IncrTcnt start k shift sound).2 = wave sound ++
        stretch (2 ^ shift) ((List.range' channel.tcnt.toNat k).map
          (channel.pin.bulkLevel channel.tcnt.toNat channel.out)) := by
  obtain ⟨htcnt, hout, -⟩ := hlap.start_count
  have hrange := hlap.range
  rw [← htcnt] at hrange
  have hpin := t8IncrTcnt_pin start sound hrange hshift
  simp only [htcnt, hout, hlap.start_pin] at hpin
  exact hpin

/-- The next lap has the same compare registers. -/
theorem next_pin (hlap : T8Lap shift fuel n channel sound k start) :
    let next := { (t8IncrTcnt start k shift sound).1 with tcnt := 0 }
    next.pin = channel.pin ∧ next.restarts = channel.restarts := by
  intro next
  obtain ⟨htcnt, -, htcr, htcora, htcorb⟩ := hlap.start_count
  have hrange := hlap.range
  rw [← htcnt] at hrange
  have hselect := t8IncrTcnt_tcsr start shift sound
    (show start.tcnt.toNat + k < 2 ^ 32 by omega)
  have hchannel := t8IncrTcnt_channel start shift sound
    (show start.tcnt.toNat + k < 2 ^ 32 by omega)
  have hcora : next.tcora = start.tcora := by
    simp only [next]
    rw [hchannel]
  have hcorb : next.tcorb = start.tcorb := by
    simp only [next]
    rw [hchannel]
  have hcr : next.tcr = start.tcr := by
    simp only [next]
    rw [hchannel]
  constructor
  · rw [← hlap.start_pin]
    exact pin_congr hcora hcorb hselect
  · exact restarts_congr (hcr.trans htcr) (hcora.trans htcora)
      (hcorb.trans htcorb)

end T8Lap

/-- The loop adds a wave of the ticks it counts. -/
theorem t8Loop_grows {shift : ℕ} (hshift : shift ≤ 10) (fuel : ℕ) :
    ∀ (n : ℕ) (channel : T8Channel) (sound : List (Byte × ℕ)), n < fuel →
      ∃ tail, wave (t8Loop shift fuel n (channel, sound)).2 =
          wave sound ++ tail ∧ tail.length = n * 2 ^ shift := by
  induction fuel with
  | zero => exact fun n _ _ hfuel => absurd hfuel (Nat.not_lt_zero n)
  | succ fuel ih =>
      intro n channel sound hfuel
      by_cases hzero : n = 0
      · refine ⟨[], ?_, by simp [hzero]⟩
        rw [hzero, List.append_nil]
        rfl
      obtain ⟨k, start, hlap⟩ := t8Loop_lap shift fuel
        (Nat.pos_of_ne_zero hzero) channel sound
      obtain ⟨-, hwave⟩ := hlap.counted hshift
      have hpos := hlap.pos
      have hle := hlap.le
      have hlength : (stretch (2 ^ shift)
          ((List.range' channel.tcnt.toNat k).map
            (channel.pin.bulkLevel channel.tcnt.toNat channel.out))).length =
          k * 2 ^ shift := by
        rw [length_stretch, List.length_map, List.length_range']
      rcases hlap.next with ⟨-, hnext⟩ | ⟨rfl, -, -, hnext⟩
      · obtain ⟨tail, htail, htailLength⟩ := ih (n - k)
          { (t8IncrTcnt start k shift sound).1 with tcnt := 0 }
          (t8IncrTcnt start k shift sound).2 (by omega)
        rw [hnext, htail, hwave, List.append_assoc]
        refine ⟨_, rfl, ?_⟩
        rw [List.length_append, hlength, htailLength, ← Nat.add_mul,
          Nat.add_sub_cancel' hle]
      · rw [hnext, hwave]
        exact ⟨_, rfl, hlength⟩

/-- The loop shows the levels of its ticks exactly if it starts with their
level and no tick is disturbed. -/
theorem t8Loop_pin_iff {shift : ℕ} (hshift : shift ≤ 10) (fuel : ℕ) :
    ∀ (n : ℕ) (channel : T8Channel) (sound : List (Byte × ℕ)) (o : Byte),
      n < fuel →
      let start : PinState Byte := ⟨channel.tcnt.toNat, o, false⟩
      let tick := channel.pin.tick channel.restarts
      let result := t8Loop shift fuel n (channel, sound)
      (wave result.2 = wave sound ++ stretch (2 ^ shift)
            (channel.pin.levels channel.restarts n start) ∧
          result.1.out = (tick^[n] start).level) ↔
        (channel.out = o ∧ ∀ i < n, ¬channel.pin.Disturbed (tick^[i] start)) := by
  induction fuel with
  | zero => exact fun n _ _ _ hfuel => absurd hfuel (Nat.not_lt_zero n)
  | succ fuel ih =>
      intro n channel sound o hfuel start tick result
      by_cases hzero : n = 0
      · subst hzero
        have hresult : result = (channel, sound) := rfl
        rw [hresult]
        simp [Pin.levels, stretch, start]
      obtain ⟨k, first, hlap⟩ := t8Loop_lap shift fuel
        (Nat.pos_of_ne_zero hzero) channel sound
      obtain ⟨hout, hwave⟩ := hlap.counted hshift
      have hpos := hlap.pos
      have hle := hlap.le
      obtain ⟨c, hc⟩ : ∃ c, c = channel.tcnt.toNat := ⟨_, rfl⟩
      rw [← hc] at hout hwave
      obtain ⟨lap, hlapDef⟩ : ∃ lap, lap = (List.range' c k).map
        (channel.pin.bulkLevel c channel.out) := ⟨_, rfl⟩
      rw [← hlapDef] at hwave
      have hlapLength : lap.length = k := by
        rw [hlapDef, List.length_map, List.length_range']
      have hquiet := hlap.quiet
      rw [← hc] at hquiet
      -- the lap can only be right if it starts with the level of the ticks
      have hstart : lap = channel.pin.levels channel.restarts k start →
          channel.out = o := by
        intro hsame
        obtain ⟨k', rfl⟩ : ∃ k', k = k' + 1 := ⟨k - 1, by omega⟩
        rw [hlapDef, List.range'_succ, List.map_cons, Pin.levels,
          Pin.bulkLevel_start] at hsame
        exact (List.cons.inj hsame).1
      have hlapIff : channel.out = o →
          ((lap = channel.pin.levels channel.restarts k start ∧
            channel.pin.bulkLevel c channel.out (c + k) =
              channel.pin.tickLevel c o (c + k)) ↔
          ∀ i < k, ¬channel.pin.Disturbed (tick^[i] start)) := by
        rintro rfl
        rw [hlapDef]
        simp only [start, ← hc]
        exact Pin.lap_eq_iff channel.out hquiet
      rcases hlap.next with ⟨hrestart, hnext⟩ | ⟨rfl, hend, hfinal, hnext⟩
      · obtain ⟨m, rfl⟩ : ∃ m, n = k + m := ⟨n - k, by omega⟩
        rw [Nat.add_sub_cancel_left] at hnext
        obtain ⟨hpin, hrestarts⟩ := hlap.next_pin
        obtain ⟨next, hnextDef⟩ : ∃ next, next =
          { (t8IncrTcnt first k shift sound).1 with tcnt := 0 } := ⟨_, rfl⟩
        rw [← hnextDef] at hnext
        simp only [← hnextDef] at hpin hrestarts
        have hnextOut : next.out =
            channel.pin.bulkLevel c channel.out (c + k) := by
          rw [← hout, hnextDef]
        have hnextCount : next.tcnt.toNat = 0 := by
          rw [hnextDef]
          rfl
        have hbehind : tick^[k] start =
            ⟨0, channel.pin.tickLevel c o (c + k), false⟩ := by
          obtain ⟨k', rfl⟩ : ∃ k', k = k' + 1 := ⟨k - 1, by omega⟩
          simp only [tick, start, ← hc]
          rw [Nat.add_sub_cancel, ← hc] at hrestart
          exact Pin.iterate_tick_restart o
            (fun p hlow hhigh => hquiet p hlow (by omega)) hrestart
        have hrest := ih m next (t8IncrTcnt first k shift sound).2
          (channel.pin.tickLevel c o (c + k)) (by omega)
        obtain ⟨tail, htail, -⟩ := t8Loop_grows hshift fuel m next
          (t8IncrTcnt first k shift sound).2 (by omega)
        simp only [hpin, hrestarts, hnextCount, hnextOut, htail,
          List.append_cancel_left_eq, ← hbehind] at hrest
        have hresult : result = _ := hnext
        rw [hresult, htail, hwave, Pin.levels_add, stretch_append,
          List.append_assoc, List.append_cancel_left_eq,
          append_stretch_iff (Nat.two_pow_pos shift)
            (hlapLength.trans (Pin.length_levels ..).symm), and_assoc,
          Nat.add_comm k m, Function.iterate_add_apply, hrest,
          ← Nat.add_comm k m]
        constructor
        · rintro ⟨hlapSame, hlevel, hcalm⟩
          have hsame := hstart hlapSame
          refine ⟨hsame, fun i hi => ?_⟩
          rcases Nat.lt_or_ge i k with hless | hge
          · exact (hlapIff hsame).mp ⟨hlapSame, hlevel⟩ i hless
          · have hcalm := hcalm (i - k) (by omega)
            rw [← Function.iterate_add_apply, Nat.sub_add_cancel hge] at hcalm
            exact hcalm
        · rintro ⟨hsame, hcalm⟩
          obtain ⟨hlapSame, hlevel⟩ := (hlapIff hsame).mpr
            fun i hi => hcalm i (by omega)
          refine ⟨hlapSame, hlevel, fun i hi => ?_⟩
          rw [← Function.iterate_add_apply]
          exact hcalm (i + k) (by omega)
      · have hresult : result.2 = _ := hnext
        have hlevel : (tick^[k] start).level =
            channel.pin.tickLevel c o (c + k) := by
          simp only [tick, start, ← hc]
          rw [Pin.iterate_tick_lap o]
          intro p hlow hhigh
          rcases Nat.lt_or_ge (p + 1) (c + k) with hless | hge
          · exact hquiet p hlow hless
          · rw [← hc] at hend
            rwa [show p = c + (k - 1) by omega]
        have hresultOut : result.1.out = _ := hfinal.trans hout
        rw [hresult, hwave, List.append_cancel_left_eq,
          stretch_inj (Nat.two_pow_pos shift), hresultOut, hlevel]
        constructor
        · rintro ⟨hlapSame, hlast⟩
          have hsame := hstart hlapSame
          exact ⟨hsame, (hlapIff hsame).mp ⟨hlapSame, hlast⟩⟩
        · rintro ⟨hsame, hcalm⟩
          exact (hlapIff hsame).mpr hcalm

/-! ## One update or one for every tick -/

/-- The cycle of a tick. -/
def Timer8.tickClock (clock : Clock) (timer : Timer8) (i : ℕ) : Clock :=
  { clock with cycles := timer.ch0.lastCycles + i * 2 ^ timer.shift }

/-- One update over `n` ticks. -/
def Timer8.atOnce (clock : Clock) (timer : Timer8) (n : ℕ) : Timer8 :=
  (t8Force0 (timer.tickClock clock n) timer).1

/-- An update after every single tick. -/
def Timer8.tickwise (clock : Clock) (timer : Timer8) : ℕ → Timer8
  | 0 => timer
  | n + 1 => (t8Force0 (timer.tickClock clock (n + 1))
      (tickwise clock timer n)).1

/-- The pin and its wave do not depend on how the ticks are batched. -/
def Timer8.BatchedAlike (clock : Clock) (timer : Timer8) (n : ℕ) : Prop :=
  (timer.atOnce clock n).ch0.out = (timer.tickwise clock n).ch0.out ∧
    wave (timer.atOnce clock n).sound = wave (timer.tickwise clock n).sound

/-- The pin of channel 0 after a number of ticks. -/
def Timer8.pinAfter (timer : Timer8) (i : ℕ) : PinState Byte :=
  (timer.ch0.pin.tick timer.ch0.restarts)^[i]
    ⟨timer.ch0.tcnt.toNat, timer.ch0.out, false⟩

@[simp] theorem t8CheckNextCycle_sound (timer : Timer8) (clock : Clock) :
    (t8CheckNextCycle timer clock).1.sound = timer.sound := by
  simp only [t8CheckNextCycle]
  split_ifs <;> rfl

@[simp] theorem t8CheckNextCycle_out (timer : Timer8) (clock : Clock) :
    (t8CheckNextCycle timer clock).1.ch0.out = timer.ch0.out := by
  simp only [t8CheckNextCycle]
  split_ifs <;> rfl

/-- The channel that the loop of a forced update starts with. -/
def T8Channel.forcedAt (cycles : ℕ) (channel : T8Channel) : T8Channel :=
  { channel with lastCycles := cycles, myNextCycle := cycles }

/-- A forced update at a tick runs the loop over all ticks since the last
one. -/
theorem t8Force0_loop {clock : Clock} {timer : Timer8}
    (hrunning : timer.shift ≠ 31) {n : ℕ}
    (hcycles : clock.cycles = timer.ch0.lastCycles + n * 2 ^ timer.shift)
    (hbound : n * 2 ^ timer.shift < 2 ^ 31) :
    let counted := t8Loop timer.shift (n + 1) n
      (timer.ch0.forcedAt clock.cycles, timer.sound)
    (t8Force0 clock timer).1.core =
        { timer with ch0 := counted.1, sound := counted.2 }.core ∧
      (t8Force0 clock timer).1.ch0.out = counted.1.out ∧
      (t8Force0 clock timer).1.sound = counted.2 := by
  intro counted
  obtain ⟨forced, hforced⟩ : ∃ forced : Timer8, forced =
    { timer with ch0 := { timer.ch0 with myNextCycle := clock.cycles } } :=
      ⟨_, rfl⟩
  have hshift : forced.shift = timer.shift := by
    rw [hforced]
    rfl
  have hlast : forced.ch0.lastCycles = timer.ch0.lastCycles := by
    rw [hforced]
  have hgate : forced.ch0.myNextCycle ≤ clock.cycles := by
    rw [hforced]
  have hdue : forced.due clock.cycles = n := by
    change (clock.cycles - forced.ch0.lastCycles) / 2 ^ forced.shift = n
    rw [hlast, hshift, hcycles, Nat.add_sub_cancel_left,
      Nat.mul_div_cancel _ (Nat.two_pow_pos _)]
  have hcount : t8Count clock.cycles forced =
      { timer with ch0 := counted.1, sound := counted.2 } := by
    rw [t8Count_eq_loop (hshift ▸ hrunning) (by omega) (by omega) hgate,
      hdue, hshift, hlast, ← hcycles, hforced]
    rfl
  rw [t8Force0, t8UpdateTime, t8CheckNextCycle_core, t8CheckNextCycle_out,
    t8CheckNextCycle_sound, ← hforced, hcount]
  exact ⟨rfl, rfl, rfl⟩

/-- What an update after a single tick leaves: the registers one tick
further. -/
structure T8Ticked (timer : Timer8) (i : ℕ) (result : Timer8) : Prop where
  shift : result.shift = timer.shift
  last : result.ch0.lastCycles = timer.ch0.lastCycles + i * 2 ^ timer.shift
  pin : result.ch0.pin = timer.ch0.pin
  restarts : result.ch0.restarts = timer.ch0.restarts
  count : result.ch0.tcnt.toNat = (timer.pinAfter i).count
  level : result.ch0.out = (timer.pinAfter i).level
  sounds : wave result.sound = wave timer.sound ++ stretch (2 ^ timer.shift)
    (timer.ch0.pin.levels timer.ch0.restarts i
      ⟨timer.ch0.tcnt.toNat, timer.ch0.out, false⟩)

theorem T8Ticked.zero (timer : Timer8) : T8Ticked timer 0 timer where
  shift := rfl
  last := by rw [zero_mul, add_zero]
  pin := rfl
  restarts := rfl
  count := rfl
  level := rfl
  sounds := by simp [Pin.levels, stretch]

theorem t8Counter_tick_fst (channel : T8Channel) (count : ℕ) (tcsr : Byte) :
    (channel.counter.tick (count, tcsr)).1 =
      if channel.restarts count then 0 else count + 1 := by
  rw [CompareCounter.tick, T8Channel.restarts]
  simp only
  by_cases hclear : channel.counter.clearAt = some count
  · rw [if_pos hclear, decide_eq_true hclear]
    rfl
  · rw [if_neg hclear, decide_eq_false hclear, Bool.false_or]
    simp only [decide_eq_true_eq]
    split_ifs with h₁ h₂ h₂
    · rfl
    · exact absurd h₁ h₂
    · exact absurd h₂ h₁
    · rfl

theorem T8Ticked.succ {timer result : Timer8} {i : ℕ} {clock : Clock}
    (hticked : T8Ticked timer i result) (hrunning : timer.shift ≠ 31)
    (hcycles : clock.cycles =
      timer.ch0.lastCycles + (i + 1) * 2 ^ timer.shift) :
    T8Ticked timer (i + 1) (t8Force0 clock result).1 := by
  have hrunning' : result.shift ≠ 31 := by
    rw [hticked.shift]
    exact hrunning
  have hshift : result.shift ≤ 10 := (T8Core.shift_le
    (show result.core.shift ≠ 31 from hrunning')).2
  have hpow : 2 ^ result.shift ≤ 2 ^ 10 :=
    Nat.pow_le_pow_right (by omega) hshift
  have hnow : clock.cycles =
      result.ch0.lastCycles + 1 * 2 ^ result.shift := by
    rw [hticked.last, hticked.shift, hcycles, Nat.succ_mul]
    omega
  obtain ⟨hcore, hout, hsound⟩ := t8Force0_loop hrunning' hnow (by omega)
  have hcounted := t8Loop_counted result.shift (1 + 1) 1
    (result.ch0.forcedAt clock.cycles) result.sound (by omega) (by omega)
  obtain ⟨hwave, hlevel⟩ := (t8Loop_pin_iff hshift (1 + 1) 1
    (result.ch0.forcedAt clock.cycles) result.sound result.ch0.out
    (by omega)).mpr ⟨rfl, by
      intro i hi
      obtain rfl : i = 0 := by omega
      rintro ⟨hpassed, -⟩
      cases hpassed⟩
  generalize t8Loop result.shift (1 + 1) (1 : ℕ)
    (result.ch0.forcedAt clock.cycles, result.sound) = counted
    at hcore hout hsound hcounted hwave hlevel
  have htcr : (t8Force0 clock result).1.ch0.tcr = result.ch0.tcr :=
    (congrArg T8Core.tcr hcore).trans hcounted.tcr
  have htcora : (t8Force0 clock result).1.ch0.tcora = result.ch0.tcora :=
    (congrArg T8Core.tcora hcore).trans hcounted.tcora
  have htcorb : (t8Force0 clock result).1.ch0.tcorb = result.ch0.tcorb :=
    (congrArg T8Core.tcorb hcore).trans hcounted.tcorb
  have hstcr : (t8Force0 clock result).1.stcr = result.stcr :=
    congrArg T8Core.stcr hcore
  have hcount : (t8Force0 clock result).1.ch0.count =
      result.ch0.counter.tick result.ch0.count :=
    (congrArg (fun core : T8Core => (core.tcnt.toNat, core.tcsr))
      hcore).trans hcounted.count
  have hselect : (t8Force0 clock result).1.ch0.tcsr &&& 0x0f =
      result.ch0.tcsr &&& 0x0f := by
    have hand := CompareCounter.iterate_tick_and
      (show result.ch0.counter.flagA &&& 0x0f = 0 from
        (by decide : CMFA &&& 0x0f = 0))
      (show result.ch0.counter.flagB &&& 0x0f = 0 from
        (by decide : CMFB &&& 0x0f = 0))
      (show result.ch0.counter.overflow &&& 0x0f = 0 from
        (by decide : OVF &&& 0x0f = 0))
      result.ch0.count 1
    rw [Function.iterate_one, ← hcount] at hand
    exact hand
  have hnext : timer.pinAfter (i + 1) =
      timer.ch0.pin.tick timer.ch0.restarts (timer.pinAfter i) :=
    Function.iterate_succ_apply' ..
  refine ⟨?_, ?_, ?_, ?_, ?_, ?_, ?_⟩
  · rw [← hticked.shift]
    simp only [Timer8.shift, htcr, hstcr]
  · rw [← hcycles]
    exact (congrArg T8Core.last hcore).trans hcounted.lastCycles
  · rw [← hticked.pin]
    exact pin_congr htcora htcorb hselect
  · rw [← hticked.restarts]
    exact restarts_congr htcr htcora htcorb
  · rw [hnext, Pin.tick]
    simp only
    rw [← hticked.count, ← hticked.restarts, ← t8Counter_tick_fst]
    exact congrArg Prod.fst hcount
  · have hleave : counted.1.out =
        result.ch0.pin.leave result.ch0.tcnt.toNat result.ch0.out := hlevel
    rw [hout, hleave, hnext, hticked.pin, hticked.count, hticked.level]
    rfl
  · have hone : wave counted.2 =
        wave result.sound ++ stretch (2 ^ result.shift) [result.ch0.out] :=
      hwave
    have hlast : timer.ch0.pin.levels timer.ch0.restarts 1
        (timer.pinAfter i) = [(timer.pinAfter i).level] := rfl
    rw [hsound, hone, hticked.sounds, hticked.shift, hticked.level,
      Pin.levels_add, stretch_append, List.append_assoc]
    exact congrArg _ (congrArg _ (congrArg _ hlast.symm))

theorem tickwise_ticked (clock : Clock) {timer : Timer8}
    (hrunning : timer.shift ≠ 31) (n : ℕ) :
    T8Ticked timer n (timer.tickwise clock n) := by
  induction n with
  | zero => exact T8Ticked.zero timer
  | succ n ih => exact ih.succ hrunning rfl

/-- For all registers and all numbers of ticks: the level of the pin and its
wave are those of single ticks exactly if no tick is disturbed. -/
theorem batchedAlike_iff (clock : Clock) {timer : Timer8}
    (hrunning : timer.shift ≠ 31) {n : ℕ}
    (hbound : n * 2 ^ timer.shift < 2 ^ 31) :
    timer.BatchedAlike clock n ↔
      ∀ i < n, ¬timer.ch0.pin.Disturbed (timer.pinAfter i) := by
  have hshift : timer.shift ≤ 10 := (T8Core.shift_le
    (show timer.core.shift ≠ 31 from hrunning)).2
  have hticked := tickwise_ticked clock hrunning n
  have hcycles : (timer.tickClock clock n).cycles =
      timer.ch0.lastCycles + n * 2 ^ timer.shift := rfl
  obtain ⟨-, hout, hsound⟩ := t8Force0_loop hrunning hcycles hbound
  have hiff := t8Loop_pin_iff hshift (n + 1) n
    (timer.ch0.forcedAt (timer.tickClock clock n).cycles) timer.sound
    timer.ch0.out (Nat.lt_succ_self n)
  rw [Timer8.BatchedAlike, Timer8.atOnce, hout, hsound, hticked.level,
    hticked.sounds, and_comm]
  exact hiff.trans ⟨fun h => h.2, fun h => ⟨rfl, h⟩⟩

/-- A channel that sets its pin behind 1 and clears it behind 3. -/
def pulseTimer : Timer8 where
  ch0 :=
    { tcnt := 0, tcr := 0x01, tcsr := 0x16, tcora := 1, tcorb := 3, out := 0,
      lastCycles := 0, myNextCycle := 0 }
  ch1 :=
    { tcnt := 0, tcr := 0, tcsr := 0x10, tcora := 0xff, tcorb := 0xff, out := 0,
      lastCycles := 0, myNextCycle := 0 }
  stcr := 0xf8
  sound := []

theorem batchedAlike_pulse :
    pulseTimer.BatchedAlike ⟨0, 1600000, 1600000⟩ 4 ↔
      ∀ i < 4, ¬pulseTimer.ch0.pin.Disturbed (pulseTimer.pinAfter i) :=
  batchedAlike_iff _ (by decide) (by decide)

/-- One update over four ticks leaves the pin set, four updates clear it. -/
theorem batchedAlike_fails_pulse :
    ¬pulseTimer.BatchedAlike ⟨0, 1600000, 1600000⟩ 4 := by
  rintro ⟨hout, -⟩
  revert hout
  decide +kernel

end BrickEmu
