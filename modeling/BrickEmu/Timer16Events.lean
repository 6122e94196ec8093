import BrickEmu.Timer16Ticks

/-!
# The next event of the 16-bit timer

`t16_check_next_cycle` looks for the earliest of the overflow and the enabled
compare matches.  Before that tick no enabled flag can become set, with one
exception: a compare match A that clears the counter without being enabled
is not considered, although the counter restarts there and may reach `ocrb`
long before it would have overflowed.
-/

namespace BrickEmu

open Timer16

/-- The counter is about to be cleared by a match A whose interrupt is not
enabled, and reaches `ocrb` after the restart before it would overflow. -/
def SilentClear (timer : Timer16) : Prop :=
  clearing timer.tcsr = true ∧ timer.tier &&& OCFA = 0 ∧
    timer.tier &&& OCFB ≠ 0 ∧ timer.ocrb < timer.frc ∧
    timer.frc ≤ timer.ocra ∧
    timer.ocra.toNat + timer.ocrb.toNat + 2 < 0x10000

instance (timer : Timer16) : Decidable (SilentClear timer) :=
  inferInstanceAs (Decidable (_ ∧ _))

namespace Timer16

theorem nextEvent_le_overflow (timer : Timer16) :
    timer.nextEvent ≤ 0x10000 - timer.frc.toNat := by
  simp only [nextEvent]
  split_ifs <;> omega

theorem nextEvent_le_matchA {timer : Timer16}
    (henabled : timer.tier &&& OCFA ≠ 0) :
    timer.nextEvent ≤ (timer.ocra + 1 - timer.frc).toNat := by
  simp only [nextEvent]
  grind

theorem nextEvent_le_matchB {timer : Timer16}
    (henabled : timer.tier &&& OCFB ≠ 0) :
    timer.nextEvent ≤ (timer.ocrb + 1 - timer.frc).toNat := by
  simp only [nextEvent]
  grind

/-- A compare value the counter leaves within `n` ticks is at most `n` away
in the 16-bit arithmetic of the deadline. -/
theorem match_distance_le {compare frc : Word} {n : ℕ}
    (hlow : frc.toNat ≤ compare.toNat)
    (hhigh : compare.toNat < frc.toNat + n) :
    (compare + 1 - frc).toNat ≤ n := by
  have hcompare := compare.isLt
  have hfrc := frc.isLt
  bv_omega

theorem enabled_or_masked (flag tier : Byte) :
    tier &&& flag ≠ 0 ∨ flag &&& (tier &&& 0xfe) = 0 := by
  by_cases hflag : tier &&& flag = 0
  · right
    rw [← BitVec.and_assoc, BitVec.and_comm flag tier, hflag]
    simp
  · exact Or.inl hflag

end Timer16

/-- Within `n` ticks of the deadline computation no enabled compare value is
left. -/
theorem t16_no_match {timer : Timer16} {n : ℕ} (hn : n < timer.nextEvent) :
    (OCFA &&& (timer.tier &&& 0xfe) = 0 ∨
        ¬(timer.frc.toNat ≤ timer.ocra.toNat ∧
          timer.ocra.toNat < timer.frc.toNat + n)) ∧
      (OCFB &&& (timer.tier &&& 0xfe) = 0 ∨
        ¬(timer.frc.toNat ≤ timer.ocrb.toNat ∧
          timer.ocrb.toNat < timer.frc.toNat + n)) := by
  constructor
  · rcases enabled_or_masked OCFA timer.tier with henabled | hmasked
    · right
      rintro ⟨hlow, hhigh⟩
      have hle := nextEvent_le_matchA henabled
      have hdistance := match_distance_le hlow hhigh
      omega
    · exact Or.inl hmasked
  · rcases enabled_or_masked OCFB timer.tier with henabled | hmasked
    · right
      rintro ⟨hlow, hhigh⟩
      have hle := nextEvent_le_matchB henabled
      have hdistance := match_distance_le hlow hhigh
      omega
    · exact Or.inl hmasked

/-- Ticks across a clearing match A that is not enabled. -/
theorem t16_clear_quiet {timer : Timer16} {n : ℕ}
    (hquiet : ¬SilentClear timer) (hn : n < timer.nextEvent)
    (hclear : clearing timer.tcsr = true)
    (hlow : timer.frc ≤ timer.ocra)
    (hhigh : timer.ocra.toNat < timer.frc.toNat + n) :
    (timer.counter.tick^[n] (timer.frc.toNat, timer.tcsr)).2 &&&
        (timer.tier &&& 0xfe) =
      timer.tcsr &&& (timer.tier &&& 0xfe) := by
  have hfrc := timer.frc.isLt
  have hocra := timer.ocra.isLt
  have hle : timer.frc.toNat ≤ timer.ocra.toNat := hlow
  obtain ⟨hnoA, hnoB⟩ := t16_no_match hn
  have hmaskA : OCFA &&& (timer.tier &&& 0xfe) = 0 :=
    hnoA.resolve_right (not_not_intro ⟨hle, hhigh⟩)
  have hvalue : timer.counter.clearAt = some timer.ocra.toNat := by
    simp only [counter, t16Counter, hclear, if_true]
  by_cases hB : OCFB &&& (timer.tier &&& 0xfe) = 0 ∨
      timer.ocra.toNat < timer.ocrb.toNat
  · exact (CompareCounter.iterate_tick_confined
      (timer.frc.toNat, timer.tcsr) hvalue hle
      (by change timer.ocra.toNat ≤ 0xffff; omega) (Or.inl hmaskA) hB n).2
  · rw [not_or, not_lt] at hB
    have henabled : timer.tier &&& OCFB ≠ 0 :=
      (enabled_or_masked OCFB timer.tier).resolve_right hB.1
    have hbelow : timer.ocrb.toNat < timer.frc.toNat := by
      have := hnoB.resolve_left hB.1
      omega
    have hsum : 0x10000 ≤ timer.ocra.toNat + timer.ocrb.toNat + 2 := by
      by_contra hlt
      refine hquiet ⟨hclear, ?_, henabled, hbelow, hlow, by omega⟩
      have := hmaskA
      revert this
      generalize timer.tier = tier
      revert tier
      decide
    have hbound := nextEvent_le_overflow timer
    set rest := n - (timer.ocra.toNat - timer.frc.toNat + 1) with hrest
    have hsplit : n = rest + (timer.ocra.toNat - timer.frc.toNat + 1) := by
      omega
    rw [hsplit, Function.iterate_add_apply,
      CompareCounter.iterate_tick_clear timer.tcsr hvalue hle
        (by change timer.ocra.toNat ≤ 0xffff; omega),
      CompareCounter.iterate_tick_linear _ rest
        (by change 0 + rest ≤ 0xffff; omega)]
    · change timer.counter.marks 0 (0 + rest)
        (timer.counter.marks timer.frc.toNat (timer.ocra.toNat + 1)
          timer.tcsr) &&& _ = _
      rw [CompareCounter.marks_and _ (Or.inl hmaskA) (Or.inr ?_),
        CompareCounter.marks_and _ (Or.inl hmaskA) (Or.inr ?_)]
      · change ¬(timer.frc.toNat ≤ timer.ocrb.toNat ∧ _)
        omega
      · change ¬(_ ∧ timer.ocrb.toNat < 0 + rest)
        omega
    · intro value hother
      rw [hvalue, Option.some.injEq] at hother
      omega

/-- Before the next event no enabled flag becomes set. -/
theorem t16_quiet_before_event {timer : Timer16} {n : ℕ}
    (hquiet : ¬SilentClear timer) (hn : n < timer.nextEvent) :
    (timer.counter.tick^[n] (timer.frc.toNat, timer.tcsr)).2 &&&
        (timer.tier &&& 0xfe) =
      timer.tcsr &&& (timer.tier &&& 0xfe) := by
  have hfrc := timer.frc.isLt
  have hbound := nextEvent_le_overflow timer
  by_cases hclear : clearing timer.tcsr = true ∧
      timer.frc ≤ timer.ocra ∧ timer.ocra.toNat < timer.frc.toNat + n
  · exact t16_clear_quiet hquiet hn hclear.1 hclear.2.1 hclear.2.2
  · obtain ⟨hnoA, hnoB⟩ := t16_no_match hn
    rw [CompareCounter.iterate_tick_linear timer.tcsr n
      (by change timer.frc.toNat + n ≤ 0xffff; omega)]
    · exact CompareCounter.marks_and _ hnoA hnoB
    · intro value hvalue hrange
      simp only [counter, t16Counter] at hvalue
      split_ifs at hvalue with hmode
      rw [Option.some.injEq] at hvalue
      exact hclear ⟨hmode, by rw [BitVec.le_def]; omega, by omega⟩

end BrickEmu
