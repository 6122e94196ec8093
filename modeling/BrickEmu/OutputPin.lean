import Mathlib.Tactic

/-!
# Output pins of compare counters

A counter that leaves one of two compare values changes the level of a pin.
A lap is a stretch in which the counter does not restart.  `tickLevel` is the
level in a lap that is counted tick by tick.  `bulkLevel` is the level where
the lap is counted at once and the position is not moved past the first value
before the second one is looked for: the second change comes one tick late.
-/

namespace BrickEmu

/-- Two compare values and the changes of the level behind them. -/
structure Pin (α : Type*) where
  first : ℕ
  second : ℕ
  ordered : first ≤ second
  atFirst : α → α
  atSecond : α → α

/-- A position of the counter, the level there, and whether the counter left
the first value in this lap. -/
structure PinState (α : Type*) where
  count : ℕ
  level : α
  passed : Bool

namespace Pin

variable {α : Type*} (pin : Pin α)

def leave (count : ℕ) (level : α) : α :=
  if count = pin.first then pin.atFirst level
  else if count = pin.second then pin.atSecond level
  else level

/-- One tick of a counter that restarts behind the given values. -/
def tick (restart : ℕ → Bool) (state : PinState α) : PinState α where
  count := if restart state.count then 0 else state.count + 1
  level := pin.leave state.count state.level
  passed := !restart state.count &&
    (state.passed || decide (state.count = pin.first))

/-- The levels during a number of ticks. -/
def levels (restart : ℕ → Bool) : ℕ → PinState α → List α
  | 0, _ => []
  | n + 1, state => state.level :: levels restart n (pin.tick restart state)

/-- The tick at which the late second change shows. -/
def Disturbed (state : PinState α) : Prop :=
  state.passed = true ∧ state.count = max pin.second (pin.first + 1) ∧
    pin.atSecond state.level ≠ state.level

/-- The level at position `p` of a lap from `c` with level `o`. -/
def tickLevel (c : ℕ) (o : α) (p : ℕ) : α :=
  if c ≤ pin.first ∧ pin.first < p then
    if pin.first < pin.second ∧ pin.second < p then
      pin.atSecond (pin.atFirst o)
    else pin.atFirst o
  else if c ≤ pin.second ∧ pin.second < p then pin.atSecond o
  else o

def bulkLevel (c : ℕ) (o : α) (p : ℕ) : α :=
  if c ≤ pin.first ∧ pin.first < p then
    if pin.second + 1 < p then pin.atSecond (pin.atFirst o)
    else pin.atFirst o
  else if c ≤ pin.second ∧ pin.second < p then pin.atSecond o
  else o

variable {pin}

theorem tickLevel_start (c : ℕ) (o : α) : pin.tickLevel c o c = o := by
  have hordered := pin.ordered
  rw [tickLevel, if_neg (by omega), if_neg (by omega)]

theorem bulkLevel_start (c : ℕ) (o : α) : pin.bulkLevel c o c = o := by
  have hordered := pin.ordered
  rw [bulkLevel, if_neg (by omega), if_neg (by omega)]

/-- One more tick of a lap. -/
theorem leave_tickLevel {c p : ℕ} (hle : c ≤ p) (o : α) :
    pin.leave p (pin.tickLevel c o p) = pin.tickLevel c o (p + 1) := by
  have hordered := pin.ordered
  simp only [leave, tickLevel]
  split_ifs <;> first | rfl | omega

/-- A lap, tick by tick. -/
theorem iterate_tick_lap {restart : ℕ → Bool} {c : ℕ} (o : α) {n : ℕ}
    (hlap : ∀ p, c ≤ p → p < c + n → restart p = false) :
    (pin.tick restart)^[n] ⟨c, o, false⟩ =
      ⟨c + n, pin.tickLevel c o (c + n),
        decide (c ≤ pin.first ∧ pin.first < c + n)⟩ := by
  induction n with
  | zero =>
      have hnone : ¬(c ≤ pin.first ∧ pin.first < c + 0) := by omega
      rw [Function.iterate_zero_apply, add_zero, tickLevel_start,
        decide_eq_false (by omega)]
  | succ n ih =>
      have hquiet : restart (c + n) = false :=
        hlap _ (by omega) (by omega)
      have hprefix := ih fun p hlow hhigh => hlap p hlow (by omega)
      have hpassed : (decide (c ≤ pin.first ∧ pin.first < c + n) ||
          decide (c + n = pin.first)) =
            decide (c ≤ pin.first ∧ pin.first < c + (n + 1)) := by
        rw [← Bool.decide_or, decide_eq_decide]
        omega
      rw [Function.iterate_succ_apply', hprefix, tick]
      simp only [hquiet, Bool.false_eq_true, if_false, Bool.not_false,
        Bool.true_and, hpassed]
      rw [leave_tickLevel (Nat.le_add_right c n)]
      rfl

/-- A lap that ends with a restart. -/
theorem iterate_tick_restart {restart : ℕ → Bool} {c : ℕ} (o : α) {n : ℕ}
    (hlap : ∀ p, c ≤ p → p < c + n → restart p = false)
    (hrestart : restart (c + n) = true) :
    (pin.tick restart)^[n + 1] ⟨c, o, false⟩ =
      ⟨0, pin.tickLevel c o (c + (n + 1)), false⟩ := by
  rw [Function.iterate_succ_apply', iterate_tick_lap o hlap, tick]
  simp only [hrestart, if_true, Bool.not_true, Bool.false_and]
  rw [leave_tickLevel (Nat.le_add_right c n)]
  rfl

theorem levels_add (restart : ℕ → Bool) (m n : ℕ) (state : PinState α) :
    pin.levels restart (m + n) state =
      pin.levels restart m state ++
        pin.levels restart n ((pin.tick restart)^[m] state) := by
  induction m generalizing state with
  | zero => rw [Nat.zero_add]; rfl
  | succ m ih =>
      rw [Nat.succ_add, levels, levels, ih]
      rfl

theorem length_levels (restart : ℕ → Bool) (n : ℕ) (state : PinState α) :
    (pin.levels restart n state).length = n := by
  induction n generalizing state with
  | zero => rfl
  | succ n ih => rw [levels, List.length_cons, ih]

/-- The levels of a lap, also where its last tick restarts. -/
theorem levels_lap {restart : ℕ → Bool} {c : ℕ} (o : α) {n : ℕ}
    (hlap : ∀ p, c ≤ p → p + 1 < c + n → restart p = false) :
    pin.levels restart n ⟨c, o, false⟩ =
      (List.range' c n).map (pin.tickLevel c o) := by
  induction n with
  | zero => rfl
  | succ n ih =>
      have hprefix := ih fun p hlow hhigh => hlap p hlow (by omega)
      have hquiet : ∀ p, c ≤ p → p < c + n → restart p = false :=
        fun p hlow hhigh => hlap p hlow (by omega)
      have hlast : (pin.tick restart)^[n] ⟨c, o, false⟩ = _ :=
        iterate_tick_lap o hquiet
      rw [levels_add, hprefix, hlast, List.range'_concat, List.map_append]
      simp [levels]

/-- Where a lap shows the late change. -/
theorem bulkLevel_eq_iff {c k : ℕ} (o : α) :
    (∀ p, c ≤ p → p ≤ c + k →
        pin.bulkLevel c o p = pin.tickLevel c o p) ↔
      ¬(c ≤ pin.first ∧ max pin.second (pin.first + 1) < c + k ∧
        pin.atSecond (pin.atFirst o) ≠ pin.atFirst o) := by
  have hordered := pin.ordered
  constructor
  · rintro hall ⟨hfirst, hlate, hchange⟩
    by_cases hapart : pin.first < pin.second
    · rw [Nat.max_eq_left hapart] at hlate
      have hshown := hall (pin.second + 1) (by omega) (by omega)
      rw [bulkLevel, tickLevel, if_pos (by omega), if_neg (by omega),
        if_pos (by omega), if_pos (by omega)] at hshown
      exact hchange hshown.symm
    · rw [Nat.max_eq_right (by omega)] at hlate
      have hshown := hall (pin.first + 1 + 1) (by omega) (by omega)
      rw [bulkLevel, tickLevel, if_pos (by omega), if_pos (by omega),
        if_pos (by omega), if_neg (by omega)] at hshown
      exact hchange hshown
  · intro hnone p hlow hhigh
    simp only [bulkLevel, tickLevel]
    by_cases hchange : pin.atSecond (pin.atFirst o) = pin.atFirst o
    · rw [hchange]
      split_ifs <;> rfl
    · have hlate : ¬(c ≤ pin.first ∧
          max pin.second (pin.first + 1) < c + k) := by
        rintro ⟨hfirst, hlate⟩
        exact hnone ⟨hfirst, hlate, hchange⟩
      split_ifs <;> first | rfl | omega

theorem tickLevel_late {c : ℕ} (o : α) (hfirst : c ≤ pin.first) :
    pin.tickLevel c o (max pin.second (pin.first + 1)) = pin.atFirst o := by
  have hordered := pin.ordered
  have hlate : pin.first < max pin.second (pin.first + 1) := by
    rw [lt_max_iff]
    omega
  rw [tickLevel, if_pos ⟨hfirst, hlate⟩, if_neg]
  rintro ⟨hapart, hless⟩
  rw [Nat.max_eq_left hapart] at hless
  omega

section Lap

variable {restart : ℕ → Bool} {c k : ℕ} (o : α)
  (hlap : ∀ p, c ≤ p → p + 1 < c + k → restart p = false)

include hlap

theorem disturbed_in_lap_iff :
    (∀ i < k, ¬pin.Disturbed ((pin.tick restart)^[i] ⟨c, o, false⟩)) ↔
      ¬(c ≤ pin.first ∧ max pin.second (pin.first + 1) < c + k ∧
        pin.atSecond (pin.atFirst o) ≠ pin.atFirst o) := by
  have hstate : ∀ i < k, (pin.tick restart)^[i] ⟨c, o, false⟩ =
      ⟨c + i, pin.tickLevel c o (c + i),
        decide (c ≤ pin.first ∧ pin.first < c + i)⟩ := by
    intro i hi
    exact iterate_tick_lap o fun p hlow hhigh => hlap p hlow (by omega)
  have hlate : pin.first + 1 ≤ max pin.second (pin.first + 1) :=
    le_max_right _ _
  constructor
  · rintro hall ⟨hfirst, hend, hchange⟩
    obtain ⟨i, hi⟩ : ∃ i, c + i = max pin.second (pin.first + 1) :=
      ⟨max pin.second (pin.first + 1) - c, by omega⟩
    apply hall i (by omega)
    rw [hstate i (by omega), Disturbed]
    simp only [hi, tickLevel_late o hfirst, decide_eq_true_eq, true_and]
    exact ⟨⟨hfirst, by omega⟩, hchange⟩
  · intro hnone i hi hdisturbed
    rw [hstate i hi, Disturbed] at hdisturbed
    simp only [decide_eq_true_eq] at hdisturbed
    obtain ⟨⟨hfirst, _⟩, hcount, hchange⟩ := hdisturbed
    rw [hcount, tickLevel_late o hfirst] at hchange
    exact hnone ⟨hfirst, by omega, hchange⟩

/-- A lap that is counted at once shows the levels of its ticks exactly if
none of them is disturbed. -/
theorem lap_eq_iff :
    ((List.range' c k).map (pin.bulkLevel c o) =
          pin.levels restart k ⟨c, o, false⟩ ∧
        pin.bulkLevel c o (c + k) = pin.tickLevel c o (c + k)) ↔
      ∀ i < k, ¬pin.Disturbed ((pin.tick restart)^[i] ⟨c, o, false⟩) := by
  rw [disturbed_in_lap_iff o hlap, ← bulkLevel_eq_iff, levels_lap o hlap,
    List.map_inj_left]
  simp only [List.mem_range'_1]
  constructor
  · rintro ⟨hall, hend⟩ p hlow hhigh
    rcases Nat.lt_or_eq_of_le hhigh with hlt | rfl
    · exact hall p ⟨hlow, hlt⟩
    · exact hend
  · intro hall
    exact ⟨fun p hp => hall p hp.1 (by omega), hall _ (by omega) le_rfl⟩

end Lap

end Pin

/-! ## Levels for several cycles -/

section Stretch

variable {α : Type*}

/-- Every level for a number of cycles. -/
def stretch (cycles : ℕ) (levels : List α) : List α :=
  levels.flatMap fun level => List.replicate cycles level

theorem stretch_append (cycles : ℕ) (levels levels' : List α) :
    stretch cycles (levels ++ levels') =
      stretch cycles levels ++ stretch cycles levels' :=
  List.flatMap_append

theorem length_stretch (cycles : ℕ) (levels : List α) :
    (stretch cycles levels).length = levels.length * cycles := by
  induction levels with
  | nil => rw [List.length_nil, zero_mul]; rfl
  | cons level levels ih =>
      rw [stretch, List.flatMap_cons, List.length_append,
        List.length_replicate, List.length_cons, Nat.succ_mul, Nat.add_comm]
      exact congrArg (· + cycles) ih

theorem stretch_inj {cycles : ℕ} (hpos : 0 < cycles)
    {levels levels' : List α} :
    stretch cycles levels = stretch cycles levels' ↔ levels = levels' := by
  constructor
  · intro heq
    induction levels generalizing levels' with
    | nil =>
        have hlength := congrArg List.length heq
        rw [length_stretch, length_stretch, List.length_nil, zero_mul]
          at hlength
        have hzero : levels'.length = 0 := by
          rcases Nat.mul_eq_zero.mp hlength.symm with h | h
          · exact h
          · omega
        exact (List.length_eq_zero_iff.mp hzero).symm
    | cons level levels ih =>
        cases levels' with
        | nil =>
            have hlength := congrArg List.length heq
            rw [length_stretch, length_stretch, List.length_nil, zero_mul,
              List.length_cons] at hlength
            have := Nat.mul_eq_zero.mp hlength
            omega
        | cons level' levels' =>
            rw [stretch, stretch, List.flatMap_cons, List.flatMap_cons]
              at heq
            obtain ⟨hhead, htail⟩ := List.append_inj heq (by simp)
            have hlevel : level = level' := by
              have hmem : level ∈ List.replicate cycles level :=
                List.mem_replicate.mpr ⟨by omega, rfl⟩
              rw [hhead] at hmem
              exact (List.mem_replicate.mp hmem).2
            rw [hlevel, ih htail]
  · rintro rfl
    rfl

theorem append_stretch_iff {cycles : ℕ} (hpos : 0 < cycles)
    {levels levels' tail tail' : List α}
    (hlength : levels.length = levels'.length) :
    stretch cycles levels ++ tail = stretch cycles levels' ++ tail' ↔
      levels = levels' ∧ tail = tail' := by
  constructor
  · intro heq
    obtain ⟨hhead, htail⟩ := List.append_inj heq
      (by rw [length_stretch, length_stretch, hlength])
    exact ⟨(stretch_inj hpos).mp hhead, htail⟩
  · rintro ⟨rfl, rfl⟩
    rfl

theorem stretch_map_of_const {cycles c k : ℕ} {level : ℕ → α} {o : α}
    (hconst : ∀ p, c ≤ p → p < c + k → level p = o) :
    stretch cycles ((List.range' c k).map level) =
      List.replicate (k * cycles) o := by
  have hmap : (List.range' c k).map level = List.replicate k o := by
    rw [List.eq_replicate_iff]
    refine ⟨by simp, fun b hb => ?_⟩
    obtain ⟨p, hp, rfl⟩ := List.mem_map.mp hb
    rw [List.mem_range'_1] at hp
    exact hconst p hp.1 hp.2
  rw [hmap, stretch]
  clear hmap hconst
  induction k with
  | zero => simp
  | succ k ih =>
      rw [List.replicate_succ, List.flatMap_cons, ih, Nat.succ_mul,
        Nat.add_comm, List.replicate_add]

end Stretch

end BrickEmu
