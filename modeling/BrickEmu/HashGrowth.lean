import BrickEmu.HashEntries

/-!
# How far a hash table grows

Only the initial size and the number of entries created decide when a table
grows.  The size doubles until it is `2 ^ 30` or more, and the next growth
stops the program, because `hash_grow` keeps the new size in an `int`.  The
comparison in `hash_create` is made modulo `2 ^ 32`, so behind `2 ^ 30` the
table counts as full early; only from a power of two less one on does it
happen to last until the count has wrapped around.
-/

namespace BrickEmu

namespace Hash

/-- The last size below `2 ^ 30` that doubling reaches. -/
def lastSize (size : ℕ) : ℕ :=
  2 ^ Nat.log 2 (2 ^ 30 / (size + 1)) * (size + 1) - 1

/-- How many entries can be created in a table of the given initial size. -/
def creationLimit (size : ℕ) : ℕ :=
  if 2 ^ 30 ≤ size then (4 * size - 2 ^ 32) / 5 + 1
  else if lastSize size = 2 ^ 30 - 1 then 1717986918
  else 4 * lastSize size / 5 + 2

section LastSize

variable {size i : ℕ}

theorem lastSize_eq (hlow : 2 ^ i * (size + 1) ≤ 2 ^ 30)
    (hhigh : 2 ^ 30 < 2 ^ (i + 1) * (size + 1)) :
    lastSize size = 2 ^ i * (size + 1) - 1 := by
  have hlog : Nat.log 2 (2 ^ 30 / (size + 1)) = i := by
    apply Nat.log_eq_of_pow_le_of_lt_pow
    · exact (Nat.le_div_iff_mul_le (Nat.succ_pos size)).mpr hlow
    · exact (Nat.div_lt_iff_lt_mul (Nat.succ_pos size)).mpr hhigh
  rw [lastSize, hlog]

theorem le_lastSize (hlow : 2 ^ i * (size + 1) ≤ 2 ^ 30) :
    2 ^ i * (size + 1) ≤ lastSize size + 1 := by
  have hpow : 2 ^ i ≤ 2 ^ 30 / (size + 1) :=
    (Nat.le_div_iff_mul_le (Nat.succ_pos size)).mpr hlow
  have hlog : i ≤ Nat.log 2 (2 ^ 30 / (size + 1)) :=
    Nat.le_log_of_pow_le one_lt_two hpow
  have hmul : 2 ^ i * (size + 1) ≤
      2 ^ Nat.log 2 (2 ^ 30 / (size + 1)) * (size + 1) :=
    Nat.mul_le_mul_right _ (Nat.pow_le_pow_right two_pos hlog)
  rw [lastSize]
  omega

end LastSize

variable {α : Type*} {hash : Hash α} {size n : ℕ}

section Create

theorem foldl_push_size (bs : List (ℕ × α)) (start : Hash α) :
    (bs.foldl (fun hash bucket => hash.push bucket.1 bucket.2) start).size =
      start.size := by
  induction bs generalizing start with
  | nil => rfl
  | cons b bs ih => exact ih (start.push b.1 b.2)

theorem foldl_push_crashed (bs : List (ℕ × α)) (start : Hash α) :
    (bs.foldl (fun hash bucket => hash.push bucket.1 bucket.2)
      start).crashed = start.crashed := by
  induction bs generalizing start with
  | nil => rfl
  | cons b bs ih => exact ih (start.push b.1 b.2)

theorem foldl_push_elems (bs : List (ℕ × α)) (start : Hash α) :
    (bs.foldl (fun hash bucket => hash.push bucket.1 bucket.2) start).elems =
      start.elems := by
  induction bs generalizing start with
  | nil => rfl
  | cons b bs ih => exact ih (start.push b.1 b.2)

theorem hashGrow_size (hash : Hash α) :
    (hashGrow hash).size = uint32 (int32 (2 * hash.size + 1)) := by
  rw [hashGrow, foldl_push_size]

theorem hashGrow_elems (hash : Hash α) :
    (hashGrow hash).elems = hash.elems := by
  rw [hashGrow, foldl_push_elems]

theorem hashGrow_crashed (hash : Hash α) :
    (hashGrow hash).crashed =
      (hash.crashed || decide (int32 (2 * hash.size + 1) < 0)) := by
  rw [hashGrow, foldl_push_crashed]

theorem create_of_full (hfull : hash.Full) (key : ℕ) (elem : α) :
    hashCreate hash key elem =
      Hash.push { hashGrow hash with elems := (hash.elems + 1) % 2 ^ 32 }
        key elem := by
  unfold Full at hfull
  simp only [hashCreate, if_pos hfull, hashGrow_elems]

theorem create_of_not_full (hfull : ¬hash.Full) (key : ℕ) (elem : α) :
    hashCreate hash key elem =
      Hash.push { hash with elems := (hash.elems + 1) % 2 ^ 32 }
        key elem := by
  unfold Full at hfull
  simp only [hashCreate, if_neg hfull]

theorem create_elems (hash : Hash α) (key : ℕ) (elem : α) :
    (hashCreate hash key elem).elems = (hash.elems + 1) % 2 ^ 32 := by
  by_cases hfull : hash.Full
  · rw [create_of_full hfull]
    rfl
  · rw [create_of_not_full hfull]
    rfl

end Create

theorem full_iff (hsize : hash.size < 2 ^ 30) (helems : hash.elems * 5 < 2 ^ 32) :
    hash.Full ↔ hash.size * 4 < hash.elems * 5 := by
  rw [Full, Nat.mod_eq_of_lt (by omega), Nat.mod_eq_of_lt helems]

theorem full_iff_of_le (hsize : 2 ^ 30 ≤ hash.size)
    (hint : hash.size < 2 ^ 31) :
    hash.Full ↔ hash.size * 4 - 2 ^ 32 < hash.elems * 5 % 2 ^ 32 := by
  have hmod : hash.size * 4 % 2 ^ 32 = hash.size * 4 - 2 ^ 32 := by
    omega
  rw [Full, hmod]

/-- How far a table with the given initial size has come after `n` entries. -/
inductive Stage (size n : ℕ) (hash : Hash α) : Prop where
  /-- Still below `2 ^ 30`, and the last entry but one was not too many. -/
  | doubling (i : ℕ) (sized : hash.size + 1 = 2 ^ i * (size + 1))
      (small : hash.size < 2 ^ 30) (count : 5 * n ≤ 4 * hash.size + 5)
      (elems : hash.elems = n) (crashed : hash.crashed = false)
  /-- The initial size is already beyond. -/
  | started (sized : hash.size = size) (large : 2 ^ 30 ≤ size)
      (count : n ≤ creationLimit size) (elems : hash.elems = n)
      (crashed : hash.crashed = false)
  /-- The last doubling that an `int` can hold has been made. -/
  | doubled (sized : hash.size = 2 * lastSize size + 1)
      (last : lastSize size < 2 ^ 30) (large : 2 ^ 30 ≤ hash.size)
      (small : size < 2 ^ 30) (entered : 4 * lastSize size / 5 + 2 ≤ n)
      (count : n ≤ creationLimit size) (elems : hash.elems = n)
      (crashed : hash.crashed = false)
  | stopped (count : creationLimit size < n) (crashed : hash.crashed = true)

namespace Stage

theorem init (size : ℕ) : Stage size 0 (hashInit size : Hash α) := by
  by_cases hlarge : 2 ^ 30 ≤ size
  · exact started rfl hlarge (Nat.zero_le _) rfl rfl
  · exact doubling 0 (by simp [hashInit]) (by simpa [hashInit] using hlarge)
      (by omega) rfl rfl

/-- The program goes on exactly up to the limit. -/
theorem crashed_iff (h : Stage size n hash) :
    hash.crashed = false ↔ n ≤ creationLimit size := by
  cases h with
  | doubling i sized small count elems crashed =>
      have hle := @le_lastSize size i (by omega)
      have hpow : 1 * (size + 1) ≤ 2 ^ i * (size + 1) :=
        Nat.mul_le_mul_right _ Nat.one_le_two_pow
      have hlimit : n ≤ creationLimit size := by
        unfold creationLimit
        split_ifs <;> omega
      exact ⟨fun _ => hlimit, fun _ => crashed⟩
  | started sized large count elems crashed =>
      exact ⟨fun _ => count, fun _ => crashed⟩
  | doubled sized last large small entered count elems crashed =>
      exact ⟨fun _ => count, fun _ => crashed⟩
  | stopped count crashed =>
      rw [crashed]
      exact ⟨fun h => absurd h (by decide), fun h => absurd h (by omega)⟩

theorem keep (h : Stage size n hash) {other : Hash α}
    (hsize : other.size = hash.size) (helems : other.elems = hash.elems)
    (hcrashed : other.crashed = hash.crashed) : Stage size n other := by
  cases h with
  | doubling i sized small count elems crashed =>
      exact doubling i (by rw [hsize, sized]) (by rwa [hsize])
        (by rwa [hsize]) (by rw [helems, elems]) (by rw [hcrashed, crashed])
  | started sized large count elems crashed =>
      exact started (by rw [hsize, sized]) large count
        (by rw [helems, elems]) (by rw [hcrashed, crashed])
  | doubled sized last large small entered count elems crashed =>
      exact doubled (by rw [hsize, sized]) last (by rwa [hsize]) small
        entered count (by rw [helems, elems]) (by rw [hcrashed, crashed])
  | stopped count crashed =>
      exact stopped count (by rw [hcrashed, crashed])

/-- From `2 ^ 30` on the new size is negative. -/
theorem crash (hfull : hash.Full) (hlarge : 2 ^ 30 ≤ hash.size)
    (hint : hash.size < 2 ^ 31) (hlimit : creationLimit size ≤ n)
    (key : ℕ) (elem : α) : Stage size (n + 1) (hashCreate hash key elem) := by
  refine stopped (by omega) ?_
  rw [create_of_full hfull]
  change (hashGrow hash).crashed = true
  have hnegative : int32 (2 * hash.size + 1) < 0 := by
    unfold int32
    omega
  rw [hashGrow_crashed, decide_eq_true hnegative, Bool.or_true]

theorem doubling_create (i : ℕ) (hsized : hash.size + 1 = 2 ^ i * (size + 1))
    (hsmall : hash.size < 2 ^ 30) (hcount : 5 * n ≤ 4 * hash.size + 5)
    (helems : hash.elems = n) (hcrashed : hash.crashed = false)
    (hpos : 1 ≤ size) (key : ℕ) (elem : α) :
    Stage size (n + 1) (hashCreate hash key elem) := by
  have hpow : 1 * (size + 1) ≤ 2 ^ i * (size + 1) :=
    Nat.mul_le_mul_right _ Nat.one_le_two_pow
  have hdouble : 2 ^ (i + 1) * (size + 1) = 2 * (hash.size + 1) := by
    rw [pow_succ, mul_right_comm, ← hsized, mul_comm]
  have hnext : (hashCreate hash key elem).elems = n + 1 := by
    rw [create_elems, helems]
    omega
  by_cases hfull : hash.Full
  · have hint : int32 (2 * hash.size + 1) = 2 * hash.size + 1 :=
      int32_eq_self (by omega) (by omega)
    have hsize : (hashCreate hash key elem).size = 2 * hash.size + 1 := by
      rw [create_of_full hfull]
      change (hashGrow hash).size = 2 * hash.size + 1
      rw [hashGrow_size, hint]
      exact_mod_cast uint32_natCast (n := 2 * hash.size + 1) (by omega)
    have hgoes : (hashCreate hash key elem).crashed = false := by
      rw [create_of_full hfull]
      change (hashGrow hash).crashed = false
      rw [hashGrow_crashed, hcrashed, hint, Bool.false_or, decide_eq_false]
      omega
    rw [full_iff hsmall (by omega), helems] at hfull
    by_cases hlast : 2 * hash.size + 1 < 2 ^ 30
    · exact doubling (i + 1) (by omega) (by omega) (by omega) hnext hgoes
    · have heq := @lastSize_eq size i (by omega) (by omega)
      have hlimit : n + 1 ≤ creationLimit size := by
        unfold creationLimit
        split_ifs <;> omega
      exact doubled (by omega) (by omega) (by omega) (by omega) (by omega)
        hlimit hnext hgoes
  · have hsize : (hashCreate hash key elem).size = hash.size := by
      rw [create_of_not_full hfull]
      rfl
    have hgoes : (hashCreate hash key elem).crashed = false := by
      rw [create_of_not_full hfull]
      exact hcrashed
    rw [full_iff hsmall (by omega), helems] at hfull
    exact doubling i (by omega) (by omega) (by omega) hnext hgoes

/-- The table counts as full again at the limit and not before. -/
theorem doubled_full_iff (hlast : lastSize size < 2 ^ 30)
    (hlarge : 2 ^ 30 ≤ 2 * lastSize size + 1) (hsmall : size < 2 ^ 30)
    (hentered : 4 * lastSize size / 5 + 2 ≤ n)
    (hcount : n ≤ creationLimit size) :
    (2 * lastSize size + 1) * 4 - 2 ^ 32 < n * 5 % 2 ^ 32 ↔
      n = creationLimit size := by
  rw [creationLimit, if_neg (by omega)] at *
  split_ifs at * with hodd
  · -- the count has wrapped around once
    have hmod : n * 5 % 2 ^ 32 = n * 5 - 2 ^ 32 := by
      rw [Nat.mod_eq_sub_mod (by omega), Nat.mod_eq_of_lt (by omega)]
    omega
  · have hmod : n * 5 % 2 ^ 32 = n * 5 := Nat.mod_eq_of_lt (by omega)
    omega

theorem create (h : Stage size n hash) (hpos : 1 ≤ size)
    (hint : size < 2 ^ 31) (key : ℕ) (elem : α) :
    Stage size (n + 1) (hashCreate hash key elem) := by
  cases h with
  | doubling i sized small count elems crashed =>
      exact doubling_create i sized small count elems crashed hpos key elem
  | started sized large count elems crashed =>
      have hlimit : creationLimit size = (4 * size - 2 ^ 32) / 5 + 1 :=
        if_pos large
      have hmod : n * 5 % 2 ^ 32 = n * 5 := Nat.mod_eq_of_lt (by omega)
      have hiff := @full_iff_of_le _ hash (by omega) (by omega)
      rw [elems, sized, hmod] at hiff
      by_cases hfull : hash.Full
      · have hmany := hiff.mp hfull
        exact crash hfull (by omega) (by omega) (by omega) key elem
      · have hnext : (hashCreate hash key elem).elems = n + 1 := by
          rw [create_elems, elems]
          omega
        have hfew := mt hiff.mpr hfull
        rw [create_of_not_full hfull] at hnext ⊢
        exact started sized large (by omega) hnext crashed
  | doubled sized last large small entered count elems crashed =>
      have hbound : n < 2 ^ 31 := by
        unfold creationLimit at count
        split_ifs at count <;> omega
      have hiff := @full_iff_of_le _ hash large (by omega)
      rw [elems, sized, doubled_full_iff last (by omega) small entered count]
        at hiff
      by_cases hfull : hash.Full
      · exact crash hfull large (by omega) (hiff.mp hfull).ge key elem
      · have hlimit : n ≠ creationLimit size := mt hiff.mpr hfull
        have hnext : (hashCreate hash key elem).elems = n + 1 := by
          rw [create_elems, elems]
          omega
        rw [create_of_not_full hfull] at hnext ⊢
        exact doubled sized last large small (by omega) (by omega) hnext
          crashed
  | stopped count crashed =>
      refine stopped (by omega) ?_
      by_cases hfull : hash.Full
      · rw [create_of_full hfull]
        change (hashGrow hash).crashed = true
        rw [hashGrow_crashed, crashed, Bool.true_or]
      · rw [create_of_not_full hfull]
        exact crashed

end Stage

end Hash

end BrickEmu
