import BrickEmu.Hash

/-!
# The entries of a key

A table may hold several entries with the same key.  `Hash.entries` lists
them in the order of their chain, so `hash_get` and `hash_move` find the head
of the list.  `hash_create` and `hash_move` put an entry in front, and
`hash_grow` turns every list around.
-/

namespace BrickEmu

variable {α β : Type*}

/-- A walk over all indices of which only one has something to give. -/
theorem flatMap_range_single {f : ℕ → List β} {n j : ℕ} (hj : j < n)
    (hother : ∀ i, i ≠ j → f i = []) : (List.range n).flatMap f = f j := by
  induction n with
  | zero => exact absurd hj (Nat.not_lt_zero j)
  | succ n ih =>
      rw [List.range_succ, List.flatMap_append, List.flatMap_singleton]
      by_cases hlast : j = n
      · subst hlast
        have hbefore : (List.range j).flatMap f = [] := by
          rw [List.flatMap_eq_nil_iff]
          intro i hi
          exact hother i (List.mem_range.mp hi).ne
        rw [hbefore, List.nil_append]
      · rw [ih (by omega), hother n (fun h => hlast h.symm), List.append_nil]

namespace Hash

/-- The entries with the given key, in the order of their chain. -/
def entries (hash : Hash α) (key : ℕ) : List α :=
  ((hash.list (key % hash.size)).filter fun bucket => bucket.1 = key).map
    Prod.snd

/-- Every entry is in the chain of its key. -/
structure Placed (hash : Hash α) : Prop where
  size_pos : 0 < hash.size
  chain : ∀ idx, ∀ entry ∈ hash.list idx, entry.1 % hash.size = idx

variable {hash : Hash α} {key newkey other : ℕ} {elem : α}

@[simp] theorem entries_init (size key : ℕ) :
    (hashInit size : Hash α).entries key = [] :=
  rfl

theorem placed_init {size : ℕ} (hsize : 0 < size) :
    (hashInit size : Hash α).Placed :=
  ⟨hsize, fun _ _ hmem => absurd hmem List.not_mem_nil⟩

theorem hashGet_eq_head? (hash : Hash α) (key : ℕ) :
    hashGet hash key = (hash.entries key).head? := by
  rw [hashGet, entries, List.head?_map, List.head?_filter]

@[simp] theorem push_size (hash : Hash α) (key : ℕ) (elem : α) :
    (hash.push key elem).size = hash.size :=
  rfl

theorem entries_push (hash : Hash α) (key : ℕ) (elem : α) (other : ℕ) :
    (hash.push key elem).entries other =
      if other = key then elem :: hash.entries key
      else hash.entries other := by
  unfold entries push
  simp only
  by_cases hother : other = key
  · subst hother
    rw [if_pos rfl, Function.update_self, List.filter_cons_of_pos (by simp),
      List.map_cons]
  · rw [if_neg hother]
    by_cases hchain : other % hash.size = key % hash.size
    · rw [hchain, Function.update_self, List.filter_cons_of_neg]
      simpa using fun h : key = other => hother h.symm
    · rw [Function.update_of_ne hchain]

theorem Placed.push (h : hash.Placed) (key : ℕ) (elem : α) :
    (hash.push key elem).Placed := by
  refine ⟨h.size_pos, fun idx entry hmem => ?_⟩
  by_cases hidx : idx = key % hash.size
  · subst hidx
    simp only [Hash.push, Function.update_self, List.mem_cons] at hmem
    rcases hmem with rfl | hmem
    · rfl
    · exact h.chain _ entry hmem
  · simp only [Hash.push, Function.update_of_ne hidx] at hmem
    exact h.chain _ entry hmem

theorem filter_eraseP (bs : List (ℕ × α)) (key other : ℕ) :
    ((bs.eraseP fun bucket => bucket.1 = key).filter
        fun bucket => bucket.1 = other) =
      if other = key then
        (bs.filter fun bucket => bucket.1 = other).tail
      else bs.filter fun bucket => bucket.1 = other := by
  induction bs with
  | nil => simp
  | cons b bs ih =>
      by_cases hkey : b.1 = key
      · rw [List.eraseP_cons_of_pos (by simpa using hkey)]
        split_ifs with hother
        · rw [List.filter_cons_of_pos (by simp [hkey, hother]),
            List.tail_cons]
        · rw [List.filter_cons_of_neg]
          simpa [hkey] using fun h : key = other => hother h.symm
      · rw [List.eraseP_cons_of_neg (by simpa using hkey)]
        by_cases hfound : b.1 = other
        · have hne : ¬other = key := fun h => hkey (hfound.trans h)
          rw [if_neg hne] at ih ⊢
          rw [List.filter_cons_of_pos (by simpa using hfound), ih,
            List.filter_cons_of_pos (by simpa using hfound)]
        · rw [List.filter_cons_of_neg (by simpa using hfound), ih,
            List.filter_cons_of_neg (by simpa using hfound)]

theorem entries_unlink (hash : Hash α) (key other : ℕ) :
    (hash.unlink key).entries other =
      if other = key then (hash.entries key).tail
      else hash.entries other := by
  unfold entries unlink
  simp only
  by_cases hchain : other % hash.size = key % hash.size
  · rw [hchain, Function.update_self, filter_eraseP]
    split_ifs with hother
    · rw [hother, List.map_tail]
    · rfl
  · have hother : ¬other = key := by
      rintro rfl
      exact hchain rfl
    rw [Function.update_of_ne hchain, if_neg hother]

theorem Placed.unlink (h : hash.Placed) (key : ℕ) :
    (hash.unlink key).Placed := by
  refine ⟨h.size_pos, fun idx entry hmem => ?_⟩
  by_cases hidx : idx = key % hash.size
  · subst hidx
    simp only [Hash.unlink, Function.update_self] at hmem
    exact h.chain _ entry (List.mem_of_mem_eraseP hmem)
  · simp only [Hash.unlink, Function.update_of_ne hidx] at hmem
    exact h.chain _ entry hmem

theorem hashMove_of_nil (h : hash.entries key = []) (newkey : ℕ) :
    hashMove hash key newkey = (none, hash) := by
  rw [hashMove, hashGet_eq_head?, h]
  rfl

theorem hashMove_of_cons {rest : List α}
    (h : hash.entries key = elem :: rest) (newkey : ℕ) :
    hashMove hash key newkey =
      (some elem, (hash.unlink key).push newkey elem) := by
  rw [hashMove, hashGet_eq_head?, h]
  rfl

theorem Placed.move (h : hash.Placed) (key newkey : ℕ) :
    (hashMove hash key newkey).2.Placed := by
  cases hentries : hash.entries key with
  | nil =>
      rw [hashMove_of_nil hentries]
      exact h
  | cons elem rest =>
      rw [hashMove_of_cons hentries]
      exact (h.unlink key).push newkey elem

section Growing

variable (bs : List (ℕ × α))

theorem entries_foldl_push (start : Hash α) (key : ℕ) :
    (bs.foldl (fun hash bucket => hash.push bucket.1 bucket.2)
        start).entries key =
      ((bs.filter fun bucket => bucket.1 = key).map Prod.snd).reverse ++
        start.entries key := by
  induction bs generalizing start with
  | nil => rfl
  | cons b bs ih =>
      rw [List.foldl_cons, ih, entries_push]
      by_cases hkey : b.1 = key
      · rw [if_pos hkey.symm, List.filter_cons_of_pos (by simpa using hkey),
          List.map_cons, List.reverse_cons, List.append_assoc, hkey]
        rfl
      · rw [if_neg (fun h => hkey h.symm),
          List.filter_cons_of_neg (by simpa using hkey)]

theorem Placed.foldl_push {start : Hash α} (h : start.Placed) :
    (bs.foldl (fun hash bucket => hash.push bucket.1 bucket.2)
      start).Placed := by
  induction bs generalizing start with
  | nil => exact h
  | cons b bs ih => exact ih (h.push b.1 b.2)

end Growing

theorem placed_grow (hash : Hash α) : (hashGrow hash).Placed := by
  apply Placed.foldl_push
  refine ⟨?_, fun _ _ hmem => absurd hmem List.not_mem_nil⟩
  -- an odd size does not wrap around to 0
  simp only [uint32, int32]
  omega

/-- A walk over the table meets the entries of a key in the order of their
chain. -/
theorem Placed.filter_enumerate (h : hash.Placed) (key : ℕ) :
    (hashEnumerate hash).filter (fun bucket => bucket.1 = key) =
      (hash.list (key % hash.size)).filter fun bucket => bucket.1 = key := by
  rw [hashEnumerate, List.filter_flatMap]
  apply flatMap_range_single (Nat.mod_lt key h.size_pos)
  intro idx hidx
  rw [List.filter_eq_nil_iff]
  intro entry hmem hentry
  have hplace := h.chain idx entry hmem
  rw [of_decide_eq_true hentry] at hplace
  exact hidx hplace.symm

/-- Growing turns the entries of a key around. -/
theorem Placed.entries_grow (h : hash.Placed) (key : ℕ) :
    (hashGrow hash).entries key = (hash.entries key).reverse := by
  have hchain := h.filter_enumerate key
  rw [hashEnumerate] at hchain
  rw [hashGrow, entries_foldl_push, hchain]
  simp [entries]

/-- Whether the next entry makes the table grow. -/
def Full (hash : Hash α) : Prop :=
  hash.size * 4 % 2 ^ 32 < hash.elems * 5 % 2 ^ 32

theorem Placed.create (h : hash.Placed) (key : ℕ) (elem : α) :
    (hashCreate hash key elem).Placed := by
  unfold hashCreate
  apply Placed.push
  split_ifs
  · exact ⟨(placed_grow hash).size_pos, (placed_grow hash).chain⟩
  · exact ⟨h.size_pos, h.chain⟩

/-- A new entry leaves the others in order when the table does not grow, or
when no key has two entries. -/
theorem Placed.entries_create (h : hash.Placed) (elem : α)
    (hsingle : hash.Full → (hash.entries other).length ≤ 1) :
    (hashCreate hash key elem).entries other =
      if other = key then elem :: hash.entries key
      else hash.entries other := by
  have hsame : (if hash.size * 4 % 2 ^ 32 < hash.elems * 5 % 2 ^ 32 then
      hashGrow hash else hash).entries other = hash.entries other := by
    split_ifs with hfull
    · rw [h.entries_grow]
      match hlist : hash.entries other, hsingle hfull with
      | [], _ => rfl
      | [_], _ => rfl
    · rfl
  unfold hashCreate
  simp only
  rw [entries_push]
  by_cases hother : other = key
  · subst hother
    rw [if_pos rfl, if_pos rfl]
    exact congrArg (List.cons elem) hsame
  · rw [if_neg hother, if_neg hother]
    exact hsame

end Hash

end BrickEmu
