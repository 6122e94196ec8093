import BrickEmu.HashGrowth

/-!
# The hash table as a finite map

As long as no entry is created for or moved to a key in use, every key has at
most one entry, and the table stands for a finite map from keys to entries.
Growing inside `hash_create` changes the chains and not the map, as long as
the new size fits an `int`.
-/

namespace BrickEmu

variable {α : Type*}

inductive HashCall (α : Type*) where
  | create (key : ℕ) (elem : α)
  | move (key newkey : ℕ)
  | realloc (key : ℕ) (block : α → α) (elem : α)
  | remove (key : ℕ)
  | get (key : ℕ)

namespace HashCall

/-- The table after a call. -/
def run (hash : Hash α) : HashCall α → Hash α
  | create key elem => hashCreate hash key elem
  | move key newkey => (hashMove hash key newkey).2
  | realloc key block elem => (hashReallocBlock hash key block elem).2
  | remove key => (hashRemove hash key).2
  | get _ => hash

/-- What a call does to the associations of the keys. -/
def apply (map : ℕ → Option α) : HashCall α → ℕ → Option α
  | create key elem => Function.update map key (some elem)
  | move key newkey =>
      match map key with
      | some elem =>
          Function.update (Function.update map key none) newkey (some elem)
      | none => map
  | realloc key block elem =>
      Function.update map key (some (((map key).map block).getD elem))
  | remove key => Function.update map key none
  | get _ => map

/-- How many entries a call creates. -/
def creates (map : ℕ → Option α) : HashCall α → ℕ
  | create _ _ => 1
  | realloc key _ _ => if (map key).isNone then 1 else 0
  | _ => 0

def creations : (ℕ → Option α) → List (HashCall α) → ℕ
  | _, [] => 0
  | map, call :: calls => call.creates map + creations (call.apply map) calls

/-- The key of the entry to be created or moved is not in use. -/
def Fresh (map : ℕ → Option α) : HashCall α → Prop
  | create key _ => map key = none
  | move _ newkey => map newkey = none
  | _ => True

/-- A call returns what the map says. -/
def Returns (hash : Hash α) (map : ℕ → Option α) : HashCall α → Prop
  | create _ _ => True
  | move key newkey => (hashMove hash key newkey).1 = map key
  | realloc key block elem =>
      (hashReallocBlock hash key block elem).1 =
        ((map key).map block).getD elem
  | remove key =>
      (hashRemove hash key).1 = if (map key).isSome then 1 else 0
  | get key => hashGet hash key = map key

/-- Every call of the sequence finds its new key out of use. -/
def AllFresh : (ℕ → Option α) → List (HashCall α) → Prop
  | _, [] => True
  | map, call :: calls => call.Fresh map ∧ AllFresh (call.apply map) calls

end HashCall

namespace Hash

variable {hash : Hash α} {map : ℕ → Option α} {key newkey : ℕ} {elem : α}

/-- The table stands for a map. -/
structure Represents (hash : Hash α) (map : ℕ → Option α) : Prop where
  placed : hash.Placed
  entries : ∀ key, hash.entries key = (map key).toList

theorem represents_init {size : ℕ} (hsize : 0 < size) :
    (hashInit size : Hash α).Represents fun _ => none :=
  ⟨placed_init hsize, entries_init size⟩

section Relink

variable {block : α → α}

/-- Replacing the first entry of a key keeps the order of the entries. -/
theorem filter_replaceF (bs : List (ℕ × α)) (key other : ℕ)
    (block : α → α) :
    ((bs.replaceF (resize key block)).filter
        fun bucket => bucket.1 = other).map Prod.snd =
      if other = key then
        ((bs.filter fun bucket => bucket.1 = other).map
          Prod.snd).modifyHead block
      else (bs.filter fun bucket => bucket.1 = other).map Prod.snd := by
  induction bs with
  | nil => simp
  | cons b bs ih =>
      by_cases hkey : b.1 = key
      · rw [List.replaceF_cons_of_some (resize key block) (if_pos hkey)]
        by_cases hother : b.1 = other
        · rw [if_pos (hother.symm.trans hkey),
            List.filter_cons_of_pos (by simpa using hother),
            List.filter_cons_of_pos (by simpa using hother)]
          rfl
        · have hne : ¬other = key := fun h => hother (hkey.trans h.symm)
          rw [if_neg hne, List.filter_cons_of_neg (by simpa using hother),
            List.filter_cons_of_neg (by simpa using hother)]
      · rw [List.replaceF_cons_of_none (resize key block) (if_neg hkey)]
        by_cases hother : b.1 = other
        · have hne : ¬other = key := fun h => hkey (hother.trans h)
          rw [if_neg hne] at ih ⊢
          rw [List.filter_cons_of_pos (by simpa using hother), List.map_cons,
            ih, List.filter_cons_of_pos (by simpa using hother), List.map_cons]
        · rw [List.filter_cons_of_neg (by simpa using hother), ih,
            List.filter_cons_of_neg (by simpa using hother)]

theorem entries_relink (hash : Hash α) (key other : ℕ) (block : α → α) :
    (hash.relink key block).entries other =
      if other = key then (hash.entries key).modifyHead block
      else hash.entries other := by
  unfold Hash.entries relink
  simp only
  by_cases hchain : other % hash.size = key % hash.size
  · rw [hchain, Function.update_self, filter_replaceF]
    split_ifs with hother
    · rw [hother]
    · rfl
  · have hother : ¬other = key := fun h => hchain (congrArg (· % hash.size) h)
    rw [Function.update_of_ne hchain, if_neg hother]

theorem mem_replaceF {bs : List (ℕ × α)} {entry : ℕ × α}
    (hmem : entry ∈ bs.replaceF (resize key block)) :
    ∃ bucket ∈ bs, entry.1 = bucket.1 := by
  induction bs with
  | nil => exact absurd hmem List.not_mem_nil
  | cons b bs ih =>
      by_cases hkey : b.1 = key
      · rw [List.replaceF_cons_of_some (resize key block) (if_pos hkey),
          List.mem_cons] at hmem
        rcases hmem with rfl | hmem
        · exact ⟨b, List.mem_cons_self, rfl⟩
        · exact ⟨entry, List.mem_cons_of_mem b hmem, rfl⟩
      · rw [List.replaceF_cons_of_none (resize key block) (if_neg hkey),
          List.mem_cons] at hmem
        rcases hmem with rfl | hmem
        · exact ⟨entry, List.mem_cons_self, rfl⟩
        · obtain ⟨bucket, hbucket, hsame⟩ := ih hmem
          exact ⟨bucket, List.mem_cons_of_mem b hbucket, hsame⟩

theorem Placed.relink (h : hash.Placed) (key : ℕ) (block : α → α) :
    (hash.relink key block).Placed := by
  refine ⟨h.size_pos, fun idx entry hmem => ?_⟩
  by_cases hidx : idx = key % hash.size
  · subst hidx
    simp only [Hash.relink, Function.update_self] at hmem
    obtain ⟨bucket, hbucket, hsame⟩ := mem_replaceF hmem
    rw [hsame]
    exact h.chain _ bucket hbucket
  · simp only [Hash.relink, Function.update_of_ne hidx] at hmem
    exact h.chain _ entry hmem

end Relink

namespace Represents

theorem get (h : hash.Represents map) (key : ℕ) :
    hashGet hash key = map key := by
  rw [hashGet_eq_head?, h.entries]
  cases map key <;> rfl

theorem grow (h : hash.Represents map) : (hashGrow hash).Represents map := by
  refine ⟨placed_grow hash, fun key => ?_⟩
  rw [h.placed.entries_grow, h.entries]
  cases map key <;> rfl

theorem create (h : hash.Represents map) (hfresh : map key = none)
    (elem : α) :
    (hashCreate hash key elem).Represents
      (Function.update map key (some elem)) := by
  refine ⟨h.placed.create key elem, fun other => ?_⟩
  have hsingle : hash.Full → (hash.entries other).length ≤ 1 := by
    intro _
    rw [h.entries]
    cases map other <;> simp
  rw [h.placed.entries_create elem hsingle, Function.update_apply]
  split_ifs
  · rw [h.entries, hfresh]
    rfl
  · exact h.entries other

theorem unlink (h : hash.Represents map) (key : ℕ) :
    (hash.unlink key).Represents (Function.update map key none) := by
  refine ⟨h.placed.unlink key, fun other => ?_⟩
  rw [entries_unlink, Function.update_apply]
  split_ifs
  · rw [h.entries]
    cases map key <;> rfl
  · exact h.entries other

theorem push (h : hash.Represents map) (hfresh : map key = none)
    (elem : α) :
    (hash.push key elem).Represents
      (Function.update map key (some elem)) := by
  refine ⟨h.placed.push key elem, fun other => ?_⟩
  rw [entries_push, Function.update_apply]
  split_ifs
  · rw [h.entries, hfresh]
    rfl
  · exact h.entries other

theorem move (h : hash.Represents map) (hfresh : map newkey = none) :
    (hashMove hash key newkey).2.Represents
      ((HashCall.move key newkey).apply map) := by
  rw [hashMove, h.get, HashCall.apply]
  cases hkey : map key with
  | none => exact h
  | some elem =>
      apply (h.unlink key).push
      rw [Function.update_apply]
      split_ifs
      · rfl
      · exact hfresh

theorem realloc (h : hash.Represents map) (block : α → α) (elem : α) :
    (hashReallocBlock hash key block elem).2.Represents
      ((HashCall.realloc key block elem).apply map) := by
  rw [hashReallocBlock, h.get, HashCall.apply]
  cases hkey : map key with
  | none => exact h.create hkey elem
  | some found =>
      refine ⟨h.placed.relink key block, fun other => ?_⟩
      rw [entries_relink, Function.update_apply]
      split_ifs
      · rw [h.entries, hkey]
        rfl
      · exact h.entries other

theorem remove (h : hash.Represents map) (key : ℕ) :
    (hashRemove hash key).2.Represents
      ((HashCall.remove key).apply map) := by
  rw [hashRemove, h.get, HashCall.apply]
  cases hkey : map key with
  | none =>
      have hsame : Function.update map key none = map :=
        Function.update_eq_iff.mpr ⟨hkey.symm, fun _ _ => rfl⟩
      rw [hsame]
      exact h
  | some found => exact h.unlink key

theorem run (h : hash.Represents map) {call : HashCall α}
    (hfresh : call.Fresh map) :
    (call.run hash).Represents (call.apply map) := by
  cases call with
  | create key elem => exact h.create hfresh elem
  | move key newkey => exact h.move hfresh
  | realloc key block elem => exact h.realloc block elem
  | remove key => exact h.remove key
  | get key => exact h

theorem returns (h : hash.Represents map) (call : HashCall α) :
    call.Returns hash map := by
  cases call with
  | create key elem => trivial
  | move key newkey =>
      rw [HashCall.Returns, hashMove, h.get]
      cases map key <;> rfl
  | realloc key block elem =>
      rw [HashCall.Returns, hashReallocBlock, h.get]
      cases map key <;> rfl
  | remove key =>
      rw [HashCall.Returns, hashRemove, h.get]
      cases map key <;> rfl
  | get key => exact h.get key

/-- A walk visits the entry of every key in use and nothing else. -/
theorem enumerate (h : hash.Represents map) (key : ℕ) :
    ((hashEnumerate hash).filter fun visit => visit.1 = key).map Prod.snd =
      (map key).toList := by
  rw [h.placed.filter_enumerate]
  exact h.entries key

theorem runs {calls : List (HashCall α)} (h : hash.Represents map)
    (hfresh : HashCall.AllFresh map calls) :
    (calls.foldl HashCall.run hash).Represents
      (calls.foldl HashCall.apply map) := by
  induction calls generalizing hash map with
  | nil => exact h
  | cons call calls ih => exact ih (h.run hfresh.1) hfresh.2

end Represents

/-- The table stands for the map, every entry is in the chain of its key, a
walk visits every live entry once, and growing or any further call that does
not stop the program answers as the map says. -/
structure IsFiniteMap (hash : Hash α) (map : ℕ → Option α) : Prop where
  goes_on : hash.crashed = false
  get : ∀ key, hashGet hash key = map key
  grow : (hashGrow hash).crashed = false →
    ∀ key, hashGet (hashGrow hash) key = map key
  chain : ∀ idx, ∀ entry ∈ hash.list idx, entry.1 % hash.size = idx
  grow_chain : (hashGrow hash).crashed = false →
    ∀ idx, ∀ entry ∈ (hashGrow hash).list idx,
      entry.1 % (hashGrow hash).size = idx
  enumerate : ∀ key,
    ((hashEnumerate hash).filter fun visit => visit.1 = key).map Prod.snd =
      (map key).toList
  returns : ∀ call : HashCall α, (call.run hash).crashed = false →
    call.Returns hash map

theorem Represents.isFiniteMap_iff (h : hash.Represents map) :
    hash.IsFiniteMap map ↔ hash.crashed = false := by
  refine ⟨IsFiniteMap.goes_on, fun hgoes => ?_⟩
  exact ⟨hgoes, h.get, fun _ => h.grow.get, h.placed.chain,
    fun _ => h.grow.placed.chain, h.enumerate, fun call _ => h.returns call⟩

namespace Stage

variable {size n : ℕ}

theorem relink (h : Stage size n hash) (key : ℕ) (block : α → α) :
    Stage size n (hash.relink key block) :=
  h.keep rfl rfl rfl

theorem run (h : Stage size n hash) (hrepresents : hash.Represents map)
    (hpos : 1 ≤ size) (hint : size < 2 ^ 31) (call : HashCall α) :
    Stage size (n + call.creates map) (call.run hash) := by
  cases call with
  | create key elem => exact h.create hpos hint key elem
  | move key newkey =>
      rw [HashCall.run, hashMove, hrepresents.get]
      cases map key with
      | none => exact h
      | some elem => exact h.keep rfl rfl rfl
  | realloc key block elem =>
      rw [HashCall.run, hashReallocBlock, hrepresents.get, HashCall.creates]
      cases map key with
      | none => exact h.create hpos hint key elem
      | some found => exact h.relink key block
  | remove key =>
      rw [HashCall.run, hashRemove, hrepresents.get]
      cases map key with
      | none => exact h
      | some elem => exact h.keep rfl rfl rfl
  | get key => exact h

theorem runs {calls : List (HashCall α)} (h : Stage size n hash)
    (hrepresents : hash.Represents map) (hpos : 1 ≤ size)
    (hint : size < 2 ^ 31) (hfresh : HashCall.AllFresh map calls) :
    Stage size (n + HashCall.creations map calls)
      (calls.foldl HashCall.run hash) := by
  induction calls generalizing hash map n with
  | nil => exact h
  | cons call calls ih =>
      have hnext := ih (h.run hrepresents hpos hint call)
        (hrepresents.run hfresh.1) hfresh.2
      rw [add_assoc] at hnext
      exact hnext

end Stage

end Hash

/-- From any initial size on and through any calls that take unused keys for
new entries, the table is a finite map exactly if the calls create no more
entries than the initial size allows. -/
theorem hash_finiteMap_iff (size : ℕ) (hsize : 1 ≤ size)
    (hint : size < 2 ^ 31) (calls : List (HashCall α))
    (hfresh : HashCall.AllFresh (fun _ => none) calls) :
    (calls.foldl HashCall.run (hashInit size)).IsFiniteMap
        (calls.foldl HashCall.apply fun _ => none) ↔
      HashCall.creations (fun _ => none) calls ≤ Hash.creationLimit size := by
  have hrepresents := Hash.represents_init (α := α) hsize
  have hstage := (Hash.Stage.init size).runs hrepresents hsize hint hfresh
  rw [Nat.zero_add] at hstage
  exact (hrepresents.runs hfresh).isFiniteMap_iff.trans hstage.crashed_iff

/-- Two keys in one chain; the second entry makes the table grow. -/
theorem hash_finiteMap_iff_two :
    let calls : List (HashCall ℕ) :=
      [.create 4 10, .realloc 6 id 20, .move 4 8, .remove 6]
    (calls.foldl HashCall.run (hashInit 1)).IsFiniteMap
      (calls.foldl HashCall.apply fun _ => none) := by
  intro calls
  have hfresh : HashCall.AllFresh (fun _ => none) calls :=
    ⟨rfl, trivial, rfl, trivial, trivial⟩
  refine (hash_finiteMap_iff 1 le_rfl (by norm_num) calls hfresh).mpr ?_
  have hcreated : HashCall.creations (fun _ => none) calls = 2 := rfl
  rw [hcreated]
  unfold Hash.creationLimit
  split_ifs <;> omega

/-- The table of 2 ^ 30 chains counts as full with a single entry, and the
size behind it is negative. -/
theorem hash_finiteMap_negative :
    let calls : List (HashCall ℕ) := [.create 0 10, .create 1 20]
    HashCall.AllFresh (fun _ => none) calls ∧
      ¬(calls.foldl HashCall.run (hashInit (2 ^ 30))).IsFiniteMap
        (calls.foldl HashCall.apply fun _ => none) := by
  intro calls
  have hfresh : HashCall.AllFresh (fun _ => none) calls :=
    ⟨rfl, rfl, trivial⟩
  refine ⟨hfresh, fun hmap => ?_⟩
  have hstage := (Hash.Stage.init (2 ^ 30)).runs
    (Hash.represents_init (α := ℕ) (by norm_num)) (by norm_num) (by norm_num)
    hfresh
  have hcreated : HashCall.creations (fun _ => none) calls = 2 := rfl
  have hlimit := hstage.crashed_iff.mp hmap.goes_on
  rw [hcreated, Hash.creationLimit, if_pos le_rfl] at hlimit
  omega

end BrickEmu
