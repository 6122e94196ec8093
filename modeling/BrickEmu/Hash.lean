import BrickEmu.HostInteger
import Mathlib.Tactic

/-!
# Chained hash tables

The table of `hash.c`: an array of buckets indexed by the key modulo the
size.  New entries go to the front of their bucket, so among entries with the
same key the most recent one is found first; growing the table reverses the
order within a bucket.  Sizes and counts are 32 bits wide.  Allocations
succeed, with one exception: `hash_grow` keeps the new size in an `int`, and
where it comes out negative no allocation can have the size asked for.  The
null pointer that `malloc` returns is then written through.
-/

namespace BrickEmu

structure Hash (α : Type*) where
  size : ℕ
  elems : ℕ
  list : ℕ → List (ℕ × α)
  /-- The null pointer has been written through. -/
  crashed : Bool

variable {α : Type*}

def hashInit (initsize : ℕ) : Hash α where
  size := initsize
  elems := 0
  list := fun _ => []
  crashed := false

def hashGet (hash : Hash α) (key : ℕ) : Option α :=
  ((hash.list (key % hash.size)).find? fun bucket => bucket.1 = key).map
    Prod.snd

def Hash.push (hash : Hash α) (key : ℕ) (elem : α) : Hash α :=
  let idx := key % hash.size
  { hash with
    list := Function.update hash.list idx ((key, elem) :: hash.list idx) }

/-- Unlinks the first entry with the given key. -/
def Hash.unlink (hash : Hash α) (key : ℕ) : Hash α :=
  let idx := key % hash.size
  { hash with
    list := Function.update hash.list idx
      ((hash.list idx).eraseP fun bucket => bucket.1 = key) }

def hashMove (hash : Hash α) (key newkey : ℕ) : Option α × Hash α :=
  match hashGet hash key with
  | some elem => (some elem, (hash.unlink key).push newkey elem)
  | none => (none, hash)

def hashGrow (hash : Hash α) : Hash α :=
  let nsize := int32 (2 * hash.size + 1)
  let entries := (List.range hash.size).flatMap hash.list
  let empty : Hash α :=
    ⟨uint32 nsize, hash.elems, fun _ => [],
      hash.crashed || decide (nsize < 0)⟩
  entries.foldl (fun hash entry => hash.push entry.1 entry.2) empty

def hashCreate (hash : Hash α) (key : ℕ) (elem : α) : Hash α :=
  let hash :=
    if hash.size * 4 % 2 ^ 32 < hash.elems * 5 % 2 ^ 32 then hashGrow hash
    else hash
  Hash.push { hash with elems := (hash.elems + 1) % 2 ^ 32 } key elem

/-- Resizing keeps the contents of the entry; a missing entry is created. -/
def hashRealloc (hash : Hash α) (key : ℕ) (elem : α) : α × Hash α :=
  match hashGet hash key with
  | some found => (found, hash)
  | none => (elem, hashCreate hash key elem)

def Hash.resize (key : ℕ) (block : α → α) (bucket : ℕ × α) :
    Option (ℕ × α) :=
  if bucket.1 = key then some (bucket.1, block bucket.2) else none

/-- The entry stays where it is in its chain when the block moves. -/
def Hash.relink (hash : Hash α) (key : ℕ) (block : α → α) : Hash α :=
  let idx := key % hash.size
  { hash with
    list := Function.update hash.list idx
      ((hash.list idx).replaceF (Hash.resize key block)) }

/-- `hash_realloc` with the blocks told apart: `block` is what `realloc` makes
of a block. -/
def hashReallocBlock (hash : Hash α) (key : ℕ) (block : α → α) (elem : α) :
    α × Hash α :=
  match hashGet hash key with
  | some found => (block found, hash.relink key block)
  | none => (elem, hashCreate hash key elem)

def hashRemove (hash : Hash α) (key : ℕ) : ℕ × Hash α :=
  match hashGet hash key with
  | some _ => (1, hash.unlink key)
  | none => (0, hash)

/-- The calls that `hash_enumerate` makes, in order. -/
def hashEnumerate (hash : Hash α) : List (ℕ × α) :=
  (List.range hash.size).flatMap hash.list

end BrickEmu
