import BrickEmu.SplaySearch
import BrickEmu.Symbols

/-!
# Lookups in the symbol table

The functions of `symbols.c` that look into the table.  The table stands in
the order of addresses and types, and neither new symbols nor lookups disturb
it, so that a lookup finds a symbol whenever one is at the place.  Which of
several symbols at one place it finds depends on the shape of the tree.
-/

namespace BrickEmu

open SplayTree

/-- The pointer that `splay` returns. -/
def splayResult (addr type : Word) (root : SymbolTree) : Option Symbol :=
  match splay addr type root with
  | nil => none
  | node _ sym _ => if sym.isAt addr type then some sym else none

def symbolsGet (addr type : Word) (root : SymbolTree) :
    Option (List Byte) × SymbolTree :=
  ((splayResult addr type root).map Symbol.name, splay addr type root)

/-- `symbols_getaddr_subtree`, with 0 for a name that is not found. -/
def symbolsGetaddr (name : List Byte) : SymbolTree → Word
  | nil => 0
  | node left sym right =>
      let addr := symbolsGetaddr name left
      if addr ≠ 0 then addr
      else if name = sym.name then sym.addr
      else symbolsGetaddr name right

def symbolsRemove (addr type : Word) (root : SymbolTree) :
    ℕ × SymbolTree :=
  match splay addr type root with
  | nil => (0, nil)
  | node left sym right =>
      if sym.isAt addr type then
        match splay addr type left with
        | nil => (1, right)
        | node left top _ => (1, node left top right)
      else (0, node left sym right)

/-! ## The order -/

/-- Addresses and types as one number. -/
def place (addr type : Word) : ℕ :=
  addr.toNat * 65536 + (type.toInt + 32768).toNat

namespace Symbol

variable {addr type : Word} {sym : Symbol}

def place (sym : Symbol) : ℕ :=
  BrickEmu.place sym.addr sym.type

theorem toNat_type_lt (type : Word) : (type.toInt + 32768).toNat < 65536 := by
  have hlow := @BitVec.le_toInt 16 type
  have hhigh := @BitVec.toInt_lt 16 type
  omega

theorem before_iff :
    before addr type sym = true ↔ BrickEmu.place addr type < sym.place := by
  have htype := toNat_type_lt type
  have hsym := toNat_type_lt sym.type
  have hlow := @BitVec.le_toInt 16 type
  have hlow' := @BitVec.le_toInt 16 sym.type
  simp only [before, place, BrickEmu.place, Bool.or_eq_true, Bool.and_eq_true,
    decide_eq_true_eq, BitVec.lt_def, BitVec.slt_eq_decide, ← BitVec.toNat_inj]
  omega

theorem behind_iff :
    behind addr type sym = true ↔ sym.place < BrickEmu.place addr type := by
  have htype := toNat_type_lt type
  have hsym := toNat_type_lt sym.type
  have hlow := @BitVec.le_toInt 16 type
  have hlow' := @BitVec.le_toInt 16 sym.type
  simp only [behind, place, BrickEmu.place, Bool.or_eq_true, Bool.and_eq_true,
    decide_eq_true_eq, BitVec.lt_def, BitVec.slt_eq_decide, ← BitVec.toNat_inj]
  omega

theorem isAt_iff :
    sym.isAt addr type = true ↔ sym.place = BrickEmu.place addr type := by
  have htype := toNat_type_lt type
  have hsym := toNat_type_lt sym.type
  have hlow := @BitVec.le_toInt 16 type
  have hlow' := @BitVec.le_toInt 16 sym.type
  have hsame : sym.type = type ↔ sym.type.toInt = type.toInt :=
    BitVec.toInt_inj.symm
  simp only [isAt, place, BrickEmu.place, Bool.and_eq_true, decide_eq_true_eq,
    hsame, ← BitVec.toNat_inj]
  omega

/-- The test in `symbols_add`. -/
theorem le_iff {top : Symbol} :
    (sym.addr < top.addr ||
      (sym.addr = top.addr && sym.type.sle top.type)) = true ↔
        sym.place ≤ top.place := by
  have hsym := toNat_type_lt sym.type
  have htop := toNat_type_lt top.type
  have hlow := @BitVec.le_toInt 16 sym.type
  have hlow' := @BitVec.le_toInt 16 top.type
  simp only [place, BrickEmu.place, Bool.or_eq_true, Bool.and_eq_true,
    decide_eq_true_eq, BitVec.lt_def, BitVec.sle_eq_decide, ← BitVec.toNat_inj]
  omega

theorem behind_side (addr type : Word) (sym : Symbol)
    (h : behind addr type sym = true) :
    before addr type sym = false := by
  rw [behind_iff] at h
  rw [Bool.eq_false_iff, Ne, before_iff]
  omega

end Symbol

def SymbolsOrdered (root : SymbolTree) : Prop :=
  root.toList.Pairwise fun x y => x.place ≤ y.place

namespace SymbolsOrdered

variable {root left right : SymbolTree} {sym : Symbol} {addr type : Word}

theorem cut (h : SymbolsOrdered root) (addr type : Word) :
    Cut (Symbol.before addr type) (Symbol.behind addr type) root.toList := by
  constructor
  · apply h.imp
    intro x y hle hx
    rw [Symbol.before_iff] at hx ⊢
    omega
  · apply h.imp
    intro x y hle hy
    rw [Symbol.behind_iff] at hy ⊢
    omega

theorem leftTree (h : SymbolsOrdered (node left sym right)) :
    SymbolsOrdered left :=
  h.sublist (List.sublist_append_left _ _)

theorem rightTree (h : SymbolsOrdered (node left sym right)) :
    SymbolsOrdered right :=
  h.sublist
    ((List.sublist_cons_self _ _).trans (List.sublist_append_right _ _))

end SymbolsOrdered

section Splay

variable {root left right : SymbolTree} {sym : Symbol} {addr type : Word}

/-- The search for the topmost symbol at a place. -/
def search (addr type : Word) (root : SymbolTree) : SymbolTree :=
  find (Symbol.before addr type) (Symbol.behind addr type) root

theorem isAt_of_search (hsearch : search addr type root =
    node left sym right) : sym.isAt addr type = true := by
  obtain ⟨hbefore, hbehind⟩ := find_at hsearch
  rw [Bool.eq_false_iff, Ne, Symbol.before_iff] at hbefore
  rw [Bool.eq_false_iff, Ne, Symbol.behind_iff] at hbehind
  rw [Symbol.isAt_iff]
  omega

theorem search_eq_nil_iff (h : SymbolsOrdered root) :
    search addr type root = nil ↔
      ∀ x ∈ root.toList, x.isAt addr type = false := by
  rw [search, find_eq_nil_iff (h.cut addr type)]
  apply forall₂_congr
  intro x _
  rw [Symbol.before_iff, Symbol.behind_iff, Bool.eq_false_iff, Ne,
    Symbol.isAt_iff]
  omega

theorem search_root (hat : sym.isAt addr type = true) :
    search addr type (node left sym right) = node left sym right := by
  rw [Symbol.isAt_iff] at hat
  rw [search, find, if_neg, if_neg]
  · rw [Symbol.behind_iff]
    omega
  · rw [Symbol.before_iff]
    omega

/-- What `splay` brings to the root, and the links on its way. -/
theorem splay_eq (hnil : root ≠ nil) (addr type : Word) :
    ∃ ls rs left sym right,
      splay addr type root = assemble ls rs left sym right ∧
      (∀ link ∈ ls, Symbol.behind addr type link.1 = true) ∧
      (∀ link ∈ rs, Symbol.before addr type link.1 = true) ∧
      Lands (Symbol.before addr type) (Symbol.behind addr type) root
        left sym right := by
  cases root with
  | nil => contradiction
  | node left sym right =>
      by_cases hat : sym.isAt addr type
      · refine ⟨[], [], left, sym, right, ?_, by simp, by simp, ?_⟩
        · rw [splay, if_pos hat]
          rfl
        · exact Or.inl (search_root hat)
      · obtain ⟨ls, rs, left', sym', right', hsplayed⟩ :=
          splayLoop_splayed (Symbol.behind_side addr type)
            (node left sym right) hnil
        refine ⟨ls, rs, left', sym', right', ?_, hsplayed.before,
          hsplayed.behind, hsplayed.lands⟩
        rw [splay, if_neg hat, hsplayed.result, List.append_nil,
          List.append_nil]

/-- The two sides of the new root. -/
theorem splay_sides (h : SymbolsOrdered root)
    (hsplay : splay addr type root = node left sym right) :
    (∀ x ∈ left.toList, x.place ≤ place addr type) ∧
      ∀ x ∈ right.toList, place addr type ≤ x.place := by
  cases root with
  | nil => cases hsplay
  | node l s r =>
      rw [splay] at hsplay
      split_ifs at hsplay with hat
      · cases hsplay
        rw [Symbol.isAt_iff] at hat
        have hall := List.pairwise_append.mp h
        constructor <;> intro x hx
        · rw [← hat]
          exact hall.2.2 x hx _ (by simp)
        · rw [← hat]
          exact (List.pairwise_cons.mp hall.2.1).1 x hx
      · obtain ⟨hleft, hright⟩ := splayLoop_sides
          (Symbol.behind_side addr type)
          (h.cut addr type) hsplay
        constructor <;> intro x hx
        · have hx := hleft x hx
          rw [Bool.eq_false_iff, Ne, Symbol.before_iff] at hx
          omega
        · have hx := hright x hx
          rw [Bool.eq_false_iff, Ne, Symbol.behind_iff] at hx
          omega

theorem SymbolsOrdered.splay (h : SymbolsOrdered root) (addr type : Word) :
    SymbolsOrdered (splay addr type root) := by
  rw [SymbolsOrdered, toList_splay]
  exact h

/-- A symbol put between the two sides of its place. -/
theorem SymbolsOrdered.insert {front rear : List Symbol}
    (h : (front ++ rear).Pairwise fun x y => x.place ≤ y.place)
    (hfront : ∀ x ∈ front, x.place ≤ sym.place)
    (hrear : ∀ x ∈ rear, sym.place ≤ x.place) :
    (front ++ sym :: rear).Pairwise fun x y => x.place ≤ y.place := by
  obtain ⟨hfirst, hlast, hboth⟩ := List.pairwise_append.mp h
  apply List.pairwise_append.mpr
  refine ⟨hfirst, List.pairwise_cons.mpr ⟨hrear, hlast⟩, ?_⟩
  intro x hx y hy
  rcases List.mem_cons.mp hy with rfl | hy
  · exact hfront x hx
  · exact hboth x hx y hy

theorem SymbolsOrdered.add (h : SymbolsOrdered root) (sym : Symbol) :
    SymbolsOrdered (symbolsAdd sym root) := by
  have hsplayed := h.splay sym.addr sym.type
  unfold symbolsAdd
  cases hsplay : BrickEmu.splay sym.addr sym.type root with
  | nil => exact List.pairwise_singleton _ _
  | node left top right =>
      obtain ⟨hleft, hright⟩ := splay_sides h hsplay
      rw [hsplay] at hsplayed
      have hall := List.pairwise_append.mp hsplayed
      have htop := (List.pairwise_cons.mp hall.2.1).1
      dsimp only
      split
      · next hle =>
          rw [Symbol.le_iff] at hle
          apply SymbolsOrdered.insert hsplayed hleft
          intro x hx
          rcases List.mem_cons.mp hx with rfl | hx
          · exact hle
          · exact hle.trans (htop x hx)
      · next hlt =>
          rw [Symbol.le_iff, not_le] at hlt
          have hlist : (node (node left top nil) sym right).toList =
              (left.toList ++ [top]) ++ sym :: right.toList := by
            simp [toList]
          rw [SymbolsOrdered, hlist]
          apply SymbolsOrdered.insert _ _ hright
          · simpa [SymbolsOrdered, toList] using hsplayed
          · intro x hx
            rcases List.mem_append.mp hx with hx | hx
            · exact (hall.2.2 x hx top List.mem_cons_self).trans hlt.le
            · rw [List.mem_singleton.mp hx]
              exact hlt.le

end Splay

/-! ## What a lookup returns -/

section Lookup

variable {root left right : SymbolTree} {sym : Symbol} {addr type : Word}

/-- The splay returns the symbol that the search finds. -/
theorem splayResult_eq (addr type : Word) (root : SymbolTree) :
    splayResult addr type root =
      match search addr type root with
      | nil => none
      | node _ sym _ => some sym := by
  by_cases hnil : root = nil
  · subst hnil
    rfl
  obtain ⟨ls, rs, left, sym, right, hsplay, -, -, hlands⟩ :=
    splay_eq hnil addr type
  rw [splayResult, hsplay, assemble]
  rcases hlands with hfind | ⟨hfind, hside⟩
  · have hsearch : search addr type root = node left sym right := hfind
    simp only [hsearch, isAt_of_search hsearch, if_true]
  · have hsearch : search addr type root = nil := hfind
    have hnot : ¬sym.isAt addr type = true := by
      rw [Symbol.isAt_iff]
      rcases hside with ⟨hlt, -⟩ | ⟨-, hgt, -⟩
      · rw [Symbol.before_iff] at hlt
        omega
      · rw [Symbol.behind_iff] at hgt
        omega
    simp only [hsearch, if_neg hnot]

theorem splayResult_of_search
    (hsearch : search addr type root = node left sym right) :
    splayResult addr type root = some sym := by
  rw [splayResult_eq, hsearch]

theorem symbolsGet_of_search
    (hsearch : search addr type root = node left sym right) :
    (symbolsGet addr type root).1 = some sym.name := by
  rw [symbolsGet, splayResult_of_search hsearch]
  rfl

/-- A lookup fails only when no symbol is at the place. -/
theorem symbolsGet_eq_none_iff (h : SymbolsOrdered root) :
    (symbolsGet addr type root).1 = none ↔
      ∀ x ∈ root.toList, x.isAt addr type = false := by
  rw [← search_eq_nil_iff h, symbolsGet, Option.map_eq_none_iff,
    splayResult_eq]
  cases search addr type root <;> simp

/-- A lookup returns the name of a symbol at the place. -/
theorem symbolsGet_eq_some {name : List Byte}
    (hget : (symbolsGet addr type root).1 = some name) :
    ∃ sym ∈ root.toList, sym.isAt addr type = true ∧ sym.name = name := by
  rw [symbolsGet, splayResult_eq] at hget
  cases hsearch : search addr type root with
  | nil =>
      rw [hsearch] at hget
      cases hget
  | node left sym right =>
      rw [hsearch] at hget
      cases hget
      exact ⟨sym, find_subset hsearch sym (by simp [toList]),
        isAt_of_search hsearch, rfl⟩

theorem toList_symbolsGet (addr type : Word) (root : SymbolTree) :
    (symbolsGet addr type root).2.toList = root.toList :=
  toList_splay addr type root

theorem SymbolsOrdered.get (h : SymbolsOrdered root) (addr type : Word) :
    SymbolsOrdered (symbolsGet addr type root).2 :=
  h.splay addr type

end Lookup

end BrickEmu
