import BrickEmu.HostInteger
import BrickEmu.SplayTree

/-!
# The symbol table

The table of `symbols.c` is a splay tree ordered by address and type.  Several
symbols may share a place; a new one is put before the one the splay finds.
Names are C strings without their terminating zero.
-/

namespace BrickEmu

structure Symbol where
  addr : Word
  type : Word
  name : List Byte
  deriving DecidableEq

abbrev SymbolTree := SplayTree Symbol

namespace Symbol

/-- The order of the table, with `type` as a signed number. -/
def before (addr type : Word) (sym : Symbol) : Bool :=
  addr < sym.addr || (addr = sym.addr && type.slt sym.type)

def behind (addr type : Word) (sym : Symbol) : Bool :=
  sym.addr < addr || (addr = sym.addr && sym.type.slt type)

def isAt (addr type : Word) (sym : Symbol) : Bool :=
  sym.addr = addr && sym.type = type

end Symbol

open SplayTree

def splay (addr type : Word) (root : SymbolTree) : SymbolTree :=
  match root with
  | nil => nil
  | node _ sym _ =>
      if sym.isAt addr type then root
      else splayLoop (Symbol.before addr type) (Symbol.behind addr type) root
        [] []

def symbolsAdd (sym : Symbol) (root : SymbolTree) : SymbolTree :=
  match splay sym.addr sym.type root with
  | nil => node nil sym nil
  | node left top right =>
      if sym.addr < top.addr ||
          (sym.addr = top.addr && sym.type.sle top.type) then
        node left sym (node nil top right)
      else node (node left top nil) sym right

/-- `symbols_iterate` moves the global root down the tree and puts it back;
the result holds the root afterwards. -/
def symbolsIterate {σ : Type} (f : σ → Symbol → σ) :
    SymbolTree → σ → SymbolTree × σ
  | nil, info => (nil, info)
  | node left sym right, info =>
      let (_, info) := symbolsIterate f left info
      let info := f info sym
      let (_, info) := symbolsIterate f right info
      (node left sym right, info)

theorem symbolsIterate_eq {σ : Type} (f : σ → Symbol → σ)
    (root : SymbolTree) (info : σ) :
    symbolsIterate f root info = (root, root.toList.foldl f info) := by
  induction root generalizing info with
  | nil => rfl
  | node left sym right ihleft ihright =>
      simp only [symbolsIterate, toList]
      rw [ihleft, ihright, List.foldl_append, List.foldl_cons]

theorem toList_splay (addr type : Word) (root : SymbolTree) :
    (splay addr type root).toList = root.toList := by
  cases root with
  | nil => rfl
  | node left sym right =>
      simp only [splay]
      split
      · rfl
      · rw [toList_splayLoop _ _ _ _ _ (by simp)]
        simp [closeLeft, closeRight, toList]

/-- A new symbol is inserted somewhere into the sequence. -/
theorem toList_symbolsAdd (sym : Symbol) (root : SymbolTree) :
    ∃ front rear, root.toList = front ++ rear ∧
      (symbolsAdd sym root).toList = front ++ sym :: rear := by
  have hsame := toList_splay sym.addr sym.type root
  unfold symbolsAdd
  cases hsplay : splay sym.addr sym.type root with
  | nil =>
      rw [hsplay] at hsame
      exact ⟨[], [], hsame.symm, rfl⟩
  | node left top right =>
      rw [hsplay] at hsame
      dsimp only
      split
      · exact ⟨left.toList, top :: right.toList, hsame.symm, rfl⟩
      · refine ⟨left.toList ++ [top], right.toList, ?_, ?_⟩
        · rw [← hsame]
          simp [toList]
        · simp [toList]

theorem symbolsAdd_perm (sym : Symbol) (root : SymbolTree) :
    (symbolsAdd sym root).toList.Perm (sym :: root.toList) := by
  obtain ⟨front, rear, hroot, hadd⟩ := toList_symbolsAdd sym root
  rw [hroot, hadd]
  exact List.perm_middle

/-- Inserting a list of symbols adds exactly these. -/
theorem foldl_symbolsAdd_perm (syms : List Symbol) (root : SymbolTree) :
    (syms.foldl (fun root sym => symbolsAdd sym root) root).toList.Perm
      (syms ++ root.toList) := by
  induction syms generalizing root with
  | nil => exact List.Perm.refl _
  | cons sym syms ih =>
      simp only [List.foldl_cons, List.cons_append]
      apply (ih (symbolsAdd sym root)).trans
      exact ((symbolsAdd_perm sym root).append_left syms).trans
        List.perm_middle

end BrickEmu
