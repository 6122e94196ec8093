import BrickEmu.SymbolLookups

/-!
# The symbol table through splays, insertions and walks

A splay keeps the sequence of the table and returns a symbol exactly when one
is at the place.  A new symbol keeps the sequence in order, so that after any
calls of `symbols_add` and `symbols_get` the walk meets the added symbols in
order and a name stands for the first of them.
-/

namespace BrickEmu

open SplayTree

/-- The pointer that `splay` returns: the old root on the fast path, otherwise
the variable of the loop. -/
def splayReturns (addr type : Word) (root : SymbolTree) : Option Symbol :=
  match root with
  | nil => none
  | node _ sym _ =>
      if sym.isAt addr type then some sym
      else splayFound (Symbol.before addr type) (Symbol.behind addr type) root

/-- The symbols that `symbols_iterate` visits, with the root afterwards. -/
def symbolsVisited (root : SymbolTree) : SymbolTree × List Symbol :=
  symbolsIterate (fun visited sym => visited ++ [sym]) root []

section Splay

variable {root left right : SymbolTree} {sym : Symbol} {addr type : Word}

theorem splayReturns_eq_some :
    splayReturns addr type root = some sym ↔
      ∃ left right, search addr type root = node left sym right := by
  cases root with
  | nil => simp [splayReturns, search, find]
  | node left top right =>
      rw [splayReturns]
      split_ifs with hat
      · rw [search_root hat]
        simp
      · exact splayFound_eq_some (Symbol.behind_side addr type) _ sym

/-- The loop's variable names the symbol that the splay leaves at the root. -/
theorem splayReturns_eq (addr type : Word) (root : SymbolTree) :
    splayReturns addr type root = splayResult addr type root := by
  apply Option.ext
  intro sym
  rw [splayReturns_eq_some, splayResult_eq]
  cases search addr type root with
  | nil => simp
  | node left top right => simp

theorem splayReturns_root (hreturns : splayReturns addr type root = some sym) :
    sym.isAt addr type = true ∧
      ∃ left right, splay addr type root = node left sym right := by
  rw [splayReturns_eq, splayResult] at hreturns
  cases hsplay : splay addr type root with
  | nil =>
      rw [hsplay] at hreturns
      cases hreturns
  | node left top right =>
      rw [hsplay] at hreturns
      dsimp only at hreturns
      split_ifs at hreturns with hat
      cases hreturns
      exact ⟨hat, left, right, rfl⟩

theorem splayReturns_isSome_iff (h : SymbolsOrdered root) :
    (splayReturns addr type root).isSome = true ↔
      ∃ sym ∈ root.toList, sym.isAt addr type = true := by
  have hnone : (splayResult addr type root).map Symbol.name = none ↔
      ∀ x ∈ root.toList, x.isAt addr type = false :=
    symbolsGet_eq_none_iff h
  rw [Option.map_eq_none_iff] at hnone
  rw [splayReturns_eq, Option.isSome_iff_ne_none, ne_eq, hnone]
  simp

end Splay

theorem symbolsVisited_eq (root : SymbolTree) :
    symbolsVisited root = (root, root.toList) := by
  rw [symbolsVisited, symbolsIterate_eq]
  have hfold (syms visited : List Symbol) :
      syms.foldl (fun visited sym => visited ++ [sym]) visited =
        visited ++ syms := by
    induction syms generalizing visited with
    | nil => simp
    | cons sym syms ih =>
        rw [List.foldl_cons, ih, List.append_assoc]
        rfl
  rw [hfold, List.nil_append]

/-- A splay of an ordered table keeps the sequence, and it returns a symbol at
the place, then the root, exactly when there is one.  An insertion puts the
symbol into the sequence and keeps the order.  After any insertions and
lookups the walk visits the added symbols in order and leaves the table alone,
and a name that is nowhere at address 0 stands for its first symbol. -/
theorem symbolTable_sorted :
    (∀ (root : SymbolTree) (addr type : Word), SymbolsOrdered root →
      (splay addr type root).toList = root.toList ∧
      ((splayReturns addr type root).isSome = true ↔
        ∃ sym ∈ root.toList, sym.isAt addr type = true) ∧
      ∀ sym, splayReturns addr type root = some sym →
        sym.isAt addr type = true ∧
          ∃ left right, splay addr type root = node left sym right) ∧
    (∀ (root : SymbolTree) (sym : Symbol), SymbolsOrdered root →
      SymbolsOrdered (symbolsAdd sym root) ∧
        ∃ front rear, root.toList = front ++ rear ∧
          (symbolsAdd sym root).toList = front ++ sym :: rear) ∧
    ∀ (syms : List Symbol) (root : SymbolTree), TableOf syms root →
      ∃ visited, symbolsVisited root = (root, visited) ∧
        visited.Perm syms ∧
        visited.Pairwise (fun x y => x.place ≤ y.place) ∧
        ∀ name, (∀ sym ∈ syms, name = sym.name → sym.addr ≠ 0) →
          symbolsGetaddr name root =
            ((visited.find? fun sym => name = sym.name).map
              Symbol.addr).getD 0 := by
  refine ⟨fun root addr type h => ?_, fun root sym h => ?_,
    fun syms root h => ?_⟩
  · exact ⟨toList_splay addr type root, splayReturns_isSome_iff h,
      fun sym => splayReturns_root⟩
  · exact ⟨h.add sym, toList_symbolsAdd sym root⟩
  · refine ⟨root.toList, symbolsVisited_eq root, h.perm, h.ordered, ?_⟩
    intro name hname
    apply symbolsGetaddr_eq_find
    intro sym hsym
    exact hname sym (h.perm.subset hsym)

/-- Two symbols at one place, one of them looked up. -/
theorem symbolTable_sorted_pair :
    let first : Symbol := ⟨0x8000, 1, [0x61]⟩
    let second : Symbol := ⟨0x8000, 1, [0x62]⟩
    let root := (Lookup.get 0x8000 1).run
      (symbolsAdd second (symbolsAdd first nil))
    ∃ visited, symbolsVisited root = (root, visited) ∧
      visited.Perm [second, first] ∧
      visited.Pairwise (fun x y => x.place ≤ y.place) ∧
      ∀ name, (∀ sym ∈ [second, first], name = sym.name → sym.addr ≠ 0) →
        symbolsGetaddr name root =
          ((visited.find? fun sym => name = sym.name).map
            Symbol.addr).getD 0 :=
  symbolTable_sorted.2.2 _ _
    (((TableOf.empty.add _).add _).lookup (.get 0x8000 1))

end BrickEmu
