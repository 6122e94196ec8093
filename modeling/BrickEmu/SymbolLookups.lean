import BrickEmu.SymbolOrder

/-!
# Lookups between lookups

A lookup moves symbols in the tree.  What the next lookup returns is the same
as before when all symbols at a place have one name, and when no name stands
both at address 0, which `symbols_getaddr` takes for a name not found, and at
another address.  At the greatest place several names do no harm, because no
splay goes beyond it.
-/

namespace BrickEmu

open SplayTree

inductive Lookup where
  | get (addr type : Word)
  | getaddr (name : List Byte)

def Lookup.run : Lookup → SymbolTree → SymbolTree
  | .get addr type, root => (symbolsGet addr type root).2
  | .getaddr _, root => root

def runLookups (calls : List Lookup) (root : SymbolTree) : SymbolTree :=
  calls.foldl (fun root call => call.run root) root

/-- Every lookup returns the same before and after any sequence of
lookups. -/
def LookupsPure (root : SymbolTree) : Prop :=
  ∀ calls : List Lookup,
    (∀ addr type, (symbolsGet addr type (runLookups calls root)).1 =
      (symbolsGet addr type root).1) ∧
    ∀ name, symbolsGetaddr name (runLookups calls root) =
      symbolsGetaddr name root

/-- The trees that arise when symbols are added and looked up, with the
symbols added so far, the last one first. -/
inductive TableOf : List Symbol → SymbolTree → Prop
  | empty : TableOf [] nil
  | add {syms : List Symbol} {root : SymbolTree} (sym : Symbol) :
      TableOf syms root → TableOf (sym :: syms) (symbolsAdd sym root)
  | lookup {syms : List Symbol} {root : SymbolTree} (call : Lookup) :
      TableOf syms root → TableOf syms (call.run root)

/-- The last place in the order. -/
def Symbol.Last (sym : Symbol) : Prop :=
  sym.addr = 0xffff ∧ sym.type = 0x7fff

instance (sym : Symbol) : Decidable sym.Last :=
  inferInstanceAs (Decidable (_ ∧ _))

/-- Two symbols that share their place share their name, except at the last
place; a name at address 0 is at no other address. -/
structure Harmless (syms : List Symbol) : Prop where
  names : ∀ x ∈ syms, ∀ y ∈ syms, x.addr = y.addr → x.type = y.type →
    x.name = y.name ∨ x.Last
  addrs : ∀ x ∈ syms, ∀ y ∈ syms, x.name = y.name → x.addr = 0 → y.addr = 0

section Tables

variable {syms : List Symbol} {root left right : SymbolTree} {sym : Symbol}
  {addr type : Word} {name : List Byte}

theorem TableOf.ordered (h : TableOf syms root) : SymbolsOrdered root := by
  induction h with
  | empty => exact List.Pairwise.nil
  | add sym _ ih => exact ih.add sym
  | lookup call _ ih =>
      cases call with
      | get addr type => exact ih.get addr type
      | getaddr name => exact ih

theorem toList_run (call : Lookup) (root : SymbolTree) :
    (call.run root).toList = root.toList := by
  cases call with
  | get addr type => exact toList_symbolsGet addr type root
  | getaddr name => rfl

theorem TableOf.perm (h : TableOf syms root) : root.toList.Perm syms := by
  induction h with
  | empty => exact List.Perm.refl _
  | add sym _ ih => exact (symbolsAdd_perm sym _).trans (ih.cons sym)
  | lookup call _ ih =>
      rw [toList_run]
      exact ih

theorem TableOf.runLookups (h : TableOf syms root) (calls : List Lookup) :
    TableOf syms (runLookups calls root) := by
  induction calls generalizing root with
  | nil => exact h
  | cons call calls ih => exact ih (h.lookup call)

theorem toList_runLookups (calls : List Lookup) (root : SymbolTree) :
    (runLookups calls root).toList = root.toList := by
  induction calls generalizing root with
  | nil => rfl
  | cons call calls ih =>
      exact (ih (call.run root)).trans (toList_run call root)

theorem exists_tableOf (syms : List Symbol) : ∃ root, TableOf syms root := by
  induction syms with
  | nil => exact ⟨nil, .empty⟩
  | cons sym syms ih =>
      obtain ⟨root, h⟩ := ih
      exact ⟨_, h.add sym⟩

end Tables

/-! ## Looking up a name -/

section Names

variable {root left right : SymbolTree} {sym : Symbol} {name : List Byte}

theorem symbolsGetaddr_eq_zero
    (hzero : ∀ x ∈ root.toList, name = x.name → x.addr = 0) :
    symbolsGetaddr name root = 0 := by
  induction root with
  | nil => rfl
  | node left sym right ihleft ihright =>
      have hleft := ihleft fun x hx => hzero x (by simp [toList, hx])
      have hright := ihright fun x hx => hzero x (by simp [toList, hx])
      simp only [symbolsGetaddr, hleft, ne_eq, not_true_eq_false, if_false]
      split_ifs with hname
      · exact hzero sym (by simp [toList]) hname
      · exact hright

/-- Away from address 0 the first symbol with the name is found. -/
theorem symbolsGetaddr_eq_find
    (hne : ∀ x ∈ root.toList, name = x.name → x.addr ≠ 0) :
    symbolsGetaddr name root =
      ((root.toList.find? fun x => name = x.name).map Symbol.addr).getD 0 := by
  induction root with
  | nil => rfl
  | node left sym right ihleft ihright =>
      have hleft := ihleft fun x hx => hne x (by simp [toList, hx])
      have hright := ihright fun x hx => hne x (by simp [toList, hx])
      simp only [symbolsGetaddr, toList, List.find?_append, List.find?_cons]
      cases hfound : left.toList.find? fun x => name = x.name with
      | some x =>
          have hx := List.mem_of_find?_eq_some hfound
          have hname : name = x.name := by
            simpa using List.find?_some hfound
          have haddr := hne x (by simp [toList, hx]) hname
          rw [hleft, hfound]
          exact if_pos haddr
      | none =>
          rw [hfound] at hleft
          rw [hleft]
          by_cases hname : name = sym.name
          · simp [hname]
          · simp [hname, hright]

/-- A name that is only at addresses other than 0 is found. -/
theorem symbolsGetaddr_ne_zero
    (hne : ∀ x ∈ root.toList, name = x.name → x.addr ≠ 0)
    (hsym : sym ∈ root.toList) (hname : name = sym.name) :
    symbolsGetaddr name root ≠ 0 := by
  rw [symbolsGetaddr_eq_find hne]
  cases hfound : root.toList.find? fun x => name = x.name with
  | none =>
      have hnone := List.find?_eq_none.mp hfound sym hsym
      simp [hname] at hnone
  | some x =>
      have hx : name = x.name := by
        simpa using List.find?_some hfound
      exact hne x (List.mem_of_find?_eq_some hfound) hx

end Names

/-! ## Looking up a place -/

section Places

variable {syms : List Symbol} {root left right : SymbolTree} {sym : Symbol}
  {addr type : Word} {name : List Byte}

/-- Where all symbols at a place have one name, the lookup returns it. -/
theorem symbolsGet_eq_find (h : SymbolsOrdered root)
    (hsame : ∀ x ∈ root.toList, ∀ y ∈ root.toList,
      x.isAt addr type = true → y.isAt addr type = true →
        x.name = y.name) :
    (symbolsGet addr type root).1 =
      (root.toList.find? fun x => x.isAt addr type).map Symbol.name := by
  cases hget : (symbolsGet addr type root).1 with
  | none =>
      rw [symbolsGet_eq_none_iff h] at hget
      rw [List.find?_eq_none.mpr]
      · rfl
      · intro x hx
        simp [hget x hx]
  | some name =>
      obtain ⟨sym, hsym, hat, rfl⟩ := symbolsGet_eq_some hget
      cases hfound : root.toList.find? fun x => x.isAt addr type with
      | none =>
          have hnone := List.find?_eq_none.mp hfound sym hsym
          simp [hat] at hnone
      | some x =>
          have hx := List.find?_some hfound
          have hname := hsame x (List.mem_of_find?_eq_some hfound) sym hsym hx
            hat
          simp [hname]

/-- The test for the last place. -/
abbrev atLast : Symbol → Bool :=
  Symbol.isAt 0xffff 0x7fff

theorem place_le_last (addr type : Word) :
    place addr type ≤ place 0xffff 0x7fff := by
  have haddr := addr.isLt
  have htype := Symbol.toNat_type_lt type
  have hlast : place 0xffff 0x7fff = 65535 * 65536 + 65535 := by decide
  unfold place at *
  omega

theorem atLast_of_before (hbefore : Symbol.behind addr type sym = true) :
    atLast sym = false := by
  rw [Symbol.behind_iff] at hbefore
  have hle := place_le_last addr type
  rw [Bool.eq_false_iff, Ne, Symbol.isAt_iff]
  omega

/-- The topmost symbol at the last place is the first one there. -/
theorem TableOf.firstOfKind (h : TableOf syms root) :
    FirstOfKind atLast root := by
  have hsplay : ∀ {root : SymbolTree}, SymbolsOrdered root →
      FirstOfKind atLast root → ∀ addr type,
        FirstOfKind atLast (splay addr type root) := by
    intro root hordered hfirst addr type
    cases root with
    | nil => exact trivial
    | node left sym right =>
        rw [splay]
        split_ifs
        · exact hfirst
        · exact FirstOfKind.splays (fun _ => atLast_of_before)
            (hordered.cut addr type) hfirst (by simp [closeLeft, toList])
  induction h with
  | empty => exact trivial
  | @add syms root sym h ih =>
      have hroot := hsplay h.ordered ih sym.addr sym.type
      have hordered := h.ordered.splay sym.addr sym.type
      unfold symbolsAdd
      cases hsplayed : splay sym.addr sym.type root with
      | nil => exact ⟨trivial, trivial, by simp [toList]⟩
      | node left top right =>
          rw [hsplayed] at hroot hordered
          obtain ⟨hleft, hright, htop⟩ := hroot
          dsimp only
          split
          · next hle =>
              rw [Symbol.le_iff] at hle
              refine ⟨hleft, ⟨trivial, hright, by simp [toList]⟩, ?_⟩
              intro hsym
              rw [Symbol.isAt_iff] at hsym
              apply htop
              have hlast := place_le_last top.addr top.type
              have hplace : top.place = place top.addr top.type := rfl
              rw [Symbol.isAt_iff]
              omega
          · next hlt =>
              rw [Symbol.le_iff, not_le] at hlt
              refine ⟨⟨hleft, trivial, htop⟩, hright, ?_⟩
              intro _ x hx
              have hle : x.place ≤ top.place := by
                simp only [toList, List.mem_append, List.mem_singleton] at hx
                rcases hx with hx | rfl
                · exact (List.pairwise_append.mp hordered).2.2 x hx top
                    List.mem_cons_self
                · exact le_rfl
              have hlast := place_le_last sym.addr sym.type
              have hplace : sym.place = place sym.addr sym.type := rfl
              rw [Bool.eq_false_iff, Ne, Symbol.isAt_iff]
              omega
  | lookup call h ih =>
      cases call with
      | get addr type => exact hsplay h.ordered ih addr type
      | getaddr name => exact ih

/-- At the last place a lookup returns the first symbol in the sequence. -/
theorem symbolsGet_last (h : SymbolsOrdered root)
    (hfirst : FirstOfKind atLast root) :
    (symbolsGet 0xffff 0x7fff root).1 =
      (root.toList.find? atLast).map Symbol.name := by
  rw [symbolsGet, splayResult_eq]
  induction root with
  | nil => rfl
  | node left sym right ihleft ihright =>
      obtain ⟨-, hright, hsym⟩ := hfirst
      have hnot : Symbol.before 0xffff 0x7fff sym = false := by
        have hle := place_le_last sym.addr sym.type
        have hplace : sym.place = place sym.addr sym.type := rfl
        rw [Bool.eq_false_iff, Ne, Symbol.before_iff]
        omega
      simp only [toList, List.find?_append]
      by_cases hat : atLast sym = true
      · rw [search_root hat, List.find?_eq_none.mpr]
        · simp [hat]
        · intro x hx
          simp [hsym hat x hx]
      · have hbefore : Symbol.behind 0xffff 0x7fff sym = true := by
          rw [Symbol.isAt_iff] at hat
          rw [Bool.eq_false_iff, Ne, Symbol.before_iff] at hnot
          rw [Symbol.behind_iff]
          omega
        rw [List.find?_eq_none.mpr, Option.none_or, List.find?_cons_of_neg hat,
          ← ihright h.rightTree hright]
        · simp only [search, find, hnot, hbefore, if_true]
          rfl
        · intro x hx
          have hxbefore := ((h.cut 0xffff 0x7fff).left_of hx).2 hbefore
          simp [atLast_of_before hxbefore]

theorem Harmless.perm {order : List Symbol} (hsyms : Harmless syms)
    (hperm : order.Perm syms) : Harmless order :=
  ⟨fun x hx y hy => hsyms.names x (hperm.subset hx) y (hperm.subset hy),
    fun x hx y hy => hsyms.addrs x (hperm.subset hx) y (hperm.subset hy)⟩

theorem TableOf.symbolsGet_eq (h : TableOf syms root)
    (hsyms : Harmless syms) (addr type : Word) :
    (symbolsGet addr type root).1 =
      (root.toList.find? fun x => x.isAt addr type).map Symbol.name := by
  by_cases hlast : addr = 0xffff ∧ type = 0x7fff
  · obtain ⟨rfl, rfl⟩ := hlast
    exact symbolsGet_last h.ordered h.firstOfKind
  · apply symbolsGet_eq_find h.ordered
    intro x hx y hy hatx haty
    simp only [Symbol.isAt, Bool.and_eq_true, decide_eq_true_eq] at hatx haty
    rcases hsyms.names x (h.perm.subset hx) y (h.perm.subset hy)
      (hatx.1.trans haty.1.symm) (hatx.2.trans haty.2.symm) with hname | hx
    · exact hname
    · exact absurd ⟨hatx.1.symm.trans hx.1, hatx.2.symm.trans hx.2⟩ hlast

theorem TableOf.symbolsGetaddr_eq (h : TableOf syms root)
    (hsyms : Harmless syms) (name : List Byte) :
    symbolsGetaddr name root =
      ((root.toList.find? fun x => name = x.name).map Symbol.addr).getD 0 := by
  by_cases hzero : ∃ x ∈ root.toList, name = x.name ∧ x.addr = 0
  · obtain ⟨x, hx, hname, haddr⟩ := hzero
    have hall : ∀ y ∈ root.toList, name = y.name → y.addr = 0 := fun y hy hy' =>
      hsyms.addrs x (h.perm.subset hx) y (h.perm.subset hy)
        (hname.symm.trans hy') haddr
    rw [symbolsGetaddr_eq_zero hall]
    cases hfound : root.toList.find? fun x => name = x.name with
    | none => rfl
    | some y =>
        have hy : name = y.name := by simpa using List.find?_some hfound
        exact (hall y (List.mem_of_find?_eq_some hfound) hy).symm
  · apply symbolsGetaddr_eq_find
    intro x hx hname haddr
    exact hzero ⟨x, hx, hname, haddr⟩

theorem TableOf.pure (h : TableOf syms root) (hsyms : Harmless syms) :
    LookupsPure root := by
  intro calls
  have hafter := h.runLookups calls
  constructor
  · intro addr type
    rw [hafter.symbolsGet_eq hsyms, h.symbolsGet_eq hsyms,
      toList_runLookups]
  · intro name
    rw [hafter.symbolsGetaddr_eq hsyms, h.symbolsGetaddr_eq hsyms,
      toList_runLookups]

end Places

/-! ## Two names at one place -/

section Pairs

variable {syms : List Symbol} {root left right rest : SymbolTree}
  {sym : Symbol} {addr type : Word} {name : List Byte}

/-- A new symbol comes to the root, whatever its name. -/
theorem symbolsAdd_root (addr type : Word) (root : SymbolTree) :
    ∃ left right, ∀ name, symbolsAdd ⟨addr, type, name⟩ root =
      node left ⟨addr, type, name⟩ right := by
  cases hsplay : splay addr type root with
  | nil => exact ⟨nil, nil, fun name => by simp [symbolsAdd, hsplay]⟩
  | node left top right =>
      by_cases hle : addr < top.addr ∨ addr = top.addr ∧ type.sle top.type
      · exact ⟨left, node nil top right, fun name => by
          simp [symbolsAdd, hsplay, hle]⟩
      · exact ⟨node left top nil, right, fun name => by
          simp [symbolsAdd, hsplay, hle]⟩

theorem symbolsAdd_again (addr type : Word) (name name' : List Byte)
    (left right : SymbolTree) :
    symbolsAdd ⟨addr, type, name'⟩ (node left ⟨addr, type, name⟩ right) =
      node left ⟨addr, type, name'⟩
        (node nil ⟨addr, type, name⟩ right) := by
  simp [symbolsAdd, splay, Symbol.isAt, BitVec.sle]

/-- A lookup at the last place turns two symbols at the root around, or brings
a third one above them. -/
theorem symbolsGet_turned
    (hlast : place addr type < place 0xffff 0x7fff)
    (hordered : SymbolsOrdered (node left ⟨addr, type, []⟩
      (node nil ⟨addr, type, []⟩ rest))) :
    ∃ other : Option (List Byte), ∀ name name',
      (symbolsGet addr type (symbolsGet 0xffff 0x7fff
        (node left ⟨addr, type, name⟩
          (node nil ⟨addr, type, name'⟩ rest))).2).1 =
        some (other.getD name') := by
  have hat : ∀ name, (⟨addr, type, name⟩ : Symbol).isAt addr type = true := by
    simp [Symbol.isAt]
  have hbehind : ∀ name, Symbol.behind 0xffff 0x7fff
      (⟨addr, type, name⟩ : Symbol) = true := by
    intro name
    rw [Symbol.behind_iff]
    exact hlast
  have hroot : ∀ name, ¬(⟨addr, type, name⟩ : Symbol).isAt 0xffff 0x7fff =
      true := by
    intro name
    rw [Symbol.isAt_iff]
    exact hlast.ne
  have hbefore : ∀ name, Symbol.before 0xffff 0x7fff
      (⟨addr, type, name⟩ : Symbol) = false :=
    fun name => Symbol.behind_side _ _ _ (hbehind name)
  have hloop : ∀ name name', splay 0xffff 0x7fff (node left
      ⟨addr, type, name⟩ (node nil ⟨addr, type, name'⟩ rest)) =
        if rest = nil then
          assemble [] [] (node left ⟨addr, type, name⟩ nil)
            ⟨addr, type, name'⟩ nil
        else splayLoop (Symbol.before 0xffff 0x7fff)
          (Symbol.behind 0xffff 0x7fff) rest
          [(⟨addr, type, name'⟩, node left ⟨addr, type, name⟩ nil)] [] :=
    fun name name' => (if_neg (hroot name)).trans
      (splayLoop_pair (hbefore name) (hbehind name) (hbehind name') [] [])
  by_cases hnil : rest = nil
  · refine ⟨none, fun name name' => ?_⟩
    change _ = some (Symbol.name ⟨addr, type, name'⟩)
    apply symbolsGet_of_search
    rw [symbolsGet, hloop, if_pos hnil]
    exact search_root (hat name')
  obtain ⟨ls, rs, l, v, r, hsplayed⟩ := splayLoop_splayed
    (Symbol.behind_side 0xffff 0x7fff) rest hnil
  -- the symbol that comes to the root does not depend on the names
  have hsplay : ∀ name name', splay 0xffff 0x7fff (node left
      ⟨addr, type, name⟩ (node nil ⟨addr, type, name'⟩ rest)) =
        node (node (node left ⟨addr, type, name⟩ nil) ⟨addr, type, name'⟩
          (closeLeft ls l)) v (closeRight rs r) := by
    intro name name'
    rw [hloop, if_neg hnil, hsplayed.result, List.append_nil, assemble,
      closeLeft_append]
  have hv : place addr type ≤ v.place := by
    have hlist := toList_splayLoop (Symbol.before 0xffff 0x7fff)
      (Symbol.behind 0xffff 0x7fff) rest [] [] hnil
    rw [hsplayed.result, toList_assemble] at hlist
    have hmem : v ∈ rest.toList := by
      have hmem : v ∈ (closeLeft [] nil).toList ++ rest.toList ++
          (closeRight [] nil).toList := by
        rw [← hlist]
        simp [toList]
      simpa [closeLeft, closeRight, toList] using hmem
    exact (List.pairwise_cons.mp (List.pairwise_append.mp hordered).2.1).1 v
      (by simp [toList, hmem])
  by_cases hvat : v.isAt addr type = true
  · refine ⟨some v.name, fun name name' => ?_⟩
    apply symbolsGet_of_search
    rw [symbolsGet, hsplay]
    exact search_root hvat
  · refine ⟨none, fun name name' => ?_⟩
    change _ = some (Symbol.name ⟨addr, type, name'⟩)
    apply symbolsGet_of_search
    rw [symbolsGet, hsplay, search, find, if_pos]
    · exact search_root (hat name')
    · rw [Symbol.isAt_iff] at hvat
      rw [Symbol.before_iff]
      omega

end Pairs

/-! ## One name at address 0 and elsewhere -/

section Leads

variable {syms : List Symbol} {root left right : SymbolTree}
  {sym top : Symbol} {addr type : Word}

/-- The search for the place of a symbol ends at the symbol or at one that has
it on the right. -/
def Leads (sym : Symbol) (root : SymbolTree) : Prop :=
  ∃ left top right, search sym.addr sym.type root = node left top right ∧
    sym ∈ top :: right.toList

theorem isAt_self (sym : Symbol) : sym.isAt sym.addr sym.type = true := by
  simp [Symbol.isAt]

theorem leads_root (sym : Symbol) (left right : SymbolTree) :
    Leads sym (node left sym right) :=
  ⟨left, sym, right, search_root (isAt_self sym), List.mem_cons_self⟩

theorem Leads.mem (h : Leads sym root) : sym ∈ root.toList := by
  obtain ⟨left, top, right, hsearch, hmem⟩ := h
  apply find_subset hsearch sym
  rw [toList]
  exact List.mem_append_right _ hmem

theorem Leads.cons (hle : top.place ≤ sym.place) (h : Leads sym right) :
    Leads sym (node left top right) := by
  have hplace : sym.place = place sym.addr sym.type := rfl
  by_cases hat : top.isAt sym.addr sym.type = true
  · exact ⟨left, top, right, search_root hat,
      List.mem_cons_of_mem _ h.mem⟩
  · obtain ⟨l, t, r, hsearch, hmem⟩ := h
    refine ⟨l, t, r, ?_, hmem⟩
    rw [Symbol.isAt_iff] at hat
    rw [search, find, if_neg, if_pos]
    · exact hsearch
    · rw [Symbol.behind_iff]
      omega
    · rw [Symbol.before_iff]
      omega

/-- What lies before the symbol does not matter. -/
theorem Leads.change (h : Leads sym (node left top right))
    (hlow : ∀ x ∈ left.toList, x.place < sym.place) (left' : SymbolTree) :
    Leads sym (node left' top right) := by
  have hplace : sym.place = place sym.addr sym.type := rfl
  by_cases hat : top.isAt sym.addr sym.type = true
  · obtain ⟨l, t, r, hsearch, hmem⟩ := h
    rw [search_root hat] at hsearch
    cases hsearch
    exact ⟨left', top, right, search_root hat, hmem⟩
  · obtain ⟨l, t, r, hsearch, hmem⟩ := h
    rw [Symbol.isAt_iff] at hat
    by_cases hbefore : Symbol.before sym.addr sym.type top = true
    · rw [search, find, if_pos hbefore] at hsearch
      have hlt := hlow t (find_subset hsearch t (by simp [toList]))
      have ht := isAt_of_search hsearch
      rw [Symbol.isAt_iff] at ht
      omega
    · refine ⟨l, t, r, ?_, hmem⟩
      rw [search, find, if_neg hbefore] at hsearch ⊢
      rw [Symbol.before_iff] at hbefore
      rw [if_pos] at hsearch ⊢
      · exact hsearch
      · rw [Symbol.behind_iff]
        omega
      · rw [Symbol.behind_iff]
        omega

/-- Below a root that lies before the symbol the search goes right. -/
theorem Leads.onRight (h : Leads sym (node left top right))
    (hlt : top.place < sym.place) : Leads sym right := by
  have hplace : sym.place = place sym.addr sym.type := rfl
  obtain ⟨l, t, r, hsearch, hmem⟩ := h
  refine ⟨l, t, r, ?_, hmem⟩
  rw [search, find, if_neg, if_pos] at hsearch
  · exact hsearch
  · rw [Symbol.behind_iff]
    omega
  · rw [Symbol.before_iff]
    omega

/-- A splay to an earlier place brings no symbol behind the root above it. -/
theorem Leads.splay (hordered : SymbolsOrdered (node left sym right))
    (hlt : place addr type < sym.place) :
    Leads sym (splay addr type (node left sym right)) := by
  have hplace : sym.place = place sym.addr sym.type := rfl
  have hnot : ¬sym.isAt addr type = true := by
    rw [Symbol.isAt_iff]
    omega
  have hbefore : Symbol.before addr type sym = true := by
    rw [Symbol.before_iff]
    exact hlt
  have hle : ∀ x ∈ left.toList, x.place ≤ sym.place := fun x hx =>
    (List.pairwise_append.mp hordered).2.2 x hx sym List.mem_cons_self
  rw [BrickEmu.splay, if_neg hnot, splayLoop_left hbefore]
  -- the symbol stays the root of the last subtree on the right
  have hlink : ∀ (t : SymbolTree) (y : Symbol) (b : SymbolTree), t ≠ nil →
      (∀ x ∈ t.toList, x.place ≤ sym.place) →
      (∀ a, Leads sym (node a y b)) →
      Leads sym (splayLoop (Symbol.before addr type)
        (Symbol.behind addr type) t [] [(y, b)]) := by
    intro t y b hnil ht hb
    obtain ⟨l, v, r, hv, hresult⟩ :=
      splayLoop_link (Symbol.behind_side addr type) hnil (y, b)
    rw [hresult]
    exact (hb r).cons (ht v hv)
  rcases left with _ | ⟨_ | ⟨a, x, b⟩, y, c⟩
  · exact leads_root sym nil right
  · have hy := hle y (by simp [toList])
    dsimp only
    split_ifs
    · exact (leads_root sym c right).cons hy
    · exact hlink _ _ _ (by simp) hle fun a => leads_root sym a right
  · have hy := hle y (by simp [toList])
    dsimp only
    split_ifs
    · exact hlink _ _ _ (by simp) (fun z hz => hle z (by
        simp only [toList, List.mem_append] at hz ⊢
        exact Or.inl hz)) fun a => (leads_root sym c right).cons hy
    · exact hlink _ _ _ (by simp) hle fun a => leads_root sym a right

/-- An earlier symbol that is added leaves the way to the symbol open. -/
theorem Leads.add {new : Symbol}
    (hordered : SymbolsOrdered (node left sym right))
    (hlt : new.place < sym.place) :
    ∃ l r, symbolsAdd new (node left sym right) = node l new r ∧
      Leads sym (node l new r) := by
  have hsplayed : Leads sym
      (BrickEmu.splay new.addr new.type (node left sym right)) :=
    Leads.splay hordered hlt
  unfold symbolsAdd
  cases hsplay : BrickEmu.splay new.addr new.type (node left sym right) with
  | nil =>
      rw [hsplay] at hsplayed
      exact absurd hsplayed.mem (by simp [toList])
  | node l top r =>
      rw [hsplay] at hsplayed
      have hlow : ∀ x ∈ l.toList, x.place < sym.place := fun x hx =>
        ((splay_sides hordered hsplay).1 x hx).trans_lt hlt
      dsimp only
      split
      · exact ⟨_, _, rfl, (hsplayed.change hlow nil).cons hlt.le⟩
      · next hgt =>
          rw [Symbol.le_iff, not_le] at hgt
          exact ⟨_, _, rfl, (hsplayed.onRight (hgt.trans hlt)).cons hlt.le⟩

/-- A lookup of the symbol's place puts it at the root or on the right. -/
theorem Leads.get (h : Leads sym root) :
    ∃ left top right,
      (symbolsGet sym.addr sym.type root).2 = node left top right ∧
      top.isAt sym.addr sym.type = true ∧ sym ∈ top :: right.toList := by
  obtain ⟨l, t, r, hsearch, hmem⟩ := h
  have hnil : root ≠ nil := by
    rintro rfl
    cases hsearch
  obtain ⟨ls, rs, l', t', r', hsplay, -, -, hlands⟩ :=
    splay_eq hnil sym.addr sym.type
  rcases hlands with hfind | ⟨hfind, -⟩
  · have hsame : node l t r = node l' t' r' := hsearch.symm.trans hfind
    cases hsame
    refine ⟨_, t, closeRight rs r, hsplay, isAt_of_search hsearch, ?_⟩
    rcases List.mem_cons.mp hmem with rfl | hmem
    · exact List.mem_cons_self
    · rw [toList_closeRight]
      simp [hmem]
  · exact absurd (hsearch.symm.trans hfind) (by simp)

end Leads

section Conflicts

variable {syms : List Symbol} {root left right : SymbolTree}
  {sym zero : Symbol}

theorem addr_le_of_place_le {x y : Symbol} (hle : x.place ≤ y.place) :
    x.addr.toNat ≤ y.addr.toNat := by
  have hx := Symbol.toNat_type_lt x.type
  have hy := Symbol.toNat_type_lt y.type
  simp only [Symbol.place, place] at hle
  omega

/-- A name at address 0 that is added last hides the name elsewhere, until the
other symbol is looked up. -/
theorem not_pure_of_zero (hsyms : TableOf syms root)
    (hname : zero.name = sym.name) (hzero : zero.addr = 0)
    (hne : sym.addr ≠ 0) :
    ¬LookupsPure (symbolsAdd zero (symbolsAdd sym root)) := by
  intro hpure
  have hlt : zero.place < sym.place := by
    by_contra hle
    have haddr := addr_le_of_place_le (not_lt.mp hle)
    rw [hzero] at haddr
    apply hne
    apply BitVec.eq_of_toNat_eq
    simpa using haddr
  obtain ⟨left, right, hadd⟩ := symbolsAdd_root sym.addr sym.type root
  have hsym : symbolsAdd sym root = node left sym right := hadd sym.name
  have hordered := hsyms.ordered.add sym
  have hordered' := hordered.add zero
  rw [hsym] at hordered hordered' hpure
  obtain ⟨l, r, hroot, hleads⟩ := Leads.add hordered hlt
  rw [hroot] at hpure hordered'
  -- the symbol at address 0 is at the root
  have hbefore : symbolsGetaddr sym.name (node l zero r) = 0 := by
    have hl : symbolsGetaddr sym.name l = 0 := by
      apply symbolsGetaddr_eq_zero
      intro x hx _
      have hle := (List.pairwise_append.mp hordered').2.2 x hx zero
        List.mem_cons_self
      have haddr := addr_le_of_place_le hle
      rw [hzero] at haddr
      apply BitVec.eq_of_toNat_eq
      simpa using haddr
    simp [symbolsGetaddr, hl, hname, hzero]
  obtain ⟨a, top, b, hget, hat, hmem⟩ := hleads.get
  have hafter : symbolsGetaddr sym.name (node a top b) ≠ 0 := by
    have hsides := splay_sides hordered' hget
    have haddr : ∀ x : Symbol, sym.place ≤ x.place → x.addr ≠ 0 := by
      intro x hle hx
      have hle := addr_le_of_place_le hle
      rw [hx] at hle
      apply hne
      apply BitVec.eq_of_toNat_eq
      simpa using hle
    have htop : top.addr ≠ 0 := by
      rw [Symbol.isAt_iff] at hat
      exact haddr top hat.ge
    rw [symbolsGetaddr]
    split_ifs with ha hnm
    · exact ha
    · exact htop
    · apply symbolsGetaddr_ne_zero (fun x hx _ => haddr x (hsides.2 x hx))
        _ rfl
      rcases List.mem_cons.mp hmem with rfl | hmem
      · exact absurd rfl hnm
      · exact hmem
  apply hafter
  have hsame := (hpure [.get sym.addr sym.type]).2 sym.name
  rw [hbefore] at hsame
  rw [← hget]
  exact hsame

/-- Of two names at one place the one that was added last is found, until a
lookup behind them. -/
theorem not_pure_of_names (hsyms : TableOf syms root) {addr type : Word}
    {name name' : List Byte} (hne : name ≠ name')
    (hlast : place addr type < place 0xffff 0x7fff) :
    ¬(LookupsPure (symbolsAdd ⟨addr, type, name⟩
        (symbolsAdd ⟨addr, type, name'⟩ root)) ∧
      LookupsPure (symbolsAdd ⟨addr, type, name'⟩
        (symbolsAdd ⟨addr, type, name⟩ root))) := by
  rintro ⟨hpure, hpure'⟩
  obtain ⟨left, right, hadd⟩ := symbolsAdd_root addr type root
  have hpair : ∀ name name', symbolsAdd ⟨addr, type, name⟩
      (symbolsAdd ⟨addr, type, name'⟩ root) =
        node left ⟨addr, type, name⟩
          (node nil ⟨addr, type, name'⟩ right) := by
    intro name name'
    rw [hadd, symbolsAdd_again]
  have hordered := (hsyms.ordered.add ⟨addr, type, []⟩).add ⟨addr, type, []⟩
  rw [hpair] at hordered hpure hpure'
  obtain ⟨other, hturned⟩ := symbolsGet_turned hlast hordered
  have hat : ∀ name, (⟨addr, type, name⟩ : Symbol).isAt addr type = true := by
    simp [Symbol.isAt]
  have hfirst := ((hpure [.get 0xffff 0x7fff]).1 addr type).symm.trans
    (hturned name name')
  have hsecond := ((hpure' [.get 0xffff 0x7fff]).1 addr type).symm.trans
    (hturned name' name)
  rw [symbolsGet_of_search (search_root (hat _))] at hfirst hsecond
  cases other with
  | none => exact hne (Option.some.inj hfirst)
  | some other =>
      exact hne ((Option.some.inj hfirst).trans (Option.some.inj hsecond).symm)

end Conflicts

/-- Lookups return the same after any other lookups, in every table that
arises with these symbols in any order, exactly when the symbols are
harmless. -/
theorem lookupsPure_iff (syms : List Symbol) :
    (∀ order, order.Perm syms → ∀ root, TableOf order root →
      LookupsPure root) ↔ Harmless syms := by
  constructor
  · intro hpure
    have hpair : ∀ x ∈ syms, ∀ y ∈ syms, x ≠ y → ∃ rest root,
        TableOf rest root ∧ (x :: y :: rest).Perm syms := by
      intro x hx y hy hne
      obtain ⟨root, hroot⟩ := exists_tableOf ((syms.erase x).erase y)
      refine ⟨_, root, hroot, ?_⟩
      have hy : y ∈ syms.erase x := (List.mem_erase_of_ne hne.symm).mpr hy
      exact ((List.perm_cons_erase hx).trans
        ((List.perm_cons_erase hy).cons x)).symm
    constructor
    · intro x hx y hy haddr htype
      by_contra hboth
      obtain ⟨hname, hlast⟩ := not_or.mp hboth
      have hne : x ≠ y := fun h => hname (congrArg Symbol.name h)
      obtain ⟨rest, root, hroot, hperm⟩ := hpair x hx y hy hne
      obtain ⟨addr, type, name⟩ := x
      obtain ⟨addr', type', name'⟩ := y
      obtain rfl : addr = addr' := haddr
      obtain rfl : type = type' := htype
      apply not_pure_of_names hroot hname
      · apply (place_le_last addr type).lt_of_ne
        intro hplace
        have hat : Symbol.isAt 0xffff 0x7fff ⟨addr, type, name⟩ = true :=
          Symbol.isAt_iff.mpr hplace
        simp only [Symbol.isAt, Bool.and_eq_true, decide_eq_true_eq] at hat
        exact hlast hat
      · exact ⟨hpure _ hperm _ ((hroot.add _).add _),
          hpure _ ((List.Perm.swap _ _ rest).trans hperm) _
            ((hroot.add _).add _)⟩
    · intro x hx y hy hname hzero
      by_contra haddr
      have hne : x ≠ y := by
        rintro rfl
        exact haddr hzero
      obtain ⟨rest, root, hroot, hperm⟩ := hpair x hx y hy hne
      exact not_pure_of_zero hroot hname hzero haddr
        (hpure _ hperm _ ((hroot.add y).add x))
  · intro hsyms order hperm root hroot
    exact hroot.pure (hsyms.perm hperm)

/-- The names a and b at one address. -/
def twoNames : SymbolTree :=
  symbolsAdd ⟨0x8000, 0, [0x62]⟩ (symbolsAdd ⟨0x8000, 0, [0x61]⟩ nil)

/-- The address has the name b, and the name a after a lookup behind it. -/
theorem lookupsPure_fails_twoNames :
    (∃ syms, TableOf syms twoNames) ∧ ¬LookupsPure twoNames := by
  constructor
  · exact ⟨_, (TableOf.empty.add _).add _⟩
  · intro hpure
    have hsame := (hpure [.get 0x8002 0]).1 0x8000 0
    revert hsame
    decide +kernel

end BrickEmu
