import BrickEmu.SymbolOrder

/-!
# Removing symbols

`symbols_remove` splays the place to the root, splays it again in the left
subtree and hangs the right subtree below the new root of the left one.  That
root has no right subtree when all symbols on the left lie before the place.
With several symbols at the place it may have one, which is then lost.
-/

namespace BrickEmu

open SplayTree

namespace SplayTree

variable {α : Type}

def leftTree : SplayTree α → SplayTree α
  | nil => nil
  | node left _ _ => left

def rightTree : SplayTree α → SplayTree α
  | nil => nil
  | node _ _ right => right

end SplayTree

/-- The trees that the functions of the table produce. -/
inductive TableReached : SymbolTree → Prop
  | empty : TableReached nil
  | add {root : SymbolTree} (sym : Symbol) :
      TableReached root → TableReached (symbolsAdd sym root)
  | get {root : SymbolTree} (addr type : Word) :
      TableReached root → TableReached (symbolsGet addr type root).2
  | remove {root : SymbolTree} (addr type : Word) :
      TableReached root → TableReached (symbolsRemove addr type root).2

/-- Exactly one symbol at the place is removed if there is one, and nothing
otherwise; what remains can be looked up. -/
structure RemovesOne (addr type : Word) (root : SymbolTree) : Prop where
  present : (∃ sym ∈ root.toList, sym.isAt addr type = true) →
    (symbolsRemove addr type root).1 = 1 ∧
      ∃ sym, sym.isAt addr type = true ∧
        root.toList.Perm (sym :: (symbolsRemove addr type root).2.toList)
  absent : (∀ sym ∈ root.toList, sym.isAt addr type = false) →
    (symbolsRemove addr type root).1 = 0 ∧
      root.toList.Perm (symbolsRemove addr type root).2.toList
  findable : ∀ sym ∈ (symbolsRemove addr type root).2.toList,
    (symbolsGet sym.addr sym.type (symbolsRemove addr type root).2).1 ≠ none

/-- Among the symbols to the left of the topmost one at the place, the topmost
one at the place has no right subtree. -/
def Joinable (addr type : Word) (root : SymbolTree) : Prop :=
  (search addr type (search addr type root).leftTree).rightTree = nil

instance (addr type : Word) (root : SymbolTree) :
    Decidable (Joinable addr type root) :=
  inferInstanceAs (Decidable (_ = _))

section Removal

variable {root left right : SymbolTree} {sym : Symbol} {addr type : Word}

/-- The search passes the links that the splay has put on the left. -/
theorem search_closeLeft {ls : List (Symbol × SymbolTree)}
    (hls : ∀ link ∈ ls, Symbol.behind addr type link.1 = true)
    (t : SymbolTree) :
    search addr type (closeLeft ls t) = search addr type t := by
  induction ls generalizing t with
  | nil => rfl
  | cons link ls ih =>
      have hlink := hls link List.mem_cons_self
      have hstep : closeLeft (link :: ls) t =
          closeLeft ls (node link.2 link.1 t) := rfl
      rw [hstep, ih fun l hl => hls l (List.mem_cons_of_mem _ hl), search,
        find, Symbol.behind_side _ _ _ hlink, hlink]
      rfl

/-- Where nothing lies behind the place, the splay moves the right subtree of
the symbol it finds to the root and nothing else. -/
theorem splay_low (hnil : left ≠ nil)
    (hlow : ∀ x ∈ left.toList, x.place ≤ place addr type) :
    ∃ front top, splay addr type left =
      node front top (search addr type left).rightTree := by
  have hnone : ∀ x ∈ left.toList, Symbol.before addr type x = false := by
    intro x hx
    have hle := hlow x hx
    rw [Bool.eq_false_iff, Ne, Symbol.before_iff]
    omega
  have hlist := toList_splay addr type left
  obtain ⟨ls, rs, l, top, r, hsplay, hls, hrs, hlands⟩ :=
    splay_eq hnil addr type
  rw [hsplay, toList_assemble] at hlist
  obtain rfl : rs = [] := by
    cases rs with
    | nil => rfl
    | cons link rs =>
        have hmem : link.1 ∈ left.toList := by
          rw [← hlist, toList_linkRight]
          simp
        have hbefore := hrs link List.mem_cons_self
        rw [hnone link.1 hmem] at hbefore
        cases hbefore
  refine ⟨closeLeft ls l, top, ?_⟩
  rw [hsplay]
  rcases hlands with hfind | ⟨hfind, ⟨hbefore, -⟩ | ⟨-, -, hr⟩⟩
  · rw [search, hfind]
    rfl
  · have hmem : top ∈ left.toList := by
      rw [← hlist]
      simp [toList]
    rw [hnone top hmem] at hbefore
    cases hbefore
  · rw [search, hfind, hr]
    rfl

theorem symbolsRemove_absent
    (habsent : ∀ x ∈ root.toList, x.isAt addr type = false) :
    (symbolsRemove addr type root).1 = 0 ∧
      (symbolsRemove addr type root).2.toList = root.toList := by
  have hlist := toList_splay addr type root
  unfold symbolsRemove
  cases hsplay : splay addr type root with
  | nil =>
      rw [hsplay] at hlist
      exact ⟨rfl, hlist⟩
  | node left sym right =>
      rw [hsplay] at hlist
      have hmem : sym ∈ root.toList := by
        rw [← hlist]
        simp [toList]
      simp only [habsent sym hmem]
      exact ⟨rfl, hlist⟩

/-- The removed symbol, and what is lost along with it. -/
theorem symbolsRemove_present (h : SymbolsOrdered root)
    (hpresent : ∃ x ∈ root.toList, x.isAt addr type = true) :
    (symbolsRemove addr type root).1 = 1 ∧
      ∃ sym front rear, sym.isAt addr type = true ∧
        root.toList = front ++
          ((search addr type (search addr type root).leftTree).rightTree.toList
            ++ sym :: rear) ∧
        (symbolsRemove addr type root).2.toList = front ++ rear := by
  have hfound : search addr type root ≠ nil := by
    rw [Ne, search_eq_nil_iff h]
    rintro hall
    obtain ⟨x, hx, hat⟩ := hpresent
    rw [hall x hx] at hat
    cases hat
  have hnil : root ≠ nil := by
    rintro rfl
    exact hfound rfl
  have hlist := toList_splay addr type root
  obtain ⟨ls, rs, l, sym, r, hsplay, hls, -, hlands⟩ :=
    splay_eq hnil addr type
  rcases hlands with hfind | ⟨hfind, -⟩
  · have hsearch : search addr type root = node l sym r := hfind
    have hat := isAt_of_search hsearch
    have hlow := (splay_sides h hsplay).1
    rw [hsplay] at hlist
    unfold symbolsRemove
    rw [hsplay, hsearch]
    simp only [assemble, hat, if_true, leftTree]
    rw [← search_closeLeft hls l]
    by_cases hleft : closeLeft ls l = nil
    · rw [hleft, ← hlist]
      refine ⟨rfl, sym, [], (closeRight rs r).toList, hat, ?_, rfl⟩
      simp [assemble, toList, hleft, search, find, rightTree]
    · obtain ⟨front, top, hagain⟩ := splay_low hleft hlow
      have hsame := toList_splay addr type (closeLeft ls l)
      rw [hagain] at hsame ⊢
      refine ⟨rfl, sym, front.toList ++ [top], (closeRight rs r).toList, hat,
        ?_, ?_⟩
      · rw [← hlist, assemble, toList, ← hsame]
        simp [toList]
      · simp [toList]
  · exact absurd hfind hfound

theorem SymbolsOrdered.remove (h : SymbolsOrdered root) (addr type : Word) :
    SymbolsOrdered (symbolsRemove addr type root).2 := by
  by_cases hpresent : ∃ x ∈ root.toList, x.isAt addr type = true
  · obtain ⟨-, sym, front, rear, -, hroot, hrest⟩ :=
      symbolsRemove_present h hpresent
    rw [SymbolsOrdered, hroot] at h
    rw [SymbolsOrdered, hrest]
    apply List.Pairwise.sublist _ h
    apply List.Sublist.append_left
    exact (List.sublist_cons_self _ _).trans (List.sublist_append_right _ _)
  · have habsent : ∀ x ∈ root.toList, x.isAt addr type = false := by
      intro x hx
      rw [Bool.eq_false_iff]
      exact fun hat => hpresent ⟨x, hx, hat⟩
    rw [SymbolsOrdered, (symbolsRemove_absent habsent).2]
    exact h

theorem TableReached.ordered (h : TableReached root) : SymbolsOrdered root := by
  induction h with
  | empty => exact List.Pairwise.nil
  | add sym _ ih => exact ih.add sym
  | get addr type _ ih => exact ih.get addr type
  | remove addr type _ ih => exact ih.remove addr type

/-- In a table in order every symbol can be looked up. -/
theorem SymbolsOrdered.findable (h : SymbolsOrdered root)
    (hsym : sym ∈ root.toList) :
    (symbolsGet sym.addr sym.type root).1 ≠ none := by
  rw [Ne, symbolsGet_eq_none_iff h]
  intro hall
  have hat := hall sym hsym
  simp [Symbol.isAt] at hat

/-- A removal takes away a single symbol exactly when nothing hangs to the
right of the symbol at the place that follows on the left. -/
theorem removesOne_iff (hreached : TableReached root) (addr type : Word) :
    RemovesOne addr type root ↔ Joinable addr type root := by
  have h := hreached.ordered
  constructor
  · intro hremoves
    by_cases hpresent : ∃ x ∈ root.toList, x.isAt addr type = true
    · obtain ⟨-, sym, -, hperm⟩ := hremoves.present hpresent
      obtain ⟨-, sym', front, rear, -, hroot, hrest⟩ :=
        symbolsRemove_present h hpresent
      have hlength := hperm.length_eq
      rw [hroot, hrest] at hlength
      simp only [List.length_append, List.length_cons] at hlength
      unfold Joinable
      cases hlost :
        (search addr type (search addr type root).leftTree).rightTree with
      | nil => rfl
      | node l s r =>
          rw [hlost] at hlength
          simp only [toList, List.length_append, List.length_cons] at hlength
          omega
    · have hsearch : search addr type root = nil := by
        rw [search_eq_nil_iff h]
        intro x hx
        rw [Bool.eq_false_iff]
        exact fun hat => hpresent ⟨x, hx, hat⟩
      rw [Joinable, hsearch]
      rfl
  · intro hjoinable
    refine ⟨?_, ?_, fun sym hsym => (h.remove addr type).findable hsym⟩
    · intro hpresent
      obtain ⟨hresult, sym, front, rear, hat, hroot, hrest⟩ :=
        symbolsRemove_present h hpresent
      refine ⟨hresult, sym, hat, ?_⟩
      rw [hroot, hrest, hjoinable]
      exact List.perm_middle
    · intro habsent
      obtain ⟨hresult, hrest⟩ := symbolsRemove_absent habsent
      rw [hrest]
      exact ⟨hresult, List.Perm.refl _⟩

end Removal

/-- Two symbols at one address, with another one behind them. -/
def sharedAddress : SymbolTree :=
  symbolsAdd ⟨0x8002, 0, [0x63]⟩
    (symbolsAdd ⟨0x8000, 0, [0x62]⟩ (symbolsAdd ⟨0x8000, 0, [0x61]⟩ nil))

theorem removesOne_sharedAddress : RemovesOne 0x8000 0 sharedAddress :=
  (removesOne_iff (.add _ (.add _ (.add _ .empty))) 0x8000 0).mpr
    (by decide +kernel)

/-- Four symbols at one address and a lookup behind it. -/
def fourAtAddress : SymbolTree :=
  (symbolsGet 0x8002 0 (symbolsAdd ⟨0x8000, 0, [0x64]⟩
    (symbolsAdd ⟨0x8000, 0, [0x63]⟩ (symbolsAdd ⟨0x8000, 0, [0x62]⟩
      (symbolsAdd ⟨0x8000, 0, [0x61]⟩ nil))))).2

/-- Removing one of the four symbols leaves two. -/
theorem removesOne_fails_four :
    TableReached fourAtAddress ∧ ¬RemovesOne 0x8000 0 fourAtAddress := by
  constructor
  · exact .get _ _ (.add _ (.add _ (.add _ (.add _ .empty))))
  · intro hremoves
    have hpresent : ∃ sym ∈ fourAtAddress.toList,
        sym.isAt 0x8000 0 = true := by
      decide +kernel
    obtain ⟨-, sym, -, hperm⟩ := hremoves.present hpresent
    have hlength := hperm.length_eq
    have hbefore : fourAtAddress.toList.length = 4 := by decide +kernel
    have hafter : (symbolsRemove 0x8000 0 fourAtAddress).2.toList.length =
        2 := by decide +kernel
    rw [List.length_cons, hbefore, hafter] at hlength
    omega

end BrickEmu
