import BrickEmu.SplayTree
import Mathlib.Data.List.Pairwise

/-!
# Searching in splay trees

A search compares the sought place with the nodes it passes, just as the
splay does.  When the elements of the tree stand in order, the two tests cut
their sequence into the elements before the place, those at it and those
behind it.  A splay brings the node that a search finds to the root with its
own subtrees innermost, and it keeps the elements before the place on the left
and those behind it on the right.
-/

namespace BrickEmu

namespace SplayTree

/-- The elements before the sought place come first, then those at it, then
those behind it. -/
structure Cut {α : Type} (lt gt : α → Bool) (xs : List α) : Prop where
  behind : xs.Pairwise fun x y => lt x = true → lt y = true
  before : xs.Pairwise fun x y => gt y = true → gt x = true

variable {α : Type} {lt gt : α → Bool}

/-- The subtree below the first node on the way down that is at the place. -/
def find (lt gt : α → Bool) : SplayTree α → SplayTree α
  | nil => nil
  | node left val right =>
      if lt val then find lt gt left
      else if gt val then find lt gt right
      else node left val right

/-- What the splay brings to the root: the node that the search finds, or a
neighbour of the place with nothing towards it. -/
def Lands (lt gt : α → Bool) (t left : SplayTree α) (val : α)
    (right : SplayTree α) : Prop :=
  find lt gt t = node left val right ∨
    find lt gt t = nil ∧
      (lt val = true ∧ left = nil ∨
        lt val = false ∧ gt val = true ∧ right = nil)

/-- The variable `result` of the splay: the loop sets it when it stops at a
node at the place and leaves it empty when it stops for want of a child. -/
def splayFound (lt gt : α → Bool) : SplayTree α → Option α
  | nil => none
  | node left val right =>
      if lt val then
        match left with
        | nil => none
        | node nil val' right' =>
            if lt val' then none
            else splayFound lt gt (node nil val' right')
        | node (node a x b) val' right' =>
            if lt val' then splayFound lt gt (node a x b)
            else splayFound lt gt (node (node a x b) val' right')
      else if gt val then
        match right with
        | nil => none
        | node left' val' nil =>
            if gt val' then none
            else splayFound lt gt (node left' val' nil)
        | node left' val' (node a x b) =>
            if gt val' then splayFound lt gt (node a x b)
            else splayFound lt gt (node left' val' (node a x b))
      else some val

theorem find_at {t left right : SplayTree α} {val : α}
    (hfind : find lt gt t = node left val right) :
    lt val = false ∧ gt val = false := by
  induction t with
  | nil => cases hfind
  | node l v r ihl ihr =>
      rw [find] at hfind
      split_ifs at hfind with hlt hgt
      · exact ihl hfind
      · exact ihr hfind
      · cases hfind
        simp_all

theorem find_subset {t left right : SplayTree α} {val : α}
    (hfind : find lt gt t = node left val right) :
    ∀ x ∈ (node left val right).toList, x ∈ t.toList := by
  induction t with
  | nil => cases hfind
  | node l v r ihl ihr =>
      intro x hx
      rw [find] at hfind
      simp only [toList, List.mem_append, List.mem_cons]
      split_ifs at hfind with hlt hgt
      · exact Or.inl (ihl hfind x hx)
      · exact Or.inr (Or.inr (ihr hfind x hx))
      · cases hfind
        simpa [toList] using hx

/-- What the splay links away lies on its side of the place, and it is linked
in front of what was linked before. -/
structure Splayed (lt gt : α → Bool) (t : SplayTree α)
    (ls rs : List (α × SplayTree α)) (left : SplayTree α) (val : α)
    (right : SplayTree α) : Prop where
  result : ∀ ls' rs', splayLoop lt gt t ls' rs' =
    assemble (ls ++ ls') (rs ++ rs') left val right
  before : ∀ link ∈ ls, gt link.1 = true
  behind : ∀ link ∈ rs, lt link.1 = true
  lands : Lands lt gt t left val right

section Splayed

variable {t t' left right l r : SplayTree α} {val v : α}
  {ls rs : List (α × SplayTree α)}

theorem Splayed.here
    (hresult : ∀ ls rs, splayLoop lt gt t ls rs =
      assemble ls rs left val right)
    (hlands : Lands lt gt t left val right) :
    ∃ ls rs left val right, Splayed lt gt t ls rs left val right :=
  ⟨[], [], left, val, right, hresult, by simp, by simp, hlands⟩

theorem Splayed.linkRight
    (h : ∃ ls rs left val right, Splayed lt gt t' ls rs left val right)
    (hstep : ∀ ls rs, splayLoop lt gt t ls rs =
      splayLoop lt gt t' ls ((v, r) :: rs))
    (hv : lt v = true) (hfind : find lt gt t = find lt gt t') :
    ∃ ls rs left val right, Splayed lt gt t ls rs left val right := by
  obtain ⟨ls, rs, left, val, right, h⟩ := h
  refine ⟨ls, rs ++ [(v, r)], left, val, right, ?_, h.before, ?_, ?_⟩
  · intro ls' rs'
    rw [hstep, h.result, List.append_assoc, List.singleton_append]
  · intro link hlink
    rcases List.mem_append.mp hlink with hlink | hlink
    · exact h.behind link hlink
    · rw [List.mem_singleton.mp hlink]
      exact hv
  · rw [Lands, hfind]
    exact h.lands

theorem Splayed.linkLeft
    (h : ∃ ls rs left val right, Splayed lt gt t' ls rs left val right)
    (hstep : ∀ ls rs, splayLoop lt gt t ls rs =
      splayLoop lt gt t' ((v, l) :: ls) rs)
    (hv : gt v = true) (hfind : find lt gt t = find lt gt t') :
    ∃ ls rs left val right, Splayed lt gt t ls rs left val right := by
  obtain ⟨ls, rs, left, val, right, h⟩ := h
  refine ⟨ls ++ [(v, l)], rs, left, val, right, ?_, ?_, h.behind, ?_⟩
  · intro ls' rs'
    rw [hstep, h.result, List.append_assoc, List.singleton_append]
  · intro link hlink
    rcases List.mem_append.mp hlink with hlink | hlink
    · exact h.before link hlink
    · rw [List.mem_singleton.mp hlink]
      exact hv
  · rw [Lands, hfind]
    exact h.lands

end Splayed

theorem splayLoop_splayed (hside : ∀ x, gt x = true → lt x = false)
    (t : SplayTree α) (hnil : t ≠ nil) :
    ∃ ls rs left val right, Splayed lt gt t ls rs left val right := by
  generalize hls : ([] : List (α × SplayTree α)) = ls
  generalize hrs : ([] : List (α × SplayTree α)) = rs
  clear hls hrs
  fun_induction splayLoop lt gt t ls rs
  case case1 => contradiction
  case case2 val right _ _ hlt =>
    apply Splayed.here
    · intro ls rs
      rw [splayLoop.eq_def]
      simp [hlt]
      rfl
    · simp [Lands, find, hlt]
  case case3 val right _ _ hlt val' right' hlt' =>
    apply Splayed.here
    · intro ls rs
      rw [splayLoop.eq_def]
      simp [hlt, hlt']
      rfl
    · simp [Lands, find, hlt, hlt']
  case case4 val right _ _ hlt val' right' hlt' ih =>
    apply Splayed.linkRight (v := val) (r := right) (ih (by simp))
      ?_ hlt
    · simp [find, hlt]
    · intro ls rs
      rw [splayLoop.eq_def]
      simp [hlt, hlt']
  case case5 val right _ _ hlt a x b val' right' hlt' ih =>
    apply Splayed.linkRight (v := val') (r := node right' val right)
      (ih (by simp)) ?_ hlt'
    · simp [find, hlt, hlt']
    · intro ls rs
      rw [splayLoop.eq_def]
      simp [hlt, hlt']
  case case6 val right _ _ hlt a x b val' right' hlt' ih =>
    apply Splayed.linkRight (v := val) (r := right) (ih (by simp))
      ?_ hlt
    · simp [find, hlt]
    · intro ls rs
      rw [splayLoop.eq_def]
      simp [hlt, hlt']
  case case7 left val _ _ hlt hgt =>
    apply Splayed.here
    · intro ls rs
      rw [splayLoop.eq_def]
      simp [hlt, hgt]
      rfl
    · simp [Lands, find, hlt, hgt]
  case case8 left val _ _ hlt hgt left' val' hgt' =>
    apply Splayed.here
    · intro ls rs
      rw [splayLoop.eq_def]
      simp [hlt, hgt, hgt']
      rfl
    · simp [Lands, find, hlt, hgt, hgt', hside val' hgt']
  case case9 left val _ _ hlt hgt left' val' hgt' ih =>
    apply Splayed.linkLeft (v := val) (l := left) (ih (by simp))
      ?_ hgt
    · simp [find, hlt, hgt]
    · intro ls rs
      rw [splayLoop.eq_def]
      simp [hlt, hgt, hgt']
  case case10 left val _ _ hlt hgt left' val' a x b hgt' ih =>
    apply Splayed.linkLeft (v := val') (l := node left val left') (ih (by simp))
      ?_ hgt'
    · simp [find, hlt, hgt, hgt', hside val' hgt']
    · intro ls rs
      rw [splayLoop.eq_def]
      simp [hlt, hgt, hgt']
  case case11 left val _ _ hlt hgt left' val' a x b hgt' ih =>
    apply Splayed.linkLeft (v := val) (l := left) (ih (by simp))
      ?_ hgt
    · simp [find, hlt, hgt]
    · intro ls rs
      rw [splayLoop.eq_def]
      simp [hlt, hgt, hgt']
  case case12 left val right _ _ hlt hgt =>
    apply Splayed.here
    · intro ls rs
      rw [splayLoop.eq_def]
      simp [hlt, hgt]
      rfl
    · simp [Lands, find, hlt, hgt]

section Found

variable {left right : SplayTree α} {val : α}

theorem find_left (hlt : lt val = true) :
    find lt gt (node left val right) = find lt gt left := by
  rw [find, if_pos hlt]

theorem find_right (hlt : ¬lt val = true) (hgt : gt val = true) :
    find lt gt (node left val right) = find lt gt right := by
  rw [find, if_neg hlt, if_pos hgt]

theorem find_here (hlt : ¬lt val = true) (hgt : ¬gt val = true) :
    find lt gt (node left val right) = node left val right := by
  rw [find, if_neg hlt, if_neg hgt]

/-- The loop returns the node that the search finds. -/
theorem splayFound_eq_some (hside : ∀ x, gt x = true → lt x = false)
    (t : SplayTree α) (val : α) :
    splayFound lt gt t = some val ↔
      ∃ left right, find lt gt t = node left val right := by
  have hnot {x : α} (hgt : gt x = true) : ¬lt x = true := by
    rw [hside x hgt]
    exact Bool.false_ne_true
  fun_induction splayFound lt gt t
  case case1 => simp [find]
  case case2 hlt =>
    rw [find_left hlt]
    simp [find]
  case case3 hlt _ _ hlt' =>
    rw [find_left hlt, find_left hlt']
    simp [find]
  case case4 hlt _ _ _ ih =>
    rw [find_left hlt]
    exact ih
  case case5 hlt _ _ _ _ _ hlt' ih =>
    rw [find_left hlt, find_left hlt']
    exact ih
  case case6 hlt _ _ _ _ _ _ ih =>
    rw [find_left hlt]
    exact ih
  case case7 hlt hgt =>
    rw [find_right hlt hgt]
    simp [find]
  case case8 hlt hgt _ _ hgt' =>
    rw [find_right hlt hgt, find_right (hnot hgt') hgt']
    simp [find]
  case case9 hlt hgt _ _ _ ih =>
    rw [find_right hlt hgt]
    exact ih
  case case10 hlt hgt _ _ _ _ _ hgt' ih =>
    rw [find_right hlt hgt, find_right (hnot hgt') hgt']
    exact ih
  case case11 hlt hgt _ _ _ _ _ _ ih =>
    rw [find_right hlt hgt]
    exact ih
  case case12 hlt hgt =>
    rw [find_here hlt hgt]
    simp [eq_comm]

end Found

/-- A step over two nodes that lie before the place. -/
theorem splayLoop_pair [DecidableEq α] {a b c : SplayTree α} {x y : α}
    (hx : lt x = false) (hgtx : gt x = true) (hgty : gt y = true)
    (ls rs : List (α × SplayTree α)) :
    splayLoop lt gt (node a x (node b y c)) ls rs =
      if c = nil then assemble ls rs (node a x b) y nil
      else splayLoop lt gt c ((y, node a x b) :: ls) rs := by
  rw [splayLoop.eq_def]
  cases c <;> simp [hx, hgtx, hgty]

theorem closeLeft_append (ls : List (α × SplayTree α))
    (link : α × SplayTree α) (t : SplayTree α) :
    closeLeft (ls ++ [link]) t = node link.2 link.1 (closeLeft ls t) := by
  rw [closeLeft, List.foldl_append]
  rfl

theorem closeRight_append (rs : List (α × SplayTree α))
    (link : α × SplayTree α) (t : SplayTree α) :
    closeRight (rs ++ [link]) t = node (closeRight rs t) link.1 link.2 := by
  rw [closeRight, List.foldl_append]
  rfl

/-- A node that the splay has linked away stays next to the new root. -/
theorem splayLoop_link (hside : ∀ x, gt x = true → lt x = false)
    {t : SplayTree α} (hnil : t ≠ nil) (link : α × SplayTree α) :
    ∃ left val right, val ∈ t.toList ∧
      splayLoop lt gt t [] [link] =
        node left val (node right link.1 link.2) := by
  obtain ⟨ls, rs, l, v, r, hsplayed⟩ := splayLoop_splayed hside t hnil
  refine ⟨closeLeft ls l, v, closeRight rs r, ?_, ?_⟩
  · have hlist := toList_splayLoop lt gt t [] [] hnil
    rw [hsplayed.result, toList_assemble] at hlist
    simp only [closeLeft, closeRight, List.foldl_nil, toList, List.nil_append,
      List.append_nil] at hlist
    rw [← hlist]
    simp
  · rw [hsplayed.result, List.append_nil, assemble, closeRight_append]

/-- The first step at a node that lies behind the place. -/
theorem splayLoop_left {left right : SplayTree α} {val : α}
    (hval : lt val = true) :
    splayLoop lt gt (node left val right) [] [] =
      match left with
      | nil => node nil val right
      | node nil y b =>
          if lt y then node nil y (node b val right)
          else splayLoop lt gt left [] [(val, right)]
      | node a y b =>
          if lt y then splayLoop lt gt a [] [(y, node b val right)]
          else splayLoop lt gt left [] [(val, right)] := by
  rw [splayLoop.eq_def]
  simp only [hval, if_true]
  rcases left with _ | ⟨_ | _, y, b⟩ <;> rfl

/-! ## What the search finds -/

section Search

variable {t left right : SplayTree α} {val : α}

theorem Cut.of_sublist {xs ys : List α} (hcut : Cut lt gt ys)
    (hsub : xs.Sublist ys) : Cut lt gt xs :=
  ⟨hcut.behind.sublist hsub, hcut.before.sublist hsub⟩

theorem Cut.leftTree (hcut : Cut lt gt (node left val right).toList) :
    Cut lt gt left.toList :=
  hcut.of_sublist (List.sublist_append_left _ _)

theorem Cut.rightTree (hcut : Cut lt gt (node left val right).toList) :
    Cut lt gt right.toList :=
  hcut.of_sublist
    ((List.sublist_cons_self _ _).trans (List.sublist_append_right _ _))

/-- The elements to the left of a node that is not behind the place. -/
theorem Cut.left_of (hcut : Cut lt gt (node left val right).toList) {x : α}
    (hx : x ∈ left.toList) :
    (lt x = true → lt val = true) ∧ (gt val = true → gt x = true) := by
  have hbehind := (List.pairwise_append.mp hcut.behind).2.2
  have hbefore := (List.pairwise_append.mp hcut.before).2.2
  exact ⟨hbehind x hx val (by simp), hbefore x hx val (by simp)⟩

theorem Cut.right_of (hcut : Cut lt gt (node left val right).toList) {x : α}
    (hx : x ∈ right.toList) :
    (lt val = true → lt x = true) ∧ (gt x = true → gt val = true) := by
  have hbehind := (List.pairwise_append.mp hcut.behind).2.1
  have hbefore := (List.pairwise_append.mp hcut.before).2.1
  exact ⟨(List.pairwise_cons.mp hbehind).1 x hx,
    (List.pairwise_cons.mp hbefore).1 x hx⟩

/-- The search fails only when no element is at the place. -/
theorem find_eq_nil_iff (hcut : Cut lt gt t.toList) :
    find lt gt t = nil ↔ ∀ x ∈ t.toList, lt x = true ∨ gt x = true := by
  induction t with
  | nil => simp [find, toList]
  | node left val right ihleft ihright =>
      have hleft := ihleft hcut.leftTree
      have hright := ihright hcut.rightTree
      rw [find]
      split_ifs with hlt hgt
      · rw [hleft]
        simp only [toList, List.mem_append, List.mem_cons]
        constructor
        · rintro hall x (hx | rfl | hx)
          · exact hall x hx
          · exact Or.inl hlt
          · exact Or.inl ((hcut.right_of hx).1 hlt)
        · exact fun hall x hx => hall x (Or.inl hx)
      · rw [hright]
        simp only [toList, List.mem_append, List.mem_cons]
        constructor
        · rintro hall x (hx | rfl | hx)
          · exact Or.inr ((hcut.left_of hx).2 hgt)
          · exact Or.inr hgt
          · exact hall x hx
        · exact fun hall x hx => hall x (Or.inr (Or.inr hx))
      · simp only [false_iff, not_forall]
        exact ⟨val, by simp [toList], by simp [hlt, hgt]⟩

end Search

/-! ## The two sides of the new root -/

section Sides

/-- In a sequence cut in two, everything in the tree of the nodes behind the
place lies behind it. -/
theorem lt_of_mem_closeRight {rs : List (α × SplayTree α)}
    (hcut : Cut lt gt (closeRight rs nil).toList)
    (hrs : ∀ link ∈ rs, lt link.1 = true) :
    ∀ x ∈ (closeRight rs nil).toList, lt x = true := by
  induction rs with
  | nil => simp [closeRight, toList]
  | cons link rs ih =>
      obtain ⟨val, right⟩ := link
      have hval : lt val = true := hrs (val, right) List.mem_cons_self
      have hbehind := hcut.behind
      rw [toList_linkRight, List.cons_append, List.pairwise_cons] at hbehind
      intro x hx
      rw [toList_linkRight, List.cons_append, List.mem_cons] at hx
      rcases hx with rfl | hx
      · exact hval
      · exact hbehind.1 x hx hval

theorem gt_of_mem_closeLeft {ls : List (α × SplayTree α)}
    (hcut : Cut lt gt (closeLeft ls nil).toList)
    (hls : ∀ link ∈ ls, gt link.1 = true) :
    ∀ x ∈ (closeLeft ls nil).toList, gt x = true := by
  induction ls with
  | nil => simp [closeLeft, toList]
  | cons link ls ih =>
      obtain ⟨val, left⟩ := link
      have hval : gt val = true := hls (val, left) List.mem_cons_self
      have hbefore := hcut.before
      rw [toList_linkLeft, ← List.append_assoc, List.pairwise_append]
        at hbefore
      intro x hx
      rw [toList_linkLeft, ← List.append_assoc, List.mem_append,
        List.mem_singleton] at hx
      rcases hx with hx | rfl
      · exact hbefore.2.2 x hx val (by simp) hval
      · exact hval

variable {t left right : SplayTree α} {val : α}

/-- The splay leaves nothing behind the place on the left and nothing before
it on the right. -/
theorem splayLoop_sides (hside : ∀ x, gt x = true → lt x = false)
    (hcut : Cut lt gt t.toList)
    (hsplay : splayLoop lt gt t [] [] = node left val right) :
    (∀ x ∈ left.toList, lt x = false) ∧ ∀ x ∈ right.toList, gt x = false := by
  have hnil : t ≠ nil := by
    rintro rfl
    cases hsplay
  have hlist := toList_splayLoop lt gt t [] [] hnil
  rw [hsplay] at hlist
  simp only [closeLeft, closeRight, List.foldl_nil, toList, List.nil_append,
    List.append_nil] at hlist
  obtain ⟨ls, rs, l, v, r, hresult, hls, hrs, hlands⟩ :=
    splayLoop_splayed hside t hnil
  have hresult := hresult [] []
  rw [hsplay, List.append_nil, List.append_nil, assemble] at hresult
  cases hresult
  rw [← hlist] at hcut
  have hcut : Cut lt gt (node (closeLeft ls l) val
      (closeRight rs r)).toList := hcut
  have hflip : ∀ x, lt x = true → gt x = false := by
    intro x hlt
    apply Bool.eq_false_iff.mpr
    intro hgt
    rw [hside x hgt] at hlt
    cases hlt
  have hat : lt val = false → gt val = false →
      (∀ x ∈ (closeLeft ls l).toList, lt x = false) ∧
        ∀ x ∈ (closeRight rs r).toList, gt x = false := by
    intro hlt hgt
    constructor <;> intro x hx
    · have h := (hcut.left_of hx).1
      simp_all
    · have h := (hcut.right_of hx).2
      simp_all
  rcases hlands with hfind | ⟨-, ⟨hlt, rfl⟩ | ⟨hlt, hgt, rfl⟩⟩
  · exact hat (find_at hfind).1 (find_at hfind).2
  · constructor <;> intro x hx
    · exact hside x (gt_of_mem_closeLeft hcut.leftTree hls x hx)
    · exact hflip x ((hcut.right_of hx).1 hlt)
  · constructor <;> intro x hx
    · have h := (hcut.left_of hx).1
      simp_all
    · exact hflip x (lt_of_mem_closeRight hcut.rightTree hrs x hx)

end Sides

/-! ## Elements with none of their kind on the left -/

section FirstOfKind

/-- No marked node has a marked element in its left subtree. -/
def FirstOfKind (p : α → Bool) : SplayTree α → Prop
  | nil => True
  | node left val right =>
      FirstOfKind p left ∧ FirstOfKind p right ∧
        (p val = true → ∀ x ∈ left.toList, p x = false)

variable {p : α → Bool} {t t' : SplayTree α}
  {ls rs : List (α × SplayTree α)}

/-- The links on the right stay as they are when the tree below them loses
elements. -/
theorem FirstOfKind.replace (h : FirstOfKind p (closeRight rs t))
    (hsub : ∀ x ∈ t'.toList, x ∈ t.toList)
    (ht' : FirstOfKind p t → FirstOfKind p t') :
    FirstOfKind p (closeRight rs t') := by
  induction rs generalizing t t' with
  | nil => exact ht' h
  | cons link rs ih =>
      have hrest : FirstOfKind p (closeRight rs (node t link.1 link.2)) := h
      have hmem : ∀ x ∈ (node t' link.1 link.2).toList,
          x ∈ (node t link.1 link.2).toList := by
        intro x hx
        simp only [toList, List.mem_append, List.mem_cons] at hx ⊢
        rcases hx with hx | hx
        · exact Or.inl (hsub x hx)
        · exact Or.inr hx
      apply ih hrest hmem
      rintro ⟨hleft, hright, hval⟩
      exact ⟨ht' hleft, hright, fun hp x hx => hval hp x (hsub x hx)⟩

theorem FirstOfKind.of_none (h : ∀ x ∈ t.toList, p x = false) :
    FirstOfKind p t := by
  induction t with
  | nil => exact trivial
  | node left val right ihleft ihright =>
      have hall : ∀ x ∈ left.toList, p x = false := fun x hx =>
        h x (by simp [toList, hx])
      exact ⟨ihleft hall, ihright fun x hx => h x (by simp [toList, hx]),
        fun _ => hall⟩

theorem FirstOfKind.closesLeft
    (hls : ∀ x ∈ (closeLeft ls nil).toList, p x = false)
    (h : FirstOfKind p t) : FirstOfKind p (closeLeft ls t) := by
  induction ls generalizing t with
  | nil => exact h
  | cons link ls ih =>
      obtain ⟨val, left⟩ := link
      rw [toList_linkLeft] at hls
      have hleft : ∀ x ∈ left.toList, p x = false := fun x hx =>
        hls x (by simp [hx])
      have hval : p val = false := hls val (by simp)
      apply ih fun x hx => hls x (List.mem_append_left _ hx)
      refine ⟨FirstOfKind.of_none hleft, h, ?_⟩
      rw [hval]
      simp

theorem FirstOfKind.inner (h : FirstOfKind p (closeRight rs t)) :
    FirstOfKind p t := by
  induction rs generalizing t with
  | nil => exact h
  | cons link rs ih => exact (ih (t := node t link.1 link.2) h).1

theorem FirstOfKind.rotateRight {a b c : SplayTree α} {x y : α}
    (h : FirstOfKind p (closeRight rs (node (node a x b) y c))) :
    FirstOfKind p (closeRight rs (node a x (node b y c))) := by
  apply h.replace
  · intro z hz
    simpa [toList] using hz
  · rintro ⟨⟨ha, hb, hx⟩, hc, hy⟩
    refine ⟨ha, ⟨hb, hc, fun hp z hz => hy hp z ?_⟩, hx⟩
    simp [toList, hz]

theorem FirstOfKind.rotateLeft {a b c : SplayTree α} {x y : α}
    (h : FirstOfKind p (closeRight rs (node a x (node b y c))))
    (hy : p y = false) :
    FirstOfKind p (closeRight rs (node (node a x b) y c)) := by
  apply h.replace
  · intro z hz
    simpa [toList] using hz
  · rintro ⟨ha, ⟨hb, hc, -⟩, hx⟩
    refine ⟨⟨ha, hb, hx⟩, hc, ?_⟩
    rw [hy]
    simp

theorem FirstOfKind.assembles {left right : SplayTree α} {val : α}
    (ht : FirstOfKind p (closeRight rs (node left val right)))
    (hls : ∀ x ∈ (closeLeft ls nil).toList, p x = false) :
    FirstOfKind p (assemble ls rs left val right) := by
  obtain ⟨hleft, -, hval⟩ := ht.inner
  refine ⟨hleft.closesLeft hls, ?_, ?_⟩
  · apply ht.replace
    · intro x hx
      simp [toList, hx]
    · exact fun h => h.2.1
  · intro hp x hx
    rw [toList_closeLeft, List.mem_append] at hx
    rcases hx with hx | hx
    · exact hls x hx
    · exact hval hp x hx

/-- A splay to a place that no marked element lies before moves no marked
element below one of its kind. -/
theorem FirstOfKind.splays (hkind : ∀ x, gt x = true → p x = false)
    (hcut : Cut lt gt t.toList) (ht : FirstOfKind p (closeRight rs t))
    (hls : ∀ x ∈ (closeLeft ls nil).toList, p x = false) :
    FirstOfKind p (splayLoop lt gt t ls rs) := by
  -- what the splay passes to the right is not marked
  have hpass : ∀ {ls rs : List (α × SplayTree α)} {l r : SplayTree α} {v : α},
      Cut lt gt (node l v r).toList →
      FirstOfKind p (closeRight rs (node l v r)) → gt v = true →
      (∀ x ∈ (closeLeft ls nil).toList, p x = false) →
      FirstOfKind p (closeRight rs r) ∧
        ∀ x ∈ (closeLeft ((v, l) :: ls) nil).toList,
          p x = false := by
    intro ls rs l r v hcut h hv hls
    constructor
    · apply h.replace
      · intro x hx
        simp [toList, hx]
      · exact fun h => h.2.1
    · intro x hx
      rw [toList_linkLeft, List.mem_append, List.mem_append,
        List.mem_singleton] at hx
      rcases hx with hx | hx | rfl
      · exact hls x hx
      · exact hkind x ((hcut.left_of hx).2 hv)
      · exact hkind x hv
  fun_induction splayLoop lt gt t ls rs
  case case1 => exact trivial
  case case2 | case7 | case12 => exact ht.assembles hls
  case case3 => exact ht.rotateRight.assembles hls
  case case4 ih | case6 ih => exact ih hcut.leftTree ht hls
  case case5 ih => exact ih hcut.leftTree.leftTree ht.rotateRight hls
  case case8 hgt _ val' hgt' =>
    exact (ht.rotateLeft (hkind val' hgt')).assembles hls
  case case9 hgt _ _ _ ih =>
    obtain ⟨hright, hlinks⟩ := hpass hcut ht hgt hls
    exact ih hcut.rightTree hright hlinks
  case case10 left val _ _ _ hgt left' val' a x b hgt' ih =>
    have hsame : (node left val (node left' val' (node a x b))).toList =
        (node (node left val left') val' (node a x b)).toList := by
      simp [toList]
    rw [hsame] at hcut
    obtain ⟨hright, hlinks⟩ :=
      hpass hcut (ht.rotateLeft (hkind val' hgt')) hgt' hls
    exact ih hcut.rightTree hright hlinks
  case case11 hgt _ _ _ _ _ _ ih =>
    obtain ⟨hright, hlinks⟩ := hpass hcut ht hgt hls
    exact ih hcut.rightTree hright hlinks

end FirstOfKind

end SplayTree

end BrickEmu
