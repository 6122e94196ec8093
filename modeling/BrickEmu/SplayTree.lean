import Mathlib.Data.List.Basic

/-!
# Top-down splay trees

The splay walks down from the root and links the nodes it passes into two
trees, those before and those behind the sought place.  The two orders are
given as tests against the nodes, so that elements with equal keys are
allowed.  A splay changes the shape of a tree and not the sequence of its
elements.
-/

namespace BrickEmu

inductive SplayTree (α : Type) where
  | nil
  | node (left : SplayTree α) (val : α) (right : SplayTree α)
  deriving DecidableEq

namespace SplayTree

variable {α : Type}

def toList : SplayTree α → List α
  | nil => []
  | node left val right => left.toList ++ val :: right.toList

/-- Completes the tree of the nodes before the sought place, the last linked
node first. -/
def closeLeft (links : List (α × SplayTree α)) (t : SplayTree α) :
    SplayTree α :=
  links.foldl (fun t link => node link.2 link.1 t) t

def closeRight (links : List (α × SplayTree α)) (t : SplayTree α) :
    SplayTree α :=
  links.foldl (fun t link => node t link.1 link.2) t

def assemble (ls rs : List (α × SplayTree α)) (left : SplayTree α) (val : α)
    (right : SplayTree α) : SplayTree α :=
  node (closeLeft ls left) val (closeRight rs right)

/-- The loop of the splay: `lt` and `gt` tell on which side of a node the
sought place lies. -/
def splayLoop (lt gt : α → Bool) :
    SplayTree α → List (α × SplayTree α) → List (α × SplayTree α) →
      SplayTree α
  | nil, _, _ => nil
  | node left val right, ls, rs =>
      if lt val then
        match left with
        | nil => assemble ls rs nil val right
        | node nil val' right' =>
            if lt val' then assemble ls rs nil val' (node right' val right)
            else splayLoop lt gt (node nil val' right') ls ((val, right) :: rs)
        | node (node a x b) val' right' =>
            if lt val' then
              splayLoop lt gt (node a x b) ls
                ((val', node right' val right) :: rs)
            else
              splayLoop lt gt (node (node a x b) val' right') ls
                ((val, right) :: rs)
      else if gt val then
        match right with
        | nil => assemble ls rs left val nil
        | node left' val' nil =>
            if gt val' then assemble ls rs (node left val left') val' nil
            else splayLoop lt gt (node left' val' nil) ((val, left) :: ls) rs
        | node left' val' (node a x b) =>
            if gt val' then
              splayLoop lt gt (node a x b)
                ((val', node left val left') :: ls) rs
            else
              splayLoop lt gt (node left' val' (node a x b))
                ((val, left) :: ls) rs
      else assemble ls rs left val right

theorem toList_closeLeft (ls : List (α × SplayTree α)) (t : SplayTree α) :
    (closeLeft ls t).toList = (closeLeft ls nil).toList ++ t.toList := by
  induction ls generalizing t with
  | nil => simp [closeLeft, toList]
  | cons link ls ih =>
      have hstep (t : SplayTree α) :
          closeLeft (link :: ls) t = closeLeft ls (node link.2 link.1 t) :=
        rfl
      rw [hstep, hstep, ih, ih (node link.2 link.1 nil)]
      simp [toList]

theorem toList_closeRight (rs : List (α × SplayTree α)) (t : SplayTree α) :
    (closeRight rs t).toList = t.toList ++ (closeRight rs nil).toList := by
  induction rs generalizing t with
  | nil => simp [closeRight, toList]
  | cons link rs ih =>
      have hstep (t : SplayTree α) :
          closeRight (link :: rs) t = closeRight rs (node t link.1 link.2) :=
        rfl
      rw [hstep, hstep, ih, ih (node nil link.1 link.2)]
      simp [toList]

theorem toList_assemble (ls rs : List (α × SplayTree α))
    (left : SplayTree α) (val : α) (right : SplayTree α) :
    (assemble ls rs left val right).toList =
      (closeLeft ls nil).toList ++ (node left val right).toList ++
        (closeRight rs nil).toList := by
  simp only [assemble, toList]
  rw [toList_closeLeft, toList_closeRight]
  simp

theorem toList_linkLeft (ls : List (α × SplayTree α)) (val : α)
    (left : SplayTree α) :
    (closeLeft ((val, left) :: ls) nil).toList =
      (closeLeft ls nil).toList ++ (left.toList ++ [val]) := by
  change (closeLeft ls (node left val nil)).toList = _
  rw [toList_closeLeft]
  simp [toList]

theorem toList_linkRight (rs : List (α × SplayTree α)) (val : α)
    (right : SplayTree α) :
    (closeRight ((val, right) :: rs) nil).toList =
      val :: right.toList ++ (closeRight rs nil).toList := by
  change (closeRight rs (node nil val right)).toList = _
  rw [toList_closeRight]
  simp [toList]

theorem toList_splayLoop (lt gt : α → Bool) (t : SplayTree α)
    (ls rs : List (α × SplayTree α)) (hnil : t ≠ nil) :
    (splayLoop lt gt t ls rs).toList =
      (closeLeft ls nil).toList ++ t.toList ++
        (closeRight rs nil).toList := by
  fun_induction splayLoop lt gt t ls rs
  case case1 => contradiction
  all_goals simp_all [toList_assemble, toList_linkLeft, toList_linkRight,
    toList]

end SplayTree

end BrickEmu
