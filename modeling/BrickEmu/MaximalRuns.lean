import Mathlib.Data.List.Basic

/-!
# Maximal runs

A maximal run of a list is a stretch of neighbours that all have a property
and that cannot be made longer on either side.  Walking through a list, a
head without the property belongs to no run, and a head with the property
starts the run that ends where the property first fails.
-/

namespace BrickEmu

variable {α : Type*} {p : α → Prop} {x : α} {xs run first rest : List α}

/-- The first element, if there is one, does not have the property. -/
def StopsAt (p : α → Prop) (xs : List α) : Prop :=
  ∀ x ∈ xs.head?, ¬p x

structure MaximalRun (p : α → Prop) (xs run : List α) : Prop where
  nonempty : run ≠ []
  all : ∀ x ∈ run, p x
  split : ∃ before behind, xs = before ++ run ++ behind ∧
    (∀ x ∈ before.getLast?, ¬p x) ∧ StopsAt p behind

namespace MaximalRun

theorem not_nil : ¬MaximalRun p [] run := by
  rintro ⟨hne, -, before, behind, heq, -⟩
  simp only [List.nil_eq, List.append_eq_nil_iff] at heq
  exact hne heq.1.2

theorem cons (hx : ¬p x) (h : MaximalRun p xs run) :
    MaximalRun p (x :: xs) run := by
  obtain ⟨hne, hall, before, behind, rfl, hleft, hright⟩ := h
  refine ⟨hne, hall, x :: before, behind, rfl, ?_, hright⟩
  cases before with
  | nil => simpa using hx
  | cons y ys =>
      rw [List.getLast?_cons_cons]
      exact hleft

theorem cons_iff (hx : ¬p x) :
    MaximalRun p (x :: xs) run ↔ MaximalRun p xs run := by
  refine ⟨?_, cons hx⟩
  rintro ⟨hne, hall, before, behind, heq, hleft, hright⟩
  cases before with
  | nil =>
      -- the run would start at the head
      obtain ⟨y, ys, rfl⟩ := List.exists_cons_of_ne_nil hne
      obtain rfl : x = y := (List.cons.inj heq).1
      exact absurd (hall x List.mem_cons_self) hx
  | cons y ys =>
      refine ⟨hne, hall, ys, behind, (List.cons.inj heq).2, ?_, hright⟩
      intro z hz
      apply hleft z
      cases ys with
      | nil => cases hz
      | cons w ws =>
          rw [List.getLast?_cons_cons]
          exact hz

/-- Two stretches with the property that both end where it fails are the
same. -/
theorem stretch_unique {other ys : List α}
    (heq : first ++ rest = other ++ ys) (hfirst : ∀ x ∈ first, p x)
    (hother : ∀ x ∈ other, p x) (hrest : StopsAt p rest)
    (hys : StopsAt p ys) : first = other ∧ rest = ys := by
  induction first generalizing other with
  | nil =>
      cases other with
      | nil => exact ⟨rfl, heq⟩
      | cons y other =>
          rw [List.nil_append] at heq
          subst heq
          exact absurd (hother y List.mem_cons_self) (hrest y rfl)
  | cons x first ih =>
      cases other with
      | nil =>
          rw [List.nil_append] at heq
          subst heq
          exact absurd (hfirst x List.mem_cons_self) (hys x rfl)
      | cons y other =>
          obtain ⟨rfl, htails⟩ := List.cons.inj heq
          obtain ⟨rfl, hend⟩ := ih htails
            (fun z hz => hfirst z (List.mem_cons_of_mem x hz))
            (fun z hz => hother z (List.mem_cons_of_mem x hz))
          exact ⟨rfl, hend⟩

theorem head (hne : first ≠ []) (hfirst : ∀ x ∈ first, p x)
    (hrest : StopsAt p rest) : MaximalRun p (first ++ rest) first :=
  ⟨hne, hfirst, [], rest, rfl, by simp, hrest⟩

/-- A run of the rest of the list is one of the whole list. -/
theorem append_left (hrest : StopsAt p rest) (h : MaximalRun p rest run) :
    MaximalRun p (first ++ rest) run := by
  obtain ⟨hne, hall, before, behind, heq, hleft, hright⟩ := h
  refine ⟨hne, hall, first ++ before, behind, ?_, ?_, hright⟩
  · rw [heq]
    simp only [List.append_assoc]
  cases before with
  | nil =>
      obtain ⟨y, ys, rfl⟩ := List.exists_cons_of_ne_nil hne
      subst heq
      exact absurd (hall y List.mem_cons_self) (hrest y rfl)
  | cons y ys =>
      rw [List.getLast?_append_of_ne_nil _ (List.cons_ne_nil y ys)]
      exact hleft

/-- The runs of a list that begins with a maximal run. -/
theorem append_iff (hne : first ≠ []) (hfirst : ∀ x ∈ first, p x)
    (hrest : StopsAt p rest) :
    MaximalRun p (first ++ rest) run ↔
      run = first ∨ MaximalRun p rest run := by
  constructor
  · rintro ⟨hnerun, hall, before, behind, heq, hleft, hright⟩
    rcases List.eq_nil_or_concat before with rfl | ⟨init, last, rfl⟩
    · rw [List.nil_append] at heq
      exact Or.inl (stretch_unique heq hfirst hall hrest hright).1.symm
    · -- the element before the run lies behind the first run
      right
      have hlast : ¬p last := hleft last (by simp)
      rw [List.append_assoc] at heq
      rcases List.append_eq_append_iff.mp heq with
        ⟨between, hbefore, hbehind⟩ | ⟨between, hbefore, -⟩
      · refine ⟨hnerun, hall, between, behind, ?_, ?_, hright⟩
        · rw [hbehind, List.append_assoc]
        · intro z hz
          cases between with
          | nil => cases hz
          | cons w ws =>
              apply hleft z
              rw [hbefore, List.getLast?_append_of_ne_nil _
                (List.cons_ne_nil w ws)]
              exact hz
      · have hmem : last ∈ first := by
          rw [hbefore]
          simp
        exact absurd (hfirst last hmem) hlast
  · rintro (rfl | h)
    · exact head hne hfirst hrest
    · exact h.append_left hrest

end MaximalRun

end BrickEmu
