import Mathlib.Tactic

/-!
# Schedules with extra maintenance steps

A schedule is a list of timed actions run against a state.  One schedule
extends another when it contains additional maintenance actions.  A relation
between the two states that survives both the shared actions and the extra
ones shows that nothing the shared actions return depends on the extension.
-/

namespace BrickEmu

variable {α β σ : Type*}

structure Timed (α : Type*) where
  cycle : ℕ
  action : α

/-- The second schedule is the first one with extra actions put in. -/
inductive Extends (extra : α → Prop) :
    List (Timed α) → List (Timed α) → Prop
  | nil : Extends extra [] []
  | keep (event : Timed α) {base more : List (Timed α)} :
      Extends extra base more → Extends extra (event :: base) (event :: more)
  | insert {event : Timed α} {base more : List (Timed α)} :
      extra event.action → Extends extra base more →
        Extends extra base (event :: more)

theorem Extends.subset {extra : α → Prop} {base more : List (Timed α)}
    (hext : Extends extra base more) : base ⊆ more := by
  induction hext with
  | nil => exact List.Subset.refl []
  | keep event _ ih => exact List.cons_subset_cons event ih
  | insert _ _ ih => exact List.subset_cons_of_subset _ ih

def runTimed (step : Timed α → σ → Option β × σ) :
    List (Timed α) → σ → List β × σ
  | [], state => ([], state)
  | event :: rest, state =>
      let result := step event state
      let tail := runTimed step rest result.2
      (result.1.toList ++ tail.1, tail.2)

/-- Every event of the schedule meets a condition on the state it meets. -/
def Along (step : Timed α → σ → Option β × σ)
    (condition : Timed α → σ → Prop) : List (Timed α) → σ → Prop
  | [], _ => True
  | event :: rest, state =>
      condition event state ∧ Along step condition rest (step event state).2

instance decidableAlong (step : Timed α → σ → Option β × σ)
    (condition : Timed α → σ → Prop)
    [∀ event state, Decidable (condition event state)] :
    ∀ events state, Decidable (Along step condition events state)
  | [], _ => .isTrue trivial
  | event :: rest, state =>
      have := decidableAlong step condition rest (step event state).2
      inferInstanceAs (Decidable (_ ∧ _))

theorem Along.and_of_forall {step : Timed α → σ → Option β × σ}
    {condition : Timed α → σ → Prop} {accepted : Timed α → Prop}
    {events : List (Timed α)} {state : σ}
    (haccepted : ∀ event ∈ events, accepted event)
    (halong : Along step condition events state) :
    Along step (fun event state => accepted event ∧ condition event state)
      events state := by
  induction events generalizing state with
  | nil => trivial
  | cons event rest ih =>
      obtain ⟨hhead, htail⟩ := halong
      refine ⟨⟨haccepted event (List.mem_cons_self ..), hhead⟩, ?_⟩
      exact ih (fun other hother =>
        haccepted other (List.mem_cons_of_mem _ hother)) htail

/-- Cycles never decrease along a schedule that starts at `now`. -/
def Ordered : ℕ → List (Timed α) → Prop
  | _, [] => True
  | now, event :: rest => now ≤ event.cycle ∧ Ordered event.cycle rest

instance decidableOrdered :
    ∀ (now : ℕ) (events : List (Timed α)), Decidable (Ordered now events)
  | _, [] => .isTrue trivial
  | _, event :: rest =>
      have := decidableOrdered event.cycle rest
      inferInstanceAs (Decidable (_ ∧ _))

theorem Ordered.mono {now later : ℕ} {events : List (Timed α)}
    (hordered : Ordered later events) (hle : now ≤ later) :
    Ordered now events := by
  cases events with
  | nil => trivial
  | cons event rest => exact ⟨hle.trans hordered.1, hordered.2⟩

theorem Ordered.le_of_mem {now : ℕ} {events : List (Timed α)}
    (hordered : Ordered now events) {event : Timed α}
    (hmem : event ∈ events) : now ≤ event.cycle := by
  induction events generalizing now with
  | nil => simp at hmem
  | cons first rest ih =>
      rcases List.mem_cons.mp hmem with heq | hrest
      · exact heq ▸ hordered.1
      · exact hordered.1.trans (ih hordered.2 hrest)

/-- What two runs must preserve for extra actions to stay unobserved.  The
`related` states may differ only by maintenance already done in the second
one; `allowed` says that maintenance may happen at a cycle. -/
structure Unobserved (step : Timed α → σ → Option β × σ)
    (extra : α → Prop) (condition : Timed α → σ → Prop)
    (related : ℕ → σ → σ → Prop) : Prop where
  shared : ∀ {now : ℕ} {event : Timed α} {left right : σ},
    now ≤ event.cycle → related now left right → condition event left →
      (step event left).1 = (step event right).1 ∧
        related event.cycle (step event left).2 (step event right).2
  inserted : ∀ {now : ℕ} {event later : Timed α} {left right : σ},
    now ≤ event.cycle → event.cycle ≤ later.cycle →
      related now left right → condition later left → extra event.action →
        (step event right).1 = none ∧
          related event.cycle left (step event right).2

theorem runTimed_append (step : Timed α → σ → Option β × σ)
    (first second : List (Timed α)) (state : σ) :
    runTimed step (first ++ second) state =
      ((runTimed step first state).1 ++
          (runTimed step second (runTimed step first state).2).1,
        (runTimed step second (runTimed step first state).2).2) := by
  induction first generalizing state with
  | nil => simp [runTimed]
  | cons event rest ih => simp [runTimed, ih]

/-- Up to a closing event that both runs share, extra actions change no
output and leave related states behind. -/
theorem Unobserved.run_eq {step : Timed α → σ → Option β × σ}
    {extra : α → Prop} {condition : Timed α → σ → Prop}
    {related : ℕ → σ → σ → Prop}
    (hunobserved : Unobserved step extra condition related)
    {base more : List (Timed α)} (hext : Extends extra base more)
    (final : Timed α) :
    ∀ {now : ℕ} {left right : σ}, related now left right →
      Ordered now (more ++ [final]) →
      Along step condition (base ++ [final]) left →
        (runTimed step base left).1 = (runTimed step more right).1 ∧
          condition final (runTimed step base left).2 ∧
          ∃ before, before ≤ final.cycle ∧
            related before (runTimed step base left).2
              (runTimed step more right).2 := by
  induction hext with
  | nil =>
      intro now left right hrelated hordered halong
      exact ⟨rfl, halong.1, now, hordered.1, hrelated⟩
  | keep event _ ih =>
      intro now left right hrelated hordered halong
      obtain ⟨hout, hnext⟩ :=
        hunobserved.shared hordered.1 hrelated halong.1
      obtain ⟨htail, hfinal⟩ := ih hnext hordered.2 halong.2
      simp only [runTimed, hout, htail]
      exact ⟨trivial, hfinal⟩
  | @insert event base more hextra hext ih =>
      intro now left right hrelated hordered halong
      obtain ⟨later, hlater, hcondition⟩ :
          ∃ later ∈ base ++ [final], condition later left := by
        cases base with
        | nil => exact ⟨final, by simp, halong.1⟩
        | cons head rest => exact ⟨head, by simp, halong.1⟩
      have hmem : later ∈ more ++ [final] := by
        rcases List.mem_append.mp hlater with hbase | hlast
        · exact List.mem_append_left _ (hext.subset hbase)
        · exact List.mem_append_right _ hlast
      obtain ⟨hout, hnext⟩ := hunobserved.inserted hordered.1
        (hordered.2.le_of_mem hmem) hrelated hcondition hextra
      obtain ⟨htail, hfinal⟩ := ih hnext hordered.2 halong
      simp only [runTimed, hout, Option.toList_none, List.nil_append]
      exact ⟨htail, hfinal⟩

end BrickEmu
