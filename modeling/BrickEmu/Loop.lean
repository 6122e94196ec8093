import Mathlib.Data.Set.Defs
import Mathlib.Logic.Function.Iterate
import Mathlib.Logic.Relation

/-!
# Loops that may go on for ever

A loop is a function that gives the next state or a result.  A loop halts if
it comes to a result.  That it halts is proved along the states it comes to;
that it does not is proved by a set of states which it never leaves for good.
-/

namespace Loop

variable {σ τ ρ ρ' : Type*} (step : σ → σ ⊕ ρ)

/-- The loop ends with the result. -/
inductive Ends : σ → ρ → Prop
  | result {s : σ} {r : ρ} (hstep : step s = .inr r) : Ends s r
  | next {s a : σ} {r : ρ} (hstep : step s = .inl a) (hends : Ends a r) :
      Ends s r

def Halts (s : σ) : Prop :=
  ∃ r, Ends step s r

/-- The loop comes from the first state to the second. -/
def Reaches : σ → σ → Prop :=
  Relation.ReflTransGen fun a b => step a = .inl b

variable {step} {s a b : σ} {r : ρ}

theorem Ends.of_reaches (hreach : Reaches step s a) (hends : Ends step a r) :
    Ends step s r := by
  induction hreach using Relation.ReflTransGen.head_induction_on with
  | refl => exact hends
  | head hstep _ ih => exact .next hstep ih

theorem halts_of_result (hstep : step s = .inr r) : Halts step s :=
  ⟨r, .result hstep⟩

theorem halts_iff_of_next (hstep : step s = .inl a) :
    Halts step s ↔ Halts step a := by
  constructor
  · rintro ⟨r, hends⟩
    cases hends with
    | result hresult =>
        rw [hstep] at hresult
        cases hresult
    | next hnext hends =>
        rw [hstep] at hnext
        cases hnext
        exact ⟨r, hends⟩
  · rintro ⟨r, hends⟩
    exact ⟨r, .next hstep hends⟩

theorem halts_iff_of_reaches (hreach : Reaches step s a) :
    Halts step s ↔ Halts step a := by
  induction hreach using Relation.ReflTransGen.head_induction_on with
  | refl => exact Iff.rfl
  | head hstep _ ih => exact (halts_iff_of_next hstep).trans ih

/-- From every state of the set from which the loop might halt, it comes back
to the set. -/
theorem not_halts_of_progress {S : Set σ} (hs : s ∈ S)
    (hprogress : ∀ a ∈ S, Halts step a →
      ∃ b c, step a = .inl b ∧ Reaches step b c ∧ c ∈ S) :
    ¬ Halts step s := by
  have haway : ∀ a r, Ends step a r → ∀ c ∈ S, ¬ Reaches step a c := by
    intro a r hends
    induction hends with
    | result hresult =>
        intro c hc hreach
        cases hreach using Relation.ReflTransGen.head_induction_on with
        | refl =>
            obtain ⟨_, _, hstep, -⟩ :=
              hprogress _ hc (halts_of_result hresult)
            rw [hresult] at hstep
            cases hstep
        | head hstep _ =>
            rw [hresult] at hstep
            cases hstep
    | next hnext hends ih =>
        intro c hc hreach
        cases hreach using Relation.ReflTransGen.head_induction_on with
        | refl =>
            obtain ⟨b, d, hstep, hback, hd⟩ :=
              hprogress _ hc ⟨_, .next hnext hends⟩
            rw [hnext] at hstep
            cases hstep
            exact ih d hd hback
        | head hstep hrest =>
            rw [hnext] at hstep
            cases hstep
            exact ih c hc hrest
  rintro ⟨r, hends⟩
  exact haway s r hends s hs .refl

/-- A set of states that the loop does not leave. -/
theorem not_halts_of_closed {S : Set σ} (hs : s ∈ S)
    (hclosed : ∀ a ∈ S, ∃ b ∈ S, step a = .inl b) : ¬ Halts step s := by
  apply not_halts_of_progress hs
  intro a ha _
  obtain ⟨b, hb, hstep⟩ := hclosed a ha
  exact ⟨b, b, hstep, .refl, hb⟩

section Chains

variable {α : Type*} {f : α → σ} {next : α → α} {Stops : α → Prop}

/-- A loop that follows a chain ends where the chain stops. -/
theorem halts_iff_stops (hstop : ∀ x, Stops x → ∃ r, step (f x) = .inr r)
    (hgo : ∀ x, ¬ Stops x → step (f x) = .inl (f (next x))) (x : α) :
    Halts step (f x) ↔ ∃ n, Stops (next^[n] x) := by
  constructor
  · intro hhalts
    by_contra hgoes
    rw [not_exists] at hgoes
    refine not_halts_of_closed (S := {s | ∃ n, f (next^[n] x) = s})
      ⟨0, rfl⟩ ?_ hhalts
    rintro _ ⟨n, rfl⟩
    refine ⟨f (next^[n + 1] x), ⟨n + 1, rfl⟩, ?_⟩
    rw [Function.iterate_succ_apply']
    exact hgo _ (hgoes n)
  · rintro ⟨n, hn⟩
    induction n generalizing x with
    | zero =>
        obtain ⟨r, hresult⟩ := hstop x hn
        exact halts_of_result hresult
    | succ n ih =>
        by_cases hstops : Stops x
        · obtain ⟨r, hresult⟩ := hstop x hstops
          exact halts_of_result hresult
        · exact (halts_iff_of_next (hgo x hstops)).mpr (ih _ hn)

end Chains

section Nesting

variable {outer : τ → τ ⊕ ρ'} {f : σ → τ}

/-- The outer loop follows the inner one. -/
theorem Reaches.nested
    (hnested : ∀ a b, step a = .inl b → outer (f a) = .inl (f b))
    (hreach : Reaches step s a) : Reaches outer (f s) (f a) :=
  Relation.ReflTransGen.lift f hnested s a hreach

theorem not_halts_nested
    (hnested : ∀ a b, step a = .inl b → outer (f a) = .inl (f b))
    (hhalts : ¬ Halts step s) : ¬ Halts outer (f s) := by
  apply not_halts_of_closed (S := {c | ∃ a, ¬ Halts step a ∧ f a = c})
    ⟨s, hhalts, rfl⟩
  rintro _ ⟨a, ha, rfl⟩
  cases hstep : step a with
  | inr r => exact absurd (halts_of_result hstep) ha
  | inl b =>
      refine ⟨f b, ⟨b, ?_, rfl⟩, hnested a b hstep⟩
      exact mt (halts_iff_of_next hstep).mpr ha

end Nesting

end Loop
