import Mathlib.Tactic

/-!
# Loops as passes

A pass of a loop leaves it with a result or goes round again with a new
state.  The loop terminates where every round lowers a measure.
-/

namespace BrickEmu

variable {σ ρ : Type*}

/-- From this state the loop leaves with this result. -/
inductive Leaves (pass : σ → ρ ⊕ σ) : σ → ρ → Prop where
  | leave {s : σ} {r : ρ} (hpass : pass s = .inl r) : Leaves pass s r
  | again {s s' : σ} {r : ρ} (hpass : pass s = .inr s')
      (hrest : Leaves pass s' r) : Leaves pass s r

/-- A bounded number of passes, with `stuck` where they do not suffice. -/
def runPasses (pass : σ → ρ ⊕ σ) (stuck : σ → ρ) : ℕ → σ → ρ
  | 0, s => stuck s
  | fuel + 1, s =>
      match pass s with
      | .inl r => r
      | .inr s' => runPasses pass stuck fuel s'

variable {pass : σ → ρ ⊕ σ}

theorem runPasses_leaves (stuck : σ → ρ) (measure : σ → ℕ)
    (hless : ∀ s s', pass s = .inr s' → measure s' < measure s)
    (fuel : ℕ) : ∀ s, measure s < fuel →
      Leaves pass s (runPasses pass stuck fuel s) := by
  induction fuel with
  | zero => exact fun s hfuel => absurd hfuel (Nat.not_lt_zero _)
  | succ fuel ih =>
      intro s hfuel
      rw [runPasses]
      cases hpass : pass s with
      | inl r => exact .leave hpass
      | inr s' =>
          have hlower := hless s s' hpass
          exact .again hpass (ih s' (by omega))

end BrickEmu
