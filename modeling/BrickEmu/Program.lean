import Mathlib.Tactic

/-!
# Programs that may leave early

A program works on a state and either returns a value or leaves through an
exit; what it has done to the state up to there is kept.  The rules below
follow a relation between the state before and the state after through the
parts of a program.
-/

namespace BrickEmu

def Program (σ ε α : Type) : Type :=
  σ → Except ε α × σ

namespace Program

variable {σ ε α β : Type}

def pure (a : α) : Program σ ε α :=
  fun s => (.ok a, s)

def bind (p : Program σ ε α) (f : α → Program σ ε β) : Program σ ε β :=
  fun s =>
    match p s with
    | (.ok a, s) => f a s
    | (.error e, s) => (.error e, s)

instance : Monad (Program σ ε) where
  pure := pure
  bind := bind

/-- A step that returns a value and cannot leave. -/
def act (f : σ → α × σ) : Program σ ε α :=
  fun s => (.ok (f s).1, (f s).2)

def gets (f : σ → α) : Program σ ε α :=
  fun s => (.ok (f s), s)

def change (f : σ → σ) : Program σ ε Unit :=
  fun s => (.ok (), f s)

/-- Leaves when the condition holds, after a last change of the state. -/
def leaveIf (condition : σ → Bool) (exit : ε) (last : σ → σ) :
    Program σ ε Unit :=
  fun s => if condition s then (.error exit, last s) else (.ok (), s)

theorem pure_apply (a : α) (s : σ) :
    (Pure.pure a : Program σ ε α) s = (.ok a, s) :=
  rfl

theorem bind_apply (p : Program σ ε α) (f : α → Program σ ε β) (s : σ) :
    (p >>= f) s =
      match p s with
      | (.ok a, s) => f a s
      | (.error e, s) => (.error e, s) :=
  rfl

theorem bind_ok {p : Program σ ε α} {s s' : σ} {a : α}
    (h : p s = (.ok a, s')) (f : α → Program σ ε β) :
    (p >>= f) s = f a s' := by
  rw [bind_apply, h]

theorem bind_error {p : Program σ ε α} {s s' : σ} {e : ε}
    (h : p s = (.error e, s')) (f : α → Program σ ε β) :
    (p >>= f) s = (.error e, s') := by
  rw [bind_apply, h]

@[simp] theorem act_bind (f : σ → α × σ) (g : α → Program σ ε β) (s : σ) :
    (act f >>= g) s = g (f s).1 (f s).2 :=
  rfl

@[simp] theorem gets_bind (f : σ → α) (g : α → Program σ ε β) (s : σ) :
    (gets f >>= g) s = g (f s) s :=
  rfl

@[simp] theorem change_bind (f : σ → σ) (g : Unit → Program σ ε β) (s : σ) :
    (change f >>= g) s = g () (f s) :=
  rfl

theorem leaveIf_bind_pos {condition : σ → Bool} {exit : ε} {last : σ → σ}
    {s : σ} (h : condition s = true) (g : Unit → Program σ ε β) :
    (leaveIf condition exit last >>= g) s = (.error exit, last s) := by
  rw [bind_apply, leaveIf, if_pos h]

theorem leaveIf_bind_neg {condition : σ → Bool} {exit : ε} {last : σ → σ}
    {s : σ} (h : condition s = false) (g : Unit → Program σ ε β) :
    (leaveIf condition exit last >>= g) s = g () s := by
  rw [bind_apply, leaveIf, if_neg (by simp [h])]

/-- Every run of the program relates the states before and after. -/
def Keeps (R : σ → σ → Prop) (p : Program σ ε α) : Prop :=
  ∀ s, R s (p s).2

section Keeps

variable {R : σ → σ → Prop}

theorem keeps_pure (hrefl : ∀ s, R s s) (a : α) :
    Keeps R (Pure.pure a : Program σ ε α) :=
  fun s => hrefl s

theorem keeps_gets (hrefl : ∀ s, R s s) (f : σ → α) :
    Keeps R (gets f : Program σ ε α) :=
  fun s => hrefl s

theorem keeps_act {f : σ → α × σ} (h : ∀ s, R s (f s).2) :
    Keeps R (act f : Program σ ε α) :=
  h

theorem keeps_change {f : σ → σ} (h : ∀ s, R s (f s)) :
    Keeps R (change f : Program σ ε Unit) :=
  h

theorem keeps_leaveIf (hrefl : ∀ s, R s s) {condition : σ → Bool} {exit : ε}
    {last : σ → σ} (h : ∀ s, R s (last s)) :
    Keeps R (leaveIf condition exit last) := by
  intro s
  unfold leaveIf
  split_ifs
  · exact h s
  · exact hrefl s

theorem keeps_bind {R' R'' : σ → σ → Prop} (hleave : ∀ a b, R a b → R'' a b)
    (htrans : ∀ a b c, R a b → R' b c → R'' a c)
    {p : Program σ ε α} {f : α → Program σ ε β} (hp : Keeps R p)
    (hf : ∀ a, Keeps R' (f a)) : Keeps R'' (p >>= f) := by
  intro s
  rw [bind_apply]
  have h := hp s
  rcases hrun : p s with ⟨result, s'⟩
  rw [hrun] at h
  cases result with
  | ok a => exact htrans _ _ _ h (hf a s')
  | error e => exact hleave _ _ h

end Keeps

/-- When the program leaves, the states before and after are related. -/
def LeavesWith (R : σ → σ → Prop) (p : Program σ ε α) (s : σ) : Prop :=
  ∀ e s', p s = (.error e, s') → R s s'

/-- The program never leaves. -/
def Stays (p : Program σ ε α) : Prop :=
  ∀ s, ∃ a s', p s = (.ok a, s')

section Stays

theorem stays_pure (a : α) : Stays (Pure.pure a : Program σ ε α) :=
  fun s => ⟨a, s, rfl⟩

theorem stays_change (f : σ → σ) : Stays (change f : Program σ ε Unit) :=
  fun s => ⟨(), f s, rfl⟩

theorem stays_act (f : σ → α × σ) : Stays (act f : Program σ ε α) :=
  fun s => ⟨(f s).1, (f s).2, rfl⟩

theorem stays_bind {p : Program σ ε α} {f : α → Program σ ε β}
    (hp : Stays p) (hf : ∀ a, Stays (f a)) : Stays (p >>= f) := by
  intro s
  obtain ⟨a, s', hrun⟩ := hp s
  rw [bind_ok hrun]
  exact hf a s'

end Stays

section LeavesWith

variable {R : σ → σ → Prop} {s : σ} {p : Program σ ε α}

theorem leavesWith_pure (a : α) (s : σ) :
    LeavesWith R (Pure.pure a : Program σ ε α) s := by
  intro e s' h
  cases h

theorem Stays.leavesWith (h : Stays p) : LeavesWith R p s := by
  intro e s' hrun
  obtain ⟨a, s'', hok⟩ := h s
  rw [hok] at hrun
  cases hrun

theorem Keeps.leavesWith (h : Keeps R p) : LeavesWith R p s := by
  intro e s' hrun
  have hkept := h s
  rw [hrun] at hkept
  exact hkept

theorem leavesWith_gets {f : σ → α} {g : α → Program σ ε β}
    (h : LeavesWith R (g (f s)) s) : LeavesWith R (gets f >>= g) s := by
  intro e s' hrun
  rw [gets_bind] at hrun
  exact h e s' hrun

/-- A first part that keeps the relation from here. -/
theorem leavesWith_bind (htrans : ∀ a b c, R a b → R b c → R a c)
    {f : α → Program σ ε β} (hp : R s (p s).2)
    (hf : ∀ a s', p s = (.ok a, s') → R s s' → LeavesWith R (f a) s') :
    LeavesWith R (p >>= f) s := by
  intro e s'' hrun
  rcases hfirst : p s with ⟨result, s'⟩
  rw [hfirst] at hp
  cases result with
  | ok a =>
      rw [bind_ok hfirst] at hrun
      exact htrans _ _ _ hp (hf a s' hfirst hp e s'' hrun)
  | error _ =>
      rw [bind_error hfirst] at hrun
      cases hrun
      exact hp

/-- A last part that never leaves. -/
theorem LeavesWith.bind_stays {f : α → Program σ ε β}
    (hp : LeavesWith R p s) (hf : ∀ a, Stays (f a)) :
    LeavesWith R (p >>= f) s := by
  intro e s'' hrun
  rcases hfirst : p s with ⟨result, s'⟩
  cases result with
  | ok a =>
      obtain ⟨b, s''', hok⟩ := hf a s'
      rw [bind_ok hfirst, hok] at hrun
      cases hrun
  | error _ =>
      rw [bind_error hfirst] at hrun
      cases hrun
      exact hp _ _ hfirst

end LeavesWith

/-- What holds at the end when the program does not leave. -/
def EndsWith (Q : α → σ → Prop) (p : Program σ ε α) (s : σ) : Prop :=
  ∀ a s', p s = (.ok a, s') → Q a s'

section EndsWith

variable {s : σ} {p : Program σ ε α} {Q : α → σ → Prop}

theorem EndsWith.mono {R : α → σ → Prop} (h : EndsWith Q p s)
    (himp : ∀ a s', Q a s' → R a s') : EndsWith R p s :=
  fun a s' hrun => himp a s' (h a s' hrun)

theorem EndsWith.bind {f : α → Program σ ε β} {R : β → σ → Prop}
    (h : EndsWith Q p s) (hf : ∀ a s', Q a s' → EndsWith R (f a) s') :
    EndsWith R (p >>= f) s := by
  intro b s'' hrun
  rcases hfirst : p s with ⟨result, s'⟩
  cases result with
  | ok a =>
      rw [bind_ok hfirst] at hrun
      exact hf a s' (h a s' hfirst) b s'' hrun
  | error _ =>
      rw [bind_error hfirst] at hrun
      cases hrun

theorem endsWith_pure {a : α} (h : Q a s) :
    EndsWith Q (Pure.pure a : Program σ ε α) s := by
  intro b s' hrun
  cases hrun
  exact h

theorem endsWith_change {f : σ → σ} {R : Unit → σ → Prop} (h : R () (f s)) :
    EndsWith R (change f : Program σ ε Unit) s := by
  intro b s' hrun
  cases hrun
  exact h

theorem endsWith_act_bind {f : σ → β × σ} {g : β → Program σ ε α}
    (h : EndsWith Q (g (f s).1) (f s).2) : EndsWith Q (act f >>= g) s := by
  intro b s' hrun
  rw [act_bind] at hrun
  exact h b s' hrun

theorem endsWith_gets_bind {f : σ → β} {g : β → Program σ ε α}
    (h : EndsWith Q (g (f s)) s) : EndsWith Q (gets f >>= g) s := by
  intro b s' hrun
  rw [gets_bind] at hrun
  exact h b s' hrun

theorem endsWith_change_bind {f : σ → σ} {g : Unit → Program σ ε α}
    (h : EndsWith Q (g ()) (f s)) : EndsWith Q (change f >>= g) s := by
  intro b s' hrun
  rw [change_bind] at hrun
  exact h b s' hrun

theorem endsWith_leaveIf_bind {condition : σ → Bool} {exit : ε} {last : σ → σ}
    {g : Unit → Program σ ε α}
    (h : condition s = false → EndsWith Q (g ()) s) :
    EndsWith Q (leaveIf condition exit last >>= g) s := by
  intro b s' hrun
  by_cases hcond : condition s = true
  · rw [leaveIf_bind_pos hcond] at hrun
    cases hrun
  · have hcond : condition s = false := by simpa using hcond
    rw [leaveIf_bind_neg hcond] at hrun
    exact h hcond b s' hrun

end EndsWith

end Program

end BrickEmu
