import Mathlib

/-! Machines that several parties step in any order.

A machine has one state and a set of actions; an action is enabled or not, and
what it does is a function of the state. An interleaving is a list of actions, so
a theorem about every list of actions is a theorem about every order in which the
parties can take their steps.

Some theorems hold only of the runs whose steps all meet a condition on the state
they are taken in. `Meets` is that condition along a run, and the two induction
rules, `invariant` and `invariant_of_meets`, are the only inductions over runs
that a development needs. -/
namespace V8Multithread

/-- What an action does to a state, if it is enabled there. -/
structure Machine (σ α : Type) where
  step : σ → α → Option σ

namespace Machine
variable {σ α : Type} (M : Machine σ α)

/-- The state after a list of actions, if each is enabled in its turn. -/
def run (s : σ) : List α → Option σ
  | [] => some s
  | a :: rest => (M.step s a).bind fun s' => run s' rest

/-- Every step of the run meets `ok` in the state it is taken in. -/
def Meets (ok : σ → α → Prop) (s : σ) : List α → Prop
  | [] => True
  | a :: rest => ok s a ∧
    match M.step s a with
    | some s' => Meets ok s' rest
    | none => True

theorem run_cons (s : σ) (a : α) (rest : List α) : M.run s (a :: rest) = (M.step s a).bind fun s' => M.run s' rest := rfl

variable {M}

variable {s t : σ} {as : List α} {ok : σ → α → Prop}

variable {a : α} {rest bs : List α} {s' : σ} {I : σ → Prop}

/-- A run with a first step takes it. -/
theorem run_cons_some (h : M.run s (a :: rest) = some t) : ∃ s', M.step s a = some s' ∧ M.run s' rest = some t := by
  exact Option.bind_eq_some_iff.mp h

/-- A run can be taken on from where another ends. -/
theorem run_trans (has : M.run s as = some s') (hbs : M.run s' bs = some t) : M.run s (as ++ bs) = some t := by
  induction as generalizing s with
  | nil =>
    cases has
    exact hbs
  | cons a rest ih =>
    obtain ⟨s₁, hst, hrest⟩ := run_cons_some has
    rw [List.cons_append, run_cons, hst]
    exact ih hrest

theorem meets_cons (h : M.Meets ok s (a :: rest)) (hst : M.step s a = some s') : ok s a ∧ M.Meets ok s' rest := by
  obtain ⟨hok, hrest⟩ := h
  rw [hst] at hrest
  exact ⟨hok, hrest⟩

theorem meets_append (h : M.Meets ok s (as ++ bs)) (hrun : M.run s as = some s') : M.Meets ok s as ∧ M.Meets ok s' bs := by
  induction as generalizing s with
  | nil =>
    cases hrun
    exact ⟨trivial, h⟩
  | cons a rest ih =>
    obtain ⟨s₁, hst, hrest⟩ := run_cons_some hrun
    obtain ⟨hok, hme⟩ := meets_cons h hst
    obtain ⟨hl, hri⟩ := ih hme hrest
    refine ⟨⟨hok, ?_⟩, hri⟩
    rw [hst]
    exact hl

/-- What every step preserves where the condition is met holds after every run
that meets it. -/
theorem invariant_of_meets (hst : ∀ s a s', I s → ok s a → M.step s a = some s' → I s') (h : I s)
    (hrun : M.run s as = some t) (hme : M.Meets ok s as) :
    I t := by
  induction as generalizing s with
  | nil =>
    cases hrun
    exact h
  | cons a rest ih =>
    obtain ⟨s', hs, hrest⟩ := run_cons_some hrun
    obtain ⟨hok, hta⟩ := meets_cons hme hs
    exact ih (hst s a s' h hok hs) hrest hta

theorem meets_true (s : σ) (as : List α) : M.Meets (fun _ _ => True) s as := by
  induction as generalizing s with
  | nil => trivial
  | cons a rest ih =>
    refine ⟨trivial, ?_⟩
    cases M.step s a with
    | none => trivial
    | some s' => exact ih s'

/-- What every step preserves holds after every run. -/
theorem invariant (hst : ∀ s a s', I s → M.step s a = some s' → I s') (h : I s) (hrun : M.run s as = some t) : I t :=
  invariant_of_meets (fun s a s' hs _ => hst s a s' hs) h hrun (meets_true s as)

end Machine
end V8Multithread
