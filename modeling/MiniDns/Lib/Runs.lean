import Mathlib.Data.Option.Basic

/-! Runs of a step function over a list of actions, and the invariant rule for them. -/
namespace MiniDns.Lib
set_option autoImplicit false

variable {σ α : Type*}

/-- The state after a list of actions, if each of them is possible. -/
def run (step : σ → α → Option σ) : σ → List α → Option σ
  | s, [] => some s
  | s, a :: as => (step s a).bind fun s' => run step s' as

/-- Each action of a run meets the condition in the state before it. -/
def Along (step : σ → α → Option σ) (cond : σ → α → Prop) : σ → List α → Prop
  | _, [] => True
  | s, a :: as => cond s a ∧ ∀ s' ∈ step s a, Along step cond s' as

instance decidableAlong (step : σ → α → Option σ) (cond : σ → α → Prop) [∀ s a, Decidable (cond s a)] :
    ∀ s as, Decidable (Along step cond s as)
  | _, [] => isTrue trivial
  | s, a :: as =>
    have (s' : σ) : Decidable (Along step cond s' as) := decidableAlong step cond s' as
    inferInstanceAs (Decidable (cond s a ∧ ∀ s' ∈ step s a, Along step cond s' as))

variable {step : σ → α → Option σ} {cond : σ → α → Prop} {Inv : σ → Prop} {s s' : σ} {as : List α}

theorem run_cons {a : α} : run step s (a :: as) = some s' ↔ ∃ m, step s a = some m ∧ run step m as = some s' :=
  Option.bind_eq_some_iff

theorem run_append {bs : List α} :
    run step s (as ++ bs) = some s' ↔ ∃ m, run step s as = some m ∧ run step m bs = some s' := by
  induction as generalizing s with
  | nil => simp [run]
  | cons a as ih =>
    simp only [List.cons_append, run_cons, ih]
    constructor
    · rintro ⟨m, hm, n, hn, h⟩
      exact ⟨n, ⟨m, hm, hn⟩, h⟩
    · rintro ⟨n, ⟨m, hm, hn⟩, h⟩
      exact ⟨m, hm, n, hn, h⟩

theorem along_true (as : List α) : Along step (fun _ _ => True) s as := by
  induction as generalizing s with
  | nil => trivial
  | cons a as ih => exact ⟨trivial, fun _ _ => ih⟩

/-- **What each step preserves under its condition holds at the end of every run that meets it.** -/
theorem run_invariant (hstep : ∀ s a s', Inv s → cond s a → step s a = some s' → Inv s') (hs : Inv s)
    (hcond : Along step cond s as) (hrun : run step s as = some s') : Inv s' := by
  induction as generalizing s with
  | nil => exact Option.some.inj hrun ▸ hs
  | cons a as ih =>
    obtain ⟨m, hm, hrest⟩ := run_cons.mp hrun
    exact ih (hstep s a m hs hcond.1 hm) (hcond.2 m hm) hrest

theorem run_preserves (hstep : ∀ s a s', Inv s → step s a = some s' → Inv s') (hs : Inv s)
    (hrun : run step s as = some s') : Inv s' :=
  run_invariant (fun s a s' h _ => hstep s a s' h) hs (along_true as) hrun

end MiniDns.Lib
