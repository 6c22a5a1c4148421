import MiniDns.Lib.Runs
import Mathlib.Data.List.Induction
import Mathlib.Data.Nat.Notation

/-! The states that a run has passed through, and invariants that speak about them. -/
namespace MiniDns.Lib
set_option autoImplicit false

variable {σ α : Type*} {step : σ → α → Option σ} {s s' v v' : σ} {as : List α} {a : α} {i j : ℕ}

theorem run_snoc : run step s (as ++ [a]) = some s' ↔ ∃ m, run step s as = some m ∧ step m a = some s' := by
  rw [run_append]
  exact exists_congr fun m => and_congr_right' (by simp [run])

/-- **An invariant of the actions so far and the state behind them holds of every run**, if each step from a
state that the run has reached keeps it. -/
theorem run_history {Inv : List α → σ → Prop}
    (hstep : ∀ as m a m', run step s as = some m → Inv as m → step m a = some m' → Inv (as ++ [a]) m')
    (hs : Inv [] s) (hrun : run step s as = some s') : Inv as s' := by
  induction as using List.reverseRecOn generalizing s' with
  | nil => exact Option.some.inj hrun ▸ hs
  | append_singleton as a ih =>
    obtain ⟨m, hm, ha⟩ := run_snoc.mp hrun
    exact hstep as m a s' hm (ih hm) ha

/-- The run was in the state after its first `i` actions. -/
structure Seen (step : σ → α → Option σ) (s : σ) (as : List α) (i : ℕ) (v : σ) : Prop where
  within : i ≤ as.length
  reached : run step s (as.take i) = some v

theorem Seen.later (h : Seen step s as i v) (bs : List α) : Seen step s (as ++ bs) i v where
  within := Nat.le_trans h.within (by simp)
  reached := by rw [List.take_append_of_le_length h.within, h.reached]

theorem seen_now (h : run step s as = some s') (bs : List α) : Seen step s (as ++ bs) as.length s' :=
  .later ⟨Nat.le_refl _, by rwa [List.take_length]⟩ bs

/-- What lies between two states of a run. -/
theorem Seen.between (h : Seen step s as i v) (h' : Seen step s as j v') (hij : i ≤ j) :
    run step v ((as.take j).drop i) = some v' := by
  have hsplit : (as.take j).take i ++ (as.take j).drop i = as.take j := List.take_append_drop i _
  have hrun := h'.reached
  rw [← hsplit, List.take_take, Nat.min_eq_left hij, run_append] at hrun
  obtain ⟨m, hm, hrest⟩ := hrun
  rwa [Option.some.inj (h.reached.symm.trans hm)]

end MiniDns.Lib
