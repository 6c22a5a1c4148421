import MiniDns.Lib.Runs
import Mathlib.Logic.Function.Basic

/-! Runs of a machine seen as runs of its parts. -/
namespace MiniDns.Lib
open Function
set_option autoImplicit false

variable {σ τ α β : Type*} {step : σ → α → Option σ} {part : τ → β → Option τ} {s s' : σ} {as : List α}

/-- **A run is a run of each part that its steps leave alone or move.** -/
theorem run_project (view : σ → τ) (label : α → Option β)
    (hmoved : ∀ s a s' b, label a = some b → step s a = some s' → part (view s) b = some (view s'))
    (hsame : ∀ s a s', label a = none → step s a = some s' → view s' = view s) (hrun : run step s as = some s') :
    run part (view s) (as.filterMap label) = some (view s') := by
  induction as generalizing s with
  | nil =>
    obtain rfl := Option.some.inj hrun
    rfl
  | cons a as ih =>
    obtain ⟨m, hm, hrest⟩ := run_cons.mp hrun
    cases hlabel : label a with
    | none =>
      rw [List.filterMap_cons_none hlabel, ← hsame s a m hlabel hm]
      exact ih hrest
    | some b =>
      rw [List.filterMap_cons_some hlabel, run_cons]
      exact ⟨view m, hmoved s a m b hlabel hm, ih hrest⟩

end MiniDns.Lib
