import MiniDns.Lib.Runs
import Mathlib.Data.Nat.Notation
import Mathlib.Logic.Function.Basic

/-! Threads with local states over a shared memory. A move of one thread changes the memory and its own
state; moves of different threads interleave. -/
namespace MiniDns.Lib
open Function
set_option autoImplicit false

variable {τ σ ℓ α : Type*}

structure Threads (τ σ ℓ : Type*) where
  memory : σ
  own : τ → ℓ

namespace Threads
variable [DecidableEq τ]

def step (move : σ → ℓ → α → Option (σ × ℓ)) (w : Threads τ σ ℓ) (a : τ × α) : Option (Threads τ σ ℓ) :=
  (move w.memory (w.own a.1) a.2).map fun next => ⟨next.1, update w.own a.1 next.2⟩

variable {move : σ → ℓ → α → Option (σ × ℓ)} {w w' : Threads τ σ ℓ} {t : τ} {a : α}

theorem step_eq_some : step move w (t, a) = some w' ↔
    ∃ m l, move w.memory (w.own t) a = some (m, l) ∧ w' = ⟨m, update w.own t l⟩ := by
  simp only [step, Option.map_eq_some_iff, Prod.exists]
  exact exists_congr fun m => exists_congr fun l => and_congr_right' eq_comm

/-- The moves of one thread are steps of the whole, while the others stand still. -/
theorem run_own {l : ℓ} {m : σ} {moves : List α}
    (h : run (fun s a => move s.1 s.2 a) (w.memory, w.own t) moves = some (m, l)) :
    run (step move) w (moves.map fun a => (t, a)) = some ⟨m, update w.own t l⟩ := by
  induction moves generalizing w with
  | nil =>
    obtain ⟨rfl, rfl⟩ := Prod.mk.inj (Option.some.inj h)
    rw [update_eq_self]
    rfl
  | cons a moves ih =>
    obtain ⟨⟨m', l'⟩, hmove, hrest⟩ := run_cons.mp h
    rw [List.map_cons, run_cons]
    refine ⟨⟨m', update w.own t l'⟩, step_eq_some.mpr ⟨m', l', hmove, rfl⟩, ?_⟩
    rw [← update_idem (f := w.own) l' l]
    exact ih (w := ⟨m', update w.own t l'⟩) (by simpa only [update_self] using hrest)

/-- **Non-interference.** What every move keeps of the memory and of its own thread, without harm to what
the other threads rely on, holds of every interleaving. -/
theorem run_keeps {Inv : σ → Prop} {Good : σ → ℓ → Prop}
    (hmove : ∀ m l a m' l', Inv m → Good m l → move m l a = some (m', l') →
      Inv m' ∧ Good m' l' ∧ ∀ other, Good m other → Good m' other)
    (hmemory : Inv w.memory) (hown : ∀ t, Good w.memory (w.own t)) {acts : List (τ × α)}
    (hrun : run (step move) w acts = some w') : Inv w'.memory ∧ ∀ t, Good w'.memory (w'.own t) := by
  have hkeep : ∀ v a v', (Inv v.memory ∧ ∀ t : τ, Good v.memory (v.own t)) → step move v a = some v' →
      Inv v'.memory ∧ ∀ t, Good v'.memory (v'.own t) := by
    rintro v ⟨t, a⟩ v' ⟨hinv, hgood⟩ hstep
    obtain ⟨m, l, hm, rfl⟩ := step_eq_some.mp hstep
    obtain ⟨hinv', hown', hothers⟩ := hmove _ _ _ _ _ hinv (hgood t) hm
    refine ⟨hinv', fun t' => ?_⟩
    by_cases ht : t' = t
    · subst ht
      simpa only [update_self] using hown'
    · simpa only [update_of_ne ht] using hothers _ (hgood t')
  exact (run_preserves hkeep ⟨hmemory, hown⟩ hrun :)

end Threads

/-! ## Events of a run -/

variable {step : σ → α → Option σ} {s s' : σ} {as : List α}

/-- How many actions of a run are of the kind, each seen in the state before it. -/
def occurrences (step : σ → α → Option σ) (kind : σ → α → Bool) : σ → List α → ℕ
  | _, [] => 0
  | s, a :: as =>
    (if kind s a then 1 else 0) +
      match step s a with
      | some s' => occurrences step kind s' as
      | none => 0

/-- **A bound that only actions of the kind raise, each by one, is raised by their number.** -/
theorem run_bounded {kind : σ → α → Bool} {Bound : ℕ → σ → Prop}
    (hstep : ∀ n s a s', Bound n s → step s a = some s' → Bound (n + if kind s a then 1 else 0) s') {n : ℕ}
    (hs : Bound n s) (hrun : run step s as = some s') : Bound (n + occurrences step kind s as) s' := by
  induction as generalizing s n with
  | nil =>
    obtain rfl := Option.some.inj hrun
    exact hs
  | cons a as ih =>
    obtain ⟨m, hm, hrest⟩ := run_cons.mp hrun
    rw [occurrences, hm, ← Nat.add_assoc]
    exact ih (hstep n s a m hs hm) hrest

end MiniDns.Lib
