import MiniDns.Lib.Runs
import Mathlib.Data.Nat.Notation
import Mathlib.Data.Set.Finite.Basic

/-! Runs along which a rank falls: how often actions of a kind are taken, and what can still be reached. -/
namespace MiniDns.Lib
set_option autoImplicit false

variable {σ α : Type*} {step : σ → α → Option σ} {s s' : σ} {as : List α}

/-- **Actions that lower a rank, which no other action raises, are taken at most as often as it was high.** -/
theorem countP_le_rank {kind : α → Bool} {rank : σ → ℕ}
    (hstep : ∀ s a s', step s a = some s' → rank s' + (if kind a then 1 else 0) ≤ rank s)
    (hrun : run step s as = some s') : rank s' + as.countP kind ≤ rank s := by
  induction as generalizing s with
  | nil =>
    obtain rfl := Option.some.inj hrun
    exact Nat.le_refl _
  | cons a as ih =>
    obtain ⟨m, hm, hrest⟩ := run_cons.mp hrun
    have hhead := hstep s a m hm
    have htail := ih hrest
    rw [List.countP_cons]
    omega

/-- **A goal is within reach of every state of an invariant** if each of its states that has not reached it has
a good action to a state of the invariant with a lower rank. -/
theorem reaches_of_rank {Inv Goal : σ → Prop} {Good : α → Prop} {rank : σ → ℕ}
    (hstep : ∀ s, Inv s → ¬ Goal s → ∃ a s', Good a ∧ step s a = some s' ∧ Inv s' ∧ rank s' < rank s) (hs : Inv s) :
    ∃ as s', (∀ a ∈ as, Good a) ∧ run step s as = some s' ∧ Goal s' := by
  induction hrank : rank s using Nat.strongRecOn generalizing s with
  | ind n ih =>
    by_cases hgoal : Goal s
    · exact ⟨[], s, nofun, rfl, hgoal⟩
    · obtain ⟨a, m, ha, hm, hinv, hlt⟩ := hstep s hs hgoal
      obtain ⟨as, s', has, hrun, hgoal'⟩ := ih (rank m) (hrank ▸ hlt) hinv rfl
      exact ⟨a :: as, s', List.forall_mem_cons.mpr ⟨ha, has⟩, run_cons.mpr ⟨m, hm, hrun⟩, hgoal'⟩

/-! ## Executions without end -/

/-- The actions and the states of a run that never ends. -/
def Execution (step : σ → α → Option σ) (states : ℕ → σ) (acts : ℕ → α) : Prop :=
  ∀ n, step (states n) (acts n) = some (states (n + 1))

variable {states : ℕ → σ} {acts : ℕ → α} {kind : α → Prop}

/-- Between two actions of the kind the rank stays as it is. -/
theorem Execution.rank_eq {β : Type*} {rank : σ → β} (h : Execution step states acts)
    (hother : ∀ s a s', step s a = some s' → ¬ kind a → rank s' = rank s) {m n : ℕ} (hmn : m ≤ n)
    (hnone : ∀ k, m ≤ k → k < n → ¬ kind (acts k)) : rank (states n) = rank (states m) := by
  induction n, hmn using Nat.le_induction with
  | base => rfl
  | succ n hmn ih =>
    rw [hother _ _ _ (h n) (hnone n hmn (Nat.lt_succ_self n))]
    exact ih fun k hk hkn => hnone k hk (Nat.lt_succ_of_lt hkn)

/-- **Actions that lower a well-founded rank, which no other action changes, are taken finitely often**, however
long the execution and however high each of them may leave the rank. -/
theorem Execution.finite {β : Type*} {r : β → β → Prop} (hr : WellFounded r) (rank : σ → β) (kind : α → Prop)
    (h : Execution step states acts) (hkind : ∀ s a s', step s a = some s' → kind a → r (rank s') (rank s))
    (hother : ∀ s a s', step s a = some s' → ¬ kind a → rank s' = rank s) : { n | kind (acts n) }.Finite := by
  have hfrom : ∀ b m, rank (states m) = b → { n | m ≤ n ∧ kind (acts n) }.Finite := by
    intro b
    induction b using hr.induction with
    | h b ih =>
      intro m hb
      by_cases hsome : ∃ n, m ≤ n ∧ kind (acts n)
      · classical
        -- the first action of the kind, and what comes behind it
        obtain ⟨hmn, hn⟩ := Nat.find_spec hsome
        have hbefore : ∀ k, m ≤ k → k < Nat.find hsome → ¬ kind (acts k) := fun k hk hlt hkind =>
          Nat.find_min hsome hlt ⟨hk, hkind⟩
        have hlower := hkind _ _ _ (h (Nat.find hsome)) hn
        rw [h.rank_eq hother hmn hbefore, hb] at hlower
        refine ((ih _ hlower (Nat.find hsome + 1) rfl).insert (Nat.find hsome)).subset fun n hn' => ?_
        obtain hlt | rfl | hgt := Nat.lt_trichotomy n (Nat.find hsome)
        · exact absurd hn'.2 (hbefore n hn'.1 hlt)
        · exact Set.mem_insert _ _
        · exact Set.mem_insert_of_mem _ ⟨hgt, hn'.2⟩
      · refine Set.finite_empty.subset fun n hn => ?_
        exact absurd ⟨n, hn⟩ hsome
  exact (hfrom _ 0 rfl).subset fun n hn => ⟨Nat.zero_le n, hn⟩

end MiniDns.Lib
