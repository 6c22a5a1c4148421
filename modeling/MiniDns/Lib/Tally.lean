import Mathlib.Data.Set.Card

/-! How many tasks are in a state of some kind, when one task after another changes its state. -/
namespace MiniDns.Lib
open Function
set_option autoImplicit false

variable {τ β : Type*}

/-- The number of tasks whose state is of the kind; there may be infinitely many. -/
noncomputable def tally (p : β → Bool) (f : τ → β) : ℕ∞ := Set.encard { t | p (f t) = true }

theorem tally_le_tally {p q : β → Bool} (h : ∀ b, p b = true → q b = true) (f : τ → β) : tally p f ≤ tally q f :=
  Set.encard_le_encard fun t ht => h (f t) ht

theorem tally_eq_zero {p : β → Bool} {f : τ → β} (h : ∀ t, p (f t) = false) : tally p f = 0 := by
  rw [tally, Set.encard_eq_zero]
  refine Set.eq_empty_iff_forall_notMem.mpr fun t ht => ?_
  rw [Set.mem_ofPred_eq, h t] at ht
  cases ht

/-- Tasks of either of two kinds that exclude each other. -/
theorem tally_or {p q : β → Bool} (h : ∀ b, p b = true → q b = false) (f : τ → β) :
    tally (fun b => p b || q b) f = tally p f + tally q f := by
  have hdisjoint : Disjoint { t | p (f t) = true } { t | q (f t) = true } := by
    refine Set.disjoint_left.mpr fun t hp hq => ?_
    rw [Set.mem_ofPred_eq] at hp hq
    rw [h (f t) hp] at hq
    cases hq
  rw [tally, tally, tally, ← Set.encard_union_eq hdisjoint]
  congr 1
  ext t
  simp

theorem sum_tally {κ : Type*} {kind : κ → β → Bool} {l : List κ}
    (h : l.Pairwise fun k k' => ∀ b, kind k b = true → kind k' b = false) (f : τ → β) :
    (l.map fun k => tally (kind k) f).sum = tally (fun b => l.any fun k => kind k b) f := by
  induction l with
  | nil => exact (tally_eq_zero fun _ => rfl).symm
  | cons k l ih =>
    obtain ⟨hk, hl⟩ := List.pairwise_cons.mp h
    have hor : tally (fun b => kind k b || l.any fun k' => kind k' b) f = _ := tally_or ?_ f
    · rw [List.map_cons, List.sum_cons, ih hl, ← hor]
      rfl
    · intro b hb
      rw [List.any_eq_false]
      exact fun k' hk' => by rw [hk k' hk' b hb]; exact Bool.false_ne_true

variable [DecidableEq τ] {p : β → Bool} {f : τ → β} {t : τ} {v : β}

theorem tally_stay (h : p v = p (f t)) : tally p (update f t v) = tally p f := by
  have hset : { t' | p (update f t v t') = true } = { t' | p (f t') = true } := by
    ext t'
    by_cases ht : t' = t
    · subst ht
      simp only [Set.mem_ofPred_eq, update_self, h]
    · simp only [Set.mem_ofPred_eq, update_of_ne ht]
  rw [tally, hset]
  rfl

theorem tally_enter (hold : p (f t) = false) (hnew : p v = true) : tally p (update f t v) = tally p f + 1 := by
  have hset : { t' | p (update f t v t') = true } = insert t { t' | p (f t') = true } := by
    ext t'
    by_cases ht : t' = t
    · subst ht
      simp [hnew]
    · simp [ht]
  have hmem : t ∉ { t' | p (f t') = true } := by
    simp [hold]
  rw [tally, hset, Set.encard_insert_of_notMem hmem]
  rfl

theorem tally_leave (hold : p (f t) = true) (hnew : p v = false) : tally p (update f t v) + 1 = tally p f := by
  -- the task that leaves would enter again with its old state
  have henter := tally_enter (p := p) (f := update f t v) (t := t) (v := f t) (by rwa [update_self]) hold
  rw [update_idem, update_eq_self] at henter
  exact henter.symm

theorem tally_le (hnew : p v = false) : tally p (update f t v) ≤ tally p f := by
  cases hold : p (f t) with
  | true =>
    rw [← tally_leave hold hnew]
    exact le_self_add
  | false => exact (tally_stay (hnew.trans hold.symm)).le

end MiniDns.Lib
