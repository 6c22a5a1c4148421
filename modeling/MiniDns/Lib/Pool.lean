import Mathlib.Data.List.Nodup
import Mathlib.Logic.Function.Basic

/-! A pool of resources that tasks check out and give back. -/
namespace MiniDns.Lib
open Function
set_option autoImplicit false

variable {τ ρ : Type*}

/-- A live resource has one owner at most: the task that holds it, or the pool. -/
structure Exclusive (held : τ → Option ρ) (pool : List ρ) (live : ρ → Bool) : Prop where
  holder : ∀ {t t' r}, held t = some r → held t' = some r → t = t'
  out : ∀ {t r}, held t = some r → r ∉ pool
  nodup : pool.Nodup
  heldLive : ∀ {t r}, held t = some r → live r
  poolLive : ∀ {r}, r ∈ pool → live r

variable {held : τ → Option ρ} {pool : List ρ} {live : ρ → Bool} {t t' : τ} {r r' : ρ}

theorem exclusive_empty : Exclusive (fun _ : τ => (none : Option ρ)) [] live where
  holder h := by cases h
  out h := by cases h
  nodup := List.nodup_nil
  heldLive h := by cases h
  poolLive h := by cases h

variable [DecidableEq τ]

theorem update_cases {β : Type*} {f : τ → β} {v x : β} (h : update f t v t' = x) :
    t' = t ∧ v = x ∨ t' ≠ t ∧ f t' = x := by
  by_cases ht : t' = t
  · subst ht
    rw [update_self] at h
    exact .inl ⟨rfl, h⟩
  · rw [update_of_ne ht] at h
    exact .inr ⟨ht, h⟩

namespace Exclusive

theorem take (h : Exclusive held pool live) (hfree : ∀ t', held t' ≠ some r) (hnew : r ∉ pool) (hlive : live r) :
    Exclusive (update held t (some r)) pool live where
  holder := by
    intro t₁ t₂ r' h₁ h₂
    obtain ⟨ht₁, hr₁⟩ | ⟨_, hr₁⟩ := update_cases h₁
    · obtain ⟨ht₂, _⟩ | ⟨_, hr₂⟩ := update_cases h₂
      · exact ht₁.trans ht₂.symm
      · exact absurd (hr₂.trans hr₁.symm) (hfree t₂)
    · obtain ⟨_, hr₂⟩ | ⟨_, hr₂⟩ := update_cases h₂
      · exact absurd (hr₁.trans hr₂.symm) (hfree t₁)
      · exact h.holder hr₁ hr₂
  out := by
    intro t' r' h'
    obtain ⟨_, h'⟩ | ⟨_, h'⟩ := update_cases h'
    · exact Option.some.inj h' ▸ hnew
    · exact h.out h'
  nodup := h.nodup
  heldLive := by
    intro t' r' h'
    obtain ⟨_, h'⟩ | ⟨_, h'⟩ := update_cases h'
    · exact Option.some.inj h' ▸ hlive
    · exact h.heldLive h'
  poolLive := h.poolLive

theorem reuse (h : Exclusive held (r :: pool) live) : Exclusive (update held t (some r)) pool live := by
  have hrest : Exclusive held pool live :=
    ⟨h.holder, fun h' hmem => h.out h' (List.mem_cons_of_mem _ hmem), h.nodup.of_cons, h.heldLive,
      fun hmem => h.poolLive (List.mem_cons_of_mem _ hmem)⟩
  apply hrest.take
  · exact fun t' h' => h.out h' List.mem_cons_self
  · exact (List.nodup_cons.mp h.nodup).1
  · exact h.poolLive List.mem_cons_self

theorem held_of_drop (h : Exclusive held pool live) (ht : held t = some r) (h' : update held t none t' = some r') :
    held t' = some r' ∧ r' ≠ r := by
  obtain ⟨_, h'⟩ | ⟨hne, h'⟩ := update_cases h'
  · cases h'
  · refine ⟨h', ?_⟩
    rintro rfl
    exact hne (h.holder h' ht)

theorem release (h : Exclusive held pool live) (ht : held t = some r) :
    Exclusive (update held t none) (r :: pool) live where
  holder h₁ h₂ := h.holder (h.held_of_drop ht h₁).1 (h.held_of_drop ht h₂).1
  out h' := by
    obtain ⟨h', hne⟩ := h.held_of_drop ht h'
    simp [hne, h.out h']
  nodup := List.nodup_cons.mpr ⟨h.out ht, h.nodup⟩
  heldLive h' := h.heldLive (h.held_of_drop ht h').1
  poolLive hmem := by
    obtain rfl | hmem := List.mem_cons.mp hmem
    · exact h.heldLive ht
    · exact h.poolLive hmem

theorem drop (h : Exclusive held pool live) (ht : held t = some r) : Exclusive (update held t none) pool live where
  holder h₁ h₂ := h.holder (h.held_of_drop ht h₁).1 (h.held_of_drop ht h₂).1
  out h' := h.out (h.held_of_drop ht h').1
  nodup := h.nodup
  heldLive h' := h.heldLive (h.held_of_drop ht h').1
  poolLive := h.poolLive

variable [DecidableEq ρ]

theorem create (h : Exclusive held pool live) (hr : live r = false) :
    Exclusive (update held t (some r)) pool (update live r true) := by
  have hne : ∀ {r'}, live r' → r' ≠ r := by
    rintro r' hlive rfl
    rw [hr] at hlive
    cases hlive
  have hkeep : ∀ {r'}, live r' → update live r true r' := by
    intro r' hlive
    rwa [update_of_ne (hne hlive)]
  have hmore : Exclusive held pool (update live r true) :=
    ⟨h.holder, h.out, h.nodup, fun h' => hkeep (h.heldLive h'), fun hmem => hkeep (h.poolLive hmem)⟩
  apply hmore.take
  · exact fun t' h' => hne (h.heldLive h') rfl
  · exact fun hmem => hne (h.poolLive hmem) rfl
  · rw [update_self]

theorem close (h : Exclusive held pool live) (ht : held t = some r) :
    Exclusive (update held t none) pool (update live r false) where
  holder := (h.drop ht).holder
  out := (h.drop ht).out
  nodup := h.nodup
  heldLive h' := by
    obtain ⟨h', hne⟩ := h.held_of_drop ht h'
    rw [update_of_ne hne]
    exact h.heldLive h'
  poolLive hmem := by
    rw [update_of_ne (ne_of_mem_of_not_mem hmem (h.out ht))]
    exact h.poolLive hmem

end Exclusive
end MiniDns.Lib
