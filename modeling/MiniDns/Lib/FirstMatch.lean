import Mathlib.Data.List.Sort

/-! The first match in a list that is ordered by decreasing weight, and suffixes of one list told apart
by their weight. -/
namespace MiniDns.Lib
set_option autoImplicit false

section FirstMatch
variable {α : Type*} {weight : α → ℕ} {p : α → Bool} {l l' : List α}

theorem weight_le_of_find? (hl : l.Pairwise fun a b => weight b ≤ weight a) {a : α} (h : l.find? p = some a) :
    ∀ b ∈ l, p b = true → weight b ≤ weight a := by
  obtain ⟨_, before, after, rfl, hbefore⟩ := List.find?_eq_some_iff_append.mp h
  intro b hb hpb
  rw [List.mem_append, List.mem_cons] at hb
  obtain hb | rfl | hb := hb
  · have hnot := hbefore b hb
    rw [hpb] at hnot
    cases hnot
  · exact le_rfl
  · exact List.rel_of_pairwise_cons (List.pairwise_append.mp hl).2.1 hb

/-- Where equal weight means equal, the order of the input does not matter. -/
theorem find?_eq_of_perm (weight : α → ℕ) (hl : l.Pairwise fun a b => weight b ≤ weight a)
    (hl' : l'.Pairwise fun a b => weight b ≤ weight a) (hperm : l.Perm l')
    (hunique : ∀ a ∈ l, ∀ b ∈ l, p a = true → p b = true → weight a = weight b → a = b) :
    l.find? p = l'.find? p := by
  cases h : l.find? p with
  | none =>
    rw [List.find?_eq_none] at h
    symm
    rw [List.find?_eq_none]
    intro a ha
    exact h a (hperm.mem_iff.mpr ha)
  | some a =>
    have hpa := List.find?_some h
    have ha := List.mem_of_find?_eq_some h
    cases h' : l'.find? p with
    | none => exact absurd hpa (List.find?_eq_none.mp h' a (hperm.mem_iff.mp ha))
    | some b =>
      have hpb := List.find?_some h'
      have hb := hperm.mem_iff.mpr (List.mem_of_find?_eq_some h')
      have hab := weight_le_of_find? hl' h' a (hperm.mem_iff.mp ha) hpa
      have hba := weight_le_of_find? hl h b hb hpb
      exact congrArg some (hunique a ha b hb hpa hpb (le_antisymm hab hba))

end FirstMatch

/-- Two suffixes of one list are equal if a weight that grows with every element agrees on them. -/
theorem eq_of_suffix_of_weight {α : Type*} (weight : List α → ℕ)
    (hgrows : ∀ front l, front ≠ [] → weight l < weight (front ++ l)) {a b l : List α} (ha : a <:+ l)
    (hb : b <:+ l) (h : weight a = weight b) : a = b := by
  have hnil : ∀ {front l : List α}, weight l = weight (front ++ l) → front = [] := by
    intro front l heq
    by_contra hne
    exact (hgrows front l hne).ne heq
  obtain ⟨front, rfl⟩ | ⟨front, rfl⟩ := List.suffix_or_suffix_of_suffix ha hb
  · rw [hnil h, List.nil_append]
  · rw [hnil h.symm, List.nil_append]

end MiniDns.Lib
