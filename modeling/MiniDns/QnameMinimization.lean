import MiniDns.Recursive
import Mathlib.Data.List.DropRight
import Mathlib.Data.List.TakeDrop
import Mathlib.Logic.Function.Iterate

/-! QNAME minimisation over names as lists of labels. From a zone of the name, the next query name has one
label more, so that a walk which moves to each query name passes every suffix of the name. -/
namespace MiniDns
open Lib
set_option autoImplicit false

def ProperLabels (ls : List Text) : Prop := ∀ l ∈ ls, l ≠ [] ∧ '.' ∉ l

instance (ls : List Text) : Decidable (ProperLabels ls) :=
  inferInstanceAs (Decidable (∀ l ∈ ls, l ≠ [] ∧ '.' ∉ l))

section Labels
variable {ls zone : List Text} {k : ℕ}

theorem ProperLabels.of_suffix (h : ProperLabels ls) (hzone : zone <:+ ls) : ProperLabels zone :=
  fun l hl => h l (hzone.subset hl)

theorem joinDots_inj {ls ls' : List Text} (hls : ProperLabels ls) (hls' : ProperLabels ls')
    (h : joinDots ls = joinDots ls') : ls = ls' := by
  rw [← textLabels_joinDots hls, h, textLabels_joinDots hls']

theorem joinDots_ne_nil (h : ProperLabels ls) (hne : ls ≠ []) : joinDots ls ≠ [] := by
  intro hnil
  exact hne (joinDots_inj h (List.forall_mem_nil _) hnil)

theorem rtake_suffix (ls : List Text) (k : ℕ) : ls.rtake k <:+ ls := List.drop_suffix _ ls

theorem length_rtake (ls : List Text) (k : ℕ) : (ls.rtake k).length = min k ls.length := by
  rw [List.rtake, List.length_drop]
  omega

theorem rtake_of_length_le (h : ls.length ≤ k) : ls.rtake k = ls := by
  rw [List.rtake, Nat.sub_eq_zero_of_le h, List.drop_zero]

theorem rtake_length (h : zone <:+ ls) : ls.rtake zone.length = zone := (List.suffix_iff_eq_drop.mp h).symm

theorem joinDots_rtake_one (hne : ls ≠ []) : joinDots (ls.rtake 1) = ls.getLast hne := by
  rw [List.rtake, List.drop_length_sub_one hne, joinDots_singleton]

end Labels

section Walk
variable {ls : List Text}

/-- One step: from the last `k` labels to the last `k + 1`, also from the root and from the name itself. -/
theorem minimizedQname_rtake (hls : ProperLabels ls) (hne : ls ≠ []) (k : ℕ) :
    minimizedQname (joinDots ls) (joinDots (ls.rtake k)) = joinDots (ls.rtake (k + 1)) := by
  have hzone : ProperLabels (ls.rtake k) := hls.of_suffix (rtake_suffix ls k)
  rw [minimizedQname, textLabels_joinDots hls, textLabels_joinDots hzone, List.getLast?_eq_some_getLast hne]
  dsimp only
  by_cases hroot : ls.rtake k = []
  · have hk : k = 0 := by
      have hlen := length_rtake ls k
      have hpos := List.length_pos_iff.mpr hne
      rw [hroot, List.length_nil] at hlen
      omega
    subst hk
    rw [List.rtake_zero, joinDots_nil, if_pos List.isEmpty_nil, Nat.zero_add, joinDots_rtake_one hne]
  · have hnot : ¬ (joinDots (ls.rtake k)).isEmpty = true := by
      rw [List.isEmpty_iff]
      exact joinDots_ne_nil hzone hroot
    rw [if_neg hnot, length_rtake]
    split
    · rename_i hfull
      rw [rtake_of_length_le (by omega)]
    · rw [show min k ls.length = k by omega]
      rfl

theorem iterate_minimizedQname (hls : ProperLabels ls) (hne : ls ≠ []) (k : ℕ) :
    (minimizedQname (joinDots ls))^[k] [] = joinDots (ls.rtake k) := by
  induction k with
  | zero => rw [List.rtake_zero, joinDots_nil, Function.iterate_zero_apply]
  | succ k ih => rw [Function.iterate_succ_apply', ih, minimizedQname_rtake hls hne]

/-- **QNAME minimisation walks a name label by label**: from the root to its last label, from a zone of `k`
labels to the suffix of `k + 1`, and it comes to the name after exactly as many steps as the name has labels. -/
theorem minimizedQname_walks_labels (ls : List Text) (hls : ProperLabels ls) (hne : ls ≠ []) :
    minimizedQname (joinDots ls) [] = ls.getLast hne ∧
    (∀ zone, zone <:+ ls → 1 ≤ zone.length →
      minimizedQname (joinDots ls) (joinDots zone) = joinDots (ls.rtake (min (zone.length + 1) ls.length))) ∧
    (∀ k ≤ ls.length, (minimizedQname (joinDots ls))^[k] [] = joinDots (ls.rtake k)) ∧
    (∀ k < ls.length, (minimizedQname (joinDots ls))^[k] [] ≠ joinDots ls) ∧
    ∀ k, ls.length ≤ k → (minimizedQname (joinDots ls))^[k] [] = joinDots ls := by
  refine ⟨?_, ?_, fun k _ => iterate_minimizedQname hls hne k, ?_, ?_⟩
  · have hroot := minimizedQname_rtake hls hne 0
    rwa [List.rtake_zero, joinDots_nil, Nat.zero_add, joinDots_rtake_one hne] at hroot
  · intro zone hzone _
    have hstep := minimizedQname_rtake hls hne zone.length
    rw [rtake_length hzone] at hstep
    rw [hstep]
    -- beyond its labels there is nothing more to take
    rcases Nat.le_total (zone.length + 1) ls.length with hle | hle
    · rw [Nat.min_eq_left hle]
    · rw [Nat.min_eq_right hle, rtake_of_length_le hle, rtake_of_length_le le_rfl]
  · intro k hk heq
    rw [iterate_minimizedQname hls hne] at heq
    have hlen := congrArg List.length (joinDots_inj (hls.of_suffix (rtake_suffix ls k)) hls heq)
    rw [length_rtake] at hlen
    omega
  · intro k hk
    rw [iterate_minimizedQname hls hne, rtake_of_length_le hk]

theorem minimizedQname_walks_labels_three : ProperLabels [['w'], ['e'], ['c']] ∧
    (minimizedQname "w.e.c".toList)^[2] [] = "e.c".toList ∧ (minimizedQname "w.e.c".toList)^[3] [] = "w.e.c".toList := by
  obtain ⟨_, _, hvisits, _, hstays⟩ :=
    minimizedQname_walks_labels [['w'], ['e'], ['c']] (by decide) (by simp)
  exact ⟨by decide, hvisits 2 (by decide), hstays 3 (by decide)⟩

end Walk
end MiniDns
