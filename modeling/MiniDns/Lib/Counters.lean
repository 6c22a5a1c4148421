import Mathlib.Algebra.BigOperators.Group.List.Basic
import Mathlib.Algebra.GroupWithZero.Nat
import Mathlib.Data.List.Nodup
import Mathlib.Logic.Function.Basic

/-! A counter in shards that is read one shard after another, while the shards go on counting. -/
namespace MiniDns.Lib
open Function
set_option autoImplicit false

variable {ι M : Type*}

theorem sum_map_add_ite [DecidableEq ι] [AddCommMonoid M] (f : ι → M) (x : M) {i : ι} {l : List ι} (hnodup : l.Nodup) :
    (l.map fun j => f j + if j = i then x else 0).sum = (l.map f).sum + if i ∈ l then x else 0 := by
  induction l with
  | nil => simp
  | cons j l ih =>
    rw [List.nodup_cons] at hnodup
    rw [List.map_cons, List.sum_cons, ih hnodup.2, List.map_cons, List.sum_cons]
    by_cases hj : j = i
    · subst hj
      simp [hnodup.1, add_right_comm]
    · simp [hj, Ne.symm hj, add_assoc]

/-- A reader that began when the shards had counted `began`, has added up `acc`, and has these shards
left. -/
structure Reading (shards : List ι) (counted : ι → ℕ) (began : ℕ) (left : List ι) (acc : ℕ) : Prop where
  nodup : left.Nodup
  low : began ≤ acc + (left.map counted).sum
  high : acc + (left.map counted).sum ≤ (shards.map counted).sum

variable {shards left : List ι} {counted : ι → ℕ} {began acc : ℕ} {i : ι}

theorem reading_begin (hshards : shards.Nodup) : Reading shards counted (shards.map counted).sum shards 0 :=
  ⟨hshards, by omega, by omega⟩

namespace Reading

theorem load (h : Reading shards counted began (i :: left) acc) :
    Reading shards counted began left (acc + counted i) := by
  have hlow := h.low
  have hhigh := h.high
  rw [List.map_cons, List.sum_cons] at hlow hhigh
  exact ⟨h.nodup.of_cons, by omega, by omega⟩

/-- What is counted meanwhile is seen if its shard is still left. -/
theorem bump [DecidableEq ι] (h : Reading shards counted began left acc) (hshards : shards.Nodup) (hi : i ∈ shards) :
    Reading shards (fun j => counted j + if j = i then 1 else 0) began left acc := by
  have hlow := h.low
  have hhigh := h.high
  refine ⟨h.nodup, ?_, ?_⟩
  · rw [sum_map_add_ite counted 1 h.nodup]
    omega
  · rw [sum_map_add_ite counted 1 h.nodup, sum_map_add_ite counted 1 hshards, if_pos hi]
    split <;> omega

/-- **What was read lies between what had been counted at the beginning and at the end.** -/
theorem finish (h : Reading shards counted began [] acc) : began ≤ acc ∧ acc ≤ (shards.map counted).sum :=
  ⟨h.low, h.high⟩

end Reading
end MiniDns.Lib
