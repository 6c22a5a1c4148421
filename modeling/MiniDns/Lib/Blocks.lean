import MiniDns.Lib.Framing
import Mathlib.Algebra.BigOperators.Group.List.Lemmas
import Mathlib.Algebra.FreeMonoid.Basic

/-! Blocks that are written one behind another, and when their order does not show in the result. -/
namespace MiniDns.Lib
set_option autoImplicit false

section Order
variable {α β : Type} {f : α → List β} {l l' : List α}

theorem flatMap_eq_of_perm (h : l'.Perm l) (hcomm : ∀ a ∈ l, ∀ b ∈ l, f a ++ f b = f b ++ f a) :
    l'.flatMap f = l.flatMap f := by
  -- concatenation is the product of the free monoid, where commuting factors may be permuted
  have hpairs : (l'.map fun a => FreeMonoid.ofList (f a)).Pairwise Commute := by
    rw [List.pairwise_map]
    exact List.pairwise_of_forall_mem_list fun a ha b hb => hcomm a (h.mem_iff.mp ha) b (h.mem_iff.mp hb)
  have hprod : ∀ l : List α, FreeMonoid.ofList (l.flatMap f) = (l.map fun a => FreeMonoid.ofList (f a)).prod := by
    intro l
    rw [List.flatMap_def, FreeMonoid.ofList_flatten, List.map_map]
    rfl
  apply FreeMonoid.ofList.injective
  rw [hprod, hprod, (h.map _).prod_eq' hpairs]

theorem flatMap_perm_iff :
    (∀ l' : List α, l'.Perm l → l'.flatMap f = l.flatMap f) ↔ ∀ a ∈ l, ∀ b ∈ l, f a ++ f b = f b ++ f a := by
  classical
  refine ⟨fun h a ha b hb => ?_, fun hcomm l' hperm => flatMap_eq_of_perm hperm hcomm⟩
  by_cases hab : a = b
  · rw [hab]
  -- the two in front, in either order
  have hfront : (a :: b :: (l.erase a).erase b).Perm l :=
    ((List.perm_cons_erase ((List.mem_erase_of_ne (Ne.symm hab)).mpr hb)).symm.cons a).trans
      (List.perm_cons_erase ha).symm
  have heq := (h _ hfront).trans (h _ ((List.Perm.swap a b _).trans hfront)).symm
  simp only [List.flatMap_cons, ← List.append_assoc] at heq
  exact List.append_cancel_right heq

end Order

/-! ## Framed blocks behind a common head -/

/-- Two messages of different lengths with the same length field, which cannot be told apart in a row. -/
structure Overlong (head a b : Bytes) : Prop where
  length_ne : a.length ≠ b.length
  length_mod : a.length % 65536 = b.length % 65536
  commute : a ++ (head ++ frame b) = b ++ (head ++ frame a)

theorem Overlong.le_max {head a b : Bytes} (h : Overlong head a b) : 65536 ≤ max a.length b.length := by
  have hne := h.length_ne
  have hmod := h.length_mod
  omega

theorem frames_commute_iff (head a b : Bytes) :
    (head ++ frame a) ++ (head ++ frame b) = (head ++ frame b) ++ (head ++ frame a) ↔ a = b ∨ Overlong head a b := by
  rw [List.append_assoc, List.append_assoc, List.append_cancel_left_eq, frame_append_eq_iff]
  constructor
  · rintro ⟨hmod, hrest⟩
    by_cases hlen : a.length = b.length
    · exact .inl (List.append_inj hrest hlen).1
    · exact .inr ⟨hlen, hmod, hrest⟩
  · rintro (rfl | h)
    · exact ⟨rfl, rfl⟩
    · exact ⟨h.length_mod, h.commute⟩

end MiniDns.Lib
