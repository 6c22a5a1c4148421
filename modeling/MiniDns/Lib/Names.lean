import MiniDns.Lib.Labels
import Mathlib.Data.List.DropRight

/-! Dotted names as lists of labels, as code that cuts texts at their dots sees them. -/
namespace MiniDns.Lib
set_option autoImplicit false

/-- `a.eq_ignore_ascii_case(b)` -/
def eqIgnoreAsciiCase (a b : Text) : Bool := a.map Char.toLower == b.map Char.toLower

theorem eqIgnoreAsciiCase_iff {a b : Text} :
    eqIgnoreAsciiCase a b = true ↔ a.map Char.toLower = b.map Char.toLower := beq_iff_eq

theorem toLower_cases (c : Char) :
    c.toLower = c ∨ 65 ≤ c.toNat ∧ c.toNat ≤ 90 ∧ c.toLower.toNat = c.toNat + 32 := by
  unfold Char.toLower
  split
  · rename_i h
    have hfrom : 65 ≤ c.toNat := UInt32.le_iff_toNat_le.mp h.1
    have hto : c.toNat ≤ 90 := UInt32.le_iff_toNat_le.mp h.2
    refine .inr ⟨hfrom, hto, ?_⟩
    show (c.val + 32).toNat = c.toNat + 32
    rw [UInt32.toNat_add]
    exact Nat.mod_eq_of_lt (show c.toNat + 32 < 2 ^ 32 by omega)
  · exact .inl rfl

theorem toLower_eq_dot (c : Char) : c.toLower = '.' ↔ c = '.' := by
  obtain heq | ⟨hfrom, hto, hlower⟩ := toLower_cases c
  · rw [heq]
  · constructor
    · intro h
      rw [h] at hlower
      exact absurd hlower (by change 46 ≠ _; omega)
    · rintro rfl
      exact absurd hfrom (by decide)

theorem toLower_ascii {c : Char} (h : c.toNat < 0x80) : c.toLower.toNat < 0x80 := by
  obtain heq | ⟨_, hto, hlower⟩ := toLower_cases c
  · rwa [heq]
  · omega

theorem toLower_toLower (c : Char) : c.toLower.toLower = c.toLower := by
  obtain heq | ⟨hfrom, _, hlower⟩ := toLower_cases c
  · rw [heq, heq]
  · obtain heq | ⟨_, hto, _⟩ := toLower_cases c.toLower
    · exact heq
    · omega

/-- `s.trim_end_matches('.')` -/
def trimEndDots (s : Text) : Text := (s.reverse.dropWhile fun c => c == '.').reverse

theorem getLast?_trimEndDots (s : Text) : (trimEndDots s).getLast? ≠ some '.' := by
  rw [trimEndDots, List.getLast?_reverse]
  intro h
  have hdot := List.head?_dropWhile_not (fun c => c == '.') s.reverse
  rw [h] at hdot
  cases hdot

theorem trimEndDots_begins (s : Text) : trimEndDots s <+: s := List.rdropWhile_prefix _ s

theorem trimEndDots_eq_self_iff {s : Text} : trimEndDots s = s ↔ s.getLast? ≠ some '.' := by
  refine ⟨fun h => h ▸ getLast?_trimEndDots s, fun h => List.rdropWhile_eq_self_iff.mpr fun hne hdot => h ?_⟩
  rw [List.getLast?_eq_some_getLast hne, beq_iff_eq.mp hdot]

/-! ## Cutting at every dot -/

theorem splitDots_cons_dot (s : Text) : splitDots ('.' :: s) = [] :: splitDots s := by
  rw [splitDots, List.splitOn_cons_eq_if_modifyHead, if_pos (beq_self_eq_true '.')]
  rfl

theorem splitDots_cons {c : Char} (hc : c ≠ '.') (s : Text) :
    splitDots (c :: s) = (splitDots s).modifyHead (c :: ·) := by
  rw [splitDots, List.splitOn_cons_eq_if_modifyHead, if_neg (by simpa using hc)]
  rfl

theorem mem_of_mem_splitDots {s l : Text} {c : Char} (hl : l ∈ splitDots s) (hc : c ∈ l) : c ∈ s := by
  induction s generalizing l with
  | nil =>
    rw [splitDots_nil, List.mem_singleton] at hl
    exact hl ▸ hc
  | cons d s ih =>
    by_cases hd : d = '.'
    · rw [hd, splitDots_cons_dot] at hl
      obtain rfl | hl := List.mem_cons.mp hl
      · cases hc
      · exact List.mem_cons_of_mem _ (ih hl hc)
    · rw [splitDots_cons hd] at hl
      obtain ⟨first, rest, hs⟩ := List.exists_cons_of_ne_nil (splitDots_ne_nil s)
      rw [hs] at hl ih
      obtain rfl | hl := List.mem_cons.mp hl
      · obtain rfl | hc := List.mem_cons.mp hc
        · exact List.mem_cons_self
        · exact List.mem_cons_of_mem _ (ih List.mem_cons_self hc)
      · exact List.mem_cons_of_mem _ (ih (List.mem_cons_of_mem _ hl) hc)

theorem exists_mem_splitDots {s : Text} {c : Char} (hc : c ∈ s) (hdot : c ≠ '.') : ∃ l ∈ splitDots s, c ∈ l := by
  induction s with
  | nil => cases hc
  | cons d s ih =>
    by_cases hd : d = '.'
    · obtain rfl | hc := List.mem_cons.mp hc
      · exact absurd hd hdot
      · obtain ⟨l, hl, hcl⟩ := ih hc
        rw [hd, splitDots_cons_dot]
        exact ⟨l, List.mem_cons_of_mem _ hl, hcl⟩
    · rw [splitDots_cons hd]
      obtain ⟨first, rest, hs⟩ := List.exists_cons_of_ne_nil (splitDots_ne_nil s)
      rw [hs] at ih ⊢
      obtain rfl | hc := List.mem_cons.mp hc
      · exact ⟨_, List.mem_cons_self, List.mem_cons_self⟩
      · obtain ⟨l, hl, hcl⟩ := ih hc
        obtain rfl | hl := List.mem_cons.mp hl
        · exact ⟨_, List.mem_cons_self, List.mem_cons_of_mem _ hcl⟩
        · exact ⟨l, List.mem_cons_of_mem _ hl, hcl⟩

theorem splitDots_map {f : Char → Char} (hf : ∀ c, f c = '.' ↔ c = '.') (s : Text) :
    splitDots (s.map f) = (splitDots s).map (List.map f) := by
  induction s with
  | nil => rfl
  | cons c s ih =>
    rw [List.map_cons]
    by_cases hc : c = '.'
    · rw [hc, (hf '.').mpr rfl, splitDots_cons_dot, splitDots_cons_dot, ih]
      rfl
    · rw [splitDots_cons hc, splitDots_cons (mt (hf c).mp hc), ih]
      cases splitDots s <;> rfl

theorem sum_length_splitDots (s : Text) : ((splitDots s).map fun l => l.length + 1).sum = s.length + 1 := by
  induction s with
  | nil => rfl
  | cons c s ih =>
    by_cases hc : c = '.'
    · rw [hc, splitDots_cons_dot, List.map_cons, List.sum_cons, ih, List.length_nil, List.length_cons]
      omega
    · rw [splitDots_cons hc, List.length_cons, ← ih]
      cases hs : splitDots s with
      | nil => exact absurd hs (splitDots_ne_nil s)
      | cons l ls =>
        simp only [List.modifyHead_cons, List.map_cons, List.sum_cons, List.length_cons]
        omega

/-! ## Labels that are not empty -/

/-- `s.split('.').filter(|l| !l.is_empty())` -/
def textLabels (s : Text) : List Text := (splitDots s).filter fun l => !l.isEmpty

theorem textLabels_append_dot (a b : Text) : textLabels (a ++ '.' :: b) = textLabels a ++ textLabels b := by
  have hsplit : splitDots (a ++ '.' :: b) = splitDots a ++ splitDots b := List.splitOnP_append_cons a b rfl
  rw [textLabels, hsplit, List.filter_append]
  rfl

theorem mem_textLabels {s l : Text} (h : l ∈ textLabels s) : l ≠ [] ∧ '.' ∉ l := by
  obtain ⟨hmem, hne⟩ := List.mem_filter.mp h
  exact ⟨by simpa using hne, dot_not_mem_of_mem_splitDots hmem⟩

theorem textLabels_joinDots {ls : List Text} (h : ∀ l ∈ ls, l ≠ [] ∧ '.' ∉ l) : textLabels (joinDots ls) = ls := by
  by_cases hls : ls = []
  · subst hls
    rfl
  · rw [textLabels, splitDots_joinDots hls fun l hl => (h l hl).2, List.filter_eq_self]
    exact fun l hl => by simpa using (h l hl).1

theorem textLabels_label {l : Text} (hne : l ≠ []) (hdot : '.' ∉ l) : textLabels l = [l] := by
  have h : textLabels (joinDots [l]) = [l] := textLabels_joinDots fun l' hl => by
    rw [List.mem_singleton.mp hl]
    exact ⟨hne, hdot⟩
  rwa [joinDots_singleton] at h

end MiniDns.Lib
