import Mathlib.Order.Nat

/-! A counter over fixed windows. Events come at times that do not decrease. The first event opens a
window, each event within `W` of the start of the window is counted in it, and the next event opens a
new one. At most `max` events of a window are let through. -/
namespace MiniDns.Lib
set_option autoImplicit false

structure Counter where
  start : ℕ
  count : ℕ
  deriving DecidableEq, Repr

namespace Counter

def next (W t : ℕ) : Option Counter → Counter
  | some k => if k.start + W ≤ t then ⟨t, 1⟩ else ⟨k.start, k.count + 1⟩
  | none => ⟨t, 1⟩

/-- Each event with the counter behind it. -/
def counters (W : ℕ) : Option Counter → List ℕ → List (ℕ × Counter)
  | _, [] => []
  | c, t :: ts => (t, next W t c) :: counters W (some (next W t c)) ts

def letThrough (max a b : ℕ) (p : ℕ × Counter) : Bool := p.2.count ≤ max ∧ a ≤ p.1 ∧ p.1 < b

variable {W max a b t : ℕ} {c : Option Counter} {k : Counter} {ts : List ℕ} {p : ℕ × Counter}

/-- An event opens a window, or it is counted in the one that is open. -/
theorem next_cases (W t : ℕ) (c : Option Counter) :
    (next W t c = ⟨t, 1⟩ ∧ ∀ k ∈ c, k.start + W ≤ t) ∨
      ∃ k, c = some k ∧ t < k.start + W ∧ next W t c = ⟨k.start, k.count + 1⟩ := by
  cases c with
  | none => exact .inl ⟨rfl, nofun⟩
  | some k =>
    by_cases h : k.start + W ≤ t
    · refine .inl ⟨if_pos h, fun k' hk' => ?_⟩
      rwa [← Option.some.inj hk']
    · exact .inr ⟨k, rfl, Nat.not_le.mp h, if_neg h⟩

theorem next_of_open (h : ∀ k ∈ c, t < k.start + W) :
    next W t c = ⟨c.elim t start, c.elim 0 count + 1⟩ := by
  cases c with
  | none => rfl
  | some k => exact if_neg (Nat.not_le.mpr (h k rfl))

theorem time_mem (h : p ∈ counters W c ts) : p.1 ∈ ts := by
  induction ts generalizing c with
  | nil => cases h
  | cons t ts ih =>
    obtain rfl | h := List.mem_cons.mp h
    · exact List.mem_cons_self
    · exact List.mem_cons_of_mem _ (ih h)

/-- A later event is counted in the open window or in one that starts after its end. -/
theorem start_cases (h : p ∈ counters W (some k) ts) : p.2.start = k.start ∨ k.start + W ≤ p.2.start := by
  induction ts generalizing k with
  | nil => cases h
  | cons t ts ih =>
    obtain ⟨hnext, hk⟩ | ⟨k', hk', _, hnext⟩ := next_cases W t (some k)
    · have hle := hk k rfl
      rw [counters, hnext] at h
      obtain rfl | h := List.mem_cons.mp h
      · exact .inr hle
      · obtain hstart | hstart := ih h
        · exact .inr (hle.trans_eq hstart.symm)
        · exact .inr (hle.trans ((Nat.le_add_right t W).trans hstart))
    · obtain rfl := Option.some.inj hk'
      rw [counters, hnext] at h
      obtain rfl | h := List.mem_cons.mp h
      · exact .inl rfl
      · exact ih (k := ⟨k.start, k.count + 1⟩) h

/-- An event that is counted in a later window than the one behind `t` comes after `t`. -/
theorem lt_start (hW : 0 < W) (hp : p ∈ counters W (some (next W t c)) ts) (hstart : p.2.start ≠ (next W t c).start) :
    t < p.2.start := by
  have hlate := (start_cases hp).resolve_left hstart
  obtain ⟨hnext, _⟩ | ⟨k, _, hin, hnext⟩ := next_cases W t c
  · rw [hnext] at hlate
    dsimp only at hlate
    omega
  · rw [hnext] at hlate
    exact hin.trans_le hlate

/-! ## How many events are let through -/

theorem countP_eq_zero_of_late (h : ∀ t ∈ ts, b ≤ t) : (counters W c ts).countP (letThrough max a b) = 0 := by
  rw [List.countP_eq_zero]
  intro p hp
  have := h p.1 (time_mem hp)
  simp only [letThrough, decide_eq_true_eq]
  omega

/-- What is left of the open window. -/
theorem countP_open (max : ℕ) (hts : ts.Pairwise (· ≤ ·)) (hk : a ≤ k.start) :
    (counters W (some k) ts).countP (letThrough max a (a + W)) ≤ max - k.count := by
  induction ts generalizing k with
  | nil => exact Nat.zero_le _
  | cons t ts ih =>
    obtain ⟨hle, hts⟩ := List.pairwise_cons.mp hts
    obtain ⟨_, hend⟩ | ⟨k', hk', _, hnext⟩ := next_cases W t (some k)
    · -- everything from `t` on lies behind the interval
      have hlate : a + W ≤ t := le_trans (Nat.add_le_add_right hk W) (hend k rfl)
      rw [countP_eq_zero_of_late]
      · exact Nat.zero_le _
      · intro t' ht'
        obtain rfl | ht' := List.mem_cons.mp ht'
        · exact hlate
        · exact hlate.trans (hle t' ht')
    · obtain rfl := Option.some.inj hk'
      have hrest := ih (k := ⟨k.start, k.count + 1⟩) hts hk
      rw [counters, hnext, List.countP_cons]
      dsimp only at hrest
      split
      · rename_i hhead
        simp only [letThrough, decide_eq_true_eq] at hhead
        omega
      · omega

/-- A window that opens inside of the interval lets at most `max` events through. -/
theorem countP_opened (hts : (t :: ts).Pairwise (· ≤ ·)) (ha : a ≤ t) (hnext : next W t c = ⟨t, 1⟩) :
    (counters W c (t :: ts)).countP (letThrough max a (a + W)) ≤ max := by
  have hrest := countP_open (W := W) (k := ⟨t, 1⟩) max (List.pairwise_cons.mp hts).2 ha
  rw [counters, hnext, List.countP_cons]
  dsimp only at hrest
  split
  · rename_i hhead
    simp only [letThrough, decide_eq_true_eq] at hhead
    omega
  · omega

theorem countP_from (max : ℕ) (hts : ts.Pairwise (· ≤ ·)) (ha : ∀ t ∈ ts, a ≤ t) :
    (counters W c ts).countP (letThrough max a (a + W)) ≤ (c.elim 0 fun k => max - k.count) + max := by
  induction ts generalizing c with
  | nil => exact Nat.zero_le _
  | cons t ts ih =>
    obtain ⟨hnext, _⟩ | ⟨k, rfl, _, hnext⟩ := next_cases W t c
    · exact (countP_opened hts (ha t List.mem_cons_self) hnext).trans (Nat.le_add_left _ _)
    · have hrest := ih (c := some ⟨k.start, k.count + 1⟩) (List.pairwise_cons.mp hts).2 fun t' ht' =>
        ha t' (List.mem_cons_of_mem _ ht')
      rw [counters, hnext, List.countP_cons]
      simp only [Option.elim] at hrest ⊢
      split
      · rename_i hhead
        simp only [letThrough, decide_eq_true_eq] at hhead
        omega
      · omega

/-- **Every interval of the length of a window lets at most `2 * max` events through.** -/
theorem countP_interval (hts : ts.Pairwise (· ≤ ·)) :
    (counters W c ts).countP (letThrough max a (a + W)) ≤ 2 * max := by
  induction ts generalizing c with
  | nil => exact Nat.zero_le _
  | cons t ts ih =>
    by_cases ha : a ≤ t
    · have hle : ∀ t' ∈ t :: ts, a ≤ t' := by
        intro t' ht'
        obtain rfl | ht' := List.mem_cons.mp ht'
        · exact ha
        · exact ha.trans ((List.pairwise_cons.mp hts).1 t' ht')
      have hfrom := countP_from (W := W) (c := c) max hts hle
      have hopen : (c.elim 0 fun k => max - k.count) ≤ max := by
        cases c with
        | none => exact Nat.zero_le _
        | some k => exact Nat.sub_le _ _
      omega
    · have hhead : letThrough max a (a + W) (t, next W t c) = false := by
        simp only [letThrough, decide_eq_false_iff_not]
        omega
      rw [counters, List.countP_cons_of_neg (by rw [hhead]; exact Bool.false_ne_true)]
      exact ih (List.pairwise_cons.mp hts).2

/-- **Every window lets at most `max` events through.** -/
theorem countP_window (hW : 0 < W) (hts : ts.Pairwise (· ≤ ·)) (hp : p ∈ counters W c ts) :
    (counters W c ts).countP (letThrough max p.2.start (p.2.start + W)) ≤ max := by
  induction ts generalizing c with
  | nil => cases hp
  | cons t ts ih =>
    by_cases hstart : p.2.start = (next W t c).start
    · obtain ⟨hnext, _⟩ | ⟨k, rfl, _, hnext⟩ := next_cases W t c
      · rw [hnext] at hstart
        exact countP_opened hts hstart.le hnext
      · rw [hnext] at hstart
        exact (countP_open (k := k) max hts hstart.le).trans (Nat.sub_le _ _)
    · obtain rfl | hp := List.mem_cons.mp hp
      · exact absurd rfl hstart
      · have hhead : letThrough max p.2.start (p.2.start + W) (t, next W t c) = false := by
          have := lt_start hW hp hstart
          simp only [letThrough, decide_eq_false_iff_not]
          omega
        rw [counters, List.countP_cons_of_neg (by rw [hhead]; exact Bool.false_ne_true)]
        exact ih (List.pairwise_cons.mp hts).2 hp

/-- The counter of a window is at most the number of events in it. -/
theorem count_le (hp : p ∈ counters W c ts) :
    p.2.count ≤ (c.elim 0 fun k => if k.start = p.2.start then k.count else 0) +
      (counters W c ts).countP fun q => q.2.start = p.2.start := by
  induction ts generalizing c with
  | nil => cases hp
  | cons t ts ih =>
    have hnext : (next W t c).count ≤
        (c.elim 0 fun k => if k.start = (next W t c).start then k.count else 0) + 1 := by
      obtain ⟨hnext, _⟩ | ⟨k, rfl, _, hnext⟩ := next_cases W t c
      · rw [hnext]
        exact Nat.le_add_left _ _
      · rw [hnext]
        simp
    have hcarry : (if (next W t c).start = p.2.start then (next W t c).count else 0) ≤
        (c.elim 0 fun k => if k.start = p.2.start then k.count else 0) +
          if (next W t c).start = p.2.start then 1 else 0 := by
      split
      · rename_i hstart
        rwa [← hstart]
      · exact Nat.zero_le _
    rw [counters, List.countP_cons]
    simp only [decide_eq_true_eq]
    obtain rfl | hp := List.mem_cons.mp hp
    · simp only [if_true] at hcarry ⊢
      omega
    · have hrest := ih hp
      simp only [Option.elim] at hrest
      omega

end Counter
end MiniDns.Lib
