import MiniDns.Dns.CompressionTable
import MiniDns.Dns.EncoderLayout
import Mathlib.Algebra.Order.BigOperators.Group.Finset

/-! What is left out of a message never makes it longer. While a message is short enough for all its names to be
remembered, each label of it is paid for by the one suffix that it begins: a name whose suffixes are known
already costs a pointer, and one that has to be spelled out again was spelled out in the part that was dropped. -/
namespace MiniDns.Dns
open Lib DnsRecord
set_option autoImplicit false

namespace Layout
open DnsPacketEncoder (labelBytes)

/-! ## Known suffixes -/

/-- The suffixes that a name can be compressed to are the `known` ones, with each its own suffixes. -/
structure Knows (L : Layout) (known : Finset Text) : Prop where
  mem : ∀ s, s ∈ known ↔ (L.names s).isSome
  closed : ∀ l s, '.' ∉ l → l ++ '.' :: s ∈ known → s ∈ known

def suffixTexts : List Text → Finset Text
  | [] => ∅
  | l :: ls => insert (joinDots (l :: ls)) (suffixTexts ls)

/-- The bytes of the labels that the suffixes begin with. -/
def labelCost (known : Finset Text) : ℕ := ∑ s ∈ known, (labelBytes (firstLabel s)).length

/-- What ends a name: a pointer to a known suffix, or the root label. -/
def ending (known : Finset Text) : List Text → ℕ
  | [] => 1
  | l :: ls => if joinDots (l :: ls) ∈ known then 2 else ending known ls

variable {L M : Layout} {known fewer : Finset Text}

theorem mem_suffixTexts {s : Text} {ls : List Text} (h : s ∈ suffixTexts ls) :
    ∃ m, m <:+ ls ∧ m ≠ [] ∧ joinDots m = s := by
  induction ls with
  | nil => simp [suffixTexts] at h
  | cons l ls ih =>
    obtain rfl | h := Finset.mem_insert.mp h
    · exact ⟨l :: ls, List.suffix_rfl, by simp, rfl⟩
    · obtain ⟨m, hm, hne, rfl⟩ := ih h
      exact ⟨m, hm.trans (List.suffix_cons l ls), hne, rfl⟩

theorem not_mem_suffixTexts (l : Text) (ls : List Text) : joinDots (l :: ls) ∉ suffixTexts ls := by
  intro h
  obtain ⟨m, hm, hne, heq⟩ := mem_suffixTexts h
  exact joinDots_ne_of_suffix hm hne heq

theorem mem_suffixTexts_self {ls : List Text} (h : ls ≠ []) : joinDots ls ∈ suffixTexts ls := by
  cases ls with
  | nil => exact absurd rfl h
  | cons l ls => exact Finset.mem_insert_self _ _

theorem ending_le_two (known : Finset Text) (ls : List Text) : ending known ls ≤ 2 := by
  induction ls with
  | nil => simp [ending]
  | cons l ls ih =>
    rw [ending]
    split
    · exact le_rfl
    · exact ih

theorem ending_mono (h : fewer ⊆ known) (ls : List Text) : ending fewer ls ≤ ending known ls := by
  induction ls with
  | nil => exact le_rfl
  | cons l ls ih =>
    rw [ending, ending]
    by_cases hk : joinDots (l :: ls) ∈ known
    · rw [if_pos hk]
      exact ending_le_two fewer (l :: ls)
    · rw [if_neg hk, if_neg fun hf => hk (h hf)]
      exact ih

theorem labelCost_mono (h : fewer ⊆ known) : labelCost fewer ≤ labelCost known := Finset.sum_le_sum_of_subset h

theorem labelCost_insert {l : Text} {ls : List Text} (hdot : ∀ l' ∈ l :: ls, '.' ∉ l')
    (h : joinDots (l :: ls) ∉ known) :
    labelCost (insert (joinDots (l :: ls)) known) = (labelBytes l).length + labelCost known := by
  rw [labelCost, Finset.sum_insert h, firstLabel_joinDots hdot]
  rfl

theorem knows_start : start.Knows ∅ where
  mem := by simp [start]
  closed := by simp

/-! ## Writing a name -/

namespace Knows

theorem advance (h : L.Knows known) (n : ℕ) : (L.advance n).Knows known := ⟨h.mem, h.closed⟩

theorem suffixTexts_subset (h : L.Knows known) {l : Text} {ls : List Text} (hdot : ∀ l' ∈ l :: ls, '.' ∉ l')
    (hmem : joinDots (l :: ls) ∈ known) : suffixTexts (l :: ls) ⊆ known := by
  induction ls generalizing l with
  | nil => simpa [suffixTexts] using hmem
  | cons l' ls ih =>
    have htail : joinDots (l' :: ls) ∈ known := by
      rw [joinDots_cons (List.cons_ne_nil l' ls)] at hmem
      exact h.closed l _ (hdot l List.mem_cons_self) hmem
    have hrest := ih (fun k hk => hdot k (List.mem_cons_of_mem l hk)) htail
    exact Finset.insert_subset hmem hrest

theorem remember (h : L.Knows known) {l : Text} {ls : List Text} (hdot : ∀ l' ∈ l :: ls, '.' ∉ l')
    (htail : ls ≠ [] → joinDots ls ∈ known) {offset jumps : ℕ} (hoffset : offset ≤ 0x3FFF) :
    (L.remember (joinDots (l :: ls)) offset jumps).Knows (insert (joinDots (l :: ls)) known) where
  mem := by
    intro s
    rw [Layout.remember, if_pos hoffset, Finset.mem_insert, h.mem]
    by_cases hs : s = joinDots (l :: ls)
    · simp [hs]
    · simp [hs]
  closed := by
    intro l' s hl' hs
    obtain heq | hold := Finset.mem_insert.mp hs
    swap
    · exact Finset.mem_insert_of_mem (h.closed l' s hl' hold)
    have hlabels : l' :: splitDots s = l :: ls := by
      have hjoin : joinDots (l' :: splitDots s) = joinDots (l :: ls) := by
        rw [joinDots_cons (splitDots_ne_nil s), joinDots_splitDots, heq]
      have hdot' : ∀ k ∈ l' :: splitDots s, '.' ∉ k := by
        intro k hk
        obtain rfl | hk := List.mem_cons.mp hk
        · exact hl'
        · exact dot_not_mem_of_mem_splitDots hk
      rw [← splitDots_joinDots (List.cons_ne_nil _ _) hdot', hjoin, splitDots_joinDots (List.cons_ne_nil _ _) hdot]
    obtain ⟨-, rfl⟩ := List.cons.inj hlabels
    have hs := htail (splitDots_ne_nil s)
    rw [joinDots_splitDots] at hs
    exact Finset.mem_insert_of_mem hs

end Knows

theorem pos_lt_labels (L : Layout) (ls : List Text) : L.pos < (L.labels ls).1.pos := by
  induction ls generalizing L with
  | nil => simp [labels]
  | cons l ls ih =>
    rw [labels]
    split
    · simp
    · have hrest := ih (L.advance (labelBytes l).length)
      simp only [advance_pos, remember_pos] at hrest ⊢
      omega

/-- A name costs the labels of those of its suffixes that were not known, and its end. -/
theorem Knows.labels_pos (h : L.Knows known) {ls : List Text} (hdot : ∀ l ∈ ls, '.' ∉ l) :
    (L.labels ls).1.pos + labelCost known =
      L.pos + labelCost (known ∪ suffixTexts ls) + ending known ls := by
  induction ls generalizing L with
  | nil =>
    simp [suffixTexts, Layout.labels, ending]
    omega
  | cons l ls ih =>
    have hmem := h.mem (joinDots (l :: ls))
    rw [Layout.labels]
    cases hentry : L.names (joinDots (l :: ls)) with
    | some entry =>
      have hknown : joinDots (l :: ls) ∈ known := hmem.mpr (by rw [hentry]; rfl)
      rw [Finset.union_eq_left.mpr (h.suffixTexts_subset hdot hknown), ending, if_pos hknown]
      simp only [advance_pos]
      omega
    | none =>
      have hnew : joinDots (l :: ls) ∉ known := by simp [hmem, hentry]
      have hcost := ih (h.advance (labelBytes l).length) fun k hk => hdot k (List.mem_cons_of_mem l hk)
      have hfresh : joinDots (l :: ls) ∉ known ∪ suffixTexts ls := by
        rw [Finset.mem_union, not_or]
        exact ⟨hnew, not_mem_suffixTexts l ls⟩
      rw [suffixTexts, Finset.union_insert, labelCost_insert hdot hfresh, ending, if_neg hnew]
      simp only [remember_pos, advance_pos] at hcost ⊢
      omega

/-- Behind a name all its suffixes are known, as long as they can be pointed to. -/
theorem Knows.labels (h : L.Knows known) {ls : List Text} (hdot : ∀ l ∈ ls, '.' ∉ l)
    (hpos : (L.labels ls).1.pos ≤ 0x4000) : (L.labels ls).1.Knows (known ∪ suffixTexts ls) := by
  induction ls generalizing L with
  | nil => simpa [suffixTexts, Layout.labels] using h.advance 1
  | cons l ls ih =>
    have hmem := h.mem (joinDots (l :: ls))
    rw [Layout.labels] at hpos ⊢
    cases hentry : L.names (joinDots (l :: ls)) with
    | some entry =>
      have hknown : joinDots (l :: ls) ∈ known := hmem.mpr (by rw [hentry]; rfl)
      rw [Finset.union_eq_left.mpr (h.suffixTexts_subset hdot hknown)]
      exact h.advance 2
    | none =>
      rw [hentry] at hpos
      simp only [remember_pos] at hpos
      have hstart := pos_lt_labels (L.advance (labelBytes l).length) ls
      simp only [advance_pos] at hstart
      have hrest := ih (h.advance _) (fun k hk => hdot k (List.mem_cons_of_mem l hk)) hpos
      rw [suffixTexts, Finset.union_insert]
      refine hrest.remember hdot (fun hne => ?_) (by omega)
      exact Finset.mem_union_right _ (mem_suffixTexts_self hne)

/-! ## Two messages side by side -/

/-- `M` has written no more than `L`, even when it still has to spell out the suffixes that only `L` knows. -/
def Ahead (L M : Layout) : Prop :=
  ∃ known fewer, L.Knows known ∧ M.Knows fewer ∧ fewer ⊆ known ∧
    M.pos + labelCost known ≤ L.pos + labelCost fewer

theorem ahead_start : Ahead start start := ⟨∅, ∅, knows_start, knows_start, subset_rfl, le_rfl⟩

theorem dot_not_mem_nameLabels (n : Text) : ∀ l ∈ nameLabels n, '.' ∉ l :=
  fun _ => dot_not_mem_of_mem_nameLabels

namespace Ahead

theorem pos_le (h : Ahead L M) : M.pos ≤ L.pos := by
  obtain ⟨known, fewer, -, -, hsub, hcost⟩ := h
  have hmono := labelCost_mono hsub
  omega

theorem advance (h : Ahead L M) (n : ℕ) : Ahead (L.advance n) (M.advance n) := by
  obtain ⟨known, fewer, hL, hM, hsub, hcost⟩ := h
  refine ⟨known, fewer, hL.advance n, hM.advance n, hsub, ?_⟩
  simp only [advance_pos]
  omega

theorem advance_left (h : Ahead L M) (n : ℕ) : Ahead (L.advance n) M := by
  obtain ⟨known, fewer, hL, hM, hsub, hcost⟩ := h
  refine ⟨known, fewer, hL.advance n, hM, hsub, ?_⟩
  simp only [advance_pos]
  omega

theorem name (h : Ahead L M) (n : Text) (hpos : (L.name n).pos ≤ 0x4000) : Ahead (L.name n) (M.name n) := by
  obtain ⟨known, fewer, hL, hM, hsub, hcost⟩ := h
  have hdot := dot_not_mem_nameLabels n
  have hLpos := hL.labels_pos hdot
  have hMpos := hM.labels_pos hdot
  have hend := ending_mono hsub (nameLabels n)
  have hunion : fewer ∪ suffixTexts (nameLabels n) ⊆ known ∪ suffixTexts (nameLabels n) :=
    Finset.union_subset_union_left hsub
  have hmono := labelCost_mono hunion
  unfold Layout.name at hpos ⊢
  refine ⟨_, _, hL.labels hdot hpos, hM.labels hdot (by omega), hunion, ?_⟩
  omega

theorem name_left (h : Ahead L M) (n : Text) (hpos : (L.name n).pos ≤ 0x4000) : Ahead (L.name n) M := by
  obtain ⟨known, fewer, hL, hM, hsub, hcost⟩ := h
  have hdot := dot_not_mem_nameLabels n
  have hLpos := hL.labels_pos hdot
  unfold Layout.name at hpos ⊢
  refine ⟨_, _, hL.labels hdot hpos, hM, hsub.trans Finset.subset_union_left, ?_⟩
  omega

theorem field (h : Ahead L M) (f : Field) (hpos : (L.field f).pos ≤ 0x4000) : Ahead (L.field f) (M.field f) := by
  cases f with
  | raw bytes => exact h.advance _
  | name n => exact h.name n hpos
  | plain n => exact h.advance _

theorem field_left (h : Ahead L M) (f : Field) (hpos : (L.field f).pos ≤ 0x4000) : Ahead (L.field f) M := by
  cases f with
  | raw bytes => exact h.advance_left _
  | name n => exact h.name_left n hpos
  | plain n => exact h.advance_left _

end Ahead

theorem pos_le_field (L : Layout) (f : Field) : L.pos ≤ (L.field f).pos := by
  cases f with
  | raw bytes => exact Nat.le_add_right _ _
  | name n => exact (pos_lt_labels L _).le
  | plain n => exact Nat.le_add_right _ _

theorem pos_le_fields (L : Layout) (fs : List Field) : L.pos ≤ (L.fields fs).pos := by
  induction fs generalizing L with
  | nil => exact le_rfl
  | cons f fs ih => exact (pos_le_field L f).trans (ih _)

/-- The fewer fields are written, the shorter the message. -/
theorem Ahead.fields {fs gs : List Field} (hsub : fs.Sublist gs) (h : Ahead L M)
    (hpos : (L.fields gs).pos ≤ 0x4000) : Ahead (L.fields gs) (M.fields fs) := by
  induction hsub generalizing L M with
  | slnil => exact h
  | cons f hsub ih => exact ih (h.field_left f ((pos_le_fields _ _).trans hpos)) hpos
  | cons_cons f hsub ih => exact ih (h.field f ((pos_le_fields _ _).trans hpos)) hpos

/-! ## Whole messages -/

/-- A record as fields: the type, class, TTL and length behind its owner are ten bytes. -/
def wholeFields (r : DnsRecord) : List Field :=
  .name r.domain :: .raw (List.replicate 10 0) :: recordFields r

def questionFields (q : DnsQuestion) : List Field := [.name q.qname, .raw (List.replicate 4 0)]

theorem fields_append (L : Layout) (fs gs : List Field) : L.fields (fs ++ gs) = (L.fields fs).fields gs := by
  induction fs generalizing L with
  | nil => rfl
  | cons f fs ih => exact ih _

theorem questions_eq_fields (L : Layout) (qs : List DnsQuestion) :
    L.questions qs = L.fields (qs.flatMap questionFields) := by
  induction qs generalizing L with
  | nil => rfl
  | cons q qs ih =>
    rw [List.flatMap_cons, fields_append, ← ih]
    rfl

theorem records_eq_fields (L : Layout) (rs : List DnsRecord) :
    L.records rs = L.fields (rs.flatMap wholeFields) := by
  induction rs generalizing L with
  | nil => rfl
  | cons r rs ih =>
    rw [List.flatMap_cons, fields_append, ← ih]
    rfl

end Layout

/-- The length of a message is where the layout ends. -/
theorem DnsPacket.length_toBytes_eq_pos (p : DnsPacket) :
    p.toBytes.length = ((Layout.start.questions p.questions).records p.records).pos := by
  rw [toBytes_eq, List.length_append, List.length_append, headerBytes_length,
    (writes_records p.records).length_out, (writes_questions p.questions).length_out]
  rfl

/-- **Without some of its records a message that can be pointed through is not longer.** -/
theorem DnsPacket.length_toBytes_le_of_sublist {p q : DnsPacket} (hqs : p.questions = q.questions)
    (hrs : p.records.Sublist q.records) (hlen : q.toBytes.length ≤ 0x4000) :
    p.toBytes.length ≤ q.toBytes.length := by
  rw [length_toBytes_eq_pos] at hlen
  rw [length_toBytes_eq_pos, length_toBytes_eq_pos, hqs]
  simp only [Layout.records_eq_fields, Layout.questions_eq_fields, ← Layout.fields_append] at hlen ⊢
  have hfields : (q.questions.flatMap Layout.questionFields ++ p.records.flatMap Layout.wholeFields).Sublist
      (q.questions.flatMap Layout.questionFields ++ q.records.flatMap Layout.wholeFields) :=
    (List.Sublist.refl _).append (hrs.flatMap Layout.wholeFields)
  exact (Layout.ahead_start.fields hfields hlen).pos_le

end MiniDns.Dns
