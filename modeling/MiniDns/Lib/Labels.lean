import MiniDns.Lib.Utf8

/-! Names on the wire: labels, compression pointers and the dotted text they stand for.
`NameAt` says what a reader meets that starts at an offset and follows pointers; it sets no limit
on the pointers, a reader's own limit is a condition on the number of jumps. -/
namespace MiniDns.Lib
set_option autoImplicit false

/-! ## Dotted text -/

/-- `s.split('.')`. -/
def splitDots (s : Text) : List Text := s.splitOn '.'

/-- `labels.join(".")`. -/
def joinDots (labels : List Text) : Text := ['.'].intercalate labels

theorem joinDots_splitDots (s : Text) : joinDots (splitDots s) = s :=
  List.intercalate_splitOn '.'

theorem splitDots_joinDots {labels : List Text} (hne : labels ≠ []) (hdot : ∀ l ∈ labels, '.' ∉ l) :
    splitDots (joinDots labels) = labels :=
  List.splitOn_intercalate '.' hdot hne

theorem splitDots_ne_nil (s : Text) : splitDots s ≠ [] := List.splitOn_ne_nil '.' s

@[simp] theorem splitDots_nil : splitDots [] = [[]] := rfl
@[simp] theorem joinDots_nil : joinDots [] = [] := rfl
@[simp] theorem joinDots_singleton (l : Text) : joinDots [l] = l := by simp [joinDots]

theorem joinDots_cons {l : Text} {ls : List Text} (h : ls ≠ []) :
    joinDots (l :: ls) = l ++ '.' :: joinDots ls := by
  simp [joinDots, List.intercalate_cons_of_ne_nil h]

theorem not_mem_of_mem_splitOn {d : Char} {s l : Text} (h : l ∈ s.splitOn d) : d ∉ l := by
  induction s generalizing l with
  | nil =>
    rw [List.splitOn_nil, List.mem_singleton] at h
    simp [h]
  | cons c s ih =>
    rw [List.splitOn_cons_eq_if_modifyHead] at h
    split at h
    · rcases List.mem_cons.mp h with rfl | h
      · simp
      · exact ih h
    · rename_i hc
      cases hs : s.splitOn d with
      | nil => exact absurd hs (List.splitOn_ne_nil d s)
      | cons head tail =>
        rw [hs] at h ih
        rcases List.mem_cons.mp h with rfl | h
        · intro hmem
          rcases List.mem_cons.mp hmem with hdot | hmem
          · simp [← hdot] at hc
          · exact ih (by simp) hmem
        · exact ih (by simp [h])

theorem dot_not_mem_of_mem_splitDots {s l : Text} (h : l ∈ splitDots s) : '.' ∉ l := not_mem_of_mem_splitOn h

theorem length_joinDots_le_of_suffix {m ls : List Text} (hsuf : m <:+ ls) :
    (joinDots m).length ≤ (joinDots ls).length := by
  induction ls with
  | nil => simp [List.suffix_nil.mp hsuf]
  | cons l ls ih =>
    rcases List.suffix_cons_iff.mp hsuf with rfl | hsuf
    · exact le_rfl
    · have hle := ih hsuf
      by_cases hls : ls = []
      · subst hls
        simp [List.suffix_nil.mp hsuf]
      · rw [joinDots_cons hls]
        simp
        omega

theorem joinDots_ne_of_suffix {l : Text} {m ls : List Text} (hsuf : m <:+ ls) (hne : m ≠ []) :
    joinDots m ≠ joinDots (l :: ls) := by
  have hls : ls ≠ [] := by
    rintro rfl
    exact hne (List.suffix_nil.mp hsuf)
  intro heq
  have hle := length_joinDots_le_of_suffix hsuf
  rw [heq, joinDots_cons hls] at hle
  simp at hle
  omega

/-! ## Names in a buffer -/

def dotted (labels : List Bytes) : Text := joinDots (labels.map fromUtf8Lossy)

def pointerTarget (hi lo : UInt8) : ℕ := (be16 (hi &&& 0x3F) lo).toNat

/-- A reader that starts at an offset of `buf` meets these labels, follows `jumps` pointers, and
goes on behind the name at the last number. -/
inductive NameAt (buf : Bytes) : ℕ → List Bytes → ℕ → ℕ → Prop
  | root {o : ℕ} : buf[o]? = some 0 → NameAt buf o [] 0 (o + 1)
  | label {o : ℕ} {len : UInt8} {ls : List Bytes} {j e : ℕ} :
      buf[o]? = some len → len &&& 0xC0 = 0 → len ≠ 0 → o + 1 + len.toNat ≤ buf.length →
      NameAt buf (o + 1 + len.toNat) ls j e →
      NameAt buf o (window buf (o + 1) len.toNat :: ls) j e
  | pointer {o : ℕ} {hi lo : UInt8} {ls : List Bytes} {j e : ℕ} :
      buf[o]? = some hi → hi &&& 0xC0 ≠ 0 → buf[o + 1]? = some lo →
      NameAt buf (pointerTarget hi lo) ls j e →
      NameAt buf o ls (j + 1) (o + 2)

namespace NameAt
variable {buf : Bytes} {o j j' e e' : ℕ} {ls ls' : List Bytes}

theorem end_le (h : NameAt buf o ls j e) : e ≤ buf.length := by
  induction h with
  | root h => exact (List.getElem?_eq_some_iff.mp h).1
  | label _ _ _ _ _ ih => exact ih
  | pointer _ _ h _ _ => exact (List.getElem?_eq_some_iff.mp h).1

theorem lt_end (h : NameAt buf o ls j e) : o < e := by
  induction h with
  | root _ => omega
  | label _ _ _ _ _ ih => omega
  | pointer _ _ _ _ _ => omega

theorem start_lt (h : NameAt buf o ls j e) : o < buf.length := h.lt_end.trans_le h.end_le

theorem of_pointer_byte {len : UInt8} (h : NameAt buf o ls j e)
    (hlen : buf[o]? = some len) (hp : len &&& 0xC0 ≠ 0) : o + 1 < buf.length ∧ 1 ≤ j := by
  cases h with
  | root hzero =>
    rw [hlen] at hzero
    obtain rfl := Option.some.inj hzero
    exact absurd rfl hp
  | label hbyte hlabel _ _ _ =>
    rw [hlen] at hbyte
    obtain rfl := Option.some.inj hbyte
    exact absurd hlabel hp
  | pointer _ _ hlo _ => exact ⟨(List.getElem?_eq_some_iff.mp hlo).1, by omega⟩

theorem of_label_byte {len : UInt8} (h : NameAt buf o ls j e)
    (hlen : buf[o]? = some len) (hp : len &&& 0xC0 = 0) (hne : len ≠ 0) : o + 1 + len.toNat ≤ buf.length := by
  cases h with
  | root hzero =>
    rw [hlen] at hzero
    exact absurd (Option.some.inj hzero) hne
  | label hbyte _ _ hle _ =>
    rw [hlen] at hbyte
    obtain rfl := Option.some.inj hbyte
    exact hle
  | pointer hbyte hpointer _ _ =>
    rw [hlen] at hbyte
    obtain rfl := Option.some.inj hbyte
    exact absurd hp hpointer

theorem unique (h : NameAt buf o ls j e) (h' : NameAt buf o ls' j' e') :
    ls = ls' ∧ j = j' ∧ e = e' := by
  induction h generalizing ls' j' e' with
  | root h =>
    cases h' with
    | root _ => exact ⟨rfl, rfl, rfl⟩
    | label h2 _ hne _ _ => rw [h] at h2; exact absurd (Option.some.inj h2).symm hne
    | pointer h2 hp _ _ => rw [h] at h2; exact absurd (Option.some.inj h2) (by rintro rfl; exact hp rfl)
  | label h hp hne _ _ ih =>
    cases h' with
    | root h2 => rw [h] at h2; exact absurd (Option.some.inj h2) hne
    | label h2 _ _ _ hrest =>
      rw [h] at h2
      obtain rfl := Option.some.inj h2
      obtain ⟨rfl, rfl, rfl⟩ := ih hrest
      exact ⟨rfl, rfl, rfl⟩
    | pointer h2 hp2 _ _ => rw [h] at h2; exact absurd hp (Option.some.inj h2 ▸ hp2)
  | pointer h hp hlo _ ih =>
    cases h' with
    | root h2 => rw [h] at h2; exact absurd (Option.some.inj h2) (by rintro rfl; exact hp rfl)
    | label h2 hp2 _ _ _ => rw [h] at h2; exact absurd hp2 (Option.some.inj h2 ▸ hp)
    | pointer h2 _ hlo2 hrest =>
      rw [h] at h2
      rw [hlo] at hlo2
      obtain rfl := Option.some.inj h2
      obtain rfl := Option.some.inj hlo2
      obtain ⟨rfl, rfl, _⟩ := ih hrest
      exact ⟨rfl, rfl, rfl⟩

theorem append (h : NameAt buf o ls j e) (more : Bytes) : NameAt (buf ++ more) o ls j e := by
  induction h with
  | root h => exact .root (getElem?_left h)
  | label h hp hne hle _ ih =>
    rw [← window_left more hle]
    exact .label (getElem?_left h) hp hne (by simp; omega) ih
  | pointer h hp hlo _ ih => exact .pointer (getElem?_left h) hp (getElem?_left hlo) ih

theorem label_ne_nil (h : NameAt buf o ls j e) : ∀ l ∈ ls, l ≠ [] := by
  induction h with
  | root _ => simp
  | label _ _ hne hle _ ih =>
    intro l hl
    rcases List.mem_cons.mp hl with rfl | hl
    · intro hnil
      have hlen := window_length_of_le hle
      rw [hnil] at hlen
      exact hne (UInt8.toNat_inj.mp hlen.symm)
    · exact ih l hl
  | pointer _ _ _ _ ih => exact ih

end NameAt

/-- A name that starts at the first offset is left behind its first pointer or its root label, at the second;
what a pointer leads to is not looked at. -/
inductive EndsAt (buf : Bytes) : ℕ → ℕ → Prop
  | root {o : ℕ} : buf[o]? = some 0 → EndsAt buf o (o + 1)
  | label {o e : ℕ} {len : UInt8} : buf[o]? = some len → len &&& 0xC0 = 0 → len ≠ 0 →
      EndsAt buf (o + 1 + len.toNat) e → EndsAt buf o e
  | pointer {o : ℕ} {hi : UInt8} : buf[o]? = some hi → hi &&& 0xC0 ≠ 0 → EndsAt buf o (o + 2)

namespace EndsAt
variable {buf buf' : Bytes} {o e e' : ℕ}

theorem lt (h : EndsAt buf o e) : o < e := by
  induction h with
  | root _ => omega
  | label _ _ _ _ ih => omega
  | pointer _ _ => omega

/-- Only the bytes in front of the end were read. -/
theorem congr (h : EndsAt buf o e) (hsame : ∀ i, o ≤ i → i < e → buf'[i]? = buf[i]?) : EndsAt buf' o e := by
  induction h with
  | root h => exact .root ((hsame _ le_rfl (by omega)).trans h)
  | label h hp hne hrest ih =>
    have hlt := hrest.lt
    exact .label ((hsame _ le_rfl (by omega)).trans h) hp hne (ih fun i hi => hsame i (by omega))
  | pointer h hp => exact .pointer ((hsame _ le_rfl (by omega)).trans h) hp

theorem unique (h : EndsAt buf o e) (h' : EndsAt buf o e') : e = e' := by
  induction h with
  | root h =>
    cases h' with
    | root _ => rfl
    | label h2 _ hne _ => exact absurd (Option.some.inj (h2.symm.trans h)) hne
    | pointer h2 hp => exact absurd (Option.some.inj (h2.symm.trans h)) (by rintro rfl; exact hp rfl)
  | label h hp hne _ ih =>
    cases h' with
    | root h2 => exact absurd (Option.some.inj (h.symm.trans h2)) hne
    | label h2 _ _ hrest =>
      obtain rfl := Option.some.inj (h.symm.trans h2)
      exact ih hrest
    | pointer h2 hp2 => exact absurd hp (Option.some.inj (h2.symm.trans h) ▸ hp2)
  | pointer h hp =>
    cases h' with
    | root h2 => exact absurd (Option.some.inj (h.symm.trans h2)) (by rintro rfl; exact hp rfl)
    | label h2 hp2 _ _ => exact absurd hp2 (Option.some.inj (h.symm.trans h2) ▸ hp)
    | pointer _ _ => rfl

end EndsAt

theorem NameAt.endsAt {buf : Bytes} {o j e : ℕ} {ls : List Bytes} (h : NameAt buf o ls j e) : EndsAt buf o e := by
  induction h with
  | root h => exact .root h
  | label h hp hne _ _ ih => exact .label h hp hne ih
  | pointer h hp _ _ _ => exact .pointer h hp

/-! ## Following pointers -/

/-- A reader that starts at the first offset meets labels and then a pointer to the second. -/
inductive Hop (buf : Bytes) : ℕ → ℕ → Prop
  | pointer {o : ℕ} {hi lo : UInt8} : buf[o]? = some hi → hi &&& 0xC0 ≠ 0 → buf[o + 1]? = some lo →
      Hop buf o (pointerTarget hi lo)
  | label {o t : ℕ} {len : UInt8} : buf[o]? = some len → len &&& 0xC0 = 0 → len ≠ 0 →
      Hop buf (o + 1 + len.toNat) t → Hop buf o t

namespace Hop
variable {buf buf' : Bytes} {o e t : ℕ}

theorem root_elim (h : Hop buf o t) (hzero : buf[o]? = some 0) : False := by
  cases h with
  | pointer hbyte hp _ =>
    obtain rfl := Option.some.inj (hzero.symm.trans hbyte)
    exact hp rfl
  | label hbyte _ hne _ => exact hne (Option.some.inj (hbyte.symm.trans hzero))

theorem of_label {len : UInt8} (h : Hop buf o t) (hlen : buf[o]? = some len) (hp : len &&& 0xC0 = 0) :
    Hop buf (o + 1 + len.toNat) t := by
  cases h with
  | pointer hbyte hpointer _ =>
    obtain rfl := Option.some.inj (hlen.symm.trans hbyte)
    exact absurd hp hpointer
  | label hbyte _ _ hrest =>
    obtain rfl := Option.some.inj (hlen.symm.trans hbyte)
    exact hrest

theorem target_eq {hi lo : UInt8} (h : Hop buf o t) (hhi : buf[o]? = some hi) (hp : hi &&& 0xC0 ≠ 0)
    (hlo : buf[o + 1]? = some lo) : t = pointerTarget hi lo := by
  cases h with
  | pointer hbyte _ hbyte' =>
    obtain rfl := Option.some.inj (hhi.symm.trans hbyte)
    obtain rfl := Option.some.inj (hlo.symm.trans hbyte')
    rfl
  | label hbyte hlabel _ _ =>
    obtain rfl := Option.some.inj (hhi.symm.trans hbyte)
    exact absurd hlabel hp

/-- Only the bytes in front of the end of the name decide where its pointer leads. -/
theorem congr (hend : EndsAt buf o e) (hsame : ∀ i, o ≤ i → i < e → buf'[i]? = buf[i]?) (h : Hop buf' o t) :
    Hop buf o t := by
  induction hend with
  | root hzero => exact (h.root_elim ((hsame _ le_rfl (by omega)).trans hzero)).elim
  | label hlen hp hne hrest ih =>
    have hlt := hrest.lt
    have hlen' := (hsame _ le_rfl (by omega)).trans hlen
    exact .label hlen hp hne (ih (fun i hi => hsame i (by omega)) (h.of_label hlen' hp))
  | pointer hhi hp =>
    have hhi' := (hsame _ le_rfl (by omega)).trans hhi
    cases h with
    | pointer hbyte _ hlo =>
      obtain rfl := Option.some.inj (hhi'.symm.trans hbyte)
      exact .pointer hhi hp ((hsame _ (by omega) (by omega)).symm.trans hlo)
    | label hbyte hlabel _ _ =>
      obtain rfl := Option.some.inj (hhi'.symm.trans hbyte)
      exact absurd hlabel hp

end Hop

/-- Whoever follows the pointers from `o` on comes to smaller and smaller offsets. -/
def Descends (buf : Bytes) (o : ℕ) : Prop :=
  ∀ ts, List.IsChain (Hop buf) (o :: ts) → (o :: ts).Pairwise (· > ·)

theorem descends_of_hop {buf : Bytes} {S : ℕ → Prop} (hstep : ∀ o, S o → ∀ t, Hop buf o t → t < o ∧ S t) {o : ℕ}
    (ho : S o) : Descends buf o := by
  intro ts hchain
  refine List.isChain_iff_pairwise.mp ?_
  induction ts generalizing o with
  | nil => exact .singleton o
  | cons t ts ih =>
    obtain ⟨hhop, hrest⟩ := List.isChain_cons_cons.mp hchain
    obtain ⟨hlt, ht⟩ := hstep o ho t hhop
    exact .cons_cons hlt (ih ht hrest)

theorem NameAt.exists_isChain {buf : Bytes} {o j e : ℕ} {ls : List Bytes} (h : NameAt buf o ls j e) :
    ∃ ts, ts.length = j ∧ List.IsChain (Hop buf) (o :: ts) := by
  induction h with
  | root _ => exact ⟨[], rfl, .singleton _⟩
  | label hlen hp hne _ _ ih =>
    obtain ⟨ts, hts, hchain⟩ := ih
    refine ⟨ts, hts, ?_⟩
    cases ts with
    | nil => exact .singleton _
    | cons t ts =>
      obtain ⟨hhop, hrest⟩ := List.isChain_cons_cons.mp hchain
      exact .cons_cons (.label hlen hp hne hhop) hrest
  | pointer hhi hp hlo _ ih =>
    obtain ⟨ts, hts, hchain⟩ := ih
    exact ⟨_ :: ts, congrArg (· + 1) hts, .cons_cons (.pointer hhi hp hlo) hchain⟩

theorem length_le_of_pairwise_gt {o : ℕ} {ts : List ℕ} (h : (o :: ts).Pairwise (· > ·)) : ts.length ≤ o := by
  induction ts generalizing o with
  | nil => exact Nat.zero_le o
  | cons t ts ih =>
    obtain ⟨hhead, htail⟩ := List.pairwise_cons.mp h
    have hlt : t < o := hhead t List.mem_cons_self
    have hle := ih htail
    rw [List.length_cons]
    omega

theorem Descends.jumps_le {buf : Bytes} {o j e : ℕ} {ls : List Bytes} (h : Descends buf o)
    (hname : NameAt buf o ls j e) : j ≤ o := by
  obtain ⟨ts, rfl, hchain⟩ := hname.exists_isChain
  exact length_le_of_pairwise_gt (h ts hchain)

/-! ## Writing labels and pointers -/

theorem lengthByte_and {n : ℕ} (h : n < 64) : UInt8.ofNat n &&& 0xC0 = 0 := by
  have all : ∀ k < 64, UInt8.ofNat k &&& 0xC0 = 0 := by decide
  exact all n h

theorem lengthByte_ne_zero {n : ℕ} (h : n < 64) (h0 : n ≠ 0) : UInt8.ofNat n ≠ 0 := by
  intro heq
  have hn := congrArg UInt8.toNat heq
  rw [byte_toNat n (by omega)] at hn
  exact h0 hn

theorem pointerBytes {o : ℕ} (h : o ≤ 0x3FFF) :
    ∃ hi lo, bytes16 (0xC000 ||| UInt16.ofNat o) = [hi, lo] ∧ hi &&& 0xC0 ≠ 0 ∧ pointerTarget hi lo = o := by
  have hor : (0xC000 ||| UInt16.ofNat o : UInt16).toNat = 0xC000 + o := by
    have hsum := Nat.two_pow_add_eq_or_of_lt (b := o) (i := 14) (by omega) 3
    rw [UInt16.toNat_or, UInt16.toNat_ofNat', Nat.mod_eq_of_lt (by omega)]
    exact hsum.symm
  have hbits : ∀ k < 64, UInt8.ofNat (192 + k) &&& 0xC0 ≠ 0 ∧
      (UInt8.ofNat (192 + k) &&& 0x3F).toNat = k := by decide
  obtain ⟨hmark, hrest⟩ := hbits (o / 256) (by omega)
  have hhi : (0xC000 + o) / 256 = 192 + o / 256 := by omega
  refine ⟨_, _, rfl, ?_, ?_⟩
  · rw [hor, hhi]
    exact hmark
  · rw [hor, hhi, pointerTarget, be16_toNat, hrest, byte_toNat _ (by omega)]
    omega

theorem dropLast_flatMap_dot (ls : List Bytes) :
    (ls.flatMap fun l => fromUtf8Lossy l ++ ['.']).dropLast = dotted ls := by
  induction ls with
  | nil => rfl
  | cons l ls ih =>
    cases ls with
    | nil => simp [dotted]
    | cons m ms =>
      have hne : ((m :: ms).flatMap fun l => fromUtf8Lossy l ++ ['.']) ≠ [] := by simp
      rw [List.flatMap_cons, List.dropLast_append_of_ne_nil hne, ih]
      simp only [dotted, List.map_cons]
      rw [joinDots_cons (l := fromUtf8Lossy l) (by simp)]
      simp

end MiniDns.Lib
