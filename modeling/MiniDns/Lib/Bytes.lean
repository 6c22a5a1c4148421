import MiniDns.Lib.Outcome
import Mathlib.Data.List.Basic
import Mathlib.Tactic.Ring

/-! Checked reads from a byte buffer, and big-endian words.
`byteAt` and `slice` are the indexing operators `buf[i]` and `buf[a..b]`: they panic exactly
where those do. The unchecked part of a read is `window`. -/
namespace MiniDns.Lib
open Outcome
set_option autoImplicit false

abbrev Bytes := List UInt8

variable {ε : Type}

/-! ## Indexing -/

/-- `buf[i]`. -/
def byteAt (buf : Bytes) (i : ℕ) : Outcome ε UInt8 :=
  match buf[i]? with
  | some b => ok b
  | none => panic

def window (buf : Bytes) (i n : ℕ) : Bytes := (buf.drop i).take n

/-- `buf[a..b]`. -/
def slice (buf : Bytes) (a b : ℕ) : Outcome ε Bytes :=
  if a ≤ b ∧ b ≤ buf.length then ok (window buf a (b - a)) else panic

theorem byteAt_eq_ok {buf : Bytes} {i : ℕ} {b : UInt8} :
    (byteAt buf i : Outcome ε UInt8) = ok b ↔ buf[i]? = some b := by
  unfold byteAt
  cases buf[i]? <;> simp

theorem byteAt_eq_panic {buf : Bytes} {i : ℕ} :
    (byteAt buf i : Outcome ε UInt8) = panic ↔ buf.length ≤ i := by
  unfold byteAt
  cases h : buf[i]? with
  | none => simpa using h
  | some b =>
    have hi : i < buf.length := (List.getElem?_eq_some_iff.mp h).1
    simp
    omega

theorem byteAt_of_lt {buf : Bytes} {i : ℕ} (h : i < buf.length) :
    (byteAt buf i : Outcome ε UInt8) = ok buf[i] := by
  rw [byteAt_eq_ok, List.getElem?_eq_getElem h]

theorem byteAt_ne_panic {buf : Bytes} {i : ℕ} (h : i < buf.length) :
    (byteAt buf i : Outcome ε UInt8) ≠ panic := by
  rw [Ne, byteAt_eq_panic]
  omega

theorem slice_eq_ok {buf : Bytes} {a b : ℕ} {bs : Bytes} :
    (slice buf a b : Outcome ε Bytes) = ok bs ↔ a ≤ b ∧ b ≤ buf.length ∧ window buf a (b - a) = bs := by
  unfold slice
  by_cases h : a ≤ b ∧ b ≤ buf.length
  · simp [h]
  · simp only [if_neg h, reduceCtorEq, false_iff]
    exact fun hh => h ⟨hh.1, hh.2.1⟩

theorem slice_eq_panic {buf : Bytes} {a b : ℕ} :
    (slice buf a b : Outcome ε Bytes) = panic ↔ b < a ∨ buf.length < b := by
  unfold slice
  by_cases h : a ≤ b ∧ b ≤ buf.length
  · simp [h]
  · simp only [if_neg h, true_iff]
    omega

theorem slice_of_le {buf : Bytes} {a b : ℕ} (h : a ≤ b) (hb : b ≤ buf.length) :
    (slice buf a b : Outcome ε Bytes) = ok (window buf a (b - a)) := if_pos ⟨h, hb⟩

theorem slice_ne_panic {buf : Bytes} {a b : ℕ} (h : a ≤ b) (hb : b ≤ buf.length) :
    (slice buf a b : Outcome ε Bytes) ≠ panic := by
  rw [Ne, slice_eq_panic]
  omega

theorem window_length (buf : Bytes) (i n : ℕ) : (window buf i n).length = min n (buf.length - i) := by
  simp [window]

theorem window_length_of_le {buf : Bytes} {i n : ℕ} (h : i + n ≤ buf.length) :
    (window buf i n).length = n := by
  rw [window_length]
  omega

theorem take_window {buf bs : Bytes} {i n k : ℕ} (h : window buf i n = bs) (hk : k ≤ n) :
    window buf i k = bs.take k := by
  rw [← h, window, window, List.take_take, Nat.min_eq_left hk]

theorem window_append (pre mid post : Bytes) :
    window (pre ++ mid ++ post) pre.length mid.length = mid := by
  simp [window, List.append_assoc]

theorem window_left (more : Bytes) {buf : Bytes} {i n : ℕ} (h : i + n ≤ buf.length) :
    window (buf ++ more) i n = window buf i n := by
  unfold window
  rw [List.drop_append_of_le_length (by omega), List.take_append_of_le_length (by simp; omega)]

theorem getElem?_left {buf more : Bytes} {i : ℕ} {b : UInt8} (h : buf[i]? = some b) :
    (buf ++ more)[i]? = some b := by
  have hi : i < buf.length := (List.getElem?_eq_some_iff.mp h).1
  rw [List.getElem?_append_left hi, h]

theorem getElem?_window (buf : Bytes) (i n j : ℕ) (h : j < n) : (window buf i n)[j]? = buf[i + j]? := by
  simp [window, h]

theorem window_congr {buf buf' : Bytes} {i n : ℕ} (h : ∀ j, i ≤ j → j < i + n → buf'[j]? = buf[j]?) :
    window buf' i n = window buf i n := by
  apply List.ext_getElem?
  intro j
  by_cases hj : j < n
  · rw [getElem?_window _ _ _ _ hj, getElem?_window _ _ _ _ hj, h (i + j) (by omega) (by omega)]
  · simp [window, hj]

theorem byteAt_of_window (ε : Type) {buf bs : Bytes} {o n i : ℕ} {b : UInt8} (h : window buf o n = bs)
    (hi : bs[i]? = some b) : (byteAt buf (o + i) : Outcome ε UInt8) = ok b := by
  have hlt : i < n := by
    have hlen := window_length buf o n
    have := (List.getElem?_eq_some_iff.mp hi).1
    rw [h] at hlen
    omega
  rw [byteAt_eq_ok, ← getElem?_window buf o n i hlt, h, hi]

theorem slice_of_window {buf bs : Bytes} {a b : ℕ} (hle : a ≤ b) (hb : b ≤ buf.length)
    (h : window buf a (b - a) = bs) : (slice buf a b : Outcome ε Bytes) = ok bs := by
  rw [slice_of_le hle hb, h]

/-! ## Chunks -/

/-- `fuel` bounds the number of chunks; the number of bytes is always enough. -/
def chunksFrom (n : ℕ) : ℕ → Bytes → List Bytes
  | 0, _ => []
  | _, [] => []
  | fuel + 1, b :: bs => (b :: bs).take n :: chunksFrom n fuel ((b :: bs).drop n)

/-- `bytes.chunks(n)`, for a positive `n`. -/
def chunks (n : ℕ) (bytes : Bytes) : List Bytes := chunksFrom n bytes.length bytes

theorem chunksFrom_eq {n : ℕ} (hn : 0 < n) (fuel : ℕ) (bytes : Bytes) (h : bytes.length ≤ fuel) :
    chunksFrom n fuel bytes = chunks n bytes := by
  unfold chunks
  suffices key : ∀ m k (bs : Bytes), bs.length ≤ m → bs.length ≤ k → chunksFrom n m bs = chunksFrom n k bs from
    key fuel bytes.length bytes h le_rfl
  intro m
  induction m with
  | zero =>
    intro k bs hm _
    rw [List.eq_nil_of_length_eq_zero (Nat.le_zero.mp hm)]
    cases k <;> rfl
  | succ m ih =>
    intro k bs hm hk
    cases bs with
    | nil => cases k <;> rfl
    | cons b bs =>
      cases k with
      | zero => simp at hk
      | succ k =>
        simp only [List.length_cons] at hm hk
        simp only [chunksFrom]
        rw [ih k _ (by simp; omega) (by simp; omega)]

@[simp] theorem chunks_nil (n : ℕ) : chunks n [] = [] := rfl

theorem chunks_of_ne_nil {n : ℕ} (hn : 0 < n) {bytes : Bytes} (h : bytes ≠ []) :
    chunks n bytes = bytes.take n :: chunks n (bytes.drop n) := by
  cases bytes with
  | nil => exact absurd rfl h
  | cons b bs =>
    rw [← chunksFrom_eq hn bs.length (List.drop n (b :: bs)) (by simp; omega)]
    rfl

/-- To prove something of every byte string, take off one chunk. -/
theorem chunks_induction {n : ℕ} (hn : 0 < n) {motive : Bytes → Prop} (nil : motive [])
    (chunk : ∀ bytes, bytes ≠ [] → motive (bytes.drop n) → motive bytes) (bytes : Bytes) :
    motive bytes := by
  suffices key : ∀ m (bs : Bytes), bs.length ≤ m → motive bs from key bytes.length bytes le_rfl
  intro m
  induction m with
  | zero =>
    intro bs h
    rw [List.eq_nil_of_length_eq_zero (Nat.le_zero.mp h)]
    exact nil
  | succ m ih =>
    intro bs h
    by_cases hb : bs = []
    · exact hb ▸ nil
    · have hpos : 0 < bs.length := List.length_pos_of_ne_nil hb
      exact chunk bs hb (ih _ (by simp; omega))

theorem flatten_chunks {n : ℕ} (hn : 0 < n) (bytes : Bytes) : (chunks n bytes).flatten = bytes := by
  induction bytes using chunks_induction hn with
  | nil => rfl
  | chunk bytes hne ih => rw [chunks_of_ne_nil hn hne, List.flatten_cons, ih, List.take_append_drop]

theorem length_chunks_lt {n : ℕ} (hn : 0 < n) (bytes : Bytes) : n * (chunks n bytes).length < bytes.length + n := by
  induction bytes using chunks_induction hn with
  | nil => simpa using hn
  | chunk bytes hne ih =>
    have hpos := List.length_pos_iff.mpr hne
    rw [List.length_drop] at ih
    rw [chunks_of_ne_nil hn hne, List.length_cons, Nat.mul_succ]
    by_cases hle : bytes.length ≤ n
    · rw [List.drop_eq_nil_of_le hle, chunks_nil, List.length_nil]
      omega
    · omega

theorem length_le_chunks {n : ℕ} (hn : 0 < n) (bytes : Bytes) : bytes.length ≤ n * (chunks n bytes).length := by
  induction bytes using chunks_induction hn with
  | nil => exact Nat.zero_le _
  | chunk bytes hne ih =>
    rw [List.length_drop] at ih
    rw [chunks_of_ne_nil hn hne, List.length_cons, Nat.mul_succ]
    omega

theorem exists_of_mem_chunks {n : ℕ} (hn : 0 < n) {bytes c : Bytes} (h : c ∈ chunks n bytes) :
    ∃ k, c = (bytes.drop k).take n := by
  induction bytes using chunks_induction hn with
  | nil => cases h
  | chunk bytes hne ih =>
    rw [chunks_of_ne_nil hn hne] at h
    obtain rfl | h := List.mem_cons.mp h
    · exact ⟨0, rfl⟩
    · obtain ⟨k, rfl⟩ := ih h
      exact ⟨n + k, by rw [List.drop_drop]⟩

/-! ## Big-endian words -/

def be16 (a b : UInt8) : UInt16 := UInt16.ofNat (a.toNat * 256 + b.toNat)

def be32 (a b c d : UInt8) : UInt32 :=
  UInt32.ofNat (((a.toNat * 256 + b.toNat) * 256 + c.toNat) * 256 + d.toNat)

def bytes16 (n : UInt16) : Bytes := [UInt8.ofNat (n.toNat / 256), UInt8.ofNat (n.toNat % 256)]

def bytes32 (n : UInt32) : Bytes :=
  [UInt8.ofNat (n.toNat / 16777216), UInt8.ofNat (n.toNat / 65536 % 256),
    UInt8.ofNat (n.toNat / 256 % 256), UInt8.ofNat (n.toNat % 256)]

@[simp] theorem bytes16_length (n : UInt16) : (bytes16 n).length = 2 := rfl
@[simp] theorem bytes32_length (n : UInt32) : (bytes32 n).length = 4 := rfl

theorem be16_toNat (a b : UInt8) : (be16 a b).toNat = a.toNat * 256 + b.toNat := by
  have ha := a.toNat_lt
  have hb := b.toNat_lt
  simp only [be16, UInt16.toNat_ofNat']
  omega

theorem be16_bytes16 (n : UInt16) :
    be16 (UInt8.ofNat (n.toNat / 256)) (UInt8.ofNat (n.toNat % 256)) = n := by
  apply UInt16.toNat_inj.mp
  have hn := n.toNat_lt
  rw [be16_toNat]
  simp only [UInt8.toNat_ofNat']
  omega

theorem bytes16_inj {m n : UInt16} : bytes16 m = bytes16 n ↔ m = n := by
  refine ⟨fun h => ?_, congrArg bytes16⟩
  obtain ⟨hhi, hlo⟩ := List.cons_eq_cons.mp h
  have hm := be16_bytes16 m
  rw [hhi, (List.cons_eq_cons.mp hlo).1] at hm
  exact hm.symm.trans (be16_bytes16 n)

theorem be32_bytes32 (n : UInt32) :
    be32 (UInt8.ofNat (n.toNat / 16777216)) (UInt8.ofNat (n.toNat / 65536 % 256))
      (UInt8.ofNat (n.toNat / 256 % 256)) (UInt8.ofNat (n.toNat % 256)) = n := by
  apply UInt32.toNat_inj.mp
  have hn := n.toNat_lt
  simp only [be32, UInt8.toNat_ofNat', UInt32.toNat_ofNat']
  omega

def u16At (buf : Bytes) (i : ℕ) : Outcome ε UInt16 := do
  let a ← byteAt buf i
  let b ← byteAt buf (i + 1)
  pure (be16 a b)

def u32At (buf : Bytes) (i : ℕ) : Outcome ε UInt32 := do
  let a ← byteAt buf i
  let b ← byteAt buf (i + 1)
  let c ← byteAt buf (i + 2)
  let d ← byteAt buf (i + 3)
  pure (be32 a b c d)

theorem u16At_of_le (ε : Type) (buf : Bytes) (i : ℕ) (h : i + 2 ≤ buf.length) :
    ∃ n, (u16At buf i : Outcome ε UInt16) = ok n := by
  unfold u16At
  rw [byteAt_of_lt (by omega), byteAt_of_lt (by omega)]
  exact ⟨_, rfl⟩

theorem u32At_of_le (ε : Type) (buf : Bytes) (i : ℕ) (h : i + 4 ≤ buf.length) :
    ∃ n, (u32At buf i : Outcome ε UInt32) = ok n := by
  unfold u32At
  rw [byteAt_of_lt (by omega), byteAt_of_lt (by omega), byteAt_of_lt (by omega),
    byteAt_of_lt (by omega)]
  exact ⟨_, rfl⟩

theorem u16At_ne_panic {buf : Bytes} {i : ℕ} (h : i + 2 ≤ buf.length) :
    (u16At buf i : Outcome ε UInt16) ≠ panic := by
  obtain ⟨n, hn⟩ := u16At_of_le ε _ _ h
  simp [hn]

theorem u32At_ne_panic {buf : Bytes} {i : ℕ} (h : i + 4 ≤ buf.length) :
    (u32At buf i : Outcome ε UInt32) ≠ panic := by
  obtain ⟨n, hn⟩ := u32At_of_le ε _ _ h
  simp [hn]

theorem u16At_of_window {buf : Bytes} {i : ℕ} {n : UInt16} (h : window buf i 2 = bytes16 n) :
    (u16At buf i : Outcome ε UInt16) = ok n := by
  have h0 : buf[i]? = some (UInt8.ofNat (n.toNat / 256)) := by
    rw [← Nat.add_zero i, ← getElem?_window buf i 2 0 (by omega), h]; rfl
  have h1 : buf[i + 1]? = some (UInt8.ofNat (n.toNat % 256)) := by
    rw [← getElem?_window buf i 2 1 (by omega), h]; rfl
  unfold u16At
  rw [byteAt_eq_ok.mpr h0, byteAt_eq_ok.mpr h1]
  simp [be16_bytes16]

theorem u32At_of_window {buf : Bytes} {i : ℕ} {n : UInt32} (h : window buf i 4 = bytes32 n) :
    (u32At buf i : Outcome ε UInt32) = ok n := by
  have hget : ∀ j < 4, buf[i + j]? = (bytes32 n)[j]? := by
    intro j hj
    rw [← h, getElem?_window buf i 4 j hj]
  have h0 := hget 0 (by omega)
  rw [Nat.add_zero] at h0
  unfold u32At
  rw [byteAt_eq_ok.mpr h0, byteAt_eq_ok.mpr (hget 1 (by omega)),
    byteAt_eq_ok.mpr (hget 2 (by omega)), byteAt_eq_ok.mpr (hget 3 (by omega))]
  simp [be32_bytes32]

theorem u16At_append (ε : Type) (before behind : Bytes) (n : UInt16) {i : ℕ} (hi : i = before.length) :
    (u16At (before ++ bytes16 n ++ behind) i : Outcome ε UInt16) = ok n := by
  subst hi
  exact u16At_of_window (window_append before (bytes16 n) behind)

theorem u32At_append (ε : Type) (before behind : Bytes) (n : UInt32) {i : ℕ} (hi : i = before.length) :
    (u32At (before ++ bytes32 n ++ behind) i : Outcome ε UInt32) = ok n := by
  subst hi
  exact u32At_of_window (window_append before (bytes32 n) behind)

end MiniDns.Lib
