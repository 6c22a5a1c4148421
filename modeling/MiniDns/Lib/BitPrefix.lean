import Mathlib.Tactic.Ring
import MiniDns.Lib.Bytes

/-! The leading bits of a sequence of bytes, read as one big-endian number. -/
namespace MiniDns.Lib
set_option autoImplicit false

def bigEndian : Bytes → ℕ
  | [] => 0
  | b :: bs => b.toNat * 256 ^ bs.length + bigEndian bs

/-- The first `bits` bits, as a number. -/
def leadingBits (bits : ℕ) (bs : Bytes) : ℕ := bigEndian bs / 2 ^ (8 * bs.length - bits)

theorem bigEndian_lt (bs : Bytes) : bigEndian bs < 256 ^ bs.length := by
  induction bs with
  | nil => exact Nat.one_pos
  | cons b bs ih =>
    have hb : b.toNat < 256 := b.toNat_lt
    have hle : (b.toNat + 1) * 256 ^ bs.length ≤ 256 * 256 ^ bs.length := Nat.mul_le_mul_right _ (by omega)
    rw [bigEndian, List.length_cons, Nat.pow_succ']
    rw [Nat.succ_mul] at hle
    omega

theorem bigEndian_append (as bs : Bytes) : bigEndian (as ++ bs) = bigEndian as * 256 ^ bs.length + bigEndian bs := by
  induction as with
  | nil => simp [bigEndian]
  | cons a as ih =>
    rw [List.cons_append, bigEndian, bigEndian, ih, List.length_append, Nat.pow_add]
    ring

theorem mul_add_inj {a a' b b' m : ℕ} (hb : b < m) (hb' : b' < m) : a * m + b = a' * m + b' ↔ a = a' ∧ b = b' := by
  constructor
  · intro h
    have hdiv : (a * m + b) / m = (a' * m + b') / m := by rw [h]
    rw [Nat.mul_comm a, Nat.mul_comm a', Nat.mul_add_div (by omega), Nat.mul_add_div (by omega),
      Nat.div_eq_of_lt hb, Nat.div_eq_of_lt hb', Nat.add_zero, Nat.add_zero] at hdiv
    subst hdiv
    exact ⟨rfl, Nat.add_left_cancel h⟩
  · rintro ⟨rfl, rfl⟩
    rfl

theorem bigEndian_inj {as bs : Bytes} (hlen : as.length = bs.length) : bigEndian as = bigEndian bs ↔ as = bs := by
  induction as generalizing bs with
  | nil =>
    obtain rfl := List.length_eq_zero_iff.mp hlen.symm
    simp
  | cons a as ih =>
    cases bs with
    | nil => cases hlen
    | cons b bs =>
      have hlen' : as.length = bs.length := Nat.succ.inj hlen
      have hlt := bigEndian_lt as
      rw [hlen'] at hlt
      rw [bigEndian, bigEndian, hlen', mul_add_inj hlt (bigEndian_lt bs), ih hlen', UInt8.toNat_inj, List.cons.injEq]

theorem bigEndian_append_div (as bs : Bytes) : bigEndian (as ++ bs) / 256 ^ bs.length = bigEndian as := by
  rw [bigEndian_append, Nat.mul_comm, Nat.mul_add_div (Nat.pow_pos (by omega)), Nat.div_eq_of_lt (bigEndian_lt bs),
    Nat.add_zero]

theorem bigEndian_take {bs : Bytes} {q : ℕ} : bigEndian bs / 256 ^ (bs.length - q) = bigEndian (bs.take q) := by
  have h := bigEndian_append_div (bs.take q) (bs.drop q)
  rwa [List.take_append_drop, List.length_drop] at h

theorem leadingBits_bytes (bs : Bytes) (q : ℕ) : leadingBits (8 * q) bs = bigEndian (bs.take q) := by
  rw [leadingBits, ← Nat.mul_sub, Nat.pow_mul]
  exact bigEndian_take

/-- Behind full bytes, the leading bits of the next one. -/
theorem leadingBits_rest {bs : Bytes} {q r : ℕ} {b : UInt8} (hb : bs[q]? = some b) (hr : r < 8) :
    leadingBits (8 * q + r) bs = bigEndian (bs.take q) * 2 ^ r + b.toNat / 2 ^ (8 - r) := by
  obtain ⟨hq, hbyte⟩ := List.getElem?_eq_some_iff.mp hb
  have hpow : 2 ^ (8 * bs.length - (8 * q + r)) = 256 ^ (bs.length - (q + 1)) * 2 ^ (8 - r) := by
    rw [show (256 : ℕ) = 2 ^ 8 from rfl, ← Nat.pow_mul, ← Nat.pow_add]
    congr 1
    omega
  have hbits : bigEndian (bs.take q) * 256 = 2 ^ (8 - r) * (bigEndian (bs.take q) * 2 ^ r) := by
    have hsplit : (256 : ℕ) = 2 ^ (8 - r) * 2 ^ r := by
      rw [← Nat.pow_add, Nat.sub_add_cancel hr.le]
    rw [hsplit]
    ring
  have hnext : bigEndian (bs.take (q + 1)) = bigEndian (bs.take q) * 256 + b.toNat := by
    rw [← List.take_append_getElem hq, hbyte, bigEndian_append]
    simp [bigEndian]
  rw [leadingBits, hpow, ← Nat.div_div_eq_div_mul, bigEndian_take, hnext, hbits, Nat.mul_add_div (Nat.pow_pos (by omega))]

/-- A mask of the top bits of a byte keeps what dividing keeps. -/
theorem mask_eq_iff {r : ℕ} (hr : r < 8) (hpos : 0 < r) (b c : UInt8) :
    b &&& 0xFF <<< UInt8.ofNat (8 - r) = c &&& 0xFF <<< UInt8.ofNat (8 - r) ↔
      b.toNat / 2 ^ (8 - r) = c.toNat / 2 ^ (8 - r) := by
  have all : ∀ r < 8, 0 < r → ∀ n < 256,
      (UInt8.ofNat n &&& 0xFF <<< UInt8.ofNat (8 - r)).toNat = n / 2 ^ (8 - r) * 2 ^ (8 - r) := by decide +kernel
  have hmask : ∀ b : UInt8, (b &&& 0xFF <<< UInt8.ofNat (8 - r)).toNat = b.toNat / 2 ^ (8 - r) * 2 ^ (8 - r) := by
    intro b
    have h := all r hr hpos b.toNat b.toNat_lt
    rwa [UInt8.ofNat_toNat] at h
  rw [← UInt8.toNat_inj, hmask, hmask, Nat.mul_left_inj (Nat.pow_pos (by omega)).ne']

section Compare
variable {as bs : Bytes} (hlen : as.length = bs.length)
include hlen

theorem leadingBits_bytes_eq_iff (q : ℕ) :
    leadingBits (8 * q) as = leadingBits (8 * q) bs ↔ as.take q = bs.take q := by
  rw [leadingBits_bytes, leadingBits_bytes, bigEndian_inj]
  rw [List.length_take, List.length_take, hlen]

/-- **Leading bits agree exactly when the full bytes and the top bits behind them do.** -/
theorem leadingBits_rest_eq_iff {q r : ℕ} {a b : UInt8} (ha : as[q]? = some a) (hb : bs[q]? = some b) (hr : r < 8) :
    leadingBits (8 * q + r) as = leadingBits (8 * q + r) bs ↔
      as.take q = bs.take q ∧ a.toNat / 2 ^ (8 - r) = b.toNat / 2 ^ (8 - r) := by
  have htop : ∀ c : UInt8, c.toNat / 2 ^ (8 - r) < 2 ^ r := by
    intro c
    refine Nat.div_lt_of_lt_mul ?_
    rw [← Nat.pow_add, Nat.sub_add_cancel hr.le]
    exact c.toNat_lt
  rw [leadingBits_rest ha hr, leadingBits_rest hb hr, mul_add_inj (htop a) (htop b), bigEndian_inj]
  rw [List.length_take, List.length_take, hlen]

end Compare
end MiniDns.Lib
