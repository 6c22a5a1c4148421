import MiniDns.Dns.PacketNames

/-! The names of RFC 1035 among those that `parse_qname` accepts. It takes every byte with one of the two top
bits for a pointer, and it has no bound on the length of a name. -/
namespace MiniDns.Dns.DnsPacket
open Lib Lib.Outcome
set_option autoImplicit false

variable {buf : Bytes} {o : ℕ} {ls : List Bytes}

/-! ## Names of the standard -/

/-- Labels of 1 to 63 bytes and pointers with both top bits. -/
inductive Rfc1035At (buf : Bytes) : ℕ → List Bytes → Prop
  | root {o : ℕ} : buf[o]? = some 0 → Rfc1035At buf o []
  | label {o : ℕ} {len : UInt8} {ls : List Bytes} :
      buf[o]? = some len → 1 ≤ len.toNat → len.toNat ≤ 63 → o + 1 + len.toNat ≤ buf.length →
      Rfc1035At buf (o + 1 + len.toNat) ls → Rfc1035At buf o (window buf (o + 1) len.toNat :: ls)
  | pointer {o : ℕ} {hi lo : UInt8} {ls : List Bytes} :
      buf[o]? = some hi → 0xC0 ≤ hi.toNat → buf[o + 1]? = some lo → Rfc1035At buf (pointerTarget hi lo) ls →
      Rfc1035At buf o ls

def wireLength (ls : List Bytes) : ℕ := (ls.map fun l => l.length + 1).sum + 1

/-- What is accepted at `o` is a name of the standard. -/
def AcceptsRfc1035 (buf : Bytes) (o : ℕ) : Prop :=
  ∀ qname e, parseQname buf o = ok (qname, e) →
    ∃ ls, Rfc1035At buf o ls ∧ qname = dotted ls ∧ wireLength ls ≤ 255

/-! ## What the loop visits -/

/-- The offsets at which the loop that starts at `o` looks for the length of a label or a pointer. -/
inductive Visits (buf : Bytes) : ℕ → ℕ → Prop
  | here {o : ℕ} : Visits buf o o
  | label {o p : ℕ} {len : UInt8} : buf[o]? = some len → len &&& 0xC0 = 0 → len ≠ 0 →
      Visits buf (o + 1 + len.toNat) p → Visits buf o p
  | pointer {o p : ℕ} {hi lo : UInt8} : buf[o]? = some hi → hi &&& 0xC0 ≠ 0 → buf[o + 1]? = some lo →
      Visits buf (pointerTarget hi lo) p → Visits buf o p

/-- A byte of the two kinds of label that the standard reserves. -/
def Reserved (b : UInt8) : Prop := 0x40 ≤ b.toNat ∧ b.toNat < 0xC0

instance (b : UInt8) : Decidable (Reserved b) := inferInstanceAs (Decidable (_ ∧ _))

theorem topBits_eq_zero (b : UInt8) : b &&& 0xC0 = 0 ↔ b.toNat < 0x40 := by
  have all : ∀ n < 256, UInt8.ofNat n &&& 0xC0 = 0 ↔ n < 0x40 := by decide +kernel
  have h := all b.toNat b.toNat_lt
  rwa [UInt8.ofNat_toNat] at h

theorem Rfc1035At.nameAt (h : Rfc1035At buf o ls) : ∃ j e, NameAt buf o ls j e := by
  induction h with
  | root h => exact ⟨0, _, .root h⟩
  | @label _ len _ h hpos hle hend _ ih =>
    obtain ⟨j, e, hname⟩ := ih
    have hne : len ≠ 0 := by
      rintro rfl
      exact absurd hpos (by decide)
    exact ⟨j, e, .label h ((topBits_eq_zero len).mpr (by omega)) hne hend hname⟩
  | pointer h hhi hlo _ ih =>
    obtain ⟨j, e, hname⟩ := ih
    exact ⟨j + 1, _, .pointer h (fun hzero => absurd ((topBits_eq_zero _).mp hzero) (by omega)) hlo hname⟩

theorem Rfc1035At.not_reserved (h : Rfc1035At buf o ls) {p : ℕ} {b : UInt8} (hvisit : Visits buf o p)
    (hb : buf[p]? = some b) : ¬ Reserved b := by
  -- the standard and the loop read the same bytes, so each visit is a visit of the standard
  induction hvisit generalizing ls with
  | here =>
    cases h with
    | root h =>
      obtain rfl := Option.some.inj (hb.symm.trans h)
      decide
    | label h _ hle _ _ =>
      obtain rfl := Option.some.inj (hb.symm.trans h)
      exact fun hres => absurd hres.1 (by omega)
    | pointer h hhi _ _ =>
      obtain rfl := Option.some.inj (hb.symm.trans h)
      exact fun hres => absurd hres.2 (by omega)
  | label h0 hp hne _ ih =>
    cases h with
    | root h => exact absurd (Option.some.inj (h0.symm.trans h)) hne
    | label h _ _ _ hrest =>
      obtain rfl := Option.some.inj (h0.symm.trans h)
      exact ih hrest hb
    | pointer h hhi _ _ =>
      obtain rfl := Option.some.inj (h0.symm.trans h)
      exact absurd ((topBits_eq_zero _).mp hp) (by omega)
  | pointer h0 hp hlo _ ih =>
    cases h with
    | root h =>
      obtain rfl := Option.some.inj (h0.symm.trans h)
      exact absurd rfl hp
    | label h _ hle _ _ =>
      obtain rfl := Option.some.inj (h0.symm.trans h)
      exact absurd ((topBits_eq_zero _).mpr (by omega)) hp
    | pointer h _ hlo' hrest =>
      obtain rfl := Option.some.inj (h0.symm.trans h)
      obtain rfl := Option.some.inj (hlo.symm.trans hlo')
      exact ih hrest hb

/-- Without a reserved byte on the way, the loop reads a name of the standard. -/
theorem rfc1035At_of_nameAt {j e : ℕ} (h : NameAt buf o ls j e)
    (hfree : ∀ p b, Visits buf o p → buf[p]? = some b → ¬ Reserved b) : Rfc1035At buf o ls := by
  induction h with
  | root h => exact .root h
  | @label _ len _ _ _ h hp hne hle _ ih =>
    have hlt := (topBits_eq_zero len).mp hp
    have hpos : len.toNat ≠ 0 := fun hzero => hne (UInt8.toNat_inj.mp hzero)
    exact .label h (by omega) (by omega) hle (ih fun p b hvisit => hfree p b (.label h hp hne hvisit))
  | @pointer _ hi _ _ _ _ h hp hlo _ ih =>
    -- the loop only asks for one of the two top bits; the other is set since the byte is not reserved
    have hge : ¬ hi.toNat < 0x40 := fun hlt => hp ((topBits_eq_zero hi).mpr hlt)
    have hfree' : ¬ Reserved hi := hfree _ hi .here h
    have hhi : 0xC0 ≤ hi.toNat := by
      unfold Reserved at hfree'
      omega
    exact .pointer h hhi hlo (ih fun p b hvisit => hfree p b (.pointer h hp hlo hvisit))

/-- **What `parse_qname` accepts is a name of RFC 1035 exactly when no reserved byte is met on the way to the
end of the name and the name, written out, takes at most 255 bytes.** -/
theorem acceptsRfc1035_iff (buf : Bytes) (o : ℕ) :
    AcceptsRfc1035 buf o ↔
      ∀ ls j e, NameAt buf o ls j e → j ≤ maxPointerJumps →
        (∀ p b, Visits buf o p → buf[p]? = some b → ¬ Reserved b) ∧ wireLength ls ≤ 255 := by
  constructor
  · intro h ls j e hname hj
    obtain ⟨ls', hstrict, _, hlen⟩ := h _ _ (parseQname_eq_ok.mpr ⟨ls, j, hname, hj, rfl⟩)
    obtain ⟨j', e', hname'⟩ := hstrict.nameAt
    obtain ⟨rfl, _, _⟩ := hname.unique hname'
    exact ⟨fun p b hvisit hb => hstrict.not_reserved hvisit hb, hlen⟩
  · intro h qname e hparse
    obtain ⟨ls, j, hname, hj, rfl⟩ := parseQname_eq_ok.mp hparse
    obtain ⟨hfree, hlen⟩ := h ls j e hname hj
    exact ⟨ls, rfc1035At_of_nameAt hname hfree, rfl, hlen⟩

def longName : Bytes := (List.replicate 5 ((63 : UInt8) :: List.replicate 63 97)).flatten ++ [0]

theorem nameAt_longName : ∃ ls, NameAt longName 0 ls 0 321 ∧ wireLength ls = 321 := by
  have hlabel : ∀ k < 5, longName[64 * k]? = some 63 ∧ 64 * k + 1 + 63 ≤ longName.length := by decide +kernel
  have hstep : ∀ k < 5, ∀ ls, NameAt longName (64 * k + 64) ls 0 321 →
      NameAt longName (64 * k) (window longName (64 * k + 1) 63 :: ls) 0 321 := fun k hk ls hrest =>
    .label (hlabel k hk).1 (by decide) (by decide) (hlabel k hk).2 hrest
  have hroot : NameAt longName (64 * 4 + 64) [] 0 321 := .root (by decide +kernel)
  exact ⟨_, hstep 0 (by decide) _ (hstep 1 (by decide) _ (hstep 2 (by decide) _ (hstep 3 (by decide) _
    (hstep 4 (by decide) _ hroot)))), by decide +kernel⟩

/-- The byte 0x40 is followed as a pointer, and a name of 321 bytes is accepted. -/
theorem reserved_and_long_accepted :
    (parseQname [0x40, 2, 0] 0 = ok ([], 2) ∧ ¬ AcceptsRfc1035 [0x40, 2, 0] 0) ∧
      (∃ qname, parseQname longName 0 = ok (qname, 321)) ∧ ¬ AcceptsRfc1035 longName 0 := by
  have hreserved : parseQname [0x40, 2, 0] 0 = ok ([], 2) := by decide +kernel
  obtain ⟨ls, hname, hlen⟩ := nameAt_longName
  have hlong : parseQname longName 0 = ok (dotted ls, 321) := parseQname_eq_ok.mpr ⟨ls, 0, hname, by decide, rfl⟩
  refine ⟨⟨hreserved, fun h => ?_⟩, ⟨_, hlong⟩, fun h => ?_⟩
  · obtain ⟨ls', hstrict, _⟩ := h _ _ hreserved
    exact hstrict.not_reserved .here rfl (by decide)
  · obtain ⟨ls', hstrict, _, hle⟩ := h _ _ hlong
    obtain ⟨j, e, hname'⟩ := hstrict.nameAt
    obtain ⟨rfl, _, _⟩ := hname.unique hname'
    omega

end MiniDns.Dns.DnsPacket
