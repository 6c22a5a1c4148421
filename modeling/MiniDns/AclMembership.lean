import MiniDns.Lib.BitPrefix
import MiniDns.Settings

/-! The transfer ACL as a set of networks: what an entry denotes, when a client is inside, and that the
comparison by bytes and a mask is the comparison of leading bits. -/
namespace MiniDns
open Lib Lib.Outcome Dns
set_option autoImplicit false

/-! ## Networks -/

/-- The client is of the family of the network and has its first `bits` bits, read as one big-endian number. -/
def InNetwork (bits : ℕ) : IpAddr → IpAddr → Prop
  | .v4 net, .v4 ip => bigEndian net.octets / 2 ^ (32 - bits) = bigEndian ip.octets / 2 ^ (32 - bits)
  | .v6 net, .v6 ip => bigEndian net.octets / 2 ^ (128 - bits) = bigEndian ip.octets / 2 ^ (128 - bits)
  | _, _ => False

instance (bits : ℕ) (net ip : IpAddr) : Decidable (InNetwork bits net ip) :=
  match net, ip with
  | .v4 _, .v4 _ | .v6 _, .v6 _ => inferInstanceAs (Decidable (_ = _))
  | .v4 _, .v6 _ | .v6 _, .v4 _ => isFalse id

/-- The network that an entry stands for; an address alone is a network of full length. -/
inductive Denotes : Text → IpAddr → ℕ → Prop
  | v4 {addrPart lengthPart : Text} {addr : Ipv4Addr} {bits : UInt8} : '/' ∉ addrPart →
      parseIpv4Addr addrPart = some addr → parseU8 lengthPart = some bits → bits.toNat ≤ 32 →
      Denotes (addrPart ++ '/' :: lengthPart) (.v4 addr) bits.toNat
  | v6 {addrPart lengthPart : Text} {addr : Ipv6Addr} {bits : UInt8} : '/' ∉ addrPart →
      parseIpv6Addr addrPart = some addr → parseU8 lengthPart = some bits → bits.toNat ≤ 128 →
      Denotes (addrPart ++ '/' :: lengthPart) (.v6 addr) bits.toNat
  | bareV4 {s : Text} {addr : Ipv4Addr} : '/' ∉ s → parseIpv4Addr s = some addr → Denotes s (.v4 addr) 32
  | bareV6 {s : Text} {addr : Ipv6Addr} : '/' ∉ s → parseIpv6Addr s = some addr → Denotes s (.v6 addr) 128

def Cidr.net : Cidr → IpAddr
  | .v4 addr _ _ => .v4 addr
  | .v6 addr _ _ => .v6 addr

def Cidr.length : Cidr → ℕ
  | .v4 _ bits _ => bits.toNat
  | .v6 _ bits _ => bits.toNat

/-! ## The comparison -/

theorem slice_front {bs : Bytes} {n : ℕ} (h : n ≤ bs.length) :
    (slice bs 0 n : Outcome Empty Bytes) = ok (bs.take n) := by
  rw [slice_of_le (Nat.zero_le n) h]
  rfl

/-- **Bytes and a mask compare the leading bits, and no index is out of range.** -/
theorem matchesNet_eq {net ip : Bytes} {bits : ℕ} (hlen : net.length = ip.length) (hbits : bits ≤ 8 * ip.length) :
    matchesNet net bits ip = ok (decide (leadingBits bits net = leadingBits bits ip)) := by
  have hsplit : bits = 8 * (bits / 8) + bits % 8 := by omega
  unfold matchesNet
  dsimp only
  rw [slice_front (show bits / 8 ≤ ip.length by omega), ok_bind, slice_front (show bits / 8 ≤ net.length by omega),
    ok_bind]
  by_cases hrem : bits % 8 = 0
  · have hiff : leadingBits bits net = leadingBits bits ip ↔ net.take (bits / 8) = ip.take (bits / 8) := by
      have h := leadingBits_bytes_eq_iff hlen (bits / 8)
      rwa [show 8 * (bits / 8) = bits by omega] at h
    by_cases hhead : ip.take (bits / 8) = net.take (bits / 8)
    · rw [if_neg (not_not.mpr hhead), if_pos hrem, decide_eq_true (hiff.mpr hhead.symm)]
      rfl
    · rw [if_pos hhead, decide_eq_false fun heq => hhead (hiff.mp heq).symm]
      rfl
  · have hlt : bits / 8 < ip.length := by omega
    obtain ⟨a, ha⟩ : ∃ a, net[bits / 8]? = some a := ⟨_, List.getElem?_eq_getElem (hlen.symm ▸ hlt)⟩
    obtain ⟨b, hb⟩ : ∃ b, ip[bits / 8]? = some b := ⟨_, List.getElem?_eq_getElem hlt⟩
    have hiff := leadingBits_rest_eq_iff hlen ha hb (Nat.mod_lt bits (show 0 < 8 by omega))
    rw [← hsplit] at hiff
    have hmask := mask_eq_iff (Nat.mod_lt bits (show 0 < 8 by omega)) (Nat.pos_of_ne_zero hrem) b a
    by_cases hhead : ip.take (bits / 8) = net.take (bits / 8)
    · rw [if_neg (not_not.mpr hhead), if_neg hrem, byteAt_eq_ok.mpr hb, ok_bind, byteAt_eq_ok.mpr ha, ok_bind]
      simp only [pure_eq_ok, Outcome.ok.injEq, hiff, hhead, true_and]
      rw [Bool.beq_eq_decide_eq, decide_eq_decide, hmask, eq_comm]
    · rw [if_pos hhead, decide_eq_false fun heq => hhead (hiff.mp heq).1.symm]
      rfl

theorem covers_eq (cidr : Cidr) (ip : IpAddr) :
    Acl.covers cidr ip = ok (decide (InNetwork cidr.length cidr.net ip)) := by
  cases cidr with
  | v4 addr bits le =>
    cases ip with
    | v4 ip => exact matchesNet_eq rfl le
    | v6 ip => rfl
  | v6 addr bits le =>
    cases ip with
    | v4 ip => rfl
    | v6 ip =>
      have hbits : bits.toNat ≤ 8 * ip.octets.length := by
        rw [ip.size]
        exact le
      have h := matchesNet_eq (addr.size.trans ip.size.symm) hbits
      simp only [leadingBits, addr.size, ip.size] at h
      exact h

theorem isAllowed_eq (acl : Acl) (ip : IpAddr) :
    acl.isAllowed ip = ok (acl.entries.any fun cidr => decide (InNetwork cidr.length cidr.net ip)) := by
  unfold Acl.isAllowed
  induction acl.entries with
  | nil => rfl
  | cons cidr entries ih =>
    rw [Acl.isAllowedFrom, covers_eq, ok_bind, List.any_cons]
    cases decide (InNetwork cidr.length cidr.net ip) with
    | true => rfl
    | false => exact ih

/-! ## Entries -/

theorem parseIpv6Addr_of_parseIpv4Addr {s : Text} {addr : Ipv4Addr} (h : parseIpv4Addr s = some addr) :
    parseIpv6Addr s = none := by
  obtain ⟨ip, hip, _⟩ := Option.map_eq_some_iff.mp h
  unfold parseIpv4 at hip
  split at hip
  · cases hip
  · unfold parseAll at hip
    split at hip
    · rename_i hread
      rw [parseIpv6Addr, parseIpv6_of_readIpv4 hread]
      rfl
    · cases hip

theorem parseIpv4Addr_of_parseIpv6Addr {s : Text} {addr : Ipv6Addr} (h : parseIpv6Addr s = some addr) :
    parseIpv4Addr s = none := by
  cases h4 : parseIpv4Addr s with
  | none => rfl
  | some _ =>
    rw [parseIpv6Addr_of_parseIpv4Addr h4] at h
    cases h

theorem parseCidr_of_denotes {s : Text} {net : IpAddr} {bits : ℕ} (h : Denotes s net bits) :
    ∃ cidr, parseCidr s = ok cidr ∧ cidr.net = net ∧ cidr.length = bits := by
  cases h with
  | v4 hcut haddr hbits hle =>
    refine ⟨.v4 _ _ hle, ?_, rfl, rfl⟩
    rw [parseCidr, splitOnce_eq_some.mpr ⟨rfl, hcut⟩]
    simp [hbits, haddr, ofOption, hle]
  | v6 hcut haddr hbits hle =>
    refine ⟨.v6 _ _ hle, ?_, rfl, rfl⟩
    rw [parseCidr, splitOnce_eq_some.mpr ⟨rfl, hcut⟩]
    simp [hbits, haddr, parseIpv4Addr_of_parseIpv6Addr haddr, ofOption, hle]
  | bareV4 hcut haddr =>
    refine ⟨.v4 _ 32 (by decide), ?_, rfl, rfl⟩
    rw [parseCidr, splitOnce_eq_none.mpr hcut]
    simp [haddr]
  | bareV6 hcut haddr =>
    refine ⟨.v6 _ 128 (by decide), ?_, rfl, rfl⟩
    rw [parseCidr, splitOnce_eq_none.mpr hcut]
    simp [haddr, parseIpv4Addr_of_parseIpv6Addr haddr]

theorem denotes_of_parseCidr {s : Text} {cidr : Cidr} (h : parseCidr s = ok cidr) :
    Denotes s cidr.net cidr.length := by
  unfold parseCidr at h
  split at h
  · rename_i addrPart lengthPart hcut
    obtain ⟨rfl, hfree⟩ := splitOnce_eq_some.mp hcut
    obtain ⟨bits, hbits, h⟩ := Outcome.bind_eq_ok.mp h
    have hbits' : parseU8 lengthPart = some bits := by
      cases hread : parseU8 lengthPart with
      | none => rw [hread] at hbits; cases hbits
      | some n => rw [hread] at hbits; exact congrArg some (Outcome.ok.inj hbits)
    split at h
    · rename_i haddr
      split at h
      · rename_i hle
        obtain rfl := Outcome.ok.inj h
        exact .v4 hfree haddr hbits' hle
      · cases h
    · rename_i haddr
      split at h
      · rename_i hle
        obtain rfl := Outcome.ok.inj h
        exact .v6 hfree haddr hbits' hle
      · cases h
    · cases h
  · rename_i hcut
    have hfree := splitOnce_eq_none.mp hcut
    split at h
    · rename_i haddr
      obtain rfl := Outcome.ok.inj h
      exact .bareV4 hfree haddr
    · rename_i haddr
      obtain rfl := Outcome.ok.inj h
      exact .bareV6 hfree haddr
    · cases h

theorem not_denotes_nil {net : IpAddr} {bits : ℕ} : ¬ Denotes [] net bits := by
  intro h
  obtain ⟨cidr, hcidr, _⟩ := parseCidr_of_denotes h
  have hnone : parseCidr [] = err (.notCidr []) := by decide +kernel
  rw [hnone] at hcidr
  cases hcidr

/-- The entries of an ACL that was accepted are the networks that its specs denote. -/
theorem mem_parseSpecs {specs : List Text} {entries : List Cidr} (h : Acl.parseSpecs specs = ok entries)
    (net : IpAddr) (bits : ℕ) :
    (∃ cidr ∈ entries, cidr.net = net ∧ cidr.length = bits) ↔ ∃ spec ∈ specs, Denotes (trim spec) net bits := by
  induction specs generalizing entries with
  | nil =>
    obtain rfl := Outcome.ok.inj h
    simp
  | cons spec specs ih =>
    rw [Acl.parseSpecs] at h
    rw [List.exists_mem_cons_iff]
    split at h
    · rename_i hblank
      -- a blank entry is skipped, and it denotes nothing
      rw [ih h, hblank]
      exact ⟨.inr, fun hor => hor.resolve_left not_denotes_nil⟩
    · rcases handle_eq_ok.mp h with ⟨cidr, hcidr, hrest⟩ | ⟨e, _, herr⟩
      · obtain ⟨rest, hspecs, hpure⟩ := Outcome.bind_eq_ok.mp hrest
        obtain rfl := Outcome.ok.inj hpure
        rw [List.exists_mem_cons_iff, ih hspecs]
        refine or_congr_left ⟨?_, fun hden => ?_⟩
        · rintro ⟨rfl, rfl⟩
          exact denotes_of_parseCidr hcidr
        · obtain ⟨cidr', hcidr', hnet⟩ := parseCidr_of_denotes hden
          rw [hcidr] at hcidr'
          obtain rfl := Outcome.ok.inj hcidr'
          exact hnet
      · cases herr

theorem isAllowed_iff {specs : List Text} {acl : Acl} (h : Acl.parse specs = ok acl) (ip : IpAddr) :
    acl.isAllowed ip = ok true ↔ ∃ spec ∈ specs, ∃ net bits, Denotes (trim spec) net bits ∧ InNetwork bits net ip := by
  obtain ⟨entries, hentries, hacl⟩ := Outcome.bind_eq_ok.mp h
  obtain rfl := Outcome.ok.inj hacl
  rw [isAllowed_eq, Outcome.ok.injEq, List.any_eq_true]
  simp only [decide_eq_true_eq]
  constructor
  · rintro ⟨cidr, hmem, hin⟩
    obtain ⟨spec, hspec, hden⟩ := (mem_parseSpecs hentries _ _).mp ⟨cidr, hmem, rfl, rfl⟩
    exact ⟨spec, hspec, cidr.net, cidr.length, hden, hin⟩
  · rintro ⟨spec, hspec, net, bits, hden, hin⟩
    obtain ⟨cidr, hmem, rfl, rfl⟩ := (mem_parseSpecs hentries net bits).mpr ⟨spec, hspec, hden⟩
    exact ⟨cidr, hmem, hin⟩

/-- **The ACL allows exactly the clients of the networks that its specs denote; its comparisons never leave an
address for any length that is accepted; and more specs never take a client away.** -/
theorem acl_is_cidr_membership (specs : List Text) (acl : Acl) (h : Acl.parse specs = ok acl) (ip : IpAddr) :
    (∃ allowed, acl.isAllowed ip = ok allowed) ∧
      (acl.isAllowed ip = ok true ↔
        ∃ spec ∈ specs, ∃ net bits, Denotes (trim spec) net bits ∧ InNetwork bits net ip) ∧
      (∀ (net ip : Ipv4Addr) (bits : ℕ), bits ≤ 32 → matchesNet net.octets bits ip.octets ≠ panic) ∧
      (∀ (net ip : Ipv6Addr) (bits : ℕ), bits ≤ 128 → matchesNet net.octets bits ip.octets ≠ panic) ∧
      ∀ specs' acl', specs ⊆ specs' → Acl.parse specs' = ok acl' →
        acl.isAllowed ip = ok true → acl'.isAllowed ip = ok true := by
  refine ⟨⟨_, isAllowed_eq acl ip⟩, isAllowed_iff h ip, fun net ip bits hle => ?_, fun net ip bits hle => ?_, ?_⟩
  · rw [matchesNet_eq (show net.octets.length = ip.octets.length from rfl) hle]
    simp
  · rw [matchesNet_eq (net.size.trans ip.size.symm) (by rw [ip.size]; exact hle)]
    simp
  · intro specs' acl' hsub h' hallowed
    obtain ⟨spec, hspec, hden⟩ := (isAllowed_iff h ip).mp hallowed
    exact (isAllowed_iff h' ip).mpr ⟨spec, hsub hspec, hden⟩

def twoSpecs : List Text := [" 10.0.0.0/8".toList, [], "192.168.1.5".toList]

/-- A network of eight bits and a host, with a blank entry between them. -/
theorem acl_is_cidr_membership_twoSpecs : ∃ acl, Acl.parse twoSpecs = ok acl ∧
    (acl.isAllowed (.v4 ⟨10, 1, 2, 3⟩) = ok true ↔
        ∃ spec ∈ twoSpecs, ∃ net bits, Denotes (trim spec) net bits ∧ InNetwork bits net (.v4 ⟨10, 1, 2, 3⟩)) ∧
      acl.isAllowed (.v4 ⟨10, 1, 2, 3⟩) = ok true ∧ acl.isAllowed (.v4 ⟨192, 168, 1, 6⟩) = ok false := by
  have hspecs : Acl.parseSpecs twoSpecs =
      ok [.v4 ⟨10, 0, 0, 0⟩ 8 (by decide), .v4 ⟨192, 168, 1, 5⟩ 32 (by decide)] := by
    decide +kernel
  have hparse : Acl.parse twoSpecs = ok ⟨[.v4 ⟨10, 0, 0, 0⟩ 8 (by decide), .v4 ⟨192, 168, 1, 5⟩ 32 (by decide)]⟩ := by
    rw [Acl.parse, hspecs]
    rfl
  exact ⟨_, hparse, (acl_is_cidr_membership twoSpecs _ hparse _).2.1, by decide, by decide⟩

end MiniDns
