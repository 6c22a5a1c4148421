import MiniDns.Dnssec
import MiniDns.Lib.Blocks

/-! The bytes that `sign_rrset` signs, as a function of the order of the records. The records are written in the
order they come in, each behind the same head and its length, so two orders agree only where the blocks of any two
records do. -/
namespace MiniDns
open Lib Lib.Outcome Dns DnsRecord DnssecKeys
set_option autoImplicit false

/-! ## What is signed -/

/-- What `sign_rrset` hands to the signer for a record set that is not empty. -/
def dataToSign (rt : Runtime) (key : SigningKey) (records : List DnsRecord) (signerName : Text)
    (ttl inception expiration : UInt32) : Bytes :=
  match records with
  -- `records[0]` panics, and nothing is signed
  | [] => []
  | first :: _ => signedData rt key first records signerName ttl inception expiration

def recordHead (rt : Runtime) (owner : Text) (rtype : UInt16) (ttl : UInt32) : Bytes :=
  canonicalName rt owner ++ bytes16 rtype ++ bytes16 1 ++ bytes32 ttl

def IsRrset (owner : Text) (rtype : UInt16) (records : List DnsRecord) : Prop :=
  records ≠ [] ∧ ∀ r ∈ records, r.domain = owner ∧ r.recordType = rtype

section Data
variable {rt : Runtime} {keys : DnssecKeys} {key : SigningKey} {owner signerName : Text} {rtype : UInt16}
variable {ttl inception expiration : UInt32} {records : List DnsRecord}

theorem signRrset_signs {sign : Bytes → Bytes} {first : DnsRecord} (hkey : keys.keys.head? = some key)
    (hsign : rt.sign key.privateKey = some sign) (hfirst : records.head? = some first) :
    signRrset rt keys records signerName ttl inception expiration =
      ok (.rrsig first.domain first.recordType key.algorithm (rrsigLabels first.domain) ttl expiration inception
        key.keyTag signerName (sign (dataToSign rt key records signerName ttl inception expiration)) ttl) := by
  obtain ⟨others, hkeys⟩ := List.head?_eq_some_iff.mp hkey
  obtain ⟨rest, rfl⟩ := List.head?_eq_some_iff.mp hfirst
  rw [signRrset, hkeys]
  dsimp only
  rw [hsign]
  rfl

/-- The signed data of a set: a part of its own, then one framed rdata for each record. -/
theorem dataToSign_eq (h : IsRrset owner rtype records) :
    dataToSign rt key records signerName ttl inception expiration =
      bytes16 rtype ++ [key.algorithm, rrsigLabels owner] ++ bytes32 ttl ++ bytes32 expiration ++
        bytes32 inception ++ bytes16 key.keyTag ++ canonicalName rt signerName ++
        records.flatMap fun r => recordHead rt owner rtype ttl ++ frame (canonicalRdata rt r) := by
  obtain ⟨hne, hset⟩ := h
  obtain ⟨first, rest, rfl⟩ := List.exists_cons_of_ne_nil hne
  obtain ⟨hdomain, htype⟩ := hset first List.mem_cons_self
  rw [dataToSign, signedData, hdomain, htype, List.append_cancel_left_eq]
  refine List.flatMap_congr fun r hr => ?_
  obtain ⟨hdomain, htype⟩ := hset r hr
  rw [hdomain, htype, recordHead, frame]
  simp only [List.append_assoc]

theorem IsRrset.of_perm {records' : List DnsRecord} (h : IsRrset owner rtype records) (hperm : records'.Perm records) :
    IsRrset owner rtype records' := by
  refine ⟨fun hnil => h.1 ?_, fun r hr => h.2 r (hperm.mem_iff.mp hr)⟩
  rw [hnil] at hperm
  exact hperm.nil_eq.symm

end Data

/-! ## Order -/

def OrderFree (rt : Runtime) (key : SigningKey) (records : List DnsRecord) (signerName : Text)
    (ttl inception expiration : UInt32) : Prop :=
  ∀ records' : List DnsRecord, records'.Perm records →
    dataToSign rt key records' signerName ttl inception expiration =
      dataToSign rt key records signerName ttl inception expiration

section Order
variable {rt : Runtime} {key : SigningKey} {owner signerName : Text} {rtype : UInt16}
variable {ttl inception expiration : UInt32} {records : List DnsRecord}

theorem orderFree_iff (h : IsRrset owner rtype records) : OrderFree rt key records signerName ttl inception expiration ↔
    ∀ r ∈ records, ∀ s ∈ records, canonicalRdata rt r = canonicalRdata rt s ∨
      Overlong (recordHead rt owner rtype ttl) (canonicalRdata rt r) (canonicalRdata rt s) := by
  have hblocks : OrderFree rt key records signerName ttl inception expiration ↔
      ∀ records' : List DnsRecord, records'.Perm records →
        (records'.flatMap fun r => recordHead rt owner rtype ttl ++ frame (canonicalRdata rt r)) =
          records.flatMap fun r => recordHead rt owner rtype ttl ++ frame (canonicalRdata rt r) := by
    -- what stands in front of the records is the same for every order
    refine forall₂_congr fun records' hperm => ?_
    rw [dataToSign_eq h, dataToSign_eq (h.of_perm hperm), List.append_cancel_left_eq]
  rw [hblocks, flatMap_perm_iff]
  simp only [frames_commute_iff]

theorem orderFree_iff_of_fits (h : IsRrset owner rtype records)
    (hfits : ∀ r ∈ records, (canonicalRdata rt r).length < 65536) :
    OrderFree rt key records signerName ttl inception expiration ↔
      ∀ r ∈ records, ∀ s ∈ records, canonicalRdata rt r = canonicalRdata rt s := by
  rw [orderFree_iff h]
  refine forall₄_congr fun r hr s hs => or_iff_left fun hlong => ?_
  exact absurd hlong.le_max (not_le.mpr (max_lt (hfits r hr) (hfits s hs)))

end Order

/-- **The signed data does not depend on the order of a record set exactly if all its records have the same canonical
rdata, rdata that overflows its length field apart.** -/
theorem signed_data_orderFree_iff (rt : Runtime) (key : SigningKey) (records : List DnsRecord) (owner : Text)
    (rtype : UInt16) (signerName : Text) (ttl inception expiration : UInt32) (h : IsRrset owner rtype records) :
    (∀ keys sign first, keys.keys.head? = some key → rt.sign key.privateKey = some sign → records.head? = some first →
      signRrset rt keys records signerName ttl inception expiration =
        ok (.rrsig first.domain first.recordType key.algorithm (rrsigLabels first.domain) ttl expiration inception
          key.keyTag signerName (sign (dataToSign rt key records signerName ttl inception expiration)) ttl)) ∧
    (OrderFree rt key records signerName ttl inception expiration ↔
      ∀ r ∈ records, ∀ s ∈ records, canonicalRdata rt r = canonicalRdata rt s ∨
        Overlong (recordHead rt owner rtype ttl) (canonicalRdata rt r) (canonicalRdata rt s)) ∧
    ((∀ r ∈ records, (canonicalRdata rt r).length < 65536) →
      (OrderFree rt key records signerName ttl inception expiration ↔
        ∀ r ∈ records, ∀ s ∈ records, canonicalRdata rt r = canonicalRdata rt s)) :=
  ⟨fun _ _ _ hkey hsign hfirst => signRrset_signs hkey hsign hfirst, orderFree_iff h, orderFree_iff_of_fits h⟩

def edKey : SigningKey := ⟨['s'], 257, 15, [], []⟩

def hostAddress (host : UInt8) : DnsRecord := .a ['s'] ⟨10, 0, 0, host⟩ 60

def nameServer (host : Char) : DnsRecord := .ns ['s'] [host] 60

/-- Two NS records that differ in the case of their server only are signed in either order alike; two A records
are not. -/
theorem signed_data_orderFree_iff_pairs :
    OrderFree .ascii edKey [nameServer 'n', nameServer 'N'] ['s'] 60 0 1 ∧
      ¬ OrderFree .ascii edKey [hostAddress 1, hostAddress 2] ['s'] 60 0 1 := by
  have hservers := signed_data_orderFree_iff .ascii edKey [nameServer 'n', nameServer 'N'] ['s'] typeNs ['s'] 60 0 1
    ⟨by decide, by decide⟩
  have hhosts := signed_data_orderFree_iff .ascii edKey [hostAddress 1, hostAddress 2] ['s'] typeA ['s'] 60 0 1
    ⟨by decide, by decide⟩
  refine ⟨(hservers.2.2 (by decide)).mpr (by decide), fun hfree => ?_⟩
  exact absurd ((hhosts.2.2 (by decide)).mp hfree) (by decide)

/-- Two A records of `s`: swapped, they are signed as other bytes. -/
theorem signed_data_keeps_order :
    IsRrset ['s'] typeA [hostAddress 1, hostAddress 2] ∧
      dataToSign .ascii edKey [hostAddress 2, hostAddress 1] ['s'] 60 0 1 ≠
        dataToSign .ascii edKey [hostAddress 1, hostAddress 2] ['s'] 60 0 1 ∧
      ¬ OrderFree .ascii edKey [hostAddress 1, hostAddress 2] ['s'] 60 0 1 := by
  have hne : dataToSign .ascii edKey [hostAddress 2, hostAddress 1] ['s'] 60 0 1 ≠
      dataToSign .ascii edKey [hostAddress 1, hostAddress 2] ['s'] 60 0 1 := by
    decide
  exact ⟨⟨by decide, by decide⟩, hne, fun hfree => hne (hfree _ (List.Perm.swap _ _ _))⟩

end MiniDns
