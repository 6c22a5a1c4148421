import MiniDns.NegativeAnswers
import MiniDns.OwnQuestion

/-! Signatures over the answers. The signer is the zone of the name asked for, while a CNAME chain may lead
into other zones; synthesized AAAA records come after the signatures; and the keys have a zone name of
their own. -/
namespace MiniDns
open Lib Lib.Outcome Dns DnsRecord DnsPacket
set_option autoImplicit false

/-! ## What a signature covers -/

/-- Owner, covered type and signer of an RRSIG record. -/
def signatureOf : DnsRecord → Option ((Text × UInt16) × Text)
  | .rrsig domain typeCovered _ _ _ _ _ _ signerName _ _ => some ((domain, typeCovered), signerName)
  | _ => none

def covers (key : Text × UInt16) (r : DnsRecord) : Bool := (signatureOf r).any fun signature => signature.1 == key

/-- Every record set other than RRSIG is covered by one RRSIG, and its signer is the zone of the owner. -/
def RrsetsSigned (zones : ZoneSet) (answers : List DnsRecord) : Prop :=
  ∀ r ∈ answers, r.recordType ≠ typeRrsig →
    answers.countP (covers (r.domain, r.recordType)) = 1 ∧
      ∃ zone, zones.find r.domain = some zone ∧ ∀ signature ∈ answers, covers (r.domain, r.recordType) signature = true →
        signatureOf signature = some ((r.domain, r.recordType), zone.origin)

def IsApex (zones : ZoneSet) (name : Text) : Prop := ∃ zone ∈ zones.zones, zone.origin = name

/-- The record sets are signed, and a DNSKEY query at an apex is answered with keys of that apex. -/
structure SignedConsistently (zones : ZoneSet) (name : Text) (qtype : UInt16) (answers : List DnsRecord) : Prop where
  signed : RrsetsSigned zones answers
  keys : qtype = typeDnskey → IsApex zones name →
    (∃ r ∈ answers, r.recordType = typeDnskey) ∧ ∀ r ∈ answers, r.recordType = typeDnskey → r.domain = name

theorem covers_eq_false {key : Text × UInt16} {r : DnsRecord} (h : r.recordType ≠ typeRrsig) :
    covers key r = false := by
  cases r with
  | rrsig => exact absurd rfl h
  | _ => rfl

theorem covers_eq_true {key : Text × UInt16} {r : DnsRecord} :
    covers key r = true ↔ ∃ signer, signatureOf r = some (key, signer) := by
  rw [covers]
  cases hsignature : signatureOf r with
  | none => simp
  | some signature => simp [Prod.ext_iff]

theorem rrsig_of_signatureOf {r : DnsRecord} {key : Text × UInt16} {signer : Text}
    (h : signatureOf r = some (key, signer)) : r.recordType = typeRrsig ∧ r.isOpt = false ∧ r.domain = key.1 := by
  cases r with
  | rrsig =>
    obtain ⟨rfl, _⟩ := Prod.mk.inj (Option.some.inj h)
    exact ⟨rfl, rfl, rfl⟩
  | _ => cases h

theorem not_signed_of_no_rrsig {zones : ZoneSet} {answers : List DnsRecord} (hne : answers ≠ [])
    (h : ∀ r ∈ answers, r.recordType ≠ typeRrsig) : ¬ RrsetsSigned zones answers := by
  intro hsigned
  obtain ⟨r, hr⟩ := List.exists_mem_of_ne_nil _ hne
  have hone := (hsigned r hr (h r hr)).1
  rw [List.countP_eq_zero.mpr fun s hs => by rw [covers_eq_false (h s hs)]; exact Bool.false_ne_true] at hone
  cases hone

/-! ## Record sets -/

def rrset (answers : List DnsRecord) (key : Text × UInt16) : List DnsRecord :=
  answers.filter fun r => (r.domain, r.recordType) = key

theorem groupRrsets_eq (answers : List DnsRecord) : groupRrsets answers =
    (answers.map fun r => ((r.domain, r.recordType), r)).foldl (fun map entry => pushEntry map entry.1 entry.2) ∅ := by
  rw [List.foldl_map]
  rfl

theorem lookup_groupRrsets (answers : List DnsRecord) (key : Text × UInt16) :
    (groupRrsets answers).lookup key = if rrset answers key = [] then none else some (rrset answers key) := by
  have hvalues : valuesOf (answers.map fun r => ((r.domain, r.recordType), r)) key = rrset answers key := by
    rw [valuesOf, List.filter_map, List.map_map, rrset]
    exact List.map_id _
  rw [groupRrsets_eq, lookup_foldl_pushEntry, hvalues]
  rfl

theorem mem_groupRrsets {answers : List DnsRecord} {key : Text × UInt16} {records : List DnsRecord} :
    ⟨key, records⟩ ∈ (groupRrsets answers).entries ↔ records = rrset answers key ∧ records ≠ [] := by
  rw [← AList.mem_lookup_iff, lookup_groupRrsets, Option.mem_def]
  split
  · rename_i hnil
    constructor
    · exact nofun
    · rintro ⟨rfl, hne⟩
      exact absurd hnil hne
  · rename_i hne
    rw [Option.some.injEq]
    constructor
    · rintro rfl
      exact ⟨rfl, hne⟩
    · rintro ⟨rfl, _⟩
      rfl

theorem mem_keys_groupRrsets {answers : List DnsRecord} {r : DnsRecord} (hr : r ∈ answers) :
    (r.domain, r.recordType) ∈ (groupRrsets answers).keys := by
  have hmem : r ∈ rrset answers (r.domain, r.recordType) := List.mem_filter.mpr ⟨hr, decide_eq_true rfl⟩
  exact List.mem_map.mpr ⟨⟨_, _⟩, mem_groupRrsets.mpr ⟨rfl, List.ne_nil_of_mem hmem⟩, rfl⟩

/-! ## Signing -/

def CanSign (rt : Runtime) (keys : DnssecKeys) : Prop :=
  ∃ key rest sign, keys.keys = key :: rest ∧ rt.sign key.privateKey = some sign

section Signing
variable {rt : Runtime} {keys : DnssecKeys} {signer : Text}

theorem signRrset_ok (hcan : CanSign rt keys) (first : DnsRecord) (records : List DnsRecord) (signer : Text)
    (ttl inception expiration : UInt32) : ∃ rrsig,
      keys.signRrset rt (first :: records) signer ttl inception expiration = ok rrsig ∧
        signatureOf rrsig = some ((first.domain, first.recordType), signer) := by
  obtain ⟨key, rest, sign, hkeys, hsign⟩ := hcan
  simp only [DnssecKeys.signRrset, hkeys, hsign]
  exact ⟨_, rfl, rfl⟩

theorem signatureOf_withDomain {r : DnsRecord} {owner : Text} {t : UInt16}
    (h : signatureOf r = some ((owner, t), signer))
    (domain : Text) : signatureOf (r.withDomain domain) = some ((domain, t), signer) := by
  cases r with
  | rrsig =>
    obtain ⟨hkey, hsigner⟩ := Prod.mk.inj (Option.some.inj h)
    obtain ⟨_, rfl⟩ := Prod.mk.inj hkey
    subst hsigner
    rfl
  | _ => cases h

theorem signRrsets_ok (hcan : CanSign rt keys) (signer : Text) (unixTime : UInt32)
    {rrsets : List (Sigma fun _ : Text × UInt16 => List DnsRecord)}
    (h : ∀ e ∈ rrsets, e.2 ≠ [] ∧ ∀ r ∈ e.2, r.recordType = e.1.2) : ∃ rrsigs,
      signRrsets rt keys signer unixTime rrsets = ok rrsigs ∧
        rrsigs.map signatureOf = rrsets.map fun e => some (e.1, signer) := by
  -- the signature of a set is made for its first record, and then moved to the owner of the set
  induction rrsets with
  | nil => exact ⟨[], rfl, rfl⟩
  | cons e rrsets ih =>
    obtain ⟨key, records⟩ := e
    obtain ⟨rrsigs, hrrsigs, hsame⟩ := ih fun e he => h e (List.mem_cons_of_mem _ he)
    obtain ⟨hne, htype⟩ := h ⟨key, records⟩ List.mem_cons_self
    cases records with
    | nil => exact absurd rfl hne
    | cons first records =>
      obtain ⟨rrsig, hrrsig, hsignature⟩ := signRrset_ok hcan first records signer
        ((minTtl (first :: records)).getD 3600) unixTime (unixTime + rrsigValidity)
      refine ⟨rrsig.withDomain key.1 :: rrsigs, ?_, ?_⟩
      · rw [signRrsets, hrrsig, handle, hrrsigs]
        rfl
      · rw [List.map_cons, List.map_cons, hsame, signatureOf_withDomain hsignature,
          htype first List.mem_cons_self]

theorem countP_covers {rrsigs : List DnsRecord} {rrsets : List (Sigma fun _ : Text × UInt16 => List DnsRecord)}
    (h : rrsigs.map signatureOf = rrsets.map fun e => some (e.1, signer)) (key : Text × UInt16) :
    rrsigs.countP (covers key) = (rrsets.map Sigma.fst).count key := by
  have hcovers : covers key = (fun o : Option ((Text × UInt16) × Text) => o.any fun s => s.1 == key) ∘ signatureOf := rfl
  rw [hcovers, ← List.countP_map, h, List.countP_map, List.count, List.countP_map]
  rfl

theorem mem_signatures {rrsigs : List DnsRecord} {rrsets : List (Sigma fun _ : Text × UInt16 => List DnsRecord)}
    (h : rrsigs.map signatureOf = rrsets.map fun e => some (e.1, signer)) {r : DnsRecord} (hr : r ∈ rrsigs) :
    ∃ key, signatureOf r = some (key, signer) := by
  have hmem := List.mem_map_of_mem (f := signatureOf) hr
  rw [h] at hmem
  obtain ⟨e, _, he⟩ := List.mem_map.mp hmem
  exact ⟨e.1, he.symm⟩

structure SignedBy (signer : Text) (answers rrsigs : List DnsRecord) : Prop where
  signer : ∀ r ∈ rrsigs, ∃ key, signatureOf r = some (key, signer)
  covered : ∀ r ∈ answers, rrsigs.countP (covers (r.domain, r.recordType)) = 1

theorem signedBy_of_signRrsets (hcan : CanSign rt keys) (unixTime : UInt32) (answers : List DnsRecord) (signer : Text) :
    ∃ rrsigs,
    signRrsets rt keys signer unixTime (rt.iterate (groupRrsets answers).entries) = ok rrsigs ∧
      SignedBy signer answers rrsigs := by
  have hperm := rt.iterate_perm (groupRrsets answers).entries
  have hsets : ∀ e ∈ rt.iterate (groupRrsets answers).entries, e.2 ≠ [] ∧ ∀ r ∈ e.2, r.recordType = e.1.2 := by
    rintro ⟨key, records⟩ he
    obtain ⟨rfl, hne⟩ := mem_groupRrsets.mp (hperm.mem_iff.mp he)
    refine ⟨hne, fun r hr => ?_⟩
    rw [← of_decide_eq_true (List.mem_filter.mp hr).2]
  obtain ⟨rrsigs, hrrsigs, hsame⟩ := signRrsets_ok hcan signer unixTime hsets
  refine ⟨rrsigs, hrrsigs, fun r hr => mem_signatures hsame hr, fun r hr => ?_⟩
  -- the keys of the map are distinct, so the set of the record is signed once
  rw [countP_covers hsame, (hperm.map Sigma.fst).count_eq]
  exact List.count_eq_one_of_mem (groupRrsets answers).nodupKeys (mem_keys_groupRrsets hr)

end Signing

/-! ## Signed answers -/

def InZone (zones : ZoneSet) (origin name : Text) : Prop := ∃ zone, zones.find name = some zone ∧ zone.origin = origin

section Signed
variable {rt : Runtime} {zones : ZoneSet} {signer : Text} {answers rrsigs : List DnsRecord}

theorem SignedBy.rrsetsSigned_iff (h : SignedBy signer answers rrsigs)
    (hplain : ∀ r ∈ answers, r.recordType ≠ typeRrsig → answers.countP (covers (r.domain, r.recordType)) = 0) :
    RrsetsSigned zones (answers ++ rrsigs) ↔
      ∀ r ∈ answers, r.recordType ≠ typeRrsig → InZone zones signer r.domain := by
  constructor
  · intro hsigned r hr htype
    obtain ⟨_, zone, hzone, hsigner⟩ := hsigned r (List.mem_append_left _ hr) htype
    have hpos : 0 < rrsigs.countP (covers (r.domain, r.recordType)) := by
      rw [h.covered r hr]
      exact Nat.one_pos
    obtain ⟨s, hs, hcovers⟩ := List.countP_pos_iff.mp hpos
    have hsignature := hsigner s (List.mem_append_right _ hs) hcovers
    obtain ⟨key, hkey⟩ := h.signer s hs
    rw [hkey] at hsignature
    exact ⟨zone, hzone, (Prod.mk.inj (Option.some.inj hsignature)).2.symm⟩
  · intro hzones r hr htype
    obtain hr | hr := List.mem_append.mp hr
    · obtain ⟨zone, hzone, rfl⟩ := hzones r hr htype
      have hnone := hplain r hr htype
      refine ⟨by rw [List.countP_append, hnone, h.covered r hr], zone, hzone, fun s hs hcovers => ?_⟩
      obtain hs | hs := List.mem_append.mp hs
      · exact absurd hcovers (List.countP_eq_zero.mp hnone s hs)
      · obtain ⟨key, hkey⟩ := h.signer s hs
        obtain ⟨signer, hsignature⟩ := covers_eq_true.mp hcovers
        rw [hkey, Option.some.injEq, Prod.mk.injEq] at hsignature
        rw [hkey, hsignature.1]
    · obtain ⟨key, hkey⟩ := h.signer r hr
      exact absurd (rrsig_of_signatureOf hkey).1 htype

variable {qtype : UInt16} {name last : Text} {links : List (Text × DnsRecord)} {tail : List DnsRecord}

/-- No RRSIG that stands in the zone covers another record of the chain. -/
theorem chain_countP_covers (h : AnswerChain rt zones qtype 16 [] name links last tail) {r : DnsRecord}
    (hr : r ∈ (links.map fun l => l.2.withDomain l.1) ++ tail) (htype : r.recordType ≠ typeRrsig) :
    ((links.map fun l => l.2.withDomain l.1) ++ tail).countP (covers (r.domain, r.recordType)) = 0 := by
  rw [List.countP_eq_zero]
  intro s hs hcovers
  obtain ⟨signer, hsignature⟩ := covers_eq_true.mp hcovers
  obtain ⟨hsig, hopt, hdomain⟩ := rrsig_of_signatureOf hsignature
  obtain ⟨_, _, _, hcname⟩ | ⟨hs, hqtype⟩ := h.mem_cases hs
  · rw [hsig] at hcname
    cases hcname
  -- the RRSIG is of the asked type, so the other record is a CNAME, and of an earlier name
  obtain ⟨l, hl, hname, _⟩ | ⟨_, hqtype'⟩ := h.mem_cases hr
  · have hlast := (h.domain_of_mem_tail hs).resolve_left (by rw [hopt]; exact Bool.false_ne_true)
    refine (h.fresh (List.ne_nil_of_mem hs)).2.2 (List.mem_map.mpr ⟨l, hl, ?_⟩)
    rw [← hname, ← hlast, hdomain]
  · exact htype (hqtype'.trans (hqtype.symm.trans hsig))

/-- The names of the chain, and the owners of the records at its end, are in one zone. -/
structure ChainInZone (zones : ZoneSet) (origin : Text) (links : List (Text × DnsRecord)) (tail : List DnsRecord) :
    Prop where
  links : ∀ l ∈ links, InZone zones origin l.1
  tail : ∀ r ∈ tail, r.recordType ≠ typeRrsig → InZone zones origin r.domain

theorem chain_inZone_iff (h : AnswerChain rt zones qtype 16 [] name links last tail) (origin : Text) :
    (∀ r ∈ (links.map fun l => l.2.withDomain l.1) ++ tail, r.recordType ≠ typeRrsig → InZone zones origin r.domain) ↔
      ChainInZone zones origin links tail := by
  constructor
  · intro hall
    refine ⟨fun l hl => ?_, fun r hr => hall r (List.mem_append_right _ hr)⟩
    obtain ⟨owner, aliasName, ttl, hcname⟩ := h.chain.cname l hl
    have hl' := hall (l.2.withDomain l.1) (List.mem_append_left _ (List.mem_map_of_mem hl))
    rw [hcname] at hl'
    exact hl' (show typeCname ≠ typeRrsig by decide)
  · intro hzone r hr htype
    obtain ⟨l, hl, hdomain, _⟩ | ⟨hr, _⟩ := h.mem_cases hr
    · rw [hdomain]
      exact hzone.links l hl
    · exact hzone.tail r hr htype

end Signed

/-! ## What `apply_dnssec` and `apply_dns64` do -/

section Apply
variable {rt : Runtime} {zones : ZoneSet} {keys : DnssecKeys} {response p : DnsPacket} {qname : Text}
variable {qtype : UInt16}

theorem isApex_iff {name : Text} :
    ((zones.find name).any fun zone => zone.origin == name) = true ↔ IsApex zones name := by
  constructor
  · intro h
    cases hfind : zones.find name with
    | none =>
      rw [hfind] at h
      cases h
    | some zone =>
      rw [hfind] at h
      exact ⟨zone, (ZoneSet.matches_of_find hfind).1, beq_iff_eq.mp h⟩
  · rintro ⟨zone, hzone, rfl⟩
    have hmatches : (zone.origin.isEmpty || underSuffix zone.origin zone.origin) = true := find_iff.mpr (.inr (.inl rfl))
    cases hfind : zones.find zone.origin with
    | none => exact absurd hmatches (List.find?_eq_none.mp hfind zone hzone)
    | some found =>
      -- the zone that is found has no shorter origin, and its origin is a suffix of the name
      have hlonger := weight_le_of_find? zones.sorted hfind zone hzone hmatches
      obtain ⟨front, hfront⟩ := (ZoneSet.matches_of_find hfind).2.suffix
      have hlen := congrArg (fun s => (utf8 s).length) hfront
      simp only [utf8_append, List.length_append] at hlen
      exact beq_iff_eq.mpr (eq_of_suffix_of_length ⟨front, hfront⟩ (List.suffix_refl _) (by omega))

theorem inZone_of_isApex {name : Text} (h : IsApex zones name) : InZone zones name name := by
  have hfind := isApex_iff.mpr h
  cases hzone : zones.find name with
  | none =>
    rw [hzone] at hfind
    cases hfind
  | some zone =>
    rw [hzone] at hfind
    exact ⟨zone, hzone, beq_iff_eq.mp hfind⟩

theorem applyDnssec_apex (hcan : CanSign rt keys) {unixTime : UInt32} (hapex : IsApex zones (rt.toLowercase qname))
    (h : applyDnssec rt response zones qname typeDnskey keys unixTime = ok p) : ∃ key rest rrsig,
      keys.keys = key :: rest ∧ p.answers = keys.dnskeyRecords 3600 ++ [rrsig] ∧
        signatureOf rrsig = some ((key.zoneName, typeDnskey), rt.toLowercase qname) := by
  obtain ⟨key, rest, sign, hkeys, hsign⟩ := hcan
  have hrecords : keys.dnskeyRecords 3600 = key.dnskeyRecord 3600 :: rest.map fun key => key.dnskeyRecord 3600 := by
    rw [DnssecKeys.dnskeyRecords, hkeys]
    rfl
  obtain ⟨rrsig, hrrsig, hsignature⟩ := signRrset_ok ⟨key, rest, sign, hkeys, hsign⟩ (key.dnskeyRecord 3600)
    (rest.map fun key => key.dnskeyRecord 3600) (rt.toLowercase qname) 3600 unixTime (unixTime + rrsigValidity)
  rw [← hrecords] at hrrsig
  have hcond : typeDnskey = typeDnskey ∧
      ((zones.find (rt.toLowercase qname)).any fun z => z.origin == rt.toLowercase qname) ∧
      keys.dnskeyRecords 3600 ≠ [] := ⟨rfl, isApex_iff.mpr hapex, by rw [hrecords]; exact List.cons_ne_nil _ _⟩
  rw [applyDnssec] at h
  dsimp only at h
  rw [if_pos hcond, hrrsig] at h
  obtain rfl := Outcome.ok.inj h
  exact ⟨key, rest, rrsig, hkeys, rfl, hsignature⟩

theorem applyDnssec_empty {unixTime : UInt32} (hapex : ¬ (qtype = typeDnskey ∧ IsApex zones (rt.toLowercase qname)))
    (h : response.answers = []) : applyDnssec rt response zones qname qtype keys unixTime = ok response := by
  rw [applyDnssec]
  dsimp only
  rw [if_neg fun hcond => hapex ⟨hcond.1, isApex_iff.mp hcond.2.1⟩, if_pos (List.isEmpty_iff.mpr h)]

theorem applyDnssec_signed (hcan : CanSign rt keys) {unixTime : UInt32}
    (hapex : ¬ (qtype = typeDnskey ∧ IsApex zones (rt.toLowercase qname))) {zone : AuthZone}
    (hzone : zones.find (rt.toLowercase qname) = some zone) (horigin : zone.origin ≠ []) (hne : response.answers ≠ [])
    (h : applyDnssec rt response zones qname qtype keys unixTime = ok p) : ∃ rrsigs,
      p.answers = response.answers ++ rrsigs ∧ SignedBy zone.origin response.answers rrsigs := by
  obtain ⟨rrsigs, hrrsigs, hsigned⟩ := signedBy_of_signRrsets hcan unixTime response.answers zone.origin
  have hsome : rrsigs ≠ [] := by
    rintro rfl
    obtain ⟨r, hr⟩ := List.exists_mem_of_ne_nil _ hne
    cases hsigned.covered r hr
  rw [applyDnssec] at h
  dsimp only at h
  rw [if_neg fun hcond => hapex ⟨hcond.1, isApex_iff.mp hcond.2.1⟩, if_neg (mt List.isEmpty_iff.mp hne), hzone] at h
  dsimp only [Option.map_some, Option.getD_some] at h
  rw [if_neg (mt List.isEmpty_iff.mp horigin), hrrsigs, ok_bind, if_neg (mt List.isEmpty_iff.mp hsome)] at h
  obtain rfl := Outcome.ok.inj h
  exact ⟨rrsigs, rfl, hsigned⟩

/-- The zone of the name has an A record for it, and not by a wildcard. -/
def HasAddress (zones : ZoneSet) (name : Text) : Prop :=
  ∃ zone records, zones.find name = some zone ∧ zone.records.lookup name = some records ∧
    ∃ r ∈ records, r.recordType = typeA

theorem a_of_recordType {r : DnsRecord} (h : r.recordType = typeA) : ∃ owner addr ttl, r = .a owner addr ttl := by
  cases r with
  | a owner addr ttl => exact ⟨owner, addr, ttl, rfl⟩
  | _ => exact absurd h (by simp [recordType, typeA, typeAaaa, typeCname, typeMx, typeTxt, typeNs, typeSoa,
      typeSrv, typePtr, typeCaa, typeOpt, typeDnskey, typeRrsig, typeDs, typeNsec])

theorem applyDns64_answers (net : Ipv6Addr) (haaaa : ∀ r ∈ response.answers, r.recordType ≠ typeAaaa) {zone : AuthZone}
    {records : List DnsRecord} (hzone : zones.find (rt.toLowercase qname) = some zone)
    (hrecords : zone.records.lookup (rt.toLowercase qname) = some records) (ha : ∃ r ∈ records, r.recordType = typeA) :
    (applyDns64 rt response zones qname net).answers = synthesizeAll net (rt.toLowercase qname) records := by
  obtain ⟨r, hr, htype⟩ := ha
  have hany : (response.answers.any fun r => r.recordType == typeAaaa) = false := by
    rw [List.any_eq_false]
    exact fun r hr htype => haaaa r hr (beq_iff_eq.mp htype)
  have hall : (records.all fun r => r.recordType != typeA) = false := by
    rw [List.all_eq_false]
    exact ⟨r, hr, by simp [htype]⟩
  simp only [applyDns64, hany, hzone, hrecords, hall]
  rfl

theorem applyDns64_replaces (net : Ipv6Addr) (haaaa : ∀ r ∈ response.answers, r.recordType ≠ typeAaaa)
    (haddress : HasAddress zones (rt.toLowercase qname)) :
    (applyDns64 rt response zones qname net).answers ≠ [] ∧
      ∀ r ∈ (applyDns64 rt response zones qname net).answers, r.recordType ≠ typeRrsig := by
  obtain ⟨zone, records, hzone, hrecords, r, hr, htype⟩ := haddress
  rw [applyDns64_answers net haaaa hzone hrecords ⟨r, hr, htype⟩]
  obtain ⟨owner, addr, ttl, rfl⟩ := a_of_recordType htype
  refine ⟨List.ne_nil_of_mem (List.mem_filterMap.mpr ⟨_, hr, rfl⟩), fun r' hr' => ?_⟩
  obtain ⟨r₀, _, hr₀⟩ := List.mem_filterMap.mp hr'
  split at hr₀
  · obtain rfl := Option.some.inj hr₀
    exact show typeAaaa ≠ typeRrsig by decide
  · cases hr₀

theorem applyDns64_keeps (net : Ipv6Addr)
    (h : (∃ r ∈ response.answers, r.recordType = typeAaaa) ∨ ¬ HasAddress zones (rt.toLowercase qname)) :
    applyDns64 rt response zones qname net = response := by
  rw [applyDns64]
  split
  · rfl
  rename_i hany
  obtain ⟨r, hr, htype⟩ | hnone := h
  · refine absurd ?_ hany
    rw [List.any_eq_true]
    exact ⟨r, hr, beq_iff_eq.mpr htype⟩
  dsimp only
  split
  · rfl
  rename_i zone hzone
  split
  · rfl
  rename_i records hrecords
  split
  · rfl
  rename_i hall
  rw [Bool.not_eq_true, List.all_eq_false] at hall
  obtain ⟨r, hr, htype⟩ := hall
  exact absurd ⟨zone, records, hzone, hrecords, r, hr, by simpa using htype⟩ hnone

end Apply

/-! ## Local answers -/

/-- DNS64 puts synthesized records in the place of the answers: they have no AAAA record. -/
def Dns64Replaces (rt : Runtime) (st : ServerState) (question : DnsQuestion) (answers : List DnsRecord) : Prop :=
  st.dns64Prefix.isSome ∧ question.qtype = typeAaaa ∧ (∀ r ∈ answers, r.recordType ≠ typeAaaa) ∧
    HasAddress st.zones (rt.toLowercase question.qname)

/-- The keys are those of the apex whose keys are asked for. Any other answer is a chain that stays in the
zone of its first name, and DNS64 does not replace it. -/
def DnssecAgrees (rt : Runtime) (st : ServerState) (keys : DnssecKeys) (question : DnsQuestion) : Prop :=
  let name := rt.toLowercase question.qname
  (question.qtype = typeDnskey ∧ IsApex st.zones name → ∀ key ∈ keys.keys, key.zoneName = name) ∧
  (¬ (question.qtype = typeDnskey ∧ IsApex st.zones name) → ∃ links last tail zone,
    AnswerChain rt st.zones question.qtype 16 [] name links last tail ∧ st.zones.find name = some zone ∧
      ChainInZone st.zones zone.origin links tail ∧ ¬ Dns64Replaces rt st question tail)

section Local
variable {rt : Runtime} {st : ServerState} {keys : DnssecKeys} {request p : DnsPacket} {question : DnsQuestion}
variable {unixTime : UInt32} {name last : Text} {links : List (Text × DnsRecord)} {tail rrsigs : List DnsRecord}

theorem localResponse_cases (hq : request.questions.head? = some question)
    (h : st.localResponse rt unixTime request = ok p) : ∃ signed,
      st.signedResponse rt unixTime request = ok signed ∧
        (¬ Dns64Replaces rt st question signed.answers ∧ p = signed ∨
          Dns64Replaces rt st question signed.answers ∧ p.answers ≠ [] ∧ ∀ r ∈ p.answers, r.recordType ≠ typeRrsig) := by
  unfold ServerState.localResponse at h
  obtain ⟨signed, hsigned, h⟩ := bind_eq_ok.mp h
  refine ⟨signed, hsigned, ?_⟩
  rw [hq] at h
  cases hnet : st.dns64Prefix with
  | none =>
    rw [hnet] at h
    refine .inl ⟨fun hreplaces => ?_, (Outcome.ok.inj h).symm⟩
    rw [Dns64Replaces, hnet] at hreplaces
    cases hreplaces.1
  | some net =>
    rw [hnet] at h
    dsimp only at h
    split at h
    · rename_i htype
      obtain rfl := Outcome.ok.inj h
      by_cases hreplaces : Dns64Replaces rt st question signed.answers
      · exact .inr ⟨hreplaces, applyDns64_replaces net hreplaces.2.2.1 hreplaces.2.2.2⟩
      · refine .inl ⟨hreplaces, applyDns64_keeps net ?_⟩
        by_contra hnot
        rw [not_or, not_not] at hnot
        refine hreplaces ⟨by rw [hnet]; rfl, htype, fun r hr haaaa => hnot.1 ⟨r, hr, haaaa⟩, hnot.2⟩
    · rename_i htype
      exact .inl ⟨fun hreplaces => htype hreplaces.2.1, (Outcome.ok.inj h).symm⟩

theorem dns64Replaces_iff (h : AnswerChain rt st.zones question.qtype 16 [] name links last tail)
    (hrrsigs : ∀ r ∈ rrsigs, r.recordType = typeRrsig) :
    Dns64Replaces rt st question ((links.map fun l => l.2.withDomain l.1) ++ tail ++ rrsigs) ↔
      Dns64Replaces rt st question tail := by
  refine and_congr_right fun _ => and_congr_right fun _ => and_congr_left fun _ =>
    ⟨fun hall r hr => ?_, fun hall r hr => ?_⟩
  · exact hall r (List.mem_append_left _ (List.mem_append_right _ hr))
  · obtain hr | hr := List.mem_append.mp hr
    · obtain ⟨l, hl, _, hcname⟩ | ⟨hr, _⟩ := h.mem_cases hr
      · rw [hcname]
        decide
      · exact hall r hr
    · rw [hrrsigs r hr]
      decide

/-- The keys are signed as one record set, with the owner of the first. -/
theorem signedConsistently_keys_iff {zones : ZoneSet} {key : SigningKey} {rest : List SigningKey} {rrsig : DnsRecord}
    (hkeys : keys.keys = key :: rest) (hsignature : signatureOf rrsig = some ((key.zoneName, typeDnskey), name))
    (hapex : IsApex zones name) :
    SignedConsistently zones name typeDnskey (keys.dnskeyRecords 3600 ++ [rrsig]) ↔
      ∀ key ∈ keys.keys, key.zoneName = name := by
  have hmem : ∀ k ∈ keys.keys, k.dnskeyRecord 3600 ∈ keys.dnskeyRecords 3600 := fun k hk => List.mem_map_of_mem hk
  have hfirst : key ∈ keys.keys := by
    rw [hkeys]
    exact List.mem_cons_self
  constructor
  · intro h k hk
    exact (h.keys rfl hapex).2 _ (List.mem_append_left _ (hmem k hk)) rfl
  · intro hall
    -- all keys are at the apex, and the first key has given its owner to the signature
    have hdnskey : ∀ r ∈ keys.dnskeyRecords 3600, r.recordType = typeDnskey ∧ r.domain = name := by
      intro r hr
      obtain ⟨k, hk, rfl⟩ := List.mem_map.mp hr
      exact ⟨rfl, hall k hk⟩
    have hplain : ∀ key, (keys.dnskeyRecords 3600).countP (covers key) = 0 := by
      intro key
      refine List.countP_eq_zero.mpr fun r hr => ?_
      rw [covers_eq_false (by rw [(hdnskey r hr).1]; decide)]
      exact Bool.false_ne_true
    rw [hall key hfirst] at hsignature
    have hsigned : SignedBy name (keys.dnskeyRecords 3600) [rrsig] := by
      refine ⟨fun r hr => ⟨(name, typeDnskey), by rw [List.mem_singleton.mp hr, hsignature]⟩, fun r hr => ?_⟩
      rw [(hdnskey r hr).1, (hdnskey r hr).2, List.countP_singleton, if_pos (covers_eq_true.mpr ⟨name, hsignature⟩)]
    refine ⟨(hsigned.rrsetsSigned_iff fun r _ _ => hplain _).mpr fun r hr _ => ?_, fun _ _ => ⟨?_, fun r hr htype => ?_⟩⟩
    · rw [(hdnskey r hr).2]
      exact inZone_of_isApex hapex
    · exact ⟨_, List.mem_append_left _ (hmem key hfirst), rfl⟩
    · obtain hr | hr := List.mem_append.mp hr
      · exact (hdnskey r hr).2
      · rw [List.mem_singleton.mp hr, (rrsig_of_signatureOf hsignature).1] at htype
        cases htype

/-- The chain is determined by the name, so the condition can be checked on the chain of the answers. -/
theorem dnssecAgrees_iff {zone : AuthZone}
    (hapex : ¬ (question.qtype = typeDnskey ∧ IsApex st.zones (rt.toLowercase question.qname)))
    (h : AnswerChain rt st.zones question.qtype 16 [] (rt.toLowercase question.qname) links last tail)
    (hzone : st.zones.find (rt.toLowercase question.qname) = some zone) :
    DnssecAgrees rt st keys question ↔
      ChainInZone st.zones zone.origin links tail ∧ ¬ Dns64Replaces rt st question tail := by
  constructor
  · rintro ⟨_, hagrees⟩
    obtain ⟨links', last', tail', zone', h', hzone', hin, hnot⟩ := hagrees hapex
    obtain ⟨rfl, rfl, rfl⟩ := h.unique h'
    obtain rfl := Option.some.inj (hzone.symm.trans hzone')
    exact ⟨hin, hnot⟩
  · rintro ⟨hin, hnot⟩
    exact ⟨fun hkeys => absurd hkeys hapex, fun _ => ⟨links, last, tail, zone, h, hzone, hin, hnot⟩⟩

theorem not_dnssecAgrees
    (hapex : ¬ (question.qtype = typeDnskey ∧ IsApex st.zones (rt.toLowercase question.qname)))
    (h : AnswerChain rt st.zones question.qtype 16 [] (rt.toLowercase question.qname) links last tail)
    (hreplaces : Dns64Replaces rt st question tail) : ¬ DnssecAgrees rt st keys question := by
  rintro ⟨_, hagrees⟩
  obtain ⟨links', last', tail', _, h', _, _, hnot⟩ := hagrees hapex
  obtain ⟨_, _, rfl⟩ := h.unique h'
  exact hnot hreplaces

theorem signedConsistently_keys_local_iff (hcan : CanSign rt keys)
    (hapex : question.qtype = typeDnskey ∧ IsApex st.zones (rt.toLowercase question.qname)) {response : DnsPacket}
    (h : applyDnssec rt response st.zones question.qname question.qtype keys unixTime = ok p) :
    SignedConsistently st.zones (rt.toLowercase question.qname) question.qtype p.answers ↔
      DnssecAgrees rt st keys question := by
  rw [hapex.1] at h
  obtain ⟨key, rest, rrsig, hkeys, hanswers, hsignature⟩ := applyDnssec_apex hcan hapex.2 h
  rw [hanswers, hapex.1, signedConsistently_keys_iff hkeys hsignature hapex.2]
  exact ⟨fun hall => ⟨fun _ => hall, fun hnot => absurd hapex hnot⟩, fun hagrees => hagrees.1 hapex⟩

theorem signedConsistently_local_iff (hq : request.questions.head? = some question) (hkeys : st.dnssecKeys = some keys)
    (hcan : CanSign rt keys) (horigins : ∀ zone ∈ st.zones.zones, zone.origin ≠ [])
    (h : st.localResponse rt unixTime request = ok p) (hne : p.answers ≠ []) :
    SignedConsistently st.zones (rt.toLowercase question.qname) question.qtype p.answers ↔
      DnssecAgrees rt st keys question := by
  obtain ⟨signed, hsigned, hcases⟩ := localResponse_cases hq h
  have hdnssec : applyDnssec rt (buildResponse rt request st.zones) st.zones question.qname question.qtype keys unixTime =
      ok signed := by
    rw [ServerState.signedResponse, hkeys, hq] at hsigned
    exact hsigned
  by_cases hapex : question.qtype = typeDnskey ∧ IsApex st.zones (rt.toLowercase question.qname)
  · obtain ⟨_, rfl⟩ | ⟨hreplaces, _⟩ := hcases
    · exact signedConsistently_keys_local_iff hcan hapex hdnssec
    · exact absurd (hapex.1.symm.trans hreplaces.2.1) (by decide)
  obtain ⟨links, last, tail, hchain, hanswers⟩ := built_along_chain rt st.zones hq rfl rfl
  by_cases hnil : (buildResponse rt request st.zones).answers = []
  · -- nothing is signed, so the answers are the synthesized ones
    rw [applyDnssec_empty hapex hnil] at hdnssec
    obtain rfl := Outcome.ok.inj hdnssec
    obtain ⟨_, rfl⟩ | ⟨hreplaces, _, hplain⟩ := hcases
    · exact absurd hnil hne
    · rw [hanswers, ← List.append_nil (_ ++ tail), dns64Replaces_iff hchain (List.forall_mem_nil _)] at hreplaces
      exact iff_of_false (fun hsigned => not_signed_of_no_rrsig hne hplain hsigned.signed)
        (not_dnssecAgrees hapex hchain hreplaces)
  obtain ⟨s, hs⟩ := exists_settled rt st.zones hq
  obtain ⟨zone, hzone, _⟩ := recordsAt_ne_none.mp fun hnone => hnil (hs.answers.trans (hs.denied hnone).2.2)
  obtain ⟨rrsigs, hsections, hby⟩ := applyDnssec_signed hcan hapex hzone
    (horigins zone (ZoneSet.matches_of_find hzone).1) hnil hdnssec
  rw [hanswers] at hsections hby
  rw [hsections, dns64Replaces_iff hchain fun r hr => (rrsig_of_signatureOf (hby.signer r hr).choose_spec).1] at hcases
  obtain ⟨hnot, rfl⟩ | ⟨hreplaces, _, hplain⟩ := hcases
  · have hsigned := (hby.rrsetsSigned_iff fun r hr => chain_countP_covers hchain hr).trans
      (chain_inZone_iff hchain zone.origin)
    rw [dnssecAgrees_iff hapex hchain hzone, and_iff_left hnot, ← hsigned, hsections]
    exact ⟨fun hall => hall.signed, fun hall => ⟨hall, fun htype hat => absurd ⟨htype, hat⟩ hapex⟩⟩
  · exact iff_of_false (fun hsigned => not_signed_of_no_rrsig hne hplain hsigned.signed)
      (not_dnssecAgrees hapex hchain hreplaces)

theorem answers_offered (st : ServerState) (p : DnsPacket) : (st.offerRecursion p).answers = p.answers := by
  rw [ServerState.offerRecursion]
  split <;> rfl

theorem answers_own {m : Moment} {client : IpAddr} {transport : Transport}
    (hq : request.questions.head? = some question)
    (hlocal : ¬ (transport = .tcp ∧ question.qtype = typeAxfr ∨ st.blocks rt request))
    (h : st.ownPacket rt m request client transport = ok p) : ∃ response,
      st.localResponse rt m.unixTime request = ok response ∧ p.answers = response.answers := by
  rw [not_or] at hlocal
  rw [ServerState.ownPacket, hq] at h
  dsimp only at h
  rw [if_neg hlocal.1, if_neg hlocal.2] at h
  obtain ⟨response, hresponse, h⟩ := bind_eq_ok.mp h
  obtain rfl := Outcome.ok.inj h
  refine ⟨response, hresponse, ?_⟩
  split
  · rfl
  · exact answers_offered st response

end Local

/-- **The answers of a signing server are signed consistently exactly when keys, chain and DNS64 agree.** -/
theorem answers_signed_iff (rt : Runtime) (st st' : ServerState) (m : Moment) (req : Bytes) (client : IpAddr)
    (transport : Transport) (request : DnsPacket) (question : DnsQuestion) (keys : DnssecKeys) (reply : Bytes)
    (additionals : List DnsRecord) (hreq : fromBytes req = ok request) (hq : request.questions.head? = some question)
    (h : st.resolve rt m req client transport = ok (some reply, st'))
    (hsource : st.source rt m request transport = .own additionals)
    (hlocal : ¬ (transport = .tcp ∧ question.qtype = typeAxfr ∨ st.blocks rt request))
    (hkeys : st.dnssecKeys = some keys) (hcan : CanSign rt keys) (horigins : ∀ zone ∈ st.zones.zones, zone.origin ≠ []) :
    ∃ p, st.ownPacket rt m request client transport = ok p ∧ reply = encode p transport ∧
      (p.answers ≠ [] →
        (SignedConsistently st.zones (rt.toLowercase question.qname) question.qtype p.answers ↔
          DnssecAgrees rt st keys question)) := by
  have hyields := ServerState.resolve_source hreq h
  rw [hsource] at hyields
  obtain ⟨p, hown, _, hreply⟩ := hyields
  obtain ⟨response, hresponse, hanswers⟩ := answers_own hq hlocal hown
  refine ⟨p, hown, hreply, fun hne => ?_⟩
  rw [hanswers] at hne ⊢
  exact signedConsistently_local_iff hq hkeys hcan horigins hresponse hne

/-- The ASCII runtime with a signing function that returns no bytes. -/
def signing : Runtime := { Runtime.ascii with sign := fun _ => some fun _ => [] }

def signingKey (zoneName : Text) : SigningKey := ⟨zoneName, 257, 15, [], []⟩

/-- A server of the zone `s` whose key has a zone name of its own. -/
def apexServer (zoneName : Text) : ServerState :=
  { forwardingServer with
    zones := .fromSingle ['s'] ((∅ : Zone).insert ['s'] [.a ['s'] ⟨1, 2, 3, 4⟩ 60])
    dnssecKeys := some ⟨[signingKey zoneName]⟩ }

def apexQuery : Bytes := [0, 1, 0, 0, 0, 1, 0, 0, 0, 0, 0, 0, 1, 115, 0, 0, 48, 0, 1]

def apexRequest : DnsPacket := ⟨⟨1, 0, 1, 0, 0, 0⟩, [⟨['s'], 48, 1⟩], [], [], []⟩

theorem answers_signed_iff_apexServer : ∃ reply st' p,
    (apexServer ['s']).resolve signing ⟨0, 0, .leader none, 0⟩ apexQuery (letterClient 1) .udp = ok (some reply, st') ∧
      (apexServer ['s']).ownPacket signing ⟨0, 0, .leader none, 0⟩ apexRequest (letterClient 1) .udp = ok p ∧
      p.answers ≠ [] ∧
      (SignedConsistently (apexServer ['s']).zones ['s'] typeDnskey p.answers ↔
        DnssecAgrees signing (apexServer ['s']) ⟨[signingKey ['s']]⟩ ⟨['s'], 48, 1⟩) := by
  have hrun : ((apexServer ['s']).resolve signing ⟨0, 0, .leader none, 0⟩ apexQuery (letterClient 1) .udp >>=
      fun r => ok r.1.isSome) = ok true := by
    decide
  obtain ⟨⟨reply, st'⟩, h, heq⟩ := bind_eq_ok.mp hrun
  obtain ⟨reply, rfl⟩ := Option.isSome_iff_exists.mp (Outcome.ok.inj heq)
  obtain ⟨p, hown, _, hiff⟩ := answers_signed_iff signing (apexServer ['s']) st' ⟨0, 0, .leader none, 0⟩ apexQuery
    (letterClient 1) .udp apexRequest ⟨['s'], 48, 1⟩ ⟨[signingKey ['s']]⟩ reply [] (by decide) rfl h rfl
    (by decide) rfl ⟨_, _, _, rfl, rfl⟩ (by decide)
  have hanswers : ((apexServer ['s']).ownPacket signing ⟨0, 0, .leader none, 0⟩ apexRequest (letterClient 1) .udp >>=
      fun p => ok p.answers.isEmpty) = ok false := by
    decide
  rw [hown, ok_bind] at hanswers
  have hne : p.answers ≠ [] := by
    intro hnil
    rw [hnil] at hanswers
    cases hanswers
  exact ⟨reply, st', p, h, hown, hne, hiff hne⟩

/-- A server of the zone `s` with the key of `example.com` answers for the keys of `s` with a key of
`example.com`. -/
theorem apex_keys_of_another_zone : ∃ p,
    (apexServer "example.com".toList).source signing ⟨0, 0, .leader none, 0⟩ apexRequest .udp = .own [] ∧
      (apexServer "example.com".toList).ownPacket signing ⟨0, 0, .leader none, 0⟩ apexRequest (letterClient 1) .udp =
        ok p ∧
      (p.answers.map fun r => (r.domain, r.recordType)) =
        [("example.com".toList, typeDnskey), ("example.com".toList, typeRrsig)] ∧
      ¬ SignedConsistently (apexServer "example.com".toList).zones ['s'] typeDnskey p.answers := by
  have hrun : ((apexServer "example.com".toList).ownPacket signing ⟨0, 0, .leader none, 0⟩ apexRequest (letterClient 1)
      .udp >>= fun p => ok (p.answers.map fun r => (r.domain, r.recordType))) =
        ok [("example.com".toList, typeDnskey), ("example.com".toList, typeRrsig)] := by
    decide
  obtain ⟨p, hown, hanswers⟩ := bind_eq_ok.mp hrun
  replace hanswers := Outcome.ok.inj hanswers
  refine ⟨p, rfl, hown, hanswers, fun hsigned => ?_⟩
  obtain ⟨⟨r, hr, htype⟩, howner⟩ := hsigned.keys rfl ⟨⟨['s'], _⟩, List.mem_singleton.mpr rfl, rfl⟩
  have hmem := List.mem_map_of_mem (f := fun r : DnsRecord => (r.domain, r.recordType)) hr
  rw [hanswers, howner r hr htype, htype] at hmem
  exact absurd hmem (by decide)

end MiniDns
