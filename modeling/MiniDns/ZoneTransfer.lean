import MiniDns.Server

/-! What a zone transfer carries: the SOA record of the zone, every other record once, sorted by owner, and the
SOA record again, whatever the order in which the map of the zone is iterated. -/
namespace MiniDns
open Lib Lib.Outcome Dns DnsPacket DnsRecord
set_option autoImplicit false

/-! ## The records of a zone -/

/-- All records of a zone, in the order in which it holds them. -/
def storedRecords (records : Zone) : List DnsRecord := records.entries.flatMap Sigma.snd

def plainRecordsOf (records : Zone) (owner : Text) : List DnsRecord :=
  ((records.lookup owner).getD []).filter fun r => !isSoa r

section Zone
variable {rt : Runtime} {records : Zone}

theorem flatten_values_perm (rt : Runtime) (records : Zone) :
    ((rt.values records).flatten).Perm (storedRecords records) := by
  rw [storedRecords, List.flatMap_def]
  exact ((rt.iterate_perm records.entries).map Sigma.snd).flatten

theorem zoneSoa_of_filter {s : DnsRecord} (h : (storedRecords records).filter isSoa = [s]) :
    zoneSoa rt records = some s := by
  have hperm := (flatten_values_perm rt records).filter isSoa
  -- with one SOA record the order of iteration does not matter
  rw [h, List.perm_singleton] at hperm
  rw [zoneSoa, ← List.head?_filter, hperm]
  rfl

/-! ## Owners -/

def sortedOwners (rt : Runtime) (records : Zone) : List Text :=
  (rt.keys records).insertionSort fun a b => utf8 a ≤ utf8 b

theorem keys_perm (rt : Runtime) (records : Zone) : (rt.keys records).Perm records.keys :=
  (rt.iterate_perm records.entries).map Sigma.fst

theorem sortedOwners_perm (rt : Runtime) (records : Zone) : (sortedOwners rt records).Perm records.keys :=
  (List.perm_insertionSort _ _).trans (keys_perm rt records)

theorem sortedOwners_le (rt : Runtime) (records : Zone) :
    (sortedOwners rt records).Pairwise fun a b => utf8 a ≤ utf8 b := by
  have total : Std.Total fun a b : Text => utf8 a ≤ utf8 b := ⟨fun a b => List.le_total (utf8 a) (utf8 b)⟩
  have trans : IsTrans Text fun a b => utf8 a ≤ utf8 b := ⟨fun a b c hab hbc => List.le_trans hab hbc⟩
  exact List.pairwise_insertionSort _ _

/-- The owners ascend strictly, since each is a key once. -/
theorem sortedOwners_lt (rt : Runtime) (records : Zone) :
    (sortedOwners rt records).Pairwise fun a b => utf8 a < utf8 b := by
  have hnodup : (sortedOwners rt records).Nodup := (sortedOwners_perm rt records).nodup_iff.mpr records.keys_nodup
  refine (List.Pairwise.and (sortedOwners_le rt records) hnodup).imp fun {a b} hab => ?_
  by_contra hnot
  exact hab.2 (utf8_inj (List.le_antisymm hab.1 (Std.not_lt.mp hnot)))

theorem sortedOwners_eq (rt rt' : Runtime) (records : Zone) : sortedOwners rt records = sortedOwners rt' records :=
  List.Perm.eq_of_pairwise (fun _ _ _ _ hab hba => utf8_inj (List.le_antisymm hab hba)) (sortedOwners_le rt records)
    (sortedOwners_le rt' records) ((sortedOwners_perm rt records).trans (sortedOwners_perm rt' records).symm)

/-- Owner by owner, every record that is no SOA is there as often as it is stored. -/
theorem plainRecords_perm {owners : List Text} (h : owners.Perm records.keys) :
    (owners.flatMap (plainRecordsOf records)).Perm ((storedRecords records).filter fun r => !isSoa r) := by
  refine (h.flatMap_right _).trans (List.Perm.of_eq ?_)
  rw [storedRecords, List.filter_flatMap, AList.keys, List.keys, List.flatMap_map]
  refine List.flatMap_congr fun entry hentry => ?_
  have hlookup : records.lookup entry.1 = some entry.2 := AList.mem_lookup_iff.mpr hentry
  rw [plainRecordsOf, hlookup]
  rfl

end Zone

/-! ## The transfer -/

/-- The list of a transfer: the SOA record `s`, the other records by ascending owner, each as often as it is
stored and in the order of its owner, and `s` again. -/
def TransferOf (records : Zone) (s : DnsRecord) (list : List DnsRecord) : Prop :=
  ∃ owners : List Text, (owners.Pairwise fun a b => utf8 a < utf8 b) ∧ (∀ k, k ∈ owners ↔ k ∈ records) ∧
    list = s :: (owners.flatMap (plainRecordsOf records) ++ [s]) ∧
    (owners.flatMap (plainRecordsOf records)).Perm ((storedRecords records).filter fun r => !isSoa r)

theorem transferRecords_eq (rt : Runtime) {zone : AuthZone} {s : DnsRecord}
    (h : (storedRecords zone.records).filter isSoa = [s]) :
    ServerState.transferRecords rt zone =
      s :: ((sortedOwners rt zone.records).flatMap (plainRecordsOf zone.records) ++ [s]) := by
  unfold ServerState.transferRecords
  rw [zoneSoa_of_filter h]
  rfl

theorem transferOf_transferRecords (rt : Runtime) {zone : AuthZone} {s : DnsRecord}
    (h : (storedRecords zone.records).filter isSoa = [s]) :
    TransferOf zone.records s (ServerState.transferRecords rt zone) :=
  ⟨sortedOwners rt zone.records, sortedOwners_lt rt zone.records,
    fun _ => (sortedOwners_perm rt zone.records).mem_iff, transferRecords_eq rt h,
    plainRecords_perm (sortedOwners_perm rt zone.records)⟩

theorem transferRecords_congr (rt rt' : Runtime) {zone : AuthZone} {s : DnsRecord}
    (h : (storedRecords zone.records).filter isSoa = [s]) :
    ServerState.transferRecords rt' zone = ServerState.transferRecords rt zone := by
  rw [transferRecords_eq rt h, transferRecords_eq rt' h, sortedOwners_eq rt' rt]

theorem refused_rcode (request : DnsPacket) : (synthResponse request [] 5).header.flags &&& 0x000F = 5 := by
  simp only [synthResponse, flagRd, flagRa, ← UInt16.toNat_inj]
  simp [UInt16.toNat_and, UInt16.toNat_or, Nat.and_or_distrib_right, Nat.and_assoc]

section Reply
variable {rt : Runtime} {st : ServerState} {req : Bytes} {request : DnsPacket} {question : DnsQuestion}
  {client : IpAddr}

theorem tryAxfr_of_transferResponse {p : DnsPacket} (hreq : fromBytes req = ok request)
    (hquestion : request.questions.head? = some question) (htype : question.qtype = typeAxfr)
    (hp : st.transferResponse rt request question client = ok p) :
    st.tryAxfr rt req client = ok (some p.toBytes) := by
  obtain ⟨rest, hquestions⟩ := List.head?_eq_some_iff.mp hquestion
  simp only [ServerState.tryAxfr, hreq, handle, hquestions]
  rw [if_neg (not_not.mpr htype), hp]
  rfl

theorem transferResponse_of_allowed (request : DnsPacket) {zone : AuthZone}
    (hallowed : st.axfrAcl.isAllowed client = ok true)
    (hzone : st.zones.find (rt.toLowercase question.qname) = some zone) :
    ∃ p, st.transferResponse rt request question client = ok p ∧
      p.answers = ServerState.transferRecords rt zone := by
  simp only [ServerState.transferResponse, hallowed, ok_bind, if_true, hzone]
  exact ⟨_, rfl, rfl⟩

/-- The reply to an allowed client is the same for every order of iteration. -/
theorem transferResponse_congr {rt' : Runtime} {zone : AuthZone} {s : DnsRecord}
    (hlower : rt'.toLowercase = rt.toLowercase) (hzone : st.zones.find (rt.toLowercase question.qname) = some zone)
    (hsoa : (storedRecords zone.records).filter isSoa = [s]) :
    st.transferResponse rt' request question client = st.transferResponse rt request question client := by
  simp only [ServerState.transferResponse, hlower, hzone, transferRecords_congr rt rt' hsoa]

theorem transferResponse_of_refused (hrefused : st.axfrAcl.isAllowed client = ok false) :
    st.transferResponse rt request question client = ok (synthResponse request [] 5) := by
  simp only [ServerState.transferResponse, hrefused, ok_bind]
  rfl

end Reply

/-- **A zone transfer is complete, exact and deterministic, and a refusal says nothing about the zones.** -/
theorem zone_transfer_exact (rt : Runtime) (st : ServerState) (req : Bytes) (request : DnsPacket)
    (question : DnsQuestion) (client : IpAddr) (hreq : fromBytes req = ok request)
    (hquestion : request.questions.head? = some question) (htype : question.qtype = typeAxfr) :
    (∀ zone s, st.axfrAcl.isAllowed client = ok true →
      st.zones.find (rt.toLowercase question.qname) = some zone →
      (storedRecords zone.records).filter isSoa = [s] →
      (∃ p : DnsPacket, st.tryAxfr rt req client = ok (some p.toBytes) ∧ TransferOf zone.records s p.answers ∧
        ∀ rt', ServerState.transferRecords rt' zone = p.answers) ∧
      ∀ rt', rt'.toLowercase = rt.toLowercase → st.tryAxfr rt' req client = st.tryAxfr rt req client) ∧
    (st.axfrAcl.isAllowed client = ok false →
      ∃ p : DnsPacket, p.header.flags &&& 0x000F = 5 ∧ p.answers = [] ∧ p.authorities = [] ∧ p.additionals = [] ∧
        ∀ zones, ({ st with zones := zones } : ServerState).tryAxfr rt req client = ok (some p.toBytes)) := by
  refine ⟨fun zone s hallowed hzone hsoa => ?_, fun hrefused => ?_⟩
  · obtain ⟨p, hp, hanswers⟩ := transferResponse_of_allowed request hallowed hzone
    have haxfr := tryAxfr_of_transferResponse hreq hquestion htype hp
    refine ⟨⟨p, haxfr, hanswers ▸ transferOf_transferRecords rt hsoa, fun rt' => ?_⟩, fun rt' hlower => ?_⟩
    · rw [hanswers, transferRecords_congr rt rt' hsoa]
    · rw [haxfr, tryAxfr_of_transferResponse hreq hquestion htype
        ((transferResponse_congr hlower hzone hsoa).trans hp)]
  · exact ⟨synthResponse request [] 5, refused_rcode request, rfl, rfl, rfl, fun zones =>
      tryAxfr_of_transferResponse hreq hquestion htype (transferResponse_of_refused hrefused)⟩

def twoOwners : Zone :=
  (AList.singleton ['b', '.', 'a'] [.a ['b', '.', 'a'] ⟨10, 0, 0, 2⟩ 60]).insert ['a']
    [.a ['a'] ⟨10, 0, 0, 1⟩ 60, .soa ['a'] ['n'] ['r'] 1 2 3 4 5 60]

def transferServer : ServerState :=
  { addressServer 0 with zones := ZoneSet.fromSingle ['a'] twoOwners }

theorem zone_transfer_exact_twoOwners :
    ∃ p : DnsPacket, transferServer.tryAxfr .ascii transferQuery (letterClient 1) = ok (some p.toBytes) ∧
      TransferOf twoOwners (.soa ['a'] ['n'] ['r'] 1 2 3 4 5 60) p.answers ∧
      ∀ rt', ServerState.transferRecords rt' ⟨['a'], twoOwners⟩ = p.answers := by
  have h := zone_transfer_exact .ascii transferServer transferQuery
    ⟨⟨1, 0, 1, 0, 0, 0⟩, [⟨['a'], 252, 1⟩], [], [], []⟩ ⟨['a'], 252, 1⟩ (letterClient 1) (by decide) rfl rfl
  exact (h.1 ⟨['a'], twoOwners⟩ _ (show Acl.isAllowed ⟨[.v4 ⟨0, 0, 0, 0⟩ 0 (by decide)]⟩ _ = ok true by decide) rfl
    (by decide)).1

end MiniDns
