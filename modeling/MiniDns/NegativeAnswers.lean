import MiniDns.Dns.AnswerChain
import MiniDns.Wildcards

/-! Response code, authority section and AA of `build_response`. They depend on the name asked for
alone, whatever names and zones the loop has moved on to. -/
namespace MiniDns
open Lib Dns DnsRecord
set_option autoImplicit false

/-! ## What the first round settles -/

section Chase
variable {rt : Runtime} {zones : ZoneSet} {qtype : UInt16} {s : Chase}

theorem chase_matchingZone {z : AuthZone} (rounds : ℕ) (h : s.matchingZone = some z) :
    (chase rt zones qtype rounds s).matchingZone = some z := by
  induction rounds generalizing s with
  | zero => exact h
  | succ rounds ih =>
    have hvisit : (s.visit zones).matchingZone = some z := by rw [Chase.visit, h, Option.some_or]
    obtain ⟨_, hround⟩ | ⟨_, _, hround⟩ | ⟨_, record, next, _, hround⟩ | ⟨_, records, _, _, hround⟩ :=
      chase_succ_cases rt zones qtype rounds s
    · rw [hround, h]
    · rw [hround]
      exact hvisit
    · rw [hround]
      exact ih hvisit
    · rw [hround]
      exact hvisit

/-- After an answer the rounds that follow deny nothing and stay authoritative. -/
theorem chase_answered (rounds : ℕ) (hanswers : s.answers ≠ []) (haa : s.authoritative = true) :
    (chase rt zones qtype rounds s).rcode = s.rcode ∧ (chase rt zones qtype rounds s).authoritative = true := by
  induction rounds generalizing s with
  | zero => exact ⟨rfl, haa⟩
  | succ rounds ih =>
    obtain ⟨_, hround⟩ | ⟨_, _, hround⟩ | ⟨_, record, next, _, hround⟩ | ⟨_, records, _, _, hround⟩ :=
      chase_succ_cases rt zones qtype rounds s
    · rw [hround]
      exact ⟨rfl, haa⟩
    · -- a name without records is denied only while there are no answers
      rw [hround]
      refine ⟨?_, haa⟩
      rw [Chase.deny, Chase.visit, if_neg (mt List.isEmpty_iff.mp hanswers)]
    · rw [hround]
      exact ih (List.append_ne_nil_of_right_ne_nil _ (List.cons_ne_nil _ _)) rfl
    · rw [hround]
      exact ⟨rfl, rfl⟩

/-- Response code, authority and zone of the loop for a name. -/
theorem chase_first (rt : Runtime) (zones : ZoneSet) (qtype : UInt16) (rounds : ℕ) (name : Text)
    (zone : Option AuthZone) :
    let s := chase rt zones qtype (rounds + 1) ⟨name, [], [], false, 0, zone⟩
    (recordsAt zones name = none → s.rcode = 3 ∧ s.authoritative = false ∧ s.answers = []) ∧
      (recordsAt zones name ≠ none → s.rcode = 0 ∧ s.authoritative = true) := by
  intro s
  obtain ⟨hseen, _⟩ | ⟨_, hnone, hround⟩ | ⟨_, record, next, hfollows, hround⟩ | ⟨_, records, hrecords, _, hround⟩ :=
    chase_succ_cases rt zones qtype rounds ⟨name, [], [], false, 0, zone⟩
  · exact absurd hseen List.not_mem_nil
  · refine ⟨fun _ => ?_, fun h => absurd hnone h⟩
    rw [show s = _ from hround]
    exact ⟨rfl, rfl, rfl⟩
  · obtain ⟨records, hrecords, _⟩ := hfollows.noDirect
    refine ⟨fun h => absurd (hrecords.symm.trans h) (Option.some_ne_none _), fun _ => ?_⟩
    rw [show s = _ from hround]
    exact chase_answered rounds (List.cons_ne_nil _ _) rfl
  · refine ⟨fun h => absurd (hrecords.symm.trans h) (Option.some_ne_none _), fun _ => ?_⟩
    rw [show s = _ from hround]
    exact ⟨rfl, rfl⟩

end Chase

/-! ## The SOA of a zone -/

def HoldsSoa (records : Zone) (soa : DnsRecord) : Prop :=
  isSoa soa = true ∧ ∃ owner rs, records.lookup owner = some rs ∧ soa ∈ rs

theorem mem_values {κ ν : Type} [DecidableEq κ] {rt : Runtime} {map : HashMap κ ν} {v : ν} :
    v ∈ rt.values map ↔ ∃ k, map.lookup k = some v := by
  rw [Runtime.values, List.mem_map]
  constructor
  · rintro ⟨⟨k, w⟩, hmem, rfl⟩
    exact ⟨k, AList.mem_lookup_iff.mpr ((rt.iterate_perm map.entries).mem_iff.mp hmem)⟩
  · rintro ⟨k, hk⟩
    exact ⟨⟨k, v⟩, (rt.iterate_perm map.entries).mem_iff.mpr (AList.mem_lookup_iff.mp hk), rfl⟩

theorem mem_flatten_values {rt : Runtime} {records : Zone} {r : DnsRecord} :
    r ∈ (rt.values records).flatten ↔ ∃ owner rs, records.lookup owner = some rs ∧ r ∈ rs := by
  rw [List.mem_flatten]
  constructor
  · rintro ⟨rs, hrs, hr⟩
    obtain ⟨owner, howner⟩ := mem_values.mp hrs
    exact ⟨owner, rs, howner, hr⟩
  · rintro ⟨owner, rs, howner, hr⟩
    exact ⟨rs, mem_values.mpr ⟨owner, howner⟩, hr⟩

theorem holdsSoa_of_zoneSoa {rt : Runtime} {records : Zone} {soa : DnsRecord} (h : zoneSoa rt records = some soa) :
    HoldsSoa records soa :=
  ⟨List.find?_some h, mem_flatten_values.mp (List.mem_of_find?_eq_some h)⟩

theorem zoneSoa_isSome (rt : Runtime) {records : Zone} : (zoneSoa rt records).isSome ↔ ∃ soa, HoldsSoa records soa := by
  constructor
  · intro h
    obtain ⟨soa, hsoa⟩ := Option.isSome_iff_exists.mp h
    exact ⟨soa, holdsSoa_of_zoneSoa hsoa⟩
  · rintro ⟨soa, hsoa, hmem⟩
    exact List.find?_isSome.mpr ⟨soa, mem_flatten_values.mpr hmem, hsoa⟩

/-! ## The flags of a response -/

def negativeSoa (rt : Runtime) (s : Chase) : Option DnsRecord :=
  if s.answers.isEmpty then s.matchingZone.bind fun zone => zoneSoa rt zone.records else none

/-- The loop of `build_response` for the question of the request, with what its first round settles. -/
structure Settled (rt : Runtime) (zones : ZoneSet) (request : DnsPacket) (name : Text) (s : Chase) : Prop where
  zone : s.matchingZone = zones.find name
  denied : recordsAt zones name = none → s.rcode = 3 ∧ s.authoritative = false ∧ s.answers = []
  found : recordsAt zones name ≠ none → s.rcode = 0 ∧ s.authoritative = true
  answers : (buildResponse rt request zones).answers = s.answers
  authorities : (buildResponse rt request zones).authorities = (negativeSoa rt s).toList
  flags : (buildResponse rt request zones).header.flags =
    if s.authoritative || (negativeSoa rt s).isSome then
      0x8000 ||| (request.header.flags &&& 0x0100) ||| s.rcode ||| 0x0400
    else 0x8000 ||| (request.header.flags &&& 0x0100) ||| s.rcode

theorem exists_settled (rt : Runtime) (zones : ZoneSet) {request : DnsPacket} {question : DnsQuestion}
    (h : request.questions.head? = some question) :
    ∃ s, Settled rt zones request (rt.toLowercase question.qname) s := by
  let name := rt.toLowercase question.qname
  obtain ⟨hdenied, hfound⟩ := chase_first rt zones question.qtype 15 name (zones.find name)
  have hs : chaseQuestion rt zones request.questions.head? =
      chase rt zones question.qtype 16 ⟨name, [], [], false, 0, zones.find name⟩ := by
    rw [h]
    rfl
  refine ⟨_, ?_, hdenied, hfound, ?_, ?_, ?_⟩
  · cases hfind : zones.find name with
    | some z => exact chase_matchingZone 16 rfl
    | none =>
      have hnone : recordsAt zones name = none := by rw [recordsAt, hfind, Option.bind_none]
      rw [chase_of_none List.not_mem_nil hnone, Chase.deny, Chase.visit]
      exact hfind
  · rw [buildResponse, hs]
  · rw [buildResponse, hs, negativeSoa]
  · rw [buildResponse, hs]
    rfl

section Settled
variable {rt : Runtime} {zones : ZoneSet} {request : DnsPacket} {name : Text} {s : Chase}

theorem Settled.rcode_cases (h : Settled rt zones request name s) : s.rcode = 0 ∨ s.rcode = 3 := by
  by_cases hnone : recordsAt zones name = none
  · exact .inr (h.denied hnone).1
  · exact .inl (h.found hnone).1

theorem Settled.rcode (h : Settled rt zones request name s) :
    (buildResponse rt request zones).header.flags &&& 0x000F = if recordsAt zones name = none then 3 else 0 := by
  rw [h.flags, (rcode_and_aa _ h.rcode_cases _).1]
  split
  · rename_i hnone
    exact (h.denied hnone).1
  · rename_i hfound
    exact (h.found hfound).1

theorem Settled.rcode_eq_three (h : Settled rt zones request name s) :
    (buildResponse rt request zones).header.flags &&& 0x000F = 3 ↔ recordsAt zones name = none := by
  rw [h.rcode]
  split
  · rename_i hnone
    exact ⟨fun _ => hnone, fun _ => rfl⟩
  · rename_i hfound
    exact ⟨fun h => absurd h (by decide), fun hnone => absurd hnone hfound⟩

theorem Settled.rcode_eq_zero (h : Settled rt zones request name s) :
    (buildResponse rt request zones).header.flags &&& 0x000F = 0 ↔ recordsAt zones name ≠ none := by
  rw [h.rcode]
  split
  · rename_i hnone
    exact ⟨fun h => absurd h (by decide), fun hfound => absurd hnone hfound⟩
  · rename_i hfound
    exact ⟨fun _ => hfound, fun _ => rfl⟩

theorem Settled.authorities_cases (h : Settled rt zones request name s) :
    negativeSoa rt s = none ∧ (buildResponse rt request zones).authorities = [] ∨
      ∃ soa, negativeSoa rt s = some soa ∧ (buildResponse rt request zones).authorities = [soa] := by
  rw [h.authorities]
  cases negativeSoa rt s with
  | none => exact .inl ⟨rfl, rfl⟩
  | some soa => exact .inr ⟨soa, rfl, rfl⟩

theorem Settled.soa (h : Settled rt zones request name s) {soa : DnsRecord} :
    negativeSoa rt s = some soa ↔ (buildResponse rt request zones).answers = [] ∧
      ∃ zone, zones.find name = some zone ∧ zoneSoa rt zone.records = some soa := by
  rw [negativeSoa, h.answers, h.zone]
  split
  · rename_i hempty
    rw [Option.bind_eq_some_iff, List.isEmpty_iff.mp hempty]
    simp
  · rename_i hne
    exact ⟨nofun, fun hnil => absurd (List.isEmpty_iff.mpr hnil.1) hne⟩

theorem Settled.authorities_of_ne_nil (h : Settled rt zones request name s)
    (hne : (buildResponse rt request zones).authorities ≠ []) :
    (buildResponse rt request zones).answers = [] ∧ ∃ zone soa, zones.find name = some zone ∧
      HoldsSoa zone.records soa ∧ (buildResponse rt request zones).authorities = [soa] := by
  obtain ⟨_, hnil⟩ | ⟨soa, hsoa, hall⟩ := h.authorities_cases
  · exact absurd hnil hne
  · obtain ⟨hnil, zone, hzone, hin⟩ := h.soa.mp hsoa
    exact ⟨hnil, zone, soa, hzone, holdsSoa_of_zoneSoa hin, hall⟩

theorem Settled.authorities_ne_nil (h : Settled rt zones request name s) {zone : AuthZone} {soa : DnsRecord}
    (hnil : (buildResponse rt request zones).answers = []) (hzone : zones.find name = some zone)
    (hholds : HoldsSoa zone.records soa) : (buildResponse rt request zones).authorities ≠ [] := by
  obtain ⟨soa', hsoa⟩ := Option.isSome_iff_exists.mp ((zoneSoa_isSome rt).mpr ⟨soa, hholds⟩)
  rw [h.authorities, h.soa.mpr ⟨hnil, zone, hzone, hsoa⟩]
  exact List.cons_ne_nil _ _

theorem Settled.aa (h : Settled rt zones request name s) :
    (buildResponse rt request zones).header.flags &&& 0x0400 ≠ 0 ↔
      recordsAt zones name ≠ none ∨ (buildResponse rt request zones).authorities ≠ [] := by
  have hauthorities : (negativeSoa rt s).isSome = true ↔ (buildResponse rt request zones).authorities ≠ [] := by
    obtain ⟨hsoa, hall⟩ | ⟨soa, hsoa, hall⟩ := h.authorities_cases <;> simp [hsoa, hall]
  have hauthoritative : s.authoritative = true ↔ recordsAt zones name ≠ none := by
    refine ⟨fun haa hnone => ?_, fun hfound => (h.found hfound).2⟩
    rw [(h.denied hnone).2.1] at haa
    cases haa
  rw [h.flags, (rcode_and_aa _ h.rcode_cases _).2, ← hauthoritative, ← hauthorities, ← Bool.or_eq_true]
  cases s.authoritative || (negativeSoa rt s).isSome <;> decide

end Settled

theorem recordsAt_eq_none {zones : ZoneSet} {name : Text} : recordsAt zones name = none ↔
    zones.find name = none ∨ ∃ zone, zones.find name = some zone ∧ Dns.lookup zone.records name = none := by
  rw [recordsAt]
  cases zones.find name <;> simp

theorem recordsAt_ne_none {zones : ZoneSet} {name : Text} : recordsAt zones name ≠ none ↔
    ∃ zone, zones.find name = some zone ∧ (Dns.lookup zone.records name).isSome := by
  rw [recordsAt, ← Option.isSome_iff_ne_none]
  cases zones.find name <;> simp

/-- **Response code, authority section and AA are exact.** A name is denied exactly when it has no zone or
no records there; a negative answer carries an SOA of the zone of the name; and AA stands for either. -/
theorem negative_answers_exact (rt : Runtime) (zones : ZoneSet) (request : DnsPacket) (question : DnsQuestion)
    (h : request.questions.head? = some question) :
    let name := rt.toLowercase question.qname
    let response := buildResponse rt request zones
    (response.header.flags &&& 0x000F = 3 ↔
      zones.find name = none ∨ ∃ zone, zones.find name = some zone ∧ Dns.lookup zone.records name = none) ∧
    (response.header.flags &&& 0x000F = 0 ↔
      ∃ zone, zones.find name = some zone ∧ (Dns.lookup zone.records name).isSome) ∧
    (response.authorities ≠ [] ↔ response.answers = [] ∧
      ∃ zone soa, zones.find name = some zone ∧ HoldsSoa zone.records soa) ∧
    (response.authorities ≠ [] → ∃ zone soa, zones.find name = some zone ∧ HoldsSoa zone.records soa ∧
      response.authorities = [soa]) ∧
    (response.header.flags &&& 0x0400 ≠ 0 ↔
      (∃ zone, zones.find name = some zone ∧ (Dns.lookup zone.records name).isSome) ∨
        response.authorities ≠ []) := by
  intro name response
  obtain ⟨s, hs⟩ := exists_settled rt zones h
  rw [← recordsAt_eq_none, ← recordsAt_ne_none]
  refine ⟨hs.rcode_eq_three, hs.rcode_eq_zero, ⟨fun hne => ?_, ?_⟩, fun hne => (hs.authorities_of_ne_nil hne).2, hs.aa⟩
  · obtain ⟨hnil, zone, soa, hzone, hholds, _⟩ := hs.authorities_of_ne_nil hne
    exact ⟨hnil, zone, soa, hzone, hholds⟩
  · rintro ⟨hnil, zone, soa, hzone, hholds⟩
    exact hs.authorities_ne_nil hnil hzone hholds

/-- The host `a.b.s` in the zone `s`. -/
def deepHost : ZoneSet :=
  .fromSingle ['s'] ((∅ : Zone).insert ['a', '.', 'b', '.', 's'] [.a ['a', '.', 'b', '.', 's'] ⟨10, 0, 0, 1⟩ 60])

/-- An `A` query for `b.s`. -/
def parentRequest : DnsPacket := ⟨⟨1, 0x100, 1, 0, 0, 0⟩, [⟨['b', '.', 's'], 1, 1⟩], [], [], []⟩

theorem negative_answers_exact_deepHost :
    (deepHost.find ['b', '.', 's']).isSome ∧
      ((buildResponse .ascii parentRequest deepHost).header.flags &&& 0x000F = 3 ↔
        deepHost.find ['b', '.', 's'] = none ∨
          ∃ zone, deepHost.find ['b', '.', 's'] = some zone ∧ Dns.lookup zone.records ['b', '.', 's'] = none) :=
  ⟨by decide, (negative_answers_exact .ascii deepHost parentRequest ⟨['b', '.', 's'], 1, 1⟩ rfl).1⟩

/-! ## Names that exist -/

/-- The zone of the name holds a record at the name or below it. -/
def ExistsIn (zones : ZoneSet) (name : Text) : Prop :=
  ∃ zone, zones.find name = some zone ∧
    ∃ owner records, zone.records.lookup owner = some records ∧ records ≠ [] ∧ MatchesSuffix owner name

/-- The zone of the name has an entry for it, or a wildcard behind one of its dots. -/
def Covered (zones : ZoneSet) (name : Text) : Prop :=
  ∃ zone, zones.find name = some zone ∧
    (name ∈ zone.records ∨ ∃ s, ('.' :: s) <:+ name ∧ wildcard s ∈ zone.records)

theorem covered_iff {zones : ZoneSet} {name : Text} : Covered zones name ↔ recordsAt zones name ≠ none := by
  simp only [Covered, recordsAt_ne_none, lookup_isSome]

/-- **A name that exists is denied, unless the zone has an entry or a wildcard for it: what is only above
an owner is an empty non-terminal and is not found.** -/
theorem existing_name_answered_iff (rt : Runtime) (zones : ZoneSet) (request : DnsPacket) (question : DnsQuestion)
    (h : request.questions.head? = some question) :
    let name := rt.toLowercase question.qname
    (ExistsIn zones name → (buildResponse rt request zones).header.flags &&& 0x000F = 0) ↔
      (ExistsIn zones name → Covered zones name) := by
  intro name
  obtain ⟨s, hs⟩ := exists_settled rt zones h
  rw [covered_iff]
  exact forall_congr' fun _ => hs.rcode_eq_zero

theorem existing_name_answered_iff_deepHost :
    (ExistsIn deepHost ['b', '.', 's'] → (buildResponse .ascii parentRequest deepHost).header.flags &&& 0x000F = 0) ↔
      (ExistsIn deepHost ['b', '.', 's'] → Covered deepHost ['b', '.', 's']) :=
  existing_name_answered_iff .ascii deepHost parentRequest ⟨['b', '.', 's'], 1, 1⟩ rfl

/-- `b.s` is denied, although `a.b.s` exists. -/
theorem empty_non_terminal_denied :
    ExistsIn deepHost ['b', '.', 's'] ∧ (buildResponse .ascii parentRequest deepHost).header.flags &&& 0x000F = 3 := by
  refine ⟨⟨_, rfl, ['a', '.', 'b', '.', 's'], _, rfl, List.cons_ne_nil _ _, .inr ⟨['a'], rfl⟩⟩, ?_⟩
  decide

end MiniDns
