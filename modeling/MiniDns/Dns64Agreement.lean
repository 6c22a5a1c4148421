import MiniDns.SignedAnswers

/-! DNS64 beside the A query for the same name. `build_response` reaches A records by an exact owner, by a wildcard
or along aliases; `apply_dns64` makes a lookup of its own, which finds those of an exact owner only. -/
namespace MiniDns
open Lib Lib.Outcome Dns DnsPacket DnsRecord
set_option autoImplicit false

/-! ## The addresses of a response -/

def ipv4Answers (answers : List DnsRecord) : List (Bytes × UInt32) :=
  answers.filterMap fun
    | .a _ addr ttl => some (addr.octets, ttl)
    | _ => none

def ipv6Answers (answers : List DnsRecord) : List (Bytes × UInt32) :=
  answers.filterMap fun
    | .aaaa _ addr ttl => some (addr.octets, ttl)
    | _ => none

/-- The first 96 bits of the prefix, then the IPv4 address. -/
def embed (net : Ipv6Addr) (answer : Bytes × UInt32) : Bytes × UInt32 := (net.octets.take 12 ++ answer.1, answer.2)

theorem ipv4Answers_eq_nil {answers : List DnsRecord} :
    ipv4Answers answers = [] ↔ ∀ r ∈ answers, r.recordType ≠ typeA := by
  rw [ipv4Answers, List.filterMap_eq_nil_iff]
  refine forall₂_congr fun r _ => ⟨fun h htype => ?_, fun h => ?_⟩
  · obtain ⟨owner, addr, ttl, rfl⟩ := a_of_recordType htype
    cases h
  · split
    · exact absurd rfl h
    · rfl

theorem ipv6Answers_of_no_aaaa {answers : List DnsRecord} (h : ∀ r ∈ answers, r.recordType ≠ typeAaaa) :
    ipv6Answers answers = [] := by
  rw [ipv6Answers, List.filterMap_eq_nil_iff]
  intro r hr
  split
  · exact absurd rfl (h _ hr)
  · rfl

theorem ipv6Answers_synthesizeAll (net : Ipv6Addr) (owner : Text) (records : List DnsRecord) :
    ipv6Answers (synthesizeAll net owner records) = (ipv4Answers records).map (embed net) := by
  induction records with
  | nil => rfl
  | cons r records ih =>
    cases r with
    | a _ addr ttl => exact congrArg (_ :: ·) ih
    | _ => exact ih

theorem ipv4Answers_answersAt {zones : ZoneSet} {name : Text} {records : List DnsRecord}
    (h : recordsAt zones name = some records) : ipv4Answers (answersAt zones typeA name) = ipv4Answers records := by
  rw [answersAt_of_records typeA h]
  clear h
  induction records with
  | nil => rfl
  | cons r records ih =>
    cases r with
    | a _ addr ttl => exact congrArg (_ :: ·) ih
    | _ => exact ih

/-! ## Answers along a chain -/

section Chains
variable {rt : Runtime} {zones : ZoneSet} {qtype : UInt16} {name last : Text} {links : List (Text × DnsRecord)}
variable {tail : List DnsRecord}

theorem answerChain_forall_ne_iff (h : AnswerChain rt zones qtype 16 [] name links last tail)
    (hqtype : qtype ≠ typeCname) :
    (∀ r ∈ (links.map fun l => l.2.withDomain l.1) ++ tail, r.recordType ≠ qtype) ↔ tail = [] := by
  constructor
  · intro hall
    by_contra hne
    obtain ⟨r, hr⟩ := List.exists_mem_of_ne_nil _ hne
    exact hall r (List.mem_append_right _ hr) (h.mem_tail hr).1
  · rintro rfl r hr
    obtain ⟨_, _, _, hcname⟩ | ⟨hr, _⟩ := h.mem_cases hr
    · exact hcname ▸ hqtype.symm
    · cases hr

theorem answerChain_of_hasAddress (h : AnswerChain rt zones typeA 16 [] name links last tail) {zone : AuthZone}
    {records : List DnsRecord} (hzone : zones.find name = some zone)
    (hrecords : zone.records.lookup name = some records) (ha : ∃ r ∈ records, r.recordType = typeA) :
    links = [] ∧ ipv4Answers tail = ipv4Answers records := by
  have hat : recordsAt zones name = some records := by
    rw [recordsAt, hzone, Option.bind_some, lookup, hrecords]
  have hne : answersAt zones typeA name ≠ [] := by
    intro hnil
    obtain ⟨r, hr, htype⟩ := ha
    refine ipv4Answers_eq_nil.mp ?_ r hr htype
    rw [← ipv4Answers_answersAt hat, hnil]
    rfl
  -- the records are there in the first round, so no alias is followed
  have hlast : AnswerChain rt zones typeA 16 [] name [] name (answersAt zones typeA name) :=
    .last ⟨by decide, List.not_mem_nil, List.not_mem_nil⟩ fun _ _ hnil => absurd hnil hne
  obtain ⟨rfl, rfl, rfl⟩ := h.unique hlast
  exact ⟨rfl, ipv4Answers_answersAt hat⟩

end Chains

/-! ## The two queries -/

/-- DNS64 is on, there are no keys and no recursion, and the name is not blocked. -/
structure Dns64Server (rt : Runtime) (st : ServerState) (net : Ipv6Addr) (qname : Text) : Prop where
  synthesizes : st.dns64Prefix = some net
  unsigned : st.dnssecKeys = none
  noRecursion : st.recursionAvailable = false
  unblocked : (st.blocklist.isActive && st.blocklist.isBlocked rt qname) = false

namespace Dns64Server

variable {rt : Runtime} {st : ServerState} {net : Ipv6Addr} {qname : Text} {request p : DnsPacket}
variable {question : DnsQuestion}

theorem signedResponse_eq (h : Dns64Server rt st net qname) (unixTime : UInt32) :
    st.signedResponse rt unixTime request = ok (buildResponse rt request st.zones) := by
  rw [ServerState.signedResponse, h.unsigned]

theorem localResponse_aaaa (h : Dns64Server rt st net qname) (unixTime : UInt32)
    (hq : request.questions.head? = some question) (htype : question.qtype = typeAaaa) :
    st.localResponse rt unixTime request =
      ok (applyDns64 rt (buildResponse rt request st.zones) st.zones question.qname net) := by
  rw [ServerState.localResponse, h.signedResponse_eq, ok_bind, h.synthesizes, hq]
  exact if_pos htype

theorem localResponse_other (h : Dns64Server rt st net qname) (unixTime : UInt32)
    (hq : request.questions.head? = some question) (htype : question.qtype ≠ typeAaaa) :
    st.localResponse rt unixTime request = ok (buildResponse rt request st.zones) := by
  rw [ServerState.localResponse, h.signedResponse_eq, ok_bind, h.synthesizes, hq]
  exact if_neg htype

theorem answerLocally_eq (h : Dns64Server rt st net qname) (m : Moment) (req : Bytes) (transport : Transport)
    (hq : request.questions.head? = some question) (hname : question.qname = qname)
    (hp : st.localResponse rt m.unixTime request = ok p) :
    st.answerLocally rt m req request transport = ok (.ready (encode p transport), st) := by
  have hblocks : st.blocks rt request = false := by
    rw [ServerState.blocks, hq, Option.any_some, hname, h.unblocked]
  have hoffer : st.offerRecursion p = p := by
    rw [ServerState.offerRecursion, h.noRecursion]
    rfl
  rw [ServerState.answerLocally, hblocks, hp, ok_bind, hq, h.noRecursion]
  simp only [Bool.false_eq_true, and_false, if_false, hoffer]
  rfl

end Dns64Server

def EmbedsAnswers (net : Ipv6Addr) (aaaa a : DnsPacket) : Prop :=
  ipv6Answers aaaa.answers = (ipv4Answers a.answers).map (embed net)

/-- The chain of AAAA records reaches one, the name itself stores an A record, or the chain of A records reaches
none. -/
def Dns64Covers (rt : Runtime) (zones : ZoneSet) (name : Text) : Prop :=
  (∃ links last tail, AnswerChain rt zones typeAaaa 16 [] name links last tail ∧ tail ≠ []) ∨ HasAddress zones name ∨
    ∃ links last, AnswerChain rt zones typeA 16 [] name links last []

section Queries
variable {rt : Runtime} {zones : ZoneSet} {net : Ipv6Addr} {qname : Text} {response : DnsPacket}
variable {links : List (Text × DnsRecord)} {last : Text} {tail : List DnsRecord}

theorem embedsAnswers_of_hasAddress {a : DnsPacket} (hnative : ∀ r ∈ response.answers, r.recordType ≠ typeAaaa)
    (haddress : HasAddress zones (rt.toLowercase qname))
    (h : AnswerChain rt zones typeA 16 [] (rt.toLowercase qname) links last tail)
    (ha : a.answers = (links.map fun l => l.2.withDomain l.1) ++ tail) :
    EmbedsAnswers net (applyDns64 rt response zones qname net) a := by
  obtain ⟨zone, records, hzone, hrecords, hmem⟩ := haddress
  obtain ⟨rfl, htail⟩ := answerChain_of_hasAddress h hzone hrecords hmem
  rw [EmbedsAnswers, applyDns64_answers net hnative hzone hrecords hmem, ipv6Answers_synthesizeAll, ha, List.map_nil,
    List.nil_append, htail]

theorem embedsAnswers_iff_of_not_hasAddress {a : DnsPacket} (hnative : ∀ r ∈ response.answers, r.recordType ≠ typeAaaa)
    (haddress : ¬ HasAddress zones (rt.toLowercase qname))
    (h : AnswerChain rt zones typeA 16 [] (rt.toLowercase qname) links last tail)
    (ha : a.answers = (links.map fun l => l.2.withDomain l.1) ++ tail) :
    EmbedsAnswers net (applyDns64 rt response zones qname net) a ↔ tail = [] := by
  rw [EmbedsAnswers, applyDns64_keeps net (.inr haddress), ipv6Answers_of_no_aaaa hnative, eq_comm, List.map_eq_nil_iff,
    ipv4Answers_eq_nil, ha, answerChain_forall_ne_iff h (by decide)]

end Queries

/-- **Without a native AAAA record, the reply to an AAAA query carries the A records of the A query for the same name,
embedded in the prefix, exactly where these are stored under the name itself or there are none.** -/
theorem dns64_agrees_iff (rt : Runtime) (st : ServerState) (net : Ipv6Addr) (qname : Text) (m : Moment)
    (req₆ req₄ : Bytes) (transport : Transport) (request₆ request₄ : DnsPacket) (question₆ question₄ : DnsQuestion)
    (hserver : Dns64Server rt st net qname) (hq₆ : request₆.questions.head? = some question₆)
    (hname₆ : question₆.qname = qname) (htype₆ : question₆.qtype = typeAaaa)
    (hq₄ : request₄.questions.head? = some question₄) (hname₄ : question₄.qname = qname)
    (htype₄ : question₄.qtype = typeA) : ∃ aaaa a : DnsPacket,
      st.localResponse rt m.unixTime request₆ = ok aaaa ∧ st.localResponse rt m.unixTime request₄ = ok a ∧
      st.answerLocally rt m req₆ request₆ transport = ok (.ready (encode aaaa transport), st) ∧
      st.answerLocally rt m req₄ request₄ transport = ok (.ready (encode a transport), st) ∧
      (((∀ r ∈ (buildResponse rt request₆ st.zones).answers, r.recordType ≠ typeAaaa) → EmbedsAnswers net aaaa a) ↔
        Dns64Covers rt st.zones (rt.toLowercase qname)) := by
  have haaaa := hserver.localResponse_aaaa m.unixTime hq₆ htype₆
  have ha := hserver.localResponse_other m.unixTime hq₄ (by rw [htype₄]; decide)
  refine ⟨_, _, haaaa, ha, hserver.answerLocally_eq m req₆ transport hq₆ hname₆ haaaa,
    hserver.answerLocally_eq m req₄ transport hq₄ hname₄ ha, ?_⟩
  -- what `build_response` reaches for the two queries, before anything is synthesized
  obtain ⟨links₆, last₆, tail₆, hchain₆, hbuilt₆⟩ := built_along_chain rt st.zones hq₆ hname₆ htype₆
  obtain ⟨links₄, last₄, tail₄, hchain₄, hbuilt₄⟩ := built_along_chain rt st.zones hq₄ hname₄ htype₄
  have hnative : (∀ r ∈ (buildResponse rt request₆ st.zones).answers, r.recordType ≠ typeAaaa) ↔ tail₆ = [] := by
    rw [hbuilt₆, answerChain_forall_ne_iff hchain₆ (by decide)]
  rw [hname₆]
  constructor
  · intro hembeds
    by_cases htail₆ : tail₆ = []
    · by_cases haddress : HasAddress st.zones (rt.toLowercase qname)
      · exact .inr (.inl haddress)
      · have hnil := (embedsAnswers_iff_of_not_hasAddress (hnative.mpr htail₆) haddress hchain₄ hbuilt₄).mp
          (hembeds (hnative.mpr htail₆))
        exact .inr (.inr ⟨links₄, last₄, hnil ▸ hchain₄⟩)
    · exact .inl ⟨links₆, last₆, tail₆, hchain₆, htail₆⟩
  · intro hcovers hall
    by_cases haddress : HasAddress st.zones (rt.toLowercase qname)
    · exact embedsAnswers_of_hasAddress hall haddress hchain₄ hbuilt₄
    -- nothing is synthesized, so there must be no A record to embed
    refine (embedsAnswers_iff_of_not_hasAddress hall haddress hchain₄ hbuilt₄).mpr ?_
    obtain ⟨_, _, _, hchain, hne⟩ | hstored | ⟨_, _, hchain⟩ := hcovers
    · exact absurd ((hchain.unique hchain₆).2.2.trans (hnative.mp hall)) hne
    · exact absurd hstored haddress
    · exact (hchain₄.unique hchain).2.2

def nat64 : Ipv6Addr := ⟨[0, 0x64, 0xff, 0x9b, 0, 0, 0, 0, 0, 0, 0, 0, 0, 0, 0, 0], rfl⟩

/-- A server of the zone `s` with the A records of one owner, and without recursion. -/
def nat64Server (owner : Text) : ServerState :=
  { forwardingServer with
    zones := .fromSingle ['s'] (AList.singleton owner [.a owner ⟨192, 0, 2, 1⟩ 300, .a owner ⟨192, 0, 2, 2⟩ 60])
    forwardRules := ForwardRules.none
    forwarder := false
    dns64Prefix := some nat64 }

def addressRequest (qtype : UInt16) : DnsPacket := ⟨⟨1, 0, 1, 0, 0, 0⟩, [⟨['x', '.', 's'], qtype, 1⟩], [], [], []⟩

theorem dns64_agrees_iff_stored : ∃ aaaa a : DnsPacket,
    (nat64Server ['x', '.', 's']).localResponse .ascii 0 (addressRequest typeAaaa) = ok aaaa ∧
      (nat64Server ['x', '.', 's']).localResponse .ascii 0 (addressRequest typeA) = ok a ∧
      (ipv4Answers a.answers).length = 2 ∧ EmbedsAnswers nat64 aaaa a := by
  obtain ⟨aaaa, a, haaaa, ha, _, _, hiff⟩ := dns64_agrees_iff .ascii (nat64Server ['x', '.', 's']) nat64 ['x', '.', 's']
    ⟨0, 0, .leader none, 0⟩ [] [] .tcp (addressRequest typeAaaa) (addressRequest typeA) _ _ ⟨rfl, rfl, rfl, rfl⟩ rfl rfl
    rfl rfl rfl rfl
  refine ⟨aaaa, a, haaaa, ha, ?_, hiff.mpr ?_ (by decide)⟩
  · obtain rfl := Outcome.ok.inj ha
    decide
  · exact .inr (.inl ⟨_, _, rfl, rfl, _, List.mem_cons_self, rfl⟩)

/-- The wildcard `*.s` gives `x.s` two A records; the AAAA query for `x.s` is answered with no address. -/
theorem wildcard_not_synthesized : ∃ aaaa a : DnsPacket,
    (nat64Server ['*', '.', 's']).localResponse .ascii 0 (addressRequest typeAaaa) = ok aaaa ∧
      (nat64Server ['*', '.', 's']).localResponse .ascii 0 (addressRequest typeA) = ok a ∧
      Dns64Server .ascii (nat64Server ['*', '.', 's']) nat64 ['x', '.', 's'] ∧
      (∀ r ∈ (buildResponse .ascii (addressRequest typeAaaa) (nat64Server ['*', '.', 's']).zones).answers,
        r.recordType ≠ typeAaaa) ∧
      ipv4Answers a.answers = [([192, 0, 2, 1], 300), ([192, 0, 2, 2], 60)] ∧ aaaa.answers = [] ∧
      ¬ EmbedsAnswers nat64 aaaa a := by
  refine ⟨_, _, rfl, rfl, ⟨rfl, rfl, rfl, rfl⟩, by decide, by decide, by decide, ?_⟩
  unfold EmbedsAnswers
  decide

end MiniDns
