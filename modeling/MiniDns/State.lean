import MiniDns.Cache
import MiniDns.Dnssec
import MiniDns.Guards
import MiniDns.Reply

/-! The server state and the top-level query resolution, from the request's bytes to the reply's.
What happens outside the process (clock readings, the end of an upstream query) is an input. -/
namespace MiniDns
open Lib Lib.Outcome Dns DnsRecord DnsPacket
set_option autoImplicit false

structure ServerState where
  zones : ZoneSet
  forwardRules : ForwardRules
  /-- Whether a forwarder, and whether a recursive resolver, was configured. -/
  forwarder : Bool
  recursive : Bool
  cache : Cache
  limiter : RateLimiter
  blocklist : Blocklist
  dns64Prefix : Option Ipv6Addr
  axfrAcl : Acl
  dnssecKeys : Option DnssecKeys

def rcodeServfail : UInt16 := 2
def rcodeNxdomain : UInt16 := 3
def flagRd : UInt16 := 0x0100
def flagRa : UInt16 := 0x0080

structure ForwardCtx where
  request : DnsPacket
  raw : Bytes
  name : Text
  qtype : UInt16
  upstream : SocketAddr
  transport : Transport

inductive Resolution where
  | ready (bytes : Bytes)
  | forward (ctx : ForwardCtx)
  | drop

/-! ## Additions to an authoritative answer -/

/-- `(flags & !0x000F) | 0x0400`: NOERROR and AA. -/
def noerrorAuthoritative (flags : UInt16) : UInt16 := (flags &&& 0xFFF0) ||| 0x0400

def withAnswers (response : DnsPacket) (answers : List DnsRecord) : DnsPacket :=
  { response with
    header :=
      { response.header with
        flags := noerrorAuthoritative response.header.flags
        answers := UInt16.ofNat answers.length
        authorities := 0 }
    answers := answers
    authorities := [] }

def synthesizeAaaa (net : Ipv6Addr) (ipv4 : Ipv4Addr) (ttl : UInt32) (owner : Text) : DnsRecord :=
  .aaaa owner ⟨net.octets.take 12 ++ ipv4.octets, by simp [net.size, Ipv4Addr.octets]⟩ ttl

def synthesizeAll (net : Ipv6Addr) (owner : Text) (records : List DnsRecord) : List DnsRecord :=
  records.filterMap fun
    | .a _ addr ttl => some (synthesizeAaaa net addr ttl owner)
    | _ => none

def applyDns64 (rt : Runtime) (response : DnsPacket) (zones : ZoneSet) (qname : Text) (net : Ipv6Addr) :
    DnsPacket :=
  if response.answers.any fun r => r.recordType == typeAaaa then response
  else
    let name := rt.toLowercase qname
    match zones.find name with
    | none => response
    | some zone =>
      match zone.records.lookup name with
      | none => response
      | some records =>
        if records.all fun r => r.recordType != typeA then response
        else withAnswers response (synthesizeAll net name records)

def rrsigValidity : UInt32 := 2592000

def groupRrsets (answers : List DnsRecord) : HashMap (Text × UInt16) (List DnsRecord) :=
  answers.foldl (fun rrsets r => pushEntry rrsets (r.domain, r.recordType) r) ∅

def minTtl : List DnsRecord → Option UInt32
  | [] => none
  | r :: rs => some (rs.foldl (fun ttl r => min ttl r.ttl) r.ttl)

def signRrsets (rt : Runtime) (keys : DnssecKeys) (signerName : Text) (unixTime : UInt32) :
    List (Sigma fun _ : Text × UInt16 => List DnsRecord) → Outcome Empty (List DnsRecord)
  | [] => ok []
  | ⟨key, records⟩ :: rrsets =>
    (keys.signRrset rt records signerName ((minTtl records).getD 3600) unixTime
        (unixTime + rrsigValidity)).handle
      (fun rrsig => do
        let rrsigs ← signRrsets rt keys signerName unixTime rrsets
        pure (rrsig.withDomain key.1 :: rrsigs))
      fun _ => signRrsets rt keys signerName unixTime rrsets

/-- Signs the answers, or answers a DNSKEY query at a zone apex with the keys. -/
def applyDnssec (rt : Runtime) (response : DnsPacket) (zones : ZoneSet) (qname : Text) (qtype : UInt16)
    (keys : DnssecKeys) (unixTime : UInt32) : Outcome Empty DnsPacket :=
  let name := rt.toLowercase qname
  let zone := zones.find name
  let dnskeys := keys.dnskeyRecords 3600
  if qtype = typeDnskey ∧ (zone.any fun z => z.origin == name) ∧ dnskeys ≠ [] then
    let response := withAnswers response dnskeys
    (keys.signRrset rt dnskeys name 3600 unixTime (unixTime + rrsigValidity)).handle
      (fun rrsig => ok
        { response with
          header := { response.header with answers := UInt16.ofNat (dnskeys.length + 1) }
          answers := dnskeys ++ [rrsig] })
      fun _ => ok response
  else if response.answers.isEmpty then ok response
  else
    let signerName := (zone.map AuthZone.origin).getD []
    if signerName.isEmpty then ok response
    else do
      let rrsigs ← signRrsets rt keys signerName unixTime (rt.iterate (groupRrsets response.answers).entries)
      if rrsigs.isEmpty then pure response
      else
        pure
          { response with
            header := { response.header with answers := UInt16.ofNat (response.answers ++ rrsigs).length }
            answers := response.answers ++ rrsigs }

/-! ## Forwarded responses -/

def negTtlDefault : UInt32 := 30
def negTtlMax : UInt32 := 3600

def cacheTtl (packet : DnsPacket) : Option UInt32 :=
  let rcode := packet.header.flags &&& 0x000F
  match minTtl packet.answers with
  | some ttl => some ttl
  | none =>
    if rcode = rcodeNxdomain ∨ rcode = 0 then
      let soaMinimum := packet.authorities.findSome? fun
        | .soa _ _ _ _ _ _ _ minimum _ => some minimum
        | _ => none
      some ((soaMinimum.map fun m => min m negTtlMax).getD negTtlDefault)
    else none

def synthResponse (request : DnsPacket) (answers : List DnsRecord) (rcode : UInt16) : DnsPacket where
  header :=
    { id := request.header.id
      flags := 0x8000 ||| (request.header.flags &&& flagRd) ||| flagRa ||| rcode
      questions := UInt16.ofNat request.questions.length
      answers := UInt16.ofNat answers.length
      authorities := 0
      additionals := 0 }
  questions := request.questions
  answers := answers
  authorities := []
  additionals := []

/-- The upstream address that stands for the recursive resolver. -/
def recursiveSentinel : SocketAddr := ⟨.v4 ⟨0, 0, 0, 0⟩, 0, 0⟩

/-- How the wait for an upstream answer ends: the call that asked has the answer or an error, a call
that joined it has what was published, if anything was. -/
inductive Flight where
  | leader (result : Option Bytes)
  | follower (shared : Option Bytes)
  deriving DecidableEq, Repr

structure Moment where
  now : Instant
  unixTime : UInt32
  flight : Flight
  answeredAt : Instant

namespace ServerState

def recursionAvailable (st : ServerState) : Bool := st.forwardRules.isEnabled || st.recursive

/-- Whether the resolver for an upstream address is present, as the two calls of `expect` require. -/
def hasResolver (st : ServerState) (upstream : SocketAddr) : Bool :=
  if upstream = recursiveSentinel then st.recursive else st.forwarder

def forwardAndCache (rt : Runtime) (st : ServerState) (answeredAt : Instant) (ctx : ForwardCtx)
    (result : Option Bytes) : Outcome Empty (Bytes × ServerState) :=
  if st.hasResolver ctx.upstream then
    match result with
    | none => ok ((synthResponse ctx.request [] rcodeServfail).toBytes, st)
    | some response =>
      (fromBytes response).handle
        (fun parsed =>
          match cacheTtl parsed with
          | some ttl =>
            ok (response, { st with cache := st.cache.insert rt answeredAt ctx.name ctx.qtype response ttl })
          | none => ok (response, st))
        fun _ => ok (response, st)
  else panic

def forwardCtx (rt : Runtime) (st : ServerState) (answeredAt : Instant) (ctx : ForwardCtx) :
    Flight → Outcome Empty (Bytes × ServerState)
  | .leader result => do
    let (raw, st) ← st.forwardAndCache rt answeredAt ctx result
    let reply ← replay raw ctx.request ctx.transport
    pure (reply, st)
  | .follower (some shared) => do
    let reply ← replay shared ctx.request ctx.transport
    pure (reply, st)
  | .follower none => do
    let reply ← replay (synthResponse ctx.request [] rcodeServfail).toBytes ctx.request ctx.transport
    pure (reply, st)

def transferRecords (rt : Runtime) (zone : AuthZone) : List DnsRecord :=
  let soa := (zoneSoa rt zone.records).toList
  let owners := (rt.keys zone.records).insertionSort fun a b => utf8 a ≤ utf8 b
  soa ++ (owners.flatMap fun owner => ((zone.records.lookup owner).getD []).filter fun r => !isSoa r) ++ soa

def transferResponse (rt : Runtime) (st : ServerState) (request : DnsPacket) (question : DnsQuestion)
    (client : IpAddr) : Outcome Empty DnsPacket := do
  if ← st.axfrAcl.isAllowed client then
    match st.zones.find (rt.toLowercase question.qname) with
    | none => pure (synthResponse request [] 3)
    | some zone =>
      let records := transferRecords rt zone
      pure
        { header :=
            { id := request.header.id
              flags := 0x8000 ||| (request.header.flags &&& flagRd) ||| 0x0400
              questions := 1
              answers := UInt16.ofNat records.length
              authorities := 0
              additionals := 0 }
          questions := request.questions
          answers := records
          authorities := []
          additionals := [] }
  else pure (synthResponse request [] 5)

def tryAxfr (rt : Runtime) (st : ServerState) (req : Bytes) (client : IpAddr) :
    Outcome Empty (Option Bytes) :=
  (fromBytes req).handle
    (fun request =>
      match request.questions with
      | [] => ok none
      | question :: _ =>
        if question.qtype ≠ typeAxfr then ok none
        else do
          let response ← st.transferResponse rt request question client
          pure (some response.toBytes))
    fun _ => ok none

def signedResponse (rt : Runtime) (st : ServerState) (unixTime : UInt32) (request : DnsPacket) :
    Outcome Empty DnsPacket :=
  let response := buildResponse rt request st.zones
  match st.dnssecKeys, request.questions.head? with
  | some keys, some question =>
    applyDnssec rt response st.zones question.qname question.qtype keys unixTime
  | _, _ => ok response

def localResponse (rt : Runtime) (st : ServerState) (unixTime : UInt32) (request : DnsPacket) :
    Outcome Empty DnsPacket := do
  let response ← st.signedResponse rt unixTime request
  match st.dns64Prefix, request.questions.head? with
  | some net, some question =>
    if question.qtype = typeAaaa then pure (applyDns64 rt response st.zones question.qname net)
    else pure response
  | _, _ => pure response

def blocks (rt : Runtime) (st : ServerState) (request : DnsPacket) : Bool :=
  request.questions.head?.any fun question =>
    st.blocklist.isActive && st.blocklist.isBlocked rt question.qname

/-- `if self.recursion_available() { response.header.flags |= FLAG_RA; }` -/
def offerRecursion (st : ServerState) (response : DnsPacket) : DnsPacket :=
  if st.recursionAvailable then
    { response with header := { response.header with flags := response.header.flags ||| flagRa } }
  else response

/-- Answers a parsed request from the blocklist, the zones or the cache, or hands it on. -/
def answerLocally (rt : Runtime) (st : ServerState) (m : Moment) (req : Bytes) (request : DnsPacket)
    (transport : Transport) : Outcome Empty (Resolution × ServerState) :=
  if st.blocks rt request then
    ok (.ready (encode (synthResponse request [] rcodeNxdomain) transport), st)
  else do
    let rcode := (buildResponse rt request st.zones).header.flags &&& 0x000F
    let rdSet := request.header.flags &&& flagRd ≠ 0
    let response ← st.localResponse rt m.unixTime request
    match request.questions.head? with
    | some question =>
      if rcode = rcodeNxdomain ∧ rdSet ∧ st.recursionAvailable then
        let name := rt.toLowercase question.qname
        match st.cache.get rt m.now name question.qtype with
        | (some cached, cache) => do
          let reply ← replay cached request transport
          pure (.ready reply, { st with cache := cache })
        | (none, cache) =>
          let st := { st with cache := cache }
          match st.forwardRules.matchName name with
          | some upstream => pure (.forward ⟨request, req, name, question.qtype, upstream, transport⟩, st)
          | none =>
            if st.recursive then
              pure (.forward ⟨request, req, name, question.qtype, recursiveSentinel, transport⟩, st)
            else pure (.ready (encode response transport), st)
      else pure (.ready (encode (st.offerRecursion response) transport), st)
    | none => pure (.ready (encode (st.offerRecursion response) transport), st)

def resolveLocal (rt : Runtime) (st : ServerState) (m : Moment) (req : Bytes) (client : IpAddr)
    (transport : Transport) : Outcome Empty (Resolution × ServerState) :=
  match st.limiter.allow m.now client with
  | (false, limiter) => ok (.drop, { st with limiter := limiter })
  | (true, limiter) =>
    let st := { st with limiter := limiter }
    (fromBytes req).handle (fun request => st.answerLocally rt m req request transport)
      fun _ => ok (.drop, st)

def resolve (rt : Runtime) (st : ServerState) (m : Moment) (req : Bytes) (client : IpAddr)
    (transport : Transport) : Outcome Empty (Option Bytes × ServerState) := do
  match ← (if transport = .tcp then st.tryAxfr rt req client else pure none) with
  | some resp => pure (some resp, st)
  | none => do
    match ← st.resolveLocal rt m req client transport with
    | (.ready bytes, st) => pure (some bytes, st)
    | (.drop, st) => pure (none, st)
    | (.forward ctx, st) => do
      let (bytes, st) ← st.forwardCtx rt m.answeredAt ctx m.flight
      pure (some bytes, st)

/-! ## What a query changes -/

def looksElsewhere (rt : Runtime) (st : ServerState) (request : DnsPacket) : Prop :=
  (buildResponse rt request st.zones).header.flags &&& 0x000F = rcodeNxdomain ∧
    request.header.flags &&& flagRd ≠ 0 ∧ st.recursionAvailable = true

instance (rt : Runtime) (st : ServerState) (request : DnsPacket) : Decidable (st.looksElsewhere rt request) :=
  inferInstanceAs (Decidable (_ ∧ _))

section Changes
variable {rt : Runtime} {st st' : ServerState} {m : Moment} {req : Bytes} {client : IpAddr} {transport : Transport}

/-- A failed query yields a SERVFAIL. A response is passed on, and is stored if it parses and has a
lifetime. -/
theorem forwardAndCache_cases {answeredAt : Instant} {ctx : ForwardCtx} {result : Option Bytes} {raw : Bytes}
    (h : st.forwardAndCache rt answeredAt ctx result = ok (raw, st')) :
    (result = none ∧ raw = (synthResponse ctx.request [] rcodeServfail).toBytes ∧ st' = st) ∨
      result = some raw ∧
        ((∃ parsed ttl, fromBytes raw = ok parsed ∧ cacheTtl parsed = some ttl ∧
            st' = { st with cache := st.cache.insert rt answeredAt ctx.name ctx.qtype raw ttl }) ∨
          (∀ parsed, fromBytes raw = ok parsed → cacheTtl parsed = none) ∧ st' = st) := by
  unfold forwardAndCache at h
  split at h
  · split at h
    · obtain ⟨rfl, rfl⟩ := Prod.mk.inj (Outcome.ok.inj h)
      exact .inl ⟨rfl, rfl, rfl⟩
    · obtain ⟨parsed, hparsed, h⟩ | ⟨error, herror, h⟩ := handle_eq_ok.mp h
      · split at h
        · rename_i ttl httl
          obtain ⟨rfl, rfl⟩ := Prod.mk.inj (Outcome.ok.inj h)
          exact .inr ⟨rfl, .inl ⟨parsed, ttl, hparsed, httl, rfl⟩⟩
        · rename_i httl
          obtain ⟨rfl, rfl⟩ := Prod.mk.inj (Outcome.ok.inj h)
          refine .inr ⟨rfl, .inr ⟨fun parsed' hparsed' => ?_, rfl⟩⟩
          rw [← Outcome.ok.inj (hparsed.symm.trans hparsed')]
          exact httl
      · obtain ⟨rfl, rfl⟩ := Prod.mk.inj (Outcome.ok.inj h)
        refine .inr ⟨rfl, .inr ⟨fun parsed' hparsed' => ?_, rfl⟩⟩
        cases herror.symm.trans hparsed'
  · cases h

theorem cache_forwardAndCache {answeredAt : Instant} {ctx : ForwardCtx} {result : Option Bytes} {raw : Bytes}
    (h : st.forwardAndCache rt answeredAt ctx result = ok (raw, st')) : ∃ cache, st' = { st with cache := cache } := by
  obtain ⟨_, _, rfl⟩ | ⟨_, ⟨_, _, _, _, rfl⟩ | ⟨_, rfl⟩⟩ := forwardAndCache_cases h <;> exact ⟨_, rfl⟩

theorem cache_forwardCtx {answeredAt : Instant} {ctx : ForwardCtx} {flight : Flight} {reply : Bytes}
    (h : st.forwardCtx rt answeredAt ctx flight = ok (reply, st')) : ∃ cache, st' = { st with cache := cache } := by
  unfold forwardCtx at h
  split at h
  · obtain ⟨⟨raw, st₁⟩, hforward, h⟩ := bind_eq_ok.mp h
    obtain ⟨_, _, h⟩ := bind_eq_ok.mp h
    obtain ⟨rfl, rfl⟩ := Prod.mk.inj (Outcome.ok.inj h)
    exact cache_forwardAndCache hforward
  all_goals
    obtain ⟨_, _, h⟩ := bind_eq_ok.mp h
    obtain ⟨_, rfl⟩ := Prod.mk.inj (Outcome.ok.inj h)
    exact ⟨_, rfl⟩

/-- What can become of a parsed request. -/
inductive LocalCase (rt : Runtime) (st : ServerState) (m : Moment) (req : Bytes) (request : DnsPacket)
    (transport : Transport) : Resolution → ServerState → Prop where
  | blocked (hblocks : st.blocks rt request) :
    LocalCase rt st m req request transport (.ready (encode (synthResponse request [] rcodeNxdomain) transport)) st
  | own (hblocks : ¬ st.blocks rt request) {response : DnsPacket}
    (hresponse : st.localResponse rt m.unixTime request = ok response)
    (hhere : ∀ question, request.questions.head? = some question → ¬ st.looksElsewhere rt request) :
    LocalCase rt st m req request transport (.ready (encode (st.offerRecursion response) transport)) st
  | cached (hblocks : ¬ st.blocks rt request) {question : DnsQuestion} (hq : request.questions.head? = some question)
    (helse : st.looksElsewhere rt request) {raw reply : Bytes} {cache : Cache}
    (hget : st.cache.get rt m.now (rt.toLowercase question.qname) question.qtype = (some raw, cache))
    (hreply : replay raw request transport = ok reply) :
    LocalCase rt st m req request transport (.ready reply) { st with cache := cache }
  | forwarded (hblocks : ¬ st.blocks rt request) {question : DnsQuestion}
    (hq : request.questions.head? = some question) (helse : st.looksElsewhere rt request) {cache : Cache}
    (hget : st.cache.get rt m.now (rt.toLowercase question.qname) question.qtype = (none, cache))
    {upstream : SocketAddr}
    (hupstream : st.forwardRules.matchName (rt.toLowercase question.qname) = some upstream ∨
      st.forwardRules.matchName (rt.toLowercase question.qname) = none ∧ st.recursive = true ∧
        upstream = recursiveSentinel) :
    LocalCase rt st m req request transport
      (.forward ⟨request, req, rt.toLowercase question.qname, question.qtype, upstream, transport⟩)
      { st with cache := cache }
  | alone (hblocks : ¬ st.blocks rt request) {question : DnsQuestion} (hq : request.questions.head? = some question)
    (helse : st.looksElsewhere rt request) {cache : Cache}
    (hget : st.cache.get rt m.now (rt.toLowercase question.qname) question.qtype = (none, cache))
    {response : DnsPacket} (hresponse : st.localResponse rt m.unixTime request = ok response)
    (hmatch : st.forwardRules.matchName (rt.toLowercase question.qname) = none) (hrec : st.recursive = false) :
    LocalCase rt st m req request transport (.ready (encode response transport)) { st with cache := cache }

theorem localCase_of_answerLocally {request : DnsPacket} {r : Resolution}
    (h : st.answerLocally rt m req request transport = ok (r, st')) :
    LocalCase rt st m req request transport r st' := by
  unfold answerLocally at h
  split at h
  · rename_i hblocks
    obtain ⟨rfl, rfl⟩ := Prod.mk.inj (Outcome.ok.inj h)
    exact .blocked hblocks
  rename_i hblocks
  obtain ⟨response, hresponse, h⟩ := bind_eq_ok.mp h
  dsimp only at h
  split at h
  · rename_i question hq
    split at h
    · rename_i helse
      split at h
      · rename_i raw cache hget
        obtain ⟨reply, hreply, h⟩ := bind_eq_ok.mp h
        obtain ⟨rfl, rfl⟩ := Prod.mk.inj (Outcome.ok.inj h)
        exact .cached hblocks hq helse hget hreply
      · rename_i cache hget
        split at h
        · rename_i upstream hmatch
          obtain ⟨rfl, rfl⟩ := Prod.mk.inj (Outcome.ok.inj h)
          exact .forwarded hblocks hq helse hget (.inl hmatch)
        · rename_i hmatch
          split at h
          · rename_i hrec
            obtain ⟨rfl, rfl⟩ := Prod.mk.inj (Outcome.ok.inj h)
            exact .forwarded hblocks hq helse hget (.inr ⟨hmatch, hrec, rfl⟩)
          · rename_i hrec
            obtain ⟨rfl, rfl⟩ := Prod.mk.inj (Outcome.ok.inj h)
            exact .alone hblocks hq helse hget hresponse hmatch (Bool.eq_false_iff.mpr hrec)
    · rename_i helse
      obtain ⟨rfl, rfl⟩ := Prod.mk.inj (Outcome.ok.inj h)
      exact .own hblocks hresponse fun _ _ => helse
  · rename_i hq
    obtain ⟨rfl, rfl⟩ := Prod.mk.inj (Outcome.ok.inj h)
    refine .own hblocks hresponse fun question hq' => ?_
    rw [hq] at hq'
    cases hq'

theorem cache_answerLocally {request : DnsPacket} {r : Resolution}
    (h : st.answerLocally rt m req request transport = ok (r, st')) : ∃ cache, st' = { st with cache := cache } := by
  cases localCase_of_answerLocally h with
  | _ => exact ⟨_, rfl⟩

/-- `resolve_local` counts the request, and drops it if the limiter says so. -/
theorem resolveLocal_cases {r : Resolution} (h : st.resolveLocal rt m req client transport = ok (r, st')) :
    (∃ cache, st' = { st with cache := cache, limiter := (st.limiter.allow m.now client).2 }) ∧
      (r = .drop ∨ (st.limiter.allow m.now client).1 = true) := by
  unfold resolveLocal at h
  split at h
  · rename_i limiter hallow
    obtain ⟨rfl, rfl⟩ := Prod.mk.inj (Outcome.ok.inj h)
    rw [hallow]
    exact ⟨⟨_, rfl⟩, .inl rfl⟩
  · rename_i limiter hallow
    rw [hallow]
    refine ⟨?_, .inr rfl⟩
    obtain ⟨request, _, h⟩ | ⟨_, _, h⟩ := handle_eq_ok.mp h
    · obtain ⟨cache, rfl⟩ := cache_answerLocally h
      exact ⟨cache, rfl⟩
    · obtain ⟨_, rfl⟩ := Prod.mk.inj (Outcome.ok.inj h)
      exact ⟨_, rfl⟩

/-- A request that is not dropped was parsed, and `answerLocally` decided about it. -/
theorem localCase_of_resolveLocal {r : Resolution} (h : st.resolveLocal rt m req client transport = ok (r, st'))
    (hr : r ≠ .drop) : ∃ request limiter, fromBytes req = ok request ∧
      LocalCase rt { st with limiter := limiter } m req request transport r st' := by
  unfold resolveLocal at h
  split at h
  · obtain ⟨rfl, _⟩ := Prod.mk.inj (Outcome.ok.inj h)
    exact absurd rfl hr
  · obtain ⟨request, hreq, h⟩ | ⟨_, _, h⟩ := handle_eq_ok.mp h
    · exact ⟨request, _, hreq, localCase_of_answerLocally h⟩
    · obtain ⟨rfl, _⟩ := Prod.mk.inj (Outcome.ok.inj h)
      exact absurd rfl hr

/-- A query changes nothing but the cache and the limiter. -/
theorem resolve_changes {reply : Option Bytes} (h : st.resolve rt m req client transport = ok (reply, st')) :
    ∃ cache limiter, st' = { st with cache := cache, limiter := limiter } := by
  unfold resolve at h
  obtain ⟨transfer, _, h⟩ := bind_eq_ok.mp h
  cases transfer with
  | some resp =>
    obtain ⟨_, rfl⟩ := Prod.mk.inj (Outcome.ok.inj h)
    exact ⟨_, _, rfl⟩
  | none =>
    obtain ⟨⟨r, st₁⟩, hlocal, h⟩ := bind_eq_ok.mp h
    obtain ⟨⟨cache, rfl⟩, _⟩ := resolveLocal_cases hlocal
    cases r with
    | forward ctx =>
      obtain ⟨⟨bytes, st₂⟩, hforward, h⟩ := bind_eq_ok.mp h
      obtain ⟨_, rfl⟩ := Prod.mk.inj (Outcome.ok.inj h)
      obtain ⟨cache', rfl⟩ := cache_forwardCtx hforward
      exact ⟨_, _, rfl⟩
    | _ =>
      obtain ⟨_, rfl⟩ := Prod.mk.inj (Outcome.ok.inj h)
      exact ⟨_, _, rfl⟩

end Changes

end ServerState
end MiniDns
