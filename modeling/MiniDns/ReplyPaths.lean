import MiniDns.State

/-! Where a reply of `resolve` comes from. The server builds a packet of its own, or replays its own
SERVFAIL, or relays a message of someone else; `source` says which from the request and the state. -/
namespace MiniDns
open Lib Lib.Outcome Dns DnsRecord DnsPacket
set_option autoImplicit false

/-! ## Packets that the server builds -/

structure Answers (request : DnsPacket) (additionals : List DnsRecord) (p : DnsPacket) : Prop where
  id : p.header.id = request.header.id
  questions : p.questions = request.questions
  additionals : p.additionals = additionals

variable {rt : Runtime} {request p : DnsPacket} {additionals : List DnsRecord}

theorem answers_synthResponse (request : DnsPacket) (answers : List DnsRecord) (rcode : UInt16) :
    Answers request [] (synthResponse request answers rcode) := ⟨rfl, rfl, rfl⟩

theorem answers_buildResponse (rt : Runtime) (request : DnsPacket) (zones : ZoneSet) :
    Answers request (ednsEcho request) (buildResponse rt request zones) := ⟨rfl, rfl, rfl⟩

theorem Answers.withAnswers (h : Answers request additionals p) (answers : List DnsRecord) :
    Answers request additionals (MiniDns.withAnswers p answers) := ⟨h.id, h.questions, h.additionals⟩

theorem Answers.applyDns64 (h : Answers request additionals p) (zones : ZoneSet) (qname : Text)
    (net : Ipv6Addr) : Answers request additionals (MiniDns.applyDns64 rt p zones qname net) := by
  unfold MiniDns.applyDns64
  split
  · exact h
  dsimp only
  split
  · exact h
  split
  · exact h
  split
  · exact h
  · exact h.withAnswers _

theorem Answers.applyDnssec (h : Answers request additionals p) {zones : ZoneSet} {qname : Text} {qtype : UInt16}
    {keys : DnssecKeys} {unixTime : UInt32} {p' : DnsPacket}
    (hp : MiniDns.applyDnssec rt p zones qname qtype keys unixTime = ok p') :
    Answers request additionals p' := by
  unfold MiniDns.applyDnssec at hp
  dsimp only at hp
  split at hp
  · obtain ⟨rrsig, _, hp⟩ | ⟨_, _, hp⟩ := handle_eq_ok.mp hp
    · obtain rfl := Outcome.ok.inj hp
      exact ⟨h.id, h.questions, h.additionals⟩
    · obtain rfl := Outcome.ok.inj hp
      exact h.withAnswers _
  split at hp
  · obtain rfl := Outcome.ok.inj hp
    exact h
  split at hp
  · obtain rfl := Outcome.ok.inj hp
    exact h
  obtain ⟨rrsigs, _, hp⟩ := bind_eq_ok.mp hp
  split at hp
  · obtain rfl := Outcome.ok.inj hp
    exact h
  · obtain rfl := Outcome.ok.inj hp
    exact ⟨h.id, h.questions, h.additionals⟩

namespace ServerState
variable {st st' : ServerState} {m : Moment} {req : Bytes} {client : IpAddr} {transport : Transport}

theorem answers_localResponse {unixTime : UInt32} (hp : st.localResponse rt unixTime request = ok p) :
    Answers request (ednsEcho request) p := by
  unfold localResponse at hp
  obtain ⟨signed, hsigned, hp⟩ := bind_eq_ok.mp hp
  have hanswers : Answers request (ednsEcho request) signed := by
    unfold signedResponse at hsigned
    dsimp only at hsigned
    split at hsigned
    · exact (answers_buildResponse rt request st.zones).applyDnssec hsigned
    · obtain rfl := Outcome.ok.inj hsigned
      exact answers_buildResponse rt request st.zones
  split at hp
  · split at hp
    · obtain rfl := Outcome.ok.inj hp
      exact hanswers.applyDns64 _ _ _
    · obtain rfl := Outcome.ok.inj hp
      exact hanswers
  · obtain rfl := Outcome.ok.inj hp
    exact hanswers

theorem answers_offerRecursion (h : Answers request additionals p) :
    Answers request additionals (st.offerRecursion p) := by
  unfold offerRecursion
  split
  · exact ⟨h.id, h.questions, h.additionals⟩
  · exact h

theorem answers_transferResponse {question : DnsQuestion}
    (hp : st.transferResponse rt request question client = ok p) : Answers request [] p := by
  unfold transferResponse at hp
  obtain ⟨allowed, _, hp⟩ := bind_eq_ok.mp hp
  split at hp
  · split at hp
    · obtain rfl := Outcome.ok.inj hp
      exact answers_synthResponse request [] 3
    · obtain rfl := Outcome.ok.inj hp
      exact ⟨rfl, rfl, rfl⟩
  · obtain rfl := Outcome.ok.inj hp
    exact answers_synthResponse request [] 5

/-! ## Sources of replies -/

/-- What a reply is made from: a packet of the server with some additional records, the SERVFAIL for a
failed upstream query, or a message of someone else. -/
inductive Source where
  | own (additionals : List DnsRecord)
  | failed
  | relayed (raw : Bytes)

def flightSource : Flight → Source
  | .leader (some raw) | .follower (some raw) => .relayed raw
  | .leader none | .follower none => .failed

/-- The source of the reply for a question: transfers and blocked names are answered without an OPT
record, names that are unknown locally from the cache or from upstream. -/
def questionSource (rt : Runtime) (st : ServerState) (m : Moment) (request : DnsPacket)
    (transport : Transport) (question : DnsQuestion) : Source :=
  if transport = .tcp ∧ question.qtype = typeAxfr ∨ st.blocks rt request then .own []
  else if st.looksElsewhere rt request then
    let name := rt.toLowercase question.qname
    match (st.cache.get rt m.now name question.qtype).1 with
    | some cached => .relayed cached
    | none =>
      if (st.forwardRules.matchName name).isSome || st.recursive then flightSource m.flight
      else .own (ednsEcho request)
  else .own (ednsEcho request)

def source (rt : Runtime) (st : ServerState) (m : Moment) (request : DnsPacket) (transport : Transport) :
    Source :=
  match request.questions.head? with
  | none => .own (ednsEcho request)
  | some question => st.questionSource rt m request transport question

/-- The packet that the server builds when it answers by itself. -/
def ownPacket (rt : Runtime) (st : ServerState) (m : Moment) (request : DnsPacket) (client : IpAddr)
    (transport : Transport) : Outcome Empty DnsPacket :=
  match request.questions.head? with
  | none => do
    let p ← st.localResponse rt m.unixTime request
    pure (st.offerRecursion p)
  | some question =>
    if transport = .tcp ∧ question.qtype = typeAxfr then st.transferResponse rt request question client
    else if st.blocks rt request then ok (synthResponse request [] rcodeNxdomain)
    else do
      let p ← st.localResponse rt m.unixTime request
      pure (if st.looksElsewhere rt request then p else st.offerRecursion p)

def Yields (rt : Runtime) (st : ServerState) (m : Moment) (request : DnsPacket) (client : IpAddr)
    (transport : Transport) (reply : Bytes) : Source → Prop
  | .own additionals =>
    ∃ p, st.ownPacket rt m request client transport = ok p ∧ Answers request additionals p ∧
      reply = encode p transport
  | .failed => replay (synthResponse request [] rcodeServfail).toBytes request transport = ok reply
  | .relayed raw => replay raw request transport = ok reply

theorem yields_of_limiter {limiter : RateLimiter} {reply : Bytes} {source : Source}
    (h : ({ st with limiter := limiter } : ServerState).Yields rt m request client transport reply source) :
    st.Yields rt m request client transport reply source := by
  cases source with
  | own additionals => exact h
  | failed => exact h
  | relayed raw => exact h

theorem tryAxfr_some {reply : Bytes} (hreq : fromBytes req = ok request)
    (h : st.tryAxfr rt req client = ok (some reply)) :
    ∃ question p, request.questions.head? = some question ∧ question.qtype = typeAxfr ∧
      st.transferResponse rt request question client = ok p ∧ reply = p.toBytes := by
  simp only [tryAxfr, hreq, handle] at h
  split at h
  · cases h
  rename_i question rest heq
  split at h
  · cases h
  rename_i htype
  obtain ⟨p, hp, h⟩ := bind_eq_ok.mp h
  exact ⟨question, p, by rw [heq]; rfl, not_not.mp htype, hp, (Option.some.inj (Outcome.ok.inj h)).symm⟩

theorem tryAxfr_none (hreq : fromBytes req = ok request) (h : st.tryAxfr rt req client = ok none)
    {question : DnsQuestion} (hq : request.questions.head? = some question) : question.qtype ≠ typeAxfr := by
  simp only [tryAxfr, hreq, handle] at h
  split at h
  · rename_i heq
    rw [heq] at hq
    cases hq
  rename_i first rest heq
  rw [heq] at hq
  obtain rfl := Option.some.inj hq
  split at h
  · assumption
  obtain ⟨p, _, h⟩ := bind_eq_ok.mp h
  cases Outcome.ok.inj h

section Question
variable {question : DnsQuestion}

theorem source_of_blocked (hq : request.questions.head? = some question) (hblocks : st.blocks rt request) :
    st.source rt m request transport = .own [] := by
  rw [source, hq]
  dsimp only
  rw [questionSource, if_pos (.inr hblocks)]

theorem ownPacket_of_blocked (hq : request.questions.head? = some question)
    (htype : ¬ (transport = .tcp ∧ question.qtype = typeAxfr)) (hblocks : st.blocks rt request) :
    st.ownPacket rt m request client transport = ok (synthResponse request [] rcodeNxdomain) := by
  rw [ownPacket, hq]
  dsimp only
  rw [if_neg htype, if_pos hblocks]

/-- Where the reply to a question comes from that is neither a transfer nor blocked. -/
theorem source_of_question (hq : request.questions.head? = some question)
    (htype : ¬ (transport = .tcp ∧ question.qtype = typeAxfr)) (hblocks : ¬ st.blocks rt request) :
    st.source rt m request transport =
      if st.looksElsewhere rt request then
        let name := rt.toLowercase question.qname
        match (st.cache.get rt m.now name question.qtype).1 with
        | some cached => .relayed cached
        | none =>
          if (st.forwardRules.matchName name).isSome || st.recursive then flightSource m.flight
          else .own (ednsEcho request)
      else .own (ednsEcho request) := by
  rw [source, hq]
  dsimp only
  rw [questionSource, if_neg (not_or.mpr ⟨htype, hblocks⟩)]

theorem ownPacket_of_question {response : DnsPacket} (hq : request.questions.head? = some question)
    (htype : ¬ (transport = .tcp ∧ question.qtype = typeAxfr)) (hblocks : ¬ st.blocks rt request)
    (hresponse : st.localResponse rt m.unixTime request = ok response) :
    st.ownPacket rt m request client transport =
      ok (if st.looksElsewhere rt request then response else st.offerRecursion response) := by
  rw [ownPacket, hq]
  dsimp only
  rw [if_neg htype, if_neg hblocks, hresponse]
  rfl

end Question

theorem answerLocally_cases {res : Resolution} (client : IpAddr)
    (htype : ∀ question, request.questions.head? = some question →
      ¬ (transport = .tcp ∧ question.qtype = typeAxfr))
    (h : st.answerLocally rt m req request transport = ok (res, st')) :
    (∃ reply, res = .ready reply ∧
        st.Yields rt m request client transport reply (st.source rt m request transport)) ∨
      ∃ ctx, res = .forward ctx ∧ ctx.request = request ∧ ctx.transport = transport ∧
        st.source rt m request transport = flightSource m.flight := by
  cases localCase_of_answerLocally h with
  | blocked hblocks =>
    refine .inl ⟨_, rfl, ?_⟩
    cases hq : request.questions.head? with
    | none => simp [blocks, hq] at hblocks
    | some question =>
      rw [source_of_blocked hq hblocks]
      exact ⟨_, ownPacket_of_blocked hq (htype question hq) hblocks,
        answers_synthResponse request [] rcodeNxdomain, rfl⟩
  | @own hblocks response hresponse hhere =>
    refine .inl ⟨_, rfl, ?_⟩
    have hanswers : Answers request (ednsEcho request) (st.offerRecursion response) :=
      answers_offerRecursion (answers_localResponse hresponse)
    cases hq : request.questions.head? with
    | none =>
      rw [source, hq]
      refine ⟨_, ?_, hanswers, rfl⟩
      rw [ownPacket, hq]
      dsimp only
      rw [hresponse]
      rfl
    | some question =>
      rw [source_of_question hq (htype question hq) hblocks, if_neg (hhere question hq)]
      refine ⟨_, ?_, hanswers, rfl⟩
      rw [ownPacket_of_question hq (htype question hq) hblocks hresponse, if_neg (hhere question hq)]
  | cached hblocks hq helse hget hreply =>
    rw [source_of_question hq (htype _ hq) hblocks, if_pos helse]
    dsimp only
    rw [hget]
    exact .inl ⟨_, rfl, hreply⟩
  | forwarded hblocks hq helse hget hupstream =>
    rw [source_of_question hq (htype _ hq) hblocks, if_pos helse]
    dsimp only
    rw [hget]
    refine .inr ⟨_, rfl, rfl, rfl, if_pos ?_⟩
    obtain hmatch | ⟨_, hrec, _⟩ := hupstream
    · rw [hmatch, Option.isSome_some, Bool.true_or]
    · rw [hrec, Bool.or_true]
  | alone hblocks hq helse hget hresponse hmatch hrec =>
    rw [source_of_question hq (htype _ hq) hblocks, if_pos helse]
    dsimp only
    rw [hget]
    dsimp only
    rw [hmatch, hrec]
    refine .inl ⟨_, rfl, _, ?_, answers_localResponse hresponse, rfl⟩
    rw [ownPacket_of_question hq (htype _ hq) hblocks hresponse, if_pos helse]

theorem forwardCtx_yields (st₀ : ServerState) {ctx : ForwardCtx} {flight : Flight} {answeredAt : Instant}
    {reply : Bytes}
    (h : st.forwardCtx rt answeredAt ctx flight = ok (reply, st')) :
    st₀.Yields rt m ctx.request client ctx.transport reply (flightSource flight) := by
  unfold forwardCtx at h
  split at h
  · rename_i result
    obtain ⟨⟨raw, st₁⟩, hraw, h⟩ := bind_eq_ok.mp h
    obtain ⟨reply', hreply, h⟩ := bind_eq_ok.mp h
    obtain ⟨rfl, _⟩ := Prod.mk.inj (Outcome.ok.inj h)
    obtain ⟨rfl, rfl, _⟩ | ⟨rfl, _⟩ := forwardAndCache_cases hraw <;> exact hreply
  · obtain ⟨reply', hreply, h⟩ := bind_eq_ok.mp h
    obtain ⟨rfl, _⟩ := Prod.mk.inj (Outcome.ok.inj h)
    exact hreply
  · obtain ⟨reply', hreply, h⟩ := bind_eq_ok.mp h
    obtain ⟨rfl, _⟩ := Prod.mk.inj (Outcome.ok.inj h)
    exact hreply

theorem parsed_of_resolve {reply : Bytes} (h : st.resolve rt m req client transport = ok (some reply, st')) :
    ∃ request, fromBytes req = ok request := by
  unfold resolve at h
  obtain ⟨axfr, haxfr, h⟩ := bind_eq_ok.mp h
  cases axfr with
  | some resp =>
    split at haxfr
    · obtain ⟨request, hreq, _⟩ | ⟨_, _, haxfr⟩ := handle_eq_ok.mp haxfr
      · exact ⟨request, hreq⟩
      · cases haxfr
    · cases haxfr
  | none =>
    obtain ⟨⟨res, st₁⟩, hlocal, hres⟩ := bind_eq_ok.mp h
    unfold resolveLocal at hlocal
    split at hlocal
    · obtain ⟨rfl, _⟩ := Prod.mk.inj (Outcome.ok.inj hlocal)
      cases (Prod.mk.inj (Outcome.ok.inj hres)).1
    · obtain ⟨request, hreq, _⟩ | ⟨_, _, hlocal⟩ := handle_eq_ok.mp hlocal
      · exact ⟨request, hreq⟩
      · obtain ⟨rfl, _⟩ := Prod.mk.inj (Outcome.ok.inj hlocal)
        cases (Prod.mk.inj (Outcome.ok.inj hres)).1

/-- **Every reply is what its source yields.** -/
theorem resolve_source {reply : Bytes} (hreq : fromBytes req = ok request)
    (h : st.resolve rt m req client transport = ok (some reply, st')) :
    st.Yields rt m request client transport reply (st.source rt m request transport) := by
  unfold resolve at h
  obtain ⟨axfr, haxfr, h⟩ := bind_eq_ok.mp h
  cases axfr with
  | some resp =>
    obtain ⟨hreply, _⟩ := Prod.mk.inj (Outcome.ok.inj h)
    obtain rfl := Option.some.inj hreply
    split at haxfr
    · rename_i htcp
      obtain ⟨question, p, hq, htype, hp, rfl⟩ := tryAxfr_some hreq haxfr
      rw [source, hq]
      dsimp only
      rw [questionSource, if_pos (.inl ⟨htcp, htype⟩)]
      subst htcp
      refine ⟨p, ?_, answers_transferResponse hp, rfl⟩
      rw [ownPacket, hq]
      dsimp only
      rw [if_pos ⟨rfl, htype⟩, hp]
    · cases haxfr
  | none =>
    have htype : ∀ question, request.questions.head? = some question →
        ¬ (transport = .tcp ∧ question.qtype = typeAxfr) := by
      rintro question hq ⟨htcp, hqtype⟩
      rw [if_pos htcp] at haxfr
      exact tryAxfr_none hreq haxfr hq hqtype
    obtain ⟨⟨res, st₁⟩, hlocal, hres⟩ := bind_eq_ok.mp h
    unfold resolveLocal at hlocal
    split at hlocal
    · obtain ⟨rfl, _⟩ := Prod.mk.inj (Outcome.ok.inj hlocal)
      cases (Prod.mk.inj (Outcome.ok.inj hres)).1
    · rename_i limiter _
      rw [hreq] at hlocal
      -- the limiter has counted the query; nothing else of the state has changed
      have hcases := answerLocally_cases client htype hlocal
      have hsame : { st with limiter := limiter }.source rt m request transport =
        st.source rt m request transport := rfl
      rw [hsame] at hcases
      obtain ⟨reply', rfl, hyields⟩ | ⟨ctx, rfl, rfl, rfl, hflight⟩ := hcases
      · obtain rfl := Option.some.inj (Prod.mk.inj (Outcome.ok.inj hres)).1
        exact yields_of_limiter hyields
      · obtain ⟨⟨bytes, st₂⟩, hforward, hres⟩ := bind_eq_ok.mp hres
        obtain rfl := Option.some.inj (Prod.mk.inj (Outcome.ok.inj hres)).1
        rw [hflight]
        exact forwardCtx_yields st hforward

end ServerState
end MiniDns
