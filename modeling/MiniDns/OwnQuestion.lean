import MiniDns.Dns.Codec
import MiniDns.ReplyPaths

/-! Whose question a reply carries. A packet that the server builds carries the client's question
when its name survives the encoding; a relayed message carries the question it was made for. -/
namespace MiniDns
open Lib Lib.Outcome Dns DnsRecord DnsPacket
open DnsPacketEncoder (headerBytes)
set_option autoImplicit false

/-! ## The question section of a message -/

def questionSection (msg : Bytes) : Outcome DnsError (List DnsQuestion) :=
  if msg.length < 12 then err (.truncated "header")
  else do
    let header ← parseHeader msg
    let (questions, _) ← parseQuestions msg header.questions.toNat 12
    pure questions

theorem questionSection_eq_ok {msg : Bytes} {qs : List DnsQuestion} :
    questionSection msg = ok qs ↔ 12 ≤ msg.length ∧ ∃ header next, parseHeader msg = ok header ∧
      parseQuestions msg header.questions.toNat 12 = ok (qs, next) := by
  unfold questionSection
  split
  · constructor
    · intro h
      cases h
    · rintro ⟨_, _⟩
      omega
  · simp only [bind_eq_ok, Prod.exists, pure_eq_ok, Outcome.ok.injEq]
    constructor
    · rintro ⟨header, hheader, qs', next, hqs, rfl⟩
      exact ⟨by omega, header, next, hheader, hqs⟩
    · rintro ⟨_, header, next, hheader, hqs⟩
      exact ⟨header, hheader, qs, next, hqs, rfl⟩

theorem questionSection_of_fromBytes {msg : Bytes} {p : DnsPacket} (h : fromBytes msg = ok p) :
    questionSection msg = ok p.questions := by
  obtain ⟨hlen, hheader, next, _, _, _, hqs, _⟩ := fromBytes_ok h
  exact questionSection_eq_ok.mpr ⟨hlen, _, next, hheader, hqs⟩

theorem toBytes_head (p : DnsPacket) : ∃ more, p.toBytes = headerBytes p ++ more := by
  rw [toBytes_eq, List.append_assoc]
  exact ⟨_, rfl⟩

theorem questionSection_toBytes {p : DnsPacket} (hcount : p.questions.length ≤ 65535) {qs : List DnsQuestion} :
    questionSection p.toBytes = ok qs ↔
      ∃ next, parseQuestions p.toBytes p.questions.length 12 = ok (qs, next) := by
  obtain ⟨more, hmore⟩ := toBytes_head p
  have hlen : 12 ≤ p.toBytes.length := by
    rw [hmore, List.length_append, headerBytes_length]
    omega
  have hheader : parseHeader p.toBytes = ok p.recounted.header := by
    rw [hmore]
    exact parseHeader_append p more
  have hcounted : p.recounted.header.questions.toNat = p.questions.length := toNat_count hcount
  rw [questionSection_eq_ok, hheader]
  constructor
  · rintro ⟨_, header, next, hok, hqs⟩
    obtain rfl := Outcome.ok.inj hok
    exact ⟨next, hcounted ▸ hqs⟩
  · rintro ⟨next, hqs⟩
    exact ⟨hlen, _, next, rfl, hcounted.symm ▸ hqs⟩

theorem questionSection_toBytes_iff {p : DnsPacket} (hcount : p.questions.length ≤ 65535) :
    questionSection p.toBytes = ok p.questions ↔ Layout.start.QuestionsSurvive p.questions := by
  rw [questionSection_toBytes hcount]
  constructor
  · rintro ⟨next, h⟩
    exact ((parseQuestions_toBytes p next).mp h).1
  · intro h
    exact ⟨_, (parseQuestions_toBytes p _).mpr ⟨h, rfl⟩⟩

theorem u16At_toBytes (p : DnsPacket) : (u16At p.toBytes 0 : Outcome DnsError UInt16) = ok p.header.id := by
  obtain ⟨more, hmore⟩ := toBytes_head p
  have h := u16At_append DnsError [] (bytes16 p.header.flags ++
    bytes16 (UInt16.ofNat p.questions.length) ++ bytes16 (UInt16.ofNat p.answers.length) ++
    bytes16 (UInt16.ofNat p.authorities.length) ++ bytes16 (UInt16.ofNat p.additionals.length) ++ more)
    p.header.id (i := 0) rfl
  rw [hmore, headerBytes]
  simpa only [List.nil_append, List.append_assoc] using h

/-! ## Replies -/

/-- The reply is under the client's ID and carries the client's questions. -/
structure AnswersQuery (request : DnsPacket) (reply : Bytes) : Prop where
  id : (u16At reply 0 : Outcome DnsError UInt16) = ok request.header.id
  questions : questionSection reply = ok request.questions

variable {request p q : DnsPacket} {transport : Transport}

theorem toUdpBytes_cases (p : DnsPacket) :
    ∃ p', p.toUdpBytes = p'.toBytes ∧ (p' = p ∨ p' = p.truncated) := by
  unfold toUdpBytes
  split
  · exact ⟨p, rfl, .inl rfl⟩
  · exact ⟨p.truncated, rfl, .inr rfl⟩

theorem encode_cases (p : DnsPacket) (transport : Transport) :
    ∃ p' : DnsPacket, encode p transport = p'.toBytes ∧ p'.header.id = p.header.id ∧ p'.questions = p.questions := by
  cases transport with
  | tcp => exact ⟨p, rfl, rfl, rfl⟩
  | udp =>
    obtain ⟨p', h, rfl | rfl⟩ := toUdpBytes_cases p
    · exact ⟨p', h, rfl, rfl⟩
    · exact ⟨_, h, rfl, rfl⟩

theorem answersQuery_encode (request p : DnsPacket) (transport : Transport)
    (hid : p.header.id = request.header.id) (hqs : p.questions = request.questions)
    (hcount : request.questions.length ≤ 65535) :
    AnswersQuery request (encode p transport) ↔ Layout.start.QuestionsSurvive request.questions := by
  obtain ⟨p', hencode, hid', hqs'⟩ := encode_cases p transport
  rw [hqs] at hqs'
  have hiff := questionSection_toBytes_iff (p := p') (hqs' ▸ hcount)
  rw [hqs'] at hiff
  rw [hencode]
  exact ⟨fun h => hiff.mp h.questions, fun h => ⟨by rw [u16At_toBytes, hid', hid], hiff.mpr h⟩⟩

theorem answersQuery_patch {raw : Bytes} :
    AnswersQuery request (patchTransactionId raw request.header.id) ↔
      questionSection (patchTransactionId raw request.header.id) = ok request.questions := by
  refine ⟨fun h => h.questions, fun h => ⟨?_, h⟩⟩
  have hlen := (questionSection_eq_ok.mp h).1
  unfold patchTransactionId at hlen ⊢
  split
  · exact u16At_append DnsError [] (raw.drop 2) request.header.id rfl
  · rename_i hshort
    rw [if_neg hshort] at hlen
    omega

theorem patchTransactionId_toBytes {id : UInt16} (h : p.header.id = id) :
    patchTransactionId p.toBytes id = p.toBytes := by
  obtain ⟨more, hmore⟩ := toBytes_head p
  rw [hmore, headerBytes, h]
  simp [patchTransactionId, bytes16]

/-- The server's own SERVFAIL is replayed; it answers the client's query like any other own packet. -/
theorem answersQuery_servfail {reply : Bytes} (hcount : request.questions.length ≤ 65535)
    (h : replay (synthResponse request [] rcodeServfail).toBytes request transport = ok reply) :
    AnswersQuery request reply ↔ Layout.start.QuestionsSurvive request.questions := by
  have hanswers := answers_synthResponse request [] rcodeServfail
  generalize synthResponse request [] rcodeServfail = servfail at h hanswers
  have hqs := hanswers.questions
  have hown := answersQuery_encode request servfail .tcp hanswers.id hqs hcount
  -- the patched ID is the one that is there already
  have hpatch := patchTransactionId_toBytes hanswers.id
  cases transport with
  | tcp =>
    obtain rfl := Outcome.ok.inj h
    rw [hpatch]
    exact hown
  | udp =>
    obtain ⟨q, hq, h⟩ | ⟨_, _, h⟩ := handle_eq_ok.mp h
    swap
    · obtain rfl := Outcome.ok.inj h
      rw [hpatch]
      exact hown
    obtain rfl := Outcome.ok.inj h
    obtain ⟨next, hread⟩ := (questionSection_toBytes (hqs ▸ hcount)).mp (questionSection_of_fromBytes hq)
    have hlen : q.questions.length = request.questions.length := by
      rw [parseQuestions_length hread, hqs]
    constructor
    · intro hreply
      obtain ⟨p', hencode, _, hqs'⟩ := encode_cases (readdressed q request) .udp
      have hsection := hreply.questions
      rw [show (readdressed q request).toUdpBytes = p'.toBytes from hencode] at hsection
      have hqs'' : p'.questions = q.questions := hqs'
      obtain ⟨next', hback⟩ := (questionSection_toBytes (by rw [hqs'', hlen]; exact hcount)).mp hsection
      rw [hqs'', hlen, toBytes_eq, hqs'', List.append_assoc] at hback
      rw [hqs, toBytes_eq, hqs, List.append_assoc] at hread
      rw [← List.append_assoc] at hread hback
      exact (readable_start servfail).questionsSurvive_of_swap (readable_start p') hread hback
    · intro hsurvive
      have hsection := (questionSection_toBytes_iff (hqs ▸ hcount)).mpr (hqs ▸ hsurvive)
      rw [questionSection_of_fromBytes hq, hqs] at hsection
      have hsame : (readdressed q request).questions = request.questions := Outcome.ok.inj hsection
      exact (answersQuery_encode request (readdressed q request) .udp rfl hsame hcount).mpr hsurvive

/-- The relayed message carries the client's questions. Over TCP, and when it cannot be parsed, it goes
out as it came, under the client's ID; otherwise it is encoded again. -/
def RelayCarries (request : DnsPacket) (raw : Bytes) (transport : Transport) : Prop :=
  match transport, fromBytes raw with
  | .udp, ok q => q.questions = request.questions ∧ Layout.start.QuestionsSurvive request.questions
  | _, _ => questionSection (patchTransactionId raw request.header.id) = ok request.questions

/-- Encoding a relayed message again does not change its own questions. -/
def RelayKept (raw : Bytes) (transport : Transport) : Prop :=
  transport = .udp → ∀ q, fromBytes raw = ok q → Layout.start.QuestionsSurvive q.questions

theorem answersQuery_replay {raw reply : Bytes} (hcount : request.questions.length ≤ 65535)
    (h : replay raw request transport = ok reply) :
    AnswersQuery request reply ∧ RelayKept raw transport ↔ RelayCarries request raw transport := by
  cases transport with
  | tcp =>
    obtain rfl := Outcome.ok.inj h
    rw [answersQuery_patch]
    exact and_iff_left fun hudp => by cases hudp
  | udp =>
    obtain ⟨q, hq, h⟩ | ⟨error, herror, h⟩ := handle_eq_ok.mp h
    · obtain rfl := Outcome.ok.inj h
      simp only [RelayCarries, hq]
      have hsame : ∀ hqs : q.questions = request.questions,
          AnswersQuery request (readdressed q request).toUdpBytes ↔
            Layout.start.QuestionsSurvive request.questions := fun hqs =>
        answersQuery_encode request (readdressed q request) .udp rfl hqs hcount
      constructor
      · rintro ⟨hreply, hkept⟩
        have hsurvive := hkept rfl q hq
        have hqcount : q.questions.length ≤ 65535 := (counted_of_fromBytes hq).questions
        have hown := answersQuery_encode { q with header := { q.header with id := request.header.id } }
          (readdressed q request) .udp rfl rfl hqcount
        have hqs : q.questions = request.questions :=
          Outcome.ok.inj ((hown.mpr hsurvive).questions.symm.trans hreply.questions)
        exact ⟨hqs, hqs ▸ hsurvive⟩
      · rintro ⟨hqs, hsurvive⟩
        refine ⟨(hsame hqs).mpr hsurvive, fun _ q' hq' => ?_⟩
        obtain rfl := Outcome.ok.inj (hq.symm.trans hq')
        exact hqs ▸ hsurvive
    · obtain rfl := Outcome.ok.inj h
      simp only [RelayCarries, herror]
      rw [answersQuery_patch]
      exact and_iff_left fun _ q hq => by rw [herror] at hq; cases hq

/-! ## Every path of `resolve` -/

/-- The request's own question is what the answer is made from: its names survive when the server
answers by itself, and otherwise the relayed message carries it. -/
def CarriesQuestion (rt : Runtime) (st : ServerState) (m : Moment) (request : DnsPacket)
    (transport : Transport) : Prop :=
  match st.source rt m request transport with
  | .own _ | .failed => Layout.start.QuestionsSurvive request.questions
  | .relayed raw => RelayCarries request raw transport

/-- **A reply answers the client's own query exactly when its question carries**, unless the encoding
of a relayed message changes that message's own questions. -/
theorem resolve_answersQuery (rt : Runtime) (st st' : ServerState) (m : Moment) (req : Bytes)
    (client : IpAddr) (transport : Transport) (request : DnsPacket) (reply : Bytes)
    (hreq : fromBytes req = ok request)
    (h : st.resolve rt m req client transport = ok (some reply, st')) :
    AnswersQuery request reply ∧
        (∀ raw, st.source rt m request transport = .relayed raw → RelayKept raw transport) ↔
      CarriesQuestion rt st m request transport := by
  have hcount := (counted_of_fromBytes hreq).questions
  have hyields := ServerState.resolve_source hreq h
  unfold CarriesQuestion
  cases hsource : st.source rt m request transport with
  | own additionals =>
    rw [hsource] at hyields
    obtain ⟨p, _, hp, rfl⟩ := hyields
    rw [answersQuery_encode request p transport hp.id hp.questions hcount]
    exact and_iff_left fun raw hraw => by cases hraw
  | failed =>
    rw [hsource] at hyields
    rw [answersQuery_servfail hcount hyields]
    exact and_iff_left fun raw hraw => by cases hraw
  | relayed raw =>
    rw [hsource] at hyields
    refine Iff.trans ?_ (answersQuery_replay hcount hyields)
    exact and_congr_right fun _ => ⟨fun hkept => hkept raw rfl, fun hkept raw' hraw => by
      cases hraw
      exact hkept⟩

def forwardingServer : ServerState where
  zones := ZoneSet.empty
  forwardRules := ForwardRules.single ⟨.v4 ⟨9, 9, 9, 9⟩, 53, 0⟩
  forwarder := true
  recursive := false
  cache := Cache.new 1024
  limiter := RateLimiter.disabled
  blocklist := Blocklist.empty
  dns64Prefix := none
  axfrAcl := Acl.denyAll
  dnssecKeys := none

def letterQuery (id letter : UInt8) : Bytes :=
  [0, id, 1, 0, 0, 1, 0, 0, 0, 0, 0, 0, 1, letter, 0, 0, 1, 0, 1]

def letterAnswer (id letter : UInt8) : Bytes :=
  [0, id, 0x81, 0x80, 0, 1, 0, 1, 0, 0, 0, 0, 1, letter, 0, 0, 1, 0, 1,
    0xC0, 12, 0, 1, 0, 1, 0, 0, 0, 60, 0, 4, 10, 0, 0, 1]

def letterClient (n : UInt8) : IpAddr := .v4 ⟨10, 0, 0, n⟩

theorem resolve_answersQuery_letterQuery : ∃ request st',
    fromBytes (letterQuery 1 65) = ok request ∧
      forwardingServer.resolve .ascii ⟨0, 0, .leader (some (letterAnswer 1 65)), 0⟩ (letterQuery 1 65)
        (letterClient 1) .udp = ok (some (letterAnswer 1 65), st') ∧
      (AnswersQuery request (letterAnswer 1 65) ∧
        (∀ raw, forwardingServer.source .ascii ⟨0, 0, .leader (some (letterAnswer 1 65)), 0⟩ request .udp =
          .relayed raw → RelayKept raw .udp) ↔
        CarriesQuestion .ascii forwardingServer ⟨0, 0, .leader (some (letterAnswer 1 65)), 0⟩ request .udp) := by
  have hrun : (forwardingServer.resolve .ascii ⟨0, 0, .leader (some (letterAnswer 1 65)), 0⟩
      (letterQuery 1 65) (letterClient 1) .udp >>= fun r => ok r.1) = ok (some (letterAnswer 1 65)) := by
    decide
  obtain ⟨⟨reply, st'⟩, h, heq⟩ := bind_eq_ok.mp hrun
  obtain rfl := Outcome.ok.inj heq
  have hreq : fromBytes (letterQuery 1 65) = ok ⟨⟨1, 0x100, 1, 0, 0, 0⟩, [⟨['A'], 1, 1⟩], [], [], []⟩ := by
    decide
  exact ⟨_, st', hreq, h, resolve_answersQuery _ _ _ _ _ _ _ _ _ hreq h⟩

/-- The first client asks for `A`, and the upstream's answer is cached. The second client asks for `a`
and is given the answer to `A`. -/
theorem cached_answer_to_another_question : ∃ request,
    (do
      let first ← forwardingServer.resolve .ascii ⟨0, 0, .leader (some (letterAnswer 1 65)), 0⟩
        (letterQuery 1 65) (letterClient 1) .udp
      let second ← first.2.resolve .ascii ⟨1, 0, .leader none, 1⟩ (letterQuery 2 97) (letterClient 2) .udp
      pure (first.1, second.1)) = ok (some (letterAnswer 1 65), some (letterAnswer 2 65)) ∧
    fromBytes (letterQuery 2 97) = ok request ∧ request.questions = [⟨['a'], 1, 1⟩] ∧
    questionSection (letterAnswer 2 65) = ok [⟨['A'], 1, 1⟩] ∧
    ¬ AnswersQuery request (letterAnswer 2 65) := by
  refine ⟨⟨⟨2, 0x100, 1, 0, 0, 0⟩, [⟨['a'], 1, 1⟩], [], [], []⟩, by decide, by decide, rfl, by decide, ?_⟩
  intro h
  exact absurd h.questions (by decide)

end MiniDns
