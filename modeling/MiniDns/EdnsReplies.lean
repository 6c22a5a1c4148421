import MiniDns.Dns.PointerDepth
import MiniDns.ReplayRecords

/-! OPT records in replies. An answer from the zones echoes the client's EDNS, a blocked name, a transfer
and a SERVFAIL over TCP do not, and a relayed message has what another exchange has put into it. -/
namespace MiniDns
open Lib Lib.Outcome Dns DnsRecord DnsPacket
set_option autoImplicit false

/-! ## OPT records of a message -/

/-- A reader finds `n` OPT records in the additional section of the message. -/
def HasOpts (msg : Bytes) (n : ℕ) : Prop := ∃ s, Carries msg s ∧ s.additionals.countP WireRecord.isOpt = n

def optsAsked (request : DnsPacket) : ℕ := if request.additionals.any isOpt then 1 else 0

def AnswersEdns (request : DnsPacket) (reply : Bytes) : Prop := HasOpts reply (optsAsked request)

theorem countP_wireOf (rs : List DnsRecord) : (rs.map wireOf).countP WireRecord.isOpt = rs.countP isOpt := by
  rw [List.countP_map]
  congr 1
  funext r
  exact isOpt_of_rtype rfl

theorem Legible.hasOpts {p : DnsPacket} (h : Legible p) {n : ℕ} :
    HasOpts p.toBytes n ↔ p.additionals.countP isOpt = n := by
  simp only [HasOpts, h.carries, exists_eq_left, DnsPacket.wireSections, countP_wireOf]

theorem any_isOpt_iff (p : DnsPacket) : p.additionals.any isOpt = p.ednsUdpSize.isSome := by
  rw [ednsUdpSize_eq]
  induction p.additionals with
  | nil => rfl
  | cons r rs ih =>
    rw [List.any_cons, ih]
    cases hr : r.isOpt with
    | false => rw [optSize_cons_of_not_opt hr, Bool.false_or]
    | true => cases r <;> first | rfl | cases hr

theorem optsAsked_eq (request : DnsPacket) : optsAsked request = if request.ednsUdpSize.isSome then 1 else 0 := by
  rw [optsAsked, any_isOpt_iff]

theorem countP_ednsEcho (request : DnsPacket) : (ednsEcho request).countP isOpt = optsAsked request := by
  rw [optsAsked_eq, ednsEcho]
  cases request.ednsUdpSize <;> rfl

/-! ## Aligning a packet with the client -/

theorem countP_replaceOpt (size : UInt16) (rs : List DnsRecord) :
    (∃ rs', replaceOpt size rs = some rs' ∧ 1 ≤ rs.countP isOpt ∧ rs'.countP isOpt = rs.countP isOpt) ∨
      replaceOpt size rs = none ∧ rs.countP isOpt = 0 := by
  induction rs with
  | nil => exact .inr ⟨rfl, rfl⟩
  | cons r rs ih =>
    rw [replaceOpt]
    cases hr : r.isOpt with
    | true =>
      refine .inl ⟨_, rfl, ?_, ?_⟩
      · rw [List.countP_cons_of_pos hr]
        omega
      · rw [List.countP_cons_of_pos hr, List.countP_cons_of_pos rfl]
    | false =>
      have hcount : ∀ rs : List DnsRecord, (r :: rs).countP isOpt = rs.countP isOpt := fun rs =>
        List.countP_cons_of_neg (by rw [hr]; exact Bool.false_ne_true)
      obtain ⟨rs', hrs', hpos, hsame⟩ | ⟨hnone, hzero⟩ := ih
      · exact .inl ⟨r :: rs', by rw [hrs']; rfl, by rwa [hcount], by rwa [hcount, hcount]⟩
      · exact .inr ⟨by rw [hnone]; rfl, by rwa [hcount]⟩

theorem countP_readdressed (q request : DnsPacket) :
    (readdressed q request).additionals.countP isOpt =
      if request.additionals.any isOpt then max 1 (q.additionals.countP isOpt) else 0 := by
  rw [any_isOpt_iff]
  unfold readdressed alignEdns
  dsimp only
  cases request.ednsUdpSize with
  | none =>
    rw [List.countP_filter]
    exact List.countP_eq_zero.mpr fun r _ => by simp
  | some size =>
    -- only the first OPT record is replaced, and the others stay
    obtain ⟨rs', hrs', hpos, hsame⟩ | ⟨hnone, hzero⟩ := countP_replaceOpt (negotiated size) q.additionals
    · simp only [hrs', hsame, Option.isSome_some, if_true]
      omega
    · simp [hnone, hzero, isOpt]

theorem countP_readdressed_eq (q request : DnsPacket) :
    (readdressed q request).additionals.countP isOpt = optsAsked request ↔
      optsAsked request = 0 ∨ q.additionals.countP isOpt ≤ 1 := by
  rw [countP_readdressed, optsAsked]
  split
  · simp
  · simp

/-! ## Paths of a reply -/

section Paths
variable {request p : DnsPacket} {transport : Transport} {raw reply : Bytes}

theorem recordsFit_opt {L : Layout} {rs : List DnsRecord} (h : ∀ r ∈ rs, r.isOpt = true) : L.RecordsFit rs := by
  induction rs generalizing L with
  | nil => trivial
  | cons r rs ih =>
    refine ⟨?_, ih fun r' hr' => h r' (List.mem_cons_of_mem _ hr')⟩
    have hr := h r List.mem_cons_self
    cases r <;> first | exact Nat.zero_le _ | cases hr

/-- A packet with questions and OPT records alone is legible as it is, and truncated. -/
theorem legible_of_opts (transport : Transport) (hqs : ∀ q ∈ p.questions, WholeName q.qname) (hcount : p.Counted)
    (h : ∀ r ∈ p.records, r.isOpt = true) : Legible (sent p transport) := by
  have hlegible : ∀ p' : DnsPacket, p'.questions = p.questions → p'.Counted → (∀ r ∈ p'.records, r ∈ p.records) →
      Legible p' := by
    intro p' hqs' hcount' hsub
    exact ⟨⟨hqs' ▸ hqs, hcount', recordsFit_opt fun r hr => h r (hsub r hr)⟩,
      fun r hr => (goodRecord_opt (h r (hsub r hr))).whole⟩
  cases transport with
  | tcp => exact hlegible p rfl hcount fun r hr => hr
  | udp =>
    rw [sent]
    split
    · exact hlegible p rfl hcount fun r hr => hr
    · refine hlegible p.truncated rfl ⟨hcount.questions, Nat.zero_le _, Nat.zero_le _, hcount.additionals⟩ fun r hr => ?_
      simp only [DnsPacket.records, DnsPacket.truncated, List.nil_append] at hr
      exact List.mem_append_right _ hr

/-- No label of the questions is empty, and their names need at most 64 jumps. -/
def ReadableQuestions (qs : List DnsQuestion) : Prop :=
  (∀ q ∈ qs, WholeName q.qname) ∧ ∀ j ∈ Layout.start.questionsJumps qs, j ≤ maxPointerJumps

instance decidableReadableQuestions (qs : List DnsQuestion) : Decidable (ReadableQuestions qs) :=
  inferInstanceAs (Decidable (_ ∧ _))

theorem answersEdns_encode (h : Legible (sent p transport)) :
    AnswersEdns request (encode p transport) ↔ p.additionals.countP isOpt = optsAsked request := by
  rw [AnswersEdns, encode_eq_sent, h.hasOpts, additionals_sent]

theorem length_ednsEcho_le (request : DnsPacket) : (ednsEcho request).length ≤ 65535 := by
  unfold ednsEcho
  split <;> simp

/-- The SERVFAIL has no OPT record, and gets one where it is replayed over UDP. -/
theorem answersEdns_servfail (hcount : request.questions.length ≤ 65535) (hqs : ReadableQuestions request.questions)
    (h : replay (synthResponse request [] rcodeServfail).toBytes request transport = ok reply) :
    AnswersEdns request reply ↔ (transport = .tcp → optsAsked request = 0) := by
  have hanswers := answers_synthResponse request [] rcodeServfail
  have hrecords : (synthResponse request [] rcodeServfail).records = [] := rfl
  have hcounted : (synthResponse request [] rcodeServfail).Counted :=
    ⟨hcount, Nat.zero_le _, Nat.zero_le _, Nat.zero_le _⟩
  generalize synthResponse request [] rcodeServfail = servfail at *
  rw [← hanswers.questions] at hqs
  cases transport with
  | tcp =>
    obtain rfl := Outcome.ok.inj h
    have hlegible := legible_of_opts .tcp hqs.1 hcounted (by simp [hrecords])
    rw [patchTransactionId_toBytes hanswers.id]
    refine (answersEdns_encode hlegible).trans ?_
    simp [hanswers.additionals, eq_comm]
  | udp =>
    have hread := fromBytes_of_questions servfail hcounted hrecords hqs.1
    rw [limited, if_pos hqs.2] at hread
    have hwhole : ∀ question ∈ servfail.questions.map DnsQuestion.cut, WholeName question.qname := by
      intro question hmem
      obtain ⟨written, hwritten, rfl⟩ := List.mem_map.mp hmem
      exact (hqs.1 written hwritten).goodName_cutName.whole
    obtain ⟨q, hq, hans, haut, hnil, hwhole⟩ : ∃ q, fromBytes servfail.toBytes = ok q ∧ q.answers = [] ∧
        q.authorities = [] ∧ q.additionals = [] ∧ ∀ question ∈ q.questions, WholeName question.qname :=
      ⟨_, hread, rfl, rfl, rfl, hwhole⟩
    have hqcounted := counted_of_fromBytes hq
    rw [replay, hq] at h
    obtain rfl := Outcome.ok.inj h
    have hadd : (readdressed q request).additionals = ednsEcho request := additionals_readdressed_of_nil hnil
    have hlegible : Legible (sent (readdressed q request) .udp) := by
      refine legible_of_opts .udp hwhole
        ⟨hqcounted.questions, hqcounted.answers, hqcounted.authorities, ?_⟩ fun r hr => ?_
      · rw [hadd]
        exact length_ednsEcho_le request
      · rw [DnsPacket.records, hadd, show (readdressed q request).answers = [] from hans,
          show (readdressed q request).authorities = [] from haut] at hr
        exact isOpt_of_mem_ednsEcho hr
    refine (answersEdns_encode hlegible).trans ?_
    rw [hadd, countP_ednsEcho]
    simp

/-- The relayed message has as many OPT records as the client asked with; where it is parsed for UDP, it
has at most one, or none is asked for. -/
def RelayAgrees (request : DnsPacket) (raw : Bytes) (transport : Transport) : Prop :=
  match transport, fromBytes raw with
  | .udp, ok q => optsAsked request = 0 ∨ q.additionals.countP isOpt ≤ 1
  | _, _ => HasOpts raw (optsAsked request)

theorem answersEdns_replay (hlegible : RelayLegible request raw transport)
    (h : replay raw request transport = ok reply) :
    AnswersEdns request reply ↔ RelayAgrees request raw transport := by
  cases transport with
  | tcp =>
    obtain rfl := Outcome.ok.inj h
    simp only [AnswersEdns, RelayAgrees, HasOpts]
    exact exists_congr fun s => and_congr_left' (hlegible s)
  | udp =>
    obtain ⟨q, hq, h⟩ | ⟨error, herror, h⟩ := handle_eq_ok.mp h
    · obtain rfl := Outcome.ok.inj h
      simp only [RelayLegible, hq] at hlegible
      simp only [RelayAgrees, hq]
      rw [← countP_readdressed_eq]
      exact answersEdns_encode hlegible
    · obtain rfl := Outcome.ok.inj h
      simp only [RelayLegible, herror] at hlegible
      simp only [RelayAgrees, herror, AnswersEdns, HasOpts]
      exact exists_congr fun s => and_congr_left' (hlegible s)

end Paths

/-! ## Every path of `resolve` -/

/-- The reply is made so that a reader finds what was put into it. -/
def LegibleReply (rt : Runtime) (st : ServerState) (m : Moment) (request : DnsPacket) (client : IpAddr)
    (transport : Transport) : Prop :=
  match st.source rt m request transport with
  | .own _ => ∀ p, st.ownPacket rt m request client transport = ok p → Legible (sent p transport)
  | .failed => ReadableQuestions request.questions
  | .relayed raw => RelayLegible request raw transport

/-- The client does not use EDNS where the server has no OPT record for it: for a transfer, for a blocked
name and for a SERVFAIL over TCP; and a relayed message agrees with the client. -/
def EdnsAgrees (rt : Runtime) (st : ServerState) (m : Moment) (request : DnsPacket) (transport : Transport) : Prop :=
  match st.source rt m request transport with
  | .own additionals => additionals = [] → optsAsked request = 0
  | .failed => transport = .tcp → optsAsked request = 0
  | .relayed raw => RelayAgrees request raw transport

theorem countP_own {rt : Runtime} {st : ServerState} {m : Moment} {request : DnsPacket} {transport : Transport}
    {additionals : List DnsRecord} (h : st.source rt m request transport = .own additionals) :
    additionals.countP isOpt = optsAsked request ↔ (additionals = [] → optsAsked request = 0) := by
  obtain rfl | rfl := own_additionals h
  · simp [eq_comm]
  · rw [countP_ednsEcho]
    refine ⟨fun _ hnil => ?_, fun _ => rfl⟩
    rw [← countP_ednsEcho, hnil]
    rfl

/-- **A legible reply answers EDNS exactly when the request and the path of the reply agree on it.** -/
theorem edns_answered_iff (rt : Runtime) (st st' : ServerState) (m : Moment) (req : Bytes) (client : IpAddr)
    (transport : Transport) (request : DnsPacket) (reply : Bytes) (hreq : fromBytes req = ok request)
    (h : st.resolve rt m req client transport = ok (some reply, st'))
    (hlegible : LegibleReply rt st m request client transport) :
    AnswersEdns request reply ↔ EdnsAgrees rt st m request transport := by
  have hyields := ServerState.resolve_source hreq h
  unfold LegibleReply at hlegible
  unfold EdnsAgrees
  cases hsource : st.source rt m request transport with
  | own additionals =>
    rw [hsource] at hyields hlegible
    obtain ⟨p, hown, hp, rfl⟩ := hyields
    rw [answersEdns_encode (hlegible p hown), hp.additionals]
    exact countP_own hsource
  | failed =>
    rw [hsource] at hyields hlegible
    exact answersEdns_servfail (counted_of_fromBytes hreq).questions hlegible hyields
  | relayed raw =>
    rw [hsource] at hyields hlegible
    exact answersEdns_replay hlegible hyields

/-- The query for `a` with an OPT record. -/
def ednsQuery : Bytes :=
  [0, 1, 1, 0, 0, 1, 0, 0, 0, 0, 0, 1, 1, 97, 0, 0, 1, 0, 1, 0, 0, 41, 4, 208, 0, 0, 0, 0, 0, 0]

/-- The SERVFAIL for it is replayed over UDP and gets the OPT record. -/
theorem edns_answered_iff_ednsQuery : ∃ request reply st',
    fromBytes ednsQuery = ok request ∧ request.additionals = [.opt 1232] ∧
      forwardingServer.resolve .ascii ⟨0, 0, .leader none, 0⟩ ednsQuery (letterClient 1) .udp =
        ok (some reply, st') ∧
      LegibleReply .ascii forwardingServer ⟨0, 0, .leader none, 0⟩ request (letterClient 1) .udp ∧
      AnswersEdns request reply := by
  have hreq : fromBytes ednsQuery = ok ⟨⟨1, 0x100, 1, 0, 0, 1⟩, [⟨['a'], 1, 1⟩], [], [], [.opt 1232]⟩ := by
    decide
  have hrun : (forwardingServer.resolve .ascii ⟨0, 0, .leader none, 0⟩ ednsQuery (letterClient 1) .udp >>=
      fun r => ok r.1) = ok (some [0, 1, 0x81, 0x82, 0, 1, 0, 0, 0, 0, 0, 1, 1, 97, 0, 0, 1, 0, 1,
        0, 0, 41, 4, 208, 0, 0, 0, 0, 0, 0]) := by
    decide
  obtain ⟨⟨reply, st'⟩, h, heq⟩ := bind_eq_ok.mp hrun
  obtain rfl := Outcome.ok.inj heq
  have hlegible : LegibleReply .ascii forwardingServer ⟨0, 0, .leader none, 0⟩
      ⟨⟨1, 0x100, 1, 0, 0, 1⟩, [⟨['a'], 1, 1⟩], [], [], [.opt 1232]⟩ (letterClient 1) .udp := by
    change ReadableQuestions [⟨['a'], 1, 1⟩]
    decide
  have hagrees : EdnsAgrees .ascii forwardingServer ⟨0, 0, .leader none, 0⟩
      ⟨⟨1, 0x100, 1, 0, 0, 1⟩, [⟨['a'], 1, 1⟩], [], [], [.opt 1232]⟩ .udp := by
    change Transport.udp = .tcp → _
    rintro ⟨⟩
  exact ⟨_, _, st', hreq, rfl, h, hlegible, (edns_answered_iff _ _ _ _ _ _ _ _ _ hreq h hlegible).mpr hagrees⟩

def blockingServer : ServerState := { forwardingServer with blocklist := ⟨[['a']]⟩ }

theorem blocked_without_edns : ∃ request reply,
    fromBytes ednsQuery = ok request ∧ request.additionals = [.opt 1232] ∧
      (blockingServer.resolve .ascii ⟨0, 0, .leader none, 0⟩ ednsQuery (letterClient 1) .udp >>= fun r => ok r.1) =
        ok (some reply) ∧ ¬ AnswersEdns request reply := by
  refine ⟨⟨⟨1, 0x100, 1, 0, 0, 1⟩, [⟨['a'], 1, 1⟩], [], [], [.opt 1232]⟩,
    [0, 1, 0x81, 0x83, 0, 1, 0, 0, 0, 0, 0, 0, 1, 97, 0, 0, 1, 0, 1], by decide, rfl, by decide, ?_⟩
  rintro ⟨s, ⟨header, _, _, _, _, hheader, _, _, _, _, _, hlen, _⟩, hcount⟩
  have hparse : parseHeader [0, 1, 0x81, 0x83, 0, 1, 0, 0, 0, 0, 0, 0, 1, 97, 0, 0, 1, 0, 1] =
      ok ⟨1, 0x8183, 1, 0, 0, 0⟩ := by
    decide
  obtain rfl := Outcome.ok.inj (hparse.symm.trans hheader)
  obtain hnil := List.eq_nil_of_length_eq_zero hlen
  rw [hnil] at hcount
  exact absurd hcount (by decide)

end MiniDns
