import MiniDns.Dns.EncodedSize
import MiniDns.Dns.PointerDepth
import MiniDns.OwnQuestion

/-! How long a UDP reply is. Truncation keeps all questions and all additional records, and a message
that cannot be parsed is not truncated at all, so the client's limit holds exactly when what is kept
fits it. A packet that is sent in full has room for that too. -/
namespace MiniDns
open Lib Lib.Outcome Dns DnsRecord DnsPacket
open DnsPacketEncoder (headerBytes)
set_option autoImplicit false

variable {request p q : DnsPacket}

/-! ## The limit of a packet -/

def limitFor : Option UInt16 → ℕ
  | some size => max 512 (min size.toNat 1232)
  | none => 512

theorem udpLimit_eq (p : DnsPacket) : p.udpLimit = limitFor p.ednsUdpSize := by
  unfold udpLimit limitFor maxUdpSize maxEdnsUdp
  rfl

theorem le_udpLimit (p : DnsPacket) : 512 ≤ p.udpLimit := by
  rw [udpLimit_eq]
  cases p.ednsUdpSize with
  | none => exact le_rfl
  | some size => exact le_max_left _ _

theorem udpLimit_le (p : DnsPacket) : p.udpLimit ≤ 1232 := by
  rw [udpLimit_eq]
  cases p.ednsUdpSize with
  | none => decide
  | some size =>
    simp only [limitFor]
    omega

theorem negotiated_toNat (size : UInt16) : (negotiated size).toNat = max 512 (min size.toNat 1232) := by
  unfold negotiated
  rw [UInt16.max_def, UInt16.min_def]
  split <;> split <;> simp only [UInt16.le_iff_toNat_le, UInt16.reduceToNat] at * <;> omega

theorem limitFor_negotiated (size : UInt16) : limitFor (some (negotiated size)) = limitFor (some size) := by
  simp only [limitFor, negotiated_toNat]
  omega

def optSize (rs : List DnsRecord) : Option UInt16 :=
  rs.findSome? fun
    | .opt udpSize => some udpSize
    | _ => none

theorem ednsUdpSize_eq (p : DnsPacket) : p.ednsUdpSize = optSize p.additionals := rfl

theorem optSize_cons_of_not_opt {r : DnsRecord} (hr : r.isOpt = false) (rs : List DnsRecord) :
    optSize (r :: rs) = optSize rs := by
  cases r <;> first | rfl | cases hr

theorem optSize_replaceOpt {size : UInt16} {rs rs' : List DnsRecord} (h : replaceOpt size rs = some rs') :
    optSize rs' = some size := by
  induction rs generalizing rs' with
  | nil => cases h
  | cons r rs ih =>
    rw [replaceOpt] at h
    split at h
    · obtain rfl := Option.some.inj h
      rfl
    · rename_i hr
      obtain ⟨rest, hrest, rfl⟩ := Option.map_eq_some_iff.mp h
      rw [optSize_cons_of_not_opt (Bool.eq_false_iff.mpr hr), ih hrest]

theorem optSize_append_of_replaceOpt {size : UInt16} {rs : List DnsRecord} (h : replaceOpt size rs = none) :
    optSize (rs ++ [.opt size]) = some size := by
  induction rs with
  | nil => rfl
  | cons r rs ih =>
    rw [replaceOpt] at h
    split at h
    · cases h
    · rename_i hr
      rw [List.cons_append, optSize_cons_of_not_opt (Bool.eq_false_iff.mpr hr), ih (Option.map_eq_none_iff.mp h)]

theorem optSize_filter (rs : List DnsRecord) : optSize (rs.filter fun r => !r.isOpt) = none := by
  induction rs with
  | nil => rfl
  | cons r rs ih =>
    cases hr : r.isOpt with
    | true => rw [List.filter_cons_of_neg (by simp [hr]), ih]
    | false => rw [List.filter_cons_of_pos (by simp [hr]), optSize_cons_of_not_opt hr, ih]

/-- **A replayed packet is held to the limit of the client at hand.** -/
theorem udpLimit_readdressed (q request : DnsPacket) : (readdressed q request).udpLimit = request.udpLimit := by
  rw [udpLimit_eq, udpLimit_eq, ednsUdpSize_eq]
  unfold readdressed alignEdns
  dsimp only
  split
  · rename_i size hsize
    rw [hsize, ← limitFor_negotiated]
    split
    · rename_i hreplace
      rw [optSize_replaceOpt hreplace]
    · rename_i hreplace
      rw [optSize_append_of_replaceOpt hreplace]
  · rename_i hsize
    rw [hsize, optSize_filter]

theorem Answers.udpLimit_le {additionals : List DnsRecord} (h : Answers request additionals p)
    (hadd : additionals = [] ∨ additionals = ednsEcho request) : p.udpLimit ≤ request.udpLimit := by
  rw [udpLimit_eq p, ednsUdpSize_eq, h.additionals]
  obtain rfl | rfl := hadd
  · exact le_udpLimit request
  · rw [udpLimit_eq]
    unfold ednsEcho
    cases request.ednsUdpSize with
    | none => exact le_rfl
    | some size => exact (limitFor_negotiated size).le

/-! ## Truncation -/

def TcSet (msg : Bytes) : Prop :=
  ∃ flags : UInt16, (u16At msg 2 : Outcome DnsError UInt16) = ok flags ∧ flags &&& 0x0200 ≠ 0

theorem u16At_flags (p : DnsPacket) : (u16At p.toBytes 2 : Outcome DnsError UInt16) = ok p.header.flags := by
  obtain ⟨more, hmore⟩ := toBytes_head p
  have h := u16At_append DnsError (bytes16 p.header.id) (bytes16 (UInt16.ofNat p.questions.length) ++
    bytes16 (UInt16.ofNat p.answers.length) ++ bytes16 (UInt16.ofNat p.authorities.length) ++
    bytes16 (UInt16.ofNat p.additionals.length) ++ more) p.header.flags (i := 2) rfl
  rw [hmore, headerBytes]
  simpa only [List.append_assoc] using h

theorem or_tc_and_tc (flags : UInt16) : (flags ||| 0x0200) &&& 0x0200 = 0x0200 := by
  apply UInt16.eq_of_toBitVec_eq
  ext i hi
  simp only [UInt16.toBitVec_and, UInt16.toBitVec_or, BitVec.getElem_and, BitVec.getElem_or]
  cases (UInt16.toBitVec 0x0200)[i] <;> simp

theorem tcSet_truncated (p : DnsPacket) : TcSet p.truncated.toBytes := by
  refine ⟨_, u16At_flags p.truncated, ?_⟩
  rw [show p.truncated.header.flags = p.header.flags ||| 0x0200 from rfl, or_tc_and_tc]
  decide

theorem toUdpBytes_full_or_tc (p : DnsPacket) : p.toUdpBytes = p.toBytes ∨ TcSet p.toUdpBytes := by
  unfold toUdpBytes
  split
  · exact .inl rfl
  · exact .inr (tcSet_truncated p)

/-! ## Sizes -/

theorem length_toBytes (p : DnsPacket) : p.toBytes.length =
    12 + (Layout.start.questionsBytes p.questions).length +
      ((Layout.start.questions p.questions).recordsBytes p.records).length := by
  rw [toBytes_eq, List.length_append, List.length_append, headerBytes_length]

theorem le_length_recordsBytes (L : Layout) (rs : List DnsRecord) :
    11 * rs.length ≤ (L.recordsBytes rs).length := by
  induction rs generalizing L with
  | nil => exact Nat.zero_le _
  | cons r rs ih =>
    have hname : 1 ≤ (L.nameBytes r.domain).length := by
      unfold Layout.nameBytes
      cases nameLabels r.domain with
      | nil => exact le_rfl
      | cons l ls =>
        rw [Layout.labelsBytes]
        split <;> simp [DnsPacketEncoder.labelBytes]
    have htail := ih (L.record r)
    simp only [Layout.recordsBytes, Layout.recordBytes, List.length_append, bytes16_length, bytes32_length,
      List.length_cons]
    omega

theorem length_recordsBytes_opt (L : Layout) {rs : List DnsRecord} (h : ∀ r ∈ rs, r.isOpt = true) :
    (L.recordsBytes rs).length = 11 * rs.length := by
  induction rs generalizing L with
  | nil => rfl
  | cons r rs ih =>
    have hr : (L.recordBytes r).length = 11 := by
      cases r <;> first | rfl | cases h _ List.mem_cons_self
    rw [Layout.recordsBytes, List.length_append, hr, ih _ fun s hs => h s (List.mem_cons_of_mem _ hs),
      List.length_cons]
    omega

/-- What truncation keeps of a packet: its header, its questions and its additional section. -/
def keptLength (p : DnsPacket) : ℕ :=
  12 + (Layout.start.questionsBytes p.questions).length +
    ((Layout.start.questions p.questions).recordsBytes p.additionals).length

theorem length_truncated (p : DnsPacket) : p.truncated.toBytes.length = keptLength p := by
  rw [length_toBytes]
  rfl

/-- **A UDP message is within a limit exactly when what truncation keeps of the packet is**: a packet
that is sent in full is longer than what would have been kept. -/
theorem length_toUdpBytes_le {limit : ℕ} (h : p.udpLimit ≤ limit) :
    p.toUdpBytes.length ≤ limit ↔ keptLength p ≤ limit := by
  rw [← length_truncated]
  unfold toUdpBytes
  split
  · rename_i hfits
    have hsub : p.truncated.records.Sublist p.records := List.sublist_append_right _ _
    have hshort : p.toBytes.length ≤ 0x4000 := hfits.trans ((udpLimit_le p).trans (by decide))
    have hle := length_toBytes_le_of_sublist (p := p.truncated) (q := p) rfl hsub hshort
    exact ⟨fun _ => hle.trans (hfits.trans h), fun _ => hfits.trans h⟩
  · exact Iff.rfl

/-- The number of bytes that a message needs for its questions and its OPT record. -/
def keptSize (questions : List DnsQuestion) (additionals : List DnsRecord) : ℕ :=
  12 + (Layout.start.questionsBytes questions).length + 11 * additionals.length

theorem keptLength_of_opts (h : ∀ r ∈ p.additionals, r.isOpt = true) :
    keptLength p = keptSize p.questions p.additionals := by
  rw [keptLength, keptSize, length_recordsBytes_opt _ h]

theorem isOpt_of_mem_ednsEcho {r : DnsRecord} (h : r ∈ ednsEcho request) : r.isOpt = true := by
  unfold ednsEcho at h
  split at h
  · rw [List.mem_singleton.mp h]
    rfl
  · cases h

theorem Answers.keptLength_eq {additionals : List DnsRecord} (h : Answers request additionals p)
    (hadd : additionals = [] ∨ additionals = ednsEcho request) :
    keptLength p = keptSize request.questions additionals := by
  rw [← h.questions, ← h.additionals]
  refine keptLength_of_opts fun r hr => ?_
  rw [h.additionals] at hr
  obtain rfl | rfl := hadd
  · cases hr
  · exact isOpt_of_mem_ednsEcho hr

/-- The message fits the client. If it is parsed, the header, its questions and its additional section
with the client's OPT record do; one that cannot be parsed has to fit as it is. -/
def ReplayFits (request : DnsPacket) (raw : Bytes) : Prop :=
  match fromBytes raw with
  | ok q => keptLength (readdressed q request) ≤ request.udpLimit
  | _ => raw.length ≤ request.udpLimit

def FullReplay (request : DnsPacket) (raw reply : Bytes) : Prop :=
  match fromBytes raw with
  | ok q => reply = (readdressed q request).toBytes
  | _ => reply = patchTransactionId raw request.header.id

theorem length_patchTransactionId (raw : Bytes) (id : UInt16) :
    (patchTransactionId raw id).length = raw.length := by
  unfold patchTransactionId
  split
  · simp
    omega
  · rfl

theorem replay_udp {raw reply : Bytes} (h : replay raw request .udp = ok reply) :
    (reply.length ≤ request.udpLimit ↔ ReplayFits request raw) ∧
      (FullReplay request raw reply ∨ TcSet reply) := by
  obtain ⟨q, hq, h⟩ | ⟨error, herror, h⟩ := handle_eq_ok.mp h
  · obtain rfl := Outcome.ok.inj h
    have hlimit := udpLimit_readdressed q request
    simp only [ReplayFits, FullReplay, hq]
    exact ⟨length_toUdpBytes_le hlimit.le, toUdpBytes_full_or_tc _⟩
  · obtain rfl := Outcome.ok.inj h
    simp only [ReplayFits, FullReplay, herror, length_patchTransactionId, true_or, and_self]

/-! ## The SERVFAIL of a failed query -/

theorem additionals_readdressed_of_nil (h : q.additionals = []) :
    (readdressed q request).additionals = ednsEcho request := by
  unfold readdressed alignEdns ednsEcho
  rw [h]
  cases request.ednsUdpSize <;> rfl

theorem keptLength_readdressed_of_nil (h : q.additionals = []) :
    keptLength (readdressed q request) = keptSize q.questions (ednsEcho request) := by
  have hadd : (readdressed q request).additionals = ednsEcho request := additionals_readdressed_of_nil h
  rw [keptLength_of_opts fun r hr => isOpt_of_mem_ednsEcho (hadd ▸ hr), hadd]
  rfl

/-- The SERVFAIL is read again before it is sent: its labels are cut at 63 bytes then, and the client's OPT
record is put in. One with a name that needs too many jumps is not read, and stays as it is. -/
def servfailSize (request : DnsPacket) : ℕ :=
  if ∀ j ∈ Layout.start.questionsJumps request.questions, j ≤ maxPointerJumps then
    keptSize (request.questions.map DnsQuestion.cut) (ednsEcho request)
  else keptSize request.questions []

theorem replayFits_servfail (hcount : request.questions.length ≤ 65535)
    (hwhole : ∀ q ∈ request.questions, WholeName q.qname) :
    ReplayFits request (synthResponse request [] rcodeServfail).toBytes ↔
      servfailSize request ≤ request.udpLimit := by
  have hread := fromBytes_of_questions (synthResponse request [] rcodeServfail)
    ⟨hcount, Nat.zero_le _, Nat.zero_le _, Nat.zero_le _⟩ rfl hwhole
  rw [show (synthResponse request [] rcodeServfail).questions = request.questions from rfl, limited] at hread
  unfold servfailSize
  split at hread
  · rename_i hjumps
    rw [if_pos hjumps]
    simp only [ReplayFits, hread]
    rw [keptLength_readdressed_of_nil rfl]
  · rename_i hjumps
    rw [if_neg hjumps]
    simp only [ReplayFits, hread]
    rw [length_toBytes]
    rfl

/-- With an empty label in a question a reader goes astray, and the SERVFAIL is taken as it was written. -/
def ServfailFits (request : DnsPacket) : Prop :=
  if ∀ q ∈ request.questions, WholeName q.qname then servfailSize request ≤ request.udpLimit
  else ReplayFits request (synthResponse request [] rcodeServfail).toBytes

theorem servfailFits_iff (hcount : request.questions.length ≤ 65535) :
    ServfailFits request ↔ ReplayFits request (synthResponse request [] rcodeServfail).toBytes := by
  unfold ServfailFits
  split
  · rename_i hwhole
    exact (replayFits_servfail hcount hwhole).symm
  · exact Iff.rfl

/-! ## Every path of `resolve` -/

def FitsClient (rt : Runtime) (st : ServerState) (m : Moment) (request : DnsPacket) : Prop :=
  match st.source rt m request .udp with
  | .own additionals => keptSize request.questions additionals ≤ request.udpLimit
  | .failed => ServfailFits request
  | .relayed raw => ReplayFits request raw

def FullReply (rt : Runtime) (st : ServerState) (m : Moment) (request : DnsPacket) (client : IpAddr)
    (reply : Bytes) : Prop :=
  match st.source rt m request .udp with
  | .own _ => ∃ p, st.ownPacket rt m request client .udp = ok p ∧ reply = p.toBytes
  | .failed => FullReplay request (synthResponse request [] rcodeServfail).toBytes reply
  | .relayed raw => FullReplay request raw reply

theorem own_additionals {rt : Runtime} {st : ServerState} {m : Moment} {transport : Transport}
    {additionals : List DnsRecord} (h : st.source rt m request transport = .own additionals) :
    additionals = [] ∨ additionals = ednsEcho request := by
  unfold ServerState.source at h
  split at h
  · cases h
    exact .inr rfl
  · unfold ServerState.questionSource at h
    split at h
    · cases h
      exact .inl rfl
    split at h
    · dsimp only at h
      split at h
      · cases h
      split at h
      · unfold ServerState.flightSource at h
        split at h <;> cases h
      · cases h
        exact .inr rfl
    · cases h
      exact .inr rfl

/-- **A UDP reply is within the client's limit exactly when the header, the questions and the additional
section of the response fit it; and it is the full encoding of the response or has TC set.** -/
theorem udp_reply_size (rt : Runtime) (st st' : ServerState) (m : Moment) (req : Bytes) (client : IpAddr)
    (request : DnsPacket) (reply : Bytes) (hreq : fromBytes req = ok request)
    (h : st.resolve rt m req client .udp = ok (some reply, st')) :
    (reply.length ≤ request.udpLimit ↔ FitsClient rt st m request) ∧
      (FullReply rt st m request client reply ∨ TcSet reply) := by
  have hyields := ServerState.resolve_source hreq h
  unfold FitsClient FullReply
  cases hsource : st.source rt m request .udp with
  | own additionals =>
    rw [hsource] at hyields
    obtain ⟨p, hown, hp, rfl⟩ := hyields
    have hadd := own_additionals hsource
    refine ⟨?_, (toUdpBytes_full_or_tc p).imp_left fun hfull => ⟨p, hown, hfull⟩⟩
    dsimp only
    rw [← hp.keptLength_eq hadd]
    exact length_toUdpBytes_le (hp.udpLimit_le hadd)
  | failed =>
    rw [hsource] at hyields
    obtain ⟨hfits, hfull⟩ := replay_udp hyields
    exact ⟨hfits.trans (servfailFits_iff (counted_of_fromBytes hreq).questions).symm, hfull⟩
  | relayed raw =>
    rw [hsource] at hyields
    exact replay_udp hyields

theorem udp_reply_size_letterQuery : ∃ request st',
    fromBytes (letterQuery 1 65) = ok request ∧
      forwardingServer.resolve .ascii ⟨0, 0, .leader (some (letterAnswer 1 65)), 0⟩ (letterQuery 1 65)
        (letterClient 1) .udp = ok (some (letterAnswer 1 65), st') ∧
      ((letterAnswer 1 65).length ≤ request.udpLimit ↔
        FitsClient .ascii forwardingServer ⟨0, 0, .leader (some (letterAnswer 1 65)), 0⟩ request) := by
  have hrun : (forwardingServer.resolve .ascii ⟨0, 0, .leader (some (letterAnswer 1 65)), 0⟩
      (letterQuery 1 65) (letterClient 1) .udp >>= fun r => ok r.1) = ok (some (letterAnswer 1 65)) := by
    decide
  obtain ⟨⟨reply, st'⟩, h, heq⟩ := bind_eq_ok.mp hrun
  obtain rfl := Outcome.ok.inj heq
  have hreq : fromBytes (letterQuery 1 65) = ok ⟨⟨1, 0x100, 1, 0, 0, 0⟩, [⟨['A'], 1, 1⟩], [], [], []⟩ := by
    decide
  exact ⟨_, st', hreq, h, (udp_reply_size _ _ _ _ _ _ _ _ hreq h).1⟩

def longNameQuery : Bytes :=
  [0, 1, 1, 0, 0, 1, 0, 0, 0, 0, 0, 0] ++
    (List.replicate 8 (63 :: List.replicate 63 97)).flatten ++ [0, 0, 1, 0, 1]

set_option maxRecDepth 100000 in
/-- The upstream query for it fails. The SERVFAIL is truncated, but it repeats the question, and that alone
is longer than the 512 bytes of the client. -/
theorem long_question_exceeds_limit :
    (fromBytes longNameQuery >>= fun request => ok request.udpLimit) = ok 512 ∧
      (forwardingServer.resolve .ascii ⟨0, 0, .leader none, 0⟩ longNameQuery (letterClient 1) .udp >>=
        fun r => ok (r.1.map fun reply => (reply.take 4, reply.length))) =
          ok (some ([0, 1, 0x83, 0x82], 529)) := by
  decide +kernel

end MiniDns
