import MiniDns.Lib.Framing
import MiniDns.UdpSize

/-! The handler of a TCP or TLS connection. It writes each reply behind its length `as u16`, so the
client reads the replies that were returned exactly when they all fit a frame. -/
namespace MiniDns
open Lib Lib.Outcome Dns DnsRecord DnsPacket
open DnsPacketEncoder (headerBytes)
set_option autoImplicit false

/-! ## The handler -/

inductive StreamEnd where
  | closed
  | failed
  | panicked
  deriving DecidableEq, Repr

theorem length_drop_lt (hi lo : UInt8) (rest : Bytes) (n : ℕ) :
    (rest.drop n).length < (hi :: lo :: rest).length := by
  simp only [List.length_drop, List.length_cons]
  omega

/-- What the handler writes for an input, from the `i`-th request on. The `i`-th request is answered
by `serve i`, in the state that the server has then. -/
def handleDnsStream (serve : ℕ → Bytes → Outcome Empty (Option Bytes)) (i : ℕ) (input : Bytes) :
    Bytes × StreamEnd :=
  match input with
  | hi :: lo :: rest =>
    let len := (be16 hi lo).toNat
    if len ≤ rest.length then
      match serve i (rest.take len) with
      | ok (some resp) =>
        let (written, last) := handleDnsStream serve (i + 1) (rest.drop len)
        (bytes16 (UInt16.ofNat resp.length) ++ resp ++ written, last)
      | ok none => handleDnsStream serve (i + 1) (rest.drop len)
      | _ => ([], .panicked)
    else ([], .failed)
  | _ => ([], .closed)
termination_by input.length
decreasing_by all_goals exact length_drop_lt hi lo rest len

structure Exchange where
  index : ℕ
  msg : Bytes
  reply : Bytes
  deriving DecidableEq, Repr

def exchanges (serve : ℕ → Bytes → Outcome Empty (Option Bytes)) (i : ℕ) (input : Bytes) :
    List Exchange :=
  match input with
  | hi :: lo :: rest =>
    let len := (be16 hi lo).toNat
    if len ≤ rest.length then
      match serve i (rest.take len) with
      | ok (some reply) => ⟨i, rest.take len, reply⟩ :: exchanges serve (i + 1) (rest.drop len)
      | ok none => exchanges serve (i + 1) (rest.drop len)
      | _ => []
    else []
  | _ => []
termination_by input.length
decreasing_by all_goals exact length_drop_lt hi lo rest len

variable {serve : ℕ → Bytes → Outcome Empty (Option Bytes)}

theorem serve_of_mem_exchanges {i : ℕ} {input : Bytes} {x : Exchange} (h : x ∈ exchanges serve i input) :
    serve x.index x.msg = ok (some x.reply) := by
  fun_induction exchanges serve i input with
  | case1 i hi lo rest len hle reply hreply ih =>
    obtain rfl | h := List.mem_cons.mp h
    · exact hreply
    · exact ih h
  | case2 i hi lo rest len hle hnone ih => exact ih h
  | case3 => cases h
  | case4 => cases h
  | case5 => cases h

/-- The handler writes one frame for each reply. -/
theorem handleDnsStream_written (serve : ℕ → Bytes → Outcome Empty (Option Bytes)) (i : ℕ) (input : Bytes) :
    (handleDnsStream serve i input).1 = ((exchanges serve i input).map Exchange.reply).flatMap frame := by
  fun_induction exchanges serve i input with
  | case1 i hi lo rest len hle reply hreply ih =>
    rw [handleDnsStream, if_pos hle, hreply]
    simp only [List.map_cons, List.flatMap_cons, frame, ← ih]
    rfl
  | case2 i hi lo rest len hle hnone ih =>
    rw [handleDnsStream, if_pos hle, hnone]
    exact ih
  | case3 i hi lo rest len hle hsome hnone =>
    rw [handleDnsStream, if_pos hle]
    split
    · rename_i reply hreply
      exact absurd hreply (hsome reply)
    · rename_i hreply
      exact absurd hreply hnone
    · rfl
  | case4 i hi lo rest len hle =>
    rw [handleDnsStream, if_neg hle]
    rfl
  | case5 i input hshort =>
    rw [handleDnsStream]
    · rfl
    · exact hshort

/-! ## Counts -/

theorem u16At_ancount (p : DnsPacket) :
    (u16At p.toBytes 6 : Outcome DnsError UInt16) = ok (UInt16.ofNat p.answers.length) := by
  obtain ⟨more, hmore⟩ := toBytes_head p
  have h := u16At_append DnsError (bytes16 p.header.id ++ bytes16 p.header.flags ++
    bytes16 (UInt16.ofNat p.questions.length)) (bytes16 (UInt16.ofNat p.authorities.length) ++
    bytes16 (UInt16.ofNat p.additionals.length) ++ more) (UInt16.ofNat p.answers.length) (i := 6) rfl
  rw [hmore, headerBytes]
  simpa only [List.append_assoc] using h

def AncountHolds (msg : Bytes) (p : DnsPacket) : Prop :=
  ∃ count : UInt16, (u16At msg 6 : Outcome DnsError UInt16) = ok count ∧ count.toNat = p.answers.length

theorem ancountHolds_toBytes {p : DnsPacket} : AncountHolds p.toBytes p ↔ p.answers.length ≤ 65535 := by
  unfold AncountHolds
  rw [u16At_ancount]
  constructor
  · rintro ⟨count, hcount, hlen⟩
    have := count.toNat_lt
    omega
  · intro hlen
    exact ⟨_, rfl, toNat_count hlen⟩

theorem answers_length_le {p : DnsPacket} (h : p.toBytes.length ≤ 65535) : p.answers.length ≤ 65535 := by
  have hrecords := le_length_recordsBytes (Layout.start.questions p.questions) p.records
  rw [length_toBytes] at h
  simp only [DnsPacket.records, List.length_append] at hrecords h
  omega

/-! ## Framing -/

/-- The requests of one connection. The `i`-th one meets the state `sts i`, which other connections and
reloads may have changed since the one before. -/
def connection (rt : Runtime) (sts : ℕ → ServerState) (ms : ℕ → Moment) (client : IpAddr) (i : ℕ)
    (msg : Bytes) : Outcome Empty (Option Bytes) := do
  let (reply, _) ← (sts i).resolve rt (ms i) msg client .tcp
  pure reply

/-- What the client is to receive fits a frame: the packet that the server builds, or the message that
it relays. -/
def FitsFrame (rt : Runtime) (st : ServerState) (m : Moment) (client : IpAddr) (request : DnsPacket) : Prop :=
  match st.source rt m request .tcp with
  | .own _ => ∀ p, st.ownPacket rt m request client .tcp = ok p → p.toBytes.length ≤ 65535
  | .failed => (synthResponse request [] rcodeServfail).toBytes.length ≤ 65535
  | .relayed raw => raw.length ≤ 65535

theorem length_tcp_reply {rt : Runtime} {st st' : ServerState} {m : Moment} {msg : Bytes} {client : IpAddr}
    {request : DnsPacket} {reply : Bytes} (hreq : fromBytes msg = ok request)
    (h : st.resolve rt m msg client .tcp = ok (some reply, st')) :
    reply.length ≤ 65535 ↔ FitsFrame rt st m client request := by
  have hyields := ServerState.resolve_source hreq h
  unfold FitsFrame
  cases hsource : st.source rt m request .tcp with
  | own additionals =>
    rw [hsource] at hyields
    obtain ⟨p, hown, _, rfl⟩ := hyields
    constructor
    · intro hlen p' hp'
      obtain rfl := Outcome.ok.inj (hown.symm.trans hp')
      exact hlen
    · intro hfits
      exact hfits p hown
  | failed =>
    rw [hsource] at hyields
    obtain rfl := Outcome.ok.inj hyields
    simp only [length_patchTransactionId]
  | relayed raw =>
    rw [hsource] at hyields
    obtain rfl := Outcome.ok.inj hyields
    simp only [length_patchTransactionId]

theorem resolve_of_mem_exchanges {rt : Runtime} {sts : ℕ → ServerState} {ms : ℕ → Moment} {client : IpAddr}
    {i : ℕ} {input : Bytes} {x : Exchange} (h : x ∈ exchanges (connection rt sts ms client) i input) :
    ∃ st', (sts x.index).resolve rt (ms x.index) x.msg client .tcp = ok (some x.reply, st') := by
  obtain ⟨⟨reply, st'⟩, hresolve, heq⟩ := bind_eq_ok.mp (serve_of_mem_exchanges h)
  obtain rfl := Outcome.ok.inj heq
  exact ⟨st', hresolve⟩

/-- **The client reads the replies that were returned, with the counts of what was encoded, exactly when
everything it is to receive fits a frame.** -/
theorem stream_framing (rt : Runtime) (sts : ℕ → ServerState) (ms : ℕ → Moment) (client : IpAddr)
    (input : Bytes) :
    (deframe (handleDnsStream (connection rt sts ms client) 0 input).1 =
          some ((exchanges (connection rt sts ms client) 0 input).map Exchange.reply) ∧
        ∀ x ∈ exchanges (connection rt sts ms client) 0 input, ∀ p : DnsPacket, x.reply = p.toBytes →
          AncountHolds x.reply p) ↔
      ∀ x ∈ exchanges (connection rt sts ms client) 0 input, ∀ request, fromBytes x.msg = ok request →
        FitsFrame rt (sts x.index) (ms x.index) client request := by
  rw [handleDnsStream_written, deframe_flatMap_frame, List.forall_mem_map]
  constructor
  · rintro ⟨hlen, _⟩ x hx request hreq
    obtain ⟨st', hresolve⟩ := resolve_of_mem_exchanges hx
    exact (length_tcp_reply hreq hresolve).mp (hlen x hx)
  · intro hfits
    have hlen : ∀ x ∈ exchanges (connection rt sts ms client) 0 input, x.reply.length ≤ 65535 := by
      intro x hx
      obtain ⟨st', hresolve⟩ := resolve_of_mem_exchanges hx
      obtain ⟨request, hreq⟩ := ServerState.parsed_of_resolve hresolve
      exact (length_tcp_reply hreq hresolve).mpr (hfits x hx request hreq)
    refine ⟨hlen, fun x hx p hp => ?_⟩
    have hfit := hlen x hx
    rw [hp] at hfit ⊢
    exact ancountHolds_toBytes.mpr (answers_length_le hfit)

def addressServer (n : ℕ) : ServerState :=
  { forwardingServer with
    zones := ZoneSet.fromSingle ['a'] (AList.singleton ['a'] (List.replicate n (.a ['a'] ⟨10, 0, 0, 1⟩ 60)))
    axfrAcl := ⟨[.v4 ⟨0, 0, 0, 0⟩ 0 (by decide)]⟩ }

def transferQuery : Bytes := [0, 1, 0, 0, 0, 1, 0, 0, 0, 0, 0, 0, 1, 97, 0, 0, 252, 0, 1]

def transferAnswer (n : ℕ) : DnsPacket :=
  { header := ⟨1, 0x8400, 1, UInt16.ofNat n, 0, 0⟩
    questions := [⟨['a'], 252, 1⟩]
    answers := List.replicate n (.a ['a'] ⟨10, 0, 0, 1⟩ 60)
    authorities := []
    additionals := [] }

theorem transferRecords_addresses (n : ℕ) :
    ServerState.transferRecords .ascii
      ⟨['a'], AList.singleton ['a'] (List.replicate n (.a ['a'] ⟨10, 0, 0, 1⟩ 60))⟩ =
        List.replicate n (.a ['a'] ⟨10, 0, 0, 1⟩ 60) := by
  have hsoa : zoneSoa .ascii (AList.singleton ['a'] (List.replicate n (.a ['a'] ⟨10, 0, 0, 1⟩ 60))) = none := by
    simp [zoneSoa, Runtime.values, Runtime.ascii, isSoa]
  rw [ServerState.transferRecords, hsoa]
  simp [Runtime.keys, Runtime.ascii, AList.lookup, isSoa]

def transferConnection (n : ℕ) : ℕ → Bytes → Outcome Empty (Option Bytes) :=
  connection .ascii (fun _ => addressServer n) (fun _ => ⟨0, 0, .leader none, 0⟩) (letterClient 1)

theorem transferConnection_transferQuery (n i : ℕ) :
    transferConnection n i transferQuery = ok (some (transferAnswer n).toBytes) := by
  have hreq : fromBytes transferQuery = ok ⟨⟨1, 0, 1, 0, 0, 0⟩, [⟨['a'], 252, 1⟩], [], [], []⟩ := by
    decide
  have hallowed : (addressServer n).axfrAcl.isAllowed (letterClient 1) = ok true := by
    exact (show Acl.isAllowed ⟨[.v4 ⟨0, 0, 0, 0⟩ 0 (by decide)]⟩ (letterClient 1) = ok true by decide)
  have hfind : (addressServer n).zones.find (Runtime.ascii.toLowercase ['a']) =
      some ⟨['a'], AList.singleton ['a'] (List.replicate n (.a ['a'] ⟨10, 0, 0, 1⟩ 60))⟩ := rfl
  have htransfer : (addressServer n).transferResponse .ascii
      ⟨⟨1, 0, 1, 0, 0, 0⟩, [⟨['a'], 252, 1⟩], [], [], []⟩ ⟨['a'], 252, 1⟩ (letterClient 1) =
        ok (transferAnswer n) := by
    rw [ServerState.transferResponse, hallowed]
    simp only [ok_bind, if_true]
    rw [hfind]
    simp only [transferRecords_addresses, List.length_replicate]
    rfl
  have haxfr : (addressServer n).tryAxfr .ascii transferQuery (letterClient 1) =
      ok (some (transferAnswer n).toBytes) := by
    rw [ServerState.tryAxfr, hreq]
    simp only [handle]
    rw [if_neg (by decide), htransfer]
    rfl
  rw [transferConnection, connection, ServerState.resolve, if_pos rfl, haxfr]
  rfl

theorem exchanges_transferQuery (n : ℕ) :
    exchanges (transferConnection n) 0 (frame transferQuery) =
      [⟨0, transferQuery, (transferAnswer n).toBytes⟩] := by
  rw [show frame transferQuery = 0 :: 19 :: transferQuery from rfl, exchanges, if_pos (by decide)]
  rw [show transferQuery.take (be16 0 19).toNat = transferQuery from rfl, transferConnection_transferQuery]
  rw [show transferQuery.drop (be16 0 19).toNat = [] from rfl, exchanges]
  rintro hi lo rest ⟨⟩

/-- A transfer of 65536 records. The reply announces another number of answers, and the client does not
read it back from the stream. -/
theorem transfer_overflows_frame :
    exchanges (transferConnection 65536) 0 (frame transferQuery) =
        [⟨0, transferQuery, (transferAnswer 65536).toBytes⟩] ∧
      ¬ AncountHolds (transferAnswer 65536).toBytes (transferAnswer 65536) ∧
      deframe (handleDnsStream (transferConnection 65536) 0 (frame transferQuery)).1 ≠
        some [(transferAnswer 65536).toBytes] := by
  have hcount : (transferAnswer 65536).answers.length = 65536 := List.length_replicate ..
  refine ⟨exchanges_transferQuery 65536, ?_, ?_⟩
  · rw [ancountHolds_toBytes, hcount]
    omega
  · rw [handleDnsStream_written, exchanges_transferQuery, List.map_singleton, Ne, deframe_flatMap_frame,
      List.forall_mem_singleton]
    intro hlen
    dsimp only at hlen
    have hle := answers_length_le hlen
    omega

end MiniDns
