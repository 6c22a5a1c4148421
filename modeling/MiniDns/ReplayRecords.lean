import MiniDns.Dns.WireEncoding
import MiniDns.UdpSize

/-! Which records a UDP replay keeps. The message is parsed and encoded again, so the client is given
the records that are written for the parsed packet, and not always those of the message. -/
namespace MiniDns
open Lib Lib.Outcome Dns DnsRecord DnsPacket
set_option autoImplicit false

/-! ## The packet that is encoded -/

/-- The packet that goes out over a transport: over UDP a packet that is too long is truncated. -/
def sent (p : DnsPacket) : Transport → DnsPacket
  | .tcp => p
  | .udp => if p.toBytes.length ≤ p.udpLimit then p else p.truncated

theorem encode_eq_sent (p : DnsPacket) (transport : Transport) : encode p transport = (sent p transport).toBytes := by
  cases transport with
  | tcp => rfl
  | udp =>
    rw [encode, toUdpBytes, sent]
    split <;> rfl

theorem additionals_sent (p : DnsPacket) (transport : Transport) : (sent p transport).additionals = p.additionals := by
  cases transport with
  | tcp => rfl
  | udp =>
    rw [sent]
    split <;> rfl

/-- A reader finds the records of the packet in its message, some of their labels cut perhaps. -/
def Legible (p : DnsPacket) : Prop := p.Writable ∧ ∀ r ∈ p.records, WholeRecord r

theorem Legible.carries {p : DnsPacket} (h : Legible p) {s : WireSections} :
    Carries p.toBytes s ↔ s = p.wireSections := by
  have hcarries := carries_of_whole h.1 h.2
  exact ⟨fun hs => hs.unique hcarries, fun hs => hs ▸ hcarries⟩

/-- A message that is encoded again has no empty labels, and in one that is not no name points at its ID. -/
def RelayLegible (request : DnsPacket) (raw : Bytes) (transport : Transport) : Prop :=
  match transport, fromBytes raw with
  | .udp, ok q => Legible (sent (readdressed q request) .udp)
  | _, _ => ∀ s, Carries (patchTransactionId raw request.header.id) s ↔ Carries raw s

/-! ## The packet that is encoded again -/

theorem recordsFit_of_length {L : Layout} {rs : List DnsRecord} (h : (L.recordsBytes rs).length ≤ 65535) :
    L.RecordsFit rs := by
  induction rs generalizing L with
  | nil => trivial
  | cons r rs ih =>
    rw [Layout.recordsBytes, List.length_append, Layout.recordBytes, List.length_append] at h
    exact ⟨by omega, ih (by omega)⟩

theorem writable_of_length {p : DnsPacket} (hlen : p.toBytes.length ≤ p.udpLimit)
    (hqs : ∀ q ∈ p.questions, WholeName q.qname) (hcount : p.questions.length ≤ 65535) : p.Writable := by
  have hlimit := udpLimit_le p
  rw [length_toBytes] at hlen
  have hrecords := le_length_recordsBytes (Layout.start.questions p.questions) p.records
  refine ⟨hqs, ?_, recordsFit_of_length (by omega)⟩
  simp only [DnsPacket.records, List.length_append] at hrecords hlen
  exact ⟨hcount, by omega, by omega, by omega⟩

theorem filter_replaceOpt {size : UInt16} {rs rs' : List DnsRecord} (h : replaceOpt size rs = some rs') :
    (rs'.filter fun r => !r.isOpt) = rs.filter fun r => !r.isOpt := by
  induction rs generalizing rs' with
  | nil => cases h
  | cons r rs ih =>
    rw [replaceOpt] at h
    split at h
    · rename_i hopt
      obtain rfl := Option.some.inj h
      rw [List.filter_cons_of_neg (by simp [isOpt]), List.filter_cons_of_neg (by simp [hopt])]
    · rename_i hopt
      obtain ⟨rest, hrest, rfl⟩ := Option.map_eq_some_iff.mp h
      rw [List.filter_cons_of_pos (by simpa using hopt), List.filter_cons_of_pos (by simpa using hopt), ih hrest]

theorem filter_readdressed (q request : DnsPacket) :
    ((readdressed q request).additionals.filter fun r => !r.isOpt) = q.additionals.filter fun r => !r.isOpt := by
  unfold readdressed alignEdns
  dsimp only
  split
  · split
    · rename_i hreplace
      exact filter_replaceOpt hreplace
    · rw [List.filter_append]
      simp [isOpt]
  · rw [List.filter_filter]
    simp

theorem wireSections_withoutOpt (p : DnsPacket) : p.wireSections.withoutOpt =
    ⟨p.answers.map wireOf, p.authorities.map wireOf, (p.additionals.filter fun r => !r.isOpt).map wireOf⟩ := by
  have hsame : ((fun w : WireRecord => !w.isOpt) ∘ wireOf) = fun r => !r.isOpt := by
    funext r
    exact congrArg not (isOpt_of_rtype rfl)
  rw [DnsPacket.wireSections, WireSections.withoutOpt, List.filter_map, hsame]

theorem wireSections_readdressed (q request : DnsPacket) :
    (readdressed q request).wireSections.withoutOpt = q.wireSections.withoutOpt := by
  rw [wireSections_withoutOpt, wireSections_withoutOpt, filter_readdressed]
  rfl

theorem good_readdressed {q request : DnsPacket} {P : DnsRecord → Prop} (hopt : ∀ r, r.isOpt = true → P r)
    (h : ∀ r ∈ q.additionals, r.isOpt = false → P r) : ∀ r ∈ (readdressed q request).additionals, P r := by
  intro r hr
  cases hr' : r.isOpt with
  | true => exact hopt r hr'
  | false =>
    have hmem : r ∈ (readdressed q request).additionals.filter fun r => !r.isOpt := by
      rw [List.mem_filter]
      exact ⟨hr, by simp [hr']⟩
    rw [filter_readdressed, List.mem_filter] at hmem
    exact h r hmem.1 hr'

/-! ## Records that are kept -/

def GoodQuestions (q : DnsPacket) : Prop := ∀ question ∈ q.questions, GoodName question.qname

/-- The records of the message are those that are written for the packet `q` that it is parsed to. -/
def WrittenAlike (raw : Bytes) (q : DnsPacket) : Prop :=
  ∃ s, Carries raw s ∧ s.withoutOpt = q.wireSections.withoutOpt

variable {raw reply : Bytes} {q request : DnsPacket}

theorem good_of_writtenAlike (hraw : fromBytes raw = ok q) (h : WrittenAlike raw q) :
    ∀ r ∈ (readdressed q request).records, GoodRecord r := by
  obtain ⟨s, hs, hsame⟩ := h
  obtain ⟨s', hs', hans, haut, hadd⟩ := carries_of_fromBytes hraw
  obtain rfl := hs.unique hs'
  have hadd' := hadd.withoutOpt
  rw [wireSections_withoutOpt, WireSections.withoutOpt, WireSections.mk.injEq] at hsame
  obtain ⟨hsame₁, hsame₂, hsame₃⟩ := hsame
  rw [hsame₁] at hans
  rw [hsame₂] at haut
  rw [hsame₃] at hadd'
  have hall : ∀ {rs : List DnsRecord}, ReadAll rs (rs.map wireOf) → ∀ r ∈ rs, GoodRecord r := by
    intro rs hread r hr
    have hforall := hread.forall₂ (List.length_map _).symm
    rw [List.forall₂_map_right_iff, List.forall₂_same] at hforall
    exact goodRecord_of_readFrom (hforall r hr)
  intro r hr
  rw [DnsPacket.records, List.mem_append, List.mem_append] at hr
  obtain (hr | hr) | hr := hr
  · exact hall hans r hr
  · exact hall haut r hr
  · refine good_readdressed (fun r hr => goodRecord_opt hr) (fun r hr hopt => ?_) r hr
    exact hall hadd' r (List.mem_filter.mpr ⟨hr, by simp [hopt]⟩)

theorem sameRecords_of_writtenAlike (hraw : fromBytes raw = ok q) (hp : (readdressed q request).Writable)
    (h : WrittenAlike raw q) : SameRecords raw (readdressed q request).toBytes := by
  have hcarries := carries_of_whole hp fun r hr => (good_of_writtenAlike hraw h r hr).whole
  obtain ⟨s, hs, hsame⟩ := h
  exact ⟨s, _, hs, hcarries, hsame.trans (wireSections_readdressed q request).symm⟩

/-- A message whose records reach the client is written alike, if no additional owner leads the client
astray. -/
theorem writtenAlike_of_sameRecords (hraw : fromBytes raw = ok q) (hp : (readdressed q request).Writable)
    (howner : ∀ r ∈ q.additionals, GoodName r.domain)
    (h : SameRecords raw (readdressed q request).toBytes) : WrittenAlike raw q := by
  obtain ⟨s, s', hs, hreply, hsame⟩ := h
  obtain ⟨s₀, hs₀, hans, haut, hadd⟩ := carries_of_fromBytes hraw
  obtain rfl := hs.unique hs₀
  obtain ⟨_, _, _, hlen₁, _, hlen₂, _, _, _⟩ := (carries_toBytes hp).mp hreply
  have hadd' := hadd.withoutOpt
  rw [← filter_readdressed q request] at hadd'
  have hsections := hsame
  rw [WireSections.withoutOpt, WireSections.withoutOpt, WireSections.mk.injEq] at hsections
  obtain ⟨hsame₁, hsame₂, hsame₃⟩ := hsections
  rw [hsame₁] at hans
  rw [hsame₂] at haut
  rw [hsame₃] at hadd'
  have hgood := good_of_carries hp hreply (hans.forall₂ hlen₁.symm) (haut.forall₂ hlen₂.symm)
    (good_readdressed (fun r hr => (goodRecord_opt hr).owner) fun r hr _ => howner r hr) hadd'
  obtain rfl := hreply.unique (carries_of_whole hp fun r hr => (hgood r hr).whole)
  exact ⟨s, hs, hsame.trans (wireSections_readdressed q request)⟩

/-- The message has TC set, or it is too long for the client, or its records are written alike. -/
def KeepsRecords (raw : Bytes) (q request : DnsPacket) : Prop :=
  TcSet raw ∨ request.udpLimit < (readdressed q request).toBytes.length ∨ GoodQuestions q ∧ WrittenAlike raw q

theorem tcSet_readdressed (hraw : fromBytes raw = ok q) : TcSet (readdressed q request).toBytes ↔ TcSet raw := by
  have hheader := (fromBytes_ok hraw).2.1
  simp only [parseHeader, bind_eq_ok, pure_eq_ok, Outcome.ok.injEq] at hheader
  obtain ⟨_, _, flags, hflags, _, _, _, _, _, _, _, _, heq⟩ := hheader
  have hreply := u16At_flags (readdressed q request)
  have hsame : (readdressed q request).header.flags = flags := (congrArg DnsHeader.flags heq).symm
  rw [TcSet, TcSet, hreply, hflags, hsame]

/-- **A UDP replay has TC set or keeps all records, if the message has TC set, is too long, or is written
alike; and otherwise it loses records, unless a name of the questions or an additional owner leads the
client astray.** -/
theorem replay_udp_records (raw reply : Bytes) (q request : DnsPacket) (hraw : fromBytes raw = ok q)
    (h : replay raw request .udp = ok reply) :
    (KeepsRecords raw q request → TcSet reply ∨ SameRecords raw reply) ∧
      (GoodQuestions q → (∀ r ∈ q.additionals, GoodName r.domain) →
        TcSet reply ∨ SameRecords raw reply → KeepsRecords raw q request) := by
  rw [replay, hraw] at h
  obtain rfl := Outcome.ok.inj h
  have hlimit := udpLimit_readdressed q request
  by_cases hlong : (readdressed q request).toBytes.length ≤ (readdressed q request).udpLimit
  · rw [toUdpBytes, if_pos hlong, tcSet_readdressed hraw]
    have hwritable : GoodQuestions q → (readdressed q request).Writable := fun hqs =>
      writable_of_length hlong (fun question hq => (hqs question hq).whole) (counted_of_fromBytes hraw).questions
    refine ⟨?_, fun hqs howner => ?_⟩
    · rintro (htc | hlen | ⟨hqs, halike⟩)
      · exact .inl htc
      · omega
      · exact .inr (sameRecords_of_writtenAlike hraw (hwritable hqs) halike)
    · rintro (htc | hsame)
      · exact .inl htc
      · exact .inr (.inr ⟨hqs, writtenAlike_of_sameRecords hraw (hwritable hqs) howner hsame⟩)
  · rw [toUdpBytes, if_neg hlong]
    exact ⟨fun _ => .inl (tcSet_truncated _), fun _ _ _ => .inr (.inl (by omega))⟩

def bareRequest : DnsPacket := ⟨⟨5, 0x100, 0, 0, 0, 0⟩, [], [], [], []⟩

theorem replay_udp_records_letterAnswer : ∃ q reply,
    fromBytes (letterAnswer 1 65) = ok q ∧ replay (letterAnswer 1 65) bareRequest .udp = ok reply ∧
      (KeepsRecords (letterAnswer 1 65) q bareRequest → TcSet reply ∨ SameRecords (letterAnswer 1 65) reply) ∧
      (GoodQuestions q → (∀ r ∈ q.additionals, GoodName r.domain) →
        TcSet reply ∨ SameRecords (letterAnswer 1 65) reply → KeepsRecords (letterAnswer 1 65) q bareRequest) := by
  have hraw : fromBytes (letterAnswer 1 65) =
      ok ⟨⟨1, 0x8180, 1, 1, 0, 0⟩, [⟨['A'], 1, 1⟩], [.a ['A'] ⟨10, 0, 0, 1⟩ 60], [], []⟩ := by
    decide
  have hreply : replay (letterAnswer 1 65) bareRequest .udp = ok (letterAnswer 5 65) := by
    decide
  exact ⟨_, _, hraw, hreply, replay_udp_records _ _ _ _ hraw hreply⟩

/-- An answer of type 65, which the server does not model, for the root. -/
def unmodelledAnswer : Bytes :=
  [0, 1, 0x81, 0x80, 0, 0, 0, 1, 0, 0, 0, 0, 0, 0, 65, 0, 1, 0, 0, 0, 60, 0, 1, 7]

/-- Its UDP replay has no answer and no TC. -/
theorem unmodelled_answer_lost : ∃ reply, replay unmodelledAnswer bareRequest .udp = ok reply ∧
    ¬ TcSet reply ∧ ¬ SameRecords unmodelledAnswer reply := by
  have hreply : replay unmodelledAnswer bareRequest .udp = ok [0, 5, 0x81, 0x80, 0, 0, 0, 0, 0, 0, 0, 0] := by
    decide
  refine ⟨_, hreply, ?_, ?_⟩
  · rintro ⟨flags, hflags, htc⟩
    rw [show u16At [0, 5, 0x81, 0x80, 0, 0, 0, 0, 0, 0, 0, 0] 2 = (ok 0x8180 : Outcome DnsError UInt16) by decide,
      Outcome.ok.injEq] at hflags
    subst hflags
    exact htc (by decide)
  · rintro ⟨s, s', ⟨header, _, _, _, _, hheader, _, hlen, _⟩, ⟨header', _, _, _, _, hheader', _, hlen', _⟩, hsame⟩
    have hone : parseHeader unmodelledAnswer = ok ⟨1, 0x8180, 0, 1, 0, 0⟩ := by decide
    have hnone : parseHeader [0, 5, 0x81, 0x80, 0, 0, 0, 0, 0, 0, 0, 0] = ok ⟨5, 0x8180, 0, 0, 0, 0⟩ := by decide
    rw [hone, Outcome.ok.injEq] at hheader
    rw [hnone, Outcome.ok.injEq] at hheader'
    subst hheader
    subst hheader'
    have hanswers := congrArg (fun s => s.answers.length) hsame
    have heq : s.answers.length = s'.answers.length := hanswers
    rw [hlen, hlen'] at heq
    exact absurd heq (by decide)

end MiniDns
