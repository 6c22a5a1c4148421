import MiniDns.CacheRuns
import MiniDns.ReplayRecords

/-! The age of cached answers. A hit replays the message with the lifetimes it was stored with, so the
client is told to keep a record for longer than its origin allows. -/
namespace MiniDns
open Lib Lib.Outcome Dns DnsRecord DnsPacket
set_option autoImplicit false

/-! ## Lifetimes in a reply -/

/-- Each answer of the reply stands for one of the message, in order, of the same type and with a lifetime
that is shorter by `elapsed` seconds or has come to an end. -/
def Aged (elapsed : ℕ) (raw reply : Bytes) : Prop :=
  ∀ s s', Carries raw s → Carries reply s' →
    List.SublistForall₂ (fun w' w => w'.rtype = w.rtype ∧ w'.ttl.toNat ≤ w.ttl.toNat - elapsed)
      s'.answers s.answers

/-- The reply has no answer with a lifetime, because the message has none or because truncation leaves
none. -/
def NothingToAge (request : DnsPacket) (raw : Bytes) (transport : Transport) : Prop :=
  match transport, fromBytes raw with
  | .udp, ok q => (∀ r ∈ q.answers, r.ttl = 0) ∨ request.udpLimit < (readdressed q request).toBytes.length
  | _, _ => ∀ s, Carries raw s → ∀ w ∈ s.answers, w.ttl = 0

theorem le_sub_self_iff {ttl : UInt32} {elapsed : ℕ} : ttl.toNat ≤ ttl.toNat - elapsed ↔ elapsed = 0 ∨ ttl = 0 := by
  have hzero : ttl = 0 ↔ ttl.toNat = 0 := by rw [← UInt32.toNat_inj]; rfl
  rw [hzero]
  omega

section Replay
variable {elapsed : ℕ} {raw reply : Bytes} {q request : DnsPacket} {s : WireSections}

/-- A message that is relayed as it is ages only if it has nothing to age. -/
theorem aged_of_same (hsame : ∀ s, Carries reply s ↔ Carries raw s) :
    Aged elapsed raw reply ↔ elapsed = 0 ∨ ∀ s, Carries raw s → ∀ w ∈ s.answers, w.ttl = 0 := by
  constructor
  · intro haged
    by_cases hzero : elapsed = 0
    · exact .inl hzero
    refine .inr fun s hs w hw => ?_
    obtain ⟨l, hall, hsub⟩ := List.sublistForall₂_iff.mp (haged s s hs ((hsame s).mpr hs))
    obtain rfl := hsub.eq_of_length hall.length_eq.symm
    exact (le_sub_self_iff.mp (List.forall₂_same.mp hall w hw).2).resolve_left hzero
  · intro h s s' hs hs'
    obtain rfl := hs.unique ((hsame s').mp hs')
    refine List.sublistForall₂_iff.mpr ⟨s.answers, List.forall₂_same.mpr fun w hw => ⟨rfl, ?_⟩, List.Sublist.refl _⟩
    exact le_sub_self_iff.mpr (h.imp_right fun h => h s hs w hw)

/-- A record keeps its lifetime when it is encoded again, so it is as old as it was on the wire. -/
theorem aged_iff_of_livesAs {r : DnsRecord} {w : WireRecord} (h : LivesAs r w) :
    (wireOf r).ttl.toNat ≤ w.ttl.toNat - elapsed ↔ elapsed = 0 ∨ r.ttl = 0 := by
  obtain ⟨_, hopt | httl⟩ := h
  · have hzero : r.ttl = 0 := by cases r <;> first | rfl | cases hopt
    rw [show (wireOf r).ttl = r.ttl from rfl, hzero]
    exact ⟨fun _ => .inr rfl, fun _ => Nat.zero_le _⟩
  · rw [← httl]
    exact le_sub_self_iff

theorem sublistForall₂_wireOf {rs : List DnsRecord} {ws : List WireRecord} (h : LiveAs rs ws) :
    List.SublistForall₂ (fun w' w => w'.rtype = w.rtype ∧ w'.ttl.toNat ≤ w.ttl.toNat - elapsed) (rs.map wireOf) ws ↔
      elapsed = 0 ∨ ∀ r ∈ rs, r.ttl = 0 := by
  obtain ⟨kept, hlive, hkept, hall⟩ := h
  rw [List.sublistForall₂_iff]
  simp only [List.forall₂_map_left_iff]
  constructor
  · rintro ⟨l, haged, hsub⟩
    -- what the reply has an answer for is modelled, and nothing else in the message is
    have hmodelled : ∀ w ∈ l, ¬ w.Unmodelled := by
      intro w hw hunmodelled
      obtain ⟨r, _, hr⟩ := exists_of_mem_forall₂ haged hw
      exact hunmodelled r hr.1
    obtain rfl := (hall l hsub hmodelled).eq_of_length (haged.length_eq.symm.trans hlive.length_eq)
    by_cases hzero : elapsed = 0
    · exact .inl hzero
    have hboth : List.Forall₂ (fun r w => r.ttl = 0 ∧ LivesAs r w) rs l :=
      List.Forall₂.mp (fun r w hlives haged => ⟨((aged_iff_of_livesAs hlives).mp haged.2).resolve_left hzero, hlives⟩)
        hlive haged
    exact .inr ((List.forall₂_and_left rs l).mp hboth).1
  · intro h
    have hzero : ∀ r ∈ rs, elapsed = 0 ∨ r.ttl = 0 := fun r hr => h.imp_right fun h => h r hr
    have hboth := (List.forall₂_and_left rs kept).mpr ⟨hzero, hlive⟩
    exact ⟨kept, hboth.imp fun r w h => ⟨h.2.1, (aged_iff_of_livesAs h.2).mpr h.1⟩, hkept⟩

theorem aged_readdressed (hraw : fromBytes raw = ok q) (hlegible : Legible (readdressed q request)) :
    Aged elapsed raw (readdressed q request).toBytes ↔ elapsed = 0 ∨ ∀ r ∈ q.answers, r.ttl = 0 := by
  obtain ⟨s, hs, _⟩ := carries_of_fromBytes hraw
  rw [← sublistForall₂_wireOf (hs.liveAs hraw)]
  constructor
  · exact fun haged => haged s _ hs (hlegible.carries.mpr rfl)
  · intro h s₁ s' hs₁ hs'
    obtain rfl := hs.unique hs₁
    obtain rfl := hlegible.carries.mp hs'
    exact h

theorem aged_truncated (elapsed : ℕ) (raw : Bytes) (p : DnsPacket) : Aged elapsed raw p.truncated.toBytes := by
  rintro s s' _ ⟨header, _, _, _, _, hheader, _, hlen, _⟩
  obtain ⟨more, hmore⟩ := toBytes_head p.truncated
  rw [hmore, parseHeader_append] at hheader
  obtain rfl := Outcome.ok.inj hheader
  rw [List.eq_nil_of_length_eq_zero (show s'.answers.length = 0 from hlen)]
  exact .nil

/-- **A replayed message has aged answers exactly when no whole second has passed or there is nothing to
age.** -/
theorem aged_replay {transport : Transport} (hlegible : RelayLegible request raw transport)
    (h : replay raw request transport = ok reply) :
    Aged elapsed raw reply ↔ elapsed = 0 ∨ NothingToAge request raw transport := by
  cases transport with
  | tcp =>
    obtain rfl := Outcome.ok.inj h
    exact aged_of_same hlegible
  | udp =>
    obtain ⟨q, hq, h⟩ | ⟨error, herror, h⟩ := handle_eq_ok.mp h
    · obtain rfl := Outcome.ok.inj h
      simp only [RelayLegible, hq, sent] at hlegible
      simp only [NothingToAge, hq, toUdpBytes]
      have hlimit := udpLimit_readdressed q request
      split
      · rename_i hfits
        rw [if_pos hfits] at hlegible
        rw [aged_readdressed hq hlegible, or_iff_left (by omega : ¬ request.udpLimit < _)]
      · rename_i hlong
        exact ⟨fun _ => .inr (.inr (by omega)), fun _ => aged_truncated elapsed raw _⟩
    · obtain rfl := Outcome.ok.inj h
      simp only [RelayLegible, herror] at hlegible
      simp only [NothingToAge, herror]
      exact aged_of_same hlegible

end Replay

/-! ## Hits of the cache -/

def Stored.age (stored : Stored) (now : Instant) : ℕ := (now - stored.storedAt) / fromSecs 1

/-- The request is answered from the cache, with `raw`. -/
structure CacheHit (rt : Runtime) (st : ServerState) (m : Moment) (request : DnsPacket) (transport : Transport)
    (question : DnsQuestion) (raw : Bytes) : Prop where
  asked : request.questions.head? = some question
  passes : ¬ (transport = .tcp ∧ question.qtype = typeAxfr ∨ st.blocks rt request)
  elsewhere : st.looksElsewhere rt request
  hit : (st.cache.get rt m.now (rt.toLowercase question.qname) question.qtype).1 = some raw

theorem CacheHit.source {rt : Runtime} {st : ServerState} {m : Moment} {request : DnsPacket} {transport : Transport}
    {question : DnsQuestion} {raw : Bytes} (h : CacheHit rt st m request transport question raw) :
    st.source rt m request transport = .relayed raw := by
  rw [ServerState.source, h.asked]
  dsimp only
  rw [ServerState.questionSource, if_neg h.passes, if_pos h.elsewhere]
  dsimp only
  rw [h.hit]

/-- **A cached response that is served to a client has aged answers exactly when no whole second has passed
since it was stored, or there is nothing to age: lifetimes are replayed as they were stored.** -/
theorem cached_answers_aged_iff (rt : Runtime) (capacity : ℕ) (history : List CacheEvent) (st st' : ServerState)
    (m : Moment) (req : Bytes) (client : IpAddr) (transport : Transport) (request : DnsPacket)
    (question : DnsQuestion) (raw reply : Bytes) (hcache : st.cache = Cache.after rt capacity history)
    (hreq : fromBytes req = ok request) (hhit : CacheHit rt st m request transport question raw)
    (h : st.resolve rt m req client transport = ok (some reply, st')) (hlegible : RelayLegible request raw transport) :
    ∃ stored, Cache.latest rt (rt.toLowercase (rt.toLowercase question.qname), question.qtype) history = some stored ∧
      stored.response = raw ∧
      (Aged (stored.age m.now) raw reply ↔ stored.age m.now = 0 ∨ NothingToAge request raw transport) := by
  have hyields := ServerState.resolve_source hreq h
  rw [hhit.source] at hyields
  have hget := hhit.hit
  rw [hcache] at hget
  obtain ⟨entry, hlookup, _, rfl⟩ := Cache.get_eq_some.mp hget
  obtain ⟨stored, hlatest, rfl⟩ := Cache.latest_of_lookup hlookup
  exact ⟨stored, hlatest, rfl, aged_replay hlegible hyields⟩

/-- The answer for `A` with its lifetime of 60 seconds is stored at 0. -/
def letterHistory : List CacheEvent := [⟨0, .stored, .insert ['a'] 1 (letterAnswer 1 65) 60⟩]

def letterCache : ServerState := { forwardingServer with cache := Cache.after .ascii 1024 letterHistory }

def letterRequest : DnsPacket := ⟨⟨2, 0x100, 1, 0, 0, 0⟩, [⟨['a'], 1, 1⟩], [], [], []⟩

def letterMoment : Moment := ⟨fromSecs 30, 0, .leader none, fromSecs 30⟩

theorem letterAnswer_legible : RelayLegible letterRequest (letterAnswer 1 65) .udp := by
  have hraw : fromBytes (letterAnswer 1 65) =
      ok ⟨⟨1, 0x8180, 1, 1, 0, 0⟩, [⟨['A'], 1, 1⟩], [.a ['A'] ⟨10, 0, 0, 1⟩ 60], [], []⟩ := by
    decide
  simp only [RelayLegible, hraw]
  have hsent : sent (readdressed ⟨⟨1, 0x8180, 1, 1, 0, 0⟩, [⟨['A'], 1, 1⟩], [.a ['A'] ⟨10, 0, 0, 1⟩ 60], [], []⟩
      letterRequest) .udp = ⟨⟨2, 0x8180, 1, 1, 0, 0⟩, [⟨['A'], 1, 1⟩], [.a ['A'] ⟨10, 0, 0, 1⟩ 60], [], []⟩ := by
    decide
  rw [hsent]
  refine ⟨⟨by decide, ⟨by decide, by decide, by decide, by decide⟩, by decide⟩, fun r hr => ?_⟩
  obtain rfl := List.mem_singleton.mp hr
  exact ⟨by decide, by simp [recordFields, Field.Whole]⟩

theorem letterCache_hit :
    CacheHit .ascii letterCache letterMoment letterRequest .udp ⟨['a'], 1, 1⟩ (letterAnswer 1 65) where
  asked := rfl
  passes := by decide
  elsewhere := by decide
  hit := by decide

theorem letterCache_resolves :
    ∃ st', letterCache.resolve .ascii letterMoment (letterQuery 2 97) (letterClient 2) .udp =
      ok (some (letterAnswer 2 65), st') := by
  have hrun : (letterCache.resolve .ascii letterMoment (letterQuery 2 97) (letterClient 2) .udp >>=
      fun r => ok r.1) = ok (some (letterAnswer 2 65)) := by
    decide
  obtain ⟨⟨reply, st'⟩, h, heq⟩ := bind_eq_ok.mp hrun
  obtain rfl := Outcome.ok.inj heq
  exact ⟨st', h⟩

theorem cached_answers_aged_iff_letterCache : ∃ stored,
    Cache.latest Runtime.ascii (['a'], 1) letterHistory = some stored ∧ stored.response = letterAnswer 1 65 ∧
      (Aged (stored.age (fromSecs 30)) (letterAnswer 1 65) (letterAnswer 2 65) ↔
        stored.age (fromSecs 30) = 0 ∨ NothingToAge letterRequest (letterAnswer 1 65) .udp) := by
  obtain ⟨st', h⟩ := letterCache_resolves
  exact cached_answers_aged_iff .ascii 1024 letterHistory letterCache st' letterMoment _ _ .udp letterRequest
    ⟨['a'], 1, 1⟩ _ _ rfl (by decide) letterCache_hit h letterAnswer_legible

/-- The answer is 30 seconds old, and the client is told to keep it for 60 more. -/
theorem cached_answer_not_aged : ∃ stored st',
    Cache.latest Runtime.ascii (['a'], 1) letterHistory = some stored ∧ stored.age (fromSecs 30) = 30 ∧
      letterCache.resolve .ascii letterMoment (letterQuery 2 97) (letterClient 2) .udp =
        ok (some (letterAnswer 2 65), st') ∧
      ¬ Aged 30 (letterAnswer 1 65) (letterAnswer 2 65) := by
  obtain ⟨st', h⟩ := letterCache_resolves
  have hreplay : replay (letterAnswer 1 65) letterRequest .udp = ok (letterAnswer 2 65) := by decide
  refine ⟨⟨0, letterAnswer 1 65, 60⟩, st', by decide, by decide, h, ?_⟩
  rw [aged_replay letterAnswer_legible hreplay]
  rintro (hzero | hnothing)
  · cases hzero
  have hraw : fromBytes (letterAnswer 1 65) =
      ok ⟨⟨1, 0x8180, 1, 1, 0, 0⟩, [⟨['A'], 1, 1⟩], [.a ['A'] ⟨10, 0, 0, 1⟩ 60], [], []⟩ := by
    decide
  simp only [NothingToAge, hraw] at hnothing
  obtain hzero | hlong := hnothing
  · exact absurd (hzero _ (List.mem_singleton.mpr rfl)) (by decide)
  · exact absurd hlong (by decide)

end MiniDns
