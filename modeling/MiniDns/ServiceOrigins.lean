import MiniDns.ServiceReplies

/-! Where relayed bytes come from. What a client is given from the cache or from a flight was sent to the
server by an upstream, in answer to a query of some client for the same name and type. -/
namespace MiniDns
open Lib Lib.Outcome Dns DnsPacket Function
set_option autoImplicit false

def Path.relays : Path → Bool
  | .cached | .flown _ => true
  | _ => false

/-- The operation of the cache that a call is at. -/
def QueryPhase.op : QueryPhase → Option CacheOp
  | .looking _ _ _ op | .flying (.answered _ op) => some op
  | _ => none

namespace Service

/-- The request of a call that is forwarded. -/
structure Asks (rt : Runtime) (queries : TaskId → Query) (r : Running) (t : TaskId) (request : DnsPacket)
    (question : DnsQuestion) : Prop where
  parsed : fromBytes (queries t).req = ok request
  first : request.questions.head? = some question
  route : r.state.route rt (queries t).req request question (queries t).transport = some (contexts rt r.state queries t)

/-- The bytes are the answer that the upstream gave to a call with the same question, or say that it gave
none; or nobody has asked it, and the call says so. -/
def Originates (rt : Runtime) (queries : TaskId → Query) (r : Running) (acts : List ServiceAction) (t : TaskId)
    (question : DnsQuestion) (raw : Bytes) : Prop :=
  ∃ t' request' question', Asks rt queries r t' request' question' ∧ cacheKey rt question' = cacheKey rt question ∧
    (Completed acts t' (some raw) ∨
      raw = (synthResponse request' [] rcodeServfail).toBytes ∧ (Completed acts t' none ∨ t' = t))

def Relayed (rt : Runtime) (queries : TaskId → Query) (r : Running) (acts : List ServiceAction) (t : TaskId)
    (reply : Bytes) : Prop :=
  ∃ request question raw, fromBytes (queries t).req = ok request ∧ request.questions.head? = some question ∧
    replay raw request (queries t).transport = ok reply ∧ Originates rt queries r acts t question raw

structure Origins (rt : Runtime) (queries : TaskId → Query) (r : Running) (acts : List ServiceAction) (w : Service) :
    Prop where
  memory : w.memory.Sound rt
  ops : ∀ t op, (w.phase t).op = some op → op.Sound rt w.memory
  inserted : ∀ name qtype response ttl, .insert name qtype response ttl ∈ w.memory.calls → ∃ t,
    Completed acts t (some response) ∧ (contexts rt r.state queries t).key = (name, qtype)
  asked : ∀ t result, Completed acts t result → ∃ request question, Asks rt queries r t request question
  relayed : ∀ t path reply, w.phase t = .ended path (some reply) → path.relays → Relayed rt queries r acts t reply

section Step
variable {rt : Runtime} {toml : Text → Option Settings} {queries : TaskId → Query} {r : Running}
  {acts : List ServiceAction} {a : ServiceAction} {w w₁ w' : Service} {t : TaskId} {move : CallMove}
  {shard : Fin shards} {cs : List Metric} {phase : QueryPhase}

theorem Relayed.later {reply : Bytes} (h : Relayed rt queries r acts t reply) (a : ServiceAction) :
    Relayed rt queries r (acts ++ [a]) t reply := by
  obtain ⟨request, question, raw, hparsed, hq, hreplay, t', request', question', hasks, hkey, horigin⟩ := h
  refine ⟨request, question, raw, hparsed, hq, hreplay, t', request', question', hasks, hkey, ?_⟩
  obtain hanswer | ⟨hraw, hnone | hself⟩ := horigin
  · exact .inl (hanswer.later a)
  · exact .inr ⟨hraw, .inl (hnone.later a)⟩
  · exact .inr ⟨hraw, .inr hself⟩

/-- What a step does to the cache: nothing, or an operation of the call. -/
theorem Does.memory (h : Does rt queries w t move w₁ cs phase) :
    (w₁.memory = w.memory ∧ ∀ op, phase.op = some op → (w.phase t).op = some op ∨ op = .stored) ∨
      ∃ op op', ((w.phase t).op = some op ∨ op = .idle) ∧ Advances rt w.memory op w₁.memory op' ∧
        phase.op = some op' := by
  have hnone : ∀ {p : QueryPhase}, p.op = none → ∀ op, p.op = some op → (w.phase t).op = some op ∨ op = .stored := by
    intro p hp op hop
    rw [hp] at hop
    cases hop
  cases h with
  | seek hphase _ _ _ hc => exact .inr ⟨.idle, _, .inr rfl, .call rfl, rfl⟩
  | look hphase hgo => exact .inr ⟨_, _, .inl (by rw [hphase]; rfl), advances_of_go hgo, rfl⟩
  | store hphase hgo => exact .inr ⟨_, _, .inl (by rw [hphase]; rfl), advances_of_go hgo, rfl⟩
  | @complete _ _ _ call hphase _ _ =>
    cases call with
    | some c => exact .inr ⟨.idle, _, .inr rfl, .call rfl, rfl⟩
    | none => exact .inl ⟨rfl, fun op hop => .inr (Option.some.inj hop).symm⟩
  | fly hphase _ _ => exact .inl ⟨rfl, fun op hop => .inl (by rwa [hphase])⟩
  | _ => exact .inl ⟨rfl, hnone rfl⟩

theorem calls_of_go {m m' : CacheMemory} {op op' : CacheOp} {now : Instant} {order : Order}
    (h : m.go rt now order op = some (m', op')) : m'.calls = m.calls := by
  cases op with
  | _ =>
    simp only [CacheMemory.go] at h
    repeat' split at h
    all_goals first
      | (obtain ⟨rfl, _⟩ := Prod.mk.inj (Option.some.inj h); rfl)
      | cases h

theorem insertCall_eq_some {ctx : ForwardCtx} {result : Option Bytes} {name : Text} {qtype : UInt16} {response : Bytes}
    {ttl : UInt32} (h : insertCall ctx result = some (.insert name qtype response ttl)) :
    result = some response ∧ ctx.key = (name, qtype) ∧ ∃ parsed, fromBytes response = ok parsed := by
  obtain ⟨response', rfl, h⟩ := Option.bind_eq_some_iff.mp h
  obtain ⟨parsed, hparsed, h⟩ := Option.bind_eq_some_iff.mp h
  obtain ⟨ttl', _, h⟩ := Option.bind_eq_some_iff.mp h
  obtain ⟨rfl, rfl, rfl, rfl⟩ := CacheCall.insert.inj (Option.some.inj h)
  exact ⟨rfl, rfl, parsed, eq_ok_of_toOption hparsed⟩

/-- Only the end of an upstream query leads to an insertion, of a response that was decoded. -/
theorem Does.inserts (h : Does rt queries w t move w₁ cs phase) {name : Text} {qtype : UInt16} {response : Bytes}
    {ttl : UInt32} (hmem : .insert name qtype response ttl ∈ w₁.memory.calls) :
    .insert name qtype response ttl ∈ w.memory.calls ∨
      (∃ answeredAt, move = .complete answeredAt (some response)) ∧
        (contexts rt w.state queries t).key = (name, qtype) ∧ ∃ parsed, fromBytes response = ok parsed := by
  cases h with
  | seek _ _ _ _ hc =>
    obtain heq | hmem := List.mem_cons.mp hmem
    · cases heq.trans hc
    · exact .inl hmem
  | look _ hgo =>
    dsimp only at hmem
    rw [calls_of_go hgo] at hmem
    exact .inl hmem
  | store _ hgo =>
    dsimp only at hmem
    rw [calls_of_go hgo] at hmem
    exact .inl hmem
  | @complete _ answeredAt result call _ _ hcall =>
    cases call with
    | none => exact .inl hmem
    | some c =>
      obtain rfl | hmem := List.mem_cons.mp hmem
      · obtain ⟨rfl, hkey, hparsed⟩ := insertCall_eq_some hcall.symm
        exact .inr ⟨⟨answeredAt, rfl⟩, hkey, hparsed⟩
      · exact .inl hmem
  | _ => exact .inl hmem

theorem Does.completes {answeredAt : Instant} {result : Option Bytes}
    (h : Does rt queries w t (.complete answeredAt result) w₁ cs phase) : ∃ role, w.phase t = .flying role := by
  cases h with
  | complete hphase _ _ => exact ⟨_, hphase⟩
  | abort hphase _ => exact ⟨_, hphase⟩
  | fly hphase _ _ => exact ⟨_, hphase⟩

/-- A relayed reply is settled from the cache or from a flight. -/
theorem Does.relays (h : Does rt queries w t move w₁ cs phase) {path : Path} {reply : Bytes}
    (hphase : phase = .ended path (some reply)) (hrelays : path.relays) :
    (∃ request question response key lookedAt raw,
        w.phase t = .looking request question response (.found key lookedAt (some raw)) ∧
          replay raw request (queries t).transport = ok reply) ∨
      ∃ role, w.phase t = .flying role ∧
        (w.flights.phase t).reply (contexts rt w.state queries t) = some (ok reply) := by
  cases h with
  | @hit request response question key lookedAt raw hold =>
    obtain ⟨_, hreply⟩ := QueryPhase.ended.inj hphase
    exact .inl ⟨request, question, response, key, lookedAt, raw, hold, eq_ok_of_toOption hreply⟩
  | reply hold hout =>
    obtain ⟨_, hreply⟩ := QueryPhase.ended.inj hphase
    exact .inr ⟨_, hold, eq_ok_of_toOption hreply ▸ hout⟩
  | @transfer _ path' _ _ _ hpath =>
    obtain ⟨rfl, _⟩ := QueryPhase.ended.inj hphase
    rw [hpath, ServerState.transferPath] at hrelays
    revert hrelays
    repeat' split
    all_goals exact fun hrelays => by cases hrelays
  | _ =>
    cases hphase
    try cases hrelays

theorem Forwarded.asks (h : Forwarded rt toml queries r acts t) :
    ∃ request question, Asks rt queries r t request question := by
  obtain ⟨request, question, hadmitted, ⟨hmissed⟩⟩ := h
  exact ⟨request, question, hadmitted.parsed, hmissed.unknown.question, hmissed.route⟩

theorem asks_of_flying (hrun : run (step rt toml queries) (init r) acts = some w) {role : Role}
    (hphase : w.phase t = .flying role) : ∃ request question, Asks rt queries r t request question := by
  have hjustified := justified_of_run hrun t
  rw [hphase] at hjustified
  exact Forwarded.asks hjustified

theorem Asks.key {request : DnsPacket} {question : DnsQuestion} (h : Asks rt queries r t request question) :
    (contexts rt r.state queries t).key = (rt.toLowercase question.qname, question.qtype) ∧
      (contexts rt r.state queries t).request = request ∧
      (contexts rt r.state queries t).transport = (queries t).transport := by
  obtain ⟨upstream, hctx, _⟩ := ServerState.route_eq_some h.route
  rw [hctx]
  exact ⟨rfl, rfl, rfl⟩

/-- The bytes of a flight were sent to its own call, or say that it was sent none. -/
theorem Origins.fetched (h : Origins rt queries r acts w) (hrun : run (step rt toml queries) (init r) acts = some w)
    {raw : Bytes} (hraw : (w.flights.phase t).raw = some raw) : ∃ request question, Asks rt queries r t request question ∧
      (Completed acts t (some raw) ∨
        raw = (synthResponse request [] rcodeServfail).toBytes ∧ Completed acts t none) := by
  have hlinked := linked_of_run hrun t
  obtain ⟨result, op, answeredAt, st', hrole, hforward⟩ := hlinked.fetched raw hraw
  have hcompleted := hlinked.answered result op hrole
  obtain ⟨request, question, hasks⟩ := h.asked t result hcompleted
  obtain ⟨_, hrequest, _⟩ := hasks.key
  refine ⟨request, question, hasks, ?_⟩
  obtain ⟨rfl, hservfail, _⟩ | ⟨rfl, _⟩ := ServerState.forwardAndCache_cases hforward
  · exact .inr ⟨by rw [hservfail, hrequest], hcompleted⟩
  · exact .inl hcompleted

/-- What is found in the cache was inserted there under the name and type that are looked up. -/
theorem Origins.stored (h : Origins rt queries r acts w) {request response : DnsPacket} {question : DnsQuestion}
    {key : Text × UInt16} {lookedAt : Instant} {raw : Bytes}
    (hphase : w.phase t = .looking request question response (.found key lookedAt (some raw))) :
    ∃ name qtype ttl, key = (rt.toLowercase name, qtype) ∧ .insert name qtype raw ttl ∈ w.memory.calls := by
  obtain ⟨past, s, hpast, hlast, rfl, _⟩ := (h.ops t _ (by rw [hphase]; rfl)).hit _ _ _ rfl
  obtain ⟨_, _, hsplit, _⟩ := List.lookup_eq_some_iff.mp hlast
  obtain ⟨name, qtype, hkey, hmem⟩ := h.memory.asked key s (hpast.subset (by simp [hsplit]))
  exact ⟨name, qtype, s.ttlSecs, hkey, hmem⟩

/-- What is found in the cache was sent to a call with the same question. -/
theorem Origins.found (h : Origins rt queries r acts w) {request response : DnsPacket} {question : DnsQuestion}
    {lookedAt : Instant} {raw : Bytes}
    (hphase : w.phase t = .looking request question response (.found (cacheKey rt question) lookedAt (some raw))) :
    Originates rt queries r acts t question raw := by
  obtain ⟨name, qtype, ttl, hkey, hmem⟩ := h.stored hphase
  obtain ⟨t', hcompleted, hctx⟩ := h.inserted name qtype raw ttl hmem
  obtain ⟨request', question', hasks⟩ := h.asked t' _ hcompleted
  refine ⟨t', request', question', hasks, ?_, .inl hcompleted⟩
  rw [hasks.key.1] at hctx
  obtain ⟨hname, hqtype⟩ := Prod.mk.inj hctx
  rw [hkey, cacheKey, hname, hqtype]

/-- A flight ends with the bytes of a leader with the same question, or without any. -/
theorem Origins.flown (h : Origins rt queries r acts w) (hrun : run (step rt toml queries) (init r) acts = some w)
    {request : DnsPacket} {question : DnsQuestion} (hasks : Asks rt queries r t request question) {reply : Bytes}
    (hreply : (w.flights.phase t).reply (contexts rt r.state queries t) = some (ok reply)) :
    Relayed rt queries r acts t reply := by
  obtain ⟨hkey, hrequest, htransport⟩ := hasks.key
  cases hphase : w.flights.phase t with
  | led raw =>
    rw [hphase] at hreply
    have hreplay : replay raw request (queries t).transport = ok reply := by
      rw [← hrequest, ← htransport]
      exact Option.some.inj hreply
    obtain ⟨request', question', hasks', horigin⟩ := h.fetched hrun (t := t) (by rw [hphase]; rfl)
    have hsame : question' = question := by
      obtain rfl := Outcome.ok.inj (hasks'.parsed.symm.trans hasks.parsed)
      exact Option.some.inj (hasks'.first.symm.trans hasks.first)
    refine ⟨request, question, raw, hasks.parsed, hasks.first, hreplay, t, request', question', hasks', by rw [hsame],
      ?_⟩
    exact horigin.imp_right fun ⟨hraw, hnone⟩ => ⟨hraw, .inl hnone⟩
  | followed leader shared =>
    rw [hphase] at hreply
    have hreplay : followerReply (contexts rt r.state queries t) shared = ok reply := Option.some.inj hreply
    obtain ⟨hleader, hsent, _⟩ := (flights_of_run hrun).followers t leader shared hphase
    cases shared with
    | none =>
      rw [followerReply, hrequest, htransport] at hreplay
      exact ⟨request, question, _, hasks.parsed, hasks.first, hreplay, t, request, question, hasks, rfl,
        .inr ⟨rfl, .inr rfl⟩⟩
    | some raw =>
      rw [followerReply, hrequest, htransport] at hreplay
      obtain ⟨request', question', hasks', horigin⟩ := h.fetched hrun (Phase.raw_of_sent hsent.symm)
      refine ⟨request, question, raw, hasks.parsed, hasks.first, hreplay, leader, request', question', hasks', ?_,
        horigin.imp_right fun ⟨hraw, hnone⟩ => ⟨hraw, .inl hnone⟩⟩
      rw [hasks'.key.1, hkey] at hleader
      obtain ⟨hname, hqtype⟩ := Prod.mk.inj hleader
      rw [cacheKey, cacheKey, hname, hqtype]
  | _ =>
    rw [hphase] at hreply
    cases hreply

theorem sound_of_ended {op : CacheOp} (m : CacheMemory) (hhit : op.hit = none) (hentry : op.entry = none) :
    op.Sound rt m where
  hit key lookedAt response h := by
    rw [hhit] at h
    cases h
  asked new h := by
    rw [hentry] at h
    cases h

theorem Origins.cache (h : Origins rt queries r acts w) (hdoes : Does rt queries w t move w₁ cs phase) :
    w₁.memory.Sound rt ∧ (∀ op, phase.op = some op → op.Sound rt w₁.memory) ∧
      ∀ op : CacheOp, op.Sound rt w.memory → op.Sound rt w₁.memory := by
  obtain ⟨hmemory, hops⟩ | ⟨op, op', hop, hadv, hnew⟩ := hdoes.memory
  · rw [hmemory]
    refine ⟨h.memory, fun op hop => ?_, fun _ hop => hop⟩
    obtain hold | rfl := hops op hop
    · exact h.ops t op hold
    · exact sound_of_ended _ rfl rfl
  · have hsound : op.Sound rt w.memory := by
      obtain hold | rfl := hop
      · exact h.ops t op hold
      · exact sound_of_ended _ rfl rfl
    refine ⟨h.memory.advance hsound hadv, fun op'' hop'' => ?_, fun other hother =>
      hother.mono hadv.extends.1 hadv.extends.2⟩
    obtain rfl := Option.some.inj (hnew.symm.trans hop'')
    exact .advance h.memory hsound hadv

theorem Origins.step (hrun : run (step rt toml queries) (init r) acts = some w) (h : Origins rt queries r acts w)
    (hdoes : Does rt queries w t move w₁ cs phase) :
    Origins rt queries r (acts ++ [.call t shard move]) (w₁.goto t shard cs phase) := by
  have hsame := sameConfig_of_run hrun
  have hself : (w₁.goto t shard cs phase).phase t = phase := update_self ..
  have hother : ∀ t', t' ≠ t → (w₁.goto t shard cs phase).phase t' = w.phase t' := by
    intro t' ht
    rw [← hdoes.phase]
    exact update_of_ne ht ..
  obtain ⟨hmemory, hown, hkeep⟩ := h.cache hdoes
  refine ⟨?_, ?_, ?_, ?_, ?_⟩
  · exact hmemory
  · intro t' op hop
    by_cases ht : t' = t
    · subst ht
      rw [hself] at hop
      exact hown op hop
    · rw [hother t' ht] at hop
      exact hkeep op (h.ops t' op hop)
  · intro name qtype response ttl hmem
    obtain hmem | ⟨⟨answeredAt, rfl⟩, hkey, _⟩ := hdoes.inserts hmem
    · obtain ⟨t', hcompleted, hkey⟩ := h.inserted name qtype response ttl hmem
      exact ⟨t', hcompleted.later _, hkey⟩
    · rw [hsame.contexts] at hkey
      exact ⟨t, ⟨shard, answeredAt, List.mem_append_right _ List.mem_cons_self⟩, hkey⟩
  · rintro t' result ⟨shard', answeredAt, hmem⟩
    obtain hmem | hmem := List.mem_append.mp hmem
    · exact h.asked t' result ⟨shard', answeredAt, hmem⟩
    · obtain ⟨rfl, rfl, rfl⟩ := ServiceAction.call.inj (List.mem_singleton.mp hmem)
      obtain ⟨role, hphase⟩ := hdoes.completes
      exact asks_of_flying hrun hphase
  · intro t' path reply hphase hrelays
    by_cases ht : t' = t
    · subst ht
      rw [hself] at hphase
      obtain ⟨request, question, response, key, lookedAt, raw, hold, hreplay⟩ | ⟨role, hold, hreply⟩ :=
        hdoes.relays hphase hrelays
      · have hlooking := justified_of_run hrun t'
        rw [hold] at hlooking
        obtain ⟨hadmitted, v, unixTime, _, hunknown, rfl, _⟩ := hlooking
        exact Relayed.later ⟨request, question, raw, hadmitted.parsed, hunknown.question, hreplay, h.found hold⟩ _
      · obtain ⟨request, question, hasks⟩ := asks_of_flying hrun hold
        rw [hsame.contexts] at hreply
        exact (h.flown hrun hasks hreply).later _
    · rw [hother t' ht] at hphase
      exact (h.relayed t' path reply hphase hrelays).later _

theorem Origins.idle (h : Origins rt queries r acts w) (ha : ∀ t shard move, a ≠ .call t shard move)
    (hmemory : w'.memory = w.memory) (hphase : w'.phase = w.phase) : Origins rt queries r (acts ++ [a]) w' where
  memory := hmemory ▸ h.memory
  ops := by
    rw [hmemory, hphase]
    exact h.ops
  inserted := by
    rw [hmemory]
    intro name qtype response ttl hmem
    obtain ⟨t, hcompleted, hkey⟩ := h.inserted name qtype response ttl hmem
    exact ⟨t, hcompleted.later a, hkey⟩
  asked := by
    rintro t result ⟨shard, answeredAt, hmem⟩
    obtain hmem | hmem := List.mem_append.mp hmem
    · exact h.asked t result ⟨shard, answeredAt, hmem⟩
    · exact absurd (List.mem_singleton.mp hmem).symm (ha t shard _)
  relayed := by
    rw [hphase]
    exact fun t path reply hended hrelays => (h.relayed t path reply hended hrelays).later a

theorem origins_of_run (hcache : r.state.cache.map = ∅) (h : run (step rt toml queries) (init r) acts = some w) :
    Origins rt queries r acts w := by
  have hkeep : ∀ acts w a w', run (step rt toml queries) (init r) acts = some w → Origins rt queries r acts w →
      step rt toml queries w a = some w' → Origins rt queries r (acts ++ [a]) w' := by
    intro acts w a w' hrun horigins hstep
    obtain ⟨t, shard, move, w₁, cs, phase, rfl, hdoes, rfl⟩ | ⟨ha, _, hmemory, _, _, hphase⟩ := step_cases hstep
    · exact horigins.step hrun hdoes
    · exact horigins.idle ha hmemory hphase
  have hstart : Origins rt queries r [] (init r) := by
    refine ⟨⟨fun key entry hentry => ?_, fun key s hs => ?_⟩, fun t op hop => ?_,
      fun name qtype response ttl hmem => ?_, fun t result hcompleted => ?_,
      fun t path reply hended => ?_⟩
    · rw [show (init r).memory.cache = r.state.cache from rfl, hcache] at hentry
      cases hentry
    · cases hs
    · cases hop
    · cases hmem
    · obtain ⟨_, _, hmem⟩ := hcompleted
      cases hmem
    · cases hended
  exact run_history hkeep hstart h

end Step

/-- **Nothing is relayed to the wrong question.** What a client is given from the cache or from a flight is
the replay of an answer that an upstream gave, in this run, to a query for the same name and type, or of a
SERVFAIL. -/
theorem relayed_same_question (rt : Runtime) (toml : Text → Option Settings) (queries : TaskId → Query) (r : Running)
    (hcache : r.state.cache.map = ∅) (acts : List ServiceAction) (w : Service)
    (h : run (step rt toml queries) (init r) acts = some w) (t : TaskId) (path : Path) (hrelays : path.relays)
    (reply : Bytes) (hreply : w.phase t = .ended path (some reply)) :
    ∃ request question raw t' request' question',
      fromBytes (queries t).req = ok request ∧ request.questions.head? = some question ∧
      replay raw request (queries t).transport = ok reply ∧
      fromBytes (queries t').req = ok request' ∧ request'.questions.head? = some question' ∧
      cacheKey rt question' = cacheKey rt question ∧
      (Completed acts t' (some raw) ∨
        raw = (synthResponse request' [] rcodeServfail).toBytes ∧ (Completed acts t' none ∨ t' = t)) := by
  obtain ⟨request, question, raw, hparsed, hq, hreplay, t', request', question', hasks, hkey, horigin⟩ :=
    (origins_of_run hcache h).relayed t path reply hreply hrelays
  exact ⟨request, question, raw, t', request', question', hparsed, hq, hreplay, hasks.parsed, hasks.first, hkey, horigin⟩

theorem relayed_same_question_letter : ∃ w, run (step .ascii (fun _ => none) letterQueries) (init letterServer)
      (entering 1 ++ joining) = some w ∧
    ∃ request question raw t' request' question',
      fromBytes (letterQuery 2 97) = ok request ∧ request.questions.head? = some question ∧
      replay raw request .udp = ok (letterAnswer 2 97) ∧
      fromBytes (letterQueries t').req = ok request' ∧ request'.questions.head? = some question' ∧
      cacheKey .ascii question' = cacheKey .ascii question ∧
      (Completed (entering 1 ++ joining) t' (some raw) ∨
        raw = (synthResponse request' [] rcodeServfail).toBytes ∧
          (Completed (entering 1 ++ joining) t' none ∨ t' = 2)) := by
  obtain ⟨w, hrun, hphase⟩ := run_joining
  exact ⟨w, hrun, relayed_same_question .ascii (fun _ => none) letterQueries letterServer rfl _ w hrun 2 _ rfl _ hphase⟩

end Service
end MiniDns
