import MiniDns.AclMembership
import MiniDns.ConfigLayers
import MiniDns.Dns.PacketSafety
import MiniDns.ServiceOrigins
import MiniDns.SignedAnswers

/-! Which bytes can end a call without a reply. A panic of the decoder takes the call that has decoded the
bytes with it, and no other: what was decoded once is safe for everyone that it is handed to. -/
namespace MiniDns
open Lib Lib.Outcome Dns DnsPacket Function
set_option autoImplicit false

/-! ## Calls that cannot panic -/

theorem signRrset_ne_panic {rt : Runtime} {keys : DnssecKeys} {records : List DnsRecord} (hne : records ≠ [])
    (signerName : Text) (ttl inception expiration : UInt32) :
    keys.signRrset rt records signerName ttl inception expiration ≠ panic := by
  unfold DnssecKeys.signRrset
  repeat' split
  all_goals first
    | exact absurd rfl hne
    | exact nofun

theorem signRrsets_ne_panic {rt : Runtime} {keys : DnssecKeys} (signerName : Text) (unixTime : UInt32)
    (rrsets : List (Sigma fun _ : Text × UInt16 => List DnsRecord)) (hne : ∀ rrset ∈ rrsets, rrset.2 ≠ []) :
    signRrsets rt keys signerName unixTime rrsets ≠ panic := by
  induction rrsets with
  | nil => exact nofun
  | cons rrset rrsets ih =>
    obtain ⟨hhead, htail⟩ := List.forall_mem_cons.mp hne
    refine handle_ne_panic (signRrset_ne_panic hhead _ _ _ _) (fun rrsig _ => ?_) fun _ _ => ih htail
    exact bind_ne_panic (ih htail) fun _ _ => nofun

theorem applyDnssec_ne_panic (rt : Runtime) (response : DnsPacket) (zones : ZoneSet) (qname : Text) (qtype : UInt16)
    (keys : DnssecKeys) (unixTime : UInt32) : applyDnssec rt response zones qname qtype keys unixTime ≠ panic := by
  unfold applyDnssec
  dsimp only
  split
  · rename_i hkeys
    exact handle_ne_panic (signRrset_ne_panic hkeys.2.2 _ _ _ _) (fun _ _ => nofun) fun _ _ => nofun
  split
  · exact nofun
  split
  · exact nofun
  -- a record set of the answers has the record that it was made for
  refine bind_ne_panic (signRrsets_ne_panic _ _ _ fun rrset hmem => ?_) fun rrsigs _ => ?_
  · exact (mem_groupRrsets.mp ((rt.iterate_perm _).mem_iff.mp hmem)).2
  · split <;> exact nofun

namespace ServerState
variable {rt : Runtime} {st : ServerState}

theorem localResponse_ne_panic (unixTime : UInt32) (request : DnsPacket) :
    st.localResponse rt unixTime request ≠ panic := by
  have hsigned : st.signedResponse rt unixTime request ≠ panic := by
    unfold signedResponse
    dsimp only
    split
    · exact applyDnssec_ne_panic _ _ _ _ _ _ _
    · exact nofun
  refine bind_ne_panic hsigned fun response _ => ?_
  repeat' split
  all_goals exact nofun

/-- A transfer panics only in the decoder. -/
theorem fromBytes_of_tryAxfr {req : Bytes} {client : IpAddr} (h : st.tryAxfr rt req client = panic) :
    fromBytes req = panic := by
  by_contra hparsed
  unfold tryAxfr at h
  refine handle_ne_panic hparsed (fun request _ => ?_) (fun _ _ h => ?_) h
  case refine_2 => cases h
  split
  · exact nofun
  split
  · exact nofun
  refine bind_ne_panic ?_ fun _ _ => nofun
  rw [transferResponse, isAllowed_eq, ok_bind]
  repeat' split
  all_goals exact nofun

/-- `forward_and_cache` panics for want of a resolver, or in the decoder. -/
theorem forwardAndCache_not_ok {answeredAt : Instant} {ctx : ForwardCtx} {result : Option Bytes}
    (h : ∀ raw st', st.forwardAndCache rt answeredAt ctx result ≠ ok (raw, st')) :
    st.hasResolver ctx.upstream = false ∨ ∃ raw, result = some raw ∧ fromBytes raw = panic := by
  by_cases hresolver : st.hasResolver ctx.upstream
  · cases result with
    | none => exact absurd (by rw [forwardAndCache, if_pos hresolver]) (h _ st)
    | some raw =>
      simp only [forwardAndCache, if_pos hresolver] at h
      cases hparsed : fromBytes raw with
      | panic => exact .inr ⟨raw, rfl, hparsed⟩
      | err e =>
        rw [hparsed] at h
        exact absurd rfl (h raw st)
      | ok parsed =>
        rw [hparsed] at h
        cases httl : cacheTtl parsed with
        | none => exact absurd (by simp [handle, httl]) (h raw st)
        | some ttl =>
          rw [handle, httl] at h
          exact absurd rfl (h raw _)
  · exact .inl (Bool.eq_false_iff.mpr hresolver)

end ServerState

/-- What has no records is decoded without a panic. -/
theorem fromBytes_synthResponse (request : DnsPacket) (rcode : UInt16) :
    fromBytes (synthResponse request [] rcode).toBytes ≠ panic := by
  rw [fromBytes_ne_panic_iff]
  rintro offset ⟨_, header, _, _, hheader, _, k, hk, _⟩ _
  obtain ⟨more, hmore⟩ := toBytes_head (synthResponse request [] rcode)
  rw [hmore, parseHeader_append] at hheader
  obtain rfl := Outcome.ok.inj hheader
  exact absurd hk (Nat.not_lt_zero k)

theorem replay_ne_panic {raw : Bytes} (hraw : fromBytes raw ≠ panic) (request : DnsPacket) (transport : Transport) :
    replay raw request transport ≠ panic := by
  cases transport with
  | tcp => exact nofun
  | udp => exact handle_ne_panic hraw (fun _ _ => nofun) fun _ _ => nofun

theorem decodes_of_forwardAndCache {rt : Runtime} {st st' : ServerState} {answeredAt : Instant} {ctx : ForwardCtx}
    {result : Option Bytes} {raw : Bytes} (h : st.forwardAndCache rt answeredAt ctx result = ok (raw, st')) :
    fromBytes raw ≠ panic := by
  obtain ⟨_, rfl, _⟩ | ⟨rfl, _⟩ := ServerState.forwardAndCache_cases h
  · exact fromBytes_synthResponse _ _
  · intro hpanic
    simp only [ServerState.forwardAndCache, hpanic] at h
    split at h <;> cases h

/-! ## Flights that are torn down -/

/-- The leader has returned without a result, or a call was dropped. -/
def Phase.torn : Phase → Bool
  | .unwinding | .closing none | .cancelled => true
  | _ => false

namespace Flights
variable {rt : Runtime} {calls : TaskId → ForwardCtx} {w w' : Flights} {a : FlightAction} {t : TaskId}

theorem torn_of_complete {st : ServerState} {answeredAt : Instant} {result : Option Bytes}
    (h : step rt calls w (.complete t st answeredAt result) = some w') (htorn : (w'.phase t).torn) :
    st.hasResolver (calls t).upstream = false ∨ ∃ raw, result = some raw ∧ fromBytes raw = panic := by
  obtain ⟨_, ⟨_, hnot⟩ | ⟨raw, st', hfetched, _⟩⟩ := complete_of_step h
  · exact ServerState.forwardAndCache_not_ok hnot
  · rw [hfetched] at htorn
    cases htorn

theorem torn_of_enter (h : step rt calls w (.enter t) = some w') : (w'.phase t).torn = false := by
  obtain ⟨_, hphase | ⟨leader, hphase⟩⟩ := enter_of_step h <;> rw [hphase] <;> rfl

/-- Only a cancelled call is torn down by a move of its flight. -/
theorem torn_of_flight {move : CallMove} (ha : move.flight t = some a) (h : step rt calls w a = some w')
    (htorn : (w'.phase t).torn) : (w.phase t).torn ∨ move = .cancel := by
  have hflies := flies_of_step ha h
  revert htorn hflies
  generalize w.phase t = p, w'.phase t = p'
  rintro htorn hflies
  cases hflies with
  | unwind => exact .inl rfl
  | tearDown => exact .inl rfl
  | cancelEarly => exact .inr rfl
  | cancelLeader => exact .inr rfl
  | cancelFollower => exact .inr rfl
  | _ => cases htorn

end Flights

/-! ## What one step keeps -/

namespace Service

def CancelledBy (acts : List ServiceAction) (t : TaskId) : Prop := ∃ shard, .call t shard .cancel ∈ acts

/-- While the call waited for the recursive resolver, a server has sent this response to it. -/
def Misread (rt : Runtime) (queries : TaskId → Query) (r : Running) (acts : List ServiceAction) (t : TaskId)
    (response : Bytes) : Prop :=
  (contexts rt r.state queries t).upstream = recursiveSentinel ∧ ∃ shard, .call t shard (.misread response) ∈ acts

/-- Why a flight of a call was torn down. -/
def TornBy (rt : Runtime) (queries : TaskId → Query) (r : Running) (acts : List ServiceAction) (t : TaskId) : Prop :=
  CancelledBy acts t ∨ (∃ raw, Completed acts t (some raw) ∧ fromBytes raw = panic) ∨
    (∃ response, Misread rt queries r acts t response ∧ fromBytes response = panic) ∨
    (∃ request question, Asks rt queries r t request question) ∧
      r.state.hasResolver (contexts rt r.state queries t).upstream = false

structure Contained (rt : Runtime) (queries : TaskId → Query) (r : Running) (acts : List ServiceAction) (w : Service) :
    Prop where
  stored : ∀ name qtype response ttl, .insert name qtype response ttl ∈ w.memory.calls → fromBytes response ≠ panic
  torn : ∀ t, (w.flights.phase t).torn → TornBy rt queries r acts t
  silent : ∀ t path, w.phase t = .ended path none →
    path = .limited ∨ path = .garbled ∨ fromBytes (queries t).req = panic

section Step
variable {rt : Runtime} {toml : Text → Option Settings} {queries : TaskId → Query} {r : Running}
  {acts : List ServiceAction} {a : ServiceAction} {w w₁ w' : Service} {t : TaskId} {move : CallMove}
  {shard : Fin shards} {cs : List Metric} {phase : QueryPhase}

theorem TornBy.later (h : TornBy rt queries r acts t) (a : ServiceAction) : TornBy rt queries r (acts ++ [a]) t := by
  obtain ⟨shard, hmem⟩ | ⟨raw, hcompleted, hpanic⟩ | ⟨response, ⟨hupstream, shard, hmem⟩, hpanic⟩ | hresolver := h
  · exact .inl ⟨shard, List.mem_append_left _ hmem⟩
  · exact .inr (.inl ⟨raw, hcompleted.later a, hpanic⟩)
  · exact .inr (.inr (.inl ⟨response, ⟨hupstream, shard, List.mem_append_left _ hmem⟩, hpanic⟩))
  · exact .inr (.inr (.inr hresolver))

/-- How a step tears a flight down. -/
theorem Does.torn (h : Does rt queries w t move w₁ cs phase) {t' : TaskId} (htorn : (w₁.flights.phase t').torn) :
    (w.flights.phase t').torn ∨ t' = t ∧ (move = .cancel ∨
      (∃ response, move = .misread response ∧ fromBytes response = panic ∧
        (contexts rt w.state queries t).upstream = recursiveSentinel) ∨
      ∃ answeredAt result, move = .complete answeredAt result ∧
        (w.state.hasResolver (contexts rt w.state queries t).upstream = false ∨
          ∃ raw, result = some raw ∧ fromBytes raw = panic)) := by
  by_cases ht : t' = t
  case neg =>
    rw [h.flights_other ht] at htorn
    exact .inl htorn
  subst ht
  have henter : ∀ {flights}, w.flights.step rt (contexts rt w.state queries) (.enter t') = some flights →
      (flights.phase t').torn → (w.flights.phase t').torn := by
    intro flights hstep htorn
    rw [Flights.torn_of_enter hstep] at htorn
    cases htorn
  cases h with
  | join _ hstep => exact .inl (henter hstep htorn)
  | lead _ hstep _ => exact .inl (henter hstep htorn)
  | orphan _ hstep _ => exact .inl (henter hstep htorn)
  | complete _ hstep _ => exact .inr ⟨rfl, .inr (.inr ⟨_, _, rfl, Flights.torn_of_complete hstep htorn⟩)⟩
  | abort _ hstep => exact .inr ⟨rfl, .inr (.inr ⟨_, _, rfl, Flights.torn_of_complete hstep htorn⟩)⟩
  | misread _ _ hpanic hupstream => exact .inr ⟨rfl, .inr (.inl ⟨_, rfl, hpanic, hupstream⟩)⟩
  | fly _ hstep ha => exact (Flights.torn_of_flight ha hstep htorn).imp_right fun hmove => ⟨rfl, .inl hmove⟩
  | _ => exact .inl htorn

/-- Where a call can end without a reply. -/
theorem Does.silent (h : Does rt queries w t move w₁ cs phase) {path : Path} (hphase : phase = .ended path none) :
    (path = .limited ∨ path = .garbled ∨ fromBytes (queries t).req = panic) ∨
      (∃ request question response key lookedAt raw,
        w.phase t = .looking request question response (.found key lookedAt (some raw)) ∧
          replay raw request (queries t).transport = panic) ∨
      (w.flights.phase t).reply (contexts rt w.state queries t) = some panic := by
  have hpanic : ∀ {x : Outcome Empty Bytes}, x.toOption = none → x = panic := by
    intro x hx
    refine eq_panic fun a ha => ?_
    rw [ha] at hx
    cases hx
  cases h with
  | unread _ haxfr => exact .inl (.inr (.inr (ServerState.fromBytes_of_tryAxfr haxfr)))
  | limit _ => exact .inl (.inl (QueryPhase.ended.inj hphase).1.symm)
  | garble _ => exact .inl (.inr (.inl (QueryPhase.ended.inj hphase).1.symm))
  | crash _ hrequest => exact .inl (.inr (.inr hrequest))
  | fail _ hresponse => exact absurd hresponse (ServerState.localResponse_ne_panic _ _)
  | @hit request response question key lookedAt raw hold =>
    exact .inr (.inl ⟨request, question, response, key, lookedAt, raw, hold, hpanic (QueryPhase.ended.inj hphase).2⟩)
  | reply hold hout => exact .inr (.inr (hpanic (QueryPhase.ended.inj hphase).2 ▸ hout))
  | _ => cases hphase

/-- The bytes that are handed to a client of a flight were decoded by the leader. -/
theorem reply_ne_panic (hrun : run (step rt toml queries) (init r) acts = some w) (ctx : ForwardCtx) :
    (w.flights.phase t).reply ctx ≠ some panic := by
  have hraws : ∀ {t raw}, (w.flights.phase t).raw = some raw → fromBytes raw ≠ panic := by
    intro t raw hraw
    obtain ⟨result, op, answeredAt, st', _, hforward⟩ := (linked_of_run hrun t).fetched raw hraw
    exact decodes_of_forwardAndCache hforward
  intro hreply
  cases hphase : w.flights.phase t with
  | led raw =>
    rw [hphase] at hreply
    exact replay_ne_panic (hraws (t := t) (by rw [hphase]; rfl)) _ _ (Option.some.inj hreply)
  | followed leader shared =>
    rw [hphase] at hreply
    obtain ⟨_, hsent, _⟩ := (flights_of_run hrun).followers t leader shared hphase
    cases shared with
    | none => exact replay_ne_panic (fromBytes_synthResponse _ _) _ _ (Option.some.inj hreply)
    | some raw => exact replay_ne_panic (hraws (Phase.raw_of_sent hsent.symm)) _ _ (Option.some.inj hreply)
  | _ =>
    rw [hphase] at hreply
    cases hreply

theorem Contained.step (hcache : r.state.cache.map = ∅) (hrun : run (step rt toml queries) (init r) acts = some w)
    (h : Contained rt queries r acts w) (hdoes : Does rt queries w t move w₁ cs phase) :
    Contained rt queries r (acts ++ [.call t shard move]) (w₁.goto t shard cs phase) := by
  have hsame := sameConfig_of_run hrun
  have horigins := origins_of_run hcache hrun
  have hnew : .call t shard move ∈ acts ++ [.call t shard move] := List.mem_append_right _ List.mem_cons_self
  refine ⟨fun name qtype response ttl hmem => ?_, fun t' htorn => ?_, fun t' path hphase => ?_⟩
  · obtain hmem | ⟨_, _, parsed, hparsed⟩ := hdoes.inserts hmem
    · exact h.stored name qtype response ttl hmem
    · rw [hparsed]
      exact nofun
  · obtain hold | ⟨rfl, rfl | ⟨response, rfl, hpanic, hupstream⟩ | ⟨answeredAt, result, rfl, hcause⟩⟩ := hdoes.torn htorn
    · exact (h.torn t' hold).later _
    · exact .inl ⟨shard, hnew⟩
    · rw [hsame.contexts] at hupstream
      exact .inr (.inr (.inl ⟨response, ⟨hupstream, shard, hnew⟩, hpanic⟩))
    · rw [hsame.contexts, hsame.hasResolver] at hcause
      obtain hresolver | ⟨raw, rfl, hpanic⟩ := hcause
      · obtain ⟨role, hflying⟩ := hdoes.completes
        exact .inr (.inr (.inr ⟨asks_of_flying hrun hflying, hresolver⟩))
      · exact .inr (.inl ⟨raw, ⟨shard, answeredAt, hnew⟩, hpanic⟩)
  · by_cases ht : t' = t
    · subst ht
      rw [show (w₁.goto t' shard cs phase).phase t' = phase from update_self ..] at hphase
      obtain hcause | ⟨request, question, response, key, lookedAt, raw, hold, hpanic⟩ | hpanic := hdoes.silent hphase
      · exact hcause
      · obtain ⟨name, qtype, ttl, _, hmem⟩ := horigins.stored hold
        exact absurd hpanic (replay_ne_panic (h.stored name qtype raw ttl hmem) _ _)
      · exact absurd hpanic (reply_ne_panic hrun _)
    · rw [show (w₁.goto t shard cs phase).phase t' = w₁.phase t' from update_of_ne ht .., hdoes.phase] at hphase
      exact h.silent t' path hphase

theorem contained_of_run (hcache : r.state.cache.map = ∅) (h : run (step rt toml queries) (init r) acts = some w) :
    Contained rt queries r acts w := by
  have hkeep : ∀ acts w a w', run (step rt toml queries) (init r) acts = some w → Contained rt queries r acts w →
      step rt toml queries w a = some w' → Contained rt queries r (acts ++ [a]) w' := by
    intro acts w a w' hrun hcontained hstep
    obtain ⟨t, shard, move, w₁, cs, phase, rfl, hdoes, rfl⟩ | ⟨_, _, hmemory, hflights, _, hphase⟩ := step_cases hstep
    · exact hcontained.step hcache hrun hdoes
    · refine ⟨hmemory ▸ hcontained.stored, fun t htorn => ?_, hphase ▸ hcontained.silent⟩
      rw [hflights] at htorn
      exact (hcontained.torn t htorn).later a
  have hstart : Contained rt queries r [] (init r) := by
    refine ⟨fun _ _ _ _ hmem => ?_, fun t htorn => ?_, fun t path hphase => ?_⟩
    · cases hmem
    · cases htorn
    · cases hphase
  exact run_history hkeep hstart h

/-- A server that was started has the resolvers that its routes need, but for one address. -/
theorem sentinel_of_started {files : Files} {args : Args} {keyPair : Option (Bytes × Bytes)}
    (hstart : runServer rt toml files args keyPair = ok r) {request : DnsPacket} {question : DnsQuestion}
    (hasks : Asks rt queries r t request question)
    (hresolver : r.state.hasResolver (contexts rt r.state queries t).upstream = false) :
    r.state.forwardRules.matchName (rt.toLowercase question.qname) = some recursiveSentinel ∧
      r.state.recursive = false := by
  obtain ⟨settings, _, hbuilt⟩ := builtFrom_of_runServer hstart
  obtain ⟨upstream, hctx, hmatch | ⟨_, hrecursive, rfl⟩⟩ := ServerState.route_eq_some hasks.route
  · rw [hctx, ServerState.hasResolver] at hresolver
    split at hresolver
    · rename_i hsentinel
      exact ⟨by rw [hmatch, ← hsentinel], hresolver⟩
    · -- without a forwarder there are no rules
      rw [hbuilt.forwarder, Bool.not_eq_false'] at hresolver
      have hrules := hbuilt.rules
      rw [startRules, if_pos hresolver] at hrules
      rw [← Outcome.ok.inj hrules] at hmatch
      cases hmatch
  · rw [hctx, ServerState.hasResolver, if_pos rfl, hrecursive] at hresolver
    cases hresolver

end Step

/-- **A panic is contained.** On a server that `run_server` has started, a call that ends without a reply was
over the limit, or its own request could not be decoded. A flight is torn down only when its own call was
cancelled, when the answer that the upstream gave to it panics the decoder, when a response that a server gave
to the recursive resolver on its way panics it, or when the rules send the name to the address 0.0.0.0:0, which
stands for a recursive resolver, and there is none. -/
theorem crash_causes (rt : Runtime) (toml : Text → Option Settings) (files : Files) (args : Args)
    (keyPair : Option (Bytes × Bytes)) (r : Running) (hstart : runServer rt toml files args keyPair = ok r)
    (queries : TaskId → Query) (acts : List ServiceAction) (w : Service)
    (h : run (step rt toml queries) (init r) acts = some w) (t : TaskId) :
    (∀ path, w.phase t = .ended path none →
      path = .limited ∨ path = .garbled ∨ fromBytes (queries t).req = panic) ∧
    ((w.flights.phase t).torn →
      CancelledBy acts t ∨ (∃ raw, Completed acts t (some raw) ∧ fromBytes raw = panic) ∨
        (∃ response, Misread rt queries r acts t response ∧ fromBytes response = panic) ∨
        ∃ request question, fromBytes (queries t).req = ok request ∧ request.questions.head? = some question ∧
          r.state.forwardRules.matchName (rt.toLowercase question.qname) = some recursiveSentinel ∧
          r.state.recursive = false) := by
  have hcache : r.state.cache.map = ∅ := by
    obtain ⟨settings, _, hbuilt⟩ := builtFrom_of_runServer hstart
    rw [hbuilt.cache]
    rfl
  have hcontained := contained_of_run hcache h
  refine ⟨hcontained.silent t, fun htorn => ?_⟩
  obtain hcancelled | hpanic | hmisread | ⟨⟨request, question, hasks⟩, hresolver⟩ := hcontained.torn t htorn
  · exact .inl hcancelled
  · exact .inr (.inl hpanic)
  · exact .inr (.inr (.inl hmisread))
  · exact .inr (.inr (.inr ⟨request, question, hasks.parsed, hasks.first, sentinel_of_started hstart hasks hresolver⟩))

/-- The only record is an NSEC with an empty rdata, whose next name is read from the byte behind it. -/
def strayNsec : Bytes := [0, 1, 0, 0, 0, 0, 0, 1, 0, 0, 0, 0, 0, 0, 47, 0, 1, 0, 0, 0, 0, 0, 0, 0]

/-- The upstream gives such a record to the first of two calls; the second has followed it. -/
def tearing : List ServiceAction :=
  entering 2 ++
    [CallMove.complete 0 (some strayNsec), .dropGuard, .dropSender].map (.call 1 firstShard) ++
    [CallMove.wake, .reply].map (.call 2 firstShard)

theorem crash_causes_tearing : ∃ r w, runServer .ascii ruleConfig (oneFile '0') ruleArgs none = ok r ∧
    run (step .ascii ruleConfig letterQueries) (init r) (entering 1 ++ tearing) = some w ∧
    (w.flights.phase 1).torn ∧ (∃ reply, w.phase 2 = .ended (.flown .following) (some reply)) ∧
    (CancelledBy (entering 1 ++ tearing) 1 ∨
      (∃ raw, Completed (entering 1 ++ tearing) 1 (some raw) ∧ fromBytes raw = panic) ∨
        (∃ response, Misread .ascii letterQueries r (entering 1 ++ tearing) 1 response ∧ fromBytes response = panic) ∨
        ∃ request question, fromBytes (letterQuery 1 97) = ok request ∧ request.questions.head? = some question ∧
          r.state.forwardRules.matchName (Runtime.ascii.toLowercase question.qname) = some recursiveSentinel ∧
          r.state.recursive = false) := by
  have hrun : ((runServer .ascii ruleConfig (oneFile '0') ruleArgs none).toOption.bind fun r =>
      (run (step .ascii ruleConfig letterQueries) (init r) (entering 1 ++ tearing)).map fun w =>
        ((w.flights.phase 1).torn, (w.phase 2).outcome.map Prod.fst, ((w.phase 2).outcome.bind Prod.snd).isSome)) =
      some (true, some (.flown .following), true) := by
    decide +kernel
  obtain ⟨r, hr, hrun⟩ := Option.bind_eq_some_iff.mp hrun
  obtain ⟨w, hw, heq⟩ := Option.map_eq_some_iff.mp hrun
  obtain ⟨htorn, heq⟩ := Prod.mk.inj heq
  obtain ⟨hpath, hsome⟩ := Prod.mk.inj heq
  obtain ⟨⟨path, reply⟩, houtcome, rfl⟩ := Option.map_eq_some_iff.mp hpath
  rw [houtcome] at hsome
  obtain ⟨reply, rfl⟩ := Option.isSome_iff_exists.mp hsome
  have hstart := eq_ok_of_toOption hr
  refine ⟨r, w, hstart, hw, htorn, ⟨reply, QueryPhase.eq_of_outcome houtcome⟩, ?_⟩
  exact (crash_causes .ascii ruleConfig (oneFile '0') ruleArgs none r hstart letterQueries _ w hw 1).2 htorn

end Service
end MiniDns
