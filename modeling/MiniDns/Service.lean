import MiniDns.ConcurrentCache
import MiniDns.Metrics
import MiniDns.Reload
import MiniDns.SingleFlight

/-! The server as a whole: queries of any number of clients, the single-flight map, the cache, the rate
limiter, the counters and reloads, step by step. A query reads each part of the shared state in a step of
its own, and anything may happen to the state between two of its steps. -/
namespace MiniDns
open Lib Lib.Outcome Dns DnsPacket Function
set_option autoImplicit false

/-! ## Reload in two halves -/

namespace Running

/-- A reload up to the point where the zones are replaced, and whether the blocklist is to follow. -/
def storeZones (rt : Runtime) (toml : Text → Option Settings) (files : Files) (r : Running) :
    Outcome LoadError (Running × Bool) :=
  match r.zonePath with
  | none => ok (r, false)
  | some path =>
    if ".toml".toList.isSuffixOf path then do
      let settings ← loadSettings toml files path
      let zones ← loadZonesFromSettings rt files settings
      pure (r.withZones zones, settings.blocklist.isSome)
    else do
      let zone ← ofOption (readZoneFile rt files path) .readingZone
      pure (r.withZones (ZoneSet.fromSingle (inferredOrigin rt zone) zone), false)

def storeBlocklist (rt : Runtime) (files : Files) (r : Running) : Running :=
  match r.blocklist.reload rt files with
  | ok b => r.withBlocklist b
  | _ => r

/-- The two halves make up a reload. -/
theorem reload_eq (rt : Runtime) (toml : Text → Option Settings) (files : Files) (r : Running) :
    r.reload rt toml files =
      (r.storeZones rt toml files >>= fun half => ok (if half.2 then half.1.storeBlocklist rt files else half.1)) := by
  have hlist : ∀ r : Running, ((r.blocklist.reload rt files).handle (fun b => ok (r.withBlocklist b)) fun _ => ok r :
      Outcome LoadError Running) = ok (r.storeBlocklist rt files) := by
    intro r
    rw [storeBlocklist]
    cases hreload : r.blocklist.reload rt files with
    | panic =>
      have hne := @reload_blocklist rt files r
      rw [hreload] at hne
      cases hne
    | _ => rfl
  unfold reload storeZones
  cases r.zonePath with
  | none => rfl
  | some path =>
    dsimp only
    split
    · cases loadSettings toml files path with
      | ok settings =>
        cases hzones : loadZonesFromSettings rt files settings with
        | ok zones => cases hblocklist : settings.blocklist <;> simp [hzones, hblocklist, hlist]
        | err e => simp [hzones]
        | panic => simp [hzones]
      | err e => rfl
      | panic => rfl
    · cases readZoneFile rt files path <;> rfl

end Running

/-! ## Calls -/

structure Query where
  req : Bytes
  client : IpAddr
  transport : Transport

/-- What a call is in the single-flight map: not in it yet, a leader that asks upstream, one that has the
result and is at an operation of `Cache::insert`, one whose resolver is missing, or a follower. -/
inductive Role where
  | queued
  | leading
  | answered (result : Option Bytes) (op : CacheOp)
  | orphaned
  | following
  deriving DecidableEq, Repr

/-- How a call has ended: a transfer was sent, refused or asked for no zone of the server; the request
could not be read by `try_axfr`; it was over the limit, no packet, or could not be read; the blocklist, the
zones or the cache had the answer, or a flight did. -/
inductive Path where
  | transferred
  | refused
  | unknownZone
  | unread
  | limited
  | garbled
  | crashed
  | blocked
  | own
  | cached
  | flown (role : Role)
  deriving DecidableEq, Repr

/-- How far a call of `resolve` has come. A call that ends without a reply was dropped or has panicked. -/
inductive QueryPhase where
  | start
  | entered
  | admitted (request : DnsPacket)
  | listed (request : DnsPacket) (question : DnsQuestion)
  | screened (request : DnsPacket)
  | looking (request : DnsPacket) (question : DnsQuestion) (response : DnsPacket) (op : CacheOp)
  | flying (role : Role)
  | ended (path : Path) (reply : Option Bytes)

/-- The part of a call that was in the single-flight map. -/
def QueryPhase.role : QueryPhase → Option Role
  | .flying role | .ended (.flown role) _ => some role
  | _ => none

inductive CallMove where
  | arrive
  | accept (now : Instant)
  | check
  | screen
  | answer (unixTime : UInt32)
  | look (now : Instant) (order : Order)
  | settle
  | enter
  | complete (answeredAt : Instant) (result : Option Bytes)
  | misread (response : Bytes)
  | store (now : Instant) (order : Order)
  | publish
  | dropGuard
  | dropSender
  | cancel
  | wake
  | reply

/-- The moves of a call that are moves of its flight and nothing else. -/
def CallMove.flight (t : TaskId) : CallMove → Option FlightAction
  | .publish => some (.publish t)
  | .dropGuard => some (.dropGuard t)
  | .dropSender => some (.dropSender t)
  | .cancel => some (.cancel t)
  | .wake => some (.wake t)
  | _ => none

theorem CallMove.flight_cases {t : TaskId} {move : CallMove} {a : FlightAction} (h : move.flight t = some a) :
    a = .publish t ∧ move = .publish ∨ a = .dropGuard t ∧ move = .dropGuard ∨ a = .dropSender t ∧ move = .dropSender ∨
      a = .cancel t ∧ move = .cancel ∨ a = .wake t ∧ move = .wake := by
  cases move with
  | publish => exact .inl ⟨(Option.some.inj h).symm, rfl⟩
  | dropGuard => exact .inr (.inl ⟨(Option.some.inj h).symm, rfl⟩)
  | dropSender => exact .inr (.inr (.inl ⟨(Option.some.inj h).symm, rfl⟩))
  | cancel => exact .inr (.inr (.inr (.inl ⟨(Option.some.inj h).symm, rfl⟩)))
  | wake => exact .inr (.inr (.inr (.inr ⟨(Option.some.inj h).symm, rfl⟩)))
  | _ => cases h

/-- The steps of calls, each counted in the shard of the thread that it runs on, the two halves of a
reload, and the cleanup of the limiter. -/
inductive ServiceAction where
  | call (t : TaskId) (shard : Fin shards) (move : CallMove)
  | sighup (files : Files)
  | relist (files : Files)
  | cleanup (now : Instant)

namespace ServerState

/-- Where a name that is not known here is looked up. -/
def route (rt : Runtime) (st : ServerState) (req : Bytes) (request : DnsPacket) (question : DnsQuestion)
    (transport : Transport) : Option ForwardCtx :=
  let name := rt.toLowercase question.qname
  match st.forwardRules.matchName name with
  | some upstream => some ⟨request, req, name, question.qtype, upstream, transport⟩
  | none =>
    if st.recursive then some ⟨request, req, name, question.qtype, recursiveSentinel, transport⟩ else none

/-- The way that `try_axfr` takes with a request that is a transfer. -/
def transferPath (rt : Runtime) (st : ServerState) (req : Bytes) (client : IpAddr) : Path :=
  let question := (fromBytes req).toOption.bind fun request => request.questions.head?
  if st.axfrAcl.isAllowed client = ok true then
    match question.bind fun question => st.zones.find (rt.toLowercase question.qname) with
    | some _ => .transferred
    | none => .unknownZone
  else .refused

end ServerState

/-- The context in which a query is forwarded, if it is. The rules that it depends on never change. -/
def Query.ctx (rt : Runtime) (st : ServerState) (q : Query) : Option ForwardCtx := do
  let request ← (fromBytes q.req).toOption
  let question ← request.questions.head?
  st.route rt q.req request question q.transport

def noPacket : DnsPacket := ⟨⟨0, 0, 0, 0, 0, 0⟩, [], [], [], []⟩

/-- The contexts of all calls; a query that is never forwarded needs none. -/
def contexts (rt : Runtime) (st : ServerState) (queries : TaskId → Query) (t : TaskId) : ForwardCtx :=
  ((queries t).ctx rt st).getD ⟨noPacket, [], [], 0, recursiveSentinel, .udp⟩

/-- The call of `Cache::insert` that a result of the upstream query leads to. -/
def insertCall (ctx : ForwardCtx) (result : Option Bytes) : Option CacheCall := do
  let response ← result
  let parsed ← (fromBytes response).toOption
  let ttl ← cacheTtl parsed
  pure (.insert ctx.name ctx.qtype response ttl)

/-! ## The state of the server -/

/-- The state that all calls share, and the calls. The cache is that of the memory. -/
structure Service where
  running : Running
  memory : CacheMemory
  /-- The zones were replaced, and the blocklist is to follow. -/
  relisting : Bool
  flights : Flights
  metrics : Metrics
  phase : TaskId → QueryPhase

namespace Service

def init (r : Running) : Service := ⟨r, ⟨r.state.cache, [], []⟩, false, .init, .zero, fun _ => .start⟩

def state (w : Service) : ServerState := { w.running.state with cache := w.memory.cache }

def withLimiter (w : Service) (limiter : RateLimiter) : Service :=
  { w with running := { w.running with state := { w.running.state with limiter := limiter } } }

def bumps (m : Metrics) (shard : Fin shards) (cs : List Metric) : Metrics := cs.foldl (fun m c => m.bump shard c) m

/-- A step of a call, with the counters that it bumps. -/
def goto (w : Service) (t : TaskId) (shard : Fin shards) (cs : List Metric) (phase : QueryPhase) : Service :=
  { w with metrics := bumps w.metrics shard cs, phase := update w.phase t phase }

def withCall (m : CacheMemory) : Option CacheCall → CacheMemory
  | some c => m.called c
  | none => m

def firstOp (rt : Runtime) : Option CacheCall → CacheOp
  | some c => .begin rt c
  | none => .stored

def transferCounters : Path → List Metric
  | .refused => [.total, .errors]
  | .transferred => [.total, .authoritative]
  | _ => [.total]

section Parts
variable (rt : Runtime) (q : Query) (w : Service) (t : TaskId) (shard : Fin shards)

/-- Over TCP a transfer is answered before all else. -/
def arrive : Service :=
  match if q.transport = .tcp then w.state.tryAxfr rt q.req q.client else ok none with
  | ok (some reply) =>
    let path := w.state.transferPath rt q.req q.client
    w.goto t shard (transferCounters path) (.ended path (some reply))
  | ok none => w.goto t shard [] .entered
  | _ => w.goto t shard [] (.ended .unread none)

def accept (now : Instant) : Service :=
  match w.state.limiter.allow now q.client with
  | (false, limiter) => (w.withLimiter limiter).goto t shard [.total, .rateLimited] (.ended .limited none)
  | (true, limiter) =>
    match fromBytes q.req with
    | ok request => (w.withLimiter limiter).goto t shard [.total] (.admitted request)
    | err _ => (w.withLimiter limiter).goto t shard [.total, .errors] (.ended .garbled none)
    | .panic => (w.withLimiter limiter).goto t shard [.total] (.ended .crashed none)

def check (request : DnsPacket) : Service :=
  match request.questions.head? with
  | some question =>
    if w.state.blocklist.isActive then w.goto t shard [] (.listed request question)
    else w.goto t shard [] (.screened request)
  | none => w.goto t shard [] (.screened request)

/-- `is_blocked` loads the list again. -/
def screen (request : DnsPacket) (question : DnsQuestion) : Service :=
  if w.state.blocklist.isBlocked rt question.qname then
    w.goto t shard [.blocked] (.ended .blocked (some (encode (synthResponse request [] rcodeNxdomain) q.transport)))
  else w.goto t shard [] (.screened request)

def answer (request : DnsPacket) (unixTime : UInt32) : Service :=
  match w.state.localResponse rt unixTime request with
  | ok response =>
    let own := w.goto t shard [.authoritative]
      (.ended .own (some (encode (w.state.offerRecursion response) q.transport)))
    match request.questions.head? with
    | some question =>
      if w.state.looksElsewhere rt request then
        let get := CacheCall.get (rt.toLowercase question.qname) question.qtype
        { w with memory := w.memory.called get }.goto t shard [] (.looking request question response (.begin rt get))
      else own
    | none => own
  | _ => w.goto t shard [] (.ended .crashed none)

/-- What the cache has returned decides how the call goes on. -/
def settle (request : DnsPacket) (question : DnsQuestion) (response : DnsPacket) : Option Bytes → Service
  | some raw => w.goto t shard [.cacheHits] (.ended .cached (replay raw request q.transport).toOption)
  | none =>
    match w.state.route rt q.req request question q.transport with
    | some _ => w.goto t shard [] (.flying .queued)
    | none => w.goto t shard [.authoritative] (.ended .own (some (encode response q.transport)))

end Parts

section Flying
variable (rt : Runtime) (calls : TaskId → ForwardCtx) (w : Service) (t : TaskId) (shard : Fin shards)

def enter : Option Service := do
  let flights ← w.flights.step rt calls (.enter t)
  let w' := { w with flights := flights }
  match flights.phase t with
  | .waiting _ => some (w'.goto t shard [.coalesced] (.flying .following))
  | _ =>
    -- `expect` comes before the counter
    if w.state.hasResolver (calls t).upstream then some (w'.goto t shard [.forwarded] (.flying .leading))
    else some (w'.goto t shard [] (.flying .orphaned))

def complete (answeredAt : Instant) (result : Option Bytes) : Option Service := do
  let flights ← w.flights.step rt calls (.complete t w.state answeredAt result)
  let call := insertCall (calls t) result
  some ({ w with flights := flights, memory := withCall w.memory call }.goto t shard
    (if result.isNone then [.errors] else []) (.flying (.answered result (firstOp rt call))))

/-- A step of the call in the single-flight map alone. -/
def fly (role : Role) (a : FlightAction) : Option Service := do
  let flights ← w.flights.step rt calls a
  some ({ w with flights := flights }.goto t shard [] (.flying role))

/-- A response of some server panics the decoder in `query_one` or `query_one_tcp` of the recursive resolver,
which takes the task that waits for it down. -/
def misread (response : Bytes) : Option Service :=
  match fromBytes response with
  | .panic => if (calls t).upstream = recursiveSentinel then w.fly rt calls t shard .leading (.cancel t) else none
  | _ => none

end Flying

def callStep (rt : Runtime) (queries : TaskId → Query) (w : Service) (t : TaskId) (shard : Fin shards)
    (move : CallMove) : Option Service :=
  let q := queries t
  let calls := contexts rt w.state queries
  match w.phase t, move with
  | .start, .arrive => some (w.arrive rt q t shard)
  | .entered, .accept now => some (w.accept q t shard now)
  | .admitted request, .check => some (w.check t shard request)
  | .listed request question, .screen => some (w.screen rt q t shard request question)
  | .screened request, .answer unixTime => some (w.answer rt q t shard request unixTime)
  | .looking request question response op, .look now order => do
    let (memory, op) ← w.memory.go rt now order op
    some ({ w with memory := memory }.goto t shard [] (.looking request question response op))
  | .looking request question response (.found _ _ result), .settle =>
    some (w.settle rt q t shard request question response result)
  | .flying .queued, .enter => w.enter rt calls t shard
  | .flying .leading, .complete answeredAt result => w.complete rt calls t shard answeredAt result
  | .flying .leading, .misread response => w.misread rt calls t shard response
  | .flying .orphaned, .complete answeredAt result =>
    w.fly rt calls t shard .orphaned (.complete t w.state answeredAt result)
  | .flying (.answered result op), .store now order => do
    let (memory, op) ← w.memory.go rt now order op
    some ({ w with memory := memory }.goto t shard [] (.flying (.answered result op)))
  | .flying (.answered result op), .publish =>
    if op.ended then w.fly rt calls t shard (.answered result op) (.publish t) else none
  | .flying role, .dropGuard => w.fly rt calls t shard role (.dropGuard t)
  | .flying role, .dropSender => w.fly rt calls t shard role (.dropSender t)
  | .flying role, .cancel => w.fly rt calls t shard role (.cancel t)
  | .flying role, .wake => w.fly rt calls t shard role (.wake t)
  | .flying role, .reply => do
    let out ← (w.flights.phase t).reply (calls t)
    some (w.goto t shard [] (.ended (.flown role) out.toOption))
  | _, _ => none

def step (rt : Runtime) (toml : Text → Option Settings) (queries : TaskId → Query) (w : Service) :
    ServiceAction → Option Service
  | .call t shard move => w.callStep rt queries t shard move
  | .sighup files =>
    -- the signal is handled by one task, which takes the next only when it is through with a reload
    if w.relisting then none
    else
      match w.running.storeZones rt toml files with
      | ok (running, follows) => some { w with running := running, relisting := follows }
      | _ => some w
  | .relist files =>
    if w.relisting then some { w with running := w.running.storeBlocklist rt files, relisting := false } else none
  | .cleanup now => some (w.withLimiter (w.running.state.limiter.cleanup now))

/-! ## What a step can do -/

/-- The steps of a call, with what they change of the shared state, the counters that they bump, and the
phase that they lead to. -/
inductive Does (rt : Runtime) (queries : TaskId → Query) (w : Service) (t : TaskId) :
    CallMove → Service → List Metric → QueryPhase → Prop
  | transfer {reply : Bytes} {path : Path} : w.phase t = .start → (queries t).transport = .tcp →
      w.state.tryAxfr rt (queries t).req (queries t).client = ok (some reply) →
      path = w.state.transferPath rt (queries t).req (queries t).client →
      Does rt queries w t .arrive w (transferCounters path) (.ended path (some reply))
  | enter : w.phase t = .start →
      ((queries t).transport = .tcp → w.state.tryAxfr rt (queries t).req (queries t).client = ok none) →
      Does rt queries w t .arrive w [] .entered
  | unread : w.phase t = .start → w.state.tryAxfr rt (queries t).req (queries t).client = panic →
      (queries t).transport = .tcp →
      Does rt queries w t .arrive w [] (.ended .unread none)
  | limit {now : Instant} {limiter : RateLimiter} : w.phase t = .entered →
      w.state.limiter.allow now (queries t).client = (false, limiter) →
      Does rt queries w t (.accept now) (w.withLimiter limiter) [.total, .rateLimited] (.ended .limited none)
  | garble {now : Instant} {limiter : RateLimiter} {e : DnsError} : w.phase t = .entered →
      fromBytes (queries t).req = err e → w.state.limiter.allow now (queries t).client = (true, limiter) →
      Does rt queries w t (.accept now) (w.withLimiter limiter) [.total, .errors] (.ended .garbled none)
  | crash {now : Instant} {limiter : RateLimiter} : w.phase t = .entered → fromBytes (queries t).req = panic →
      w.state.limiter.allow now (queries t).client = (true, limiter) →
      Does rt queries w t (.accept now) (w.withLimiter limiter) [.total] (.ended .crashed none)
  | accept {now : Instant} {limiter : RateLimiter} {request : DnsPacket} : w.phase t = .entered →
      fromBytes (queries t).req = ok request → w.state.limiter.allow now (queries t).client = (true, limiter) →
      Does rt queries w t (.accept now) (w.withLimiter limiter) [.total] (.admitted request)
  | list {request : DnsPacket} {question : DnsQuestion} : w.phase t = .admitted request →
      request.questions.head? = some question →
      Does rt queries w t .check w [] (.listed request question)
  | clear {request : DnsPacket} : w.phase t = .admitted request → w.state.blocks rt request = false →
      Does rt queries w t .check w [] (.screened request)
  | block {request : DnsPacket} {question : DnsQuestion} : w.phase t = .listed request question →
      w.state.blocklist.isBlocked rt question.qname = true →
      Does rt queries w t .screen w [.blocked]
        (.ended .blocked (some (encode (synthResponse request [] rcodeNxdomain) (queries t).transport)))
  | unlist {request : DnsPacket} {question : DnsQuestion} : w.phase t = .listed request question →
      w.state.blocklist.isBlocked rt question.qname = false →
      Does rt queries w t .screen w [] (.screened request)
  | own {request response : DnsPacket} {unixTime : UInt32} : w.phase t = .screened request →
      w.state.localResponse rt unixTime request = ok response →
      (∀ question, request.questions.head? = some question → ¬ w.state.looksElsewhere rt request) →
      Does rt queries w t (.answer unixTime) w [.authoritative]
        (.ended .own (some (encode (w.state.offerRecursion response) (queries t).transport)))
  | fail {request : DnsPacket} {unixTime : UInt32} : w.phase t = .screened request →
      w.state.localResponse rt unixTime request = panic →
      Does rt queries w t (.answer unixTime) w [] (.ended .crashed none)
  | seek {request response : DnsPacket} {question : DnsQuestion} {unixTime : UInt32} {c : CacheCall} :
      w.phase t = .screened request → w.state.localResponse rt unixTime request = ok response →
      request.questions.head? = some question → w.state.looksElsewhere rt request →
      c = .get (rt.toLowercase question.qname) question.qtype →
      Does rt queries w t (.answer unixTime) { w with memory := w.memory.called c } []
        (.looking request question response (.begin rt c))
  | look {request response : DnsPacket} {question : DnsQuestion} {now : Instant} {order : Order} {op op' : CacheOp}
      {memory : CacheMemory} : w.phase t = .looking request question response op →
      w.memory.go rt now order op = some (memory, op') →
      Does rt queries w t (.look now order) { w with memory := memory } [] (.looking request question response op')
  | hit {request response : DnsPacket} {question : DnsQuestion} {key : Text × UInt16} {lookedAt : Instant}
      {raw : Bytes} : w.phase t = .looking request question response (.found key lookedAt (some raw)) →
      Does rt queries w t .settle w [.cacheHits] (.ended .cached (replay raw request (queries t).transport).toOption)
  | queue {request response : DnsPacket} {question : DnsQuestion} {key : Text × UInt16} {lookedAt : Instant}
      {ctx : ForwardCtx} : w.phase t = .looking request question response (.found key lookedAt none) →
      w.state.route rt (queries t).req request question (queries t).transport = some ctx →
      Does rt queries w t .settle w [] (.flying .queued)
  | alone {request response : DnsPacket} {question : DnsQuestion} {key : Text × UInt16} {lookedAt : Instant} :
      w.phase t = .looking request question response (.found key lookedAt none) →
      w.state.route rt (queries t).req request question (queries t).transport = none →
      Does rt queries w t .settle w [.authoritative] (.ended .own (some (encode response (queries t).transport)))
  | join {flights : Flights} {leader : TaskId} : w.phase t = .flying .queued →
      w.flights.step rt (contexts rt w.state queries) (.enter t) = some flights →
      flights.phase t = .waiting leader →
      Does rt queries w t .enter { w with flights := flights } [.coalesced] (.flying .following)
  | lead {flights : Flights} : w.phase t = .flying .queued →
      w.flights.step rt (contexts rt w.state queries) (.enter t) = some flights →
      w.state.hasResolver (contexts rt w.state queries t).upstream = true →
      (∀ leader, flights.phase t ≠ .waiting leader) →
      Does rt queries w t .enter { w with flights := flights } [.forwarded] (.flying .leading)
  | orphan {flights : Flights} : w.phase t = .flying .queued →
      w.flights.step rt (contexts rt w.state queries) (.enter t) = some flights →
      w.state.hasResolver (contexts rt w.state queries t).upstream = false →
      (∀ leader, flights.phase t ≠ .waiting leader) →
      Does rt queries w t .enter { w with flights := flights } [] (.flying .orphaned)
  | complete {flights : Flights} {answeredAt : Instant} {result : Option Bytes} {call : Option CacheCall} :
      w.phase t = .flying .leading →
      w.flights.step rt (contexts rt w.state queries) (.complete t w.state answeredAt result) = some flights →
      call = insertCall (contexts rt w.state queries t) result →
      Does rt queries w t (.complete answeredAt result)
        { w with flights := flights, memory := withCall w.memory call } (if result.isNone then [.errors] else [])
        (.flying (.answered result (firstOp rt call)))
  | abort {flights : Flights} {answeredAt : Instant} {result : Option Bytes} : w.phase t = .flying .orphaned →
      w.flights.step rt (contexts rt w.state queries) (.complete t w.state answeredAt result) = some flights →
      Does rt queries w t (.complete answeredAt result) { w with flights := flights } [] (.flying .orphaned)
  | misread {flights : Flights} {response : Bytes} : w.phase t = .flying .leading →
      w.flights.step rt (contexts rt w.state queries) (.cancel t) = some flights → fromBytes response = panic →
      (contexts rt w.state queries t).upstream = recursiveSentinel →
      Does rt queries w t (.misread response) { w with flights := flights } [] (.flying .leading)
  | store {now : Instant} {order : Order} {result : Option Bytes} {op op' : CacheOp} {memory : CacheMemory} :
      w.phase t = .flying (.answered result op) → w.memory.go rt now order op = some (memory, op') →
      Does rt queries w t (.store now order) { w with memory := memory } [] (.flying (.answered result op'))
  | fly {move : CallMove} {role : Role} {a : FlightAction} {flights : Flights} : w.phase t = .flying role →
      w.flights.step rt (contexts rt w.state queries) a = some flights →
      move.flight t = some a →
      Does rt queries w t move { w with flights := flights } [] (.flying role)
  | reply {role : Role} {out : Outcome Empty Bytes} : w.phase t = .flying role →
      (w.flights.phase t).reply (contexts rt w.state queries t) = some out →
      Does rt queries w t .reply w [] (.ended (.flown role) out.toOption)

variable {rt : Runtime} {toml : Text → Option Settings} {queries : TaskId → Query} {w w' : Service} {t : TaskId}
  {shard : Fin shards} {move : CallMove}

/-- A step of a call in `w` that leads to `w'`. -/
def Stepped (rt : Runtime) (queries : TaskId → Query) (w : Service) (t : TaskId) (shard : Fin shards) (move : CallMove)
    (w' : Service) : Prop :=
  ∃ w₁ cs phase, Does rt queries w t move w₁ cs phase ∧ w' = w₁.goto t shard cs phase

theorem stepped_arrive (hphase : w.phase t = .start) :
    Stepped rt queries w t shard .arrive (w.arrive rt (queries t) t shard) := by
  unfold arrive
  split
  · rename_i reply hreply
    split at hreply
    · rename_i htcp
      exact ⟨_, _, _, .transfer hphase htcp hreply rfl, rfl⟩
    · cases hreply
  · rename_i hnone
    refine ⟨_, _, _, .enter hphase fun htcp => ?_, rfl⟩
    rwa [if_pos htcp] at hnone
  · rename_i hsome hnone
    by_cases htcp : (queries t).transport = .tcp
    · simp only [if_pos htcp] at hsome hnone
      refine ⟨_, _, _, .unread hphase (eq_panic fun reply => ?_) htcp, rfl⟩
      cases reply with
      | some reply => exact hsome reply
      | none => exact hnone
    · exact absurd (if_neg htcp) hnone

theorem stepped_accept (hphase : w.phase t = .entered) (now : Instant) :
    Stepped rt queries w t shard (.accept now) (w.accept (queries t) t shard now) := by
  unfold accept
  split
  · rename_i hallow
    exact ⟨_, _, _, .limit hphase hallow, rfl⟩
  · rename_i hallow
    split
    · rename_i hrequest
      exact ⟨_, _, _, .accept hphase hrequest hallow, rfl⟩
    · rename_i herror
      exact ⟨_, _, _, .garble hphase herror hallow, rfl⟩
    · rename_i hpanic
      exact ⟨_, _, _, .crash hphase hpanic hallow, rfl⟩

theorem stepped_check {request : DnsPacket} (hphase : w.phase t = .admitted request) :
    Stepped rt queries w t shard .check (w.check t shard request) := by
  unfold check
  split
  · rename_i question hq
    split
    · exact ⟨_, _, _, .list hphase hq, rfl⟩
    · rename_i hactive
      exact ⟨_, _, _, .clear hphase (by simp [ServerState.blocks, hq, hactive]), rfl⟩
  · rename_i hq
    exact ⟨_, _, _, .clear hphase (by simp [ServerState.blocks, hq]), rfl⟩

theorem stepped_screen {request : DnsPacket} {question : DnsQuestion} (hphase : w.phase t = .listed request question) :
    Stepped rt queries w t shard .screen (w.screen rt (queries t) t shard request question) := by
  unfold screen
  split
  · rename_i hblocked
    exact ⟨_, _, _, .block hphase hblocked, rfl⟩
  · rename_i hblocked
    exact ⟨_, _, _, .unlist hphase (Bool.eq_false_iff.mpr hblocked), rfl⟩

theorem stepped_answer {request : DnsPacket} (hphase : w.phase t = .screened request) (unixTime : UInt32) :
    Stepped rt queries w t shard (.answer unixTime) (w.answer rt (queries t) t shard request unixTime) := by
  unfold answer
  split
  · rename_i hresponse
    dsimp only
    split
    · rename_i question hq
      split
      · rename_i helse
        exact ⟨_, _, _, .seek hphase hresponse hq helse rfl, rfl⟩
      · rename_i helse
        exact ⟨_, _, _, .own hphase hresponse fun _ _ => helse, rfl⟩
    · rename_i hq
      refine ⟨_, _, _, .own hphase hresponse fun question hq' => ?_, rfl⟩
      rw [hq] at hq'
      cases hq'
  · rename_i hresponse
    exact ⟨_, _, _, .fail hphase (eq_panic hresponse), rfl⟩

theorem stepped_settle {request response : DnsPacket} {question : DnsQuestion} {key : Text × UInt16}
    {lookedAt : Instant} {result : Option Bytes}
    (hphase : w.phase t = .looking request question response (.found key lookedAt result)) :
    Stepped rt queries w t shard .settle (w.settle rt (queries t) t shard request question response result) := by
  cases result with
  | some raw => exact ⟨_, _, _, .hit hphase, rfl⟩
  | none =>
    simp only [settle]
    split
    · rename_i hroute
      exact ⟨_, _, _, .queue hphase hroute, rfl⟩
    · rename_i hroute
      exact ⟨_, _, _, .alone hphase hroute, rfl⟩

theorem stepped_enter (hphase : w.phase t = .flying .queued)
    (h : w.enter rt (contexts rt w.state queries) t shard = some w') : Stepped rt queries w t shard .enter w' := by
  obtain ⟨flights, hstep, h⟩ := Option.bind_eq_some_iff.mp h
  split at h
  · rename_i hjoined
    obtain rfl := Option.some.inj h
    exact ⟨_, _, _, .join hphase hstep hjoined, rfl⟩
  · rename_i hleads
    split at h
    · rename_i hresolver
      obtain rfl := Option.some.inj h
      exact ⟨_, _, _, .lead hphase hstep hresolver hleads, rfl⟩
    · rename_i hresolver
      obtain rfl := Option.some.inj h
      exact ⟨_, _, _, .orphan hphase hstep (Bool.eq_false_iff.mpr hresolver) hleads, rfl⟩

theorem stepped_complete (hphase : w.phase t = .flying .leading) {answeredAt : Instant} {result : Option Bytes}
    (h : w.complete rt (contexts rt w.state queries) t shard answeredAt result = some w') :
    Stepped rt queries w t shard (.complete answeredAt result) w' := by
  obtain ⟨flights, hstep, h⟩ := Option.bind_eq_some_iff.mp h
  obtain rfl := Option.some.inj h
  exact ⟨_, _, _, .complete hphase hstep rfl, rfl⟩

theorem fly_eq_some {calls : TaskId → ForwardCtx} {role : Role} {a : FlightAction} :
    w.fly rt calls t shard role a = some w' ↔ ∃ flights, w.flights.step rt calls a = some flights ∧
      w' = { w with flights := flights }.goto t shard [] (.flying role) := by
  refine Option.bind_eq_some_iff.trans (exists_congr fun flights => and_congr_right' ?_)
  rw [Option.some.injEq, eq_comm]

theorem stepped_misread (hphase : w.phase t = .flying .leading) {response : Bytes}
    (h : w.misread rt (contexts rt w.state queries) t shard response = some w') :
    Stepped rt queries w t shard (.misread response) w' := by
  unfold misread at h
  split at h
  · rename_i hpanic
    split at h
    · rename_i hupstream
      obtain ⟨flights, hstep, rfl⟩ := fly_eq_some.mp h
      exact ⟨_, _, _, .misread hphase hstep hpanic hupstream, rfl⟩
    · cases h
  · cases h

theorem stepped_fly {role : Role} {a : FlightAction} (hphase : w.phase t = .flying role)
    (hmove : move.flight t = some a) (h : w.fly rt (contexts rt w.state queries) t shard role a = some w') :
    Stepped rt queries w t shard move w' := by
  obtain ⟨flights, hstep, rfl⟩ := fly_eq_some.mp h
  exact ⟨_, _, _, .fly hphase hstep hmove, rfl⟩

theorem does_of_callStep (h : w.callStep rt queries t shard move = some w') : Stepped rt queries w t shard move w' := by
  unfold callStep at h
  dsimp only at h
  split at h
  · obtain rfl := Option.some.inj h
    exact stepped_arrive ‹_›
  · obtain rfl := Option.some.inj h
    exact stepped_accept ‹_› _
  · obtain rfl := Option.some.inj h
    exact stepped_check ‹_›
  · obtain rfl := Option.some.inj h
    exact stepped_screen ‹_›
  · obtain rfl := Option.some.inj h
    exact stepped_answer ‹_› _
  · rename_i hphase
    obtain ⟨⟨memory, op⟩, hgo, h⟩ := Option.bind_eq_some_iff.mp h
    obtain rfl := Option.some.inj h
    exact ⟨_, _, _, .look hphase hgo, rfl⟩
  · obtain rfl := Option.some.inj h
    exact stepped_settle ‹_›
  · exact stepped_enter ‹_› h
  · exact stepped_complete ‹_› h
  · exact stepped_misread ‹_› h
  · rename_i hphase
    obtain ⟨flights, hstep, rfl⟩ := fly_eq_some.mp h
    exact ⟨_, _, _, .abort hphase hstep, rfl⟩
  · rename_i hphase
    obtain ⟨⟨memory, op⟩, hgo, h⟩ := Option.bind_eq_some_iff.mp h
    obtain rfl := Option.some.inj h
    exact ⟨_, _, _, .store hphase hgo, rfl⟩
  · rename_i hphase
    split at h
    · exact stepped_fly hphase rfl h
    · cases h
  iterate 4
    · exact stepped_fly ‹_› rfl h
  · rename_i hphase
    obtain ⟨out, hreply, h⟩ := Option.bind_eq_some_iff.mp h
    obtain rfl := Option.some.inj h
    exact ⟨_, _, _, .reply hphase hreply, rfl⟩
  · cases h

/-! ## What never changes -/

/-- The same server but for its zones, its cache, its limiter and its blocklist. -/
structure SameConfig (st₀ st : ServerState) : Prop where
  forwardRules : st.forwardRules = st₀.forwardRules
  forwarder : st.forwarder = st₀.forwarder
  recursive : st.recursive = st₀.recursive
  dns64Prefix : st.dns64Prefix = st₀.dns64Prefix
  axfrAcl : st.axfrAcl = st₀.axfrAcl
  dnssecKeys : st.dnssecKeys = st₀.dnssecKeys

namespace SameConfig
variable {st₀ st : ServerState}

theorem eq (h : SameConfig st₀ st) :
    st = { st₀ with zones := st.zones, cache := st.cache, limiter := st.limiter, blocklist := st.blocklist } := by
  obtain ⟨zones, forwardRules, forwarder, recursive, cache, limiter, blocklist, dns64Prefix, axfrAcl, dnssecKeys⟩ := st
  obtain ⟨rfl, rfl, rfl, rfl, rfl, rfl⟩ := h
  rfl

theorem contexts (h : SameConfig st₀ st) : MiniDns.contexts rt st queries = MiniDns.contexts rt st₀ queries := by
  rw [h.eq]
  rfl

theorem hasResolver (h : SameConfig st₀ st) (upstream : SocketAddr) :
    st.hasResolver upstream = st₀.hasResolver upstream := by
  rw [h.eq]
  rfl

theorem route (h : SameConfig st₀ st) (req : Bytes) (request : DnsPacket) (question : DnsQuestion)
    (transport : Transport) :
    st.route rt req request question transport = st₀.route rt req request question transport := by
  rw [h.eq]
  rfl

end SameConfig

theorem Does.running {w₁ : Service} {cs : List Metric} {phase : QueryPhase} (h : Does rt queries w t move w₁ cs phase) :
    ∃ limiter, w₁.running = { w.running with state := { w.running.state with limiter := limiter } } := by
  cases h with
  | _ => exact ⟨_, rfl⟩

theorem Does.phase {w₁ : Service} {cs : List Metric} {phase : QueryPhase} (h : Does rt queries w t move w₁ cs phase) :
    w₁.phase = w.phase := by
  cases h <;> rfl

theorem storeZones_eq_ok {files : Files} {r r' : Running} {follows : Bool}
    (h : r.storeZones rt toml files = ok (r', follows)) : r' = r ∨ ∃ zones, r' = r.withZones zones := by
  unfold Running.storeZones at h
  split at h
  · exact .inl (Prod.mk.inj (Outcome.ok.inj h)).1.symm
  · split at h
    · obtain ⟨settings, _, h⟩ := Outcome.bind_eq_ok.mp h
      obtain ⟨zones, _, h⟩ := Outcome.bind_eq_ok.mp h
      exact .inr ⟨zones, (Prod.mk.inj (Outcome.ok.inj h)).1.symm⟩
    · obtain ⟨zone, _, h⟩ := Outcome.bind_eq_ok.mp h
      exact .inr ⟨_, (Prod.mk.inj (Outcome.ok.inj h)).1.symm⟩

theorem storeBlocklist_cases (rt : Runtime) (files : Files) (r : Running) :
    r.storeBlocklist rt files = r ∨ ∃ b, r.storeBlocklist rt files = r.withBlocklist b := by
  unfold Running.storeBlocklist
  split
  · exact .inr ⟨_, rfl⟩
  · exact .inl rfl

/-- A step of a call, or a step that leaves the calls, the cache and the counters alone. -/
theorem step_cases {a : ServiceAction} (h : step rt toml queries w a = some w') :
    (∃ t shard move w₁ cs phase, a = .call t shard move ∧ Does rt queries w t move w₁ cs phase ∧
        w' = w₁.goto t shard cs phase) ∨
      (∀ t shard move, a ≠ .call t shard move) ∧ SameConfig w.running.state w'.running.state ∧
        w'.memory = w.memory ∧ w'.flights = w.flights ∧ w'.metrics = w.metrics ∧ w'.phase = w.phase := by
  have hsame : ∀ st : ServerState, SameConfig st st := fun _ => ⟨rfl, rfl, rfl, rfl, rfl, rfl⟩
  cases a with
  | call t shard move =>
    obtain ⟨w₁, cs, phase, hdoes, rfl⟩ := does_of_callStep h
    exact .inl ⟨t, shard, move, w₁, cs, phase, rfl, hdoes, rfl⟩
  | sighup files =>
    refine .inr ⟨by simp, ?_⟩
    simp only [step] at h
    split at h
    · cases h
    split at h
    · rename_i running follows hstore
      obtain rfl := Option.some.inj h
      refine ⟨?_, rfl, rfl, rfl, rfl⟩
      obtain rfl | ⟨zones, rfl⟩ := storeZones_eq_ok hstore
      · exact hsame _
      · exact ⟨rfl, rfl, rfl, rfl, rfl, rfl⟩
    · obtain rfl := Option.some.inj h
      exact ⟨hsame _, rfl, rfl, rfl, rfl⟩
  | relist files =>
    refine .inr ⟨by simp, ?_⟩
    simp only [step] at h
    split at h
    · obtain rfl := Option.some.inj h
      refine ⟨?_, rfl, rfl, rfl, rfl⟩
      obtain hstore | ⟨b, hstore⟩ := storeBlocklist_cases rt files w.running
      · rw [show w.running.storeBlocklist rt files = w.running from hstore]
        exact hsame _
      · rw [show w.running.storeBlocklist rt files = w.running.withBlocklist b from hstore]
        exact ⟨rfl, rfl, rfl, rfl, rfl, rfl⟩
    · cases h
  | cleanup now =>
    obtain rfl := Option.some.inj h
    exact .inr ⟨by simp, ⟨rfl, rfl, rfl, rfl, rfl, rfl⟩, rfl, rfl, rfl, rfl⟩

theorem sameConfig_of_run {r : Running} {acts : List ServiceAction}
    (h : run (step rt toml queries) (init r) acts = some w) : SameConfig r.state w.state := by
  have hkeep : ∀ v a v', SameConfig r.state v.running.state → step rt toml queries v a = some v' →
      SameConfig r.state v'.running.state := by
    intro v a v' hv hstep
    obtain ⟨t, shard, move, w₁, cs, phase, _, hdoes, rfl⟩ | ⟨_, hsame, _⟩ := step_cases hstep
    · obtain ⟨limiter, hrunning⟩ := hdoes.running
      rw [show (w₁.goto t shard cs phase).running = w₁.running from rfl, hrunning]
      exact ⟨hv.1, hv.2, hv.3, hv.4, hv.5, hv.6⟩
    · exact ⟨hsame.1.trans hv.1, hsame.2.trans hv.2, hsame.3.trans hv.3, hsame.4.trans hv.4, hsame.5.trans hv.5,
        hsame.6.trans hv.6⟩
  have hrun := run_preserves hkeep ⟨rfl, rfl, rfl, rfl, rfl, rfl⟩ h
  exact ⟨hrun.1, hrun.2, hrun.3, hrun.4, hrun.5, hrun.6⟩

/-! ## Two clients -/

def firstShard : Fin shards := ⟨0, Nat.succ_pos 31⟩

/-- The steps of a call up to its entry into the single-flight map. -/
def entering (t : TaskId) : List ServiceAction :=
  [CallMove.arrive, .accept 0, .check, .answer 0, .look 0 Order.stored, .settle, .enter].map (.call t firstShard)

def letterQueries (t : TaskId) : Query := ⟨letterQuery (UInt8.ofNat t) 97, letterClient 1, .udp⟩

/-- The second client asks for the letter that the first has asked for. The first call leads and stores the
answer, the second follows. -/
def joining : List ServiceAction :=
  entering 2 ++
    [CallMove.complete 0 (some (letterAnswer 1 97)), .store 0 Order.stored, .store 0 Order.stored,
      .store 0 Order.stored, .publish].map (.call 1 firstShard) ++
    [CallMove.wake, .reply].map (.call 2 firstShard)

def letterServer : Running := ⟨forwardingServer, none, none⟩

end Service

/-- The way and the reply of a call that has ended. -/
def QueryPhase.outcome : QueryPhase → Option (Path × Option Bytes)
  | .ended path reply => some (path, reply)
  | _ => none

theorem QueryPhase.eq_of_outcome {phase : QueryPhase} {path : Path} {reply : Option Bytes}
    (h : phase.outcome = some (path, reply)) : phase = .ended path reply := by
  cases phase with
  | ended path' reply' =>
    obtain ⟨rfl, rfl⟩ := Prod.mk.inj (Option.some.inj h)
    rfl
  | _ => cases h

theorem Service.run_joining : ∃ w, run (Service.step .ascii (fun _ => none) Service.letterQueries)
      (Service.init Service.letterServer) (Service.entering 1 ++ Service.joining) = some w ∧
    w.phase 2 = .ended (.flown .following) (some (letterAnswer 2 97)) := by
  have hrun : ((run (Service.step .ascii (fun _ => none) Service.letterQueries) (Service.init Service.letterServer)
      (Service.entering 1 ++ Service.joining)).map fun w => (w.phase 2).outcome) =
      some (some (.flown .following, some (letterAnswer 2 97))) := by
    decide +kernel
  obtain ⟨w, hw, houtcome⟩ := Option.map_eq_some_iff.mp hrun
  exact ⟨w, hw, QueryPhase.eq_of_outcome houtcome⟩

end MiniDns
