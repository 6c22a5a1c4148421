import MiniDns.ServiceFlights

/-! Every reply of the server against one undisturbed call of `resolve`. A call reads the blocklist, then the
zones, then the cache, each at a moment of its own; what it replies is what `resolve` replies in a state that
is put together from these. -/
namespace MiniDns
open Lib Lib.Outcome Dns DnsPacket Function
set_option autoImplicit false

/-! ## One undisturbed call -/

namespace ServerState
variable {rt : Runtime} {st st' st₁ : ServerState} {m : Moment} {req : Bytes} {client : IpAddr} {transport : Transport}
  {request : DnsPacket} {bytes : Bytes}

/-- The server to a call that has passed the limiter and has read this blocklist. -/
def past (st : ServerState) (blocklist : Blocklist) : ServerState :=
  { st with limiter := .disabled, blocklist := blocklist }

/-- Whether a request is a transfer depends on the request alone. -/
theorem tryAxfr_of_none (h : st.tryAxfr rt req client = ok none) (st' : ServerState) :
    st'.tryAxfr rt req client = ok none := by
  unfold tryAxfr at h ⊢
  cases hrequest : fromBytes req with
  | ok request =>
    rw [hrequest] at h
    simp only [Outcome.handle] at h ⊢
    split at h
    · rfl
    · split at h
      · rename_i hqtype
        rw [if_pos hqtype]
      · obtain ⟨_, _, h⟩ := Outcome.bind_eq_ok.mp h
        cases h
  | err e => rfl
  | panic =>
    rw [hrequest] at h
    cases h

theorem route_eq_none {question : DnsQuestion} : st.route rt req request question transport = none ↔
    st.forwardRules.matchName (rt.toLowercase question.qname) = none ∧ st.recursive = false := by
  unfold route
  dsimp only
  cases st.forwardRules.matchName (rt.toLowercase question.qname) with
  | some upstream => simp
  | none => cases st.recursive <;> simp

theorem route_eq_some {question : DnsQuestion} {ctx : ForwardCtx}
    (h : st.route rt req request question transport = some ctx) : ∃ upstream,
      ctx = ⟨request, req, rt.toLowercase question.qname, question.qtype, upstream, transport⟩ ∧
        (st.forwardRules.matchName (rt.toLowercase question.qname) = some upstream ∨
          st.forwardRules.matchName (rt.toLowercase question.qname) = none ∧ st.recursive = true ∧
            upstream = recursiveSentinel) := by
  unfold route at h
  dsimp only at h
  split at h
  · rename_i upstream hmatch
    exact ⟨upstream, (Option.some.inj h).symm, .inl hmatch⟩
  · rename_i hmatch
    split at h
    · rename_i hrec
      exact ⟨_, (Option.some.inj h).symm, .inr ⟨hmatch, hrec, rfl⟩⟩
    · cases h

theorem answerLocally_of_case {r : Resolution} {response : DnsPacket}
    (h : LocalCase rt st m req request transport r st')
    (hresponse : st.localResponse rt m.unixTime request = ok response) :
    st.answerLocally rt m req request transport = ok (r, st') := by
  unfold answerLocally
  cases h with
  | blocked hblocks => rw [if_pos hblocks]
  | own hblocks hresponse' hhere =>
    rw [if_neg hblocks, hresponse']
    cases hq : request.questions.head? with
    | none => rfl
    | some question => exact if_neg (hhere question hq)
  | cached hblocks hq helse hget hreply =>
    unfold looksElsewhere at helse
    simp only [hblocks, Bool.false_eq_true, if_false, hresponse, ok_bind, hq, if_pos helse, hget, hreply, pure_eq_ok]
  | forwarded hblocks hq helse hget hupstream =>
    unfold looksElsewhere at helse
    obtain hmatch | ⟨hmatch, hrec, rfl⟩ := hupstream
    · simp only [hblocks, Bool.false_eq_true, if_false, hresponse, ok_bind, hq, if_pos helse, hget, hmatch, pure_eq_ok]
    · simp only [hblocks, Bool.false_eq_true, if_false, hresponse, ok_bind, hq, if_pos helse, hget, hmatch, hrec,
        if_true, pure_eq_ok]
  | alone hblocks hq helse hget hresponse' hmatch hrec =>
    unfold looksElsewhere at helse
    simp only [hblocks, Bool.false_eq_true, if_false, hresponse', ok_bind, hq, if_pos helse, hget, hmatch, hrec,
      pure_eq_ok]

/-- What a leader fetches is replayed to it. -/
theorem forwardCtx_of_led {st₂ : ServerState} {answeredAt : Instant} {ctx : ForwardCtx} {result : Option Bytes}
    {raw : Bytes}
    (h : st.forwardAndCache rt answeredAt ctx result = ok (raw, st'))
    (hsame : st₂.hasResolver ctx.upstream = st.hasResolver ctx.upstream)
    (hreplay : replay raw ctx.request ctx.transport = ok bytes) (answeredAt₂ : Instant) :
    ∃ st₂', st₂.forwardCtx rt answeredAt₂ ctx (.leader result) = ok (bytes, st₂') := by
  obtain ⟨st₂', hraw⟩ := forwardAndCache_of_hasResolver h hsame answeredAt₂
  refine ⟨st₂', ?_⟩
  rw [forwardCtx, hraw]
  simp only [ok_bind, hreplay, pure_eq_ok]

theorem forwardCtx_of_followed {ctx : ForwardCtx} {shared : Option Bytes} (h : followerReply ctx shared = ok bytes)
    (answeredAt : Instant) : st.forwardCtx rt answeredAt ctx (.follower shared) = ok (bytes, st) := by
  cases shared with
  | some reply =>
    rw [forwardCtx, show replay reply _ _ = ok bytes from h]
    rfl
  | none =>
    rw [forwardCtx, show replay _ _ _ = ok bytes from h]
    rfl

theorem resolve_of_transfer (htcp : transport = .tcp) (h : st.tryAxfr rt req client = ok (some bytes)) :
    st.resolve rt m req client transport = ok (some bytes, st) := by
  rw [resolve, if_pos htcp, h]
  rfl

section Resolve
variable (hlimiter : st.limiter.maxPerWindow = 0) (htransfer : transport = .tcp → st.tryAxfr rt req client = ok none)
  (hrequest : fromBytes req = ok request)
include hlimiter htransfer hrequest

theorem resolve_eq_answerLocally :
    st.resolve rt m req client transport =
      (st.answerLocally rt m req request transport >>= fun local_ =>
        match local_ with
        | (.ready bytes, st) => ok (some bytes, st)
        | (.drop, st) => ok (none, st)
        | (.forward ctx, st) => st.forwardCtx rt m.answeredAt ctx m.flight >>= fun out => ok (some out.1, out.2)) := by
  have hnone : (if transport = .tcp then st.tryAxfr rt req client else pure none) = ok none := by
    split
    · rename_i htcp
      exact htransfer htcp
    · rfl
  have hlocal : st.resolveLocal rt m req client transport = st.answerLocally rt m req request transport := by
    rw [resolveLocal, RateLimiter.allow, if_pos hlimiter]
    simp only [hrequest, Outcome.handle]
  rw [resolve, hnone, ok_bind]
  dsimp only
  rw [hlocal]
  rfl

theorem resolve_of_ready (h : st.answerLocally rt m req request transport = ok (.ready bytes, st')) :
    st.resolve rt m req client transport = ok (some bytes, st') := by
  rw [resolve_eq_answerLocally hlimiter htransfer hrequest, h]
  rfl

theorem resolve_of_forward {ctx : ForwardCtx} (h : st.answerLocally rt m req request transport = ok (.forward ctx, st₁))
    (hforward : st₁.forwardCtx rt m.answeredAt ctx m.flight = ok (bytes, st')) :
    st.resolve rt m req client transport = ok (some bytes, st') := by
  rw [resolve_eq_answerLocally hlimiter htransfer hrequest, h]
  simp only [ok_bind, hforward]

end Resolve
end ServerState

/-! ## Views -/

namespace Service

/-- The call has begun when the first `n` steps are made, or begins with the next. -/
def ArrivedBy (acts : List ServiceAction) (t : TaskId) (n : ℕ) : Prop :=
  ∃ i ≤ n, ∃ shard, acts[i]? = some (.call t shard .arrive)

/-- With the `n`-th action the call has read the zones, and the system clock. -/
def AnsweredAt (acts : List ServiceAction) (t : TaskId) (n : ℕ) (unixTime : UInt32) : Prop :=
  ∃ shard, acts[n]? = some (.call t shard (.answer unixTime))

/-- With the `n`-th action the call has read the cache, and the clock. -/
def LookedAt (acts : List ServiceAction) (t : TaskId) (n : ℕ) (now : Instant) : Prop :=
  ∃ shard order, acts[n]? = some (.call t shard (.look now order))

/-- Three states of a run, in the order in which they were seen, from the arrival of a call on. -/
structure View (rt : Runtime) (toml : Text → Option Settings) (queries : TaskId → Query) (r : Running)
    (acts : List ServiceAction) (t : TaskId) where
  listAt : ℕ
  zonesAt : ℕ
  cacheAt : ℕ
  list : Service
  zones : Service
  cache : Service
  arrived : ArrivedBy acts t listAt
  zonesAfter : listAt ≤ zonesAt
  cacheAfter : zonesAt ≤ cacheAt
  seenList : Seen (step rt toml queries) (init r) acts listAt list
  seenZones : Seen (step rt toml queries) (init r) acts zonesAt zones
  seenCache : Seen (step rt toml queries) (init r) acts cacheAt cache

variable {rt : Runtime} {toml : Text → Option Settings} {queries : TaskId → Query} {r : Running}
  {acts : List ServiceAction} {a : ServiceAction} {w w' : Service} {t : TaskId}

theorem getElem?_later {n : ℕ} {b : ServiceAction} (h : acts[n]? = some b) (a : ServiceAction) :
    (acts ++ [a])[n]? = some b := by
  rw [List.getElem?_append_left (List.getElem?_eq_some_iff.mp h).1, h]

theorem ArrivedBy.later {n : ℕ} (h : ArrivedBy acts t n) (a : ServiceAction) : ArrivedBy (acts ++ [a]) t n := by
  obtain ⟨i, hi, shard, hget⟩ := h
  exact ⟨i, hi, shard, getElem?_later hget a⟩

theorem ArrivedBy.mono {n n' : ℕ} (h : ArrivedBy acts t n) (hn : n ≤ n') : ArrivedBy acts t n' := by
  obtain ⟨i, hi, hget⟩ := h
  exact ⟨i, hi.trans hn, hget⟩

theorem AnsweredAt.later {n : ℕ} {unixTime : UInt32} (h : AnsweredAt acts t n unixTime) (a : ServiceAction) :
    AnsweredAt (acts ++ [a]) t n unixTime := by
  obtain ⟨shard, hget⟩ := h
  exact ⟨shard, getElem?_later hget a⟩

theorem LookedAt.later {n : ℕ} {now : Instant} (h : LookedAt acts t n now) (a : ServiceAction) :
    LookedAt (acts ++ [a]) t n now := by
  obtain ⟨shard, order, hget⟩ := h
  exact ⟨shard, order, getElem?_later hget a⟩

theorem AnsweredAt.eq {n : ℕ} {unixTime unixTime' : UInt32} (h : AnsweredAt acts t n unixTime)
    (h' : AnsweredAt acts t n unixTime') : unixTime = unixTime' := by
  obtain ⟨shard, hget⟩ := h
  obtain ⟨shard', hget'⟩ := h'
  rw [hget] at hget'
  exact CallMove.answer.inj (ServiceAction.call.inj (Option.some.inj hget')).2.2

theorem LookedAt.eq {n : ℕ} {now now' : Instant} (h : LookedAt acts t n now) (h' : LookedAt acts t n now') :
    now = now' := by
  obtain ⟨shard, order, hget⟩ := h
  obtain ⟨shard', order', hget'⟩ := h'
  rw [hget] at hget'
  exact (CallMove.look.inj (ServiceAction.call.inj (Option.some.inj hget')).2.2).1

namespace View

/-- The server with the blocklist, the zones and the cache of the view. The limiter has let the call pass. -/
def state (v : View rt toml queries r acts t) : ServerState :=
  { r.state with
    blocklist := v.list.state.blocklist
    zones := v.zones.state.zones
    cache := v.cache.state.cache
    limiter := .disabled }

def later (v : View rt toml queries r acts t) (a : ServiceAction) : View rt toml queries r (acts ++ [a]) t :=
  { v with
    arrived := v.arrived.later a
    seenList := v.seenList.later [a]
    seenZones := v.seenZones.later [a]
    seenCache := v.seenCache.later [a] }

def fresh (harrived : ArrivedBy (acts ++ [a]) t acts.length)
    (hrun : run (step rt toml queries) (init r) acts = some w) :
    View rt toml queries r (acts ++ [a]) t where
  listAt := acts.length
  zonesAt := acts.length
  cacheAt := acts.length
  list := w
  zones := w
  cache := w
  arrived := harrived
  zonesAfter := le_rfl
  cacheAfter := le_rfl
  seenList := seen_now hrun [a]
  seenZones := seen_now hrun [a]
  seenCache := seen_now hrun [a]

/-- The view of a call that reads the zones now. -/
def rezoned (v : View rt toml queries r acts t) (hrun : run (step rt toml queries) (init r) acts = some w)
    (a : ServiceAction) : View rt toml queries r (acts ++ [a]) t :=
  { v.later a with
    zonesAt := acts.length
    cacheAt := acts.length
    zones := w
    cache := w
    zonesAfter := v.seenList.within
    cacheAfter := le_rfl
    seenZones := seen_now hrun [a]
    seenCache := seen_now hrun [a] }

/-- The view of a call that reads the cache now. -/
def recached (v : View rt toml queries r acts t) (hrun : run (step rt toml queries) (init r) acts = some w)
    (a : ServiceAction) : View rt toml queries r (acts ++ [a]) t :=
  { v.later a with
    cacheAt := acts.length
    cache := w
    cacheAfter := v.seenZones.within
    seenCache := seen_now hrun [a] }

theorem state_fresh (harrived : ArrivedBy (acts ++ [a]) t acts.length)
    (hrun : run (step rt toml queries) (init r) acts = some w) :
    (fresh harrived hrun).state = w.state.past w.state.blocklist := by
  conv_rhs => rw [(sameConfig_of_run hrun).eq]
  rfl

theorem state_rezoned (v : View rt toml queries r acts t) (hrun : run (step rt toml queries) (init r) acts = some w) :
    (v.rezoned hrun a).state = w.state.past v.list.state.blocklist := by
  conv_rhs => rw [(sameConfig_of_run hrun).eq]
  rfl

end View

/-! ## Moments -/

/-- The clocks of a moment stand as the call has read them with the zones and with the cache. What it has not
read may be anything. -/
structure Clocked (acts : List ServiceAction) (t : TaskId) (zonesAt cacheAt : ℕ) (m : Moment) : Prop where
  unixTime : ∀ unixTime, AnsweredAt acts t zonesAt unixTime → m.unixTime = unixTime
  now : ∀ now, LookedAt acts t cacheAt now → m.now = now

theorem Clocked.earlier {zonesAt cacheAt : ℕ} {m : Moment} (h : Clocked (acts ++ [a]) t zonesAt cacheAt m) :
    Clocked acts t zonesAt cacheAt m where
  unixTime unixTime hanswered := h.unixTime unixTime (hanswered.later a)
  now now hlooked := h.now now (hlooked.later a)

theorem exists_clocked (acts : List ServiceAction) (t : TaskId) (zonesAt cacheAt : ℕ) (flight : Flight) :
    ∃ m : Moment, Clocked acts t zonesAt cacheAt m ∧ m.flight = flight := by
  have hzones : ∃ u, ∀ unixTime, AnsweredAt acts t zonesAt unixTime → u = unixTime := by
    by_cases hread : ∃ u, AnsweredAt acts t zonesAt u
    · exact hread.imp fun u hu unixTime => hu.eq
    · exact ⟨0, fun unixTime hu => absurd ⟨unixTime, hu⟩ hread⟩
  have hcache : ∃ i, ∀ now, LookedAt acts t cacheAt now → i = now := by
    by_cases hread : ∃ i, LookedAt acts t cacheAt i
    · exact hread.imp fun i hi now => hi.eq
    · exact ⟨0, fun now hi => absurd ⟨now, hi⟩ hread⟩
  obtain ⟨u, hu⟩ := hzones
  obtain ⟨i, hi⟩ := hcache
  exact ⟨⟨i, u, flight, 0⟩, ⟨hu, hi⟩, rfl⟩

/-! ## What a call knows -/

structure Admitted (rt : Runtime) (queries : TaskId → Query) (acts : List ServiceAction) (t : TaskId)
    (request : DnsPacket) : Prop where
  arrived : ArrivedBy acts t acts.length
  noTransfer : (queries t).transport = .tcp →
    ∀ st : ServerState, st.tryAxfr rt (queries t).req (queries t).client = ok none
  parsed : fromBytes (queries t).req = ok request

/-- The name is neither blocked nor known to the zones, and may be looked up elsewhere. -/
structure Unknown (rt : Runtime) (st : ServerState) (unixTime : UInt32) (request : DnsPacket) (question : DnsQuestion)
    (response : DnsPacket) : Prop where
  passed : st.blocks rt request = false
  response : st.localResponse rt unixTime request = ok response
  question : request.questions.head? = some question
  elsewhere : st.looksElsewhere rt request

/-- What `Cache::get` returns for the question. -/
def cached (rt : Runtime) (st : ServerState) (question : DnsQuestion) (now : Instant) : Option Bytes :=
  (st.cache.get rt now (rt.toLowercase question.qname) question.qtype).1

/-- The name is lower-cased by `resolve_local` and by the cache. -/
def cacheKey (rt : Runtime) (question : DnsQuestion) : Text × UInt16 :=
  (rt.toLowercase (rt.toLowercase question.qname), question.qtype)

/-- What an operation of `Cache::get` says about the cache of the moment at which the clock was `read`. -/
def Looked (rt : Runtime) (st : ServerState) (question : DnsQuestion) (read : Instant → Prop) : CacheOp → Prop
  | .looking key => key = cacheKey rt question
  | .removing key lookedAt => key = cacheKey rt question ∧ read lookedAt ∧ cached rt st question lookedAt = none
  | .found key lookedAt result => key = cacheKey rt question ∧ read lookedAt ∧ cached rt st question lookedAt = result
  | _ => False

/-- The call has found its name neither blocked, nor in the zones, nor in the cache, and is forwarded. -/
structure Missed (rt : Runtime) (toml : Text → Option Settings) (queries : TaskId → Query) (r : Running)
    (acts : List ServiceAction) (t : TaskId) (request : DnsPacket) (question : DnsQuestion) where
  view : View rt toml queries r acts t
  response : DnsPacket
  unixTime : UInt32
  now : Instant
  answeredAt : AnsweredAt acts t view.zonesAt unixTime
  lookedAt : LookedAt acts t view.cacheAt now
  unknown : Unknown rt view.state unixTime request question response
  missed : cached rt view.state question now = none
  route : r.state.route rt (queries t).req request question (queries t).transport = some (contexts rt r.state queries t)

def Forwarded (rt : Runtime) (toml : Text → Option Settings) (queries : TaskId → Query) (r : Running)
    (acts : List ServiceAction) (t : TaskId) : Prop :=
  ∃ request question, Admitted rt queries acts t request ∧ Nonempty (Missed rt toml queries r acts t request question)

/-- The bytes are what `resolve` replies in the state of a view, at every moment with the clocks of the call. -/
def Replied (rt : Runtime) (toml : Text → Option Settings) (queries : TaskId → Query) (r : Running)
    (acts : List ServiceAction) (t : TaskId) (bytes : Bytes) : Prop :=
  ∃ v : View rt toml queries r acts t, ∀ m, Clocked acts t v.zonesAt v.cacheAt m → ∃ st',
    v.state.resolve rt m (queries t).req (queries t).client (queries t).transport = ok (some bytes, st')

/-- What every phase of a call says about the states that the call has seen. What a flight gives to it is said
by the flight. -/
def Justified (rt : Runtime) (toml : Text → Option Settings) (queries : TaskId → Query) (r : Running)
    (acts : List ServiceAction) (t : TaskId) : QueryPhase → Prop
  | .start => True
  | .entered => ArrivedBy acts t acts.length ∧
      ((queries t).transport = .tcp → ∀ st : ServerState, st.tryAxfr rt (queries t).req (queries t).client = ok none)
  | .admitted request => Admitted rt queries acts t request
  | .listed request question => Admitted rt queries acts t request ∧ request.questions.head? = some question
  | .screened request => Admitted rt queries acts t request ∧
      ∃ v : View rt toml queries r acts t, v.state.blocks rt request = false
  | .looking request question response op => Admitted rt queries acts t request ∧
      ∃ (v : View rt toml queries r acts t) (unixTime : UInt32), AnsweredAt acts t v.zonesAt unixTime ∧
        Unknown rt v.state unixTime request question response ∧
        Looked rt v.state question (LookedAt acts t v.cacheAt) op
  | .flying _ | .ended (.flown _) _ => Forwarded rt toml queries r acts t
  | .ended _ reply => ∀ bytes, reply = some bytes → Replied rt toml queries r acts t bytes

theorem justified_of_replied {path : Path} {reply : Option Bytes} (hpath : ∀ role, path ≠ .flown role)
    (h : ∀ bytes, reply = some bytes → Replied rt toml queries r acts t bytes) :
    Justified rt toml queries r acts t (.ended path reply) := by
  cases path with
  | flown role => exact absurd rfl (hpath role)
  | _ => exact h

theorem Justified.replied {path : Path} {reply : Bytes}
    (h : Justified rt toml queries r acts t (.ended path (some reply))) (hpath : ∀ role, path ≠ .flown role) :
    Replied rt toml queries r acts t reply := by
  cases path with
  | flown role => exact absurd rfl (hpath role)
  | _ => exact h reply rfl

theorem Admitted.later {request : DnsPacket} (h : Admitted rt queries acts t request) (a : ServiceAction) :
    Admitted rt queries (acts ++ [a]) t request :=
  ⟨(h.arrived.later a).mono (by simp), h.noTransfer, h.parsed⟩

theorem Replied.later {bytes : Bytes} (h : Replied rt toml queries r acts t bytes) (a : ServiceAction) :
    Replied rt toml queries r (acts ++ [a]) t bytes := by
  obtain ⟨v, hresolve⟩ := h
  exact ⟨v.later a, fun m hm => hresolve m hm.earlier⟩

def Missed.later {request : DnsPacket} {question : DnsQuestion} (h : Missed rt toml queries r acts t request question)
    (a : ServiceAction) : Missed rt toml queries r (acts ++ [a]) t request question :=
  { h with
    view := h.view.later a
    answeredAt := h.answeredAt.later a
    lookedAt := h.lookedAt.later a
    unknown := h.unknown
    missed := h.missed }

theorem Forwarded.later (h : Forwarded rt toml queries r acts t) (a : ServiceAction) :
    Forwarded rt toml queries r (acts ++ [a]) t := by
  obtain ⟨request, question, hadmitted, ⟨hmissed⟩⟩ := h
  exact ⟨request, question, hadmitted.later a, ⟨hmissed.later a⟩⟩

theorem Looked.later {st : ServerState} {question : DnsQuestion} {n : ℕ} {op : CacheOp}
    (h : Looked rt st question (LookedAt acts t n) op) (a : ServiceAction) :
    Looked rt st question (LookedAt (acts ++ [a]) t n) op := by
  cases op with
  | removing key lookedAt => exact ⟨h.1, h.2.1.later a, h.2.2⟩
  | found key lookedAt result => exact ⟨h.1, h.2.1.later a, h.2.2⟩
  | _ => exact h

theorem Justified.later {phase : QueryPhase} (h : Justified rt toml queries r acts t phase) (a : ServiceAction) :
    Justified rt toml queries r (acts ++ [a]) t phase := by
  cases phase with
  | start => trivial
  | entered => exact ⟨(h.1.later a).mono (by simp), h.2⟩
  | admitted request => exact Admitted.later h a
  | listed request question => exact ⟨h.1.later a, h.2⟩
  | screened request =>
    obtain ⟨hadmitted, v, hpassed⟩ := h
    exact ⟨hadmitted.later a, v.later a, hpassed⟩
  | looking request question response op =>
    obtain ⟨hadmitted, v, unixTime, hanswered, hunknown, hlooked⟩ := h
    exact ⟨hadmitted.later a, v.later a, unixTime, hanswered.later a, hunknown, hlooked.later a⟩
  | flying role => exact Forwarded.later h a
  | ended path reply =>
    cases path with
    | flown role => exact Forwarded.later h a
    | _ => exact fun bytes hbytes => (h bytes hbytes).later a

/-! ## What one step keeps -/

theorem cached_eq (rt : Runtime) (st : ServerState) (question : DnsQuestion) (now : Instant) :
    cached rt st question now =
      match st.cache.map.lookup (cacheKey rt question) with
      | some entry => if now < entry.expiresAt then some entry.response else none
      | none => none := by
  simp only [cached, Cache.get, cacheKey]
  cases st.cache.map.lookup (rt.toLowercase (rt.toLowercase question.qname), question.qtype) with
  | none => rfl
  | some entry => exact apply_ite Prod.fst ..


theorem Looked.go {st : ServerState} {question : DnsQuestion} {read : Instant → Prop} {m m' : CacheMemory}
    {op op' : CacheOp} {now : Instant} {order : Order} (h : Looked rt st question read op)
    (hgo : m.go rt now order op = some (m', op')) :
    Looked rt st question read op' ∨
      ∀ read : Instant → Prop, read now → Looked rt { st with cache := m.cache } question read op' := by
  cases op with
  | looking key =>
    refine .inr fun read hread => ?_
    obtain rfl : key = _ := h
    have hcached := cached_eq rt { st with cache := m.cache } question now
    simp only [CacheMemory.go] at hgo
    split at hgo
    · rename_i entry hentry
      simp only [hentry] at hcached
      split at hgo
      · rename_i hlive
        obtain ⟨_, rfl⟩ := Prod.mk.inj (Option.some.inj hgo)
        exact ⟨rfl, hread, by rwa [if_pos hlive] at hcached⟩
      · rename_i hlive
        obtain ⟨_, rfl⟩ := Prod.mk.inj (Option.some.inj hgo)
        exact ⟨rfl, hread, by rwa [if_neg hlive] at hcached⟩
    · rename_i hentry
      simp only [hentry] at hcached
      obtain ⟨_, rfl⟩ := Prod.mk.inj (Option.some.inj hgo)
      exact ⟨rfl, hread, hcached⟩
  | removing key lookedAt =>
    obtain ⟨_, rfl⟩ := Prod.mk.inj (Option.some.inj hgo)
    exact .inl h
  | found key lookedAt result => cases hgo
  | _ => exact h.elim

theorem Unknown.recached {st : ServerState} {unixTime : UInt32} {request response : DnsPacket} {question : DnsQuestion}
    (h : Unknown rt st unixTime request question response) (cache : Cache) :
    Unknown rt { st with cache := cache } unixTime request question response :=
  ⟨h.passed, h.response, h.question, h.elsewhere⟩

theorem isActive_of_isBlocked {b : Blocklist} {name : Text} (h : b.isBlocked rt name = true) : b.isActive = true := by
  obtain hmem | ⟨s, _, hmem⟩ := Blocklist.isBlocked_iff.mp h
  all_goals
    rw [Blocklist.isActive, Bool.not_eq_true', List.isEmpty_eq_false_iff]
    exact List.ne_nil_of_mem hmem

theorem contexts_eq {request : DnsPacket} {question : DnsQuestion} {ctx : ForwardCtx}
    (hparsed : fromBytes (queries t).req = ok request) (hq : request.questions.head? = some question)
    (hroute : r.state.route rt (queries t).req request question (queries t).transport = some ctx) :
    contexts rt r.state queries t = ctx := by
  simp only [contexts, Query.ctx, hparsed, toOption_ok, Option.bind_eq_bind, Option.bind_some, hq, hroute,
    Option.getD_some]

section Step
variable {move : CallMove} {shard : Fin shards} {w₁ : Service} {cs : List Metric} {phase : QueryPhase}
  {request response : DnsPacket} {question : DnsQuestion} {unixTime : UInt32} {lookedAt : Instant} {raw bytes : Bytes}

theorem arrivedBy_arrive (acts : List ServiceAction) (t : TaskId) (shard : Fin shards) :
    ArrivedBy (acts ++ [.call t shard .arrive]) t acts.length := ⟨acts.length, le_rfl, shard, by simp⟩

theorem answeredAt_answer (acts : List ServiceAction) (t : TaskId) (shard : Fin shards) (unixTime : UInt32) :
    AnsweredAt (acts ++ [.call t shard (.answer unixTime)]) t acts.length unixTime := ⟨shard, by simp⟩

theorem lookedAt_look (acts : List ServiceAction) (t : TaskId) (shard : Fin shards) (now : Instant) (order : Order) :
    LookedAt (acts ++ [.call t shard (.look now order)]) t acts.length now := ⟨shard, order, by simp⟩

theorem replied_transfer (hrun : run (step rt toml queries) (init r) acts = some w)
    (htcp : (queries t).transport = .tcp)
    (h : w.state.tryAxfr rt (queries t).req (queries t).client = ok (some bytes)) (shard : Fin shards) :
    Replied rt toml queries r (acts ++ [.call t shard .arrive]) t bytes := by
  refine ⟨.fresh (arrivedBy_arrive acts t shard) hrun, fun m _ => ⟨_, ServerState.resolve_of_transfer htcp ?_⟩⟩
  rw [View.state_fresh]
  exact h

/-- A reply that is given without a flight is the reply of `resolve`. -/
theorem Admitted.replied (h : Admitted rt queries acts t request) (v : View rt toml queries r acts t)
    (hlocal : ∀ m, Clocked acts t v.zonesAt v.cacheAt m → ∃ st',
      v.state.answerLocally rt m (queries t).req request (queries t).transport = ok (.ready bytes, st')) :
    Replied rt toml queries r acts t bytes := by
  refine ⟨v, fun m hm => ?_⟩
  obtain ⟨st', hready⟩ := hlocal m hm
  exact ⟨st', ServerState.resolve_of_ready rfl (fun htcp => h.noTransfer htcp _) h.parsed hready⟩

theorem Admitted.replied_block (h : Admitted rt queries acts t request)
    (hrun : run (step rt toml queries) (init r) acts = some w) (hq : request.questions.head? = some question)
    (hblocked : w.state.blocklist.isBlocked rt question.qname = true) (a : ServiceAction) :
    Replied rt toml queries r (acts ++ [a]) t
      (encode (synthResponse request [] rcodeNxdomain) (queries t).transport) := by
  refine (h.later a).replied (.fresh (h.arrived.later a) hrun) fun m _ => ⟨w.state.past w.state.blocklist, ?_⟩
  rw [View.state_fresh, ServerState.answerLocally, if_pos]
  simp [ServerState.blocks, ServerState.past, hq, hblocked, isActive_of_isBlocked hblocked]

theorem Admitted.replied_own (h : Admitted rt queries acts t request)
    (hrun : run (step rt toml queries) (init r) acts = some w) (v : View rt toml queries r acts t)
    (hpassed : v.state.blocks rt request = false) (hresponse : w.state.localResponse rt unixTime request = ok response)
    (hhere : ∀ question, request.questions.head? = some question → ¬ w.state.looksElsewhere rt request)
    (shard : Fin shards) :
    Replied rt toml queries r (acts ++ [.call t shard (.answer unixTime)]) t
      (encode (w.state.offerRecursion response) (queries t).transport) := by
  refine (h.later _).replied (v.rezoned hrun _) fun m hm => ⟨w.state.past v.list.state.blocklist, ?_⟩
  rw [v.state_rezoned hrun]
  have hblocks : ¬ (w.state.past v.list.state.blocklist).blocks rt request := Bool.eq_false_iff.mp hpassed
  have hown : (w.state.past v.list.state.blocklist).localResponse rt m.unixTime request = ok response := by
    rw [hm.unixTime unixTime (answeredAt_answer acts t shard unixTime)]
    exact hresponse
  exact ServerState.answerLocally_of_case (.own hblocks hown hhere) hown

/-- What `Cache::get` has returned to the call it returns at every moment with the clocks of the call. -/
theorem get_of_clocked {zonesAt cacheAt : ℕ} {st : ServerState} {m : Moment} {result : Option Bytes}
    (hm : Clocked acts t zonesAt cacheAt m) (hread : LookedAt acts t cacheAt lookedAt)
    (hcached : cached rt st question lookedAt = result) :
    ∃ cache, st.cache.get rt m.now (rt.toLowercase question.qname) question.qtype = (result, cache) := by
  rw [hm.now lookedAt hread]
  exact ⟨_, Prod.ext hcached rfl⟩

theorem Admitted.replied_hit (h : Admitted rt queries acts t request) (v : View rt toml queries r acts t)
    (hanswered : AnsweredAt acts t v.zonesAt unixTime) (hunknown : Unknown rt v.state unixTime request question response)
    (hread : LookedAt acts t v.cacheAt lookedAt) (hcached : cached rt v.state question lookedAt = some raw)
    (hreplay : replay raw request (queries t).transport = ok bytes) : Replied rt toml queries r acts t bytes := by
  refine h.replied v fun m hm => ?_
  obtain ⟨cache, hget⟩ := get_of_clocked hm hread hcached
  exact ⟨_, ServerState.answerLocally_of_case (.cached (Bool.eq_false_iff.mp hunknown.passed) hunknown.question
    hunknown.elsewhere hget hreplay) (hm.unixTime _ hanswered ▸ hunknown.response)⟩

theorem Admitted.replied_alone (h : Admitted rt queries acts t request) (v : View rt toml queries r acts t)
    (hanswered : AnsweredAt acts t v.zonesAt unixTime) (hunknown : Unknown rt v.state unixTime request question response)
    (hread : LookedAt acts t v.cacheAt lookedAt) (hcached : cached rt v.state question lookedAt = none)
    (hroute : r.state.route rt (queries t).req request question (queries t).transport = none) :
    Replied rt toml queries r acts t (encode response (queries t).transport) := by
  obtain ⟨hmatch, hrec⟩ := ServerState.route_eq_none.mp hroute
  refine h.replied v fun m hm => ?_
  obtain ⟨cache, hget⟩ := get_of_clocked hm hread hcached
  have hresponse : v.state.localResponse rt m.unixTime request = ok response :=
    hm.unixTime _ hanswered ▸ hunknown.response
  exact ⟨_, ServerState.answerLocally_of_case (.alone (Bool.eq_false_iff.mp hunknown.passed) hunknown.question
    hunknown.elsewhere hget hresponse hmatch hrec) hresponse⟩

/-- The reply of a flight is the reply of `resolve`. -/
theorem Missed.resolve (h : Missed rt toml queries r acts t request question)
    (hadmitted : Admitted rt queries acts t request)
    {m : Moment} (hm : Clocked acts t h.view.zonesAt h.view.cacheAt m)
    (hforward : ∀ st : ServerState, st.hasResolver (contexts rt r.state queries t).upstream =
        r.state.hasResolver (contexts rt r.state queries t).upstream →
      ∃ st', st.forwardCtx rt m.answeredAt (contexts rt r.state queries t) m.flight = ok (bytes, st')) :
    ∃ st', h.view.state.resolve rt m (queries t).req (queries t).client (queries t).transport = ok (some bytes, st') := by
  obtain ⟨upstream, hctx, hupstream⟩ := ServerState.route_eq_some h.route
  obtain ⟨cache, hget⟩ := get_of_clocked hm h.lookedAt h.missed
  obtain ⟨st', hforward⟩ := hforward { h.view.state with cache := cache } rfl
  rw [hctx] at hforward
  exact ⟨st', ServerState.resolve_of_forward rfl (fun htcp => hadmitted.noTransfer htcp _) hadmitted.parsed
    (ServerState.answerLocally_of_case (.forwarded (Bool.eq_false_iff.mp h.unknown.passed) h.unknown.question
      h.unknown.elsewhere hget hupstream) (hm.unixTime _ h.answeredAt ▸ h.unknown.response)) hforward⟩

theorem Justified.step (hrun : run (step rt toml queries) (init r) acts = some w)
    (h : Justified rt toml queries r acts t (w.phase t)) (hdoes : Does rt queries w t move w₁ cs phase)
    (shard : Fin shards) : Justified rt toml queries r (acts ++ [.call t shard move]) t phase := by
  have hsame := sameConfig_of_run hrun
  have hsilent : ∀ {path : Path}, (∀ role, path ≠ .flown role) →
      Justified rt toml queries r (acts ++ [.call t shard move]) t (.ended path none) :=
    fun hpath => justified_of_replied hpath fun bytes hbytes => by cases hbytes
  have hforwarded : ∀ {role : Role}, w.phase t = .flying role →
      Forwarded rt toml queries r (acts ++ [.call t shard move]) t := by
    intro role hphase
    rw [hphase] at h
    exact Forwarded.later h _
  cases hdoes with
  | transfer hphase htcp hreply hpath =>
    refine justified_of_replied (fun role => ?_) ?_
    · rw [hpath, ServerState.transferPath]
      repeat' split
      all_goals exact Path.noConfusion
    · rintro _ ⟨⟩
      exact replied_transfer hrun htcp hreply shard
  | enter hphase hnone =>
    exact ⟨(arrivedBy_arrive acts t shard).mono (by simp), fun htcp st => ServerState.tryAxfr_of_none (hnone htcp) st⟩
  | unread _ _ => exact hsilent (by simp)
  | limit _ => exact hsilent (by simp)
  | garble _ => exact hsilent (by simp)
  | crash _ _ => exact hsilent (by simp)
  | accept hphase hparsed =>
    rw [hphase] at h
    exact Admitted.later ⟨h.1, h.2, hparsed⟩ _
  | list hphase hq =>
    rw [hphase] at h
    exact ⟨Admitted.later h _, hq⟩
  | clear hphase hpassed =>
    rw [hphase] at h
    refine ⟨Admitted.later h _, .fresh (h.arrived.later _) hrun, ?_⟩
    rw [View.state_fresh]
    exact hpassed
  | block hphase hblocked =>
    rw [hphase] at h
    obtain ⟨hadmitted, hq⟩ := h
    rintro _ ⟨⟩
    exact hadmitted.replied_block hrun hq hblocked _
  | unlist hphase hblocked =>
    rw [hphase] at h
    obtain ⟨hadmitted, hq⟩ := h
    refine ⟨hadmitted.later _, .fresh (hadmitted.arrived.later _) hrun, ?_⟩
    rw [View.state_fresh]
    simp [ServerState.blocks, ServerState.past, hq, hblocked]
  | own hphase hresponse hhere =>
    rw [hphase] at h
    obtain ⟨hadmitted, v, hpassed⟩ := h
    rintro _ ⟨⟩
    exact hadmitted.replied_own hrun v hpassed hresponse hhere shard
  | fail _ _ => exact hsilent (by simp)
  | seek hphase hresponse hq helse hc =>
    rw [hphase] at h
    obtain ⟨hadmitted, v, hpassed⟩ := h
    subst hc
    refine ⟨hadmitted.later _, v.rezoned hrun _, _, answeredAt_answer acts t shard _, ?_, rfl⟩
    rw [v.state_rezoned hrun]
    exact ⟨hpassed, hresponse, hq, helse⟩
  | look hphase hgo =>
    rw [hphase] at h
    obtain ⟨hadmitted, v, unixTime, hanswered, hunknown, hlooked⟩ := h
    obtain hlooked | hlooked := hlooked.go hgo
    · exact ⟨hadmitted.later _, v.later _, unixTime, hanswered.later _, hunknown, hlooked.later _⟩
    · exact ⟨hadmitted.later _, v.recached hrun _, unixTime, hanswered.later _, hunknown.recached _,
        hlooked _ (lookedAt_look ..)⟩
  | hit hphase =>
    rw [hphase] at h
    obtain ⟨hadmitted, v, unixTime, hanswered, hunknown, _, hread, hcached⟩ := h
    intro bytes hbytes
    exact (hadmitted.replied_hit v hanswered hunknown hread hcached (eq_ok_of_toOption hbytes)).later _
  | queue hphase hroute =>
    rw [hphase] at h
    obtain ⟨hadmitted, v, unixTime, hanswered, hunknown, _, hread, hcached⟩ := h
    rw [hsame.route] at hroute
    have hctx := contexts_eq hadmitted.parsed hunknown.question hroute
    exact ⟨_, _, hadmitted.later _,
      ⟨Missed.later ⟨v, _, unixTime, _, hanswered, hread, hunknown, hcached, hctx ▸ hroute⟩ _⟩⟩
  | alone hphase hroute =>
    rw [hphase] at h
    obtain ⟨hadmitted, v, unixTime, hanswered, hunknown, _, hread, hcached⟩ := h
    rw [hsame.route] at hroute
    rintro _ ⟨⟩
    exact (hadmitted.replied_alone v hanswered hunknown hread hcached hroute).later _
  | join hphase _ => exact hforwarded hphase
  | lead hphase _ _ => exact hforwarded hphase
  | orphan hphase _ _ => exact hforwarded hphase
  | complete hphase _ _ => exact hforwarded hphase
  | abort hphase _ => exact hforwarded hphase
  | misread hphase _ _ _ => exact hforwarded hphase
  | store hphase _ => exact hforwarded hphase
  | fly hphase _ _ => exact hforwarded hphase
  | reply hphase _ => exact hforwarded hphase

theorem justified_of_run (hrun : run (Service.step rt toml queries) (init r) acts = some w) (t : TaskId) :
    Justified rt toml queries r acts t (w.phase t) := by
  have hstep : ∀ acts w t shard move w₁ cs phase, run (Service.step rt toml queries) (init r) acts = some w →
      Justified rt toml queries r acts t (w.phase t) → Does rt queries w t move w₁ cs phase →
      Justified rt toml queries r (acts ++ [.call t shard move]) t phase :=
    fun acts w t shard move w₁ cs phase hrun h hdoes => h.step hrun hdoes shard
  exact each_call (Φ := fun acts t _ phase => Justified rt toml queries r acts t phase) (fun _ => trivial)
    (fun _ _ _ _ h a => h.later a) hstep hrun t

end Step

/-! ## Replies -/

/-- What the flight of a call has given to it: to a leader the result of its own query, to a follower the bytes
that `forward_and_cache` has made of the result of its leader's, and nothing if the leader was torn down. The
leader has asked for the same name and type. -/
inductive Supplied (rt : Runtime) (queries : TaskId → Query) (r : Running) (acts : List ServiceAction) (w : Service)
    (t : TaskId) : Role → Flight → Prop
  | led {raw : Bytes} {result : Option Bytes} {op : CacheOp} : w.flights.phase t = .led raw → Completed acts t result →
      Supplied rt queries r acts w t (.answered result op) (.leader result)
  | followed {role : Role} {leader : TaskId} {raw : Bytes} {result : Option Bytes} {answeredAt : Instant}
      {st' : ServerState} : w.flights.phase t = .followed leader (some raw) →
      (contexts rt r.state queries leader).key = (contexts rt r.state queries t).key → Completed acts leader result →
      r.state.forwardAndCache rt answeredAt (contexts rt r.state queries leader) result = ok (raw, st') →
      Supplied rt queries r acts w t role (.follower (some raw))
  | abandoned {role : Role} {leader : TaskId} : w.flights.phase t = .followed leader none →
      (contexts rt r.state queries leader).key = (contexts rt r.state queries t).key →
      w.flights.phase leader = .cancelled → Supplied rt queries r acts w t role (.follower none)

/-- The moments of a call: the clocks stand as it has read them, and the flight is its own. -/
structure Took (rt : Runtime) (queries : TaskId → Query) (r : Running) (acts : List ServiceAction) (w : Service)
    (t : TaskId) (path : Path) (zonesAt cacheAt : ℕ) (m : Moment) : Prop extends Clocked acts t zonesAt cacheAt m where
  flight : ∀ role, path = .flown role → Supplied rt queries r acts w t role m.flight

theorem exists_supplied (hrun : run (step rt toml queries) (init r) acts = some w) {role : Role} {reply : Bytes}
    (hreply : w.phase t = .ended (.flown role) (some reply)) : ∃ flight, Supplied rt queries r acts w t role flight := by
  have hlinked := linked_of_run hrun t
  obtain ⟨out, hout, _⟩ := hlinked.replied role _ hreply
  cases hphase : w.flights.phase t with
  | led raw =>
    obtain ⟨result, op, answeredAt, st', hrole, _⟩ := hlinked.fetched raw (by rw [hphase]; rfl)
    have hcompleted := hlinked.answered result op hrole
    rw [hreply] at hrole
    obtain rfl : role = .answered result op := Option.some.inj hrole
    exact ⟨_, .led hphase hcompleted⟩
  | followed leader shared =>
    obtain ⟨hkey, hsent, htorn⟩ := (flights_of_run hrun).followers t leader shared hphase
    cases shared with
    | none => exact ⟨_, .abandoned hphase hkey (htorn rfl)⟩
    | some raw =>
      have hleader := linked_of_run hrun leader
      obtain ⟨result, op, answeredAt, st', hrole, hforward⟩ := hleader.fetched raw (Phase.raw_of_sent hsent.symm)
      exact ⟨_, .followed hphase hkey (hleader.answered result op hrole) hforward⟩
  | _ =>
    rw [hphase] at hout
    cases hout

/-- What a flight has given to a call, `forward_ctx` makes its reply of. -/
theorem Supplied.forwardCtx {role : Role} {flight : Flight} (h : Supplied rt queries r acts w t role flight)
    (hrun : run (step rt toml queries) (init r) acts = some w) {reply : Bytes}
    (hreply : w.phase t = .ended (.flown role) (some reply)) (answeredAt : Instant) (st : ServerState)
    (hst : st.hasResolver (contexts rt r.state queries t).upstream =
      r.state.hasResolver (contexts rt r.state queries t).upstream) :
    ∃ st', st.forwardCtx rt answeredAt (contexts rt r.state queries t) flight = ok (reply, st') := by
  have hlinked := linked_of_run hrun t
  obtain ⟨out, hout, hok⟩ := hlinked.replied role _ hreply
  obtain rfl := eq_ok_of_toOption hok
  cases h with
  | @led raw result op hphase _ =>
    rw [hphase] at hout
    obtain ⟨result', op', answeredAt', st', hrole, hforward⟩ := hlinked.fetched raw (by rw [hphase]; rfl)
    rw [hreply] at hrole
    obtain ⟨rfl, _⟩ := Role.answered.inj (Option.some.inj hrole)
    exact ServerState.forwardCtx_of_led hforward hst (Option.some.inj hout) answeredAt
  | followed hphase _ _ _ =>
    rw [hphase] at hout
    exact ⟨_, ServerState.forwardCtx_of_followed (Option.some.inj hout) answeredAt⟩
  | abandoned hphase _ _ =>
    rw [hphase] at hout
    exact ⟨_, ServerState.forwardCtx_of_followed (Option.some.inj hout) answeredAt⟩

theorem exists_view (hrun : run (step rt toml queries) (init r) acts = some w) {path : Path} {reply : Bytes}
    (hreply : w.phase t = .ended path (some reply)) :
    ∃ v : View rt toml queries r acts t, (∃ m, Took rt queries r acts w t path v.zonesAt v.cacheAt m) ∧
      ∀ m, Took rt queries r acts w t path v.zonesAt v.cacheAt m → ∃ st',
        v.state.resolve rt m (queries t).req (queries t).client (queries t).transport = ok (some reply, st') := by
  have hjustified := justified_of_run hrun t
  rw [hreply] at hjustified
  by_cases hflown : ∃ role, path = .flown role
  · obtain ⟨role, rfl⟩ := hflown
    obtain ⟨request, question, hadmitted, ⟨hmissed⟩⟩ := hjustified
    obtain ⟨flight, hsupplied⟩ := exists_supplied hrun hreply
    obtain ⟨m, hm, rfl⟩ := exists_clocked acts t hmissed.view.zonesAt hmissed.view.cacheAt flight
    refine ⟨hmissed.view, ⟨m, hm, ?_⟩, fun m hm => hmissed.resolve hadmitted hm.toClocked ?_⟩
    · rintro _ ⟨⟩
      exact hsupplied
    · exact (hm.flight role rfl).forwardCtx hrun hreply m.answeredAt
  · have hpath := not_exists.mp hflown
    obtain ⟨v, hresolve⟩ := hjustified.replied hpath
    obtain ⟨m, hm, _⟩ := exists_clocked acts t v.zonesAt v.cacheAt (.follower none)
    exact ⟨v, ⟨m, hm, fun role hrole => absurd hrole (hpath role)⟩, fun m hm => hresolve m hm.toClocked⟩

/-- **Every reply is the reply of one undisturbed call of `resolve`**, in a state whose blocklist, zones and
cache the server had at three moments since the arrival of the query, in this order, with the clocks as the
call has read them with the zones and with the cache, and with what its flight has given to it. -/
theorem replies_resolve (rt : Runtime) (toml : Text → Option Settings) (queries : TaskId → Query) (r : Running)
    (acts : List ServiceAction) (w : Service) (h : run (step rt toml queries) (init r) acts = some w) (t : TaskId)
    (path : Path) (reply : Bytes) (hreply : w.phase t = .ended path (some reply)) :
    ∃ v : View rt toml queries r acts t, (∃ m, Took rt queries r acts w t path v.zonesAt v.cacheAt m) ∧
      ∀ m, Took rt queries r acts w t path v.zonesAt v.cacheAt m → ∃ st',
        v.state.resolve rt m (queries t).req (queries t).client (queries t).transport = ok (some reply, st') :=
  exists_view h hreply

theorem replies_resolve_letter : ∃ w, run (step .ascii (fun _ => none) letterQueries) (init letterServer)
      (entering 1 ++ joining) = some w ∧
    ∃ v : View .ascii (fun _ => none) letterQueries letterServer (entering 1 ++ joining) 2,
      (∃ m, Took .ascii letterQueries letterServer (entering 1 ++ joining) w 2 (.flown .following)
        v.zonesAt v.cacheAt m) ∧
      ∀ m,
        Took .ascii letterQueries letterServer (entering 1 ++ joining) w 2 (.flown .following) v.zonesAt v.cacheAt m →
        ∃ st', v.state.resolve .ascii m (letterQuery 2 97) (letterClient 1) .udp =
          ok (some (letterAnswer 2 97), st') := by
  obtain ⟨w, hrun, hphase⟩ := run_joining
  exact ⟨w, hrun, replies_resolve .ascii (fun _ => none) letterQueries letterServer _ w hrun 2 _ _ hphase⟩

/-! ## Without a reload -/

def reloads : ServiceAction → Bool
  | .sighup _ | .relist _ => true
  | _ => false

theorem kept_of_step (hstep : step rt toml queries w a = some w') (ha : reloads a = false) :
    w'.state.zones = w.state.zones ∧ w'.state.blocklist = w.state.blocklist := by
  cases a with
  | call t shard move =>
    obtain ⟨w₁, cs, phase, hdoes, rfl⟩ := does_of_callStep hstep
    obtain ⟨limiter, hrunning⟩ := hdoes.running
    simp only [state, goto, hrunning, and_self]
  | cleanup now =>
    obtain rfl := Option.some.inj hstep
    exact ⟨rfl, rfl⟩
  | _ => cases ha

theorem kept_of_run (hrun : run (step rt toml queries) w acts = some w') (hacts : ∀ a ∈ acts, reloads a = false) :
    w'.state.zones = w.state.zones ∧ w'.state.blocklist = w.state.blocklist := by
  induction acts generalizing w with
  | nil =>
    obtain rfl := Option.some.inj hrun
    exact ⟨rfl, rfl⟩
  | cons a acts ih =>
    obtain ⟨m, hm, hrest⟩ := run_cons.mp hrun
    obtain ⟨hzones, hlist⟩ := ih hrest fun a ha => hacts a (List.mem_cons_of_mem _ ha)
    obtain ⟨hzones', hlist'⟩ := kept_of_step hm (hacts _ List.mem_cons_self)
    exact ⟨hzones.trans hzones', hlist.trans hlist'⟩

/-- **A query that no reload falls into is answered at once**: its reply is that of `resolve` in the state of
one moment since its arrival, with the clocks as the call has read them and what its flight has given to it. -/
theorem replies_atomic (rt : Runtime) (toml : Text → Option Settings) (queries : TaskId → Query) (r : Running)
    (before after : List ServiceAction) (w : Service)
    (h : run (step rt toml queries) (init r) (before ++ after) = some w) (t : TaskId)
    (harrives : ∀ shard, .call t shard .arrive ∉ before) (hafter : ∀ a ∈ after, reloads a = false) (path : Path)
    (reply : Bytes) (hreply : w.phase t = .ended path (some reply)) :
    ∃ (n zonesAt : ℕ) (v : Service), before.length ≤ zonesAt ∧ zonesAt ≤ n ∧
      Seen (step rt toml queries) (init r) (before ++ after) n v ∧
      (∃ m, Took rt queries r (before ++ after) w t path zonesAt n m) ∧
      ∀ m, Took rt queries r (before ++ after) w t path zonesAt n m → ∃ st',
        (v.state.past v.state.blocklist).resolve rt m (queries t).req (queries t).client (queries t).transport =
          ok (some reply, st') := by
  obtain ⟨v, htook, hresolve⟩ := exists_view h hreply
  -- the call arrives behind `before`
  have hfrom : before.length ≤ v.listAt := by
    obtain ⟨i, hi, shard, hget⟩ := v.arrived
    refine le_trans (Nat.not_lt.mp fun hlt => ?_) hi
    rw [List.getElem?_append_left hlt] at hget
    exact harrives shard (List.mem_of_getElem? hget)
  have hquiet : ∀ {i j}, before.length ≤ i → ∀ a ∈ ((before ++ after).take j).drop i, reloads a = false := by
    intro i j hi a ha
    rw [List.drop_take, List.drop_append, List.drop_eq_nil_of_le hi, List.nil_append] at ha
    exact hafter a (List.mem_of_mem_drop (List.mem_of_mem_take ha))
  have hzonesFrom := hfrom.trans v.zonesAfter
  obtain ⟨hzones, _⟩ := kept_of_run (v.seenZones.between v.seenCache v.cacheAfter) (hquiet hzonesFrom)
  obtain ⟨_, hlist⟩ := kept_of_run (v.seenList.between v.seenCache (v.zonesAfter.trans v.cacheAfter)) (hquiet hfrom)
  have hstate : v.cache.state.past v.cache.state.blocklist = v.state := by
    rw [(sameConfig_of_run v.seenCache.reached).eq, View.state, ← hzones, ← hlist]
    rfl
  refine ⟨v.cacheAt, v.zonesAt, v.cache, hzonesFrom, v.cacheAfter, v.seenCache, htook, ?_⟩
  rwa [hstate]

theorem replies_atomic_letter : ∃ w, run (step .ascii (fun _ => none) letterQueries) (init letterServer)
      (entering 1 ++ joining) = some w ∧
    ∃ (n zonesAt : ℕ) (v : Service), (entering 1).length ≤ zonesAt ∧ zonesAt ≤ n ∧
      Seen (step .ascii (fun _ => none) letterQueries) (init letterServer) (entering 1 ++ joining) n v ∧
      (∃ m, Took .ascii letterQueries letterServer (entering 1 ++ joining) w 2 (.flown .following) zonesAt n m) ∧
      ∀ m, Took .ascii letterQueries letterServer (entering 1 ++ joining) w 2 (.flown .following) zonesAt n m →
        ∃ st', (v.state.past v.state.blocklist).resolve .ascii m (letterQuery 2 97) (letterClient 1) .udp =
          ok (some (letterAnswer 2 97), st') := by
  obtain ⟨w, hrun, hphase⟩ := run_joining
  refine ⟨w, hrun, replies_atomic .ascii (fun _ => none) letterQueries letterServer _ _ w hrun 2 ?_ ?_ _ _ hphase⟩
  · simp [entering]
  · simp [joining, entering, reloads]

end Service
end MiniDns
