import MiniDns.Lib.Projection
import MiniDns.ServiceCrashes

/-! The receive loops of the UDP sockets. A worker answers what it receives before it receives again, except
for what must be forwarded, so a request that panics takes the worker with it. -/
namespace MiniDns
open Lib Lib.Outcome Dns DnsPacket Function
open Service (firstShard letterServer strayNsec)
set_option autoImplicit false

namespace Udp

/-! ## Workers -/

/-- What comes from outside: a datagram, or a message of a connection of any kind. -/
inductive Arrival where
  | datagram (bytes : Bytes) (client : IpAddr)
  | message (req : Bytes) (client : IpAddr)
  deriving DecidableEq, Repr

def bufferLen : ℕ := 1232

namespace Arrival

def isDatagram : Arrival → Bool
  | .datagram _ _ => true
  | .message _ _ => false

/-- What `resolve` is called with. What does not fit the buffer of the worker is lost. -/
def query : Arrival → Query
  | .datagram bytes client => ⟨bytes.take bufferLen, client, .udp⟩
  | .message req client => ⟨req, client, .tcp⟩

end Arrival

inductive WorkerPhase where
  | idle
  | serving (t : TaskId)
  | ended
  deriving DecidableEq, Repr

/-- The server with the workers of its UDP sockets and the datagrams that they have received. -/
structure State where
  service : Service
  worker : ℕ → WorkerPhase
  received : List TaskId

inductive Action where
  | receive (worker : ℕ) (t : TaskId)
  | act (a : ServiceAction)
  | next (worker : ℕ)
  | unwind (worker : ℕ)
  | leave (worker : ℕ)

def Action.service : Action → Option ServiceAction
  | .act a => some a
  | _ => none

/-- Whether `resolve_local` has returned, and with a value. What is to be forwarded goes on as a task of its
own. -/
def returned : QueryPhase → Option Bool
  | .flying _ => some true
  | .ended path reply =>
    match path with
    | .limited | .garbled | .flown _ => some true
    | _ => some reply.isSome
  | _ => none

/-- The call whose step an action is. -/
def callOf : ServiceAction → Option TaskId
  | .call t _ _ => some t
  | _ => none

namespace State

def init (r : Running) (workers : ℕ) : State where
  service := .init r
  worker i := if i < workers then .idle else .ended
  received := []

def setWorker (w : State) (i : ℕ) (phase : WorkerPhase) : State := { w with worker := update w.worker i phase }

theorem setWorker_self (w : State) (i : ℕ) (phase : WorkerPhase) : (w.setWorker i phase).worker i = phase :=
  update_self ..

theorem setWorker_of_ne (w : State) {i j : ℕ} (h : j ≠ i) (phase : WorkerPhase) :
    (w.setWorker i phase).worker j = w.worker j := update_of_ne h ..

def step (rt : Runtime) (toml : Text → Option Settings) (arrivals : TaskId → Arrival) (w : State) :
    Action → Option State
  | .receive i t =>
    if w.worker i = .idle ∧ (arrivals t).isDatagram ∧ t ∉ w.received then
      some { w.setWorker i (.serving t) with received := t :: w.received }
    else none
  | .act a =>
    -- a datagram is a call when it is received
    if (callOf a).all fun t => !(arrivals t).isDatagram || t ∈ w.received then
      (w.service.step rt toml (fun t => (arrivals t).query) a).map fun service => { w with service := service }
    else none
  | .next i =>
    match w.worker i with
    | .serving t => if returned (w.service.phase t) = some true then some (w.setWorker i .idle) else none
    | _ => none
  | .unwind i =>
    match w.worker i with
    | .serving t => if returned (w.service.phase t) = some false then some (w.setWorker i .ended) else none
    | _ => none
  | .leave i =>
    -- `recv_from` has failed, or the server shuts down
    if w.worker i = .idle then some (w.setWorker i .ended) else none

/-! ## What a step can do -/

inductive Does (rt : Runtime) (toml : Text → Option Settings) (arrivals : TaskId → Arrival) (w : State) :
    Action → State → Prop
  | receive {i : ℕ} {t : TaskId} (hworker : w.worker i = .idle) (harrival : (arrivals t).isDatagram = true)
      (hnew : t ∉ w.received) :
      Does rt toml arrivals w (.receive i t) { w.setWorker i (.serving t) with received := t :: w.received }
  | act {a : ServiceAction} {service : Service}
      (hreceived : ∀ t, callOf a = some t → (arrivals t).isDatagram = true → t ∈ w.received)
      (hstep : w.service.step rt toml (fun t => (arrivals t).query) a = some service) :
      Does rt toml arrivals w (.act a) { w with service := service }
  | next {i : ℕ} {t : TaskId} (hworker : w.worker i = .serving t)
      (hreturned : returned (w.service.phase t) = some true) : Does rt toml arrivals w (.next i) (w.setWorker i .idle)
  | unwind {i : ℕ} {t : TaskId} (hworker : w.worker i = .serving t)
      (hreturned : returned (w.service.phase t) = some false) :
      Does rt toml arrivals w (.unwind i) (w.setWorker i .ended)
  | leave {i : ℕ} (hworker : w.worker i = .idle) : Does rt toml arrivals w (.leave i) (w.setWorker i .ended)

section Steps
variable {rt : Runtime} {toml : Text → Option Settings} {arrivals : TaskId → Arrival} {w w' : State} {a : Action}

theorem step_eq_some : w.step rt toml arrivals a = some w' ↔ Does rt toml arrivals w a w' := by
  constructor
  · intro h
    cases a with
    | receive i t =>
      obtain ⟨⟨hworker, harrival, hnew⟩, ⟨⟩⟩ := Option.ite_none_right_eq_some.mp h
      exact .receive hworker harrival hnew
    | act a =>
      obtain ⟨hreceived, h⟩ := Option.ite_none_right_eq_some.mp h
      obtain ⟨service, hstep, rfl⟩ := Option.map_eq_some_iff.mp h
      refine .act (fun t ht harrival => ?_) hstep
      simpa [ht, harrival] using hreceived
    | next i =>
      simp only [step] at h
      split at h
      · rename_i t hworker
        obtain ⟨hreturned, ⟨⟩⟩ := Option.ite_none_right_eq_some.mp h
        exact .next hworker hreturned
      · cases h
    | unwind i =>
      simp only [step] at h
      split at h
      · rename_i t hworker
        obtain ⟨hreturned, ⟨⟩⟩ := Option.ite_none_right_eq_some.mp h
        exact .unwind hworker hreturned
      · cases h
    | leave i =>
      obtain ⟨hworker, ⟨⟩⟩ := Option.ite_none_right_eq_some.mp h
      exact .leave hworker
  · intro h
    cases h with
    | receive hworker harrival hnew => exact if_pos ⟨hworker, harrival, hnew⟩
    | @act a service hreceived hstep =>
      have hall : ((callOf a).all fun t => !(arrivals t).isDatagram || t ∈ w.received) = true := by
        cases ha : callOf a with
        | none => rfl
        | some t => simpa [imp_iff_not_or] using hreceived t ha
      simp only [step, if_pos hall, hstep, Option.map_some]
    | next hworker hreturned => simp only [step, hworker, if_pos hreturned]
    | unwind hworker hreturned => simp only [step, hworker, if_pos hreturned]
    | leave hworker => exact if_pos hworker

/-! ## Runs -/

variable {r : Running} {workers : ℕ} {acts : List Action}

theorem service_of_run (h : run (step rt toml arrivals) (init r workers) acts = some w) :
    run (Service.step rt toml fun t => (arrivals t).query) (.init r) (acts.filterMap Action.service) =
      some w.service := by
  refine run_project State.service Action.service (fun s a s' b hlabel hstep => ?_) (fun s a s' hlabel hstep => ?_) h
  · cases step_eq_some.mp hstep with
    | act _ hact =>
      obtain rfl := Option.some.inj hlabel
      exact hact
    | _ => cases hlabel
  · cases step_eq_some.mp hstep with
    | act => cases hlabel
    | _ => rfl

/-- A datagram that panics the decoder is over the limit or crashes. -/
def Unreadable (phase : QueryPhase) : Prop :=
  phase = .start ∨ phase = .entered ∨ phase = .ended .limited none ∨ phase = .ended .crashed none

theorem Unreadable.returned {phase : QueryPhase} (h : Unreadable phase) (hreturned : returned phase = some true) :
    phase = .ended .limited none := by
  obtain rfl | rfl | rfl | rfl := h
  · cases hreturned
  · cases hreturned
  · rfl
  · cases hreturned

theorem panicked_of_returned {phase : QueryPhase} (h : returned phase = some false) :
    ∃ path, phase = .ended path none ∧ path ≠ .limited ∧ path ≠ .garbled := by
  unfold returned at h
  split at h
  · cases h
  · rename_i path reply
    split at h
    · cases h
    · cases h
    · cases h
    · rename_i hlimited hgarbled _
      obtain rfl := Option.isNone_iff_eq_none.mp (by simpa using h)
      exact ⟨path, rfl, hlimited, hgarbled⟩
  · cases h

variable {queries : TaskId → Query} {v v₁ : Service} {t : TaskId} {move : CallMove} {cs : List Metric}
  {phase : QueryPhase}

/-- A call that has ended takes no step. -/
theorem not_ended_of_does (h : Service.Does rt queries v t move v₁ cs phase) (path : Path) (reply : Option Bytes) :
    v.phase t ≠ .ended path reply := by
  intro hended
  cases h <;> simp_all

theorem Unreadable.does (h : Unreadable (v.phase t)) (hudp : (queries t).transport = .udp)
    (hpanic : fromBytes (queries t).req = panic) (hdoes : Service.Does rt queries v t move v₁ cs phase) :
    Unreadable phase := by
  obtain hstart | hentered | hlimited | hcrashed := h
  · -- `try_axfr` is not called for a datagram
    cases hdoes <;> simp_all [Unreadable]
  · cases hdoes <;> simp_all [Unreadable]
  · exact absurd hlimited (not_ended_of_does hdoes _ _)
  · exact absurd hcrashed (not_ended_of_does hdoes _ _)

theorem unreadable_of_run {acts : List ServiceAction} (hudp : (queries t).transport = .udp)
    (hpanic : fromBytes (queries t).req = panic) (h : run (Service.step rt toml queries) (.init r) acts = some v) :
    Unreadable (v.phase t) := by
  have hkeep : ∀ v a v', Unreadable (v.phase t) → Service.step rt toml queries v a = some v' →
      Unreadable (v'.phase t) := by
    intro v a v' hv hstep
    obtain ⟨t', shard, move, v₁, cs, phase, rfl, hdoes, rfl⟩ | ⟨_, _, _, _, _, hphase⟩ := Service.step_cases hstep
    · by_cases ht : t = t'
      · subst ht
        rw [show (v₁.goto t shard cs phase).phase t = phase from update_self ..]
        exact hv.does hudp hpanic hdoes
      · rw [show (v₁.goto t' shard cs phase).phase t = v₁.phase t from update_of_ne ht .., hdoes.phase]
        exact hv
    · rw [hphase]
      exact hv
  exact (run_preserves hkeep (.inl rfl) h :)

theorem ended_of_step {a : ServiceAction} {v' : Service} {path : Path} {reply : Option Bytes}
    (hstep : Service.step rt toml queries v a = some v') (h : v.phase t = .ended path reply) :
    v'.phase t = .ended path reply := by
  obtain ⟨t', shard, move, v₁, cs, phase, rfl, hdoes, rfl⟩ | ⟨_, _, _, _, _, hphase⟩ := Service.step_cases hstep
  · have ht : t ≠ t' := by
      rintro rfl
      exact not_ended_of_does hdoes path reply h
    rw [show (v₁.goto t' shard cs phase).phase t = v₁.phase t from update_of_ne ht .., hdoes.phase, h]
  · rw [hphase, h]

/-- The worker has received a datagram that panics the decoder. -/
def Hit (arrivals : TaskId → Arrival) (acts : List Action) (i : ℕ) (t : TaskId) : Prop :=
  .receive i t ∈ acts ∧ fromBytes (arrivals t).query.req = panic

/-- What has become of the workers, and why. -/
structure Accounted (arrivals : TaskId → Arrival) (workers : ℕ) (acts : List Action) (w : State) : Prop where
  datagram : ∀ i t, .receive i t ∈ acts → (arrivals t).isDatagram = true
  serving : ∀ i t, w.worker i = .serving t → .receive i t ∈ acts
  ended : ∀ i < workers, w.worker i = .ended → .leave i ∈ acts ∨ ∃ t, Hit arrivals acts i t
  lost : ∀ i t, Hit arrivals acts i t →
    w.service.phase t = .ended .limited none ∨ w.worker i = .serving t ∨ w.worker i = .ended

theorem Hit.later {i : ℕ} (h : Hit arrivals acts i t) (a : Action) : Hit arrivals (acts ++ [a]) i t :=
  ⟨List.mem_append_left _ h.1, h.2⟩

/-- An action that is no reception hits no worker. -/
theorem Hit.before {i : ℕ} (h : Hit arrivals (acts ++ [a]) i t) (ha : a ≠ .receive i t) : Hit arrivals acts i t := by
  refine ⟨(List.mem_append.mp h.1).resolve_right fun hmem => ?_, h.2⟩
  exact ha (List.mem_singleton.mp hmem).symm

/-- One worker moves. -/
theorem Accounted.setWorker (h : Accounted arrivals workers acts w) {i : ℕ} {phase : WorkerPhase}
    {received : List TaskId}
    (hdatagram : ∀ j t, a = .receive j t → j = i ∧ phase = .serving t ∧ (arrivals t).isDatagram = true)
    (hserving : ∀ t, phase = .serving t → a = .receive i t)
    (hended : phase = .ended → a = .leave i ∨ ∃ t, Hit arrivals acts i t)
    (hlost : ∀ t, Hit arrivals acts i t → w.service.phase t = .ended .limited none ∨ phase = .ended) :
    Accounted arrivals workers (acts ++ [a]) { w.setWorker i phase with received := received } where
  datagram j t hmem := by
    obtain hmem | hmem := List.mem_append.mp hmem
    · exact h.datagram j t hmem
    · exact (hdatagram j t (List.mem_singleton.mp hmem).symm).2.2
  serving j t hphase := by
    by_cases hj : j = i
    · subst hj
      rw [hserving t ((setWorker_self w j phase).symm.trans hphase)]
      exact List.mem_append_right _ List.mem_cons_self
    · exact List.mem_append_left _ (h.serving j t ((setWorker_of_ne w hj phase).symm.trans hphase))
  ended j hworker hphase := by
    by_cases hj : j = i
    · subst hj
      obtain rfl | ⟨t, ht⟩ := hended ((setWorker_self w j phase).symm.trans hphase)
      · exact .inl (List.mem_append_right _ List.mem_cons_self)
      · exact .inr ⟨t, ht.later a⟩
    · obtain hleave | ⟨t, ht⟩ := h.ended j hworker ((setWorker_of_ne w hj phase).symm.trans hphase)
      · exact .inl (List.mem_append_left _ hleave)
      · exact .inr ⟨t, ht.later a⟩
  lost j t hhit := by
    by_cases ha : a = .receive j t
    · obtain ⟨rfl, hphase, _⟩ := hdatagram j t ha
      exact .inr (.inl ((setWorker_self w j phase).trans hphase))
    have hbefore := hhit.before ha
    by_cases hj : j = i
    · subst hj
      exact (hlost t hbefore).imp_right fun hphase => .inr ((setWorker_self w j phase).trans hphase)
    · obtain hlimited | hworker := h.lost j t hbefore
      · exact .inl hlimited
      · rw [← setWorker_of_ne w hj phase] at hworker
        exact .inr hworker

theorem query_udp {x : Arrival} (h : x.isDatagram = true) : x.query.transport = .udp := by
  cases x with
  | datagram => rfl
  | message => cases h

theorem Accounted.step (hcache : r.state.cache.map = ∅)
    (hrun : run (step rt toml arrivals) (init r workers) acts = some w) (h : Accounted arrivals workers acts w)
    (hstep : w.step rt toml arrivals a = some w') : Accounted arrivals workers (acts ++ [a]) w' := by
  have hservice := service_of_run hrun
  cases step_eq_some.mp hstep with
  | @receive i t hworker harrival hnew =>
    refine h.setWorker ?_ ?_ nofun fun t' hhit => ?_
    · rintro j t' heq
      obtain ⟨rfl, rfl⟩ := Action.receive.inj heq
      exact ⟨rfl, rfl, harrival⟩
    · rintro t' heq
      rw [WorkerPhase.serving.inj heq]
    · obtain hlimited | hserving | hended := h.lost i t' hhit
      · exact .inl hlimited
      · cases hworker.symm.trans hserving
      · cases hworker.symm.trans hended
  | @act a service hreceived hact =>
    have hmem : ∀ {b : Action}, b ∈ acts ++ [.act a] → (∀ a, b ≠ .act a) → b ∈ acts := by
      intro b hb hne
      exact (List.mem_append.mp hb).resolve_right fun hlast => hne a (List.mem_singleton.mp hlast)
    refine ⟨fun i t hm => h.datagram i t (hmem hm nofun), fun i t hphase => List.mem_append_left _ (h.serving i t hphase),
      fun i hi hphase => ?_, fun i t hhit => ?_⟩
    · exact (h.ended i hi hphase).imp (List.mem_append_left _) fun ⟨t, ht⟩ => ⟨t, ht.later _⟩
    · exact (h.lost i t (hhit.before nofun)).imp_left fun hlimited => ended_of_step hact hlimited
  | @next i t hworker hreturned =>
    refine h.setWorker nofun nofun nofun fun t' hhit => ?_
    obtain hlimited | hserving | hended := h.lost i t' hhit
    · exact .inl hlimited
    · obtain rfl := WorkerPhase.serving.inj (hworker.symm.trans hserving)
      have hudp := query_udp (h.datagram i t hhit.1)
      exact .inl ((unreadable_of_run hudp hhit.2 hservice).returned hreturned)
    · cases hworker.symm.trans hended
  | @unwind i t hworker hreturned =>
    refine h.setWorker nofun nofun (fun _ => .inr ⟨t, h.serving i t hworker, ?_⟩) fun _ _ => .inr rfl
    obtain ⟨path, hphase, hlimited, hgarbled⟩ := panicked_of_returned hreturned
    obtain rfl | rfl | hpanic := (Service.contained_of_run hcache hservice).silent t path hphase
    · exact absurd rfl hlimited
    · exact absurd rfl hgarbled
    · exact hpanic
  | @leave i hworker => exact h.setWorker nofun nofun (fun _ => .inl rfl) fun _ _ => .inr rfl

theorem accounted_of_run (hcache : r.state.cache.map = ∅)
    (h : run (step rt toml arrivals) (init r workers) acts = some w) : Accounted arrivals workers acts w := by
  have hstart : Accounted arrivals workers [] (init r workers) := by
    refine ⟨nofun, fun i t hphase => ?_, fun i hi hphase => ?_, fun i t hhit => absurd hhit.1 List.not_mem_nil⟩
    · simp only [init] at hphase
      split at hphase <;> cases hphase
    · cases (if_pos hi).symm.trans hphase
  exact run_history (fun _ _ _ _ hrun haccounted => haccounted.step hcache hrun) hstart h

end Steps

/-- **A worker falls to a datagram that panics the decoder, and to nothing else that is sent to it.** On a server
that `run_server` has started, in every interleaving of the workers with the rest of the server, a worker that
has ended was left by its socket or has received a datagram whose first 1232 bytes panic the decoder. A worker
that has received one has ended or is about to, unless the datagram was over the limit. -/
theorem workers_lost_to_panics (rt : Runtime) (toml : Text → Option Settings) (files : Files) (args : Args)
    (keyPair : Option (Bytes × Bytes)) (r : Running) (hstart : runServer rt toml files args keyPair = ok r)
    (workers : ℕ) (arrivals : TaskId → Arrival) (acts : List Action) (w : State)
    (hrun : run (step rt toml arrivals) (init r workers) acts = some w) (i : ℕ) (hi : i < workers) :
    (w.worker i = .ended →
      .leave i ∈ acts ∨ ∃ t, .receive i t ∈ acts ∧ fromBytes (arrivals t).query.req = panic) ∧
    ∀ t, .receive i t ∈ acts → fromBytes (arrivals t).query.req = panic →
      w.service.phase t = .ended .limited none ∨ w.worker i = .serving t ∨ w.worker i = .ended := by
  have hcache : r.state.cache.map = ∅ := by
    obtain ⟨settings, _, hbuilt⟩ := builtFrom_of_runServer hstart
    rw [hbuilt.cache]
    rfl
  have haccounted := accounted_of_run hcache hrun
  exact ⟨haccounted.ended i hi, fun t hreceive hpanic => haccounted.lost i t ⟨hreceive, hpanic⟩⟩

/-- A worker is sent one datagram that panics the decoder. -/
def kill (i : ℕ) : List Action :=
  [.receive i i, .act (.call i firstShard .arrive), .act (.call i firstShard (.accept 0)), .unwind i]

/-- Two datagrams that end two workers, and a query that is never read. -/
def strayArrivals (t : TaskId) : Arrival :=
  if t < 2 then .datagram strayNsec (letterClient (UInt8.ofNat t)) else .datagram (letterQuery 1 97) (letterClient 9)

theorem workers_lost_to_panics_stray : ∃ r w, runServer .ascii ruleConfig (oneFile '0') ruleArgs none = ok r ∧
    run (step .ascii ruleConfig strayArrivals) (init r 2) (kill 0) = some w ∧ w.worker 0 = .ended ∧
    (.leave 0 ∈ kill 0 ∨ ∃ t, .receive 0 t ∈ kill 0 ∧ fromBytes (strayArrivals t).query.req = panic) := by
  have hrun : ((runServer .ascii ruleConfig (oneFile '0') ruleArgs none).toOption.bind fun r =>
      (run (step .ascii ruleConfig strayArrivals) (init r 2) (kill 0)).map fun w => w.worker 0) = some .ended := by
    decide
  obtain ⟨r, hr, hrun⟩ := Option.bind_eq_some_iff.mp hrun
  obtain ⟨w, hrun, hended⟩ := Option.map_eq_some_iff.mp hrun
  have hstart := eq_ok_of_toOption hr
  exact ⟨r, w, hstart, hrun, hended, (workers_lost_to_panics .ascii ruleConfig (oneFile '0') ruleArgs none r hstart 2
    strayArrivals (kill 0) w hrun 0 Nat.two_pos).1 hended⟩

/-! ## A server without workers -/

section Silence
variable {rt : Runtime} {toml : Text → Option Settings} {arrivals : TaskId → Arrival} {r : Running} {w w' : State}
  {a : Action} {client : ℕ → IpAddr} {workers k : ℕ}

/-- The first workers have fallen, and nothing is known of the clients of the others. -/
structure Fallen (client : ℕ → IpAddr) (workers k : ℕ) (w : State) : Prop where
  ended : ∀ i < k, w.worker i = .ended
  idle : ∀ i, k ≤ i → i < workers → w.worker i = .idle
  absent : ∀ i, workers ≤ i → w.worker i = .ended
  fresh : ∀ t, k ≤ t → w.service.phase t = .start ∧ t ∉ w.received
  unknown : ∀ i, k ≤ i → i < workers → w.service.state.limiter.clients.lookup (client i) = none

theorem fromBytes_strayNsec : fromBytes (strayNsec.take bufferLen) = panic := by
  decide

theorem allow_unknown {l : RateLimiter} {ip : IpAddr} (h : l.clients.lookup ip = none) (now : Instant) :
    (l.allow now ip).1 = true := by
  unfold RateLimiter.allow
  split
  · rfl
  · rename_i hmax
    have hwindow : l.currentWindow now ip = ⟨now, 0⟩ := by
      rw [RateLimiter.currentWindow, h]
      exact ite_self _
    rw [hwindow]
    have hone : (0 : UInt32) + 1 ≤ l.maxPerWindow := by
      rw [UInt32.le_iff_toNat_le]
      have hne : l.maxPerWindow.toNat ≠ 0 := fun hzero => hmax (UInt32.toNat_inj.mp hzero)
      exact Nat.pos_of_ne_zero hne
    exact decide_eq_true hone

theorem lookup_allow {l : RateLimiter} {ip ip' : IpAddr} (hne : ip' ≠ ip) (now : Instant) :
    (l.allow now ip).2.clients.lookup ip' = l.clients.lookup ip' := by
  unfold RateLimiter.allow
  split
  · rfl
  · exact AList.lookup_insert_ne hne

/-- The steps of the service that a datagram takes which panics the decoder. -/
theorem crashes_of_panic {queries : TaskId → Query} {v : Service} {t : TaskId} (hstart : v.phase t = .start)
    (hudp : (queries t).transport = .udp) (hpanic : fromBytes (queries t).req = panic) {limiter : RateLimiter}
    (hallow : v.state.limiter.allow 0 (queries t).client = (true, limiter)) :
    v.step rt toml queries (.call t firstShard .arrive) = some (v.goto t firstShard [] .entered) ∧
      (v.goto t firstShard [] .entered).step rt toml queries (.call t firstShard (.accept 0)) =
        some (((v.goto t firstShard [] .entered).withLimiter limiter).goto t firstShard [.total]
          (.ended .crashed none)) := by
  constructor
  · simp [Service.step, Service.callStep, Service.arrive, hstart, hudp]
  · have hentered : (v.goto t firstShard [] .entered).phase t = .entered := update_self ..
    have hstate : (v.goto t firstShard [] .entered).state = v.state := rfl
    simp [Service.step, Service.callStep, Service.accept, hentered, hstate, hallow, hpanic]

theorem Fallen.kill (h : Fallen client workers k w) (hk : k < workers)
    (harrival : arrivals k = .datagram strayNsec (client k))
    (hdistinct : ∀ j, k < j → j < workers → client j ≠ client k) :
    ∃ w', run (step rt toml arrivals) w (kill k) = some w' ∧ Fallen client workers (k + 1) w' := by
  obtain ⟨hstart, hnew⟩ := h.fresh k le_rfl
  have hquery : (arrivals k).query = ⟨strayNsec.take bufferLen, client k, .udp⟩ := by rw [harrival]; rfl
  have hallow := allow_unknown (h.unknown k le_rfl hk) 0
  obtain ⟨harrive, haccept⟩ := @crashes_of_panic rt toml (fun t => (arrivals t).query) w.service k hstart
    (by rw [hquery]) (by rw [hquery]; exact fromBytes_strayNsec) (w.service.state.limiter.allow 0 (client k)).2
    (by rw [hquery]; exact Prod.ext hallow rfl)
  have hdatagram : (arrivals k).isDatagram = true := by rw [harrival]; rfl
  have hreceived : ∀ t, callOf (.call k firstShard .arrive) = some t → t ∈ k :: w.received := by
    rintro t ⟨⟩
    exact List.mem_cons_self
  have hcrashed : (((w.service.goto k firstShard [] .entered).withLimiter
      (w.service.state.limiter.allow 0 (client k)).2).goto k firstShard [.total] (.ended .crashed none)).phase k =
      .ended .crashed none := update_self ..
  refine ⟨_, run_cons.mpr ⟨_, step_eq_some.mpr (.receive (h.idle k le_rfl hk) hdatagram hnew),
    run_cons.mpr ⟨_, step_eq_some.mpr (.act (fun t ht _ => hreceived t ht) harrive),
    run_cons.mpr ⟨_, step_eq_some.mpr (.act (fun t ht _ => hreceived t ht) haccept),
    run_cons.mpr ⟨_, step_eq_some.mpr (.unwind (setWorker_self ..) (by rw [hcrashed]; rfl)), rfl⟩⟩⟩⟩, ?_⟩
  refine ⟨fun i hi => ?_, fun i hle hi => ?_, fun i hi => ?_, fun t ht => ⟨?_, ?_⟩, fun i hle hi => ?_⟩
  · by_cases hik : i = k
    · subst hik
      exact setWorker_self ..
    · have hlt : i < k := by omega
      exact (setWorker_of_ne _ hik _).trans ((setWorker_of_ne _ hik _).trans (h.ended i hlt))
  · have hik : i ≠ k := by omega
    exact (setWorker_of_ne _ hik _).trans ((setWorker_of_ne _ hik _).trans (h.idle i (Nat.le_of_succ_le hle) hi))
  · have hik : i ≠ k := by omega
    exact (setWorker_of_ne _ hik _).trans ((setWorker_of_ne _ hik _).trans (h.absent i hi))
  · have htk : t ≠ k := by omega
    exact (update_of_ne htk ..).trans ((update_of_ne htk ..).trans (h.fresh t (Nat.le_of_succ_le ht)).1)
  · intro hmem
    obtain rfl | hmem := List.mem_cons.mp hmem
    · exact absurd ht (Nat.not_succ_le_self t)
    · exact (h.fresh t (Nat.le_of_succ_le ht)).2 hmem
  · exact (lookup_allow (hdistinct i hle hi) 0).trans (h.unknown i (Nat.le_of_succ_le hle) hi)

/-- Without workers, a datagram that was not received never is. -/
structure Silent (arrivals : TaskId → Arrival) (workers : ℕ) (w : State) : Prop where
  ended : ∀ i, w.worker i = .ended
  unseen : ∀ t, (arrivals t).isDatagram = true → workers ≤ t → w.service.phase t = .start ∧ t ∉ w.received

theorem Silent.step (h : Silent arrivals workers w) (hstep : w.step rt toml arrivals a = some w') :
    Silent arrivals workers w' := by
  cases step_eq_some.mp hstep with
  | receive hworker => cases hworker.symm.trans (h.ended _)
  | next hworker => cases hworker.symm.trans (h.ended _)
  | unwind hworker => cases hworker.symm.trans (h.ended _)
  | leave hworker => cases hworker.symm.trans (h.ended _)
  | @act a service hreceived hact =>
    refine ⟨h.ended, fun t ht hle => ⟨?_, (h.unseen t ht hle).2⟩⟩
    obtain ⟨t', shard, move, v₁, cs, phase, rfl, hdoes, rfl⟩ | ⟨_, _, _, _, _, hphase⟩ := Service.step_cases hact
    · have hne : t ≠ t' := by
        rintro rfl
        exact (h.unseen t ht hle).2 (hreceived t rfl ht)
      refine (update_of_ne hne ..).trans ?_
      rw [hdoes.phase]
      exact (h.unseen t ht hle).1
    · exact (congrFun hphase t).trans (h.unseen t ht hle).1

end Silence

end State
end Udp
end MiniDns
