import MiniDns.Lib.Ranking
import MiniDns.Runtime

/-! How the server stops. A signal sets the flag that `/healthz` reads and then wakes the listeners through a
watch channel; `run` waits for the TCP listener, then for the UDP workers and no longer than the grace period,
and returns. Everything that still runs then is cut off with the runtime. -/
namespace MiniDns
open Lib Function
set_option autoImplicit false

namespace Shutdown

/-! ## Tasks -/

/-- The tasks that hold a receiver of the channel: a UDP worker for each core, the other listeners, and the two
that run from time to time. -/
inductive ListenerId where
  | udp (worker : ℕ)
  | tcp
  | dot
  | doh
  | doq
  | metrics
  | reporter
  | cleanup
  deriving DecidableEq, Repr

/-- A listener waits for its next event or for the channel. A UDP worker does not look at the channel while
it answers a datagram. -/
inductive ListenerPhase where
  | absent
  | waiting
  | busy
  | stopped
  | failed
  deriving DecidableEq, Repr

def ListenerPhase.ended : ListenerPhase → Bool
  | .stopped | .failed => true
  | _ => false

/-- The signal handler: it stores the flag, and then sends and drops the sender. A handler that cannot be
installed panics, which drops the sender too. -/
inductive SignalPhase where
  | waiting
  | flagged
  | ended
  | panicked
  deriving DecidableEq, Repr

/-- `run`: it serves TCP, waits for the workers in their order, and has returned, with the moment at which it
began to wait or with the error of the TCP listener. -/
inductive MainPhase where
  | serving
  | draining (since : Instant) (handles : List ℕ)
  | returned (since : Option Instant)
  deriving DecidableEq, Repr

structure State where
  workers : ℕ
  signal : SignalPhase
  shuttingDown : Bool
  /-- `true` was sent, or the sender was dropped: `changed()` returns to every receiver. -/
  changed : Bool
  listener : ListenerId → ListenerPhase
  /-- The tasks of connections and of forwarded datagrams. -/
  queries : List ℕ
  main : MainPhase
  now : Instant

inductive Action where
  | store
  | send
  | panic
  | accept (l : ListenerId) (query : ℕ)
  | receive (worker : ℕ)
  | reply (worker : ℕ)
  | finish (query : ℕ)
  | stop (l : ListenerId)
  | fail (l : ListenerId)
  | drain
  | join
  | elapse
  | tick (d : Instant)

/-- The steps of the shutdown alone: no query and no clock moves. -/
def Action.stopping : Action → Bool
  | .stop _ | .drain | .join => true
  | _ => false

def shutdownGrace : Instant := fromSecs 5

/-- The listeners of a configuration with this many workers. -/
def init (workers : ℕ) (present : ListenerId → Bool) : State where
  workers := workers
  signal := .waiting
  shuttingDown := false
  changed := false
  listener
    | .udp i => if i < workers then .waiting else .absent
    | .tcp => .waiting
    | l => if present l then .waiting else .absent
  queries := []
  main := .serving
  now := 0

def spawns : ListenerId → Bool
  | .reporter | .cleanup => false
  | _ => true

namespace State

def setListener (w : State) (l : ListenerId) (phase : ListenerPhase) : State :=
  { w with listener := update w.listener l phase }

@[simp] theorem setListener_self (w : State) (l : ListenerId) (phase : ListenerPhase) :
    (w.setListener l phase).listener l = phase := update_self ..

@[simp] theorem setListener_of_ne {l l' : ListenerId} (w : State) (h : l' ≠ l) (phase : ListenerPhase) :
    (w.setListener l phase).listener l' = w.listener l' := update_of_ne h ..

def returned (w : State) : Bool :=
  match w.main with
  | .returned _ => true
  | _ => false

def step (w : State) (a : Action) : Option State :=
  -- when `run` has returned there is no runtime
  if w.returned then none
  else
    match a with
    | .store => if w.signal = .waiting then some { w with signal := .flagged, shuttingDown := true } else none
    | .send => if w.signal = .flagged then some { w with signal := .ended, changed := true } else none
    | .panic => if w.signal = .waiting then some { w with signal := .panicked, changed := true } else none
    | .accept l query =>
      if w.listener l = .waiting ∧ spawns l ∧ query ∉ w.queries then some { w with queries := query :: w.queries }
      else none
    | .receive worker =>
      if w.listener (.udp worker) = .waiting then some (w.setListener (.udp worker) .busy) else none
    | .reply worker =>
      if w.listener (.udp worker) = .busy then some (w.setListener (.udp worker) .waiting) else none
    | .finish query => if query ∈ w.queries then some { w with queries := w.queries.erase query } else none
    | .stop l => if w.listener l = .waiting ∧ w.changed then some (w.setListener l .stopped) else none
    | .fail l =>
      if w.listener l = .waiting ∨ w.listener l = .busy then some (w.setListener l .failed) else none
    | .drain =>
      match w.main, w.listener .tcp with
      | .serving, .stopped => some { w with main := .draining w.now (List.range w.workers) }
      | .serving, .failed => some { w with main := .returned none }
      | _, _ => none
    | .join =>
      match w.main with
      | .draining since [] => some { w with main := .returned (some since) }
      | .draining since (worker :: handles) =>
        if (w.listener (.udp worker)).ended then some { w with main := .draining since handles } else none
      | _ => none
    | .elapse =>
      match w.main with
      | .draining since (_ :: _) =>
        if since + shutdownGrace ≤ w.now then some { w with main := .returned (some since) } else none
      | _ => none
    | .tick d => some { w with now := w.now + d }

/-- What an action can do. -/
inductive Does (w : State) : Action → State → Prop
  | store (hsignal : w.signal = .waiting) : Does w .store { w with signal := .flagged, shuttingDown := true }
  | send (hsignal : w.signal = .flagged) : Does w .send { w with signal := .ended, changed := true }
  | panic (hsignal : w.signal = .waiting) : Does w .panic { w with signal := .panicked, changed := true }
  | accept {l : ListenerId} {query : ℕ} (hl : w.listener l = .waiting) :
      Does w (.accept l query) { w with queries := query :: w.queries }
  | receive {worker : ℕ} (hl : w.listener (.udp worker) = .waiting) :
      Does w (.receive worker) (w.setListener (.udp worker) .busy)
  | reply {worker : ℕ} (hl : w.listener (.udp worker) = .busy) :
      Does w (.reply worker) (w.setListener (.udp worker) .waiting)
  | finish {query : ℕ} (hquery : query ∈ w.queries) :
      Does w (.finish query) { w with queries := w.queries.erase query }
  | stop {l : ListenerId} (hl : w.listener l = .waiting) (hchanged : w.changed = true) :
      Does w (.stop l) (w.setListener l .stopped)
  | fail {l : ListenerId} (hl : w.listener l = .waiting ∨ w.listener l = .busy) :
      Does w (.fail l) (w.setListener l .failed)
  | drain (hmain : w.main = .serving) (htcp : w.listener .tcp = .stopped) :
      Does w .drain { w with main := .draining w.now (List.range w.workers) }
  | error (hmain : w.main = .serving) (htcp : w.listener .tcp = .failed) :
      Does w .drain { w with main := .returned none }
  | done {since : Instant} (hmain : w.main = .draining since []) :
      Does w .join { w with main := .returned (some since) }
  | join {since : Instant} {worker : ℕ} {handles : List ℕ} (hmain : w.main = .draining since (worker :: handles))
      (hended : (w.listener (.udp worker)).ended = true) : Does w .join { w with main := .draining since handles }
  | elapse {since : Instant} {worker : ℕ} {handles : List ℕ} (hmain : w.main = .draining since (worker :: handles))
      (hlate : since + shutdownGrace ≤ w.now) : Does w .elapse { w with main := .returned (some since) }
  | tick {d : Instant} : Does w (.tick d) { w with now := w.now + d }

section Steps
variable {w w' : State} {a : Action}

theorem does_of_step (h : w.step a = some w') : w.returned = false ∧ w.Does a w' := by
  obtain ⟨hreturned, h⟩ := Option.ite_none_left_eq_some.mp h
  refine ⟨Bool.eq_false_iff.mpr hreturned, ?_⟩
  cases a with
  | store =>
    obtain ⟨hsignal, ⟨⟩⟩ := Option.ite_none_right_eq_some.mp h
    exact .store hsignal
  | send =>
    obtain ⟨hsignal, ⟨⟩⟩ := Option.ite_none_right_eq_some.mp h
    exact .send hsignal
  | panic =>
    obtain ⟨hsignal, ⟨⟩⟩ := Option.ite_none_right_eq_some.mp h
    exact .panic hsignal
  | accept l query =>
    obtain ⟨hl, ⟨⟩⟩ := Option.ite_none_right_eq_some.mp h
    exact .accept hl.1
  | receive worker =>
    obtain ⟨hl, ⟨⟩⟩ := Option.ite_none_right_eq_some.mp h
    exact .receive hl
  | reply worker =>
    obtain ⟨hl, ⟨⟩⟩ := Option.ite_none_right_eq_some.mp h
    exact .reply hl
  | finish query =>
    obtain ⟨hquery, ⟨⟩⟩ := Option.ite_none_right_eq_some.mp h
    exact .finish hquery
  | stop l =>
    obtain ⟨hl, ⟨⟩⟩ := Option.ite_none_right_eq_some.mp h
    exact .stop hl.1 hl.2
  | fail l =>
    obtain ⟨hl, ⟨⟩⟩ := Option.ite_none_right_eq_some.mp h
    exact .fail hl
  | drain =>
    dsimp only at h
    split at h
    · rename_i hmain htcp
      obtain rfl := Option.some.inj h
      exact .drain hmain htcp
    · rename_i hmain htcp
      obtain rfl := Option.some.inj h
      exact .error hmain htcp
    · cases h
  | join =>
    dsimp only at h
    split at h
    · rename_i hmain
      obtain rfl := Option.some.inj h
      exact .done hmain
    · rename_i hmain
      obtain ⟨hended, ⟨⟩⟩ := Option.ite_none_right_eq_some.mp h
      exact .join hmain hended
    · cases h
  | elapse =>
    dsimp only at h
    split at h
    · rename_i hmain
      obtain ⟨hlate, ⟨⟩⟩ := Option.ite_none_right_eq_some.mp h
      exact .elapse hmain hlate
    · cases h
  | tick d =>
    obtain rfl := Option.some.inj h
    exact .tick

/-! ## The order of events -/

/-- What `run` has waited for. -/
def Drained (w : State) : Prop :=
  match w.main with
  | .serving => True
  | .draining since handles => w.listener .tcp = .stopped ∧ since ≤ w.now ∧
      ∀ i < w.workers, i ∉ handles → (w.listener (.udp i)).ended = true
  | .returned (some since) => w.listener .tcp = .stopped ∧
      ((∀ i < w.workers, (w.listener (.udp i)).ended = true) ∨ since + shutdownGrace ≤ w.now)
  | .returned none => w.listener .tcp = .failed

structure Orderly (w : State) : Prop where
  flagged : w.signal = .flagged ∨ w.signal = .ended → w.shuttingDown = true
  sent : w.changed = true → w.signal = .ended ∨ w.signal = .panicked
  stopped : ∀ l, w.listener l = .stopped → w.changed = true
  drained : w.Drained

theorem drained_of_serving (h : w.main = .serving) : w.Drained := by
  rw [Drained, h]
  trivial

theorem Drained.draining {since : Instant} {handles : List ℕ} (h : w.Drained)
    (hmain : w.main = .draining since handles) :
    w.listener .tcp = .stopped ∧ since ≤ w.now ∧
      ∀ i < w.workers, i ∉ handles → (w.listener (.udp i)).ended = true := by
  rw [Drained, hmain] at h
  exact h

variable {l : ListenerId} {phase : ListenerPhase}

/-- A listener that moves is none of those that have ended. -/
theorem ended_setListener (hl : (w.listener l).ended = false) {l' : ListenerId} (h : (w.listener l').ended = true) :
    (w.setListener l phase).listener l' = w.listener l' := by
  refine setListener_of_ne w ?_ phase
  rintro rfl
  rw [hl] at h
  cases h

/-- While `run` has not returned, moves of the listeners and of the clock keep what it has waited for. -/
theorem Drained.mono (h : w.Drained) (hreturned : w.returned = false) (hmain : w'.main = w.main)
    (hworkers : w'.workers = w.workers) (hnow : w.now ≤ w'.now)
    (hkeep : ∀ l, (w.listener l).ended = true → w'.listener l = w.listener l) : w'.Drained := by
  cases hphase : w.main with
  | serving => exact drained_of_serving (hmain.trans hphase)
  | draining since handles =>
    obtain ⟨htcp, hsince, hjoined⟩ := h.draining hphase
    rw [Drained, hmain.trans hphase]
    refine ⟨(hkeep _ (by rw [htcp]; rfl)).trans htcp, hsince.trans hnow, fun i hi hnot => ?_⟩
    have hended := hjoined i (hworkers ▸ hi) hnot
    rw [hkeep _ hended]
    exact hended
  | returned since =>
    rw [State.returned, hphase] at hreturned
    cases hreturned

theorem Orderly.setListener (h : w.Orderly) (hreturned : w.returned = false) (hl : (w.listener l).ended = false)
    (hstop : phase = .stopped → w.changed = true) : (w.setListener l phase).Orderly where
  flagged := h.flagged
  sent := h.sent
  stopped l' hstopped := by
    by_cases hl' : l' = l
    · subst hl'
      rw [setListener_self] at hstopped
      exact hstop hstopped
    · rw [setListener_of_ne w hl'] at hstopped
      exact h.stopped l' hstopped
  drained := h.drained.mono hreturned rfl rfl le_rfl fun _ => ended_setListener hl

theorem Orderly.step (h : w.Orderly) (hstep : w.step a = some w') : w'.Orderly := by
  obtain ⟨hreturned, hdoes⟩ := does_of_step hstep
  cases hdoes with
  | store hsignal =>
    refine ⟨fun _ => rfl, fun hchanged => ?_, h.stopped, h.drained⟩
    obtain hended | hpanicked := h.sent hchanged
    · cases hsignal.symm.trans hended
    · cases hsignal.symm.trans hpanicked
  | send hsignal => exact ⟨fun _ => h.flagged (.inl hsignal), fun _ => .inl rfl, fun _ _ => rfl, h.drained⟩
  | panic hsignal => exact ⟨fun hdone => hdone.elim nofun nofun, fun _ => .inr rfl, fun _ _ => rfl, h.drained⟩
  | accept hl => exact ⟨h.flagged, h.sent, h.stopped, h.drained⟩
  | receive hl => exact h.setListener hreturned (by rw [hl]; rfl) nofun
  | reply hl => exact h.setListener hreturned (by rw [hl]; rfl) nofun
  | finish hquery => exact ⟨h.flagged, h.sent, h.stopped, h.drained⟩
  | stop hl hchanged => exact h.setListener hreturned (by rw [hl]; rfl) fun _ => hchanged
  | fail hl => exact h.setListener hreturned (by obtain hl | hl := hl <;> rw [hl] <;> rfl) nofun
  | drain hmain htcp =>
    exact ⟨h.flagged, h.sent, h.stopped, htcp, le_rfl, fun i hi hnot => absurd (List.mem_range.mpr hi) hnot⟩
  | error hmain htcp => exact ⟨h.flagged, h.sent, h.stopped, htcp⟩
  | done hmain =>
    obtain ⟨htcp, _, hjoined⟩ := h.drained.draining hmain
    exact ⟨h.flagged, h.sent, h.stopped, htcp, .inl fun i hi => hjoined i hi List.not_mem_nil⟩
  | @join since worker handles hmain hended =>
    obtain ⟨htcp, hsince, hjoined⟩ := h.drained.draining hmain
    refine ⟨h.flagged, h.sent, h.stopped, htcp, hsince, fun i hi hnot => ?_⟩
    by_cases heq : i = worker
    · exact heq ▸ hended
    · exact hjoined i hi fun hmem => (List.mem_cons.mp hmem).elim heq hnot
  | elapse hmain hlate =>
    obtain ⟨htcp, _, _⟩ := h.drained.draining hmain
    exact ⟨h.flagged, h.sent, h.stopped, htcp, .inr hlate⟩
  | tick =>
    exact ⟨h.flagged, h.sent, h.stopped,
      h.drained.mono hreturned rfl rfl (Nat.le_add_right ..) fun _ _ => rfl⟩

theorem orderly_init (workers : ℕ) (present : ListenerId → Bool) : (init workers present).Orderly where
  flagged h := h.elim nofun nofun
  sent := nofun
  stopped l h := by
    cases l <;> simp only [init] at h <;> (try split at h) <;> cases h
  drained := trivial

theorem orderly_of_run {workers : ℕ} {present : ListenerId → Bool} {as : List Action}
    (hrun : run State.step (init workers present) as = some w) : w.Orderly :=
  run_preserves (fun _ _ _ => Orderly.step) (orderly_init workers present) hrun

/-- The listeners that `run` waits for exist. -/
structure Staffed (w : State) : Prop where
  tcp : w.listener .tcp ≠ .absent ∧ w.listener .tcp ≠ .busy
  worker : ∀ i < w.workers, w.listener (.udp i) ≠ .absent
  handle : ∀ since handles, w.main = .draining since handles → ∀ i ∈ handles, i < w.workers

theorem Staffed.setListener (h : w.Staffed) (habsent : phase ≠ .absent) (hbusy : l = .tcp → phase ≠ .busy) :
    (w.setListener l phase).Staffed where
  tcp := by
    by_cases hl : l = .tcp
    · subst hl
      rw [setListener_self]
      exact ⟨habsent, hbusy rfl⟩
    · rw [setListener_of_ne w (Ne.symm hl)]
      exact h.tcp
  worker i hi := by
    by_cases hl : l = .udp i
    · subst hl
      rw [setListener_self]
      exact habsent
    · rw [setListener_of_ne w (Ne.symm hl)]
      exact h.worker i hi
  handle := h.handle

theorem Staffed.step (h : w.Staffed) (hstep : w.step a = some w') : w'.Staffed := by
  obtain ⟨_, hdoes⟩ := does_of_step hstep
  cases hdoes with
  | store | send | panic | accept | finish | tick => exact ⟨h.tcp, h.worker, h.handle⟩
  | receive | reply | stop | fail => exact h.setListener nofun nofun
  | error | done | elapse => exact ⟨h.tcp, h.worker, nofun⟩
  | drain =>
    refine ⟨h.tcp, h.worker, fun since handles hmain i hi => ?_⟩
    obtain ⟨rfl, rfl⟩ := MainPhase.draining.inj hmain
    exact List.mem_range.mp hi
  | join hmain =>
    refine ⟨h.tcp, h.worker, fun since handles hrest i hi => ?_⟩
    obtain ⟨rfl, rfl⟩ := MainPhase.draining.inj hrest
    exact h.handle _ _ hmain i (List.mem_cons_of_mem _ hi)

theorem staffed_init (workers : ℕ) (present : ListenerId → Bool) : (init workers present).Staffed where
  tcp := ⟨nofun, nofun⟩
  worker i hi := by
    rw [show (init workers present).listener (.udp i) = .waiting from if_pos hi]
    nofun
  handle := nofun

/-- How far `run` is from its end. -/
def rank (w : State) : ℕ :=
  match w.main with
  | .serving => 2 * w.workers + 3 + if w.listener .tcp = .waiting then 1 else 0
  | .draining _ [] => 1
  | .draining _ (worker :: handles) => 2 * handles.length + 3 + if w.listener (.udp worker) = .waiting then 1 else 0
  | .returned _ => 0

theorem rank_le_of_draining {since : Instant} {handles : List ℕ} (h : w.main = .draining since handles) :
    w.rank ≤ 2 * handles.length + 2 := by
  rw [rank, h]
  cases handles with
  | nil => exact Nat.le_succ 1
  | cons worker handles =>
    dsimp only [List.length_cons]
    split <;> omega

/-- A shutdown that nothing but queries is left in. -/
structure Stopping (w : State) : Prop where
  staffed : w.Staffed
  orderly : w.Orderly
  changed : w.changed = true
  tcp : w.listener .tcp ≠ .failed
  idle : ∀ i < w.workers, w.listener (.udp i) ≠ .busy

theorem Stopping.stop (h : w.Stopping) (hreturned : w.returned = false) (hl : w.listener l = .waiting) :
    w.step (.stop l) = some (w.setListener l .stopped) ∧ (w.setListener l .stopped).Stopping := by
  have hstep : w.step (.stop l) = some (w.setListener l .stopped) := by
    rw [State.step, if_neg (by rw [hreturned]; nofun)]
    exact if_pos ⟨hl, h.changed⟩
  refine ⟨hstep, h.staffed.step hstep, h.orderly.step hstep, h.changed, ?_, fun i hi => ?_⟩
  · by_cases htcp : ListenerId.tcp = l
    · rw [htcp, setListener_self]
      nofun
    · rw [setListener_of_ne w htcp]
      exact h.tcp
  · by_cases hi' : ListenerId.udp i = l
    · rw [hi', setListener_self]
      nofun
    · rw [setListener_of_ne w hi']
      exact h.idle i hi

/-- `run` goes on by itself. -/
theorem Stopping.progress (h : w.Stopping) (hmain : ∀ since, w.main ≠ .returned (some since)) :
    ∃ a w', a.stopping = true ∧ w.step a = some w' ∧
      (w'.Stopping ∧ w'.queries = w.queries ∧ w'.now = w.now) ∧ w'.rank < w.rank := by
  have hmove : ∀ {phase}, w.step .drain = some { w with main := phase } ∨ w.step .join = some { w with main := phase } →
      (Stopping { w with main := phase }) := by
    rintro phase (hstep | hstep) <;>
      exact ⟨h.staffed.step hstep, h.orderly.step hstep, h.changed, h.tcp, h.idle⟩
  cases hphase : w.main with
  | serving =>
    have hreturned : w.returned = false := by rw [returned, hphase]
    cases htcp : w.listener .tcp with
    | absent => exact absurd htcp h.staffed.tcp.1
    | busy => exact absurd htcp h.staffed.tcp.2
    | failed => exact absurd htcp h.tcp
    | waiting =>
      obtain ⟨hstep, hnext⟩ := h.stop hreturned htcp
      refine ⟨_, _, rfl, hstep, ⟨hnext, rfl, rfl⟩, ?_⟩
      simp [rank, hphase, htcp, show (w.setListener .tcp .stopped).main = _ from hphase,
        show (w.setListener .tcp .stopped).workers = w.workers from rfl]
    | stopped =>
      have hstep : w.step .drain = some { w with main := .draining w.now (List.range w.workers) } := by
        simp only [State.step, hreturned, hphase, htcp]
        rfl
      refine ⟨_, _, rfl, hstep, ⟨hmove (.inl hstep), rfl, rfl⟩, ?_⟩
      refine lt_of_le_of_lt (rank_le_of_draining rfl) ?_
      simp [rank, hphase, htcp]
  | draining since handles =>
    have hreturned : w.returned = false := by rw [returned, hphase]
    cases handles with
    | nil =>
      have hstep : w.step .join = some { w with main := .returned (some since) } := by
        simp only [State.step, hreturned, hphase]
        rfl
      refine ⟨_, _, rfl, hstep, ⟨hmove (.inr hstep), rfl, rfl⟩, ?_⟩
      simp [rank, hphase]
    | cons worker handles =>
      have hworker := h.staffed.handle _ _ hphase worker List.mem_cons_self
      by_cases hended : (w.listener (.udp worker)).ended = true
      · have hstep : w.step .join = some { w with main := .draining since handles } := by
          simp only [State.step, hreturned, hphase, hended]
          rfl
        refine ⟨_, _, rfl, hstep, ⟨hmove (.inr hstep), rfl, rfl⟩, ?_⟩
        refine lt_of_le_of_lt (rank_le_of_draining rfl) ?_
        simp only [rank, hphase]
        omega
      · have hwaiting : w.listener (.udp worker) = .waiting := by
          cases hl : w.listener (.udp worker) with
          | waiting => rfl
          | absent => exact absurd hl (h.staffed.worker worker hworker)
          | busy => exact absurd hl (h.idle worker hworker)
          | stopped | failed =>
            rw [hl] at hended
            exact absurd rfl hended
        obtain ⟨hstep, hnext⟩ := h.stop hreturned hwaiting
        refine ⟨_, _, rfl, hstep, ⟨hnext, rfl, rfl⟩, ?_⟩
        simp [rank, hphase, hwaiting, show (w.setListener (.udp worker) .stopped).main = _ from hphase]
  | returned since =>
    cases since with
    | some since => exact absurd hphase (hmain since)
    | none =>
      have hdrained := h.orderly.drained
      rw [Drained, hphase] at hdrained
      exact absurd hdrained h.tcp

/-- **The grace period is not one for queries.** From every reachable state of a shutdown in which no UDP worker
is in the middle of a datagram, `run` can return at once: its own steps and those of the listeners lead to its
end, while no time passes and every query that was in flight still is. -/
theorem returns_with_queries_in_flight (workers : ℕ) (present : ListenerId → Bool) (as : List Action) (w : State)
    (hrun : run State.step (init workers present) as = some w) (hchanged : w.changed = true)
    (htcp : w.listener .tcp ≠ .failed) (hidle : ∀ i < w.workers, w.listener (.udp i) ≠ .busy) :
    ∃ more w', (∀ a ∈ more, a.stopping = true) ∧ run State.step w more = some w' ∧
      (∃ since, w'.main = .returned (some since)) ∧ w'.queries = w.queries ∧ w'.now = w.now := by
  have hstaffed : w.Staffed := run_preserves (fun _ _ _ => Staffed.step) (staffed_init workers present) hrun
  have hstopping : w.Stopping := ⟨hstaffed, orderly_of_run hrun, hchanged, htcp, hidle⟩
  have hreach := @reaches_of_rank _ _ State.step w
    (fun v => v.Stopping ∧ v.queries = w.queries ∧ v.now = w.now)
    (fun v => (∃ since, v.main = .returned (some since)) ∧ v.queries = w.queries ∧ v.now = w.now)
    (fun a => a.stopping = true) rank
  refine hreach ?_ ⟨hstopping, rfl, rfl⟩
  rintro v ⟨hv, hqueries, hnow⟩ hgoal
  obtain ⟨a, v', ha, hstep, ⟨hv', hqueries', hnow'⟩, hlt⟩ :=
    hv.progress fun since hmain => hgoal ⟨⟨since, hmain⟩, hqueries, hnow⟩
  exact ⟨a, v', ha, hstep, ⟨hv', hqueries'.trans hqueries, hnow'.trans hnow⟩, hlt⟩

/-- A TCP query is accepted, and the signal arrives before it is answered. -/
theorem returns_with_queries_in_flight_one : ∃ w, run State.step (init 1 fun _ => false)
      [.accept .tcp 7, .store, .send] = some w ∧ w.queries = [7] ∧
    ∃ more w', (∀ a ∈ more, a.stopping = true) ∧ run State.step w more = some w' ∧
      (∃ since, w'.main = .returned (some since)) ∧ w'.queries = w.queries ∧ w'.now = w.now := by
  refine ⟨_, rfl, rfl, returns_with_queries_in_flight 1 (fun _ => false) [.accept .tcp 7, .store, .send] _ rfl rfl ?_ ?_⟩
  · exact nofun
  · intro i hi
    rw [Nat.lt_one_iff.mp hi]
    exact nofun

end Steps
end State
end Shutdown
end MiniDns
