import MiniDns.Lib.Pool
import MiniDns.Lib.Runs
import MiniDns.Lib.Tally
import MiniDns.Forwarder

/-! Permits and sockets of concurrent calls of `Forwarder::forward`. A call takes a permit, then a socket from the
pool; if the pool is empty it creates one, which takes time. It gives the socket back or drops it before it
releases the permit, and other calls may run between any two of these steps. -/
namespace MiniDns
open Lib Function
set_option autoImplicit false

/-! ## Calls over the pool -/

/-- A socket, by its number in the order of creation: no two sockets have the same. -/
abbrev Socket := ℕ

inductive CallPhase where
  | waiting
  | permitted
  | creating
  | querying (socket : Socket)
  | releasing
  | done
  deriving DecidableEq, Repr

namespace CallPhase

def socket : CallPhase → Option Socket
  | .querying socket => some socket
  | _ => none

/-- A socket is held or being created. -/
def occupies : CallPhase → Bool
  | .creating | .querying _ => true
  | _ => false

def holdsPermit : CallPhase → Bool
  | .permitted | .creating | .querying _ | .releasing => true
  | _ => false

end CallPhase

/-- The free permits, the pool with the socket that was returned last in front, the calls, and how many sockets
were created. -/
structure SocketPool where
  permits : ℕ
  pool : List Socket
  phase : TaskId → CallPhase
  created : ℕ

inductive PoolAction where
  | acquire (t : TaskId)
  | checkout (t : TaskId)
  | create (t : TaskId)
  | succeed (t : TaskId)
  | fail (t : TaskId)
  | cancel (t : TaskId)
  | release (t : TaskId)
  deriving DecidableEq, Repr

namespace SocketPool

def withConcurrency (maxConcurrent : ℕ) : SocketPool := ⟨max maxConcurrent 1, [], fun _ => .waiting, 0⟩

def setPhase (w : SocketPool) (t : TaskId) (phase : CallPhase) : SocketPool :=
  { w with phase := update w.phase t phase }

/-- One atomic step. -/
def step (queries : TaskId → Bytes) (w : SocketPool) : PoolAction → Option SocketPool
  | .acquire t =>
    match w.phase t with
    | .waiting =>
      if (queries t).length < 2 then some (w.setPhase t .done)
      else if 0 < w.permits then some { w.setPhase t .permitted with permits := w.permits - 1 }
      else none
    | _ => none
  | .checkout t =>
    match w.phase t with
    | .permitted =>
      match w.pool with
      | socket :: pool => some { w.setPhase t (.querying socket) with pool := pool }
      | [] => some (w.setPhase t .creating)
    | _ => none
  | .create t =>
    match w.phase t with
    | .creating => some { w.setPhase t (.querying w.created) with created := w.created + 1 }
    | _ => none
  | .succeed t =>
    match w.phase t with
    | .querying socket => some { w.setPhase t .releasing with pool := socket :: w.pool }
    | _ => none
  | .fail t =>
    match w.phase t with
    -- `bind` or `connect` has failed, or the query
    | .creating | .querying _ => some (w.setPhase t .releasing)
    | _ => none
  | .cancel t =>
    match w.phase t with
    | .waiting => some (w.setPhase t .done)
    | .permitted | .creating | .querying _ => some (w.setPhase t .releasing)
    | _ => none
  | .release t =>
    match w.phase t with
    | .releasing => some { w.setPhase t .done with permits := w.permits + 1 }
    | _ => none

/-! ## What a step can do -/

inductive Moves (w : SocketPool) : SocketPool → Prop
  | leave {t : TaskId} : w.phase t = .waiting → Moves w (w.setPhase t .done)
  | acquire {t : TaskId} : w.phase t = .waiting → 0 < w.permits →
      Moves w { w.setPhase t .permitted with permits := w.permits - 1 }
  | reuse {t : TaskId} {socket : Socket} {pool : List Socket} : w.phase t = .permitted → w.pool = socket :: pool →
      Moves w { w.setPhase t (.querying socket) with pool := pool }
  | begin {t : TaskId} : w.phase t = .permitted → w.pool = [] → Moves w (w.setPhase t .creating)
  | create {t : TaskId} : w.phase t = .creating →
      Moves w { w.setPhase t (.querying w.created) with created := w.created + 1 }
  | giveBack {t : TaskId} {socket : Socket} : w.phase t = .querying socket →
      Moves w { w.setPhase t .releasing with pool := socket :: w.pool }
  | abandon {t : TaskId} : (w.phase t).holdsPermit = true → Moves w (w.setPhase t .releasing)
  | release {t : TaskId} : w.phase t = .releasing → Moves w { w.setPhase t .done with permits := w.permits + 1 }

variable {queries : TaskId → Bytes} {w w' : SocketPool} {a : PoolAction}

theorem moves_of_step (h : w.step queries a = some w') : Moves w w' := by
  cases a with
  | acquire t =>
    simp only [step] at h
    split at h
    · rename_i hphase
      split at h
      · obtain rfl := Option.some.inj h
        exact .leave hphase
      · split at h
        · rename_i hpermits
          obtain rfl := Option.some.inj h
          exact .acquire hphase hpermits
        · cases h
    · cases h
  | checkout t =>
    simp only [step] at h
    split at h
    · rename_i hphase
      split at h
      · rename_i hpool
        obtain rfl := Option.some.inj h
        exact .reuse hphase hpool
      · rename_i hpool
        obtain rfl := Option.some.inj h
        exact .begin hphase hpool
    · cases h
  | create t =>
    simp only [step] at h
    split at h
    · rename_i hphase
      obtain rfl := Option.some.inj h
      exact .create hphase
    · cases h
  | succeed t =>
    simp only [step] at h
    split at h
    · rename_i hphase
      obtain rfl := Option.some.inj h
      exact .giveBack hphase
    · cases h
  | fail t =>
    simp only [step] at h
    split at h
    · rename_i hphase
      obtain rfl := Option.some.inj h
      exact .abandon (by rw [hphase]; rfl)
    · rename_i hphase
      obtain rfl := Option.some.inj h
      exact .abandon (by rw [hphase]; rfl)
    · cases h
  | cancel t =>
    simp only [step] at h
    split at h
    · rename_i hphase
      obtain rfl := Option.some.inj h
      exact .leave hphase
    · rename_i hphase
      obtain rfl := Option.some.inj h
      exact .abandon (by rw [hphase]; rfl)
    · rename_i hphase
      obtain rfl := Option.some.inj h
      exact .abandon (by rw [hphase]; rfl)
    · rename_i hphase
      obtain rfl := Option.some.inj h
      exact .abandon (by rw [hphase]; rfl)
    · cases h
  | release t =>
    simp only [step] at h
    split at h
    · rename_i hphase
      obtain rfl := Option.some.inj h
      exact .release hphase
    · cases h

/-! ## How many sockets there are -/

/-- Every permit is free or with a call, and pooled and occupied sockets together are no more than permits. -/
structure Bounded (limit : ℕ) (w : SocketPool) : Prop where
  permits : w.permits + tally CallPhase.holdsPermit w.phase = limit
  sockets : w.pool.length + tally CallPhase.occupies w.phase ≤ limit

theorem holdsPermit_of_occupies (phase : CallPhase) (h : phase.occupies = true) : phase.holdsPermit = true := by
  cases phase <;> first | rfl | cases h

theorem bounded_withConcurrency (maxConcurrent : ℕ) :
    (withConcurrency maxConcurrent).Bounded (max maxConcurrent 1) where
  permits := by
    rw [tally_eq_zero fun _ => rfl]
    exact add_zero _
  sockets := by
    rw [tally_eq_zero fun _ => rfl]
    exact zero_le

section Kept
variable {limit : ℕ} {t : TaskId} {phase : CallPhase}

theorem Bounded.keep (h : w.Bounded limit) (hpermit : phase.holdsPermit = (w.phase t).holdsPermit)
    (hsocket : phase.occupies = (w.phase t).occupies) : (w.setPhase t phase).Bounded limit where
  permits := by
    rw [setPhase, tally_stay hpermit]
    exact h.permits
  sockets := by
    rw [setPhase, tally_stay hsocket]
    exact h.sockets

theorem Bounded.acquire (h : w.Bounded limit) (hphase : w.phase t = .waiting) (hfree : 0 < w.permits) :
    Bounded limit { w.setPhase t .permitted with permits := w.permits - 1 } where
  permits := by
    obtain ⟨n, hn⟩ := Nat.exists_eq_succ_of_ne_zero hfree.ne'
    have hpermits := h.permits
    rw [hn, Nat.cast_succ] at hpermits
    rw [setPhase, tally_enter (p := CallPhase.holdsPermit) (by rw [hphase]; rfl) rfl, hn, Nat.succ_sub_one, ← hpermits,
      add_assoc, add_comm 1]
  sockets := by
    rw [setPhase, tally_stay (p := CallPhase.occupies) (by rw [hphase]; rfl)]
    exact h.sockets

theorem Bounded.reuse (h : w.Bounded limit) {socket : Socket} {pool : List Socket} (hphase : w.phase t = .permitted)
    (hpool : w.pool = socket :: pool) : Bounded limit { w.setPhase t (.querying socket) with pool := pool } where
  permits := by
    rw [setPhase, tally_stay (p := CallPhase.holdsPermit) (by rw [hphase]; rfl)]
    exact h.permits
  sockets := by
    have hsockets := h.sockets
    rw [hpool, List.length_cons, Nat.cast_succ, add_assoc, add_comm 1] at hsockets
    rw [setPhase, tally_enter (p := CallPhase.occupies) (by rw [hphase]; rfl) rfl]
    exact hsockets

/-- The pool is empty when a call decides to create a socket, and each call that occupies one has a permit. -/
theorem Bounded.begin (h : w.Bounded limit) (hphase : w.phase t = .permitted) (hpool : w.pool = []) :
    (w.setPhase t .creating).Bounded limit := by
  have hpermits : tally CallPhase.holdsPermit (w.setPhase t .creating).phase = tally CallPhase.holdsPermit w.phase := by
    rw [setPhase, tally_stay (by rw [hphase]; rfl)]
  refine ⟨by rw [hpermits]; exact h.permits, ?_⟩
  calc ((w.setPhase t .creating).pool.length : ℕ∞) + tally CallPhase.occupies (w.setPhase t .creating).phase
      = tally CallPhase.occupies (w.setPhase t .creating).phase := by
        rw [setPhase, hpool, List.length_nil, Nat.cast_zero, zero_add]
    _ ≤ tally CallPhase.holdsPermit (w.setPhase t .creating).phase := tally_le_tally holdsPermit_of_occupies _
    _ ≤ limit := by
        rw [hpermits, ← h.permits]
        exact le_add_self

theorem Bounded.giveBack (h : w.Bounded limit) {socket : Socket} (hphase : w.phase t = .querying socket) :
    Bounded limit { w.setPhase t .releasing with pool := socket :: w.pool } where
  permits := by
    rw [setPhase, tally_stay (p := CallPhase.holdsPermit) (by rw [hphase]; rfl)]
    exact h.permits
  sockets := by
    have hsockets := h.sockets
    rw [← tally_leave (p := CallPhase.occupies) (t := t) (v := .releasing) (by rw [hphase]; rfl) rfl, add_comm _ 1,
      ← add_assoc] at hsockets
    rw [setPhase, List.length_cons, Nat.cast_succ]
    exact hsockets

theorem Bounded.abandon (h : w.Bounded limit) (hphase : (w.phase t).holdsPermit = true) :
    (w.setPhase t .releasing).Bounded limit where
  permits := by
    rw [setPhase, tally_stay (p := CallPhase.holdsPermit) (by rw [hphase]; rfl)]
    exact h.permits
  sockets :=
    (add_le_add le_rfl (tally_le (p := CallPhase.occupies) (v := .releasing) rfl)).trans h.sockets

theorem Bounded.release (h : w.Bounded limit) (hphase : w.phase t = .releasing) :
    Bounded limit { w.setPhase t .done with permits := w.permits + 1 } where
  permits := by
    have hpermits := h.permits
    rw [← tally_leave (p := CallPhase.holdsPermit) (t := t) (v := .done) (by rw [hphase]; rfl) rfl, add_comm _ 1,
      ← add_assoc] at hpermits
    rw [setPhase, Nat.cast_succ]
    exact hpermits
  sockets := by
    rw [setPhase, tally_stay (p := CallPhase.occupies) (by rw [hphase]; rfl)]
    exact h.sockets

theorem Bounded.step (h : w.Bounded limit) (hmoves : Moves w w') : w'.Bounded limit := by
  cases hmoves with
  | leave hphase => exact h.keep (by rw [hphase]; rfl) (by rw [hphase]; rfl)
  | acquire hphase hfree => exact h.acquire hphase hfree
  | reuse hphase hpool => exact h.reuse hphase hpool
  | begin hphase hpool => exact h.begin hphase hpool
  | create hphase =>
    have hkept : (w.setPhase _ (.querying w.created)).Bounded limit :=
      h.keep (by rw [hphase]; rfl) (by rw [hphase]; rfl)
    exact ⟨hkept.permits, hkept.sockets⟩
  | giveBack hphase => exact h.giveBack hphase
  | abandon hphase => exact h.abandon hphase
  | release hphase => exact h.release hphase

end Kept

/-! ## Whose socket it is -/

def sockets (w : SocketPool) : TaskId → Option Socket := CallPhase.socket ∘ w.phase

theorem sockets_of_update {t : TaskId} {phase : CallPhase} (h : w'.phase = update w.phase t phase) :
    w'.sockets = update w.sockets t phase.socket := by
  rw [sockets, h, comp_update, sockets]

/-- A socket is with one call, or in the pool, and every socket was created. -/
def OneOwner (w : SocketPool) : Prop := Exclusive w.sockets w.pool fun socket => decide (socket < w.created)

theorem oneOwner_of_update {t : TaskId} {phase : CallPhase} (h : w'.phase = update w.phase t phase)
    (howner : Exclusive (update w.sockets t phase.socket) w'.pool fun socket => decide (socket < w'.created)) :
    w'.OneOwner := by
  rw [← sockets_of_update h] at howner
  exact howner

theorem OneOwner.keep (h : w.OneOwner) {t : TaskId} {phase : CallPhase}
    (hsocket : phase.socket = w.sockets t) : (w.setPhase t phase).OneOwner := by
  apply oneOwner_of_update rfl
  rw [hsocket, update_eq_self]
  exact h

theorem created_succ (n : ℕ) :
    (fun socket => decide (socket < n + 1)) = update (fun socket => decide (socket < n)) n true := by
  funext socket
  by_cases hsocket : socket = n
  · subst hsocket
    simp
  · rw [update_of_ne hsocket]
    exact decide_eq_decide.mpr (by omega)

theorem OneOwner.step (h : w.OneOwner) (hmoves : Moves w w') : w'.OneOwner := by
  cases hmoves with
  | leave hphase => exact h.keep (by rw [sockets, comp_apply, hphase]; rfl)
  | acquire hphase _ =>
    have hkept : (w.setPhase _ .permitted).OneOwner := h.keep (by rw [sockets, comp_apply, hphase]; rfl)
    exact hkept
  | reuse hphase hpool =>
    unfold OneOwner at h
    rw [hpool] at h
    exact oneOwner_of_update rfl h.reuse
  | begin hphase _ => exact h.keep (by rw [sockets, comp_apply, hphase]; rfl)
  | create hphase =>
    apply oneOwner_of_update rfl
    dsimp only
    rw [created_succ]
    exact Exclusive.create h (by simp)
  | giveBack hphase =>
    exact oneOwner_of_update rfl (Exclusive.release h (by rw [sockets, comp_apply, hphase]; rfl))
  | @abandon t _ =>
    -- the call may have had a socket or none
    cases hsocket : w.sockets t with
    | none => exact h.keep hsocket.symm
    | some socket => exact oneOwner_of_update rfl (Exclusive.drop h hsocket)
  | release hphase =>
    have hkept : (w.setPhase _ .done).OneOwner := h.keep (by rw [sockets, comp_apply, hphase]; rfl)
    exact hkept

/-- A socket that was created and is neither held nor in the pool. -/
structure Retired (socket : Socket) (w : SocketPool) : Prop where
  created : socket < w.created
  pool : socket ∉ w.pool
  held : ∀ t, w.sockets t ≠ some socket

theorem Retired.keep {socket : Socket} (h : w.Retired socket) {t : TaskId} {phase : CallPhase}
    (hphase : w'.phase = update w.phase t phase) (hnew : phase.socket ≠ some socket)
    (hpool : socket ∉ w'.pool) (hcreated : w.created ≤ w'.created) : w'.Retired socket := by
  refine ⟨h.created.trans_le hcreated, hpool, fun t' hsocket => ?_⟩
  rw [sockets_of_update hphase] at hsocket
  obtain ⟨_, hsocket⟩ | ⟨_, hsocket⟩ := update_cases hsocket
  · exact hnew hsocket
  · exact h.held t' hsocket

theorem Retired.step {socket : Socket} (h : w.Retired socket) (hmoves : Moves w w') : w'.Retired socket := by
  cases hmoves with
  | @reuse t socket' pool _ hpool =>
    have hmem := h.pool
    rw [hpool, List.mem_cons, not_or] at hmem
    exact h.keep rfl (fun heq => hmem.1 (Option.some.inj heq).symm) hmem.2 le_rfl
  | create _ => exact h.keep rfl (fun heq => h.created.ne' (Option.some.inj heq)) h.pool (Nat.le_succ _)
  | @giveBack t socket' hphase =>
    refine h.keep rfl nofun ?_ le_rfl
    rw [List.mem_cons, not_or]
    refine ⟨?_, h.pool⟩
    rintro rfl
    exact h.held t (by rw [sockets, comp_apply, hphase]; rfl)
  | leave _ => exact h.keep rfl nofun h.pool le_rfl
  | acquire _ _ => exact h.keep rfl nofun h.pool le_rfl
  | begin _ _ => exact h.keep rfl nofun h.pool le_rfl
  | abandon _ => exact h.keep rfl nofun h.pool le_rfl
  | release _ => exact h.keep rfl nofun h.pool le_rfl

theorem retired_of_drop (h : w.OneOwner) {t : TaskId} {socket : Socket} (hphase : w.phase t = .querying socket) :
    (w.setPhase t .releasing).Retired socket := by
  have hheld : w.sockets t = some socket := by
    rw [sockets, comp_apply, hphase]
    rfl
  refine ⟨of_decide_eq_true (h.heldLive hheld), h.out hheld, fun t' hsocket => ?_⟩
  rw [sockets_of_update (w := w) rfl] at hsocket
  obtain ⟨_, hsocket⟩ | ⟨hne, hsocket⟩ := update_cases hsocket
  · cases hsocket
  · exact hne (h.holder hsocket hheld)

theorem invariant_of_run {maxConcurrent : ℕ} {acts : List PoolAction}
    (hrun : run (step queries) (withConcurrency maxConcurrent) acts = some w) :
    w.Bounded (max maxConcurrent 1) ∧ w.OneOwner := by
  have hbounded : w.Bounded (max maxConcurrent 1) :=
    run_preserves (fun _ _ _ h hstep => h.step (moves_of_step hstep)) (bounded_withConcurrency maxConcurrent) hrun
  have hempty : (withConcurrency maxConcurrent).OneOwner := exclusive_empty
  have howner : w.OneOwner := run_preserves (fun _ _ _ h hstep => h.step (moves_of_step hstep)) hempty hrun
  exact ⟨hbounded, howner⟩

/-- The calls that hold a socket or create one. -/
def occupied (w : SocketPool) : Set TaskId := { t | (w.phase t).occupies = true }

/-- **The pool is bounded**: in every run, pooled sockets and sockets that are held or being created are no more
than the concurrency limit, no socket has two owners, and a socket that was dropped is not seen again. -/
theorem socket_pool_bounded (queries : TaskId → Bytes) (maxConcurrent : ℕ) (acts : List PoolAction) (w : SocketPool)
    (hrun : run (step queries) (withConcurrency maxConcurrent) acts = some w) :
    w.pool.length + w.occupied.encard ≤ (max maxConcurrent 1 : ℕ) ∧
    (∀ t t' socket, w.sockets t = some socket → w.sockets t' = some socket → t = t') ∧
    (w.pool.Nodup ∧ ∀ t socket, w.sockets t = some socket → socket ∉ w.pool) ∧
    ∀ t socket a, w.phase t = .querying socket → a = .fail t ∨ a = .cancel t → ∀ more w',
      run (step queries) w (a :: more) = some w' → socket ∉ w'.pool ∧ ∀ t', w'.sockets t' ≠ some socket := by
  obtain ⟨hbounded, howner⟩ := invariant_of_run hrun
  refine ⟨hbounded.sockets, fun _ _ _ => howner.holder, ⟨howner.nodup, fun _ _ => howner.out⟩, ?_⟩
  intro t socket a hphase ha more w' hmore
  obtain ⟨m, hstep, hrest⟩ := run_cons.mp hmore
  have hdropped : m = w.setPhase t .releasing := by
    obtain rfl | rfl := ha <;> simp only [step, hphase, Option.some.injEq] at hstep <;> exact hstep.symm
  have hretired : w'.Retired socket :=
    run_preserves (fun _ _ _ h hstep => h.step (moves_of_step hstep)) (hdropped ▸ retired_of_drop howner hphase) hrest
  exact ⟨hretired.pool, hretired.held⟩

/-- The first call's query fails, and the second call creates a socket of its own. -/
theorem socket_pool_bounded_afterFailure : ∃ w,
    run (step fun _ => [0, 0]) (withConcurrency 1) [.acquire 0, .checkout 0, .create 0, .fail 0, .release 0, .acquire 1,
      .checkout 1, .create 1] = some w ∧
    w.sockets 1 = some 1 ∧ w.pool.length + w.occupied.encard ≤ 1 :=
  ⟨_, rfl, rfl, (socket_pool_bounded (fun _ => [0, 0]) 1 [.acquire 0, .checkout 0, .create 0, .fail 0, .release 0,
    .acquire 1, .checkout 1, .create 1] _ rfl).1⟩

end SocketPool

/-! ## The forwarder over its network -/

/-- How far a call of the forwarder has come with its permit and its socket. -/
def ForwardPhase.callPhase (socketOf : Port → Socket) : ForwardPhase → CallPhase
  | .start => .waiting
  | .permitted => .permitted
  | .holding port | .receiving port _ | .retrying port => .querying (socketOf port)
  | .returned _ | .relayed _ | .cancelled => .done

namespace Forwarder

/-- The pool of a forwarder, with a number for each bound port. -/
structure Projects (socketOf : Port → Socket) (w : Forwarder) (v : SocketPool) : Prop where
  permits : v.permits = w.permits
  pool : v.pool = w.pool.map socketOf
  phase : v.phase = ForwardPhase.callPhase socketOf ∘ w.phase

variable {rt : Runtime} {upstream : Bytes → Bytes → Bool} {calls : TaskId → ForwardCtx} {w w' : Forwarder}
  {a : ForwarderAction} {socketOf : Port → Socket} {v : SocketPool} {t : TaskId} {phase : ForwardPhase}

theorem Projects.phase_eq (h : Projects socketOf w v) (t : TaskId) : v.phase t = (w.phase t).callPhase socketOf := by
  rw [h.phase]
  rfl

theorem Projects.update_phase (h : Projects socketOf w v) (t : TaskId) (phase : ForwardPhase) :
    update v.phase t (phase.callPhase socketOf) = ForwardPhase.callPhase socketOf ∘ update w.phase t phase := by
  rw [h.phase, comp_update]

theorem Projects.querying (h : Projects socketOf w v) {port : Port} (hheld : (w.phase t).socket = some port) :
    v.phase t = .querying (socketOf port) := by
  rw [h.phase_eq]
  cases hold : w.phase t with
  | holding _ | receiving _ _ | retrying _ =>
    rw [hold] at hheld
    obtain rfl := Option.some.inj hheld
    rfl
  | _ =>
    rw [hold] at hheld
    cases hheld

/-- From `v` a run of the pool comes to where the forwarder is. -/
def Reaches (calls : TaskId → ForwardCtx) (v : SocketPool) (w : Forwarder) : Prop :=
  ∃ socketOf acts v', run (SocketPool.step fun t => (calls t).raw) v acts = some v' ∧ Projects socketOf w v'

/-- The step is one of the network only, or one within a query. -/
theorem Projects.keep (h : Projects socketOf w v) (hphase : phase.callPhase socketOf = (w.phase t).callPhase socketOf)
    (hpermits : w'.permits = w.permits) (hpool : w'.pool = w.pool) (hnew : w'.phase = update w.phase t phase) :
    Reaches calls v w' := by
  refine ⟨socketOf, [], v, rfl, hpermits ▸ h.permits, hpool ▸ h.pool, ?_⟩
  rw [hnew, ← h.update_phase, hphase, ← h.phase_eq, update_eq_self]

/-- The call drops what it has and releases its permit. -/
theorem Projects.finish (h : Projects socketOf w v)
    (hactive : v.phase t = .permitted ∨ ∃ socket, v.phase t = .querying socket)
    (hphase : phase.callPhase socketOf = .done) (hpermits : w'.permits = w.permits + 1) (hpool : w'.pool = w.pool)
    (hnew : w'.phase = update w.phase t phase) : Reaches calls v w' := by
  have hcancel : v.step (fun t => (calls t).raw) (.cancel t) = some (v.setPhase t .releasing) := by
    obtain hnow | ⟨socket, hnow⟩ := hactive
    · simp only [SocketPool.step, hnow]
    · simp only [SocketPool.step, hnow]
  refine ⟨socketOf, [.cancel t, .release t], { v.setPhase t .done with permits := v.permits + 1 }, ?_, ?_, ?_, ?_⟩
  · refine run_cons.mpr ⟨_, hcancel, run_cons.mpr ⟨_, ?_, rfl⟩⟩
    simp only [SocketPool.step, SocketPool.setPhase, update_self, update_idem]
  · rw [hpermits, h.permits]
  · rw [hpool]
    exact h.pool
  · rw [hnew, ← h.update_phase, hphase]
    rfl

theorem Projects.succeed (h : Projects socketOf w v) {port : Port} (hheld : (w.phase t).socket = some port)
    (response : Bytes) : Reaches calls v (w.succeed t port response) := by
  have hnow := h.querying hheld
  refine ⟨socketOf, [.succeed t, .release t],
    { v.setPhase t .done with permits := v.permits + 1, pool := socketOf port :: v.pool }, ?_, ?_, ?_, ?_⟩
  · refine run_cons.mpr ⟨{ v.setPhase t .releasing with pool := socketOf port :: v.pool }, ?_,
      run_cons.mpr ⟨_, ?_, rfl⟩⟩
    · simp only [SocketPool.step, hnow]
    · simp only [SocketPool.step, SocketPool.setPhase, update_self, update_idem]
  · exact congrArg (· + 1) h.permits
  · exact congrArg (socketOf port :: ·) h.pool
  · exact h.update_phase t (.returned (some response))

theorem Projects.abandon (h : Projects socketOf w v) (hphase : phase.callPhase socketOf = .done)
    (hstep : w.abandon t phase = some w') : Reaches calls v w' := by
  obtain ⟨hpermitted, rfl⟩ | ⟨port, hheld, rfl⟩ := abandon_cases hstep
  · have hnow : v.phase t = .permitted := by
      rw [h.phase_eq, hpermitted]
      rfl
    exact h.finish (.inl hnow) hphase rfl rfl rfl
  · exact h.finish (.inr ⟨_, h.querying hheld⟩) hphase rfl rfl rfl

theorem Projects.acquire (h : Projects socketOf w v) (hstep : w.step rt upstream calls (.acquire t) = some w') :
    Reaches calls v w' := by
  simp only [Forwarder.step] at hstep
  split at hstep
  · rename_i hphase
    have hnow : v.phase t = .waiting := by
      rw [h.phase_eq, hphase]
      rfl
    split at hstep
    · rename_i hshort
      obtain rfl := Option.some.inj hstep
      refine ⟨socketOf, [.acquire t], v.setPhase t .done, run_cons.mpr ⟨_, ?_, rfl⟩, h.permits, h.pool, ?_⟩
      · simp only [SocketPool.step, hnow, if_pos hshort]
      · exact h.update_phase t (.returned none)
    · rename_i hshort
      split at hstep
      · rename_i hfree
        obtain rfl := Option.some.inj hstep
        refine ⟨socketOf, [.acquire t], { v.setPhase t .permitted with permits := v.permits - 1 },
          run_cons.mpr ⟨_, ?_, rfl⟩, congrArg (· - 1) h.permits, h.pool, h.update_phase t .permitted⟩
        rw [← h.permits] at hfree
        simp only [SocketPool.step, hnow, if_neg hshort, if_pos hfree]
      · cases hstep
  · cases hstep

theorem Projects.reuse (h : Projects socketOf w v) {top : Port} {pool : List Port} (hphase : w.phase t = .permitted)
    (hpool : w.pool = top :: pool) : Reaches calls v { w.setPhase t (.holding top) with pool := pool } := by
  have hnow : v.phase t = .permitted := by
    rw [h.phase_eq, hphase]
    rfl
  have hpool' : v.pool = socketOf top :: pool.map socketOf := by
    rw [h.pool, hpool]
    rfl
  refine ⟨socketOf, [.checkout t], { v.setPhase t (.querying (socketOf top)) with pool := pool.map socketOf },
    run_cons.mpr ⟨_, ?_, rfl⟩, h.permits, rfl, h.update_phase t (.holding top)⟩
  simp only [SocketPool.step, hnow, hpool']

/-- A new port takes the next number; no call and no pooled socket has that port. -/
theorem Projects.bind (h : Projects socketOf w v) (howner : w.OneOwner) {port : Port} (hphase : w.phase t = .permitted)
    (hpool : w.pool = []) (hbound : w.bound port = false) :
    Reaches calls v { w.setPhase t (.holding port) with bound := update w.bound port true } := by
  have hempty : v.pool = [] := by
    rw [h.pool, hpool]
    rfl
  have hnow : v.phase t = .permitted := by
    rw [h.phase_eq, hphase]
    rfl
  -- the numbers of the ports in use stay as they are
  have hothers : ForwardPhase.callPhase (update socketOf port v.created) ∘ w.phase = v.phase := by
    rw [h.phase]
    funext t'
    have hne : ∀ port', (w.phase t').socket = some port' → port' ≠ port := by
      rintro port' hheld rfl
      have hlive := howner.heldLive (t := t') hheld
      rw [hbound] at hlive
      cases hlive
    rw [comp_apply, comp_apply]
    cases hold : w.phase t' with
    | holding port' | receiving port' _ | retrying port' =>
      have hport := hne port' (by rw [hold]; rfl)
      rw [ForwardPhase.callPhase, ForwardPhase.callPhase, update_of_ne hport]
    | _ => rfl
  refine ⟨update socketOf port v.created, [.checkout t, .create t],
    { v.setPhase t (.querying v.created) with created := v.created + 1 }, ?_, h.permits, ?_, ?_⟩
  · refine run_cons.mpr ⟨v.setPhase t .creating, ?_, run_cons.mpr ⟨_, ?_, rfl⟩⟩
    · simp only [SocketPool.step, hnow, hempty]
    · simp only [SocketPool.step, SocketPool.setPhase, update_self, update_idem]
  · change v.pool = w.pool.map _
    rw [hempty, hpool]
    rfl
  · dsimp only [setPhase]
    rw [comp_update, hothers, ForwardPhase.callPhase, update_self]
    rfl

theorem Projects.receive (h : Projects socketOf w v) {datagram : Bytes}
    (hstep : w.step rt upstream calls (.receive t datagram) = some w') : Reaches calls v w' := by
  simp only [Forwarder.step] at hstep
  split at hstep
  · rename_i port left hphase
    have hheld : (w.phase t).socket = some port := by
      rw [hphase]
      rfl
    split at hstep
    · split at hstep
      · split at hstep
        · obtain rfl := Option.some.inj hstep
          exact h.keep (by rw [hphase]; rfl) rfl rfl rfl
        · obtain rfl := Option.some.inj hstep
          exact h.succeed hheld datagram
      · split at hstep
        · obtain rfl := Option.some.inj hstep
          exact h.finish (.inr ⟨_, h.querying hheld⟩) rfl rfl rfl rfl
        · obtain rfl := Option.some.inj hstep
          exact h.keep (by rw [hphase]; rfl) rfl rfl rfl
    · cases hstep
  · cases hstep

/-- Each step of the forwarder is a run of its pool. -/
theorem Projects.step (h : Projects socketOf w v) (howner : w.OneOwner)
    (hstep : w.step rt upstream calls a = some w') : Reaches calls v w' := by
  cases a with
  | acquire t => exact h.acquire hstep
  | checkout t port =>
    simp only [Forwarder.step] at hstep
    split at hstep
    · rename_i hphase
      split at hstep
      · rename_i hpool
        obtain rfl := Option.some.inj hstep
        exact h.reuse hphase hpool
      · rename_i hpool
        split at hstep
        · cases hstep
        · rename_i hbound
          obtain rfl := Option.some.inj hstep
          exact h.bind howner hphase hpool (by simpa using hbound)
    · cases hstep
  | send t =>
    simp only [Forwarder.step] at hstep
    split at hstep
    · rename_i hphase
      split at hstep
      · obtain rfl := Option.some.inj hstep
        exact h.keep (by rw [hphase]; rfl) rfl rfl rfl
      · cases hstep
    · cases hstep
  | respond port query response =>
    simp only [Forwarder.step] at hstep
    split at hstep
    · obtain rfl := Option.some.inj hstep
      exact ⟨socketOf, [], v, rfl, h.permits, h.pool, h.phase⟩
    · cases hstep
  | receive t datagram => exact h.receive hstep
  | receiveTcp t response =>
    simp only [Forwarder.step] at hstep
    split at hstep
    · rename_i hphase
      split at hstep
      · obtain rfl := Option.some.inj hstep
        exact h.succeed (by rw [hphase]; rfl) response
      · cases hstep
    · cases hstep
  | fail t => exact h.abandon rfl hstep
  | cancel t =>
    simp only [Forwarder.step] at hstep
    split at hstep
    · rename_i hphase
      obtain rfl := Option.some.inj hstep
      refine ⟨socketOf, [.cancel t], v.setPhase t .done, run_cons.mpr ⟨_, ?_, rfl⟩, h.permits, h.pool, ?_⟩
      · simp only [SocketPool.step, h.phase_eq t, hphase, ForwardPhase.callPhase]
      · exact h.update_phase t .cancelled
    · exact h.abandon rfl hstep
  | relay t answeredAt =>
    simp only [Forwarder.step] at hstep
    split at hstep
    · rename_i hphase
      split at hstep
      · obtain rfl := Option.some.inj hstep
        exact h.keep (by rw [hphase]; rfl) rfl rfl rfl
      · cases hstep
    · cases hstep
  | lookUp now name qtype =>
    obtain rfl := Option.some.inj hstep
    exact ⟨socketOf, [], v, rfl, h.permits, h.pool, h.phase⟩

structure Followed (calls : TaskId → ForwardCtx) (maxConcurrent : ℕ) (w : Forwarder) : Prop where
  owner : w.OneOwner
  reached : Reaches calls (SocketPool.withConcurrency maxConcurrent) w

theorem Followed.step {maxConcurrent : ℕ} (h : Followed calls maxConcurrent w)
    (hstep : w.step rt upstream calls a = some w') : Followed calls maxConcurrent w' := by
  obtain ⟨socketOf, acts, v, hrun, hprojects⟩ := h.reached
  obtain ⟨socketOf', more, v', hmore, hprojects'⟩ := hprojects.step h.owner hstep
  exact ⟨h.owner.step (moves_of_step hstep), socketOf', acts ++ more, v', run_append.mpr ⟨v, hrun, hmore⟩, hprojects'⟩

/-- **Every run of the forwarder over its network is a run of its pool.** -/
theorem reaches_of_run {maxConcurrent : ℕ} {server : ServerState} {acts : List ForwarderAction}
    (hrun : run (Forwarder.step rt upstream calls) (withConcurrency maxConcurrent server) acts = some w) :
    Reaches calls (SocketPool.withConcurrency maxConcurrent) w := by
  have hstart : Followed calls maxConcurrent (withConcurrency maxConcurrent server) :=
    ⟨exclusive_empty, fun _ => 0, [], _, rfl, rfl, rfl, rfl⟩
  have hfollowed : Followed calls maxConcurrent w := run_preserves (fun _ _ _ h hstep => h.step hstep) hstart hrun
  exact hfollowed.reached

theorem sockets_bounded {maxConcurrent : ℕ} {server : ServerState} {acts : List ForwarderAction}
    (hrun : run (Forwarder.step rt upstream calls) (withConcurrency maxConcurrent server) acts = some w) :
    w.pool.length + Set.encard { t | (w.sockets t).isSome = true } ≤ (max maxConcurrent 1 : ℕ) := by
  obtain ⟨socketOf, poolActs, v, hpool, hprojects⟩ := reaches_of_run hrun
  have hbounded := (SocketPool.invariant_of_run hpool).1.sockets
  rw [hprojects.pool, List.length_map] at hbounded
  refine (add_le_add le_rfl (Set.encard_le_encard fun t ht => ?_)).trans hbounded
  obtain ⟨port, hport⟩ := Option.isSome_iff_exists.mp ht
  rw [Set.mem_ofPred_eq, hprojects.querying hport]
  rfl

end Forwarder
end MiniDns
