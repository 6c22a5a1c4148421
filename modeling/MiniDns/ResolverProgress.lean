import MiniDns.Lib.Ranking
import MiniDns.Lib.Tally
import MiniDns.Recursive
import Mathlib.Data.Prod.Lex

/-! Why recursive resolution comes to an end, whatever the servers answer and however the calls interleave. -/
namespace MiniDns
open Lib Lib.Outcome Dns DnsPacket Function
set_option autoImplicit false

/-! ## What a step does to its call -/

def ResolverAction.task : ResolverAction → TaskId
  | .acquire t | .begin t _ | .evict t | .query t _ _ | .collect t _ | .store t _ | .cancel t => t

def ResolvePhase.holdsPermit : ResolvePhase → Bool
  | .start | .returned _ | .cancelled => false
  | _ => true

namespace RecursiveResolver

/-- From one phase of a call to the next. -/
inductive Turns (rt : Runtime) (requests : TaskId → ResolveRequest) (w : RecursiveResolver) (t : TaskId) :
    ResolvePhase → ResolvePhase → Prop
  | permit : Turns rt requests w t .start .permitted
  | expire : Turns rt requests w t .permitted .expired
  | cached {entry : Delegation} {zone : Text} (hentry : w.delegations.lookup zone = some entry) :
      Turns rt requests w t .permitted (startWalk rt (requests t) (entry.nsAddrs.map ServerAddr.addr) zone).proceed
  | fresh : Turns rt requests w t .permitted (startWalk rt (requests t) rootServers []).proceed
  | evict : Turns rt requests w t .expired (startWalk rt (requests t) rootServers []).proceed
  | receive {walk : Walk} {server : SocketAddr} {left : List SocketAddr} {response : DnsPacket} :
      Turns rt requests w t (.asking walk (server :: left)) (walk.receive response)
  | skip {walk : Walk} {server : SocketAddr} {left : List SocketAddr} (hleft : left ≠ []) :
      Turns rt requests w t (.asking walk (server :: left)) (.asking walk left)
  | exhaust {walk : Walk} {server : SocketAddr} : Turns rt requests w t (.asking walk [server]) walk.fail
  | collect {walk : Walk} {response : DnsPacket} {ns : Text} {names : List Text} {addrs : List ServerAddr}
      {now : Instant} (hnames : names ≠ []) :
      Turns rt requests w t (.collecting walk response (ns :: names) addrs)
        (.collecting walk response names (addrs ++ w.liveAddrs now ns))
  | resolved {walk : Walk} {response : DnsPacket} {ns : Text} {addrs : List ServerAddr} {now : Instant} :
      Turns rt requests w t (.collecting walk response [ns] addrs) (.storing walk response (addrs ++ w.liveAddrs now ns))
  | unresolved {walk : Walk} {response : DnsPacket} {ns : Text} {addrs : List ServerAddr} :
      Turns rt requests w t (.collecting walk response [ns] addrs) (walk.nodata response)
  | follow {walk : Walk} {response : DnsPacket} {addrs : List ServerAddr} :
      Turns rt requests w t (.storing walk response addrs) (walk.follow addrs)
  | cancel {phase : ResolvePhase} (hphase : phase.ended = false) : Turns rt requests w t phase .cancelled

variable {rt : Runtime} {requests : TaskId → ResolveRequest} {w w' : RecursiveResolver} {a : ResolverAction}
  {t : TaskId} {walk : Walk} {phase phase' : ResolvePhase}

/-- One permit for a call that holds one. -/
def held (phase : ResolvePhase) : ℕ := if phase.holdsPermit then 1 else 0

/-- A step moves its own call, and the permits with it. -/
structure Turned (rt : Runtime) (requests : TaskId → ResolveRequest) (w : RecursiveResolver) (a : ResolverAction)
    (w' : RecursiveResolver) : Prop where
  phase : w'.phase = update w.phase a.task (w'.phase a.task)
  turns : Turns rt requests w a.task (w.phase a.task) (w'.phase a.task)
  permits : w'.permits + held (w'.phase a.task) = w.permits + held (w.phase a.task)

theorem proceed_cases (walk : Walk) : walk.proceed = walk.fail ∨
    walk.depth + 1 ≤ maxDelegationDepth ∧ walk.servers ≠ [] ∧
      walk.proceed = .asking { walk with depth := walk.depth + 1 } walk.servers := by
  unfold Walk.proceed
  split
  · exact .inl rfl
  · rename_i hdepth
    split
    · exact .inl rfl
    · rename_i hservers
      exact .inr ⟨Nat.not_lt.mp hdepth, by simpa using hservers, rfl⟩

theorem nodata_cases (walk : Walk) (response : DnsPacket) :
    walk.nodata response = walk.relay response ∨ walk.nodata response = walk.restart := by
  unfold Walk.nodata
  split
  · exact .inl rfl
  · exact .inr rfl

theorem receive_cases (walk : Walk) (response : DnsPacket) :
    walk.receive response = walk.relay response ∨ walk.receive response = walk.restart ∨
      (nsNames response ≠ [] ∧ walk.receive response = .collecting walk response (nsNames response) []) ∨
      walk.receive response = .storing walk response (glueAddrs (nsNames response) response) := by
  unfold Walk.receive
  dsimp only
  split
  · split
    · exact .inr (.inl rfl)
    · exact .inl rfl
  · split
    · split
      · exact (nodata_cases walk response).imp_right .inl
      · rename_i hne
        exact .inr (.inr (.inl ⟨hne, rfl⟩))
      · exact .inr (.inr (.inr rfl))
    · exact .inl rfl

/-- What one permit covers: a call gets it at its start and gives it back at its end. -/
theorem held_setPhase (hphase : phase ≠ .start) (n : ℕ) : (if phase.ended then n + 1 else n) + held phase = n + 1 := by
  cases phase with
  | start => exact absurd rfl hphase
  | _ => rfl

theorem proceed_ne_start (walk : Walk) : walk.proceed ≠ .start := by
  obtain h | ⟨_, _, h⟩ := proceed_cases walk <;> rw [h] <;> exact nofun

theorem Turns.ne_start (h : Turns rt requests w t phase phase') : phase' ≠ .start := by
  cases h with
  | cached | fresh | evict | follow => exact proceed_ne_start _
  | @receive walk _ _ response =>
    obtain h | h | ⟨_, h⟩ | h := receive_cases walk response <;> rw [h]
    · exact nofun
    · exact proceed_ne_start _
    · exact nofun
    · exact nofun
  | @unresolved walk response =>
    obtain h | h := nodata_cases walk response <;> rw [h]
    · exact nofun
    · exact proceed_ne_start _
  | _ => exact nofun

theorem turned_of_update (hphase : w'.phase = update w.phase a.task phase)
    (hpermits : w'.permits + held phase = w.permits + held (w.phase a.task))
    (hturns : Turns rt requests w a.task (w.phase a.task) phase) : Turned rt requests w a w' := by
  have hnew : w'.phase a.task = phase := by rw [hphase, update_self]
  exact ⟨by rw [hnew, hphase], hnew ▸ hturns, by rw [hnew, hpermits]⟩

theorem turned_of_setPhase (hold : (w.phase a.task).holdsPermit = true)
    (hphase : w'.phase = update w.phase a.task phase)
    (hpermits : w'.permits = if phase.ended then w.permits + 1 else w.permits)
    (hturns : Turns rt requests w a.task (w.phase a.task) phase) : Turned rt requests w a w' := by
  refine turned_of_update hphase ?_ hturns
  rw [hpermits, held_setPhase hturns.ne_start, held, if_pos hold]

theorem turned_of_query {udp tcp : Option Bytes} (h : w.step rt requests (.query t udp tcp) = some w') :
    Turned rt requests w (.query t udp tcp) w' := by
  simp only [step] at h
  split at h
  · rename_i walk server left hphase
    have hold : (w.phase t).holdsPermit = true := by rw [hphase]; rfl
    split at h
    · obtain rfl := Option.some.inj h
      exact turned_of_setPhase hold rfl rfl (hphase ▸ .receive)
    · obtain rfl := Option.some.inj h
      refine turned_of_setPhase hold rfl rfl (hphase ▸ ?_)
      cases left with
      | nil => exact .exhaust
      | cons next left => exact .skip (List.cons_ne_nil _ _)
    · obtain rfl := Option.some.inj h
      exact turned_of_setPhase hold rfl rfl (hphase ▸ .cancel rfl)
  · cases h

theorem turned_of_collect {now : Instant} (h : w.step rt requests (.collect t now) = some w') :
    Turned rt requests w (.collect t now) w' := by
  simp only [step] at h
  split at h
  · rename_i walk response ns names addrs hphase
    obtain rfl := Option.some.inj h
    refine turned_of_setPhase (by rw [ResolverAction.task, hphase]; rfl) rfl rfl (hphase ▸ ?_)
    cases names with
    | nil =>
      dsimp only [List.isEmpty]
      split
      · rename_i hfalse
        cases hfalse
      · split
        · exact .unresolved
        · exact .resolved
    | cons name names => exact .collect (List.cons_ne_nil _ _)
  · cases h

theorem turned_of_step (h : w.step rt requests a = some w') : Turned rt requests w a w' := by
  cases a with
  | acquire t =>
    simp only [step] at h
    split at h
    · rename_i hphase
      split at h
      · rename_i hpermits
        obtain rfl := Option.some.inj h
        refine turned_of_update rfl ?_ (hphase ▸ .permit)
        rw [ResolverAction.task, hphase]
        exact Nat.sub_add_cancel hpermits
      · cases h
    · cases h
  | begin t now =>
    simp only [step] at h
    split at h
    · rename_i hphase
      have hold : (w.phase t).holdsPermit = true := by rw [hphase]; rfl
      split at h
      · rename_i entry hentry
        split at h
        · obtain rfl := Option.some.inj h
          exact turned_of_setPhase hold rfl rfl (hphase ▸ .expire)
        · obtain rfl := Option.some.inj h
          exact turned_of_setPhase hold rfl rfl (hphase ▸ .cached hentry)
      · obtain rfl := Option.some.inj h
        exact turned_of_setPhase hold rfl rfl (hphase ▸ .fresh)
    · cases h
  | evict t =>
    simp only [step] at h
    split at h
    · rename_i hphase
      obtain rfl := Option.some.inj h
      exact turned_of_setPhase (by rw [ResolverAction.task, hphase]; rfl) rfl rfl (hphase ▸ .evict)
    · cases h
  | query t udp tcp => exact turned_of_query h
  | collect t now => exact turned_of_collect h
  | store t now =>
    simp only [step] at h
    split at h
    · rename_i walk response addrs hphase
      obtain rfl := Option.some.inj h
      exact turned_of_setPhase (by rw [ResolverAction.task, hphase]; rfl) rfl rfl (hphase ▸ .follow)
    · cases h
  | cancel t =>
    simp only [step] at h
    split at h
    · rename_i hphase
      obtain rfl := Option.some.inj h
      refine turned_of_update rfl ?_ (hphase ▸ .cancel rfl)
      rw [ResolverAction.task, hphase]
      rfl
    · rename_i hstart
      split at h
      · cases h
      · rename_i hended
        obtain rfl := Option.some.inj h
        have hold : (w.phase t).holdsPermit = true := by
          revert hstart hended
          cases w.phase t <;> simp [ResolvePhase.ended, ResolvePhase.holdsPermit]
        exact turned_of_setPhase hold rfl rfl (.cancel (Bool.eq_false_iff.mpr hended))

/-! ## Termination -/

/-- How many rounds of the loop are left, what is left to do in this one, and with how many servers or names. -/
def rank : ResolvePhase → ℕ ×ₗ ℕ ×ₗ ℕ
  | .start => toLex (22, toLex (3, 0))
  | .permitted => toLex (22, toLex (2, 0))
  | .expired => toLex (22, toLex (1, 0))
  | .asking walk left => toLex (21 - walk.depth, toLex (3, left.length))
  | .collecting walk _ names _ => toLex (21 - walk.depth, toLex (2, names.length))
  | .storing walk _ _ => toLex (21 - walk.depth, toLex (1, 0))
  | .returned _ | .cancelled => toLex (0, toLex (0, 0))

theorem rank_lt_of_stage {n stage stage' m m' : ℕ} (h : stage < stage') :
    (toLex (n, toLex (stage, m)) : ℕ ×ₗ ℕ ×ₗ ℕ) < toLex (n, toLex (stage', m')) :=
  Prod.Lex.toLex_lt_toLex.mpr (.inr ⟨rfl, Prod.Lex.toLex_lt_toLex.mpr (.inl h)⟩)

theorem rank_lt_of_left {n stage m m' : ℕ} (h : m < m') :
    (toLex (n, toLex (stage, m)) : ℕ ×ₗ ℕ ×ₗ ℕ) < toLex (n, toLex (stage, m')) :=
  Prod.Lex.toLex_lt_toLex.mpr (.inr ⟨rfl, Prod.Lex.toLex_lt_toLex.mpr (.inr ⟨rfl, h⟩)⟩)

theorem rank_ended_lt (n stage m : ℕ) :
    (toLex (0, toLex (0, 0)) : ℕ ×ₗ ℕ ×ₗ ℕ) < toLex (n, toLex (stage + 1, m)) := by
  cases n with
  | zero => exact rank_lt_of_stage (Nat.succ_pos stage)
  | succ n => exact Prod.Lex.toLex_lt_toLex.mpr (.inl (Nat.succ_pos n))

/-- The next round is a lower one, or there is none. -/
theorem rank_proceed {walk : Walk} {n : ℕ} (hn : 21 - walk.depth ≤ n) (stage m : ℕ) :
    rank walk.proceed < toLex (n, toLex (stage + 1, m)) := by
  obtain h | ⟨hdepth, _, h⟩ := proceed_cases walk
  · rw [h]
    exact rank_ended_lt n stage m
  · rw [h]
    refine Prod.Lex.toLex_lt_toLex.mpr (.inl ?_)
    change 21 - (walk.depth + 1) < n
    rw [maxDelegationDepth] at hdepth
    omega

theorem Turns.rank_lt (h : Turns rt requests w t phase phase') : rank phase' < rank phase := by
  cases h with
  | permit => exact rank_lt_of_stage (Nat.lt_succ_self 2)
  | expire => exact rank_lt_of_stage (Nat.lt_succ_self 1)
  | cached | fresh | evict => exact rank_proceed (Nat.le_succ 21) _ _
  | @receive walk server left response =>
    obtain h | h | ⟨_, h⟩ | h := receive_cases walk response <;> rw [h]
    · exact rank_ended_lt _ _ _
    · exact rank_proceed le_rfl _ _
    · exact rank_lt_of_stage (Nat.lt_succ_self 2)
    · exact rank_lt_of_stage (by decide)
  | skip => exact rank_lt_of_left (Nat.lt_succ_self _)
  | exhaust => exact rank_ended_lt _ _ _
  | collect => exact rank_lt_of_left (Nat.lt_succ_self _)
  | resolved => exact rank_lt_of_stage (Nat.lt_succ_self 1)
  | @unresolved walk response =>
    obtain h | h := nodata_cases walk response <;> rw [h]
    · exact rank_ended_lt _ _ _
    · exact rank_proceed le_rfl _ _
  | follow => exact rank_proceed le_rfl _ _
  | cancel hphase =>
    cases phase with
    | returned | cancelled => cases hphase
    | _ => exact rank_ended_lt _ _ _

/-! ## Progress -/

/-- A call that asks has a server to ask, and one that looks up names has a name. -/
def Ready : ResolvePhase → Prop
  | .asking _ left => left ≠ []
  | .collecting _ _ names _ => names ≠ []
  | _ => True

theorem ready_proceed (walk : Walk) : Ready walk.proceed := by
  obtain h | ⟨_, hservers, h⟩ := proceed_cases walk <;> rw [h]
  · trivial
  · exact hservers

theorem Turns.ready (h : Turns rt requests w t phase phase') : Ready phase' := by
  cases h with
  | cached | fresh | evict | follow => exact ready_proceed _
  | @receive walk server left response =>
    obtain h | h | ⟨hnames, h⟩ | h := receive_cases walk response <;> rw [h]
    · trivial
    · exact ready_proceed _
    · exact hnames
    · trivial
  | skip hleft => exact hleft
  | collect hnames => exact hnames
  | @unresolved walk response =>
    obtain h | h := nodata_cases walk response <;> rw [h]
    · trivial
    · exact ready_proceed _
  | _ => trivial

/-- The moves that a call which holds a permit can make, given a clock reading and what a server answers. -/
def moves (t : TaskId) (now : Instant) (udp tcp : Option Bytes) : List ResolverAction :=
  [.begin t now, .evict t, .query t udp tcp, .collect t now, .store t now]

theorem exists_move (hready : Ready (w.phase t)) (hholds : (w.phase t).holdsPermit = true) (now : Instant)
    (udp tcp : Option Bytes) : ∃ a ∈ moves t now udp tcp, (w.step rt requests a).isSome := by
  cases hphase : w.phase t with
  | start | returned | cancelled =>
    rw [hphase] at hholds
    cases hholds
  | permitted =>
    refine ⟨.begin t now, by simp [moves], ?_⟩
    simp only [step, hphase]
    repeat' split
    all_goals rfl
  | expired => exact ⟨.evict t, by simp [moves], by simp [step, hphase]⟩
  | asking walk left =>
    cases left with
    | nil =>
      rw [hphase] at hready
      exact absurd rfl hready
    | cons server left =>
      refine ⟨.query t udp tcp, by simp [moves], ?_⟩
      simp only [step, hphase]
      split <;> rfl
  | collecting walk response names addrs =>
    cases names with
    | nil =>
      rw [hphase] at hready
      exact absurd rfl hready
    | cons ns names => exact ⟨.collect t now, by simp [moves], by simp [step, hphase]⟩
  | storing walk response addrs => exact ⟨.store t now, by simp [moves], by simp [step, hphase]⟩

structure Steady (w : RecursiveResolver) : Prop where
  ready : ∀ t, Ready (w.phase t)
  permits : w.permits + tally ResolvePhase.holdsPermit w.phase = maxConcurrent

theorem Steady.step (h : w.Steady) (hstep : w.step rt requests a = some w') : w'.Steady := by
  obtain ⟨hphase, hturns, hpermits⟩ := turned_of_step hstep
  refine ⟨fun t => ?_, ?_⟩
  · by_cases ht : t = a.task
    · rw [ht]
      exact hturns.ready
    · rw [hphase, update_of_ne ht]
      exact h.ready t
  · rw [← h.permits, hphase]
    unfold held at hpermits
    cases hold : (w.phase a.task).holdsPermit <;> cases hnew : (w'.phase a.task).holdsPermit
    all_goals
      rw [hold, hnew] at hpermits
    · rw [tally_stay (hnew.trans hold.symm), show w'.permits = w.permits from hpermits]
    · rw [tally_enter hold hnew, show w.permits = w'.permits + 1 from hpermits.symm, Nat.cast_succ, add_right_comm,
        add_assoc]
    · rw [← tally_leave (p := ResolvePhase.holdsPermit) (f := w.phase) (t := a.task) hold hnew,
        show w'.permits = w.permits + 1 from hpermits, Nat.cast_succ, add_right_comm, add_assoc]
    · rw [tally_stay (hnew.trans hold.symm), show w'.permits = w.permits from Nat.succ.inj hpermits]

theorem steady_new : new.Steady where
  ready _ := trivial
  permits := by
    rw [tally_eq_zero fun _ => rfl]
    exact add_zero _

end RecursiveResolver

/-- **Every resolution comes to an end, whatever the servers answer.** In an execution without end of any number
of concurrent calls, each call takes finitely many steps. In every run the free permits and the calls that hold
one are 128 together, so none is lost, and a call that holds one can always take its next step, with any clock
reading and any answer of the server that it asks. -/
theorem RecursiveResolver.every_walk_ends (rt : Runtime) (requests : TaskId → ResolveRequest) :
    (∀ states acts, Execution (step rt requests) states acts → ∀ t, { n | (acts n).task = t }.Finite) ∧
    ∀ acts w, run (step rt requests) new acts = some w →
      w.permits + tally ResolvePhase.holdsPermit w.phase = maxConcurrent ∧
        ∀ t, (w.phase t).holdsPermit = true → ∀ now udp tcp,
          ∃ a ∈ moves t now udp tcp, (w.step rt requests a).isSome := by
  constructor
  · intro states acts hexec t
    refine Execution.finite wellFounded_lt (fun w => rank (w.phase t)) (fun a => a.task = t) hexec ?_ ?_
    · rintro w a w' hstep rfl
      exact (turned_of_step hstep).turns.rank_lt
    · intro w a w' hstep ha
      rw [(turned_of_step hstep).phase, update_of_ne (Ne.symm ha)]
  · intro acts w hrun
    have hsteady : w.Steady := run_preserves (fun _ _ _ => Steady.step) steady_new hrun
    exact ⟨hsteady.permits, fun t => exists_move (hsteady.ready t)⟩

end MiniDns
