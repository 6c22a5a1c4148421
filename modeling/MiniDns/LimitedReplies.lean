import MiniDns.Lib.Runs
import MiniDns.LimiterRuns
import MiniDns.State

/-! How many replies the rate limiter lets one client have. The calls of `resolve` share the limiter;
everything else of the state that a call meets is whatever other calls and reloads have made of it. -/
namespace MiniDns
open Lib Lib.Outcome Dns DnsRecord DnsPacket
set_option autoImplicit false

/-! ## Calls and the limiter behind them -/

structure ResolveCall where
  st : ServerState
  m : Moment
  req : Bytes
  transport : Transport

namespace ResolveCall

def state (call : ResolveCall) (l : RateLimiter) : ServerState := { call.st with limiter := l }

def resolve (rt : Runtime) (client : IpAddr) (l : RateLimiter) (call : ResolveCall) :
    Outcome Empty (Option Bytes × ServerState) :=
  (call.state l).resolve rt call.m call.req client call.transport

def tryAxfr (rt : Runtime) (client : IpAddr) (call : ResolveCall) : Outcome Empty (Option Bytes) :=
  if call.transport = .tcp then call.st.tryAxfr rt call.req client else pure none

/-- The limiter behind a call: it has counted the call unless that was a zone transfer, or a request on
which the parser has panicked before. -/
def limiter (rt : Runtime) (client : IpAddr) (l : RateLimiter) (call : ResolveCall) : RateLimiter :=
  match call.tryAxfr rt client with
  | ok none => (l.allow call.m.now client).2
  | _ => l

def replied (rt : Runtime) (client : IpAddr) (l : RateLimiter) (call : ResolveCall) : Bool :=
  match call.resolve rt client l with
  | ok (some _, _) => true
  | _ => false

/-- A request over TCP whose first question asks for a zone transfer. -/
def isTransfer (call : ResolveCall) : Bool :=
  decide (call.transport = .tcp) &&
    match fromBytes call.req with
    | ok request => request.questions.head?.any fun question => question.qtype == typeAxfr
    | _ => false

end ResolveCall

/-- Which of the calls have been answered. -/
def replies (rt : Runtime) (client : IpAddr) : RateLimiter → List ResolveCall → List Bool
  | _, [] => []
  | l, call :: calls => call.replied rt client l :: replies rt client (call.limiter rt client l) calls

/-! ## One call -/

section Call
variable {rt : Runtime} {client : IpAddr} {l : RateLimiter} {call : ResolveCall} {st' : ServerState}

/-- A call answers a zone transfer, or the limiter has counted it and has let it through if it is
answered. -/
theorem resolve_cases {reply : Option Bytes} (h : call.resolve rt client l = ok (reply, st')) :
    (∃ resp, call.tryAxfr rt client = ok (some resp) ∧ st'.limiter = l) ∨
      call.tryAxfr rt client = ok none ∧ st'.limiter = (l.allow call.m.now client).2 ∧
        (reply = none ∨ (l.allow call.m.now client).1 = true) := by
  unfold ResolveCall.resolve ServerState.resolve at h
  obtain ⟨transfer, htransfer, h⟩ := bind_eq_ok.mp h
  change call.tryAxfr rt client = ok transfer at htransfer
  cases transfer with
  | some resp =>
    obtain ⟨_, rfl⟩ := Prod.mk.inj (Outcome.ok.inj h)
    exact .inl ⟨resp, htransfer, rfl⟩
  | none =>
    refine .inr ⟨htransfer, ?_⟩
    obtain ⟨⟨r, st₁⟩, hlocal, h⟩ := bind_eq_ok.mp h
    obtain ⟨⟨cache, rfl⟩, hallowed⟩ := ServerState.resolveLocal_cases hlocal
    cases r with
    | ready bytes =>
      obtain ⟨_, rfl⟩ := Prod.mk.inj (Outcome.ok.inj h)
      exact ⟨rfl, .inr (hallowed.resolve_left nofun)⟩
    | drop =>
      obtain ⟨rfl, rfl⟩ := Prod.mk.inj (Outcome.ok.inj h)
      exact ⟨rfl, .inl rfl⟩
    | forward ctx =>
      obtain ⟨⟨bytes, st₂⟩, hforward, h⟩ := bind_eq_ok.mp h
      obtain ⟨_, rfl⟩ := Prod.mk.inj (Outcome.ok.inj h)
      obtain ⟨cache', rfl⟩ := ServerState.cache_forwardCtx hforward
      exact ⟨rfl, .inr (hallowed.resolve_left nofun)⟩

/-- The limiter of the state behind a call is the one that the run goes on with. -/
theorem limiter_resolve {reply : Option Bytes} (h : call.resolve rt client l = ok (reply, st')) :
    st'.limiter = call.limiter rt client l := by
  unfold ResolveCall.limiter
  obtain ⟨resp, htransfer, hlimiter⟩ | ⟨htransfer, hlimiter, _⟩ := resolve_cases h
  · rw [htransfer]
    exact hlimiter
  · rw [htransfer]
    exact hlimiter

theorem tryAxfr_of_not_transfer (rt : Runtime) (client : IpAddr) (h : call.isTransfer = false) :
    call.tryAxfr rt client = ok none ∨ call.tryAxfr rt client = .panic := by
  unfold ResolveCall.tryAxfr
  split
  · rename_i htcp
    unfold ResolveCall.isTransfer at h
    rw [htcp] at h
    unfold ServerState.tryAxfr
    cases hparse : fromBytes call.req with
    | ok request =>
      rw [hparse] at h
      dsimp only [Outcome.handle]
      cases hquestions : request.questions with
      | nil => exact .inl rfl
      | cons question questions =>
        have hother : question.qtype ≠ typeAxfr := by simpa [hquestions] using h
        exact .inl (if_pos hother)
    | err _ => exact .inl rfl
    | panic => exact .inr rfl
  · exact .inl rfl

theorem allowed_of_replied (h : call.isTransfer = false) (hreplied : call.replied rt client l = true) :
    call.tryAxfr rt client = ok none ∧ (l.allow call.m.now client).1 = true := by
  unfold ResolveCall.replied at hreplied
  split at hreplied
  · rename_i hresolve
    obtain ⟨resp, htransfer, _⟩ | ⟨htransfer, _, hnone | hallowed⟩ := resolve_cases hresolve
    · obtain hnone | hpanic := tryAxfr_of_not_transfer rt client h
      · rw [hnone] at htransfer
        cases htransfer
      · rw [hpanic] at htransfer
        cases htransfer
    · cases hnone
    · exact ⟨htransfer, hallowed⟩
  · cases hreplied

end Call

/-! ## Runs within one window -/

/-- The limiter counts the call: it is no zone transfer, and the counter of the client's window does not
wrap around. -/
def LimiterCounts (client : IpAddr) (l : RateLimiter) (call : ResolveCall) : Prop :=
  call.isTransfer = false ∧ (l.currentWindow call.m.now client).count ≠ 0xFFFFFFFF

instance (client : IpAddr) (l : RateLimiter) (call : ResolveCall) : Decidable (LimiterCounts client l call) :=
  inferInstanceAs (Decidable (_ ∧ _))

def afterCall (rt : Runtime) (client : IpAddr) (l : RateLimiter) (call : ResolveCall) : Option RateLimiter :=
  some (call.limiter rt client l)

theorem count_lt_of_no_wrap {l : RateLimiter} {client : IpAddr} {now : Instant} {c : Option Counter}
    (htracks : l.Tracks client now c) (hfits : (Counter.next l.window now c).count ≤ 2 ^ 32)
    (hwrap : (l.currentWindow now client).count ≠ 0xFFFFFFFF) : (Counter.next l.window now c).count < 2 ^ 32 := by
  refine lt_of_le_of_ne hfits fun hfull => hwrap ?_
  have hcount := htracks.currentWindow.2
  rw [hfull] at hcount
  have hzero : (l.currentWindow now client).count + 1 = 0 := hcount
  grind

/-- The counter of a client, and the calls of the client that are still to come in its window. -/
structure InWindow (client : IpAddr) (l : RateLimiter) (now : Instant) (c : Option Counter)
    (calls : List ResolveCall) : Prop where
  tracks : l.Tracks client now c
  fits : ∀ k ∈ c, k.count < 2 ^ 32
  clock : calls.Pairwise fun call call' => call.m.now ≤ call'.m.now
  later : ∀ call ∈ calls, now ≤ call.m.now
  inside : ∀ k ∈ c, ∀ call ∈ calls, call.m.now < k.start + l.window
  close : ∀ call ∈ calls, ∀ call' ∈ calls, call'.m.now < call.m.now + l.window

namespace InWindow
variable {client : IpAddr} {l : RateLimiter} {now : Instant} {c : Option Counter} {call : ResolveCall}
  {calls : List ResolveCall}

theorem tail (h : InWindow client l now c (call :: calls)) : InWindow client l now c calls where
  tracks := h.tracks
  fits := h.fits
  clock := (List.pairwise_cons.mp h.clock).2
  later x hx := h.later x (List.mem_cons_of_mem _ hx)
  inside k hk x hx := h.inside k hk x (List.mem_cons_of_mem _ hx)
  close x hx y hy := h.close x (List.mem_cons_of_mem _ hx) y (List.mem_cons_of_mem _ hy)

/-- The window stays open, and the call is counted in it. -/
theorem next_eq (h : InWindow client l now c (call :: calls)) :
    Counter.next l.window call.m.now c = ⟨c.elim call.m.now Counter.start, c.elim 0 Counter.count + 1⟩ :=
  Counter.next_of_open fun k hk => h.inside k hk call List.mem_cons_self

theorem count_next_lt (h : InWindow client l now c (call :: calls))
    (hwrap : (l.currentWindow call.m.now client).count ≠ 0xFFFFFFFF) :
    (Counter.next l.window call.m.now c).count < 2 ^ 32 := by
  refine count_lt_of_no_wrap (h.tracks.mono (h.later call List.mem_cons_self)) ?_ hwrap
  rw [h.next_eq]
  cases c with
  | none => exact Nat.le_of_ble_eq_true rfl
  | some k => exact h.fits k rfl

theorem allow (h : InWindow client l now c (call :: calls)) (hmax : l.maxPerWindow ≠ 0)
    (hwrap : (l.currentWindow call.m.now client).count ≠ 0xFFFFFFFF) :
    InWindow client (l.allow call.m.now client).2 call.m.now (some (Counter.next l.window call.m.now c)) calls := by
  obtain ⟨-, hwindow⟩ := RateLimiter.maxPerWindow_allow l call.m.now client
  have htracks := h.tracks.mono (h.later call List.mem_cons_self)
  refine ⟨(htracks.allow hmax).2, ?_, h.tail.clock, (List.pairwise_cons.mp h.clock).1, ?_, ?_⟩
  · intro k hk
    exact Option.some.inj hk ▸ h.count_next_lt hwrap
  · intro k hk call' hcall'
    obtain rfl := Option.some.inj hk
    rw [hwindow, h.next_eq]
    cases c with
    | none => exact h.close call List.mem_cons_self call' (List.mem_cons_of_mem _ hcall')
    | some k => exact h.inside k rfl call' (List.mem_cons_of_mem _ hcall')
  · rw [hwindow]
    exact h.tail.close

end InWindow

theorem replied_of_panic {rt : Runtime} {client : IpAddr} {l : RateLimiter} {call : ResolveCall}
    (hnot : call.isTransfer = false) (hpanic : call.tryAxfr rt client = .panic) :
    call.replied rt client l = false := by
  cases hreplied : call.replied rt client l with
  | false => rfl
  | true =>
    have hnone := (allowed_of_replied hnot hreplied).1
    rw [hpanic] at hnone
    cases hnone

/-- What is left of the window bounds the replies that are still to come. -/
theorem replies_le_left {rt : Runtime} {client : IpAddr} {l : RateLimiter} {now : Instant} {c : Option Counter}
    {calls : List ResolveCall} (hmax : l.maxPerWindow ≠ 0) (h : InWindow client l now c calls)
    (hcounted : Along (afterCall rt client) (LimiterCounts client) l calls) :
    (replies rt client l calls).count true ≤ l.maxPerWindow.toNat - c.elim 0 Counter.count := by
  induction calls generalizing l now c with
  | nil => exact Nat.zero_le _
  | cons call calls ih =>
    obtain ⟨⟨hnot, hwrap⟩, hlater⟩ := hcounted
    have hlater := hlater _ rfl
    rw [replies, List.count_cons]
    obtain hnone | hpanic := tryAxfr_of_not_transfer rt client hnot
    · have hlimiter : call.limiter rt client l = (l.allow call.m.now client).2 := by
        rw [ResolveCall.limiter, hnone]
      obtain ⟨hmax', -⟩ := RateLimiter.maxPerWindow_allow l call.m.now client
      rw [hlimiter] at hlater ⊢
      have hrest := ih (by rwa [hmax']) (h.allow hmax hwrap) hlater
      rw [hmax', Option.elim_some, h.next_eq] at hrest
      dsimp only at hrest
      split
      · rename_i hreplied
        have hallow := (allowed_of_replied hnot (beq_iff_eq.mp hreplied)).2
        rw [((h.tracks.mono (h.later call List.mem_cons_self)).allow hmax).1, decide_eq_true_iff,
          UInt32.le_iff_toNat_le, UInt32.toNat_ofNat_of_lt' (h.count_next_lt hwrap), h.next_eq] at hallow
        dsimp only at hallow
        omega
      · omega
    · -- the parser has panicked: no reply, and nothing was counted
      have hlimiter : call.limiter rt client l = l := by rw [ResolveCall.limiter, hpanic]
      rw [hlimiter] at hlater ⊢
      rw [replied_of_panic hnot hpanic, if_neg (by decide), Nat.add_zero]
      exact ih hmax h.tail hlater

/-- **Within one window a client has at most `max` replies**, if none of its requests is a zone transfer
over TCP and its counter does not wrap around. -/
theorem replies_le_max (rt : Runtime) (max : UInt32) (window : Duration) (hmax : 1 ≤ max) (client : IpAddr)
    (calls : List ResolveCall) (hclock : calls.Pairwise fun call call' => call.m.now ≤ call'.m.now)
    (hwithin : ∀ first ∈ calls.head?, ∀ call ∈ calls, call.m.now < first.m.now + window)
    (hcounted : Along (afterCall rt client) (LimiterCounts client) (RateLimiter.new max window) calls) :
    (replies rt client (RateLimiter.new max window) calls).count true ≤ max.toNat := by
  have hne : (RateLimiter.new max window).maxPerWindow ≠ 0 := by
    rintro (rfl : max = 0)
    exact absurd hmax (by decide)
  refine replies_le_left hne ⟨RateLimiter.tracks_new max window client, nofun, hclock, fun _ _ => Nat.zero_le _, nofun,
    ?_⟩ hcounted
  intro x hx y hy
  cases calls with
  | nil => cases hx
  | cons first calls =>
    have hfirst : first.m.now ≤ x.m.now := by
      obtain rfl | hx := List.mem_cons.mp hx
      · exact le_rfl
      · exact (List.pairwise_cons.mp hclock).1 x hx
    exact (hwithin first rfl y hy).trans_le (Nat.add_le_add_right hfirst window)

def refusingServer : ServerState where
  zones := ZoneSet.empty
  forwardRules := ForwardRules.none
  forwarder := false
  recursive := false
  cache := Cache.new 0
  limiter := RateLimiter.disabled
  blocklist := Blocklist.empty
  dns64Prefix := none
  axfrAcl := Acl.denyAll
  dnssecKeys := none

/-- A query of the given type for the root. -/
def rootQuery (qtype : UInt8) : Bytes := [0, 1, 0, 0, 0, 1, 0, 0, 0, 0, 0, 0, 0, 0, qtype, 0, 1]

def rootCall (now : Instant) (qtype : UInt8) : ResolveCall :=
  ⟨refusingServer, ⟨now, 0, .leader none, now⟩, rootQuery qtype, .tcp⟩

theorem replies_le_max_rootCall :
    (replies .ascii (.v4 ⟨10, 0, 0, 1⟩) (RateLimiter.new 1 10) [rootCall 0 1, rootCall 3 1]).count true ≤ 1 :=
  replies_le_max .ascii 1 10 (by decide) _ _ (by decide) (by decide) (by decide)

/-- Two zone transfers are both answered, with REFUSED, under a limit of one. -/
theorem transfers_pass_the_limit :
    replies .ascii (.v4 ⟨10, 0, 0, 1⟩) (RateLimiter.new 1 10) [rootCall 0 252, rootCall 3 252] = [true, true] := by
  decide

end MiniDns
