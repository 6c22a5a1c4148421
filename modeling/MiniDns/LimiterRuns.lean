import MiniDns.Guards
import MiniDns.Lib.FixedWindow

/-! Runs of the rate limiter: calls of `allow` by any clients, with calls of `cleanup` between them.
What a client sees is a fixed-window counter of its own calls. -/
namespace MiniDns
open Lib
set_option autoImplicit false

/-! ## Runs -/

inductive LimiterCall where
  | allow (ip : IpAddr)
  | cleanup
  deriving DecidableEq, Repr

structure LimiterEvent where
  now : Instant
  call : LimiterCall
  deriving DecidableEq, Repr

/-- The result of a call of `allow`, with the start of the window in which the call was counted. -/
structure Decision where
  now : Instant
  ip : IpAddr
  window : Instant
  allowed : Bool
  deriving DecidableEq, Repr

def LimiterEvent.isAllowOf (ip : IpAddr) (e : LimiterEvent) : Bool := e.call = .allow ip

namespace RateLimiter

def decisions (l : RateLimiter) : List LimiterEvent → List Decision
  | [] => []
  | ⟨now, .allow ip⟩ :: es =>
    ⟨now, ip, (l.currentWindow now ip).startedAt, (l.allow now ip).1⟩ :: decisions (l.allow now ip).2 es
  | ⟨now, .cleanup⟩ :: es => decisions (l.cleanup now) es

/-- The times of the calls of one client. -/
def callsOf (ip : IpAddr) (es : List LimiterEvent) : List Instant :=
  (es.filter (LimiterEvent.isAllowOf ip)).map LimiterEvent.now

/-! ## One client's counter -/

/-- `c` counts the calls of `ip` so far; a window that `cleanup` has dropped is over. -/
def Tracks (l : RateLimiter) (ip : IpAddr) (now : Instant) (c : Option Counter) : Prop :=
  match l.clients.lookup ip with
  | some w => ∃ n, c = some ⟨w.startedAt, n⟩ ∧ w.count = UInt32.ofNat n ∧ w.startedAt ≤ now
  | none => ∀ k ∈ c, k.start + l.window ≤ now

section Step
variable {l : RateLimiter} {ip ip' : IpAddr} {now now' : Instant} {c : Option Counter}

theorem Tracks.mono (h : l.Tracks ip now c) (hnow : now ≤ now') : l.Tracks ip now' c := by
  unfold Tracks at h ⊢
  cases hlookup : l.clients.lookup ip with
  | some w =>
    rw [hlookup] at h
    obtain ⟨n, hc, hcount, hstart⟩ := h
    exact ⟨n, hc, hcount, hstart.trans hnow⟩
  | none =>
    rw [hlookup] at h
    exact fun k hk => (h k hk).trans hnow

theorem Tracks.of_lookup_eq {l' : RateLimiter} (h : l.Tracks ip now c) (hwindow : l'.window = l.window)
    (hlookup : l'.clients.lookup ip = l.clients.lookup ip) : l'.Tracks ip now c := by
  unfold Tracks at h ⊢
  rwa [hlookup, hwindow]

/-- The window in which a call is counted is the one that the counter is in behind it. -/
theorem Tracks.currentWindow (h : l.Tracks ip now c) :
    (l.currentWindow now ip).startedAt = (Counter.next l.window now c).start ∧
      (l.currentWindow now ip).count + 1 = UInt32.ofNat (Counter.next l.window now c).count := by
  unfold Tracks at h
  unfold RateLimiter.currentWindow
  cases hlookup : l.clients.lookup ip with
  | some w =>
    rw [hlookup] at h
    obtain ⟨n, rfl, hcount, hstart⟩ := h
    dsimp only [Option.getD_some, Counter.next]
    have hiff : (w.startedAt ≤ now ∧ l.window ≤ now - w.startedAt) ↔ w.startedAt + l.window ≤ now := by
      rw [Nat.le_sub_iff_add_le' hstart]
      exact and_iff_right hstart
    by_cases hover : w.startedAt + l.window ≤ now
    · rw [if_pos (hiff.mpr hover), if_pos hover]
      exact ⟨rfl, rfl⟩
    · rw [if_neg (mt hiff.mp hover), if_neg hover, hcount]
      exact ⟨rfl, (UInt32.ofNat_add n 1).symm⟩
  | none =>
    rw [hlookup] at h
    have hnext : Counter.next l.window now c = ⟨now, 1⟩ := by
      obtain ⟨hnext, _⟩ | ⟨k, rfl, hopen, _⟩ := Counter.next_cases l.window now c
      · exact hnext
      · exact absurd (h k rfl) (Nat.not_le.mpr hopen)
    rw [hnext]
    dsimp only [Option.getD_none]
    split <;> exact ⟨rfl, rfl⟩

theorem currentWindow_le (h : l.Tracks ip now c) : (l.currentWindow now ip).startedAt ≤ now := by
  rw [h.currentWindow.1]
  obtain ⟨hnext, _⟩ | ⟨k, rfl, _, hnext⟩ := Counter.next_cases l.window now c
  · rw [hnext]
  · rw [hnext]
    unfold Tracks at h
    split at h
    · obtain ⟨n, hk, _, hstart⟩ := h
      obtain rfl := Option.some.inj hk
      exact hstart
    · exact (Nat.le_add_right _ _).trans (h k rfl)

variable (hmax : l.maxPerWindow ≠ 0)
include hmax

theorem Tracks.allow (h : l.Tracks ip now c) :
    (l.allow now ip).1 = decide (UInt32.ofNat (Counter.next l.window now c).count ≤ l.maxPerWindow) ∧
      (l.allow now ip).2.Tracks ip now (some (Counter.next l.window now c)) := by
  obtain ⟨hstart, hcount⟩ := h.currentWindow
  have hle := currentWindow_le h
  rw [RateLimiter.allow, if_neg hmax]
  dsimp only
  refine ⟨by rw [hcount], ?_⟩
  unfold Tracks
  dsimp only
  rw [AList.lookup_insert]
  exact ⟨_, by rw [hstart], hcount, hle⟩

theorem Tracks.allow_other (h : l.Tracks ip now c) (hip : ip ≠ ip') : (l.allow now ip').2.Tracks ip now c := by
  rw [RateLimiter.allow, if_neg hmax]
  exact h.of_lookup_eq rfl (AList.lookup_insert_ne hip)

omit hmax in
theorem Tracks.cleanup (h : l.Tracks ip now c) : (l.cleanup now).Tracks ip now c := by
  cases hlookup : l.clients.lookup ip with
  | none =>
    refine h.of_lookup_eq rfl ?_
    rw [hlookup]
    cases hafter : (l.cleanup now).clients.lookup ip with
    | none => rfl
    | some w =>
      have := (lookup_filter.mp hafter).1
      rw [hlookup] at this
      cases this
  | some w =>
    by_cases hopen : now - w.startedAt < l.window
    · refine h.of_lookup_eq rfl (Eq.trans ?_ hlookup.symm)
      exact lookup_filter.mpr ⟨hlookup, decide_eq_true hopen⟩
    · -- what `cleanup` drops, `allow` would have reset
      have hgone : (l.cleanup now).clients.lookup ip = none := by
        cases hafter : (l.cleanup now).clients.lookup ip with
        | none => rfl
        | some w' =>
          obtain ⟨hsame, hkept⟩ := lookup_filter.mp hafter
          rw [hlookup] at hsame
          obtain rfl := Option.some.inj hsame
          exact absurd (of_decide_eq_true hkept) hopen
      unfold Tracks at h ⊢
      rw [hlookup] at h
      rw [hgone]
      obtain ⟨n, rfl, _, hstart⟩ := h
      intro k hk
      obtain rfl := Option.some.inj hk
      exact (Nat.le_sub_iff_add_le' hstart).mp (Nat.not_lt.mp hopen)

end Step

/-! ## Runs and counters -/

theorem maxPerWindow_allow (l : RateLimiter) (now : Instant) (ip : IpAddr) :
    (l.allow now ip).2.maxPerWindow = l.maxPerWindow ∧ (l.allow now ip).2.window = l.window := by
  unfold allow
  split <;> exact ⟨rfl, rfl⟩

def decided (ip : IpAddr) (max : UInt32) (p : ℕ × Counter) : Decision :=
  ⟨p.1, ip, p.2.start, UInt32.ofNat p.2.count ≤ max⟩

/-- **A client's decisions are those of a counter of its own calls.** -/
theorem decisions_of_client {l : RateLimiter} {ip : IpAddr} {now : Instant} {c : Option Counter}
    {es : List LimiterEvent} (hmax : l.maxPerWindow ≠ 0) (h : l.Tracks ip now c)
    (hclock : es.Pairwise fun e e' => e.now ≤ e'.now) (hnow : ∀ e ∈ es, now ≤ e.now) :
    (l.decisions es).filter (fun d => d.ip = ip) =
      (Counter.counters l.window c (callsOf ip es)).map (decided ip l.maxPerWindow) := by
  induction es generalizing l now c with
  | nil => rfl
  | cons e es ih =>
    obtain ⟨now', call⟩ := e
    obtain ⟨hle, hlater⟩ := List.pairwise_cons.mp hclock
    have h' := h.mono (hnow _ List.mem_cons_self)
    cases call with
    | cleanup => exact ih hmax h'.cleanup hlater hle
    | allow ip' =>
      obtain ⟨hmax', hwindow⟩ := maxPerWindow_allow l now' ip'
      by_cases hip : ip' = ip
      · subst hip
        obtain ⟨hallowed, htracks⟩ := h'.allow hmax
        have hrest := ih (hmax' ▸ hmax) htracks hlater hle
        have hcalls : callsOf ip' (⟨now', .allow ip'⟩ :: es) = now' :: callsOf ip' es := by
          simp [callsOf, LimiterEvent.isAllowOf]
        rw [hmax', hwindow] at hrest
        rw [decisions, List.filter_cons_of_pos (by simp), hrest, hcalls, Counter.counters, List.map_cons,
          decided, hallowed, h'.currentWindow.1]
      · have htracks := h'.allow_other hmax (Ne.symm hip)
        have hrest := ih (hmax' ▸ hmax) htracks hlater hle
        have hcalls : callsOf ip (⟨now', .allow ip'⟩ :: es) = callsOf ip es := by
          simp [callsOf, LimiterEvent.isAllowOf, hip]
        rw [hmax', hwindow] at hrest
        rw [decisions, List.filter_cons_of_neg (by simpa using hip), hrest, hcalls]

theorem tracks_new (max : UInt32) (window : Duration) (ip : IpAddr) : (new max window).Tracks ip 0 none :=
  fun _ hk => by cases hk

theorem callsOf_filter (ip : IpAddr) (es : List LimiterEvent) :
    callsOf ip (es.filter (LimiterEvent.isAllowOf ip)) = callsOf ip es := by
  rw [callsOf, List.filter_filter]
  simp [callsOf]

theorem callsOf_pairwise (ip : IpAddr) {es : List LimiterEvent}
    (hclock : es.Pairwise fun e e' => e.now ≤ e'.now) : (callsOf ip es).Pairwise (· ≤ ·) :=
  List.pairwise_map.mpr (hclock.filter _)

theorem countP_of_client {ds : List Decision} {ip : IpAddr} {max : UInt32} {ps : List (ℕ × Counter)}
    (h : ds.filter (fun d => d.ip = ip) = ps.map (decided ip max)) (P : Decision → Prop) [DecidablePred P] :
    (ds.countP fun d => d.ip = ip ∧ P d) = ps.countP fun p => P (decided ip max p) := by
  have hfilter := List.countP_filter (p := fun d => decide (P d)) (q := fun d : Decision => decide (d.ip = ip)) (l := ds)
  rw [h, List.countP_map] at hfilter
  simp only [Bool.decide_and, Bool.and_comm (decide (_ = ip)), ← hfilter]
  rfl

section Client
variable {ds : List Decision} {ip : IpAddr} {max : UInt32} {window : Duration} {calls : List ℕ}
variable (hclient : ds.filter (fun d => d.ip = ip) = (Counter.counters window none calls).map (decided ip max))
include hclient

/-- A counter does not wrap around if the client has few decisions in each of its windows. -/
theorem count_lt_of_few (hfew : ∀ d ∈ ds, (ds.countP fun d' => d'.ip = d.ip ∧ d'.window = d.window) < 2 ^ 32)
    {p : ℕ × Counter} (hp : p ∈ Counter.counters window none calls) : p.2.count < 2 ^ 32 := by
  have hmem : decided ip max p ∈ ds.filter fun d => d.ip = ip := by
    rw [hclient]
    exact List.mem_map_of_mem hp
  have hlt := hfew _ (List.mem_of_mem_filter hmem)
  have hle := Counter.count_le hp
  change (ds.countP fun d' => d'.ip = ip ∧ d'.window = p.2.start) < _ at hlt
  rw [countP_of_client hclient] at hlt
  rw [Option.elim_none, Nat.zero_add] at hle
  exact hle.trans_lt hlt

theorem countP_allowed (hfits : ∀ p ∈ Counter.counters window none calls, p.2.count < 2 ^ 32) (a b : ℕ) :
    (ds.countP fun d => d.ip = ip ∧ d.allowed ∧ a ≤ d.now ∧ d.now < b) =
      (Counter.counters window none calls).countP (Counter.letThrough max.toNat a b) := by
  rw [countP_of_client hclient]
  refine List.countP_congr fun p hp => ?_
  simp only [decided, Counter.letThrough, decide_eq_true_eq, UInt32.le_iff_toNat_le,
    UInt32.toNat_ofNat_of_lt' (hfits p hp)]

end Client

theorem exists_of_mem_decisions {l : RateLimiter} {es : List LimiterEvent} {d : Decision}
    (h : d ∈ l.decisions es) : ∃ e ∈ es, e.call = .allow d.ip := by
  induction es generalizing l with
  | nil => cases h
  | cons e es ih =>
    obtain ⟨now, call⟩ := e
    cases call with
    | cleanup =>
      obtain ⟨e, he, hcall⟩ := ih h
      exact ⟨e, List.mem_cons_of_mem _ he, hcall⟩
    | allow ip =>
      obtain rfl | h := List.mem_cons.mp h
      · exact ⟨_, List.mem_cons_self, rfl⟩
      · obtain ⟨e, he, hcall⟩ := ih h
        exact ⟨e, List.mem_cons_of_mem _ he, hcall⟩

theorem decisions_filter_self (l : RateLimiter) (ip : IpAddr) (es : List LimiterEvent) :
    (l.decisions (es.filter (LimiterEvent.isAllowOf ip))).filter (fun d => d.ip = ip) =
      l.decisions (es.filter (LimiterEvent.isAllowOf ip)) := by
  rw [List.filter_eq_self]
  intro d hd
  obtain ⟨e, he, hcall⟩ := exists_of_mem_decisions hd
  have hown := of_decide_eq_true (List.mem_filter.mp he).2
  rw [hcall] at hown
  exact decide_eq_true (LimiterCall.allow.inj hown)

/-! ## The guarantee -/

/-- **What a client is allowed.** Its results do not depend on other clients and on `cleanup`. Every
half-open interval of the length of a window has at most `2 * max` allowed calls, and every window has at
most `max`. -/
theorem limiter_guarantee (max : UInt32) (window : Duration) (hmax : 1 ≤ max) (hwindow : 0 < window)
    (es : List LimiterEvent) (hclock : es.Pairwise fun e e' => e.now ≤ e'.now)
    (hfew : ∀ d ∈ (new max window).decisions es,
      (((new max window).decisions es).countP fun d' => d'.ip = d.ip ∧ d'.window = d.window) < 2 ^ 32)
    (ip : IpAddr) :
    ((new max window).decisions es).filter (fun d => d.ip = ip) =
        (new max window).decisions (es.filter (LimiterEvent.isAllowOf ip)) ∧
      (∀ a, (((new max window).decisions es).countP fun d =>
        d.ip = ip ∧ d.allowed ∧ a ≤ d.now ∧ d.now < a + window) ≤ 2 * max.toNat) ∧
      ∀ d ∈ (new max window).decisions es, d.ip = ip →
        (((new max window).decisions es).countP fun d' =>
          d'.ip = ip ∧ d'.allowed ∧ d.window ≤ d'.now ∧ d'.now < d.window + window) ≤ max.toNat := by
  have hne : (new max window).maxPerWindow ≠ 0 := by
    rintro (rfl : max = 0)
    exact absurd hmax (by decide)
  have hclient := decisions_of_client hne (tracks_new max window ip) hclock fun _ _ => Nat.zero_le _
  have hsorted := callsOf_pairwise ip hclock
  change _ = (Counter.counters window none (callsOf ip es)).map (decided ip max) at hclient
  have hthrough := countP_allowed hclient fun p hp => count_lt_of_few hclient hfew hp
  refine ⟨?_, fun a => ?_, fun d hd hip => ?_⟩
  · -- both runs are the same counter
    have halone := decisions_of_client hne (tracks_new max window ip) (hclock.filter (LimiterEvent.isAllowOf ip))
      fun _ _ => Nat.zero_le _
    rw [decisions_filter_self, callsOf_filter] at halone
    exact hclient.trans halone.symm
  · rw [hthrough]
    exact Counter.countP_interval hsorted
  · have hmem : d ∈ ((new max window).decisions es).filter fun d => d.ip = ip :=
      List.mem_filter.mpr ⟨hd, decide_eq_true hip⟩
    rw [hclient] at hmem
    obtain ⟨p, hp, rfl⟩ := List.mem_map.mp hmem
    rw [hthrough]
    exact Counter.countP_window hwindow hsorted hp

/-- Two clients and a cleanup that drops the first window of one of them. -/
def twoClients : List LimiterEvent :=
  let first := IpAddr.v4 ⟨10, 0, 0, 1⟩
  let second := IpAddr.v4 ⟨10, 0, 0, 2⟩
  [⟨0, .allow first⟩, ⟨4, .allow first⟩, ⟨6, .allow second⟩, ⟨10, .cleanup⟩, ⟨12, .allow first⟩]

theorem limiter_guarantee_twoClients :
    ((new 1 10).decisions twoClients).filter (fun d => d.ip = .v4 ⟨10, 0, 0, 1⟩) =
      (new 1 10).decisions (twoClients.filter (LimiterEvent.isAllowOf (.v4 ⟨10, 0, 0, 1⟩))) :=
  (limiter_guarantee 1 10 (by decide) (by decide) twoClients (by decide) (by decide) _).1

end RateLimiter
end MiniDns
