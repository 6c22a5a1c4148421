import MiniDns.Lib.Runs
import MiniDns.OwnQuestion
import Mathlib.Logic.Function.Basic

/-! Concurrent calls of `forward_ctx`. The first call for a key leads and asks upstream; later calls
join its channel until its guard is dropped. A call is a task whose steps interleave with the steps of
all other calls; a map entry stands for the receiver that it holds. -/
namespace MiniDns
open Lib Lib.Outcome Dns DnsPacket Function
set_option autoImplicit false

/-! ## Tasks -/

/-- How far a call has come. A leader asks upstream, has the bytes, has published them, has dropped its
guard, and has returned; or it is torn down before it has published. A follower waits and returns. -/
inductive Phase where
  | start
  | asking
  | fetched (raw : Bytes)
  | published (raw : Bytes)
  | unwinding
  | closing (raw : Option Bytes)
  | led (raw : Bytes)
  | waiting (leader : TaskId)
  | followed (leader : TaskId) (shared : Option Bytes)
  | cancelled
  deriving DecidableEq, Repr

def Phase.leads : Phase → Bool
  | .asking | .fetched _ | .published _ | .unwinding => true
  | _ => false

def Phase.ended : Phase → Bool
  | .led _ | .followed _ _ | .cancelled => true
  | _ => false

def Phase.sent : Phase → Option Bytes
  | .published raw | .closing (some raw) | .led raw => some raw
  | _ => none

def Phase.raw : Phase → Option Bytes
  | .fetched raw => some raw
  | phase => phase.sent

def followerReply (ctx : ForwardCtx) : Option Bytes → Outcome Empty Bytes
  | some reply => replay reply ctx.request ctx.transport
  | none => replay (synthResponse ctx.request [] rcodeServfail).toBytes ctx.request ctx.transport

def Phase.reply (ctx : ForwardCtx) : Phase → Option (Outcome Empty Bytes)
  | .led raw => some (replay raw ctx.request ctx.transport)
  | .followed _ shared => some (followerReply ctx shared)
  | _ => none

/-- The single-flight map, and for each leader its watch channel: the last value sent, the number of
receivers outside of the map, and whether the sender has been dropped. -/
structure Flights where
  phase : TaskId → Phase
  inflight : Text × UInt16 → Option TaskId
  shared : TaskId → Option Bytes
  receivers : TaskId → ℕ
  closed : TaskId → Bool

inductive FlightAction where
  | enter (t : TaskId)
  | complete (t : TaskId) (st : ServerState) (answeredAt : Instant) (result : Option Bytes)
  | publish (t : TaskId)
  | dropGuard (t : TaskId)
  | dropSender (t : TaskId)
  | cancel (t : TaskId)
  | wake (t : TaskId)

def ForwardCtx.key (ctx : ForwardCtx) : Text × UInt16 := (ctx.name, ctx.qtype)

namespace Flights

def init : Flights := ⟨fun _ => .start, fun _ => none, fun _ => none, fun _ => 0, fun _ => false⟩

def setPhase (w : Flights) (t : TaskId) (phase : Phase) : Flights := { w with phase := update w.phase t phase }

/-- One atomic step. The server state in which an upstream query completes is whatever other calls have
made of it. -/
def step (rt : Runtime) (calls : TaskId → ForwardCtx) (w : Flights) : FlightAction → Option Flights
  | .enter t =>
    match w.phase t with
    | .start =>
      match w.inflight (calls t).key with
      | some leader =>
        some { w.setPhase t (.waiting leader) with
          receivers := update w.receivers leader (w.receivers leader + 1) }
      | none => some { w.setPhase t .asking with inflight := update w.inflight (calls t).key (some t) }
    | _ => none
  | .complete t st answeredAt result =>
    match w.phase t with
    | .asking =>
      match st.forwardAndCache rt answeredAt (calls t) result with
      | ok (raw, _) => some (w.setPhase t (.fetched raw))
      | _ => some (w.setPhase t .unwinding)
    | _ => none
  | .publish t =>
    match w.phase t with
    | .fetched raw =>
      -- `send` stores nothing when there is no receiver
      if w.inflight (calls t).key = some t ∨ 0 < w.receivers t then
        some { w.setPhase t (.published raw) with shared := update w.shared t (some raw) }
      else some (w.setPhase t (.published raw))
    | _ => none
  | .dropGuard t =>
    match w.phase t with
    | .published raw =>
      some { w.setPhase t (.closing (some raw)) with inflight := update w.inflight (calls t).key none }
    | .unwinding => some { w.setPhase t (.closing none) with inflight := update w.inflight (calls t).key none }
    | _ => none
  | .dropSender t =>
    match w.phase t with
    | .closing (some raw) => some { w.setPhase t (.led raw) with closed := update w.closed t true }
    | .closing none => some { w.setPhase t .cancelled with closed := update w.closed t true }
    | _ => none
  | .cancel t =>
    match w.phase t with
    | .start => some (w.setPhase t .cancelled)
    | .asking => some (w.setPhase t .unwinding)
    | .waiting leader =>
      some { w.setPhase t .cancelled with
        receivers := update w.receivers leader (w.receivers leader - 1) }
    | _ => none
  | .wake t =>
    match w.phase t with
    | .waiting leader =>
      if w.shared leader ≠ none ∨ w.closed leader then
        some { w.setPhase t (.followed leader (w.shared leader)) with
          receivers := update w.receivers leader (w.receivers leader - 1) }
      else none
    | _ => none

/-! ## What a step can do -/

def finished : Option Bytes → Phase
  | some raw => .led raw
  | none => .cancelled

inductive Moves (rt : Runtime) (calls : TaskId → ForwardCtx) (w : Flights) : Flights → Prop
  | lead {t : TaskId} : w.phase t = .start → w.inflight (calls t).key = none →
      Moves rt calls w { w.setPhase t .asking with inflight := update w.inflight (calls t).key (some t) }
  | join {t leader : TaskId} {receivers : TaskId → ℕ} : w.phase t = .start →
      w.inflight (calls t).key = some leader →
      Moves rt calls w { w.setPhase t (.waiting leader) with receivers := receivers }
  | fetch {t : TaskId} {st st' : ServerState} {answeredAt : Instant} {result : Option Bytes} {raw : Bytes} :
      w.phase t = .asking → st.forwardAndCache rt answeredAt (calls t) result = ok (raw, st') →
      Moves rt calls w (w.setPhase t (.fetched raw))
  | unwind {t : TaskId} : w.phase t = .asking → Moves rt calls w (w.setPhase t .unwinding)
  | publish {t : TaskId} {raw : Bytes} : w.phase t = .fetched raw →
      Moves rt calls w { w.setPhase t (.published raw) with shared := update w.shared t (some raw) }
  | mute {t : TaskId} {raw : Bytes} : w.phase t = .fetched raw → w.inflight (calls t).key ≠ some t →
      Moves rt calls w (w.setPhase t (.published raw))
  | unguard {t : TaskId} {raw : Option Bytes} :
      (∃ bytes, w.phase t = .published bytes ∧ raw = some bytes) ∨ w.phase t = .unwinding ∧ raw = none →
      Moves rt calls w { w.setPhase t (.closing raw) with inflight := update w.inflight (calls t).key none }
  | close {t : TaskId} {raw : Option Bytes} : w.phase t = .closing raw →
      Moves rt calls w { w.setPhase t (finished raw) with closed := update w.closed t true }
  | leave {t : TaskId} {receivers : TaskId → ℕ} : (w.phase t = .start ∨ ∃ leader, w.phase t = .waiting leader) →
      Moves rt calls w { w.setPhase t .cancelled with receivers := receivers }
  | follow {t leader : TaskId} {receivers : TaskId → ℕ} : w.phase t = .waiting leader →
      (w.shared leader ≠ none ∨ w.closed leader) →
      Moves rt calls w { w.setPhase t (.followed leader (w.shared leader)) with receivers := receivers }

variable {rt : Runtime} {calls : TaskId → ForwardCtx} {w w' : Flights} {a : FlightAction}

theorem moves_of_step (h : step rt calls w a = some w') : Moves rt calls w w' := by
  cases a with
  | enter t =>
    simp only [step] at h
    split at h
    · rename_i hphase
      split at h
      · rename_i leader hentry
        obtain rfl := Option.some.inj h
        exact .join hphase hentry
      · rename_i hentry
        obtain rfl := Option.some.inj h
        exact .lead hphase hentry
    · cases h
  | complete t st answeredAt result =>
    simp only [step] at h
    split at h
    · rename_i hphase
      split at h
      · rename_i raw st' hraw
        obtain rfl := Option.some.inj h
        exact .fetch hphase hraw
      · obtain rfl := Option.some.inj h
        exact .unwind hphase
    · cases h
  | publish t =>
    simp only [step] at h
    split at h
    · rename_i raw hphase
      split at h
      · obtain rfl := Option.some.inj h
        exact .publish hphase
      · rename_i hsend
        obtain rfl := Option.some.inj h
        exact .mute hphase fun hentry => hsend (.inl hentry)
    · cases h
  | dropGuard t =>
    simp only [step] at h
    split at h
    · rename_i raw hphase
      obtain rfl := Option.some.inj h
      exact .unguard (.inl ⟨raw, hphase, rfl⟩)
    · rename_i hphase
      obtain rfl := Option.some.inj h
      exact .unguard (.inr ⟨hphase, rfl⟩)
    · cases h
  | dropSender t =>
    simp only [step] at h
    split at h
    · rename_i raw hphase
      obtain rfl := Option.some.inj h
      exact .close hphase
    · rename_i hphase
      obtain rfl := Option.some.inj h
      exact .close hphase
    · cases h
  | cancel t =>
    simp only [step] at h
    split at h
    · rename_i hphase
      obtain rfl := Option.some.inj h
      exact .leave (.inl hphase)
    · rename_i hphase
      obtain rfl := Option.some.inj h
      exact .unwind hphase
    · rename_i leader hphase
      obtain rfl := Option.some.inj h
      exact .leave (.inr ⟨leader, hphase⟩)
    · cases h
  | wake t =>
    simp only [step] at h
    split at h
    · rename_i leader hphase
      split at h
      · rename_i hready
        obtain rfl := Option.some.inj h
        exact .follow hphase hready
      · cases h
    · cases h

/-! ## Invariants -/

def EntriesLead (calls : TaskId → ForwardCtx) (w : Flights) : Prop :=
  ∀ k t, w.inflight k = some t ↔ (calls t).key = k ∧ (w.phase t).leads

def SharedSent (w : Flights) : Prop := ∀ t, w.shared t = (w.phase t).sent

def ClosedEnded (w : Flights) : Prop :=
  ∀ t, w.closed t → w.phase t = .cancelled ∨ ∃ raw, w.phase t = .led raw

def Owns (w : Flights) (leader : TaskId) : Prop :=
  (w.phase leader).leads ∨ (∃ raw, w.phase leader = .closing raw) ∨ w.closed leader

/-- A follower waits for the sender of a leader of its key. -/
def WaitersJoined (calls : TaskId → ForwardCtx) (w : Flights) : Prop :=
  ∀ t leader, w.phase t = .waiting leader → (calls leader).key = (calls t).key ∧ w.Owns leader

def FollowersServed (calls : TaskId → ForwardCtx) (w : Flights) : Prop :=
  ∀ t leader shared, w.phase t = .followed leader shared → (calls leader).key = (calls t).key ∧
    shared = (w.phase leader).sent ∧ (shared = none → w.phase leader = .cancelled)

theorem setPhase_self (w : Flights) (t : TaskId) (phase : Phase) : (w.setPhase t phase).phase t = phase :=
  update_self ..

theorem setPhase_of_ne (w : Flights) {t t' : TaskId} (h : t' ≠ t) (phase : Phase) :
    (w.setPhase t phase).phase t' = w.phase t' :=
  update_of_ne h ..

theorem EntriesLead.setPhase (h : EntriesLead calls w) {t : TaskId} {phase : Phase}
    (hleads : phase.leads = (w.phase t).leads) : EntriesLead calls (w.setPhase t phase) := by
  intro k t'
  rw [show (w.setPhase t phase).inflight = w.inflight from rfl, h k t']
  by_cases ht : t' = t
  · subst ht
    rw [setPhase_self, hleads]
  · rw [setPhase_of_ne w ht]

theorem EntriesLead.setEntry (h : EntriesLead calls w) {t : TaskId} {phase : Phase}
    (hown : ∀ t', w.inflight (calls t).key = some t' → t' = t) :
    EntriesLead calls { w.setPhase t phase with
      inflight := update w.inflight (calls t).key (if phase.leads then some t else none) } := by
  intro k t'
  dsimp only
  by_cases hk : k = (calls t).key
  · subst hk
    rw [update_self]
    by_cases ht : t' = t
    · subst ht
      rw [setPhase_self]
      cases phase.leads <;> simp
    · have hother : w.inflight (calls t).key ≠ some t' := fun hentry => ht (hown t' hentry)
      rw [setPhase_of_ne w ht, ← h]
      cases phase.leads <;> simp [Ne.symm ht, hother]
  · rw [update_of_ne hk, h]
    by_cases ht : t' = t
    · subst ht
      simp [Ne.symm hk]
    · rw [setPhase_of_ne w ht]

theorem EntriesLead.step (h : EntriesLead calls w) (hmoves : Moves rt calls w w') : EntriesLead calls w' := by
  cases hmoves with
  | @lead t hphase hentry => exact h.setEntry (by simp [hentry])
  | join hphase _ => exact h.setPhase (by rw [hphase]; rfl)
  | fetch hphase _ => exact h.setPhase (by rw [hphase]; rfl)
  | unwind hphase => exact h.setPhase (by rw [hphase]; rfl)
  | publish hphase => exact h.setPhase (by rw [hphase]; rfl)
  | mute hphase _ => exact h.setPhase (by rw [hphase]; rfl)
  | @unguard t raw hphase =>
    have hown : w.inflight (calls t).key = some t := by
      rw [h]
      obtain ⟨_, hphase, _⟩ | ⟨hphase, _⟩ := hphase <;> exact ⟨rfl, by rw [hphase]; rfl⟩
    exact h.setEntry (by simp [hown])
  | @close t raw hphase => exact h.setPhase (by rw [hphase]; cases raw <;> rfl)
  | leave hphase => exact h.setPhase (by obtain hphase | ⟨_, hphase⟩ := hphase <;> rw [hphase] <;> rfl)
  | follow hphase _ => exact h.setPhase (by rw [hphase]; rfl)

theorem SharedSent.setPhase (h : SharedSent w) {t : TaskId} {phase : Phase} (hsent : phase.sent = (w.phase t).sent) :
    SharedSent (w.setPhase t phase) := by
  intro t'
  rw [show (w.setPhase t phase).shared = w.shared from rfl, h t']
  by_cases ht : t' = t
  · subst ht
    rw [setPhase_self, hsent]
  · rw [setPhase_of_ne w ht]

/-- The map holds a receiver for as long as a guard is there, so no leader publishes in vain. -/
theorem SharedSent.step (h : SharedSent w) (hentries : EntriesLead calls w) (hmoves : Moves rt calls w w') :
    SharedSent w' := by
  cases hmoves with
  | lead hphase _ => exact h.setPhase (by rw [hphase]; rfl)
  | join hphase _ => exact h.setPhase (by rw [hphase]; rfl)
  | fetch hphase _ => exact h.setPhase (by rw [hphase]; rfl)
  | unwind hphase => exact h.setPhase (by rw [hphase]; rfl)
  | @publish t raw hphase =>
    intro t'
    dsimp only
    by_cases ht : t' = t
    · subst ht
      rw [update_self, setPhase_self]
      rfl
    · rw [update_of_ne ht, setPhase_of_ne w ht, h t']
  | mute hphase hentry => exact absurd ((hentries _ _).mpr ⟨rfl, by rw [hphase]; rfl⟩) hentry
  | unguard hphase =>
    obtain ⟨_, hphase, rfl⟩ | ⟨hphase, rfl⟩ := hphase <;> exact h.setPhase (by rw [hphase]; rfl)
  | @close t raw hphase => exact h.setPhase (by rw [hphase]; cases raw <;> rfl)
  | leave hphase => exact h.setPhase (by obtain hphase | ⟨_, hphase⟩ := hphase <;> rw [hphase] <;> rfl)
  | follow hphase _ => exact h.setPhase (by rw [hphase]; rfl)

theorem Moves.one (hmoves : Moves rt calls w w') : ∃ t phase, w'.phase = update w.phase t phase ∧
    (w.phase t).ended = false := by
  cases hmoves with
  | lead hphase _ => exact ⟨_, _, rfl, by rw [hphase]; rfl⟩
  | join hphase _ => exact ⟨_, _, rfl, by rw [hphase]; rfl⟩
  | fetch hphase _ => exact ⟨_, _, rfl, by rw [hphase]; rfl⟩
  | unwind hphase => exact ⟨_, _, rfl, by rw [hphase]; rfl⟩
  | publish hphase => exact ⟨_, _, rfl, by rw [hphase]; rfl⟩
  | mute hphase _ => exact ⟨_, _, rfl, by rw [hphase]; rfl⟩
  | unguard hphase =>
    obtain ⟨_, hphase, _⟩ | ⟨hphase, _⟩ := hphase <;> exact ⟨_, _, rfl, by rw [hphase]; rfl⟩
  | close hphase => exact ⟨_, _, rfl, by rw [hphase]; rfl⟩
  | leave hphase => obtain hphase | ⟨_, hphase⟩ := hphase <;> exact ⟨_, _, rfl, by rw [hphase]; rfl⟩
  | follow hphase _ => exact ⟨_, _, rfl, by rw [hphase]; rfl⟩

theorem Moves.ended (hmoves : Moves rt calls w w') {t : TaskId} (h : (w.phase t).ended) :
    w'.phase t = w.phase t := by
  obtain ⟨t₀, phase, hphase, hended⟩ := hmoves.one
  have hne : t ≠ t₀ := by
    rintro rfl
    rw [hended] at h
    cases h
  rw [hphase, update_of_ne hne]

theorem ClosedEnded.step (h : ClosedEnded w) (hmoves : Moves rt calls w w') : ClosedEnded w' := by
  intro t ht
  by_cases hclosed : w.closed t
  · have hended := h t hclosed
    rwa [hmoves.ended (by obtain hend | ⟨_, hend⟩ := hended <;> rw [hend] <;> rfl)]
  · cases hmoves with
    | @close t₀ raw hphase =>
      dsimp only at ht ⊢
      by_cases heq : t = t₀
      · subst heq
        rw [setPhase_self]
        cases raw with
        | none => exact .inl rfl
        | some raw => exact .inr ⟨raw, rfl⟩
      · rw [update_of_ne heq] at ht
        exact absurd ht hclosed
    | _ => exact absurd ht hclosed

theorem Owns.of_same {leader : TaskId} (h : w.Owns leader) (hphase : w'.phase leader = w.phase leader)
    (hclosed : w.closed leader → w'.closed leader) : w'.Owns leader := by
  obtain hleads | hclosing | hclose := h
  · exact .inl (hphase ▸ hleads)
  · exact .inr (.inl (hphase ▸ hclosing))
  · exact .inr (.inr (hclosed hclose))

/-- A leader that loses its guard still has its sender, until it drops it. -/
theorem Owns.step {leader : TaskId} (h : w.Owns leader) (hmoves : Moves rt calls w w') : w'.Owns leader := by
  have hclosed : w.closed leader → w'.closed leader := by
    intro hclose
    cases hmoves with
    | @close t raw _ =>
      dsimp only
      by_cases ht : leader = t
      · rw [ht, update_self]
      · rw [update_of_ne ht, hclose]
    | _ => exact hclose
  have hstay : ∀ {t phase}, w'.phase = update w.phase t phase → leader ≠ t → w'.Owns leader := fun hphase ht =>
    h.of_same (by rw [hphase, update_of_ne ht]) hclosed
  have hother : ∀ {t phase}, w'.phase = update w.phase t phase → (w.phase t).leads = false →
      (∀ raw, w.phase t ≠ .closing raw) → w'.Owns leader := by
    intro t phase hphase hleads hclosing
    by_cases ht : leader = t
    · subst ht
      obtain hlead | ⟨raw, hclose⟩ | hclose := h
      · rw [hleads] at hlead
        cases hlead
      · exact absurd hclose (hclosing raw)
      · exact .inr (.inr (hclosed hclose))
    · exact hstay hphase ht
  have hleads : ∀ {t phase}, w'.phase = update w.phase t phase →
      (phase.leads ∨ ∃ raw, phase = .closing raw) → w'.Owns leader := by
    intro t phase hphase hnew
    by_cases ht : leader = t
    · subst ht
      rw [Owns, hphase, update_self]
      exact hnew.elim .inl fun hclose => .inr (.inl hclose)
    · exact hstay hphase ht
  cases hmoves with
  | lead => exact hleads rfl (.inl rfl)
  | join hphase _ => exact hother rfl (by rw [hphase]; rfl) (by simp [hphase])
  | fetch => exact hleads rfl (.inl rfl)
  | unwind => exact hleads rfl (.inl rfl)
  | publish => exact hleads rfl (.inl rfl)
  | mute => exact hleads rfl (.inl rfl)
  | unguard => exact hleads rfl (.inr ⟨_, rfl⟩)
  | @close t raw hphase =>
    by_cases ht : leader = t
    · subst ht
      exact .inr (.inr (update_self ..))
    · exact hstay rfl ht
  | leave hphase =>
    obtain hphase | ⟨_, hphase⟩ := hphase <;> exact hother rfl (by rw [hphase]; rfl) (by simp [hphase])
  | follow hphase _ => exact hother rfl (by rw [hphase]; rfl) (by simp [hphase])

theorem setPhase_cases {t t₀ : TaskId} {phase q : Phase} (h : (w.setPhase t₀ phase).phase t = q) :
    w.phase t = q ∨ t = t₀ ∧ phase = q := by
  by_cases ht : t = t₀
  · subst ht
    rw [setPhase_self] at h
    exact .inr ⟨rfl, h⟩
  · rw [setPhase_of_ne w ht] at h
    exact .inl h

theorem Moves.waiting (hmoves : Moves rt calls w w') {t leader : TaskId} (h : w'.phase t = .waiting leader) :
    w.phase t = .waiting leader ∨ w.inflight (calls t).key = some leader := by
  cases hmoves with
  | @join t₀ leader₀ _ hphase hentry =>
    obtain hold | ⟨rfl, hnew⟩ := setPhase_cases h
    · exact .inl hold
    · obtain rfl := Phase.waiting.inj hnew
      exact .inr hentry
  | @close t₀ raw hphase =>
    obtain hold | ⟨rfl, hnew⟩ := setPhase_cases h
    · exact .inl hold
    · cases raw <;> cases hnew
  | _ =>
    obtain hold | ⟨rfl, hnew⟩ := setPhase_cases h
    · exact .inl hold
    · cases hnew

theorem Moves.followed (hmoves : Moves rt calls w w') {t leader : TaskId} {shared : Option Bytes}
    (h : w'.phase t = .followed leader shared) : w.phase t = .followed leader shared ∨
      w.phase t = .waiting leader ∧ shared = w.shared leader ∧ (w.shared leader ≠ none ∨ w.closed leader) := by
  cases hmoves with
  | @follow t₀ leader₀ _ hphase hready =>
    obtain hold | ⟨rfl, hnew⟩ := setPhase_cases h
    · exact .inl hold
    · obtain ⟨rfl, rfl⟩ := Phase.followed.inj hnew
      exact .inr ⟨hphase, rfl, hready⟩
  | @close t₀ raw hphase =>
    obtain hold | ⟨rfl, hnew⟩ := setPhase_cases h
    · exact .inl hold
    · cases raw <;> cases hnew
  | _ =>
    obtain hold | ⟨rfl, hnew⟩ := setPhase_cases h
    · exact .inl hold
    · cases hnew

theorem WaitersJoined.step (h : WaitersJoined calls w) (hentries : EntriesLead calls w)
    (hmoves : Moves rt calls w w') : WaitersJoined calls w' := by
  intro t leader hwaits
  obtain hwaits | hentry := hmoves.waiting hwaits
  · obtain ⟨hkey, howns⟩ := h t leader hwaits
    exact ⟨hkey, howns.step hmoves⟩
  · obtain ⟨hkey, hleads⟩ := (hentries _ _).mp hentry
    exact ⟨hkey, Owns.step (.inl hleads) hmoves⟩

theorem Moves.shared (hmoves : Moves rt calls w w') (hshared : SharedSent w) {t : TaskId} {raw : Bytes}
    (h : w.shared t = some raw) : w'.shared t = some raw := by
  cases hmoves with
  | @publish t₀ raw₀ hphase =>
    have hne : t ≠ t₀ := by
      rintro rfl
      rw [hshared, hphase] at h
      cases h
    exact (update_of_ne hne ..).trans h
  | _ => exact h

theorem FollowersServed.step (h : FollowersServed calls w) (hshared : SharedSent w) (hshared' : SharedSent w')
    (hclosed : ClosedEnded w) (hwaiters : WaitersJoined calls w) (hmoves : Moves rt calls w w') :
    FollowersServed calls w' := by
  -- the leader keeps what it has published, and one that was cancelled stays so
  have hkeep : ∀ leader shared, shared = w.shared leader → (shared = none → w.phase leader = .cancelled) →
      shared = (w'.phase leader).sent ∧ (shared = none → w'.phase leader = .cancelled) := by
    intro leader shared hsame hnone
    cases shared with
    | none =>
      have hcancelled := hnone rfl
      have hstay := hmoves.ended (t := leader) (by rw [hcancelled]; rfl)
      rw [hstay, hcancelled]
      exact ⟨rfl, fun _ => rfl⟩
    | some raw =>
      rw [← hshared', hmoves.shared hshared hsame.symm]
      exact ⟨rfl, by simp⟩
  intro t leader shared hfollowed
  obtain hfollowed | ⟨hwaits, rfl, hready⟩ := hmoves.followed hfollowed
  · obtain ⟨hkey, hsent, hnone⟩ := h t leader shared hfollowed
    exact ⟨hkey, hkeep leader shared (by rw [hshared, hsent]) hnone⟩
  · refine ⟨(hwaiters t leader hwaits).1, hkeep leader _ rfl fun hnone => ?_⟩
    obtain hcancelled | ⟨raw, hled⟩ := hclosed leader (hready.resolve_left (not_not.mpr hnone))
    · exact hcancelled
    · rw [hshared, hled] at hnone
      cases hnone

def RawFetched (rt : Runtime) (calls : TaskId → ForwardCtx) (w : Flights) : Prop :=
  ∀ t raw, (w.phase t).raw = some raw → ∃ (st st' : ServerState) (answeredAt : Instant) (result : Option Bytes),
    st.forwardAndCache rt answeredAt (calls t) result = ok (raw, st')

theorem RawFetched.setPhase (h : RawFetched rt calls w) {t : TaskId} {phase : Phase}
    (hraw : phase.raw = none ∨ phase.raw = (w.phase t).raw) : RawFetched rt calls (w.setPhase t phase) := by
  intro t' raw ht'
  by_cases ht : t' = t
  · subst ht
    rw [setPhase_self] at ht'
    obtain hnone | hsame := hraw
    · rw [hnone] at ht'
      cases ht'
    · exact h t' raw (hsame ▸ ht')
  · rw [setPhase_of_ne w ht] at ht'
    exact h t' raw ht'

theorem RawFetched.step (h : RawFetched rt calls w) (hmoves : Moves rt calls w w') : RawFetched rt calls w' := by
  cases hmoves with
  | @fetch t st st' answeredAt result raw hphase hraw =>
    intro t' raw' ht'
    by_cases ht : t' = t
    · subst ht
      rw [setPhase_self] at ht'
      obtain rfl := Option.some.inj ht'
      exact ⟨st, st', answeredAt, result, hraw⟩
    · rw [setPhase_of_ne w ht] at ht'
      exact h t' raw' ht'
  | publish hphase => exact h.setPhase (.inr (by rw [hphase]; rfl))
  | mute hphase _ => exact h.setPhase (.inr (by rw [hphase]; rfl))
  | unguard hphase =>
    obtain ⟨_, hphase, rfl⟩ | ⟨hphase, rfl⟩ := hphase <;> exact h.setPhase (.inr (by rw [hphase]; rfl))
  | @close t raw hphase => exact h.setPhase (.inr (by rw [hphase]; cases raw <;> rfl))
  | _ => exact h.setPhase (.inl rfl)

structure Sound (rt : Runtime) (calls : TaskId → ForwardCtx) (w : Flights) : Prop where
  entries : EntriesLead calls w
  shared : SharedSent w
  closed : ClosedEnded w
  waiters : WaitersJoined calls w
  followers : FollowersServed calls w
  raws : RawFetched rt calls w

theorem sound_init (rt : Runtime) (calls : TaskId → ForwardCtx) : Sound rt calls init where
  entries := by simp [EntriesLead, init, Phase.leads]
  shared := by simp [SharedSent, init, Phase.sent]
  closed := by simp [ClosedEnded, init]
  waiters := by simp [WaitersJoined, init]
  followers := by simp [FollowersServed, init]
  raws := by simp [RawFetched, init, Phase.raw, Phase.sent]

theorem Sound.step (h : Sound rt calls w) (hstep : step rt calls w a = some w') : Sound rt calls w' := by
  have hmoves := moves_of_step hstep
  have hshared := h.shared.step h.entries hmoves
  exact ⟨h.entries.step hmoves, hshared, h.closed.step hmoves, h.waiters.step h.entries hmoves,
    h.followers.step h.shared hshared h.closed h.waiters hmoves, h.raws.step hmoves⟩

theorem sound_of_run {acts : List FlightAction} (h : run (Flights.step rt calls) init acts = some w) :
    Sound rt calls w :=
  run_preserves (fun _ _ _ hs hstep => Sound.step hs hstep) (sound_init rt calls) h

/-! ## Every interleaving -/

/-- What single flight promises of a state. -/
structure Safe (rt : Runtime) (calls : TaskId → ForwardCtx) (w : Flights) : Prop where
  /-- At most one leader is active for a key. -/
  oneLeader : ∀ t t', (calls t).key = (calls t').key → (w.phase t).leads → (w.phase t').leads → t = t'
  /-- The map has the keys whose leader has entered and not dropped its guard. -/
  entryIff : ∀ k, w.inflight k ≠ none ↔ ∃ t, (calls t).key = k ∧ (w.phase t).leads
  /-- A guard removes the entry of its own leader. -/
  ownEntry : ∀ t w', step rt calls w (.dropGuard t) = some w' → w.inflight (calls t).key = some t
  /-- A follower returns the replay of what the leader that it joined has published, or SERVFAIL if that
  leader was cancelled before. -/
  served : ∀ t leader shared, w.phase t = .followed leader shared → (calls leader).key = (calls t).key ∧
    ((∃ raw, (w.phase leader).sent = some raw ∧
        (w.phase t).reply (calls t) = some (replay raw (calls t).request (calls t).transport)) ∨
      w.phase leader = .cancelled ∧ (w.phase t).reply (calls t) =
        some (replay (synthResponse (calls t).request [] rcodeServfail).toBytes (calls t).request
          (calls t).transport))

theorem Sound.safe (h : Sound rt calls w) : Safe rt calls w where
  oneLeader := by
    intro t t' hkey ht ht'
    have hentry := (h.entries _ _).mpr ⟨hkey, ht⟩
    have hentry' := (h.entries _ _).mpr ⟨rfl, ht'⟩
    exact Option.some.inj (hentry.symm.trans hentry')
  entryIff := by
    intro k
    rw [Option.ne_none_iff_exists']
    exact exists_congr fun t => h.entries k t
  ownEntry := by
    intro t w' hstep
    rw [h.entries]
    simp only [Flights.step] at hstep
    split at hstep
    · rename_i hphase
      exact ⟨rfl, by rw [hphase]; rfl⟩
    · rename_i hphase
      exact ⟨rfl, by rw [hphase]; rfl⟩
    · cases hstep
  served := by
    intro t leader shared hphase
    obtain ⟨hkey, hsent, hnone⟩ := h.followers t leader shared hphase
    refine ⟨hkey, ?_⟩
    rw [hphase]
    cases shared with
    | some raw => exact .inl ⟨raw, hsent.symm, rfl⟩
    | none => exact .inr ⟨hnone rfl, rfl⟩

/-- **Single flight is safe in every interleaving of any number of calls.** -/
theorem single_flight (rt : Runtime) (calls : TaskId → ForwardCtx) (acts : List FlightAction) (w : Flights)
    (h : run (step rt calls) init acts = some w) : Safe rt calls w :=
  (sound_of_run h).safe

def twoCalls (t : TaskId) : ForwardCtx :=
  ⟨⟨⟨UInt16.ofNat t, 0x100, 0, 0, 0, 0⟩, [], [], [], []⟩, letterQuery 1 97, ['a'], 1, ⟨.v4 ⟨9, 9, 9, 9⟩, 53, 0⟩, .tcp⟩

/-- The first leads and the second joins; the upstream answers and both return. -/
theorem single_flight_twoCalls : ∃ w, run (step .ascii twoCalls) init
      [.enter 0, .enter 1, .complete 0 forwardingServer 0 (some (letterAnswer 1 97)), .publish 0, .wake 1,
        .dropGuard 0, .dropSender 0] = some w ∧
    w.phase 1 = .followed 0 (some (letterAnswer 1 97)) ∧ Safe .ascii twoCalls w := by
  have hrun : ((run (step .ascii twoCalls) init
      [.enter 0, .enter 1, .complete 0 forwardingServer 0 (some (letterAnswer 1 97)), .publish 0, .wake 1,
        .dropGuard 0, .dropSender 0]).map fun w => w.phase 1) =
      some (.followed 0 (some (letterAnswer 1 97))) := by
    decide
  obtain ⟨w, hw, hphase⟩ := Option.map_eq_some_iff.mp hrun
  exact ⟨w, hw, hphase, single_flight .ascii twoCalls _ w hw⟩

/-- **No follower is stranded**: its leader has a step to take, or the follower can be woken. -/
theorem follower_not_stranded {acts : List FlightAction} (h : run (step rt calls) init acts = some w)
    {t leader : TaskId} (hwaits : w.phase t = .waiting leader) :
    (∃ a ∈ [FlightAction.publish leader, .dropGuard leader, .dropSender leader, .cancel leader, .wake t],
      (step rt calls w a).isSome) := by
  obtain ⟨_, hleads | ⟨raw, hclosing⟩ | hclosed⟩ := (sound_of_run h).waiters t leader hwaits
  · cases hphase : w.phase leader with
    | asking => exact ⟨.cancel leader, by simp, by simp [step, hphase]⟩
    | fetched raw =>
      refine ⟨.publish leader, by simp, ?_⟩
      simp only [step, hphase]
      split <;> rfl
    | published raw => exact ⟨.dropGuard leader, by simp, by simp [step, hphase]⟩
    | unwinding => exact ⟨.dropGuard leader, by simp, by simp [step, hphase]⟩
    | _ =>
      rw [hphase] at hleads
      cases hleads
  · exact ⟨.dropSender leader, by simp, by cases raw <;> simp [step, hclosing]⟩
  · exact ⟨.wake t, by simp, by simp [step, hwaits, hclosed]⟩

/-- **What a call returns is what `forward_ctx` computes from the way in which its flight has ended.** -/
theorem reply_forwardCtx {acts : List FlightAction} (h : run (step rt calls) init acts = some w) {t : TaskId}
    {out : Outcome Empty Bytes} (hreply : (w.phase t).reply (calls t) = some out) :
    ∃ (st st' : ServerState) (answeredAt : Instant) (flight : Flight),
      st.forwardCtx rt answeredAt (calls t) flight = (out >>= fun reply => ok (reply, st')) := by
  cases hphase : w.phase t with
  | led raw =>
    rw [hphase] at hreply
    obtain rfl := Option.some.inj hreply
    obtain ⟨st, st', answeredAt, result, hraw⟩ := (sound_of_run h).raws t raw (by rw [hphase]; rfl)
    exact ⟨st, st', answeredAt, .leader result, by rw [ServerState.forwardCtx, hraw]; rfl⟩
  | followed leader shared =>
    rw [hphase] at hreply
    obtain rfl := Option.some.inj hreply
    refine ⟨forwardingServer, forwardingServer, 0, .follower shared, ?_⟩
    cases shared <;> rfl
  | _ =>
    rw [hphase] at hreply
    cases hreply

end Flights
end MiniDns
