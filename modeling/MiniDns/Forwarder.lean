import MiniDns.Lib.Pool
import MiniDns.Lib.Runs
import MiniDns.OwnQuestion

/-! Concurrent calls of `Forwarder::forward` over the pool of connected UDP sockets. The network may lose,
delay, duplicate and reorder what the upstream sends, so that every datagram the upstream has sent to a
local port may arrive there at any later time and any number of times. -/
namespace MiniDns
open Lib Lib.Outcome Dns DnsPacket Function
set_option autoImplicit false

/-! ## The forwarder and its network -/

/-- A UDP socket connected to the upstream, by its local port: a port that was closed can be bound again. -/
abbrev Port := ℕ

def maxStale : ℕ := 4

/-- The payload of the longest datagram that `send` accepts. -/
def maxDatagram : ℕ := 65507

/-- How far a call has come: it holds a permit, then a socket; it has sent its query and may receive so
many datagrams more, or asks again over TCP; it has returned, and `forward_and_cache` has taken the result. -/
inductive ForwardPhase where
  | start
  | permitted
  | holding (port : Port)
  | receiving (port : Port) (left : ℕ)
  | retrying (port : Port)
  | returned (result : Option Bytes)
  | relayed (result : Option Bytes)
  | cancelled
  deriving DecidableEq, Repr

namespace ForwardPhase

def socket : ForwardPhase → Option Port
  | .holding port | .receiving port _ | .retrying port => some port
  | _ => none

def response : ForwardPhase → Option Bytes
  | .returned result | .relayed result => result
  | _ => none

end ForwardPhase

/-- The forwarder's semaphore and pool, the calls, the ports that are bound, for each port what was sent
from it and what the upstream has sent to it, and the server whose cache is filled. -/
structure Forwarder where
  permits : ℕ
  pool : List Port
  phase : TaskId → ForwardPhase
  bound : Port → Bool
  sent : Port → List Bytes
  arriving : Port → List Bytes
  server : ServerState

inductive ForwarderAction where
  | acquire (t : TaskId)
  | checkout (t : TaskId) (port : Port)
  | send (t : TaskId)
  | respond (port : Port) (query response : Bytes)
  | receive (t : TaskId) (datagram : Bytes)
  | receiveTcp (t : TaskId) (response : Bytes)
  | fail (t : TaskId)
  | cancel (t : TaskId)
  | relay (t : TaskId) (answeredAt : Instant)
  | lookUp (now : Instant) (name : Text) (qtype : UInt16)

/-- `len >= 2 && buf[0] == want[0] && buf[1] == want[1]` -/
def matchesId (query datagram : Bytes) : Bool := 2 ≤ datagram.length && datagram.take 2 == query.take 2

/-- `len >= 4 && (buf[2] & 0x02) != 0` -/
def isTruncated (datagram : Bytes) : Bool := 4 ≤ datagram.length && datagram.getD 2 0 &&& 0x02 != 0

namespace Forwarder

def withConcurrency (maxConcurrent : ℕ) (server : ServerState) : Forwarder where
  permits := max maxConcurrent 1
  pool := []
  phase _ := .start
  bound _ := false
  sent _ := []
  arriving _ := []
  server := server

def setPhase (w : Forwarder) (t : TaskId) (phase : ForwardPhase) : Forwarder :=
  { w with phase := update w.phase t phase }

def finish (w : Forwarder) (t : TaskId) (phase : ForwardPhase) : Forwarder :=
  { w.setPhase t phase with permits := w.permits + 1 }

/-- The call returns a response, and its socket goes back to the pool. -/
def succeed (w : Forwarder) (t : TaskId) (port : Port) (response : Bytes) : Forwarder :=
  { w.finish t (.returned (some response)) with pool := port :: w.pool }

def discard (w : Forwarder) (t : TaskId) (port : Port) (phase : ForwardPhase) : Forwarder :=
  { w.finish t phase with bound := update w.bound port false }

def abandon (w : Forwarder) (t : TaskId) (phase : ForwardPhase) : Option Forwarder :=
  match w.phase t with
  | .permitted => some (w.finish t phase)
  | .holding port | .receiving port _ | .retrying port => some (w.discard t port phase)
  | _ => none

/-- One atomic step. `upstream query response` says that the upstream gives that response to that query. -/
def step (rt : Runtime) (upstream : Bytes → Bytes → Bool) (calls : TaskId → ForwardCtx) (w : Forwarder) :
    ForwarderAction → Option Forwarder
  | .acquire t =>
    match w.phase t with
    | .start =>
      if (calls t).raw.length < 2 then some (w.setPhase t (.returned none))
      else if 0 < w.permits then some { w.setPhase t .permitted with permits := w.permits - 1 }
      else none
    | _ => none
  | .checkout t port =>
    match w.phase t with
    | .permitted =>
      match w.pool with
      | top :: pool => some { w.setPhase t (.holding top) with pool := pool }
      | [] =>
        if w.bound port then none
        else some { w.setPhase t (.holding port) with bound := update w.bound port true }
    | _ => none
  | .send t =>
    match w.phase t with
    | .holding port =>
      if (calls t).raw.length ≤ maxDatagram then
        some { w.setPhase t (.receiving port maxStale) with
          sent := update w.sent port ((calls t).raw :: w.sent port) }
      else none
    | _ => none
  | .respond port query response =>
    if query ∈ w.sent port ∧ upstream query response then
      some { w with arriving := update w.arriving port (response :: w.arriving port) }
    else none
  | .receive t datagram =>
    match w.phase t with
    | .receiving port (left + 1) =>
      -- a datagram that has arrived may arrive again
      if datagram ∈ w.arriving port then
        if matchesId (calls t).raw datagram then
          if isTruncated datagram then some (w.setPhase t (.retrying port))
          else some (w.succeed t port datagram)
        else if left = 0 then some (w.discard t port (.returned none))
        else some (w.setPhase t (.receiving port left))
      else none
    | _ => none
  | .receiveTcp t response =>
    match w.phase t with
    | .retrying port => if upstream (calls t).raw response then some (w.succeed t port response) else none
    | _ => none
  | .fail t => w.abandon t (.returned none)
  | .cancel t =>
    match w.phase t with
    | .start => some (w.setPhase t .cancelled)
    | _ => w.abandon t .cancelled
  | .relay t answeredAt =>
    match w.phase t with
    | .returned result =>
      match w.server.forwardAndCache rt answeredAt (calls t) result with
      | ok (_, server) => some { w.setPhase t (.relayed result) with server := server }
      | _ => none
    | _ => none
  | .lookUp now name qtype =>
    some { w with server := { w.server with cache := (w.server.cache.get rt now name qtype).2 } }

/-! ## What a step can do -/

inductive Moves (rt : Runtime) (upstream : Bytes → Bytes → Bool) (calls : TaskId → ForwardCtx) (w : Forwarder)
    (a : ForwarderAction) : Forwarder → Prop
  | advance {t : TaskId} {phase : ForwardPhase} {permits : ℕ} : phase.socket = (w.phase t).socket →
      phase.response = none →
      (∀ port left, phase = .receiving port left → ∃ left', w.phase t = .receiving port left') →
      Moves rt upstream calls w a { w.setPhase t phase with permits := permits }
  | reuse {t : TaskId} {port : Port} {pool : List Port} : w.phase t = .permitted → w.pool = port :: pool →
      Moves rt upstream calls w a { w.setPhase t (.holding port) with pool := pool }
  | bind {t : TaskId} {port : Port} : w.phase t = .permitted → w.bound port = false →
      Moves rt upstream calls w a { w.setPhase t (.holding port) with bound := update w.bound port true }
  | send {t : TaskId} {port : Port} : a = .send t → w.phase t = .holding port →
      Moves rt upstream calls w a { w.setPhase t (.receiving port maxStale) with
        sent := update w.sent port ((calls t).raw :: w.sent port) }
  | respond {port : Port} {query response : Bytes} : query ∈ w.sent port → upstream query response →
      Moves rt upstream calls w a { w with arriving := update w.arriving port (response :: w.arriving port) }
  | accept {t : TaskId} {port : Port} {left : ℕ} {datagram : Bytes} : w.phase t = .receiving port left →
      datagram ∈ w.arriving port → datagram.take 2 = (calls t).raw.take 2 →
      Moves rt upstream calls w a (w.succeed t port datagram)
  | retried {t : TaskId} {port : Port} {response : Bytes} : w.phase t = .retrying port →
      upstream (calls t).raw response → Moves rt upstream calls w a (w.succeed t port response)
  | discard {t : TaskId} {port : Port} {phase : ForwardPhase} : (w.phase t).socket = some port →
      phase = .returned none ∨ phase = .cancelled → Moves rt upstream calls w a (w.discard t port phase)
  | relay {t : TaskId} {answeredAt : Instant} {result : Option Bytes} {raw : Bytes} {server : ServerState} :
      w.phase t = .returned result →
      w.server.forwardAndCache rt answeredAt (calls t) result = ok (raw, server) →
      Moves rt upstream calls w a { w.setPhase t (.relayed result) with server := server }
  | lookUp {now : Instant} {name : Text} {qtype : UInt16} :
      Moves rt upstream calls w a
        { w with server := { w.server with cache := (w.server.cache.get rt now name qtype).2 } }

variable {rt : Runtime} {upstream : Bytes → Bytes → Bool} {calls : TaskId → ForwardCtx} {w w' : Forwarder}
  {a : ForwarderAction}

theorem abandon_cases {t : TaskId} {phase : ForwardPhase} (h : w.abandon t phase = some w') :
    w.phase t = .permitted ∧ w' = w.finish t phase ∨
      ∃ port, (w.phase t).socket = some port ∧ w' = w.discard t port phase := by
  unfold abandon at h
  split at h
  · rename_i hpermitted
    exact .inl ⟨hpermitted, (Option.some.inj h).symm⟩
  · rename_i port hheld
    exact .inr ⟨port, by rw [hheld]; rfl, (Option.some.inj h).symm⟩
  · rename_i port left hheld
    exact .inr ⟨port, by rw [hheld]; rfl, (Option.some.inj h).symm⟩
  · rename_i port hheld
    exact .inr ⟨port, by rw [hheld]; rfl, (Option.some.inj h).symm⟩
  · cases h

theorem moves_of_abandon {t : TaskId} {phase : ForwardPhase} (hphase : phase = .returned none ∨ phase = .cancelled)
    (h : w.abandon t phase = some w') : Moves rt upstream calls w a w' := by
  obtain ⟨hpermitted, rfl⟩ | ⟨port, hheld, rfl⟩ := abandon_cases h
  · refine .advance ?_ ?_ ?_
    · rw [hpermitted]
      obtain rfl | rfl := hphase <;> rfl
    · obtain rfl | rfl := hphase <;> rfl
    · rintro _ _ rfl
      simp at hphase
  · exact .discard hheld hphase

theorem moves_of_start {t : TaskId} {phase : ForwardPhase} {permits : ℕ} (hstart : w.phase t = .start)
    (hphase : phase = .returned none ∨ phase = .permitted ∨ phase = .cancelled) :
    Moves rt upstream calls w a { w.setPhase t phase with permits := permits } := by
  refine .advance ?_ ?_ ?_
  · rw [hstart]
    obtain rfl | rfl | rfl := hphase <;> rfl
  · obtain rfl | rfl | rfl := hphase <;> rfl
  · rintro _ _ rfl
    simp at hphase

theorem moves_of_receive {t : TaskId} {datagram : Bytes}
    (h : w.step rt upstream calls (.receive t datagram) = some w') : Moves rt upstream calls w a w' := by
  simp only [step] at h
  split at h
  · rename_i port left hphase
    split at h
    · rename_i harrives
      split at h
      · rename_i hid
        split at h
        · obtain rfl := Option.some.inj h
          exact .advance (by rw [hphase]; rfl) rfl (fun _ _ hreceiving => by cases hreceiving)
        · obtain rfl := Option.some.inj h
          simp only [matchesId, Bool.and_eq_true, beq_iff_eq] at hid
          exact .accept hphase harrives hid.2
      · split at h
        · obtain rfl := Option.some.inj h
          exact .discard (by rw [hphase]; rfl) (.inl rfl)
        · obtain rfl := Option.some.inj h
          refine .advance (by rw [hphase]; rfl) rfl ?_
          rintro _ _ ⟨⟩
          exact ⟨_, hphase⟩
    · cases h
  · cases h

theorem moves_of_step (h : w.step rt upstream calls a = some w') : Moves rt upstream calls w a w' := by
  cases a with
  | acquire t =>
    simp only [step] at h
    split at h
    · rename_i hphase
      split at h
      · obtain rfl := Option.some.inj h
        exact moves_of_start hphase (.inl rfl)
      · split at h
        · obtain rfl := Option.some.inj h
          exact moves_of_start hphase (.inr (.inl rfl))
        · cases h
    · cases h
  | checkout t port =>
    simp only [step] at h
    split at h
    · rename_i hphase
      split at h
      · rename_i hpool
        obtain rfl := Option.some.inj h
        exact .reuse hphase hpool
      · split at h
        · cases h
        · rename_i hbound
          obtain rfl := Option.some.inj h
          exact .bind hphase (by simpa using hbound)
    · cases h
  | send t =>
    simp only [step] at h
    split at h
    · rename_i hphase
      split at h
      · obtain rfl := Option.some.inj h
        exact .send rfl hphase
      · cases h
    · cases h
  | respond port query response =>
    simp only [step] at h
    split at h
    · rename_i hresponse
      obtain rfl := Option.some.inj h
      exact .respond hresponse.1 hresponse.2
    · cases h
  | receive t datagram => exact moves_of_receive h
  | receiveTcp t response =>
    simp only [step] at h
    split at h
    · rename_i hphase
      split at h
      · rename_i hresponse
        obtain rfl := Option.some.inj h
        exact .retried hphase hresponse
      · cases h
    · cases h
  | fail t => exact moves_of_abandon (.inl rfl) h
  | cancel t =>
    simp only [step] at h
    split at h
    · rename_i hphase
      obtain rfl := Option.some.inj h
      exact moves_of_start hphase (.inr (.inr rfl))
    · exact moves_of_abandon (.inr rfl) h
  | relay t answeredAt =>
    simp only [step] at h
    split at h
    · rename_i hphase
      split at h
      · rename_i hserver
        obtain rfl := Option.some.inj h
        exact .relay hphase hserver
      · cases h
    · cases h
  | lookUp now name qtype =>
    obtain rfl := Option.some.inj h
    exact .lookUp

/-! ## Sockets -/

def sockets (w : Forwarder) (t : TaskId) : Option Port := (w.phase t).socket

theorem sockets_of_update {t : TaskId} {phase : ForwardPhase} (h : w'.phase = update w.phase t phase) :
    w'.sockets = update w.sockets t phase.socket := by
  have hcomp : ∀ v : Forwarder, v.sockets = ForwardPhase.socket ∘ v.phase := fun _ => rfl
  rw [hcomp, h, comp_update, hcomp]

def OneOwner (w : Forwarder) : Prop := Exclusive w.sockets w.pool w.bound

theorem oneOwner_of_update {t : TaskId} {phase : ForwardPhase} (h : w'.phase = update w.phase t phase)
    (howner : Exclusive (update w.sockets t phase.socket) w'.pool w'.bound) : w'.OneOwner := by
  rw [← sockets_of_update h] at howner
  exact howner

theorem OneOwner.keep (h : w.OneOwner) {t : TaskId} {phase : ForwardPhase}
    (hsocket : phase.socket = (w.phase t).socket) : (w.setPhase t phase).OneOwner := by
  apply oneOwner_of_update rfl
  rw [hsocket, show (w.phase t).socket = w.sockets t from rfl, update_eq_self]
  exact h

theorem OneOwner.succeed (h : w.OneOwner) {t : TaskId} {port : Port} {response : Bytes}
    (hheld : (w.phase t).socket = some port) : (w.succeed t port response).OneOwner :=
  oneOwner_of_update rfl (Exclusive.release h hheld)

theorem OneOwner.step (h : w.OneOwner) (hmoves : Moves rt upstream calls w a w') : w'.OneOwner := by
  cases hmoves with
  | advance hsocket _ _ => exact h.keep hsocket
  | @reuse t port pool hphase hpool =>
    unfold OneOwner at h
    rw [hpool] at h
    exact oneOwner_of_update rfl h.reuse
  | bind hphase hbound => exact oneOwner_of_update rfl (Exclusive.create h hbound)
  | send _ hphase => exact h.keep (by rw [hphase]; rfl)
  | respond _ _ => exact h
  | accept hphase _ _ => exact h.succeed (by rw [hphase]; rfl)
  | retried hphase _ => exact h.succeed (by rw [hphase]; rfl)
  | @discard t port phase hheld hphase =>
    apply oneOwner_of_update rfl
    rw [show phase.socket = none by obtain rfl | rfl := hphase <;> rfl]
    exact Exclusive.close h hheld
  | relay hphase _ => exact h.keep (by rw [hphase]; rfl)
  | lookUp => exact h

/-! ## Whose answer is returned -/

/-- The upstream gives the response to a query for the same question. -/
def ProducedFor {κ : Type*} (upstream : Bytes → Bytes → Bool) (question : Bytes → κ) (query response : Bytes) : Prop :=
  ∃ query', question query' = question query ∧ upstream query' response

variable {κ : Type*} {question : Bytes → κ}

/-- No earlier query from the port has the ID of this query and asks another question. -/
def IdFree (question : Bytes → κ) (w : Forwarder) (port : Port) (query : Bytes) : Prop :=
  ∀ query' ∈ w.sent port, query'.take 2 = query.take 2 → question query' = question query

def sending (calls : TaskId → ForwardCtx) (w : Forwarder) : ForwarderAction → Option (Port × Bytes)
  | .send t =>
    match w.phase t with
    | .holding port => some (port, (calls t).raw)
    | _ => none
  | _ => none

/-- A query is sent from a port only where its ID is free. -/
def SendsFreeId (question : Bytes → κ) (calls : TaskId → ForwardCtx) (w : Forwarder) (a : ForwarderAction) : Prop :=
  ∀ send ∈ w.sending calls a, IdFree question w send.1 send.2

instance decidableSendsFreeId [DecidableEq κ] (question : Bytes → κ) (calls : TaskId → ForwardCtx) (w : Forwarder)
    (a : ForwarderAction) : Decidable (SendsFreeId question calls w a) :=
  inferInstanceAs (Decidable (∀ send ∈ w.sending calls a, ∀ query' ∈ w.sent send.1,
    query'.take 2 = send.2.take 2 → question query' = question send.2))

def ArrivesForSent (upstream : Bytes → Bytes → Bool) (w : Forwarder) : Prop :=
  ∀ port, ∀ response ∈ w.arriving port, ∃ query ∈ w.sent port, upstream query response

/-- While a call receives, its ID means its question on its port. -/
def ReceivesFreeId (question : Bytes → κ) (calls : TaskId → ForwardCtx) (w : Forwarder) : Prop :=
  ∀ t port left, w.phase t = .receiving port left → IdFree question w port (calls t).raw

/-- Each returned response was produced for the question of its query. -/
def ReturnsOwn (upstream : Bytes → Bytes → Bool) (question : Bytes → κ) (calls : TaskId → ForwardCtx)
    (w : Forwarder) : Prop :=
  ∀ t response, (w.phase t).response = some response → ProducedFor upstream question (calls t).raw response

/-- Each cached response was produced for the question of a query with the name and type of its key. -/
def CachesOwn (rt : Runtime) (upstream : Bytes → Bytes → Bool) (question : Bytes → κ)
    (calls : TaskId → ForwardCtx) (w : Forwarder) : Prop :=
  ∀ key entry, w.server.cache.map.lookup key = some entry →
    ∃ t, key = (rt.toLowercase (calls t).name, (calls t).qtype) ∧
      ProducedFor upstream question (calls t).raw entry.response

theorem ArrivesForSent.step (h : w.ArrivesForSent upstream) (hmoves : Moves rt upstream calls w a w') :
    w'.ArrivesForSent upstream := by
  cases hmoves with
  | @send t port _ _ =>
    intro port' response hmem
    obtain ⟨query, hsent, hresponse⟩ := h port' response hmem
    refine ⟨query, ?_, hresponse⟩
    by_cases hport : port' = port
    · subst hport
      simp only [update_self]
      exact List.mem_cons_of_mem _ hsent
    · simp only [update_of_ne hport]
      exact hsent
  | @respond port query response hsent hresponse =>
    intro port' response' hmem
    by_cases hport : port' = port
    · subst hport
      simp only [update_self] at hmem
      obtain rfl | hmem := List.mem_cons.mp hmem
      · exact ⟨query, hsent, hresponse⟩
      · exact h port' response' hmem
    · simp only [update_of_ne hport] at hmem
      exact h port' response' hmem
  | _ => exact h

theorem phase_of_update {t t' : TaskId} {phase phase' : ForwardPhase} (hphase : w'.phase = update w.phase t phase)
    (h : w'.phase t' = phase') : t' = t ∧ phase = phase' ∨ t' ≠ t ∧ w.phase t' = phase' := by
  rw [hphase] at h
  exact update_cases h

theorem ReceivesFreeId.keep (h : w.ReceivesFreeId question calls) {t : TaskId} {phase : ForwardPhase}
    (hphase : w'.phase = update w.phase t phase) (hsent : w'.sent = w.sent)
    (hold : ∀ port left, phase = .receiving port left → ∃ left', w.phase t = .receiving port left') :
    w'.ReceivesFreeId question calls := by
  intro t' port left hreceiving
  unfold IdFree
  rw [hsent]
  obtain ⟨rfl, hnew⟩ | ⟨_, hother⟩ := phase_of_update hphase hreceiving
  · obtain ⟨left', hreceiving'⟩ := hold port left hnew
    exact h t' port left' hreceiving'
  · exact h t' port left hother

theorem ReceivesFreeId.step (h : w.ReceivesFreeId question calls) (howner : w.OneOwner)
    (hcond : SendsFreeId question calls w a) (hmoves : Moves rt upstream calls w a w') :
    w'.ReceivesFreeId question calls := by
  cases hmoves with
  | advance _ _ hold => exact h.keep rfl rfl hold
  | reuse _ _ => exact h.keep rfl rfl nofun
  | bind _ _ => exact h.keep rfl rfl nofun
  | @send t port ha hphase =>
    subst ha
    have hsending : w.sending calls (.send t) = some (port, (calls t).raw) := by simp only [sending, hphase]
    have hfree : IdFree question w port (calls t).raw := hcond _ hsending
    intro t' port' left hreceiving query' hmem hid
    dsimp only at hmem
    obtain ⟨rfl, hnew⟩ | ⟨hne, hother⟩ := phase_of_update (w := w) rfl hreceiving
    · obtain ⟨rfl, _⟩ := ForwardPhase.receiving.inj hnew
      rw [update_self] at hmem
      obtain rfl | hmem := List.mem_cons.mp hmem
      · rfl
      · exact hfree query' hmem hid
    · -- the port of another call is another port
      have hport : port' ≠ port := by
        rintro rfl
        have hheld' : w.sockets t' = some port' := by rw [sockets, hother]; rfl
        exact hne (howner.holder hheld' (by rw [sockets, hphase]; rfl))
      rw [update_of_ne hport] at hmem
      exact h t' port' left hother query' hmem hid
  | respond _ _ => exact h
  | accept _ _ _ => exact h.keep rfl rfl nofun
  | retried _ _ => exact h.keep rfl rfl nofun
  | discard _ hphase =>
    refine h.keep rfl rfl ?_
    rintro _ _ rfl
    simp at hphase
  | relay _ _ => exact h.keep rfl rfl nofun
  | lookUp => exact h

theorem ReturnsOwn.keep (h : w.ReturnsOwn upstream question calls) {t : TaskId} {phase : ForwardPhase}
    (hphase : w'.phase = update w.phase t phase)
    (hown : ∀ response, phase.response = some response →
      ProducedFor upstream question (calls t).raw response) : w'.ReturnsOwn upstream question calls := by
  intro t' response hresponse
  obtain ⟨rfl, hnew⟩ | ⟨_, hother⟩ := phase_of_update hphase (show w'.phase t' = _ from rfl)
  · exact hown response (hnew ▸ hresponse)
  · exact h t' response (hother ▸ hresponse)

/-- A datagram with the ID of the query, at a port where that ID means the question of the query. -/
theorem producedFor_of_arriving (hhonest : ∀ query response, upstream query response → response.take 2 = query.take 2)
    (harrives : w.ArrivesForSent upstream) {port : Port} {query datagram : Bytes}
    (hfree : IdFree question w port query) (hmem : datagram ∈ w.arriving port)
    (hid : datagram.take 2 = query.take 2) : ProducedFor upstream question query datagram := by
  obtain ⟨query', hsent, hresponse⟩ := harrives port datagram hmem
  have hid' : query'.take 2 = query.take 2 := (hhonest query' datagram hresponse).symm.trans hid
  exact ⟨query', hfree query' hsent hid', hresponse⟩

theorem ReturnsOwn.step (h : w.ReturnsOwn upstream question calls)
    (hhonest : ∀ query response, upstream query response → response.take 2 = query.take 2)
    (harrives : w.ArrivesForSent upstream) (hfree : w.ReceivesFreeId question calls)
    (hmoves : Moves rt upstream calls w a w') : w'.ReturnsOwn upstream question calls := by
  cases hmoves with
  | advance _ hnone _ =>
    refine h.keep rfl fun response hresponse => ?_
    rw [hnone] at hresponse
    cases hresponse
  | reuse _ _ => exact h.keep rfl nofun
  | bind _ _ => exact h.keep rfl nofun
  | send _ _ => exact h.keep rfl nofun
  | respond _ _ => exact h
  | @accept t port left datagram hphase hmem hid =>
    refine h.keep rfl fun response hresponse => ?_
    obtain rfl := Option.some.inj hresponse
    exact producedFor_of_arriving hhonest harrives (hfree t port left hphase) hmem hid
  | @retried t port response hphase hresponse =>
    refine h.keep rfl fun response' hresponse' => ?_
    obtain rfl := Option.some.inj hresponse'
    exact ⟨_, rfl, hresponse⟩
  | discard _ hphase =>
    refine h.keep rfl fun response hresponse => ?_
    obtain rfl | rfl := hphase <;> cases hresponse
  | @relay t _ result _ _ hphase _ =>
    refine h.keep rfl fun response hresponse => h t response ?_
    rw [hphase]
    exact hresponse
  | lookUp => exact h

theorem lookup_forwardAndCache {st st' : ServerState} {answeredAt : Instant} {ctx : ForwardCtx}
    {result : Option Bytes} {raw : Bytes} (h : st.forwardAndCache rt answeredAt ctx result = ok (raw, st'))
    {key : Text × UInt16} {entry : Cache.Entry} (hlookup : st'.cache.map.lookup key = some entry) :
    key = (rt.toLowercase ctx.name, ctx.qtype) ∧ result = some entry.response ∨
      st.cache.map.lookup key = some entry := by
  obtain ⟨_, _, rfl⟩ | ⟨hresult, ⟨_, _, _, _, rfl⟩ | ⟨_, rfl⟩⟩ := ServerState.forwardAndCache_cases h
  · exact .inr hlookup
  · obtain ⟨hkey, rfl⟩ | hold := Cache.lookup_insert hlookup
    · exact .inl ⟨hkey, hresult⟩
    · exact .inr hold
  · exact .inr hlookup

theorem CachesOwn.step (h : w.CachesOwn rt upstream question calls) (hreturns : w.ReturnsOwn upstream question calls)
    (hmoves : Moves rt upstream calls w a w') : w'.CachesOwn rt upstream question calls := by
  cases hmoves with
  | @relay t _ result _ _ hphase hserver =>
    intro key entry hlookup
    obtain ⟨hkey, hresult⟩ | hold := lookup_forwardAndCache hserver hlookup
    · exact ⟨t, hkey, hreturns t entry.response (by rw [hphase]; exact hresult)⟩
    · exact h key entry hold
  | lookUp => exact fun key entry hlookup => h key entry (Cache.lookup_get hlookup)
  | _ => exact h

structure Sound (rt : Runtime) (upstream : Bytes → Bytes → Bool) (question : Bytes → κ)
    (calls : TaskId → ForwardCtx) (w : Forwarder) : Prop where
  owner : w.OneOwner
  arrives : w.ArrivesForSent upstream
  receives : w.ReceivesFreeId question calls
  returns : w.ReturnsOwn upstream question calls
  caches : w.CachesOwn rt upstream question calls

theorem sound_withConcurrency (maxConcurrent capacity : ℕ) (server : ServerState) :
    (withConcurrency maxConcurrent { server with cache := Cache.new capacity }).Sound rt upstream question calls where
  owner := exclusive_empty
  arrives := nofun
  receives := nofun
  returns := nofun
  caches key entry h := by
    have hnone : (∅ : HashMap (Text × UInt16) Cache.Entry).lookup key = some entry := h
    rw [AList.lookup_empty] at hnone
    cases hnone

theorem Sound.step (h : w.Sound rt upstream question calls)
    (hhonest : ∀ query response, upstream query response → response.take 2 = query.take 2)
    (hcond : SendsFreeId question calls w a) (hstep : w.step rt upstream calls a = some w') :
    w'.Sound rt upstream question calls := by
  have hmoves := moves_of_step hstep
  exact ⟨h.owner.step hmoves, h.arrives.step hmoves, h.receives.step h.owner hcond hmoves,
    h.returns.step hhonest h.arrives h.receives hmoves, h.caches.step h.returns hmoves⟩

/-- **In every run in which no query is sent from a port under the ID of an earlier query for another
question, each response that `forward` returns was produced for the question of its query**, and so was
each response that is cached under its name and type. -/
theorem forward_returns_own {κ : Type*} (question : Bytes → κ) (rt : Runtime) (upstream : Bytes → Bytes → Bool)
    (calls : TaskId → ForwardCtx) (maxConcurrent capacity : ℕ) (server : ServerState) (acts : List ForwarderAction)
    (w : Forwarder)
    (hhonest : ∀ query response, upstream query response → response.take 2 = query.take 2)
    (hcond : Along (step rt upstream calls) (SendsFreeId question calls)
      (withConcurrency maxConcurrent { server with cache := Cache.new capacity }) acts)
    (hrun : run (step rt upstream calls)
      (withConcurrency maxConcurrent { server with cache := Cache.new capacity }) acts = some w) :
    w.ReturnsOwn upstream question calls ∧ w.CachesOwn rt upstream question calls := by
  have hsound : w.Sound rt upstream question calls :=
    run_invariant (fun _ _ _ h hcond hstep => h.step hhonest hcond hstep)
      (sound_withConcurrency maxConcurrent capacity server) hcond hrun
  exact ⟨hsound.returns, hsound.caches⟩

def letterCall (id letter : UInt8) (name : Char) : ForwardCtx :=
  ⟨⟨⟨id.toUInt16, 0x100, 1, 0, 0, 0⟩, [⟨[name], 1, 1⟩], [], [], []⟩, letterQuery id letter, [name], 1,
    ⟨.v4 ⟨9, 9, 9, 9⟩, 53, 0⟩, .udp⟩

/-- The first call asks for `a` under ID 1, all others ask for `b` under an ID of their own. -/
def letterCalls (id : UInt8) : TaskId → ForwardCtx
  | 0 => letterCall 1 97 'a'
  | _ => letterCall id 98 'b'

def letterUpstream (query response : Bytes) : Bool :=
  [(letterQuery 1 97, letterAnswer 1 97), (letterQuery 1 98, letterAnswer 1 98),
    (letterQuery 2 98, letterAnswer 2 98)].contains (query, response)

theorem letterUpstream_honest (query response : Bytes) (h : letterUpstream query response) :
    response.take 2 = query.take 2 := by
  simp only [letterUpstream, List.contains_eq_mem, decide_eq_true_eq, List.mem_cons, Prod.mk.injEq,
    List.not_mem_nil, or_false] at h
  obtain ⟨rfl, rfl⟩ | ⟨rfl, rfl⟩ | ⟨rfl, rfl⟩ := h <;> rfl

/-- The first call is answered and its answer cached. The second call sends its query from the same socket. -/
def reusedSocket (more : List ForwarderAction) : List ForwarderAction :=
  [.acquire 0, .checkout 0 5, .send 0, .respond 5 (letterQuery 1 97) (letterAnswer 1 97),
    .receive 0 (letterAnswer 1 97), .relay 0 0, .acquire 1, .checkout 1 6, .send 1] ++ more

/-- Under another ID, the second call passes over the first one's answer and returns its own. -/
theorem forward_returns_own_reusedSocket : ∃ w,
    run (step .ascii letterUpstream (letterCalls 2)) (withConcurrency 1 forwardingServer)
      (reusedSocket [.receive 1 (letterAnswer 1 97), .respond 5 (letterQuery 2 98) (letterAnswer 2 98),
        .receive 1 (letterAnswer 2 98), .relay 1 1]) = some w ∧
    (w.phase 1).response = some (letterAnswer 2 98) ∧
    w.ReturnsOwn letterUpstream questionSection (letterCalls 2) ∧
    w.CachesOwn .ascii letterUpstream questionSection (letterCalls 2) := by
  have hrun : ((run (step .ascii letterUpstream (letterCalls 2)) (withConcurrency 1 forwardingServer)
      (reusedSocket [.receive 1 (letterAnswer 1 97), .respond 5 (letterQuery 2 98) (letterAnswer 2 98),
        .receive 1 (letterAnswer 2 98), .relay 1 1])).map fun w => (w.phase 1).response) =
      some (some (letterAnswer 2 98)) := by
    decide
  obtain ⟨w, hw, hresponse⟩ := Option.map_eq_some_iff.mp hrun
  exact ⟨w, hw, hresponse, forward_returns_own questionSection .ascii letterUpstream (letterCalls 2) 1 1024
    forwardingServer _ w letterUpstream_honest (by decide) hw⟩

/-- Under the same ID, the second call returns the first one's answer, and it is cached under the second
one's name. -/
theorem stale_answer_returned : ∃ w,
    run (step .ascii letterUpstream (letterCalls 1)) (withConcurrency 1 forwardingServer)
      (reusedSocket [.receive 1 (letterAnswer 1 97), .relay 1 1]) = some w ∧
    (w.phase 1).response = some (letterAnswer 1 97) ∧
    (w.server.cache.map.lookup (['b'], 1)).map Cache.Entry.response = some (letterAnswer 1 97) ∧
    (letterCalls 1 1).raw = letterQuery 1 98 ∧
    ¬ ProducedFor letterUpstream questionSection (letterQuery 1 98) (letterAnswer 1 97) := by
  have hrun : ((run (step .ascii letterUpstream (letterCalls 1)) (withConcurrency 1 forwardingServer)
      (reusedSocket [.receive 1 (letterAnswer 1 97), .relay 1 1])).map fun w =>
        ((w.phase 1).response, (w.server.cache.map.lookup (['b'], 1)).map Cache.Entry.response)) =
      some (some (letterAnswer 1 97), some (letterAnswer 1 97)) := by
    decide
  obtain ⟨w, hw, hresults⟩ := Option.map_eq_some_iff.mp hrun
  obtain ⟨hresponse, hcached⟩ := Prod.mk.inj hresults
  refine ⟨w, hw, hresponse, hcached, rfl, ?_⟩
  rintro ⟨query', hquestion, hupstream⟩
  have hquery : query' = letterQuery 1 97 := by
    simp only [letterUpstream, List.contains_eq_mem, decide_eq_true_eq, List.mem_cons, Prod.mk.injEq,
      List.not_mem_nil, or_false] at hupstream
    obtain ⟨hquery, _⟩ | ⟨_, hresponse⟩ | ⟨_, hresponse⟩ := hupstream
    · exact hquery
    · exact absurd hresponse (by decide)
    · exact absurd hresponse (by decide)
  subst hquery
  exact absurd hquestion (by decide)

/-- **The condition cannot be dropped**: once a query is on its way from a port from which another query
was sent under its ID, the answer to the other query can be returned for it. -/
theorem stale_answer_possible {t : TaskId} {port : Port} {query response : Bytes}
    (hphase : w.phase t = .holding port) (hsize : (calls t).raw.length ≤ maxDatagram)
    (hsent : query ∈ w.sent port) (hid : matchesId (calls t).raw response)
    (hupstream : upstream query response) (hwhole : isTruncated response = false) :
    ∃ w', run (step rt upstream calls) w [.send t, .respond port query response, .receive t response] = some w' ∧
      (w'.phase t).response = some response := by
  obtain ⟨w₁, h₁, hphase₁, hsent₁⟩ : ∃ w₁, w.step rt upstream calls (.send t) = some w₁ ∧
      w₁.phase t = .receiving port maxStale ∧ query ∈ w₁.sent port := by
    refine ⟨{ w.setPhase t (.receiving port maxStale) with
      sent := update w.sent port ((calls t).raw :: w.sent port) }, ?_, update_self .., ?_⟩
    · simp only [step, hphase, if_pos hsize]
    · simp only [update_self]
      exact List.mem_cons_of_mem _ hsent
  obtain ⟨w₂, h₂, hphase₂, harriving⟩ : ∃ w₂, w₁.step rt upstream calls (.respond port query response) = some w₂ ∧
      w₂.phase t = .receiving port maxStale ∧ response ∈ w₂.arriving port := by
    refine ⟨_, if_pos ⟨hsent₁, hupstream⟩, hphase₁, ?_⟩
    simp only [update_self]
    exact List.mem_cons_self
  have h₃ : w₂.step rt upstream calls (.receive t response) = some (w₂.succeed t port response) := by
    simp only [step, hphase₂, maxStale]
    rw [if_pos harriving, if_pos hid, if_neg (by simp [hwhole])]
  refine ⟨w₂.succeed t port response, ?_, ?_⟩
  · exact run_cons.mpr ⟨w₁, h₁, run_cons.mpr ⟨w₂, h₂, run_cons.mpr ⟨_, h₃, rfl⟩⟩⟩
  · simp only [succeed, finish, setPhase, update_self]
    rfl

/-- The name and the type of a forwarded call are those of the first question of its query. -/
theorem ctx_of_resolveLocal {st st' : ServerState} {m : Moment} {req : Bytes} {client : IpAddr}
    {transport : Transport} {ctx : ForwardCtx}
    (h : st.resolveLocal rt m req client transport = ok (.forward ctx, st')) :
    ctx.raw = req ∧ ∃ question rest, questionSection ctx.raw = ok (question :: rest) ∧
      ctx.name = rt.toLowercase question.qname ∧ ctx.qtype = question.qtype := by
  obtain ⟨request, _, hreq, hcase⟩ := ServerState.localCase_of_resolveLocal h (by simp)
  have hsection := questionSection_of_fromBytes hreq
  cases hcase with
  | forwarded _ hq =>
    obtain ⟨rest, hquestions⟩ := List.head?_eq_some_iff.mp hq
    rw [hquestions] at hsection
    exact ⟨rfl, _, rest, hsection, rfl, rfl⟩

end Forwarder
end MiniDns
