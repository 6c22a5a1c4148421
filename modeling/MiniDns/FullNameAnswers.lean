import MiniDns.DelegationCache

/-! Which answers the iterative resolver passes on. Beside the resolver we keep, for each call, the
responses that it has accepted, each with the name that was asked. A reply should be the call's own
SERVFAIL or a response to the full name. -/
namespace MiniDns
open Lib Lib.Outcome Dns DnsPacket Function RecursiveResolver
set_option autoImplicit false

/-! ## Accepted responses -/

structure ObservedResolver where
  resolver : RecursiveResolver
  answers : TaskId → List (Text × DnsPacket)

namespace ObservedResolver

def record (answers : TaskId → List (Text × DnsPacket)) :
    Option AcceptedResponse → TaskId → List (Text × DnsPacket)
  | some a => update answers a.task ((a.walk.queryName, a.response) :: answers a.task)
  | none => answers

def step (rt : Runtime) (requests : TaskId → ResolveRequest) (s : ObservedResolver) (a : ResolverAction) :
    Option ObservedResolver :=
  (s.resolver.step rt requests a).map fun w => ⟨w, record s.answers (s.resolver.accepted a)⟩

/-- A resolver that has any delegations cached and has made no call yet. -/
def start (delegations : HashMap Text Delegation) : ObservedResolver :=
  ⟨{ new with delegations := delegations }, fun _ => []⟩

end ObservedResolver

/-- The reply is the SERVFAIL for the full name, or a response to a query for the full name. -/
def AnswersFullName (rt : Runtime) (request : ResolveRequest) (answers : List (Text × DnsPacket))
    (reply : Bytes) : Prop :=
  reply = (synthServfail (queriedName rt request) request.qtype request.clientId).toBytes ∨
    ∃ response, (queriedName rt request, response) ∈ answers ∧
      reply = (relayedResponse response request.clientId).toBytes

/-! ## Walks of a call -/

structure Walk.For (rt : Runtime) (request : ResolveRequest) (walk : Walk) : Prop where
  name : walk.name = queriedName rt request
  qtype : walk.qtype = request.qtype
  clientId : walk.clientId = request.clientId

/-- What is known of a call in each phase. -/
def ResolvePhase.Known (rt : Runtime) (request : ResolveRequest) (answers : List (Text × DnsPacket)) :
    ResolvePhase → Prop
  | .asking walk _ => walk.For rt request
  | .collecting walk response _ _ => walk.For rt request ∧ (walk.queryName, response) ∈ answers
  | .storing walk _ _ => walk.For rt request
  | .returned reply => AnswersFullName rt request answers reply
  | _ => True

section Walks
variable {rt : Runtime} {request : ResolveRequest} {walk : Walk} {response : DnsPacket}
  {answers answers' : List (Text × DnsPacket)}

theorem ResolvePhase.Known.mono {phase : ResolvePhase} (hsub : answers ⊆ answers')
    (h : phase.Known rt request answers) : phase.Known rt request answers' := by
  cases phase with
  | collecting walk response names addrs => exact ⟨h.1, hsub h.2⟩
  | returned reply =>
    obtain hfail | ⟨response, hmem, heq⟩ := h
    · exact .inl hfail
    · exact .inr ⟨response, hsub hmem, heq⟩
  | _ => exact h

namespace Walk.For

theorem fail (h : walk.For rt request) : walk.fail.Known rt request answers :=
  .inl (by rw [h.name, h.qtype, h.clientId])

theorem relay (h : walk.For rt request) (hfull : walk.queryName = walk.name)
    (hmem : (walk.queryName, response) ∈ answers) : (walk.relay response).Known rt request answers := by
  rw [hfull, h.name] at hmem
  exact .inr ⟨response, hmem, by rw [h.clientId]⟩

theorem proceed (h : walk.For rt request) : walk.proceed.Known rt request answers := by
  unfold Walk.proceed
  split
  · exact h.fail
  · split
    · exact h.fail
    · exact ⟨h.name, h.qtype, h.clientId⟩

theorem restart (h : walk.For rt request) : walk.restart.Known rt request answers :=
  proceed ⟨h.name, h.qtype, h.clientId⟩

theorem follow (h : walk.For rt request) (addrs : List ServerAddr) :
    (walk.follow addrs).Known rt request answers :=
  proceed ⟨h.name, h.qtype, h.clientId⟩

theorem nodata (h : walk.For rt request) (hmem : (walk.queryName, response) ∈ answers) :
    (walk.nodata response).Known rt request answers := by
  unfold Walk.nodata
  split
  · rename_i hfull
    exact h.relay hfull hmem
  · exact h.restart

end Walk.For

/-- A response that is neither an answer, nor NXDOMAIN, nor NOERROR. -/
def Dns.DnsPacket.IsError (response : DnsPacket) : Prop :=
  response.answers = [] ∧ response.header.flags &&& 0x000F ≠ 3 ∧ response.header.flags &&& 0x000F ≠ 0

instance (response : DnsPacket) : Decidable (response.IsError) :=
  inferInstanceAs (Decidable (_ ∧ _ ∧ _))

theorem Walk.For.receive (h : walk.For rt request) (hmem : (walk.queryName, response) ∈ answers)
    (herror : response.IsError → walk.queryName = walk.name) :
    (walk.receive response).Known rt request answers := by
  unfold Walk.receive
  dsimp only
  split
  · split
    · exact h.restart
    · rename_i hfull
      exact h.relay (not_not.mp hfull) hmem
  · rename_i hanswer
    obtain ⟨hempty, hnx⟩ := not_or.mp hanswer
    split
    · split
      · exact h.nodata hmem
      · exact ⟨h, hmem⟩
      · exact h
    · rename_i hrcode
      exact h.relay (herror ⟨by simpa using hempty, hnx, hrcode⟩) hmem

end Walks

/-! ## Runs -/

namespace ObservedResolver

/-- An error is accepted only for the full name. -/
def ErrorsForFullName (rt : Runtime) (requests : TaskId → ResolveRequest) (s : ObservedResolver)
    (a : ResolverAction) : Prop :=
  ∀ r ∈ s.resolver.accepted a, r.response.IsError → r.walk.queryName = queriedName rt (requests r.task)

instance (rt : Runtime) (requests : TaskId → ResolveRequest) (s : ObservedResolver) (a : ResolverAction) :
    Decidable (ErrorsForFullName rt requests s a) :=
  inferInstanceAs (Decidable (∀ r ∈ s.resolver.accepted a,
    r.response.IsError → r.walk.queryName = queriedName rt (requests r.task)))

def Proper (rt : Runtime) (requests : TaskId → ResolveRequest) (s : ObservedResolver) : Prop :=
  ∀ t, (s.resolver.phase t).Known rt (requests t) (s.answers t)

variable {rt : Runtime} {requests : TaskId → ResolveRequest} {s s' : ObservedResolver} {a : ResolverAction}
  {t : TaskId} {phase : ResolvePhase}

theorem subset_record (answers : TaskId → List (Text × DnsPacket)) (r : Option AcceptedResponse) (t : TaskId) :
    answers t ⊆ record answers r t := by
  cases r with
  | none => exact List.Subset.refl _
  | some r =>
    dsimp only [record]
    by_cases ht : t = r.task
    · subst ht
      rw [update_self]
      exact List.subset_cons_self _ _
    · rw [update_of_ne ht]
      exact List.Subset.refl _

theorem Proper.advance (h : s.Proper rt requests) (hphase : s'.resolver.phase = update s.resolver.phase t phase)
    (hanswers : ∀ t, s.answers t ⊆ s'.answers t) (hknown : phase.Known rt (requests t) (s'.answers t)) :
    s'.Proper rt requests := by
  intro t'
  rw [hphase]
  by_cases ht : t' = t
  · subst ht
    rwa [update_self]
  · rw [update_of_ne ht]
    exact (h t').mono (hanswers t')

theorem known_startWalk (servers : List SocketAddr) (request : ResolveRequest) (serving : Text)
    (answers : List (Text × DnsPacket)) :
    (startWalk rt request servers serving).proceed.Known rt request answers :=
  Walk.For.proceed ⟨rfl, rfl, rfl⟩

theorem Proper.receive (h : s.Proper rt requests) {udp tcp : Option Bytes} {walk : Walk} {server : SocketAddr}
    {left : List SocketAddr} {response : DnsPacket} (hcond : s.ErrorsForFullName rt requests (.query t udp tcp))
    (hphase : s.resolver.phase t = .asking walk (server :: left))
    (hresponse : queryOne s.resolver.nextId udp tcp = ok response) :
    (walk.receive response).Known rt (requests t) (record s.answers (s.resolver.accepted (.query t udp tcp)) t) := by
  have hwalk : (ResolvePhase.asking walk (server :: left)).Known rt (requests t) (s.answers t) := hphase ▸ h t
  have haccepted : s.resolver.accepted (.query t udp tcp) = some ⟨t, walk, response⟩ := by
    simp only [accepted, hphase, hresponse]
  refine Walk.For.receive hwalk ?_ fun herror => ?_
  · rw [haccepted]
    dsimp only [record]
    rw [update_self]
    exact List.mem_cons_self
  · rw [Walk.For.name hwalk]
    exact hcond _ haccepted herror

theorem Proper.step (h : s.Proper rt requests) (hcond : s.ErrorsForFullName rt requests a)
    (hstep : s.step rt requests a = some s') : s'.Proper rt requests := by
  obtain ⟨w, hresolver, rfl⟩ := Option.map_eq_some_iff.mp hstep
  have hsub := subset_record s.answers (s.resolver.accepted a)
  cases moves_of_step hresolver with
  | quiet hphase =>
    refine h.advance rfl hsub ?_
    obtain rfl | rfl | rfl := hphase <;> trivial
  | cached | fresh | evict => exact h.advance rfl hsub (known_startWalk _ _ _ _)
  | received hphase hresponse => exact h.advance rfl hsub (h.receive hcond hphase hresponse)
  | @unanswered t udp tcp walk server left phase hphase hnext =>
    have hwalk : (ResolvePhase.asking walk (server :: left)).Known rt (requests t) (s.answers t) := hphase ▸ h t
    refine h.advance rfl hsub ?_
    obtain rfl | rfl | rfl := hnext
    · exact Walk.For.fail hwalk
    · exact hwalk
    · trivial
  | @collect t now walk response ns names addrs phase hphase hnext =>
    obtain ⟨hwalk, hmem⟩ : (ResolvePhase.collecting walk response (ns :: names) addrs).Known rt (requests t)
        (s.answers t) := hphase ▸ h t
    refine h.advance rfl hsub ?_
    obtain rfl | rfl | rfl := hnext
    · exact ⟨hwalk, hsub t hmem⟩
    · exact hwalk.nodata (hsub t hmem)
    · exact hwalk
  | @store t now walk response addrs hphase =>
    have hwalk : (ResolvePhase.storing walk response addrs).Known rt (requests t) (s.answers t) := hphase ▸ h t
    exact h.advance rfl hsub (Walk.For.follow hwalk addrs)

/-- **In every run in which errors are accepted for full names only, each reply is the SERVFAIL for the full
name or a response to a query for the full name.** -/
theorem replies_for_full_name (rt : Runtime) (requests : TaskId → ResolveRequest)
    (delegations : HashMap Text Delegation) (acts : List ResolverAction) (s : ObservedResolver)
    (hcond : Along (step rt requests) (ErrorsForFullName rt requests) (start delegations) acts)
    (hrun : run (step rt requests) (start delegations) acts = some s) (t : TaskId) (reply : Bytes)
    (hreply : s.resolver.phase t = .returned reply) :
    AnswersFullName rt (requests t) (s.answers t) reply := by
  have hstart : (start delegations).Proper rt requests := fun _ => trivial
  have hproper : s.Proper rt requests :=
    run_invariant (fun _ _ _ h hcond hstep => h.step hcond hstep) hstart hcond hrun
  have := hproper t
  rwa [hreply] at this

/-- A response without records. -/
def bareResponse (id rcode : UInt8) : Bytes := [0, id, 0x80, rcode, 0, 0, 0, 0, 0, 0, 0, 0]

/-- The root refers to the server of `a`, which refuses the query for the full name. -/
def refusedBelowRoot : List ResolverAction :=
  rootReferral ++ [.query 0 (some (bareResponse 2 5)) none]

theorem replies_for_full_name_refused : ∃ s reply,
    run (step .ascii childRequests) (start ∅) refusedBelowRoot = some s ∧
      s.resolver.phase 0 = .returned reply ∧ AnswersFullName .ascii (childRequests 0) (s.answers 0) reply := by
  have hrun : ((run (step .ascii childRequests) (start ∅) refusedBelowRoot).map fun s => s.resolver.phase 0) =
      some (.returned [0, 9, 0x80, 0x85, 0, 0, 0, 0, 0, 0, 0, 0]) := by
    decide
  obtain ⟨s, hs, hphase⟩ := Option.map_eq_some_iff.mp hrun
  exact ⟨s, _, hs, hphase,
    replies_for_full_name .ascii childRequests ∅ refusedBelowRoot s (by decide) hs 0 _ hphase⟩

/-- One call asks for `b.a`, and a root server refuses the minimised name `a`. -/
def refusedByRoot : List ResolverAction :=
  [.acquire 0, .begin 0 0, .query 0 (some (bareResponse 1 5)) none]

/-- REFUSED for the minimised name `a` is passed on as the answer for `b.a`. -/
theorem refused_for_minimised_name : ∃ s reply,
    run (step .ascii childRequests) (start ∅) refusedByRoot = some s ∧
      s.resolver.phase 0 = .returned reply ∧ ¬ AnswersFullName .ascii (childRequests 0) (s.answers 0) reply := by
  have hrun : ((run (step .ascii childRequests) (start ∅) refusedByRoot).map fun s =>
      (s.resolver.phase 0, s.answers 0)) =
      some (.returned [0, 9, 0x80, 0x85, 0, 0, 0, 0, 0, 0, 0, 0],
        [(['a'], ⟨⟨1, 0x8005, 0, 0, 0, 0⟩, [], [], [], []⟩)]) := by
    decide
  obtain ⟨s, hs, hresult⟩ := Option.map_eq_some_iff.mp hrun
  obtain ⟨hphase, hanswers⟩ := Prod.mk.inj hresult
  refine ⟨s, _, hs, hphase, ?_⟩
  rw [hanswers]
  rintro (hfail | ⟨response, hmem, _⟩)
  · exact absurd hfail (by decide)
  · have hname : queriedName .ascii (childRequests 0) = ['a'] := congrArg Prod.fst (List.mem_singleton.mp hmem)
    exact absurd hname (by decide)

end ObservedResolver

end MiniDns
