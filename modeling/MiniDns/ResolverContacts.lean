import MiniDns.FullNameAnswers
import MiniDns.ResolverProgress

/-! Whom the recursive resolver asks, and what it tells them. -/
namespace MiniDns
open Lib Lib.Outcome Dns DnsPacket Function
set_option autoImplicit false

/-! ## Addresses and names -/

/-- The address is a root server's, or was given in a response as that of a server which the response names. -/
def Told (received : List DnsPacket) (server : SocketAddr) : Prop :=
  server ∈ rootServers ∨ ∃ response ∈ received, ∃ r ∈ response.additionals, ∃ owner,
    addressRecord r = some ⟨owner, server⟩ ∧ namesServer (nsNames response) owner = true

theorem Told.mono {received received' : List DnsPacket} {server : SocketAddr} (hsub : received ⊆ received')
    (h : Told received server) : Told received' server :=
  h.imp_right fun ⟨response, hmem, hrecord⟩ => ⟨response, hsub hmem, hrecord⟩

theorem told_of_glue {received : List DnsPacket} {response : DnsPacket} (hresponse : response ∈ received)
    {server : ServerAddr} (h : server ∈ glueAddrs (nsNames response) response) : Told received server.addr := by
  obtain ⟨r, hmem, hr⟩ := List.mem_filterMap.mp h
  obtain ⟨haddress, hnames⟩ := Option.filter_eq_some_iff.mp hr
  exact .inr ⟨response, hresponse, r, hmem, server.owner, haddress, hnames⟩

theorem port_of_told {received : List DnsPacket} {server : SocketAddr} (h : Told received server) :
    server.port = 53 := by
  obtain hroot | ⟨_, _, r, _, owner, hr, _⟩ := h
  · obtain ⟨ip, _, rfl⟩ := List.mem_map.mp hroot
    rfl
  · cases r with
    | a | aaaa =>
      obtain ⟨_, rfl⟩ := ServerAddr.mk.inj (Option.some.inj hr)
      rfl
    | _ => cases hr

theorem minimizedQname_suffix (name zone : Text) : textLabels (minimizedQname name zone) <:+ textLabels name := by
  unfold minimizedQname
  dsimp only
  split
  · exact List.suffix_rfl
  · rename_i last hlast
    split
    · obtain ⟨hne, hdot⟩ := mem_textLabels (List.mem_of_getLast? hlast)
      rw [textLabels_label hne hdot]
      exact List.singleton_suffix_iff_getLast?_eq_some.mpr hlast
    · split
      · exact List.suffix_rfl
      · rw [textLabels_joinDots fun l hl => mem_textLabels (List.mem_of_mem_drop hl)]
        exact List.drop_suffix _ _

/-! ## Calls -/

/-- What is known of a call in each phase: whose walk it is, and that it was told the addresses it has. -/
def ResolvePhase.Directed (rt : Runtime) (request : ResolveRequest) (received : List DnsPacket) : ResolvePhase → Prop
  | .asking walk left => walk.For rt request ∧ ∀ server ∈ left, Told received server
  | .collecting walk _ _ addrs | .storing walk _ addrs =>
    walk.For rt request ∧ ∀ server ∈ addrs, Told received server.addr
  | _ => True

section Phases
variable {rt : Runtime} {request : ResolveRequest} {received received' : List DnsPacket} {walk : Walk}

theorem ResolvePhase.Directed.mono {phase : ResolvePhase} (hsub : received ⊆ received')
    (h : phase.Directed rt request received) : phase.Directed rt request received' := by
  cases phase with
  | asking | collecting | storing => exact ⟨h.1, fun server hmem => (h.2 server hmem).mono hsub⟩
  | _ => trivial

theorem directed_proceed (hwalk : walk.For rt request) (hservers : ∀ server ∈ walk.servers, Told received server) :
    walk.proceed.Directed rt request received := by
  obtain h | ⟨_, _, h⟩ := RecursiveResolver.proceed_cases walk <;> rw [h]
  · trivial
  · exact ⟨⟨hwalk.name, hwalk.qtype, hwalk.clientId⟩, hservers⟩

theorem directed_restart (hwalk : walk.For rt request) : walk.restart.Directed rt request received :=
  directed_proceed ⟨hwalk.name, hwalk.qtype, hwalk.clientId⟩ fun _ hmem => .inl hmem

theorem directed_nodata (hwalk : walk.For rt request) (response : DnsPacket) :
    (walk.nodata response).Directed rt request received := by
  obtain h | h := RecursiveResolver.nodata_cases walk response <;> rw [h]
  · trivial
  · exact directed_restart hwalk

theorem directed_receive (hwalk : walk.For rt request) {response : DnsPacket} (hresponse : response ∈ received) :
    (walk.receive response).Directed rt request received := by
  obtain h | h | ⟨_, h⟩ | h := RecursiveResolver.receive_cases walk response <;> rw [h]
  · trivial
  · exact directed_restart hwalk
  · exact ⟨hwalk, nofun⟩
  · exact ⟨hwalk, fun server hmem => told_of_glue hresponse hmem⟩

end Phases

namespace RecursiveResolver

/-- A query that the resolver has sent: to whom, and what it says. -/
def Accounted (rt : Runtime) (requests : TaskId → ResolveRequest) (received : List DnsPacket)
    (query : SocketAddr × Bytes) : Prop :=
  Told received query.1 ∧ ∃ t id name, query.2 = (serverQuery id name (requests t).qtype).toBytes ∧
    textLabels name <:+ textLabels (queriedName rt (requests t))

structure Contacts (rt : Runtime) (requests : TaskId → ResolveRequest) (w : RecursiveResolver) : Prop where
  phases : ∀ t, (w.phase t).Directed rt (requests t) w.received
  entries : ∀ zone d, w.delegations.lookup zone = some d → ∀ server ∈ d.nsAddrs, Told w.received server.addr
  sent : ∀ query ∈ w.sent, Accounted rt requests w.received query

section Runs
variable {rt : Runtime} {requests : TaskId → ResolveRequest} {w w' : RecursiveResolver} {a : ResolverAction}
  {t : TaskId} {phase : ResolvePhase} {walk : Walk} {server : SocketAddr} {left : List SocketAddr}

theorem Accounted.mono {received received' : List DnsPacket} {query : SocketAddr × Bytes} (hsub : received ⊆ received')
    (h : Accounted rt requests received query) : Accounted rt requests received' query :=
  ⟨h.1.mono hsub, h.2⟩

theorem contacts_new : Contacts rt requests new where
  phases _ := trivial
  entries zone d h := by
    rw [show new.delegations = ∅ from rfl, AList.lookup_empty] at h
    cases h
  sent := nofun

/-- One call moves, and what was received before is kept. -/
theorem Contacts.move (h : Contacts rt requests w) (hphase : w'.phase = update w.phase t phase)
    (hsub : w.received ⊆ w'.received) (hdirected : phase.Directed rt (requests t) w'.received)
    (hentries : ∀ zone d, w'.delegations.lookup zone = some d → w.delegations.lookup zone = some d ∨
      ∀ server ∈ d.nsAddrs, Told w'.received server.addr)
    (hsent : ∀ query ∈ w'.sent, query ∈ w.sent ∨ Accounted rt requests w'.received query) : Contacts rt requests w' where
  phases t' := by
    rw [hphase]
    by_cases ht : t' = t
    · subst ht
      rw [update_self]
      exact hdirected
    · rw [update_of_ne ht]
      exact (h.phases t').mono hsub
  entries zone d hlookup := by
    obtain hold | hnew := hentries zone d hlookup
    · exact fun server hmem => (h.entries zone d hold server hmem).mono hsub
    · exact hnew
  sent query hmem := by
    obtain hold | hnew := hsent query hmem
    · exact (h.sent query hold).mono hsub
    · exact hnew

/-- A call moves without a query. -/
theorem Contacts.quiet (h : Contacts rt requests w) (hphase : w'.phase = update w.phase t phase)
    (hreceived : w'.received = w.received) (hsent : w'.sent = w.sent)
    (hentries : ∀ zone d, w'.delegations.lookup zone = some d → w.delegations.lookup zone = some d)
    (hdirected : phase.Directed rt (requests t) w.received) : Contacts rt requests w' := by
  refine h.move hphase ?_ (hreceived ▸ hdirected) (fun zone d hlookup => .inl (hentries zone d hlookup))
    fun query hmem => ?_
  · rw [hreceived]
    exact List.Subset.refl _
  · exact .inl (hsent ▸ hmem)

/-- The query that a call sends next. -/
theorem Contacts.accounted (h : Contacts rt requests w) (hphase : w.phase t = .asking walk (server :: left)) :
    Accounted rt requests w.received (server, (serverQuery w.nextId walk.queryName walk.qtype).toBytes) := by
  obtain ⟨hwalk, hservers⟩ : (ResolvePhase.asking walk (server :: left)).Directed rt (requests t) w.received :=
    hphase ▸ h.phases t
  refine ⟨hservers server List.mem_cons_self, t, w.nextId, walk.queryName, by rw [hwalk.qtype], ?_⟩
  rw [← hwalk.name]
  exact minimizedQname_suffix walk.name walk.currentZone

theorem Contacts.told_of_mem_liveAddrs (h : Contacts rt requests w) {now : Instant} {zone : Text} {server : ServerAddr}
    (hmem : server ∈ w.liveAddrs now zone) : Told w.received server.addr := by
  unfold liveAddrs at hmem
  split at hmem
  · rename_i entry hentry
    split at hmem
    · cases hmem
    · exact h.entries zone entry hentry server hmem
  · cases hmem

theorem for_startWalk (servers : List SocketAddr) (request : ResolveRequest) (serving : Text) :
    (startWalk rt request servers serving).For rt request :=
  ⟨rfl, rfl, rfl⟩

theorem directed_rootWalk (received : List DnsPacket) (request : ResolveRequest) :
    (startWalk rt request rootServers []).proceed.Directed rt request received :=
  directed_proceed (for_startWalk ..) fun _ hmem => .inl hmem

/-- A walk begins at the root or with the servers of an entry. -/
theorem Contacts.begin (h : Contacts rt requests w) {now : Instant}
    (hstep : w.step rt requests (.begin t now) = some w') :
    Contacts rt requests w' := by
  have hkept : ∀ zone d, w.delegations.lookup zone = some d → w.delegations.lookup zone = some d := fun _ _ h => h
  simp only [RecursiveResolver.step] at hstep
  split at hstep
  · split at hstep
    · rename_i entry hentry
      split at hstep
      · obtain rfl := Option.some.inj hstep
        exact h.quiet rfl rfl rfl hkept trivial
      · obtain rfl := Option.some.inj hstep
        refine h.quiet rfl rfl rfl hkept (directed_proceed (for_startWalk ..) fun server hmem => ?_)
        obtain ⟨known, hknown, rfl⟩ := List.mem_map.mp hmem
        exact h.entries _ entry hentry known hknown
    · obtain rfl := Option.some.inj hstep
      exact h.quiet rfl rfl rfl hkept (directed_rootWalk _ _)
  · cases hstep

theorem Contacts.step (h : Contacts rt requests w) (hstep : w.step rt requests a = some w') :
    Contacts rt requests w' := by
  have hkept : ∀ zone d, w.delegations.lookup zone = some d → w.delegations.lookup zone = some d := fun _ _ h => h
  cases moves_of_step hstep with
  | quiet hphase =>
    refine h.quiet rfl rfl rfl hkept ?_
    obtain rfl | rfl | rfl := hphase <;> trivial
  | cached => exact h.begin hstep
  | fresh => exact h.begin hstep
  | evict => exact h.quiet rfl rfl rfl (fun _ _ => lookup_of_erase) (directed_rootWalk _ _)
  | @received t udp tcp walk server left response hphase hresponse =>
    have hsub : w.received ⊆ response :: w.received := List.subset_cons_self _ _
    have hwalk := (hphase ▸ h.phases t : (ResolvePhase.asking walk (server :: left)).Directed _ _ _).1
    refine h.move rfl hsub (directed_receive hwalk List.mem_cons_self) (fun _ _ => .inl) fun query hmem => ?_
    obtain rfl | hmem := List.mem_cons.mp hmem
    · exact .inr ((h.accounted hphase).mono hsub)
    · exact .inl hmem
  | @unanswered t udp tcp walk server left phase hphase hnext =>
    obtain ⟨hwalk, hservers⟩ : (ResolvePhase.asking walk (server :: left)).Directed rt (requests t) w.received :=
      hphase ▸ h.phases t
    refine h.move rfl (List.Subset.refl _) ?_ (fun _ _ => .inl) fun query hmem => ?_
    · obtain rfl | rfl | rfl := hnext
      · trivial
      · exact ⟨hwalk, fun server' hmem => hservers server' (List.mem_cons_of_mem _ hmem)⟩
      · trivial
    · obtain rfl | hmem := List.mem_cons.mp hmem
      · exact .inr (h.accounted hphase)
      · exact .inl hmem
  | @collect t now walk response ns names addrs phase hphase hnext =>
    obtain ⟨hwalk, haddrs⟩ : (ResolvePhase.collecting walk response (ns :: names) addrs).Directed rt (requests t)
      w.received := hphase ▸ h.phases t
    have hmore : ∀ server ∈ addrs ++ w.liveAddrs now ns, Told w.received server.addr := by
      intro server hmem
      obtain hmem | hmem := List.mem_append.mp hmem
      · exact haddrs server hmem
      · exact h.told_of_mem_liveAddrs hmem
    refine h.quiet rfl rfl rfl hkept ?_
    obtain rfl | rfl | rfl := hnext
    · exact ⟨hwalk, hmore⟩
    · exact directed_nodata hwalk response
    · exact ⟨hwalk, hmore⟩
  | @store t now walk response addrs hphase =>
    obtain ⟨hwalk, haddrs⟩ : (ResolvePhase.storing walk response addrs).Directed rt (requests t) w.received :=
      hphase ▸ h.phases t
    refine h.move rfl (List.Subset.refl _) ?_ (fun zone d hlookup => ?_) fun _ => .inl
    · refine directed_proceed ⟨hwalk.name, hwalk.qtype, hwalk.clientId⟩ fun server hmem => ?_
      obtain ⟨known, hknown, rfl⟩ := List.mem_map.mp hmem
      exact haddrs known hknown
    · by_cases hzone : zone = walk.zone
      · subst hzone
        obtain rfl := Option.some.inj ((AList.lookup_insert _).symm.trans hlookup)
        exact .inr haddrs
      · exact .inl ((AList.lookup_insert_ne hzone).symm.trans hlookup)

end Runs

/-- **The resolver asks only those it was told of, and only about what it was asked.** In every run of concurrent
calls against servers that may answer anything, each query that was sent went to port 53 of a root server or of
an address which a response gave for a server that the response names, and it asks for the name of one of the
calls or a part of it from the right, with the type of that call. -/
theorem contacts_accounted (rt : Runtime) (requests : TaskId → ResolveRequest) (acts : List ResolverAction)
    (w : RecursiveResolver) (hrun : run (RecursiveResolver.step rt requests) new acts = some w)
    (server : SocketAddr) (query : Bytes) (hsent : (server, query) ∈ w.sent) :
    server.port = 53 ∧ Told w.received server ∧
      ∃ t id name, query = (serverQuery id name (requests t).qtype).toBytes ∧
        textLabels name <:+ textLabels (queriedName rt (requests t)) := by
  have hcontacts : Contacts rt requests w := run_preserves (fun _ _ _ => Contacts.step) contacts_new hrun
  obtain ⟨htold, hquery⟩ := hcontacts.sent _ hsent
  exact ⟨port_of_told htold, htold, hquery⟩

/-- The root refers to a server of `a`, which is then asked for the whole name. -/
theorem contacts_accounted_rootReferral : ∃ w, run (RecursiveResolver.step .ascii childRequests) new
      (rootReferral ++ [.query 0 none none]) = some w ∧
    (⟨.v4 ⟨10, 0, 0, 110⟩, 53, 0⟩, (serverQuery 2 ['b', '.', 'a'] 1).toBytes) ∈ w.sent ∧
    Told w.received ⟨.v4 ⟨10, 0, 0, 110⟩, 53, 0⟩ := by
  have hrun : ((run (RecursiveResolver.step .ascii childRequests) new (rootReferral ++ [.query 0 none none])).map fun w =>
      w.sent.head?) = some (some (⟨.v4 ⟨10, 0, 0, 110⟩, 53, 0⟩, (serverQuery 2 ['b', '.', 'a'] 1).toBytes)) := by
    decide
  obtain ⟨w, hw, hhead⟩ := Option.map_eq_some_iff.mp hrun
  have hsent := List.mem_of_head? hhead
  exact ⟨w, hw, hsent, (contacts_accounted .ascii childRequests _ w hw _ _ hsent).2.1⟩

end RecursiveResolver
end MiniDns
