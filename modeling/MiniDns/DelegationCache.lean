import MiniDns.QnameMinimization

/-! What the cache of delegations holds. Whatever zone a referral is for, it is stored under the top-level
name: the walk never comes further down than one label, and the part of its query name behind the first label is
that one label again. An entry is right when the referral is for that zone. -/
namespace MiniDns
open Lib Lib.Outcome Dns DnsPacket Function
set_option autoImplicit false

/-! ## Top-level names -/

def topLevel (name : Text) : Text := (textLabels name).getLast?.getD []

theorem dot_not_mem_topLevel (name : Text) : '.' ∉ topLevel name := by
  unfold topLevel
  cases hlast : (textLabels name).getLast? with
  | none => simp
  | some last => exact (mem_textLabels (List.mem_of_getLast? hlast)).2

theorem topLevel_joinDots {ls : List Text} (hls : ProperLabels ls) :
    topLevel (joinDots ls) = joinDots (ls.rtake 1) := by
  rw [topLevel, textLabels_joinDots hls]
  by_cases hne : ls = []
  · subst hne
    rfl
  · rw [List.getLast?_eq_some_getLast hne, joinDots_rtake_one hne]
    rfl

theorem delegationZone_of_dot_not_mem {name : Text} (h : '.' ∉ name) : delegationZone name = name := by
  rw [delegationZone, splitOnce_eq_none.mpr h]

theorem delegationZone_joinDots {l : Text} {ls : List Text} (hdot : '.' ∉ l) (hls : ls ≠ []) :
    delegationZone (joinDots (l :: ls)) = joinDots ls := by
  rw [delegationZone, joinDots_cons hls, splitOnce_eq_some.mpr ⟨rfl, hdot⟩]

/-- The parent of a name is its top-level name when there is no dot in it. -/
theorem parentZone_eq_topLevel {name : Text} (hdot : '.' ∉ parentZone name) :
    parentZone name = [] ∨ parentZone name = topLevel name := by
  unfold parentZone at hdot ⊢
  split at hdot
  · rename_i first parent hcut
    by_cases hparent : parent = []
    · exact .inl hparent
    · right
      rw [topLevel, (splitOnce_eq_some.mp hcut).1, textLabels_append_dot, textLabels_label hparent hdot,
        List.getLast?_append]
      rfl
  · exact .inl rfl

/-- The last two labels of a name, or its only one, without the first of them. -/
theorem delegationZone_rtake_two {ls : List Text} (hls : ProperLabels ls) (hne : ls ≠ []) :
    delegationZone (joinDots (ls.rtake 2)) = joinDots (ls.rtake 1) := by
  have hgood := hls.of_suffix (rtake_suffix ls 2)
  have hone : (ls.rtake 2).rtake 1 = ls.rtake 1 := by
    have hsuffix := List.suffix_of_suffix_length_le (rtake_suffix ls 1) (rtake_suffix ls 2)
      (by simp only [length_rtake]; omega)
    have hlen := length_rtake ls 1
    have hpos := List.length_pos_iff.mpr hne
    rw [← rtake_length hsuffix, hlen, min_eq_left hpos]
  obtain ⟨l, rest, hcut⟩ := List.exists_cons_of_ne_nil (l := ls.rtake 2) fun hnil => by
    have hlen := length_rtake ls 2
    have hpos := List.length_pos_iff.mpr hne
    rw [hnil, List.length_nil] at hlen
    omega
  rw [hcut] at hone hgood ⊢
  have hlen : rest.length ≤ 1 := by
    have hlen := length_rtake ls 2
    rw [hcut, List.length_cons] at hlen
    omega
  obtain ⟨-, hdot⟩ := hgood l List.mem_cons_self
  rw [← hone]
  cases rest with
  | nil =>
    rw [joinDots_singleton, delegationZone_of_dot_not_mem hdot]
    exact (joinDots_singleton l).symm
  | cons last rest =>
    obtain rfl : rest = [] := by simpa using hlen
    rw [delegationZone_joinDots hdot (List.cons_ne_nil last [])]
    rfl

/-! ## Walks -/

/-- Wherever a walk stands, it is at the root or at the top-level name, and so are the servers that it asks. -/
structure Walk.Ok (walk : Walk) : Prop where
  zone : walk.currentZone = [] ∨ walk.currentZone = topLevel walk.name
  serving : walk.serving = [] ∨ walk.serving = topLevel walk.name

/-- There is no empty label in the name. -/
def ProperName (name : Text) : Prop := joinDots (textLabels name) = name

instance decidableProperName (name : Text) : Decidable (ProperName name) := inferInstanceAs (Decidable (_ = _))

variable {walk : Walk}

/-- **Every referral is stored under the top-level name.** -/
theorem Walk.Ok.zone_eq (h : walk.Ok) (hname : ProperName walk.name) : walk.zone = topLevel walk.name := by
  have hls : ProperLabels (textLabels walk.name) := fun _ => mem_textLabels
  have htop := topLevel_joinDots hls
  rw [hname] at htop
  by_cases hne : textLabels walk.name = []
  · have hroot : walk.name = [] := by rw [← hname, hne]; rfl
    rw [Walk.zone, Walk.queryName, hroot]
    rfl
  · have hquery := minimizedQname_rtake hls hne
    rw [hname] at hquery
    rw [Walk.zone, Walk.queryName]
    obtain hzone | hzone := h.zone
    · have hlast := hquery 0
      rw [List.rtake_zero, joinDots_nil] at hlast
      rw [hzone, hlast, ← htop, delegationZone_of_dot_not_mem (dot_not_mem_topLevel _)]
    · rw [hzone, htop, hquery 1, delegationZone_rtake_two hls hne]

/-! ## Sound entries -/

/-- The servers that the NS records owned by a zone name. -/
def ownedNames (zone : Text) (response : DnsPacket) : List Text :=
  response.authorities.filterMap fun
    | .ns domain nameserver _ => if eqIgnoreAsciiCase domain zone then some nameserver else none
    | _ => none

def ServerAddr.Received (received : List DnsPacket) (server : ServerAddr) : Prop :=
  ∃ response ∈ received, ∃ r ∈ response.additionals, addressRecord r = some server

/-- The zone is delegated by the response, its addresses are those of the servers that the response names
for it, and the response came from servers of the zone or of an ancestor. -/
structure StoredDelegation.Sound (received : List DnsPacket) (s : StoredDelegation) : Prop where
  source : s.response ∈ received
  owned : ownedNames s.zone s.response ≠ []
  addrs : ∀ server ∈ s.delegation.nsAddrs,
    server.Received received ∧ namesServer (ownedNames s.zone s.response) server.owner
  asked : textLabels s.serving <:+ textLabels s.zone

variable {received received' : List DnsPacket} {response : DnsPacket} {server : ServerAddr}
  {addrs : List ServerAddr}

theorem ServerAddr.Received.mono (hsub : received ⊆ received') (h : server.Received received) :
    server.Received received' := by
  obtain ⟨response, hmem, hrecord⟩ := h
  exact ⟨response, hsub hmem, hrecord⟩

theorem StoredDelegation.Sound.mono {s : StoredDelegation} (hsub : received ⊆ received') (h : s.Sound received) :
    s.Sound received' where
  source := hsub h.source
  owned := h.owned
  addrs server hmem := ⟨(h.addrs server hmem).1.mono hsub, (h.addrs server hmem).2⟩
  asked := h.asked

/-! ## Referrals -/

/-- Without answers or error, and with NS records: `resolve` takes the response as a referral. -/
def IsReferral (response : DnsPacket) : Prop :=
  response.answers = [] ∧ response.header.flags &&& 0x000F = 0 ∧ nsNames response ≠ []

/-- The referral is for the top-level name of a name without empty labels: all its NS records are owned by it. -/
def ForTopLevel (name : Text) (response : DnsPacket) : Prop :=
  ProperName name ∧ response.authorities.all fun
    | .ns domain _ _ => eqIgnoreAsciiCase domain (topLevel name)
    | _ => true

instance decidableIsReferral (response : DnsPacket) : Decidable (IsReferral response) :=
  inferInstanceAs (Decidable (_ ∧ _ ∧ _))

instance decidableForTopLevel (name : Text) (response : DnsPacket) : Decidable (ForTopLevel name response) :=
  inferInstanceAs (Decidable (_ ∧ _))

theorem ForTopLevel.ownedNames_eq {name : Text} (h : ForTopLevel name response) :
    ownedNames (topLevel name) response = nsNames response := by
  refine List.filterMap_congr fun r hr => ?_
  have howned := List.all_eq_true.mp h.2 r hr
  cases r with
  | ns domain nameserver ttl => exact if_pos howned
  | _ => rfl

/-- What a call knows of the referral that it follows: the response is for the zone under which it is stored, and
the addresses are those of the servers that it names. -/
structure Walk.Refers (received : List DnsPacket) (walk : Walk) (response : DnsPacket) (addrs : List ServerAddr) :
    Prop where
  ok : walk.Ok
  source : response ∈ received
  zone : walk.zone = topLevel walk.name
  names : nsNames response ≠ []
  owned : ownedNames walk.zone response = nsNames response
  addrs : ∀ server ∈ addrs, server.Received received ∧ namesServer (nsNames response) server.owner

namespace Walk.Refers

theorem mono (hsub : received ⊆ received') (h : walk.Refers received response addrs) :
    walk.Refers received' response addrs :=
  { h with
    source := hsub h.source
    addrs := fun server hmem => ⟨(h.addrs server hmem).1.mono hsub, (h.addrs server hmem).2⟩ }

/-- What is stored for such a referral is sound. -/
theorem sound (h : walk.Refers received response addrs) (expiresAt : Instant) :
    StoredDelegation.Sound received ⟨walk.zone, ⟨nsNames response, addrs, expiresAt⟩, response, walk.serving⟩ where
  source := h.source
  owned := by
    rw [h.owned]
    exact h.names
  addrs := by
    rw [h.owned]
    exact h.addrs
  asked := by
    obtain hroot | htop := h.ok.serving
    · rw [hroot]
      exact List.nil_suffix
    · exact (htop.trans h.zone.symm) ▸ List.suffix_rfl

end Walk.Refers

/-- What is known of a call in each phase. -/
def ResolvePhase.Ok (received : List DnsPacket) : ResolvePhase → Prop
  | .asking walk _ => walk.Ok
  | .collecting walk response names addrs => walk.Refers received response addrs ∧ names ⊆ nsNames response
  | .storing walk response addrs => walk.Refers received response addrs
  | _ => True

theorem ResolvePhase.Ok.mono {phase : ResolvePhase} (hsub : received ⊆ received') (h : phase.Ok received) :
    phase.Ok received' := by
  cases phase with
  | asking walk left => exact h
  | collecting walk response names addrs => exact ⟨h.1.mono hsub, h.2⟩
  | storing walk response addrs => exact Walk.Refers.mono hsub h
  | _ => trivial

namespace Walk

theorem Ok.proceed (h : walk.Ok) : walk.proceed.Ok received := by
  unfold Walk.proceed
  split
  · trivial
  · split
    · trivial
    · exact ⟨h.zone, h.serving⟩

theorem Ok.restart : walk.restart.Ok received := Ok.proceed ⟨.inl rfl, .inl rfl⟩

theorem Refers.follow (h : walk.Refers received response addrs) : (walk.follow addrs).Ok received :=
  Ok.proceed ⟨.inr h.zone, .inr h.zone⟩

theorem Ok.nodata (response : DnsPacket) : (walk.nodata response).Ok received := by
  unfold Walk.nodata
  split
  · trivial
  · exact Ok.restart

/-- The addresses of a referral with glue are those of its own NS names, whatever else the additional section
holds. -/
theorem refers_glue (h : walk.Ok) (hresponse : response ∈ received) (hnames : nsNames response ≠ [])
    (htop : ForTopLevel walk.name response) :
    walk.Refers received response (glueAddrs (nsNames response) response) where
  ok := h
  source := hresponse
  zone := h.zone_eq htop.1
  names := hnames
  owned := by rw [h.zone_eq htop.1, htop.ownedNames_eq]
  addrs := by
    intro server hmem
    obtain ⟨r, hr, hglue⟩ := List.mem_filterMap.mp hmem
    obtain ⟨hrecord, hnamed⟩ := Option.filter_eq_some_iff.mp hglue
    exact ⟨⟨response, hresponse, r, hr, hrecord⟩, hnamed⟩

theorem Ok.receive (h : walk.Ok) (hresponse : response ∈ received)
    (htop : IsReferral response → ForTopLevel walk.name response) : (walk.receive response).Ok received := by
  unfold Walk.receive
  dsimp only
  split
  · split
    · exact Ok.restart
    · trivial
  rename_i hanswers
  obtain ⟨hempty, -⟩ := not_or.mp hanswers
  have hempty : response.answers = [] := by simpa using hempty
  split
  · rename_i hrcode
    have hrefers : ∀ hnames : nsNames response ≠ [], _ := fun hnames =>
      refers_glue h hresponse hnames (htop ⟨hempty, hrcode, hnames⟩)
    split
    · exact Ok.nodata response
    · rename_i hglue hnames
      have hall := hrefers hnames
      rw [hglue] at hall
      exact ⟨hall, List.Subset.refl _⟩
    · rename_i hnames _
      exact hrefers hnames
  · trivial

end Walk

/-! ## Runs -/

namespace RecursiveResolver

/-- The cached zone that an action takes the addresses of, and the server of a referral without glue that it takes
them for: the name of the server is the key. -/
def taking (w : RecursiveResolver) : ResolverAction → Option (Text × Delegation)
  | .collect t now =>
    match w.phase t with
    | .collecting _ _ (ns :: _) _ => ((w.delegations.lookup ns).filter fun d => !d.isExpired now).map (Prod.mk ns)
    | _ => none
  | _ => none

/-- The referrals that are followed are for top-level names, and a cached zone that a server gets addresses from
lists no server but that one. -/
def TopLevelOnly (w : RecursiveResolver) (a : ResolverAction) : Prop :=
  (∀ r ∈ w.accepted a, IsReferral r.response → ForTopLevel r.walk.name r.response) ∧
    ∀ x ∈ w.taking a, ∀ name ∈ x.2.nsNames, eqIgnoreAsciiCase name x.1

instance decidableTopLevelOnly (w : RecursiveResolver) (a : ResolverAction) : Decidable (w.TopLevelOnly a) :=
  inferInstanceAs (Decidable (_ ∧ _))

def EntriesStored (w : RecursiveResolver) : Prop :=
  ∀ zone d, w.delegations.lookup zone = some d → ∃ s ∈ w.stored, s.zone = zone ∧ s.delegation = d

structure Sound (w : RecursiveResolver) : Prop where
  phases : ∀ t, (w.phase t).Ok w.received
  entries : w.EntriesStored
  stored : ∀ s ∈ w.stored, s.Sound w.received
  keys : ∀ s ∈ w.stored, '.' ∉ s.zone
  listed : ∀ s ∈ w.stored, ∀ server ∈ s.delegation.nsAddrs, namesServer s.delegation.nsNames server.owner

variable {rt : Runtime} {requests : TaskId → ResolveRequest} {w w' : RecursiveResolver} {a : ResolverAction}
  {t : TaskId} {phase : ResolvePhase}

theorem sound_new : new.Sound where
  phases _ := trivial
  entries zone d h := by
    rw [show new.delegations = ∅ from rfl, AList.lookup_empty] at h
    cases h
  stored := by simp [new]
  keys := by simp [new]
  listed := by simp [new]

theorem Sound.phases_update (h : w.Sound) (hphase : w'.phase = update w.phase t phase)
    (hsub : w.received ⊆ w'.received) (hok : phase.Ok w'.received) (t' : TaskId) : (w'.phase t').Ok w'.received := by
  rw [hphase]
  by_cases ht : t' = t
  · subst ht
    rwa [update_self]
  · rw [update_of_ne ht]
    exact (h.phases t').mono hsub

theorem Sound.advance (h : w.Sound) (hphase : w'.phase = update w.phase t phase) (hreceived : w'.received = w.received)
    (hstored : w'.stored = w.stored)
    (hentries : ∀ zone d, w'.delegations.lookup zone = some d → w.delegations.lookup zone = some d)
    (hok : phase.Ok w.received) : w'.Sound where
  phases := h.phases_update hphase (by rw [hreceived]; exact List.Subset.refl _) (hreceived ▸ hok)
  entries zone d hlookup := by
    rw [hstored]
    exact h.entries zone d (hentries zone d hlookup)
  stored := by
    rw [hstored, hreceived]
    exact h.stored
  keys := by
    rw [hstored]
    exact h.keys
  listed := by
    rw [hstored]
    exact h.listed

theorem ok_rootWalk (request : ResolveRequest) : (startWalk rt request rootServers []).Ok := ⟨.inl rfl, .inl rfl⟩

/-- A cached start has the servers of the root or of the top-level name, as no key has a dot in it. -/
theorem Sound.ok_cachedWalk (h : w.Sound) {request : ResolveRequest} {entry : Delegation} (servers : List SocketAddr)
    (hentry : w.delegations.lookup (parentZone (queriedName rt request)) = some entry) :
    (startWalk rt request servers (parentZone (queriedName rt request))).Ok := by
  obtain ⟨s, hs, hzone, -⟩ := h.entries _ _ hentry
  have hdot := h.keys s hs
  rw [hzone] at hdot
  exact ⟨.inl rfl, parentZone_eq_topLevel hdot⟩

theorem Sound.receive (h : w.Sound) {udp tcp : Option Bytes} {walk : Walk} {server : SocketAddr}
    {left : List SocketAddr} {response : DnsPacket} (hcond : w.TopLevelOnly (.query t udp tcp))
    (hphase : w.phase t = .asking walk (server :: left)) (hresponse : queryOne w.nextId udp tcp = ok response) :
    Sound { (w.ask server walk).setPhase t (walk.receive response) with received := response :: w.received } := by
  have hwalk : (ResolvePhase.asking walk (server :: left)).Ok w.received := hphase ▸ h.phases t
  have hsub : w.received ⊆ response :: w.received := List.subset_cons_self _ _
  have haccepted : w.accepted (.query t udp tcp) = some ⟨t, walk, response⟩ := by
    simp only [accepted, hphase, hresponse]
  exact
    { phases := h.phases_update rfl hsub (Walk.Ok.receive hwalk List.mem_cons_self (hcond.1 _ haccepted))
      entries := h.entries
      stored := fun s hs => (h.stored s hs).mono hsub
      keys := h.keys
      listed := h.listed }

/-- An address that is taken for a server has been received, and it was given for one of the servers that the
cached zone lists. -/
theorem Sound.of_mem_liveAddrs (h : w.Sound) {now : Instant} {zone : Text} {server : ServerAddr}
    (hmem : server ∈ w.liveAddrs now zone) : server.Received w.received ∧
      ∃ d, (w.delegations.lookup zone).filter (fun d => !d.isExpired now) = some d ∧
        namesServer d.nsNames server.owner := by
  unfold liveAddrs at hmem
  split at hmem
  · rename_i entry hentry
    obtain ⟨s, hs, _, rfl⟩ := h.entries zone entry hentry
    split at hmem
    · cases hmem
    · rename_i hlive
      refine ⟨((h.stored s hs).addrs server hmem).1, s.delegation, ?_, h.listed s hs server hmem⟩
      rw [hentry]
      exact Option.filter_eq_some_iff.mpr ⟨rfl, by simpa using hlive⟩
  · cases hmem

theorem Sound.collect (h : w.Sound) {now : Instant} {walk : Walk} {response : DnsPacket} {ns : Text} {names : List Text}
    {addrs : List ServerAddr} (hcond : w.TopLevelOnly (.collect t now))
    (hphase : w.phase t = .collecting walk response (ns :: names) addrs)
    (hnext : phase = .collecting walk response names (addrs ++ w.liveAddrs now ns) ∨ phase = walk.nodata response ∨
      phase = .storing walk response (addrs ++ w.liveAddrs now ns)) : (w.setPhase t phase).Sound := by
  obtain ⟨hrefers, hnames⟩ : (ResolvePhase.collecting walk response (ns :: names) addrs).Ok w.received :=
    hphase ▸ h.phases t
  have htaking : w.taking (.collect t now) =
      ((w.delegations.lookup ns).filter fun d => !d.isExpired now).map (Prod.mk ns) := by
    simp only [taking, hphase]
  have hmore : walk.Refers w.received response (addrs ++ w.liveAddrs now ns) :=
    { hrefers with
      addrs := by
        intro server hmem
        obtain hmem | hmem := List.mem_append.mp hmem
        · exact hrefers.addrs server hmem
        · obtain ⟨hreceived, d, hlookup, hlisted⟩ := h.of_mem_liveAddrs hmem
          obtain ⟨name, hname, howner⟩ := List.any_eq_true.mp hlisted
          rw [hlookup] at htaking
          have hown := eqIgnoreAsciiCase_iff.mp (hcond.2 _ htaking name hname)
          refine ⟨hreceived, List.any_eq_true.mpr ⟨ns, hnames List.mem_cons_self, ?_⟩⟩
          exact eqIgnoreAsciiCase_iff.mpr (hown.symm.trans (eqIgnoreAsciiCase_iff.mp howner)) }
  refine h.advance rfl rfl rfl (fun _ _ h => h) ?_
  obtain rfl | rfl | rfl := hnext
  · exact ⟨hmore, fun ns' hns' => hnames (List.mem_cons_of_mem _ hns')⟩
  · exact Walk.Ok.nodata response
  · exact hmore

theorem Sound.store (h : w.Sound) {walk : Walk} {response : DnsPacket}
    {addrs : List ServerAddr} {expiresAt : Instant} (hphase : w.phase t = .storing walk response addrs) :
    Sound { w.setPhase t (walk.follow addrs) with
      delegations := w.delegations.insert walk.zone ⟨nsNames response, addrs, expiresAt⟩
      stored := ⟨walk.zone, ⟨nsNames response, addrs, expiresAt⟩, response, walk.serving⟩ :: w.stored } := by
  have hrefers : walk.Refers w.received response addrs :=
    (hphase ▸ h.phases t : (ResolvePhase.storing walk response addrs).Ok w.received)
  refine ⟨h.phases_update rfl (List.Subset.refl _) hrefers.follow, ?_, ?_, ?_, ?_⟩
  · intro zone d hlookup
    dsimp only at hlookup ⊢
    by_cases hzone : zone = walk.zone
    · subst hzone
      rw [AList.lookup_insert] at hlookup
      exact ⟨_, List.mem_cons_self, rfl, Option.some.inj hlookup⟩
    · rw [AList.lookup_insert_ne hzone] at hlookup
      obtain ⟨s, hs, heq⟩ := h.entries zone d hlookup
      exact ⟨s, List.mem_cons_of_mem _ hs, heq⟩
  · intro s hs
    obtain rfl | hs := List.mem_cons.mp hs
    · exact hrefers.sound expiresAt
    · exact h.stored s hs
  · intro s hs
    obtain rfl | hs := List.mem_cons.mp hs
    · dsimp only
      rw [hrefers.zone]
      exact dot_not_mem_topLevel _
    · exact h.keys s hs
  · intro s hs
    obtain rfl | hs := List.mem_cons.mp hs
    · exact fun server hmem => (hrefers.addrs server hmem).2
    · exact h.listed s hs

theorem Sound.step (h : w.Sound) (hcond : w.TopLevelOnly a) (hstep : w.step rt requests a = some w') : w'.Sound := by
  have hkept : ∀ zone d, w.delegations.lookup zone = some d → w.delegations.lookup zone = some d := fun _ _ h => h
  cases moves_of_step hstep with
  | quiet hphase =>
    refine h.advance rfl rfl rfl hkept ?_
    obtain rfl | rfl | rfl := hphase <;> trivial
  | cached hentry => exact h.advance rfl rfl rfl hkept (h.ok_cachedWalk _ hentry).proceed
  | fresh => exact h.advance rfl rfl rfl hkept (ok_rootWalk _).proceed
  | evict => exact h.advance rfl rfl rfl (fun _ _ => lookup_of_erase) (ok_rootWalk _).proceed
  | received hphase hresponse => exact h.receive hcond hphase hresponse
  | unanswered hphase hnext =>
    refine h.advance rfl rfl rfl hkept ?_
    obtain rfl | rfl | rfl := hnext
    · trivial
    · exact (hphase ▸ h.phases _ : (ResolvePhase.asking _ _).Ok w.received)
    · trivial
  | collect hphase hnext => exact h.collect hcond hphase hnext
  | store hphase => exact h.store hphase

/-- **In every run that follows referrals for top-level names only, each stored delegation is sound**, and the
cache holds nothing else. -/
theorem delegations_sound (rt : Runtime) (requests : TaskId → ResolveRequest) (acts : List ResolverAction)
    (w : RecursiveResolver) (hcond : Along (RecursiveResolver.step rt requests) TopLevelOnly new acts)
    (hrun : run (RecursiveResolver.step rt requests) new acts = some w) :
    (∀ s ∈ w.stored, s.Sound w.received) ∧ w.EntriesStored := by
  have hsound : w.Sound := run_invariant (fun _ _ _ h hcond hstep => h.step hcond hstep) sound_new hcond hrun
  exact ⟨hsound.stored, hsound.entries⟩

def referral (id : UInt8) (zone : Bytes) (host : UInt8) : Bytes :=
  [0, id, 0x80, 0, 0, 0, 0, 0, 0, 1, 0, 1] ++ zone ++ [0, 2, 0, 1, 0, 0, 14, 16, 0, 3, 1, host, 0] ++
    [1, host, 0, 0, 1, 0, 1, 0, 0, 14, 16, 0, 4, 10, 0, 0, host]

def childRequests (_ : TaskId) : ResolveRequest := ⟨['b', '.', 'a'], 1, 9⟩

/-- A root server refers to the server `n` of the zone `a`. -/
def rootReferral : List ResolverAction :=
  [.acquire 0, .begin 0 0, .query 0 (some (referral 1 [1, 97, 0] 110)) none, .store 0 0]

theorem delegations_sound_rootReferral : ∃ w, run (step .ascii childRequests) new rootReferral = some w ∧
    w.stored.map StoredDelegation.zone = [['a']] ∧ (∀ s ∈ w.stored, s.Sound w.received) ∧ w.EntriesStored := by
  have hrun : ((run (step .ascii childRequests) new rootReferral).map fun w =>
      w.stored.map StoredDelegation.zone) = some [['a']] := by
    decide
  obtain ⟨w, hw, hzones⟩ := Option.map_eq_some_iff.mp hrun
  exact ⟨w, hw, hzones, delegations_sound .ascii childRequests _ w (by decide) hw⟩

def childReferral : StoredDelegation where
  zone := ['a']
  delegation := ⟨[['m']], [⟨['m'], .v4 ⟨10, 0, 0, 109⟩, 53, 0⟩], fromSecs 3600⟩
  response := ⟨⟨2, 0x8000, 0, 0, 1, 1⟩, [], [], [.ns ['b', '.', 'a'] ['m'] 3600], [.a ['m'] ⟨10, 0, 0, 109⟩ 3600]⟩
  serving := ['a']

/-- The server of `a` refers to the server `m` of its child `b.a`, which is then cached as the server of `a`. -/
theorem child_servers_cached_for_parent : ∃ w,
    run (step .ascii childRequests) new
      (rootReferral ++ [.query 0 (some (referral 2 [1, 98, 1, 97, 0] 109)) none, .store 0 0]) = some w ∧
    w.delegations.lookup ['a'] = some childReferral.delegation ∧ childReferral ∈ w.stored ∧
    ¬ childReferral.Sound w.received := by
  have hrun : ((run (step .ascii childRequests) new
      (rootReferral ++ [.query 0 (some (referral 2 [1, 98, 1, 97, 0] 109)) none, .store 0 0])).map fun w =>
        (w.delegations.lookup ['a'], w.stored.head?)) =
      some (some childReferral.delegation, some childReferral) := by
    decide
  obtain ⟨w, hw, hresults⟩ := Option.map_eq_some_iff.mp hrun
  obtain ⟨hcached, hstored⟩ := Prod.mk.inj hresults
  refine ⟨w, hw, hcached, List.mem_of_head? hstored, fun hsound => ?_⟩
  exact hsound.owned (by decide)

end RecursiveResolver
end MiniDns
