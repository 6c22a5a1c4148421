import MiniDns.Dns.RoundTrip
import MiniDns.FullNameAnswers
import MiniDns.QnameMinimization
import Mathlib.Data.List.Infix

/-! One call of `resolve` on an honest tree of zones. The servers of a zone refer to its child zones and
answer for the names of their own zone. The call starts with an empty cache and every query is answered. -/
namespace MiniDns
open Lib Lib.Outcome Dns DnsPacket DnsPacketEncoder Function RecursiveResolver
set_option autoImplicit false

/-! ## Trees of zones -/

/-- At which names a zone is delegated, the servers of each zone, and the data of each name. A name is the
list of its labels, the last one is the top-level domain; the root is the empty list. -/
structure Hierarchy where
  cut : List Text → Bool
  servers : List Text → List SocketAddr
  rcode : List Text → UInt16 → UInt16
  answers : List Text → UInt16 → List DnsRecord
  rcode_cases : ∀ name qtype, rcode name qtype = 0 ∨ rcode name qtype = 3
  root : servers [] = rootServers

namespace Hierarchy

theorem serve_root (H : Hierarchy) : ∀ server ∈ rootServers, server ∈ H.servers [] := by
  rw [H.root]
  exact fun _ h => h

/-- The child zone of a zone on the way to a name: the shortest delegated suffix of the name below the zone. -/
def childCut (H : Hierarchy) (zone name : List Text) : Option (List Text) :=
  name.tails.reverse.find? fun c => decide (zone.length < c.length) && H.cut c

/-- A referral: the NS records of the child zone, and addresses for the servers that they name. -/
structure Refers (H : Hierarchy) (child : List Text) (response : DnsPacket) : Prop where
  rcode : response.header.flags &&& 0x000F = 0
  answers : response.answers = []
  owner : ∀ domain nameserver ttl, .ns domain nameserver ttl ∈ response.authorities → domain = joinDots child
  names : nsNames response ≠ []
  glue : glueAddrs (nsNames response) response ≠ []
  addrs : ∀ server ∈ glueAddrs (nsNames response) response, server.addr ∈ H.servers child

/-- An answer of the zone's own data: records, NXDOMAIN, or NODATA without NS records. -/
structure Authoritative (H : Hierarchy) (name : List Text) (qtype : UInt16) (response : DnsPacket) : Prop where
  rcode : response.header.flags &&& 0x000F = H.rcode name qtype
  answers : response.answers = H.answers name qtype
  nodata : response.answers = [] → response.header.flags &&& 0x000F = 0 → nsNames response = []

/-- What a server of a zone replies. -/
def Replies (H : Hierarchy) (zone name : List Text) (qtype : UInt16) (response : DnsPacket) : Prop :=
  match H.childCut zone name with
  | some child => H.Refers child response
  | none => H.Authoritative name qtype response

theorem of_childCut {H : Hierarchy} {zone name child : List Text} (h : H.childCut zone name = some child) :
    child <:+ name ∧ zone.length < child.length ∧ H.cut child = true := by
  have hmem := List.mem_of_find?_eq_some h
  have hcond := List.find?_some h
  rw [Bool.and_eq_true, decide_eq_true_iff] at hcond
  exact ⟨(List.mem_tails _ _).mp (List.mem_reverse.mp hmem), hcond⟩

theorem childCut_eq_none {H : Hierarchy} {zone name : List Text} :
    H.childCut zone name = none ↔ ∀ c, c <:+ name → zone.length < c.length → H.cut c = false := by
  rw [childCut, List.find?_eq_none]
  simp only [List.mem_reverse, List.mem_tails, Bool.and_eq_true, decide_eq_true_eq, not_and,
    Bool.not_eq_true]

end Hierarchy

/-- A network whose servers reply as the tree of zones says, over UDP or, with TC set, over TCP. -/
structure HonestNetwork (H : Hierarchy) where
  reply : SocketAddr → UInt16 → Text → UInt16 → Option Bytes × Option Bytes
  honest : ∀ zone name, zone <:+ name → ProperLabels name → ∀ server ∈ H.servers zone, ∀ id qtype,
    ∃ response, queryOne id (reply server id (joinDots name) qtype).1 (reply server id (joinDots name) qtype).2 =
      ok response ∧ H.Replies zone name qtype response

/-! ## A call on its own -/

/-- The next step of a call. -/
def ResolvePhase.next (reply : SocketAddr → UInt16 → Text → UInt16 → Option Bytes × Option Bytes)
    (t : TaskId) (now : Instant) (id : UInt16) : ResolvePhase → Option ResolverAction
  | .start => some (.acquire t)
  | .permitted => some (.begin t now)
  | .expired => some (.evict t)
  | .asking walk (server :: _) =>
    let messages := reply server id walk.queryName walk.qtype
    some (.query t messages.1 messages.2)
  | .asking _ [] => none
  | .collecting _ _ _ _ => some (.collect t now)
  | .storing _ _ _ => some (.store t now)
  | .returned _ => none
  | .cancelled => none

section Alone
variable (rt : Runtime) {H : Hierarchy} (net : HonestNetwork H) (clock : ℕ → Instant)
  (requests : TaskId → ResolveRequest) (t : TaskId)

/-- A new resolver after some steps of its only call. -/
def alone : ℕ → RecursiveResolver
  | 0 => new
  | n + 1 =>
    (((alone n).phase t |>.next net.reply t (clock n) (alone n).nextId).bind
      ((alone n).step rt requests)).getD (alone n)

def Returns (reply : Bytes) : Prop := ∃ n, (alone rt net clock requests t n).phase t = .returned reply

variable {rt net clock requests t} {walk : Walk} {n : ℕ}

theorem alone_of_returned {reply : Bytes} (h : (alone rt net clock requests t n).phase t = .returned reply) (m : ℕ) :
    alone rt net clock requests t (n + m) = alone rt net clock requests t n := by
  induction m with
  | zero => rfl
  | succ m ih =>
    rw [Nat.add_succ, alone, ih, h]
    rfl

theorem Returns.unique {reply reply' : Bytes} (h : Returns rt net clock requests t reply)
    (h' : Returns rt net clock requests t reply') : reply = reply' := by
  obtain ⟨n, hn⟩ := h
  obtain ⟨m, hm⟩ := h'
  have hn' := alone_of_returned hn m
  have hm' := alone_of_returned hm n
  rw [Nat.add_comm] at hm'
  rw [← hn', hm', hm] at hn
  exact (ResolvePhase.returned.inj hn).symm

theorem alone_two (rt : Runtime) (net : HonestNetwork H) (clock : ℕ → Instant) (requests : TaskId → ResolveRequest)
    (t : TaskId) : (alone rt net clock requests t 2).phase t =
    (startWalk rt (requests t) rootServers []).proceed := by
  have hone : alone rt net clock requests t 1 =
      { new.setPhase t .permitted with permits := new.permits - 1 } := rfl
  have hphase : (alone rt net clock requests t 1).phase t = .permitted := by
    rw [hone]
    exact update_self _ _ _
  have hempty : (alone rt net clock requests t 1).delegations = ∅ := by
    rw [hone]
    rfl
  rw [alone, hphase]
  simp only [ResolvePhase.next, Option.bind_some, RecursiveResolver.step, hphase, hempty, AList.lookup_empty,
    Option.getD_some, setPhase, update_self]

/-- The first server of a zone has an honest reply. -/
theorem alone_query (walk : Walk) {server : SocketAddr} {left : List SocketAddr} {zone q : List Text}
    (hphase : (alone rt net clock requests t n).phase t = .asking walk (server :: left))
    (hserver : server ∈ H.servers zone) (hq : walk.queryName = joinDots q) (hzone : zone <:+ q)
    (hproper : ProperLabels q) :
    ∃ response, H.Replies zone q walk.qtype response ∧
      (alone rt net clock requests t (n + 1)).phase t = walk.receive response := by
  obtain ⟨response, hresponse, hreplies⟩ := net.honest zone q hzone hproper server hserver
    (alone rt net clock requests t n).nextId walk.qtype
  refine ⟨response, hreplies, ?_⟩
  rw [← hq] at hresponse
  rw [alone, hphase]
  simp only [ResolvePhase.next, Option.bind_some, RecursiveResolver.step, hphase, hresponse,
    Option.getD_some, setPhase, update_self]

theorem alone_store {response : DnsPacket} {addrs : List ServerAddr}
    (hphase : (alone rt net clock requests t n).phase t = .storing walk response addrs) :
    (alone rt net clock requests t (n + 1)).phase t = walk.follow addrs := by
  rw [alone, hphase]
  simp only [ResolvePhase.next, Option.bind_some, RecursiveResolver.step, hphase,
    Option.getD_some, setPhase, update_self]

end Alone

/-! ## What a walk makes of honest replies -/

section Receive
variable {H : Hierarchy} {walk : Walk} {response : DnsPacket} {q : List Text}

theorem Hierarchy.Refers.receive (h : H.Refers q response) :
    walk.receive response = .storing walk response (glueAddrs (nsNames response) response) := by
  obtain ⟨name, names, hnames⟩ := List.exists_cons_of_ne_nil h.names
  obtain ⟨addr, addrs, haddrs⟩ := List.exists_cons_of_ne_nil h.glue
  rw [hnames] at haddrs
  unfold Walk.receive
  rw [h.answers, h.rcode, hnames, haddrs]
  simp

/-- An answer from the zone's data ends the walk if the full name was asked, and else starts it again. -/
theorem Hierarchy.Authoritative.receive (walk : Walk) (h : H.Authoritative q walk.qtype response) :
    walk.receive response = walk.nodata response := by
  unfold Walk.receive
  dsimp only
  split
  · unfold Walk.nodata
    split <;> simp_all
  · rename_i hanswer
    obtain ⟨hempty, hnx⟩ := not_or.mp hanswer
    have hzero : response.header.flags &&& 0x000F = 0 := by
      rw [h.rcode] at hnx ⊢
      exact (H.rcode_cases q walk.qtype).resolve_right hnx
    rw [if_pos hzero, h.nodata (by simpa using hempty) hzero]

end Receive

/-! ## One round -/

section Round
variable {rt : Runtime} {H : Hierarchy} {net : HonestNetwork H} {clock : ℕ → Instant}
  {requests : TaskId → ResolveRequest} {t : TaskId} {walk : Walk} {n : ℕ} {zone q : List Text}

/-- In one round a walk at the servers of a zone has an answer from the zone's data, or it goes on to the
servers of the child zone. -/
theorem round (hphase : (alone rt net clock requests t n).phase t = walk.proceed)
    (hdepth : walk.depth < maxDelegationDepth)
    (hservers : walk.servers ≠ []) (hin : ∀ server ∈ walk.servers, server ∈ H.servers zone)
    (hq : walk.queryName = joinDots q) (hzone : zone <:+ q) (hproper : ProperLabels q) :
    (∃ m response, H.childCut zone q = none ∧ H.Authoritative q walk.qtype response ∧
      (alone rt net clock requests t m).phase t = Walk.nodata { walk with depth := walk.depth + 1 } response) ∨
    ∃ m child addrs, H.childCut zone q = some child ∧ addrs ≠ [] ∧ (∀ server ∈ addrs, server ∈ H.servers child) ∧
      (alone rt net clock requests t m).phase t = Walk.proceed
        { walk with
          depth := walk.depth + 1
          servers := addrs
          currentZone := walk.zone
          serving := walk.zone } := by
  obtain ⟨server, left, hcons⟩ := List.exists_cons_of_ne_nil hservers
  have hasking : walk.proceed = .asking { walk with depth := walk.depth + 1 } (server :: left) := by
    rw [Walk.proceed, if_neg (Nat.not_lt.mpr hdepth), hcons]
    rfl
  rw [hasking] at hphase
  obtain ⟨response, hreplies, hreceive⟩ := alone_query { walk with depth := walk.depth + 1 } hphase
    (hin server (by rw [hcons]; exact List.mem_cons_self)) hq hzone hproper
  unfold Hierarchy.Replies at hreplies
  cases hcut : H.childCut zone q with
  | none =>
    rw [hcut] at hreplies
    refine .inl ⟨n + 1, response, rfl, hreplies, hreceive.trans ?_⟩
    exact Hierarchy.Authoritative.receive { walk with depth := walk.depth + 1 } hreplies
  | some child =>
    rw [hcut] at hreplies
    have hrefers : H.Refers child response := hreplies
    rw [hrefers.receive] at hreceive
    refine .inr ⟨_, child, _, rfl, ?_, ?_, alone_store hreceive⟩
    · exact fun hnil => hrefers.glue (List.map_eq_nil_iff.mp hnil)
    · intro server hserver
      obtain ⟨addr, haddr, rfl⟩ := List.mem_map.mp hserver
      exact hrefers.addrs addr haddr

end Round

/-! ## Names along a walk -/

section Names
variable {ls : List Text} {a b : Text}

theorem minimizedQname_at_root (pre : List Text) (a : Text) (hls : ProperLabels (pre ++ [a])) :
    minimizedQname (joinDots (pre ++ [a])) [] = joinDots [a] := by
  have hstep := minimizedQname_rtake hls (by simp) 0
  rwa [List.rtake_zero, joinDots_nil, List.rtake_concat_succ, List.rtake_zero, List.nil_append] at hstep

theorem minimizedQname_at_tld (hls : ProperLabels ls) (ha : ls.getLast? = some a) :
    minimizedQname (joinDots ls) a = if ls.length ≤ 2 then joinDots ls else joinDots (ls.drop (ls.length - 2)) := by
  obtain ⟨hne, rfl⟩ := List.mem_getLast?_eq_getLast ha
  have hstep := minimizedQname_rtake hls hne 1
  rw [joinDots_rtake_one hne] at hstep
  rw [hstep]
  split
  · rename_i hshort
    rw [rtake_of_length_le hshort]
  · rfl

theorem delegationZone_label (hls : ProperLabels [a]) : delegationZone (joinDots [a]) = a := by
  rw [joinDots_singleton]
  exact delegationZone_of_dot_not_mem (hls a List.mem_cons_self).2

theorem delegationZone_pair (hls : ProperLabels [b, a]) : delegationZone (joinDots [b, a]) = a := by
  rw [delegationZone_joinDots (hls b List.mem_cons_self).2 (by simp), joinDots_singleton]

theorem delegationZone_short (hls : ProperLabels ls) (ha : ls.getLast? = some a) (hlen : ls.length ≤ 2) :
    delegationZone (joinDots ls) = a := by
  match ls, ha, hlen with
  | [_], ha, _ =>
    obtain rfl := Option.some.inj ha
    exact delegationZone_label hls
  | [_, _], ha, _ =>
    obtain rfl := Option.some.inj ha
    exact delegationZone_pair hls

end Names

/-! ## Names of at most two labels -/

section Answered
variable {rt : Runtime} {H : Hierarchy} {net : HonestNetwork H} {clock : ℕ → Instant}
  {requests : TaskId → ResolveRequest} {t : TaskId} {walk : Walk} {n : ℕ} {zone ls : List Text} {a : Text}

/-- The call returns an answer from the data of the name's zone, with the client's ID, AA clear and RA set. -/
def ReturnsAnswer (rt : Runtime) {H : Hierarchy} (net : HonestNetwork H) (clock : ℕ → Instant)
    (requests : TaskId → ResolveRequest) (t : TaskId) (ls : List Text) : Prop :=
  ∃ response, H.Authoritative ls (requests t).qtype response ∧
    Returns rt net clock requests t (relayedResponse response (requests t).clientId).toBytes

theorem returnsAnswer_of_nodata (walk : Walk) {m : ℕ} {response : DnsPacket} (hwalk : walk.For rt (requests t))
    (hfull : walk.queryName = walk.name) (hanswer : H.Authoritative ls walk.qtype response)
    (hphase : (alone rt net clock requests t m).phase t = walk.nodata response) :
    ReturnsAnswer rt net clock requests t ls := by
  rw [Walk.nodata, if_pos hfull, Walk.relay, hwalk.clientId] at hphase
  rw [hwalk.qtype] at hanswer
  exact ⟨response, hanswer, m, hphase⟩

/-- Below the root a walk for a name of at most two labels always asks for the full name, and each round
brings it to a longer zone. -/
theorem returnsAnswer_at_tld (walk : Walk) (hls : ProperLabels ls) (ha : ls.getLast? = some a) (hlen : ls.length ≤ 2)
    (hname : walk.name = joinDots ls) (hcurrent : walk.currentZone = a) (hwalk : walk.For rt (requests t))
    (hzone : zone <:+ ls) (hdepth : walk.depth + (ls.length - zone.length) < maxDelegationDepth)
    (hservers : walk.servers ≠ []) (hin : ∀ server ∈ walk.servers, server ∈ H.servers zone)
    (hphase : (alone rt net clock requests t n).phase t = walk.proceed) :
    ReturnsAnswer rt net clock requests t ls := by
  induction hk : ls.length - zone.length using Nat.strong_induction_on generalizing walk zone n with
  | _ k ih =>
    have hq : walk.queryName = joinDots ls := by
      rw [Walk.queryName, hname, hcurrent, minimizedQname_at_tld hls ha, if_pos hlen]
    obtain ⟨m, response, _, hanswer, hm⟩ | ⟨m, child, addrs, hcut, haddrs, hchild, hm⟩ :=
      round hphase (by omega) hservers hin hq hzone hls
    · exact returnsAnswer_of_nodata { walk with depth := walk.depth + 1 }
        ⟨hwalk.name, hwalk.qtype, hwalk.clientId⟩ (hq.trans hname.symm) hanswer hm
    · obtain ⟨hsuffix, hlonger, _⟩ := Hierarchy.of_childCut hcut
      have hle := hsuffix.length_le
      have hstays : walk.zone = a := by rw [Walk.zone, hq, delegationZone_short hls ha hlen]
      exact ih (ls.length - child.length) (by omega)
        { walk with depth := walk.depth + 1, servers := addrs, currentZone := walk.zone, serving := walk.zone }
        hname hstays ⟨hwalk.name, hwalk.qtype, hwalk.clientId⟩ hsuffix (by dsimp only; omega) haddrs hchild hm rfl

/-- The names that the resolver can resolve: the root, a top-level domain, or a name right below a
top-level domain that is delegated from the root. -/
def Resolvable (H : Hierarchy) (ls : List Text) : Prop :=
  ls.length ≤ 1 ∨ ls.length = 2 ∧ H.cut (ls.drop 1) = true

theorem childCut_top (hcut : H.cut [a] = true) : H.childCut [] [a] ≠ none := by
  intro hnone
  rw [Hierarchy.childCut_eq_none.mp hnone [a] List.suffix_rfl Nat.one_pos] at hcut
  cases hcut

/-- The first round asks the root servers for the name's last label. -/
theorem round_start {q : List Text} (hq : (startWalk rt (requests t) rootServers []).queryName = joinDots q)
    (hproper : ProperLabels q) :
    (∃ m response, H.childCut [] q = none ∧ H.Authoritative q (requests t).qtype response ∧
      (alone rt net clock requests t m).phase t =
        Walk.nodata { startWalk rt (requests t) rootServers [] with depth := 1 } response) ∨
    ∃ m child addrs, H.childCut [] q = some child ∧ addrs ≠ [] ∧ (∀ server ∈ addrs, server ∈ H.servers child) ∧
      (alone rt net clock requests t m).phase t = Walk.proceed
        { startWalk rt (requests t) rootServers [] with
          depth := 1
          servers := addrs
          currentZone := (startWalk rt (requests t) rootServers []).zone
          serving := (startWalk rt (requests t) rootServers []).zone } :=
  round (alone_two rt net clock requests t) (by decide : 0 < maxDelegationDepth) (by decide : rootServers ≠ [])
    H.serve_root hq List.nil_suffix hproper

theorem returnsAnswer_root (hname : queriedName rt (requests t) = joinDots []) :
    ReturnsAnswer rt net clock requests t [] := by
  have hq : (startWalk rt (requests t) rootServers []).queryName = joinDots [] := by
    rw [Walk.queryName, startWalk, hname]
    rfl
  obtain ⟨m, response, _, hanswer, hm⟩ | ⟨m, child, addrs, hcut, _⟩ := round_start hq (List.forall_mem_nil _)
  · exact returnsAnswer_of_nodata { startWalk rt (requests t) rootServers [] with depth := 1 }
      ⟨rfl, rfl, rfl⟩ (hq.trans hname.symm) hanswer hm
  · obtain ⟨hsuffix, hlonger, _⟩ := Hierarchy.of_childCut hcut
    exact absurd hsuffix.length_le (Nat.not_le.mpr hlonger)

theorem Resolvable.eq_nil_of_uncut {pre : List Text} (h : Resolvable H (pre ++ [a])) (hcut : H.childCut [] [a] = none) :
    pre = [] := by
  obtain hshort | ⟨htwo, hdelegated⟩ := h
  · rw [List.length_append] at hshort
    exact List.eq_nil_of_length_eq_zero (by simpa using hshort)
  · obtain ⟨b, rfl⟩ : ∃ b, pre = [b] := by
      rw [List.length_append] at htwo
      exact List.length_eq_one_iff.mp (by simpa using htwo)
    exact absurd hcut (childCut_top hdelegated)

theorem returnsAnswer_of_resolvable (hname : queriedName rt (requests t) = joinDots ls) (hls : ProperLabels ls)
    (h : Resolvable H ls) : ReturnsAnswer rt net clock requests t ls := by
  obtain rfl | ⟨pre, a, rfl⟩ := List.eq_nil_or_concat' ls
  · exact returnsAnswer_root hname
  have hq : (startWalk rt (requests t) rootServers []).queryName = joinDots [a] := by
    rw [Walk.queryName, startWalk, hname]
    exact minimizedQname_at_root pre a hls
  have ha : ProperLabels [a] := fun l hl => hls l (List.mem_append_right _ hl)
  obtain ⟨m, response, hcut, hanswer, hm⟩ | ⟨m, child, addrs, hcut, haddrs, hchild, hm⟩ := round_start hq ha
  · -- the root has data of its own for the top-level domain
    obtain rfl := h.eq_nil_of_uncut hcut
    exact returnsAnswer_of_nodata { startWalk rt (requests t) rootServers [] with depth := 1 }
      ⟨rfl, rfl, rfl⟩ (hq.trans hname.symm) hanswer hm
  · obtain ⟨hsuffix, hlonger, _⟩ := Hierarchy.of_childCut hcut
    have hlast : (pre ++ [a]).getLast? = some a := List.getLast?_concat
    have hlen : (pre ++ [a]).length ≤ 2 := by
      obtain hlen | ⟨hlen, _⟩ := h <;> omega
    have hzone : (startWalk rt (requests t) rootServers []).zone = a := by
      rw [Walk.zone, hq, delegationZone_label ha]
    refine returnsAnswer_at_tld _ hls hlast hlen hname hzone ⟨rfl, rfl, rfl⟩
      (hsuffix.trans (List.suffix_append pre [a])) ?_ haddrs hchild hm
    exact (by omega : 1 + ((pre ++ [a]).length - child.length) < 20)

end Answered

/-! ## All other names -/

section Failed
variable {rt : Runtime} {H : Hierarchy} {net : HonestNetwork H} {clock : ℕ → Instant}
  {requests : TaskId → ResolveRequest} {t : TaskId} {walk : Walk} {n : ℕ} {pre : List Text} {b a : Text}

/-- A walk for `pre.b.a` at the root, or at the servers of `a` or `b.a` when there are more labels. It never
asks for the full name. -/
structure Walk.Stuck (H : Hierarchy) (pre : List Text) (b a : Text) (zone : List Text) (walk : Walk) : Prop where
  name : walk.name = joinDots (pre ++ [b, a])
  servers : walk.servers ≠ []
  serve : ∀ server ∈ walk.servers, server ∈ H.servers zone
  place : walk.currentZone = [] ∧ zone = [] ∨ walk.currentZone = a ∧ pre ≠ [] ∧ zone <:+ [b, a]

/-- The query name of such a walk has the last label, or the last two. -/
theorem Walk.Stuck.query {zone : List Text} (h : walk.Stuck H pre b a zone) (hls : ProperLabels (pre ++ [b, a])) :
    ∃ q, walk.queryName = joinDots q ∧ zone <:+ q ∧ q <:+ [b, a] ∧ walk.queryName ≠ walk.name ∧ walk.zone = a ∧
      (q = [a] ∨ pre ≠ []) := by
  have hpair : ProperLabels [b, a] := fun l hl => hls l (List.mem_append_right _ hl)
  have htop : ProperLabels [a] := fun l hl => hpair l (List.mem_cons_of_mem _ hl)
  have hne : ∀ q, q <:+ [b, a] → (q = [a] ∨ pre ≠ []) → joinDots q ≠ walk.name := by
    intro q hq hshort heq
    have hproper : ProperLabels q := fun l hl => hpair l (hq.subset hl)
    rw [h.name] at heq
    have hlen := congrArg List.length (joinDots_inj hproper hls heq)
    have hle := hq.length_le
    rw [List.length_append] at hlen
    obtain rfl | hpre := hshort
    · simp at hlen
    · have hpos := List.length_pos_iff.mpr hpre
      simp only [List.length_cons, List.length_nil] at hlen hle
      omega
  obtain ⟨hcurrent, rfl⟩ | ⟨hcurrent, hpre, hzone⟩ := h.place
  · have hq : walk.queryName = joinDots [a] := by
      have hlast := minimizedQname_at_root (pre ++ [b]) a (by simpa using hls)
      rw [List.append_assoc] at hlast
      rw [Walk.queryName, hcurrent, h.name]
      exact hlast
    refine ⟨[a], hq, List.nil_suffix, List.suffix_cons b [a], ?_, ?_, .inl rfl⟩
    · rw [hq]
      exact hne [a] (List.suffix_cons b [a]) (.inl rfl)
    · rw [Walk.zone, hq, delegationZone_label htop]
  · have hq : walk.queryName = joinDots [b, a] := by
      have hlong : ¬ (pre ++ [b, a]).length ≤ 2 := by
        have := List.length_pos_iff.mpr hpre
        rw [List.length_append]
        simp only [List.length_cons, List.length_nil]
        omega
      rw [Walk.queryName, hcurrent, h.name, minimizedQname_at_tld hls (by simp), if_neg hlong]
      simp
    refine ⟨[b, a], hq, hzone, List.suffix_rfl, ?_, ?_, .inr hpre⟩
    · rw [hq]
      exact hne [b, a] List.suffix_rfl (.inr hpre)
    · rw [Walk.zone, hq, delegationZone_pair hpair]

/-- Each round starts again at the root or goes on to servers below it, until the depth is used up. -/
theorem returns_fail (walk : Walk) (zone : List Text) (hls : ProperLabels (pre ++ [b, a]))
    (hbad : pre ≠ [] ∨ H.cut [a] = false)
    (h : walk.Stuck H pre b a zone) (hphase : (alone rt net clock requests t n).phase t = walk.proceed) :
    ∃ m, (alone rt net clock requests t m).phase t = walk.fail := by
  induction hk : maxDelegationDepth - walk.depth generalizing walk zone n with
  | zero =>
    refine ⟨n, hphase.trans ?_⟩
    rw [Walk.proceed, if_pos (by omega)]
  | succ k ih =>
    obtain ⟨q, hq, hzone, hpair, hpart, hstays, hshort⟩ := h.query hls
    have hproper : ProperLabels q := fun l hl => hls l (List.mem_append_right _ (hpair.subset hl))
    obtain ⟨m, response, _, _, hm⟩ | ⟨m, child, addrs, hcut, haddrs, hchild, hm⟩ :=
      round hphase (by omega) h.servers h.serve hq hzone hproper
    · -- an answer to the minimised name
      have hrestart := hm.trans (if_neg hpart)
      refine ih { walk with depth := walk.depth + 1, servers := rootServers, currentZone := [], serving := [] } []
        ⟨h.name, (by decide : rootServers ≠ []), H.serve_root, .inl ⟨rfl, rfl⟩⟩ hrestart ?_
      dsimp only
      omega
    · obtain ⟨hsuffix, hlonger, hdelegated⟩ := Hierarchy.of_childCut hcut
      have hmore : pre ≠ [] := by
        obtain rfl | hpre := hshort
        · obtain hpre | hnot := hbad
          · exact hpre
          · have htop : child = [a] :=
              hsuffix.eq_of_length_le (by simp only [List.length_singleton]; omega)
            rw [htop, hnot] at hdelegated
            cases hdelegated
        · exact hpre
      refine ih
        { walk with depth := walk.depth + 1, servers := addrs, currentZone := walk.zone, serving := walk.zone } child
        ⟨h.name, haddrs, hchild, .inr ⟨hstays, hmore, hsuffix.trans hpair⟩⟩ hm ?_
      dsimp only
      omega

/-- **Every other name ends in SERVFAIL.** -/
theorem returns_servfail (pre : List Text) (b a : Text) (hname : queriedName rt (requests t) = joinDots (pre ++ [b, a]))
    (hls : ProperLabels (pre ++ [b, a])) (hbad : pre ≠ [] ∨ H.cut [a] = false) :
    Returns rt net clock requests t
      (synthServfail (queriedName rt (requests t)) (requests t).qtype (requests t).clientId).toBytes :=
  returns_fail (startWalk rt (requests t) rootServers []) [] hls hbad
    ⟨hname, (by decide : rootServers ≠ []), H.serve_root, .inl ⟨rfl, rfl⟩⟩
    (alone_two rt net clock requests t)

theorem rcode_relayedResponse (response : DnsPacket) (id : UInt16) :
    (relayedResponse response id).header.flags &&& 0x000F = response.header.flags &&& 0x000F := by
  change ((response.header.flags &&& 0xFBFF) ||| 0x0080) &&& 0x000F = _
  rw [← UInt16.toNat_inj]
  simp only [UInt16.toNat_and, UInt16.toNat_or, Nat.and_or_distrib_right, Nat.and_assoc]
  exact Nat.or_zero _

theorem header_of_toBytes_eq {p p' : DnsPacket} (h : p.toBytes = p'.toBytes) : p.header.flags = p'.header.flags := by
  rw [toBytes_eq, toBytes_eq, List.append_assoc, List.append_assoc] at h
  have hheader := parseHeader_append p (Layout.start.questionsBytes p.questions ++
    (Layout.start.questions p.questions).recordsBytes p.records)
  rw [h, parseHeader_append] at hheader
  have hflags := congrArg DnsHeader.flags (Outcome.ok.inj hheader)
  exact hflags.symm

/-- The SERVFAIL of the resolver is no answer from the data of a zone. -/
theorem not_returnsAnswer {ls : List Text} {name : Text} (h : Returns rt net clock requests t
      (synthServfail name (requests t).qtype (requests t).clientId).toBytes) :
    ¬ ReturnsAnswer rt net clock requests t ls := by
  rintro ⟨response, hanswer, hreturns⟩
  have hflags := header_of_toBytes_eq (h.unique hreturns)
  have hrcode := rcode_relayedResponse response (requests t).clientId
  rw [← hflags, hanswer.rcode] at hrcode
  change (0x8182 : UInt16) &&& 0x000F = _ at hrcode
  obtain hzero | hnx := H.rcode_cases ls (requests t).qtype
  · rw [hzero] at hrcode
    exact absurd hrcode (by decide)
  · rw [hnx] at hrcode
    exact absurd hrcode (by decide)

end Failed

/-- **On an honest tree of zones a call returns the answer from the name's zone exactly when the name is the
root, a top-level domain, or right below a top-level domain that is delegated from the root.** -/
theorem returnsAnswer_iff (rt : Runtime) (H : Hierarchy) (net : HonestNetwork H) (clock : ℕ → Instant)
    (requests : TaskId → ResolveRequest) (t : TaskId) (ls : List Text) (hls : ProperLabels ls)
    (hname : queriedName rt (requests t) = joinDots ls) :
    ReturnsAnswer rt net clock requests t ls ↔ Resolvable H ls := by
  refine ⟨fun h => ?_, returnsAnswer_of_resolvable hname hls⟩
  by_contra hnot
  obtain ⟨hlong, htop⟩ := not_or.mp hnot
  obtain ⟨pre, b, a, rfl⟩ : ∃ pre b a, ls = pre ++ [b, a] := by
    obtain rfl | ⟨pre, a, rfl⟩ := List.eq_nil_or_concat' ls
    · exact absurd (Nat.zero_le 1) hlong
    obtain rfl | ⟨pre, b, rfl⟩ := List.eq_nil_or_concat' pre
    · exact absurd (Nat.le_refl 1) hlong
    · exact ⟨pre, b, a, List.append_assoc _ _ _⟩
  refine not_returnsAnswer (returns_servfail pre b a hname hls ?_) h
  refine or_iff_not_imp_left.mpr fun hpre => ?_
  obtain rfl := not_not.mp hpre
  exact Bool.eq_false_iff.mpr fun hcut => htop ⟨rfl, hcut⟩

/-! ## A tree of two zones -/

section TwoZones

def topServer : SocketAddr := ⟨.v4 ⟨10, 0, 0, 110⟩, 53, 0⟩

/-- The root delegates `a`, and there is no data anywhere. -/
def twoZones : Hierarchy where
  cut ls := ls = [['a']]
  servers zone := if zone = [] then rootServers else if zone = [['a']] then [topServer] else []
  rcode _ _ := 0
  answers _ _ := []
  rcode_cases _ _ := .inl rfl
  root := rfl

def noData (id : UInt16) : DnsPacket := ⟨⟨id, 0x8000, 0, 0, 0, 0⟩, [], [], [], []⟩

def topReferral (id : UInt16) : DnsPacket :=
  ⟨⟨id, 0x8000, 0, 0, 1, 1⟩, [], [], [.ns ['a'] ['n'] 3600], [.a ['n'] ⟨10, 0, 0, 110⟩ 3600]⟩

theorem queryOne_toBytes {p : DnsPacket} (hcount : p.Counted) (hfit : p.Fits) (hs : p.Survives)
    (hflags : p.header.flags = 0x8000) : queryOne p.header.id (some p.toBytes) none = ok p.recounted := by
  have hbyte : p.toBytes.getD 2 0 = 0x80 := by
    rw [toBytes_eq]
    change (bytes16 p.header.flags).getD 0 0 = 0x80
    rw [hflags]
    decide
  have haccept : acceptResponse p.header.id p.toBytes = ok p.recounted := by
    rw [acceptResponse, fromBytes_toBytes p hcount hfit hs]
    exact if_neg (not_not.mpr rfl)
  rw [queryOne, hbyte, if_neg fun h => h.2 (by decide), haccept]

theorem queryOne_noData (id : UInt16) : queryOne id (some (noData id).toBytes) none = ok (noData id) :=
  queryOne_toBytes (p := noData id) ⟨Nat.zero_le _, Nat.zero_le _, Nat.zero_le _, Nat.zero_le _⟩ trivial
    ⟨trivial, trivial⟩ rfl

theorem queryOne_topReferral (id : UInt16) :
    queryOne id (some (topReferral id).toBytes) none = ok (topReferral id) :=
  queryOne_toBytes (p := topReferral id)
    ⟨Nat.zero_le _, Nat.zero_le _, (by decide : 1 ≤ 65535), (by decide : 1 ≤ 65535)⟩
    (by decide : (topReferral 0).Fits) ⟨trivial, (by decide : (topReferral 0).Survives).2⟩ rfl

/-- The servers of the two zones. -/
def twoZonesReply (server : SocketAddr) (id : UInt16) (name : Text) (_ : UInt16) : Option Bytes × Option Bytes :=
  if server ≠ topServer ∧ (textLabels name).getLast? = some ['a'] then (some (topReferral id).toBytes, none)
  else (some (noData id).toBytes, none)

theorem childCut_twoZones_root {name : List Text} : twoZones.childCut [] name =
    if name.getLast? = some ['a'] then some [['a']] else none := by
  cases hcut : twoZones.childCut [] name with
  | none =>
    rw [if_neg]
    intro hlast
    have := Hierarchy.childCut_eq_none.mp hcut [['a']] (List.singleton_suffix_iff_getLast?_eq_some.mpr hlast)
      Nat.one_pos
    cases this
  | some child =>
    obtain ⟨hsuffix, _, hcut⟩ := Hierarchy.of_childCut hcut
    obtain rfl : child = [['a']] := of_decide_eq_true hcut
    rw [if_pos (List.singleton_suffix_iff_getLast?_eq_some.mp hsuffix)]

theorem childCut_twoZones_top {name : List Text} : twoZones.childCut [['a']] name = none := by
  rw [Hierarchy.childCut_eq_none]
  intro c _ hlonger
  refine decide_eq_false ?_
  rintro rfl
  exact absurd hlonger (Nat.lt_irrefl 1)

theorem authoritative_noData (name : List Text) (id qtype : UInt16) :
    twoZones.Authoritative name qtype (noData id) :=
  ⟨(by decide : (0x8000 : UInt16) &&& 15 = 0), rfl, fun _ _ => rfl⟩

theorem refers_topReferral (id : UInt16) : twoZones.Refers [['a']] (topReferral id) where
  rcode := (by decide : (0x8000 : UInt16) &&& 15 = 0)
  answers := rfl
  owner domain nameserver ttl h := by
    obtain h := List.mem_singleton.mp h
    exact (DnsRecord.ns.inj h).1
  names := (by decide : nsNames (topReferral 0) ≠ [])
  glue := (by decide : glueAddrs (nsNames (topReferral 0)) (topReferral 0) ≠ [])
  addrs := (by decide : ∀ server ∈ glueAddrs (nsNames (topReferral 0)) (topReferral 0),
    server.addr ∈ twoZones.servers [['a']])

def twoZonesNetwork : HonestNetwork twoZones where
  reply := twoZonesReply
  honest zone name hzone hproper server hserver id qtype := by
    rw [twoZonesReply, textLabels_joinDots hproper]
    unfold Hierarchy.Replies
    by_cases hroot : zone = []
    · subst hroot
      have hother : server ≠ topServer := by
        rintro rfl
        exact absurd hserver (by decide)
      rw [childCut_twoZones_root]
      by_cases hlast : name.getLast? = some ['a']
      · rw [if_pos ⟨hother, hlast⟩, if_pos hlast]
        exact ⟨topReferral id, queryOne_topReferral id, refers_topReferral id⟩
      · rw [if_neg fun h => hlast h.2, if_neg hlast]
        exact ⟨noData id, queryOne_noData id, authoritative_noData name id qtype⟩
    · have htop : zone = [['a']] ∧ server = topServer := by
        change server ∈ (if zone = [] then rootServers else if zone = [['a']] then [topServer] else []) at hserver
        rw [if_neg hroot] at hserver
        split at hserver
        · exact ⟨‹_›, List.mem_singleton.mp hserver⟩
        · cases hserver
      obtain ⟨rfl, rfl⟩ := htop
      rw [childCut_twoZones_top, if_neg fun h => h.1 rfl]
      exact ⟨noData id, queryOne_noData id, authoritative_noData name id qtype⟩

theorem returnsAnswer_iff_twoZones :
    ReturnsAnswer .ascii twoZonesNetwork (fun _ => 0) childRequests 0 [['b'], ['a']] :=
  (returnsAnswer_iff .ascii twoZones twoZonesNetwork (fun _ => 0) childRequests 0 [['b'], ['a']] (by decide)
    (by decide)).mpr (.inr ⟨rfl, rfl⟩)

def grandchildRequests (_ : TaskId) : ResolveRequest := ⟨['c', '.', 'b', '.', 'a'], 1, 9⟩

/-- A name of three labels ends in SERVFAIL, and the zone `a` has NODATA for it. -/
theorem three_labels_fail :
    Returns .ascii twoZonesNetwork (fun _ => 0) grandchildRequests 0
        (synthServfail ['c', '.', 'b', '.', 'a'] 1 9).toBytes ∧
      ¬ ReturnsAnswer .ascii twoZonesNetwork (fun _ => 0) grandchildRequests 0 [['c'], ['b'], ['a']] := by
  have hfail : Returns .ascii twoZonesNetwork (fun _ => 0) grandchildRequests 0
      (synthServfail ['c', '.', 'b', '.', 'a'] 1 9).toBytes :=
    returns_servfail [['c']] ['b'] ['a'] (by decide) (by decide) (.inl (by decide))
  exact ⟨hfail, not_returnsAnswer hfail⟩

end TwoZones

end MiniDns
