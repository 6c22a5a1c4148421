import MiniDns.Dns.Encoder
import MiniDns.Dns.Packet
import MiniDns.Lib.Names
import MiniDns.Lib.Runs
import MiniDns.Lib.TextFields
import MiniDns.Runtime
import Mathlib.Logic.Function.Basic

/-! The iterative resolver. Calls of `resolve` walk down from the root servers, or from the cached servers
of the parent of their name, and share the cache of delegations. Servers may answer anything, so that an
answer is an input of the step that receives it. -/
namespace MiniDns
open Lib Lib.Outcome Dns DnsPacket Function
set_option autoImplicit false

/-! ## Names -/

/-- The part of a name behind its first label, if there is a dot; otherwise the root. -/
def parentZone (name : Text) : Text :=
  match splitOnce '.' name with
  | some (_, parent) => parent
  | none => []

def delegationZone (name : Text) : Text :=
  match splitOnce '.' name with
  | some (_, rest) => rest
  | none => name

/-- The last labels of a name, one more than the zone has. -/
def minimizedQname (name currentZone : Text) : Text :=
  let labels := textLabels name
  match labels.getLast? with
  | none => name
  | some last =>
    if currentZone.isEmpty then last
    else
      let queryLabels := (textLabels currentZone).length + 1
      if labels.length ≤ queryLabels then name else joinDots (labels.drop (labels.length - queryLabels))

/-! ## Delegations -/

/-- The address of a server, with the owner of the A or AAAA record it was read from. The code keeps the
address. -/
structure ServerAddr where
  owner : Text
  addr : SocketAddr
  deriving DecidableEq, Repr

structure Delegation where
  nsNames : List Text
  nsAddrs : List ServerAddr
  expiresAt : Instant
  deriving DecidableEq, Repr

def Delegation.isExpired (d : Delegation) (now : Instant) : Bool := d.expiresAt ≤ now

def nsNames (response : DnsPacket) : List Text :=
  response.authorities.filterMap fun
    | .ns _ nameserver _ => some nameserver
    | _ => none

def nsTtl (response : DnsPacket) : UInt32 :=
  response.authorities.foldl (fun ttl r =>
    match r with
    | .ns _ _ recordTtl => min ttl recordTtl
    | _ => ttl) 3600

def addressRecord : DnsRecord → Option ServerAddr
  | .a domain addr _ => some ⟨domain, .v4 addr, 53, 0⟩
  | .aaaa domain addr _ => some ⟨domain, .v6 addr, 53, 0⟩
  | _ => none

def namesServer (names : List Text) (owner : Text) : Bool := names.any fun ns => eqIgnoreAsciiCase ns owner

def glueAddrs (names : List Text) (response : DnsPacket) : List ServerAddr :=
  response.additionals.filterMap fun r => (addressRecord r).filter fun server => namesServer names server.owner

def rootHints : List Ipv4Addr :=
  [⟨198, 41, 0, 4⟩, ⟨170, 247, 170, 2⟩, ⟨192, 33, 4, 12⟩, ⟨199, 7, 91, 13⟩, ⟨192, 203, 230, 10⟩, ⟨192, 5, 5, 241⟩,
    ⟨192, 112, 36, 4⟩, ⟨198, 97, 190, 53⟩, ⟨192, 36, 148, 17⟩, ⟨192, 58, 128, 30⟩, ⟨193, 0, 14, 129⟩,
    ⟨199, 7, 83, 42⟩, ⟨202, 12, 27, 33⟩]

def rootServers : List SocketAddr := rootHints.map fun ip => ⟨.v4 ip, 53, 0⟩

/-! ## Messages -/

def serverQuery (id : UInt16) (name : Text) (qtype : UInt16) : DnsPacket :=
  ⟨⟨id, 0x0010, 1, 0, 0, 1⟩, [⟨name, qtype, 1⟩], [], [], [.opt 1232]⟩

def relayedResponse (response : DnsPacket) (clientId : UInt16) : DnsPacket :=
  { response with
    header := { response.header with id := clientId, flags := (response.header.flags &&& 0xFBFF) ||| 0x0080 } }

def synthServfail (name : Text) (qtype clientId : UInt16) : DnsPacket :=
  ⟨⟨clientId, 0x8182, 1, 0, 0, 0⟩, [⟨name, qtype, 1⟩], [], [], []⟩

def acceptResponse (id : UInt16) (buf : Bytes) : Outcome Unit DnsPacket :=
  (fromBytes buf).handle (fun response => if response.header.id ≠ id then err () else ok response) fun _ => err ()

/-- What comes of a query to one server: its datagram, or its message over TCP when the datagram has TC set. -/
def queryOne (id : UInt16) : (udp tcp : Option Bytes) → Outcome Unit DnsPacket
  | none, _ => err ()
  | some buf, tcp =>
    if 4 ≤ buf.length ∧ buf.getD 2 0 &&& 0x02 ≠ 0 then
      match tcp with
      | none => err ()
      | some message => acceptResponse id message
    else acceptResponse id buf

/-! ## The loop of `resolve` -/

/-- The variables of the loop, with the zone that the current servers are asked as servers of. -/
structure Walk where
  name : Text
  qtype : UInt16
  clientId : UInt16
  servers : List SocketAddr
  currentZone : Text
  depth : ℕ
  serving : Text
  deriving DecidableEq, Repr

def maxDelegationDepth : ℕ := 20

/-- Where a call is: it holds a permit; it has met an expired entry; it tries the servers that are left;
it looks up the servers of a referral without glue in the cache; it has the addresses of a referral. -/
inductive ResolvePhase where
  | start
  | permitted
  | expired
  | asking (walk : Walk) (left : List SocketAddr)
  | collecting (walk : Walk) (response : DnsPacket) (names : List Text) (addrs : List ServerAddr)
  | storing (walk : Walk) (response : DnsPacket) (addrs : List ServerAddr)
  | returned (reply : Bytes)
  | cancelled
  deriving DecidableEq, Repr

def ResolvePhase.ended : ResolvePhase → Bool
  | .returned _ | .cancelled => true
  | _ => false

namespace Walk

def queryName (walk : Walk) : Text := minimizedQname walk.name walk.currentZone

def zone (walk : Walk) : Text := delegationZone walk.queryName

def fail (walk : Walk) : ResolvePhase := .returned (synthServfail walk.name walk.qtype walk.clientId).toBytes

def relay (walk : Walk) (response : DnsPacket) : ResolvePhase :=
  .returned (relayedResponse response walk.clientId).toBytes

def proceed (walk : Walk) : ResolvePhase :=
  if maxDelegationDepth < walk.depth + 1 then walk.fail
  else if walk.servers.isEmpty then walk.fail
  else .asking { walk with depth := walk.depth + 1 } walk.servers

/-- `servers = self.root_servers(); current_zone = String::new(); continue;` -/
def restart (walk : Walk) : ResolvePhase :=
  proceed { walk with servers := rootServers, currentZone := [], serving := [] }

def follow (walk : Walk) (addrs : List ServerAddr) : ResolvePhase :=
  proceed { walk with servers := addrs.map ServerAddr.addr, currentZone := walk.zone, serving := walk.zone }

def nodata (walk : Walk) (response : DnsPacket) : ResolvePhase :=
  if walk.queryName = walk.name then walk.relay response else walk.restart

def receive (walk : Walk) (response : DnsPacket) : ResolvePhase :=
  let rcode := response.header.flags &&& 0x000F
  if !response.answers.isEmpty ∨ rcode = 3 then
    if walk.queryName ≠ walk.name then walk.restart else walk.relay response
  else if rcode = 0 then
    match nsNames response, glueAddrs (nsNames response) response with
    | [], _ => walk.nodata response
    | names, [] => .collecting walk response names []
    | _, addrs => .storing walk response addrs
  else walk.relay response

end Walk

/-! ## Concurrent calls -/

structure ResolveRequest where
  name : Text
  qtype : UInt16
  clientId : UInt16

/-- A delegation as it was stored: its key, the response it was extracted from, and the zone that the
servers which sent the response were asked as servers of. -/
structure StoredDelegation where
  zone : Text
  delegation : Delegation
  response : DnsPacket
  serving : Text
  deriving DecidableEq, Repr

/-- The resolver, its calls, and what it has sent, received and stored so far. -/
structure RecursiveResolver where
  delegations : HashMap Text Delegation
  permits : ℕ
  nextId : UInt16
  phase : TaskId → ResolvePhase
  sent : List (SocketAddr × Bytes)
  received : List DnsPacket
  stored : List StoredDelegation

inductive ResolverAction where
  | acquire (t : TaskId)
  | begin (t : TaskId) (now : Instant)
  | evict (t : TaskId)
  | query (t : TaskId) (udp tcp : Option Bytes)
  | collect (t : TaskId) (now : Instant)
  | store (t : TaskId) (now : Instant)
  | cancel (t : TaskId)

namespace RecursiveResolver

def maxConcurrent : ℕ := 128

def new : RecursiveResolver := ⟨∅, maxConcurrent, 1, fun _ => .start, [], [], []⟩

def setPhase (w : RecursiveResolver) (t : TaskId) (phase : ResolvePhase) : RecursiveResolver :=
  { w with
    phase := update w.phase t phase
    permits := if phase.ended then w.permits + 1 else w.permits }

def liveAddrs (w : RecursiveResolver) (now : Instant) (zone : Text) : List ServerAddr :=
  match w.delegations.lookup zone with
  | some entry => if entry.isExpired now then [] else entry.nsAddrs
  | none => []

/-- `name.to_lowercase()` and `name.trim_end_matches('.')` -/
def queriedName (rt : Runtime) (request : ResolveRequest) : Text := trimEndDots (rt.toLowercase request.name)

/-- A walk from the root servers, or from the cached servers of the parent zone. The loop starts with an
empty `current_zone` either way. -/
def startWalk (rt : Runtime) (request : ResolveRequest) (servers : List SocketAddr) (serving : Text) : Walk :=
  ⟨queriedName rt request, request.qtype, request.clientId, servers, [], 0, serving⟩

/-- The query is written and its ID used up, whatever comes back. -/
def ask (w : RecursiveResolver) (server : SocketAddr) (walk : Walk) : RecursiveResolver :=
  { w with
    nextId := w.nextId + 1
    sent := (server, (serverQuery w.nextId walk.queryName walk.qtype).toBytes) :: w.sent }

def step (rt : Runtime) (requests : TaskId → ResolveRequest) (w : RecursiveResolver) :
    ResolverAction → Option RecursiveResolver
  | .acquire t =>
    match w.phase t with
    | .start => if 0 < w.permits then some { w.setPhase t .permitted with permits := w.permits - 1 } else none
    | _ => none
  | .begin t now =>
    match w.phase t with
    | .permitted =>
      let parent := parentZone (queriedName rt (requests t))
      match w.delegations.lookup parent with
      | some entry =>
        if entry.isExpired now then some (w.setPhase t .expired)
        else
          some (w.setPhase t
            (startWalk rt (requests t) (entry.nsAddrs.map ServerAddr.addr) parent).proceed)
      | none => some (w.setPhase t (startWalk rt (requests t) rootServers []).proceed)
    | _ => none
  | .evict t =>
    match w.phase t with
    | .expired =>
      some { w.setPhase t (startWalk rt (requests t) rootServers []).proceed with
        delegations := w.delegations.erase (parentZone (queriedName rt (requests t))) }
    | _ => none
  | .query t udp tcp =>
    match w.phase t with
    | .asking walk (server :: left) =>
      let asked := w.ask server walk
      match queryOne w.nextId udp tcp with
      | ok response => some { asked.setPhase t (walk.receive response) with received := response :: w.received }
      | err _ => some (asked.setPhase t (if left.isEmpty then walk.fail else .asking walk left))
      | .panic => some (asked.setPhase t .cancelled)
    | _ => none
  | .collect t now =>
    match w.phase t with
    | .collecting walk response (ns :: names) addrs =>
      let addrs := addrs ++ w.liveAddrs now ns
      some (w.setPhase t
        (if !names.isEmpty then .collecting walk response names addrs
        else if addrs.isEmpty then walk.nodata response
        else .storing walk response addrs))
    | _ => none
  | .store t now =>
    match w.phase t with
    | .storing walk response addrs =>
      let delegation := ⟨nsNames response, addrs, now + fromSecs (nsTtl response).toNat⟩
      some { w.setPhase t (walk.follow addrs) with
        delegations := w.delegations.insert walk.zone delegation
        stored := ⟨walk.zone, delegation, response, walk.serving⟩ :: w.stored }
    | _ => none
  | .cancel t =>
    match w.phase t with
    | .start => some { w.setPhase t .cancelled with permits := w.permits }
    | phase => if phase.ended then none else some (w.setPhase t .cancelled)

structure AcceptedResponse where
  task : TaskId
  walk : Walk
  response : DnsPacket
  deriving DecidableEq, Repr

/-- The response that a query step accepts, with the walk of its call. -/
def accepted (w : RecursiveResolver) : ResolverAction → Option AcceptedResponse
  | .query t udp tcp =>
    match w.phase t with
    | .asking walk (_ :: _) =>
      match queryOne w.nextId udp tcp with
      | ok response => some ⟨t, walk, response⟩
      | _ => none
    | _ => none
  | _ => none

/-! ## What a step can do -/

inductive Moves (rt : Runtime) (requests : TaskId → ResolveRequest) (w : RecursiveResolver) :
    ResolverAction → RecursiveResolver → Prop
  | quiet {a : ResolverAction} {t : TaskId} {phase : ResolvePhase} {permits : ℕ} :
      phase = .permitted ∨ phase = .expired ∨ phase = .cancelled →
      Moves rt requests w a { w.setPhase t phase with permits := permits }
  | cached {t : TaskId} {now : Instant} {entry : Delegation} :
      w.delegations.lookup (parentZone (queriedName rt (requests t))) = some entry →
      Moves rt requests w (.begin t now) (w.setPhase t (startWalk rt (requests t) (entry.nsAddrs.map ServerAddr.addr)
        (parentZone (queriedName rt (requests t)))).proceed)
  | fresh {t : TaskId} {now : Instant} :
      Moves rt requests w (.begin t now) (w.setPhase t (startWalk rt (requests t) rootServers []).proceed)
  | evict {t : TaskId} :
      Moves rt requests w (.evict t) { w.setPhase t (startWalk rt (requests t) rootServers []).proceed with
        delegations := w.delegations.erase (parentZone (queriedName rt (requests t))) }
  | received {t : TaskId} {udp tcp : Option Bytes} {walk : Walk} {server : SocketAddr} {left : List SocketAddr}
      {response : DnsPacket} : w.phase t = .asking walk (server :: left) → queryOne w.nextId udp tcp = ok response →
      Moves rt requests w (.query t udp tcp)
        { (w.ask server walk).setPhase t (walk.receive response) with received := response :: w.received }
  | unanswered {t : TaskId} {udp tcp : Option Bytes} {walk : Walk} {server : SocketAddr} {left : List SocketAddr}
      {phase : ResolvePhase} : w.phase t = .asking walk (server :: left) →
      phase = walk.fail ∨ phase = .asking walk left ∨ phase = .cancelled →
      Moves rt requests w (.query t udp tcp) ((w.ask server walk).setPhase t phase)
  | collect {t : TaskId} {now : Instant} {walk : Walk} {response : DnsPacket} {ns : Text} {names : List Text}
      {addrs : List ServerAddr} {phase : ResolvePhase} : w.phase t = .collecting walk response (ns :: names) addrs →
      phase = .collecting walk response names (addrs ++ w.liveAddrs now ns) ∨ phase = walk.nodata response ∨
        phase = .storing walk response (addrs ++ w.liveAddrs now ns) →
      Moves rt requests w (.collect t now) (w.setPhase t phase)
  | store {t : TaskId} {now : Instant} {walk : Walk} {response : DnsPacket} {addrs : List ServerAddr} :
      w.phase t = .storing walk response addrs →
      Moves rt requests w (.store t now) { w.setPhase t (walk.follow addrs) with
        delegations := w.delegations.insert walk.zone
          ⟨nsNames response, addrs, now + fromSecs (nsTtl response).toNat⟩
        stored := ⟨walk.zone, ⟨nsNames response, addrs, now + fromSecs (nsTtl response).toNat⟩, response,
          walk.serving⟩ :: w.stored }

variable {rt : Runtime} {requests : TaskId → ResolveRequest} {w w' : RecursiveResolver} {t : TaskId}

theorem moves_of_query {udp tcp : Option Bytes} (h : w.step rt requests (.query t udp tcp) = some w') :
    Moves rt requests w (.query t udp tcp) w' := by
  simp only [step] at h
  split at h
  · rename_i walk server left hphase
    split at h
    · rename_i response hresponse
      obtain rfl := Option.some.inj h
      exact .received hphase hresponse
    · obtain rfl := Option.some.inj h
      refine .unanswered hphase ?_
      split
      · exact .inl rfl
      · exact .inr (.inl rfl)
    · obtain rfl := Option.some.inj h
      exact .unanswered hphase (.inr (.inr rfl))
  · cases h

theorem moves_of_collect {now : Instant} (h : w.step rt requests (.collect t now) = some w') :
    Moves rt requests w (.collect t now) w' := by
  simp only [step] at h
  split at h
  · rename_i walk response ns names addrs hphase
    obtain rfl := Option.some.inj h
    refine .collect hphase ?_
    split
    · exact .inl rfl
    · split
      · exact .inr (.inl rfl)
      · exact .inr (.inr rfl)
  · cases h

theorem moves_of_step {a : ResolverAction} (h : w.step rt requests a = some w') : Moves rt requests w a w' := by
  cases a with
  | acquire t =>
    simp only [step] at h
    split at h
    · split at h
      · obtain rfl := Option.some.inj h
        exact .quiet (.inl rfl)
      · cases h
    · cases h
  | begin t now =>
    simp only [step] at h
    split at h
    · split at h
      · rename_i entry hentry
        split at h
        · obtain rfl := Option.some.inj h
          exact .quiet (.inr (.inl rfl))
        · obtain rfl := Option.some.inj h
          exact .cached hentry
      · obtain rfl := Option.some.inj h
        exact .fresh
    · cases h
  | evict t =>
    simp only [step] at h
    split at h
    · obtain rfl := Option.some.inj h
      exact .evict
    · cases h
  | query t udp tcp => exact moves_of_query h
  | collect t now => exact moves_of_collect h
  | store t now =>
    simp only [step] at h
    split at h
    · rename_i walk response addrs hphase
      obtain rfl := Option.some.inj h
      exact .store hphase
    · cases h
  | cancel t =>
    simp only [step] at h
    split at h
    · obtain rfl := Option.some.inj h
      exact .quiet (.inr (.inr rfl))
    · split at h
      · cases h
      · obtain rfl := Option.some.inj h
        exact .quiet (.inr (.inr rfl))

end RecursiveResolver
end MiniDns
