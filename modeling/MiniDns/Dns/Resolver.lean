import MiniDns.Config
import MiniDns.Dns.Encoder

/-! The authoritative lookup: wildcard matching, CNAME chasing, negative answers and the EDNS echo. -/
namespace MiniDns.Dns
open Lib DnsRecord
set_option autoImplicit false

/-- What the loop `while let Some(pos) = remainder.find('.')` finds: the first `*.<suffix>` that
`get` knows, for the suffixes behind the dots of the name from left to right. -/
def wildcardMatch {α : Type} (get : Text → Option α) : Text → Option α
  | [] => none
  | c :: remainder =>
    if c = '.' then
      match get ('*' :: '.' :: remainder) with
      | some r => some r
      | none => wildcardMatch get remainder
    else wildcardMatch get remainder

def lookup (records : Zone) (name : Text) : Option (List DnsRecord) :=
  match records.lookup name with
  | some r => some r
  | none => wildcardMatch (fun key => records.lookup key) name

def isSoa : DnsRecord → Bool
  | .soa .. => true
  | _ => false

def zoneSoa (rt : Runtime) (records : Zone) : Option DnsRecord := (rt.values records).flatten.find? isSoa

def maxCnameChain : ℕ := 16

/-- The variables of the loop in `build_response`. -/
structure Chase where
  name : Text
  seen : List Text
  answers : List DnsRecord
  authoritative : Bool
  rcode : UInt16
  matchingZone : Option AuthZone

/-- The loop of `build_response`, over the rounds that are left. -/
def chase (rt : Runtime) (zones : ZoneSet) (qtype : UInt16) : ℕ → Chase → Chase
  | 0, s => s
  | rounds + 1, s =>
    if s.name ∈ s.seen then s
    else
      let s := { s with seen := s.name :: s.seen }
      match zones.find s.name with
      | none => if s.answers.isEmpty then { s with rcode := 3 } else s
      | some zone =>
        let s := { s with matchingZone := s.matchingZone.or (some zone) }
        match lookup zone.records s.name with
        | none => if s.answers.isEmpty then { s with rcode := 3 } else s
        | some records =>
          let s := { s with authoritative := true }
          let direct := records.filter fun r => r.recordType == qtype
          if direct.isEmpty then
            match records.find? fun r => r.recordType == typeCname with
            | some record =>
              let s := { s with answers := s.answers ++ [record.withDomain s.name] }
              match record with
              | .cname _ aliasName _ => chase rt zones qtype rounds { s with name := rt.toLowercase aliasName }
              | _ => s
            | none => s
          else { s with answers := s.answers ++ direct.map fun r => r.withDomain s.name }

/-- What the loop starts from, and what it leaves; without a question it does not run. -/
def chaseQuestion (rt : Runtime) (zones : ZoneSet) (question : Option DnsQuestion) : Chase :=
  match question with
  | none => ⟨[], [], [], false, 0, none⟩
  | some question =>
    let name := rt.toLowercase question.qname
    chase rt zones question.qtype maxCnameChain ⟨name, [], [], false, 0, zones.find name⟩

/-- `client_size.clamp(MAX_UDP_SIZE as u16, MAX_EDNS_UDP as u16)` -/
def negotiated (clientSize : UInt16) : UInt16 := max 512 (min clientSize 1232)

def ednsEcho (request : DnsPacket) : List DnsRecord :=
  match request.ednsUdpSize with
  | some clientSize => [.opt (negotiated clientSize)]
  | none => []

def buildResponse (rt : Runtime) (request : DnsPacket) (zones : ZoneSet) : DnsPacket :=
  let s := chaseQuestion rt zones request.questions.head?
  let soa := if s.answers.isEmpty then s.matchingZone.bind fun zone => zoneSoa rt zone.records else none
  let flags := 0x8000 ||| (request.header.flags &&& 0x0100) ||| s.rcode
  { header :=
      { id := request.header.id
        flags := if s.authoritative || soa.isSome then flags ||| 0x0400 else flags
        questions := UInt16.ofNat request.questions.length
        answers := UInt16.ofNat s.answers.length
        authorities := UInt16.ofNat soa.toList.length
        additionals := UInt16.ofNat (ednsEcho request).length }
    questions := request.questions
    answers := s.answers
    authorities := soa.toList
    additionals := ednsEcho request }

/-- Response code and AA in the flags of a response. -/
theorem rcode_and_aa (flags : UInt16) {rcode : UInt16} (h : rcode = 0 ∨ rcode = 3) (aa : Bool) :
    let all := if aa then 0x8000 ||| (flags &&& 0x0100) ||| rcode ||| 0x0400 else 0x8000 ||| (flags &&& 0x0100) ||| rcode
    all &&& 0x000F = rcode ∧ all &&& 0x0400 = if aa then 0x0400 else 0 := by
  obtain rfl | rfl := h <;> cases aa <;> simp only [← UInt16.toNat_inj] <;>
    simp [UInt16.toNat_and, UInt16.toNat_or, Nat.and_or_distrib_right, Nat.and_assoc]

end MiniDns.Dns
