import MiniDns.Dns.Packet
import MiniDns.Dns.Resolver

/-! How a response leaves the server: the encoding of its own packets for a transport, and the replay
of cached or forwarded messages for the client at hand. -/
namespace MiniDns
open Lib Lib.Outcome Dns DnsRecord DnsPacket
set_option autoImplicit false

inductive Transport where
  | udp
  | tcp
  deriving DecidableEq, Repr

def encode (packet : DnsPacket) : Transport → Bytes
  | .udp => packet.toUdpBytes
  | .tcp => packet.toBytes

def patchTransactionId (bytes : Bytes) (id : UInt16) : Bytes :=
  if 2 ≤ bytes.length then bytes16 id ++ bytes.drop 2 else bytes

/-- `*opt = ...` at the first OPT record, if there is one. -/
def replaceOpt (udpSize : UInt16) : List DnsRecord → Option (List DnsRecord)
  | [] => none
  | r :: rs => if r.isOpt then some (.opt udpSize :: rs) else (replaceOpt udpSize rs).map (r :: ·)

/-- Replaces, adds or strips the OPT record so that it is this client's. -/
def alignEdns (packet request : DnsPacket) : DnsPacket :=
  { packet with
    additionals :=
      match request.ednsUdpSize with
      | some clientSize =>
        match replaceOpt (negotiated clientSize) packet.additionals with
        | some additionals => additionals
        | none => packet.additionals ++ [.opt (negotiated clientSize)]
      | none => packet.additionals.filter fun r => !r.isOpt }

def readdressed (packet request : DnsPacket) : DnsPacket :=
  alignEdns { packet with header := { packet.header with id := request.header.id } } request

def replay (raw : Bytes) (request : DnsPacket) : Transport → Outcome Empty Bytes
  | .tcp => ok (patchTransactionId raw request.header.id)
  | .udp => (fromBytes raw).handle (fun packet => ok (readdressed packet request).toUdpBytes)
      fun _ => ok (patchTransactionId raw request.header.id)

end MiniDns
