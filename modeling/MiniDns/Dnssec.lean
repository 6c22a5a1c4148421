import MiniDns.Lib.Names
import MiniDns.Runtime

/-! Signing of record sets: key tags, the canonical form of what is signed, and the RRSIG record. -/
namespace MiniDns
open Lib Lib.Outcome Dns DnsRecord
set_option autoImplicit false

structure SigningKey where
  zoneName : Text
  flags : UInt16
  algorithm : UInt8
  publicKey : Bytes
  privateKey : Bytes
  deriving DecidableEq, Repr

def keyTagFromRdata (rdata : Bytes) : UInt16 :=
  let ac := rdata.zipIdx.foldl
    (fun (ac : UInt32) (entry : UInt8 × ℕ) =>
      ac + (if entry.2 % 2 = 0 then entry.1.toUInt32 <<< 8 else entry.1.toUInt32)) 0
  let ac := ac + ((ac >>> 16) &&& 0xFFFF)
  (ac &&& 0xFFFF).toUInt16

namespace SigningKey

def dnskeyRecord (key : SigningKey) (ttl : UInt32) : DnsRecord :=
  .dnskey key.zoneName key.flags 3 key.algorithm key.publicKey ttl

def keyTag (key : SigningKey) : UInt16 :=
  keyTagFromRdata (bytes16 key.flags ++ [3, key.algorithm] ++ key.publicKey)

end SigningKey

/-! ## Canonical form -/

def canonicalName (rt : Runtime) (name : Text) : Bytes :=
  let name := trimEndDots name
  if name = [] then [0]
  else
    ((splitDots name).flatMap fun label =>
      let lower := utf8 (rt.toLowercase label)
      UInt8.ofNat lower.length :: lower) ++ [0]

/-- The rdata of a record as it is signed; the types of the last line are signed as if empty. -/
def canonicalRdata (rt : Runtime) : DnsRecord → Bytes
  | .a _ addr _ => addr.octets
  | .aaaa _ addr _ => addr.octets
  | .cname _ name _ | .ns _ name _ | .ptr _ name _ => canonicalName rt name
  | .mx _ preference exchange _ => bytes16 preference ++ canonicalName rt exchange
  | .soa _ mname rname serial refresh retry expire minimum _ =>
    canonicalName rt mname ++ canonicalName rt rname ++ bytes32 serial ++ bytes32 refresh ++ bytes32 retry ++
      bytes32 expire ++ bytes32 minimum
  | .srv _ priority weight port target _ =>
    bytes16 priority ++ bytes16 weight ++ bytes16 port ++ canonicalName rt target
  | .caa _ flags tag value _ => [flags, UInt8.ofNat (utf8 tag).length] ++ utf8 tag ++ utf8 value
  | .txt _ text _ => (chunks 255 (utf8 text)).flatMap fun chunk => UInt8.ofNat chunk.length :: chunk
  | .dnskey _ flags protocol algorithm publicKey _ => bytes16 flags ++ [protocol, algorithm] ++ publicKey
  | .rrsig .. | .ds .. | .nsec .. | .opt .. => []

/-! ## Signing -/

structure DnssecKeys where
  keys : List SigningKey
  deriving DecidableEq, Repr

namespace DnssecKeys

def dnskeyRecords (keys : DnssecKeys) (ttl : UInt32) : List DnsRecord :=
  keys.keys.map fun key => key.dnskeyRecord ttl

/-- The labels that an RRSIG counts: not the empty ones, not `*`. -/
def rrsigLabels (owner : Text) : UInt8 :=
  UInt8.ofNat ((splitDots owner).filter fun l => !l.isEmpty && l != ['*']).length

def signedData (rt : Runtime) (key : SigningKey) (first : DnsRecord) (records : List DnsRecord)
    (signerName : Text) (ttl inception expiration : UInt32) : Bytes :=
  bytes16 first.recordType ++ [key.algorithm, rrsigLabels first.domain] ++ bytes32 ttl ++
    bytes32 expiration ++ bytes32 inception ++ bytes16 key.keyTag ++ canonicalName rt signerName ++
    records.flatMap fun r =>
      canonicalName rt r.domain ++ bytes16 r.recordType ++ bytes16 1 ++ bytes32 ttl ++
        bytes16 (UInt16.ofNat (canonicalRdata rt r).length) ++ canonicalRdata rt r

def signRrset (rt : Runtime) (keys : DnssecKeys) (records : List DnsRecord) (signerName : Text)
    (ttl inception expiration : UInt32) : Outcome Unit DnsRecord :=
  match keys.keys with
  | [] => err ()
  | key :: _ =>
    match rt.sign key.privateKey with
    | none => err ()
    | some sign =>
      match records with
      | [] => panic
      | first :: _ =>
        let signature := sign (signedData rt key first records signerName ttl inception expiration)
        ok (.rrsig first.domain first.recordType key.algorithm (rrsigLabels first.domain) ttl expiration
          inception key.keyTag signerName signature ttl)

end DnssecKeys
end MiniDns
