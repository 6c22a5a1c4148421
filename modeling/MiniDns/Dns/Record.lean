import MiniDns.Lib.Labels

/-! The message types: records, questions, header and packet, and the decoder's errors. -/
namespace MiniDns.Dns
open Lib
set_option autoImplicit false

inductive DnsError where
  /-- A length or bounds check failed while reading the named field. -/
  | truncated (what : String)
  /-- A record's rdata length was invalid for its type. -/
  | invalidRdata (rtype : UInt16)
  /-- Too many compression pointers were followed. -/
  | pointerLoop
  deriving DecidableEq, Repr

/-! ## Addresses -/

structure Ipv4Addr where
  a : UInt8
  b : UInt8
  c : UInt8
  d : UInt8
  deriving DecidableEq, Repr

def Ipv4Addr.octets (addr : Ipv4Addr) : Bytes := [addr.a, addr.b, addr.c, addr.d]

structure Ipv6Addr where
  octets : Bytes
  size : octets.length = 16
  deriving DecidableEq, Repr

/-- `octets.copy_from_slice(bytes)` into sixteen octets, which panics on any other length. -/
def Ipv6Addr.copyFrom {ε : Type} (bytes : Bytes) : Outcome ε Ipv6Addr :=
  if h : bytes.length = 16 then .ok ⟨bytes, h⟩ else .panic

theorem Ipv6Addr.copyFrom_octets {ε : Type} (addr : Ipv6Addr) :
    (copyFrom addr.octets : Outcome ε Ipv6Addr) = .ok addr := dif_pos addr.size

/-! ## Records -/

inductive DnsRecord where
  | a (domain : Text) (addr : Ipv4Addr) (ttl : UInt32)
  | aaaa (domain : Text) (addr : Ipv6Addr) (ttl : UInt32)
  | cname (domain aliasName : Text) (ttl : UInt32)
  | mx (domain : Text) (preference : UInt16) (exchange : Text) (ttl : UInt32)
  | txt (domain text : Text) (ttl : UInt32)
  | ns (domain nameserver : Text) (ttl : UInt32)
  | soa (domain mname rname : Text) (serial refresh retry expire minimum ttl : UInt32)
  | srv (domain : Text) (priority weight port : UInt16) (target : Text) (ttl : UInt32)
  | ptr (domain ptrdname : Text) (ttl : UInt32)
  | caa (domain : Text) (flags : UInt8) (tag value : Text) (ttl : UInt32)
  | opt (udpSize : UInt16)
  | dnskey (domain : Text) (flags : UInt16) (protocol algorithm : UInt8) (publicKey : Bytes)
      (ttl : UInt32)
  | rrsig (domain : Text) (typeCovered : UInt16) (algorithm labels : UInt8)
      (originalTtl signatureExpiration signatureInception : UInt32) (keyTag : UInt16)
      (signerName : Text) (signature : Bytes) (ttl : UInt32)
  | ds (domain : Text) (keyTag : UInt16) (algorithm digestType : UInt8) (digest : Bytes)
      (ttl : UInt32)
  | nsec (domain nextName : Text) (typeBitmap : Bytes) (ttl : UInt32)
  deriving DecidableEq, Repr

namespace DnsRecord

def typeA : UInt16 := 1
def typeNs : UInt16 := 2
def typeCname : UInt16 := 5
def typeSoa : UInt16 := 6
def typePtr : UInt16 := 12
def typeMx : UInt16 := 15
def typeTxt : UInt16 := 16
def typeAaaa : UInt16 := 28
def typeSrv : UInt16 := 33
def typeOpt : UInt16 := 41
def typeDs : UInt16 := 43
def typeRrsig : UInt16 := 46
def typeNsec : UInt16 := 47
def typeDnskey : UInt16 := 48
def typeAxfr : UInt16 := 252
def typeCaa : UInt16 := 257

def recordType : DnsRecord → UInt16
  | a .. => typeA
  | aaaa .. => typeAaaa
  | cname .. => typeCname
  | mx .. => typeMx
  | txt .. => typeTxt
  | ns .. => typeNs
  | soa .. => typeSoa
  | srv .. => typeSrv
  | ptr .. => typePtr
  | caa .. => typeCaa
  | opt .. => typeOpt
  | dnskey .. => typeDnskey
  | rrsig .. => typeRrsig
  | ds .. => typeDs
  | nsec .. => typeNsec

def ttl : DnsRecord → UInt32
  | a _ _ ttl | aaaa _ _ ttl | cname _ _ ttl | mx _ _ _ ttl | txt _ _ ttl | ns _ _ ttl
  | soa _ _ _ _ _ _ _ _ ttl | srv _ _ _ _ _ ttl | ptr _ _ ttl | caa _ _ _ _ ttl
  | dnskey _ _ _ _ _ ttl | rrsig _ _ _ _ _ _ _ _ _ _ ttl | ds _ _ _ _ _ ttl | nsec _ _ _ ttl => ttl
  | opt _ => 0

def domain : DnsRecord → Text
  | a domain _ _ | aaaa domain _ _ | cname domain _ _ | mx domain _ _ _ | txt domain _ _
  | ns domain _ _ | soa domain _ _ _ _ _ _ _ _ | srv domain _ _ _ _ _ | ptr domain _ _
  | caa domain _ _ _ _ | dnskey domain _ _ _ _ _ | rrsig domain _ _ _ _ _ _ _ _ _ _
  | ds domain _ _ _ _ _ | nsec domain _ _ _ => domain
  | opt _ => []

def withDomain (record : DnsRecord) (domain : Text) : DnsRecord :=
  match record with
  | a _ addr ttl => a domain addr ttl
  | aaaa _ addr ttl => aaaa domain addr ttl
  | cname _ aliasName ttl => cname domain aliasName ttl
  | mx _ preference exchange ttl => mx domain preference exchange ttl
  | txt _ text ttl => txt domain text ttl
  | ns _ nameserver ttl => ns domain nameserver ttl
  | soa _ mname rname serial refresh retry expire minimum ttl =>
    soa domain mname rname serial refresh retry expire minimum ttl
  | srv _ priority weight port target ttl => srv domain priority weight port target ttl
  | ptr _ ptrdname ttl => ptr domain ptrdname ttl
  | caa _ flags tag value ttl => caa domain flags tag value ttl
  | opt udpSize => opt udpSize
  | dnskey _ flags protocol algorithm publicKey ttl =>
    dnskey domain flags protocol algorithm publicKey ttl
  | rrsig _ typeCovered algorithm labels originalTtl signatureExpiration signatureInception keyTag
      signerName signature ttl =>
    rrsig domain typeCovered algorithm labels originalTtl signatureExpiration signatureInception
      keyTag signerName signature ttl
  | ds _ keyTag algorithm digestType digest ttl => ds domain keyTag algorithm digestType digest ttl
  | nsec _ nextName typeBitmap ttl => nsec domain nextName typeBitmap ttl

def isOpt : DnsRecord → Bool
  | opt _ => true
  | _ => false

end DnsRecord

/-! ## Messages -/

structure DnsHeader where
  id : UInt16
  flags : UInt16
  questions : UInt16
  answers : UInt16
  authorities : UInt16
  additionals : UInt16
  deriving DecidableEq, Repr

structure DnsQuestion where
  qname : Text
  qtype : UInt16
  qclass : UInt16
  deriving DecidableEq, Repr

structure DnsPacket where
  header : DnsHeader
  questions : List DnsQuestion
  answers : List DnsRecord
  authorities : List DnsRecord
  additionals : List DnsRecord
  deriving DecidableEq, Repr

namespace DnsPacket

def ednsUdpSize (p : DnsPacket) : Option UInt16 :=
  p.additionals.findSome? fun
    | .opt udpSize => some udpSize
    | _ => none

end DnsPacket
end MiniDns.Dns
