import MiniDns.Dns.Record
import Mathlib.Logic.Function.Basic

/-! The encoder of messages, with RFC 1035 name compression.
The encoder carries the bytes written so far and the offset of every name suffix that a later name
may point to. -/
namespace MiniDns.Dns
open Lib DnsRecord
set_option autoImplicit false

/-- `HashMap<String, u16>`, read by `get` and written by `insert`. -/
abbrev NameOffsets := Text → Option UInt16

structure DnsPacketEncoder where
  buf : Bytes
  nameOffsets : NameOffsets

namespace DnsPacketEncoder

def write (e : DnsPacketEncoder) (bytes : Bytes) : DnsPacketEncoder := { e with buf := e.buf ++ bytes }

/-! ## Names and texts -/

def labelBytes (label : Text) : Bytes :=
  let len := min (utf8 label).length 63
  UInt8.ofNat len :: (utf8 label).take len

/-- Writes the labels of a name, or a pointer as soon as the rest of the name was written before. -/
def encodeLabels (e : DnsPacketEncoder) : List Text → DnsPacketEncoder
  | [] => e.write [0]
  | label :: labels =>
    let suffix := joinDots (label :: labels)
    match e.nameOffsets suffix with
    | some offset => e.write (bytes16 (0xC000 ||| offset))
    | none =>
      -- only positions addressable by a 14-bit pointer can be referenced
      let nameOffsets :=
        if e.buf.length ≤ 0x3FFF then
          Function.update e.nameOffsets suffix (some (UInt16.ofNat e.buf.length))
        else e.nameOffsets
      encodeLabels ⟨e.buf ++ labelBytes label, nameOffsets⟩ labels

def encodeQname (e : DnsPacketEncoder) (qname : Text) : DnsPacketEncoder :=
  if qname = [] then e.write [0] else e.encodeLabels (splitDots qname)

def encodeNameUncompressed (e : DnsPacketEncoder) (name : Text) : DnsPacketEncoder :=
  if name = [] then e.write [0]
  else e.write ((splitDots name).flatMap labelBytes ++ [0])

def characterStrings (text : Text) : Bytes :=
  if utf8 text = [] then [0]
  else (chunks 255 (utf8 text)).flatMap fun chunk => UInt8.ofNat chunk.length :: chunk

def encodeCharacterStrings (e : DnsPacketEncoder) (text : Text) : DnsPacketEncoder :=
  e.write (characterStrings text)

/-! ## Records -/

/-- `dst[at..at + bytes.len()].copy_from_slice(bytes)`, inside the buffer. -/
def overwrite (dst : Bytes) (pos : ℕ) (bytes : Bytes) : Bytes :=
  dst.take pos ++ bytes ++ dst.drop (pos + bytes.length)

def encodeRdata (e : DnsPacketEncoder) (writeBody : DnsPacketEncoder → DnsPacketEncoder) :
    DnsPacketEncoder :=
  let lenPos := e.buf.length
  let opened := e.write (bytes16 0)
  let rdataStart := opened.buf.length
  let body := writeBody opened
  let rdlength := UInt16.ofNat (body.buf.length - rdataStart)
  { body with buf := overwrite body.buf lenPos (bytes16 rdlength) }

def encodeRecordHeader (e : DnsPacketEncoder) (domain : Text) (rtype : UInt16) (ttl : UInt32) :
    DnsPacketEncoder :=
  (((e.encodeQname domain).write (bytes16 rtype)).write (bytes16 1)).write (bytes32 ttl)

def encodeRecord (e : DnsPacketEncoder) : DnsRecord → DnsPacketEncoder
  | .a domain addr ttl =>
    ((e.encodeRecordHeader domain typeA ttl).write (bytes16 4)).write addr.octets
  | .aaaa domain addr ttl =>
    ((e.encodeRecordHeader domain typeAaaa ttl).write (bytes16 16)).write addr.octets
  | .cname domain aliasName ttl =>
    (e.encodeRecordHeader domain typeCname ttl).encodeRdata fun enc => enc.encodeQname aliasName
  | .mx domain preference exchange ttl =>
    (e.encodeRecordHeader domain typeMx ttl).encodeRdata fun enc =>
      (enc.write (bytes16 preference)).encodeQname exchange
  | .txt domain text ttl =>
    (e.encodeRecordHeader domain typeTxt ttl).encodeRdata fun enc => enc.encodeCharacterStrings text
  | .ns domain nameserver ttl =>
    (e.encodeRecordHeader domain typeNs ttl).encodeRdata fun enc => enc.encodeQname nameserver
  | .soa domain mname rname serial refresh retry expire minimum ttl =>
    (e.encodeRecordHeader domain typeSoa ttl).encodeRdata fun enc =>
      ((((((enc.encodeQname mname).encodeQname rname).write (bytes32 serial)).write
        (bytes32 refresh)).write (bytes32 retry)).write (bytes32 expire)).write (bytes32 minimum)
  | .srv domain priority weight port target ttl =>
    (e.encodeRecordHeader domain typeSrv ttl).encodeRdata fun enc =>
      (((enc.write (bytes16 priority)).write (bytes16 weight)).write (bytes16 port)).encodeNameUncompressed
        target
  | .ptr domain ptrdname ttl =>
    (e.encodeRecordHeader domain typePtr ttl).encodeRdata fun enc => enc.encodeQname ptrdname
  | .caa domain flags tag value ttl =>
    (e.encodeRecordHeader domain typeCaa ttl).encodeRdata fun enc =>
      let tagLen := min (utf8 tag).length 255
      (((enc.write [flags]).write [UInt8.ofNat tagLen]).write ((utf8 tag).take tagLen)).write (utf8 value)
  | .opt udpSize =>
    ((((e.write [0]).write (bytes16 typeOpt)).write (bytes16 udpSize)).write (bytes32 0)).write (bytes16 0)
  | .dnskey domain flags protocol algorithm publicKey ttl =>
    (e.encodeRecordHeader domain typeDnskey ttl).encodeRdata fun enc =>
      (((enc.write (bytes16 flags)).write [protocol]).write [algorithm]).write publicKey
  | .rrsig domain typeCovered algorithm labels originalTtl signatureExpiration signatureInception
      keyTag signerName signature ttl =>
    (e.encodeRecordHeader domain typeRrsig ttl).encodeRdata fun enc =>
      ((((((((enc.write (bytes16 typeCovered)).write [algorithm]).write [labels]).write
        (bytes32 originalTtl)).write (bytes32 signatureExpiration)).write
        (bytes32 signatureInception)).write (bytes16 keyTag)).encodeNameUncompressed
        signerName).write signature
  | .ds domain keyTag algorithm digestType digest ttl =>
    (e.encodeRecordHeader domain typeDs ttl).encodeRdata fun enc =>
      (((enc.write (bytes16 keyTag)).write [algorithm]).write [digestType]).write digest
  | .nsec domain nextName typeBitmap ttl =>
    (e.encodeRecordHeader domain typeNsec ttl).encodeRdata fun enc =>
      (enc.encodeNameUncompressed nextName).write typeBitmap

/-! ## Messages -/

def encodeQuestion (e : DnsPacketEncoder) (question : DnsQuestion) : DnsPacketEncoder :=
  ((e.encodeQname question.qname).write (bytes16 question.qtype)).write (bytes16 question.qclass)

def headerBytes (packet : DnsPacket) : Bytes :=
  bytes16 packet.header.id ++ bytes16 packet.header.flags ++
    bytes16 (UInt16.ofNat packet.questions.length) ++ bytes16 (UInt16.ofNat packet.answers.length) ++
    bytes16 (UInt16.ofNat packet.authorities.length) ++ bytes16 (UInt16.ofNat packet.additionals.length)

def encode (e : DnsPacketEncoder) (packet : DnsPacket) : DnsPacketEncoder :=
  let e := e.write (headerBytes packet)
  let e := packet.questions.foldl encodeQuestion e
  let e := packet.answers.foldl encodeRecord e
  let e := packet.authorities.foldl encodeRecord e
  packet.additionals.foldl encodeRecord e

end DnsPacketEncoder

namespace DnsPacket

def toBytes (packet : DnsPacket) : Bytes :=
  (DnsPacketEncoder.encode ⟨[], fun _ => none⟩ packet).buf

def maxUdpSize : ℕ := 512
def maxEdnsUdp : ℕ := 1232

def udpLimit (packet : DnsPacket) : ℕ :=
  match packet.ednsUdpSize with
  | some size => max maxUdpSize (min size.toNat maxEdnsUdp)
  | none => maxUdpSize

def truncated (packet : DnsPacket) : DnsPacket where
  header :=
    { packet.header with
      flags := packet.header.flags ||| 0x0200
      answers := 0
      authorities := 0
      additionals := UInt16.ofNat packet.additionals.length }
  questions := packet.questions
  answers := []
  authorities := []
  additionals := packet.additionals

def toUdpBytes (packet : DnsPacket) : Bytes :=
  if packet.toBytes.length ≤ packet.udpLimit then packet.toBytes else packet.truncated.toBytes

end DnsPacket
end MiniDns.Dns
