import MiniDns.Dns.Encoder

/-! Where the encoder puts things. A `Layout` keeps the length written so far and, for each name
suffix that can be pointed to, its offset and the number of jumps a reader makes from there. It
computes no bytes of its own, so positions, lengths and jumps of a message are functions of the
packet; `toBytes_eq` says that the encoder writes what the layout describes. -/
namespace MiniDns.Dns
open Lib DnsRecord
set_option autoImplicit false

def nameLabels (n : Text) : List Text := if n = [] then [] else splitDots n

theorem joinDots_nameLabels (n : Text) : joinDots (nameLabels n) = n := by
  unfold nameLabels
  split
  · rename_i h
    simp [h]
  · exact joinDots_splitDots n

theorem dot_not_mem_of_mem_nameLabels {n l : Text} (h : l ∈ nameLabels n) : '.' ∉ l := by
  unfold nameLabels at h
  split at h
  · simp at h
  · exact dot_not_mem_of_mem_splitDots h

/-- A piece of rdata: bytes, a name that may be compressed, or one that is not. -/
inductive Field where
  | raw (bytes : Bytes)
  | name (n : Text)
  | plain (n : Text)

def recordFields : DnsRecord → List Field
  | .a _ addr _ => [.raw addr.octets]
  | .aaaa _ addr _ => [.raw addr.octets]
  | .cname _ aliasName _ => [.name aliasName]
  | .mx _ preference exchange _ => [.raw (bytes16 preference), .name exchange]
  | .txt _ text _ => [.raw (DnsPacketEncoder.characterStrings text)]
  | .ns _ nameserver _ => [.name nameserver]
  | .soa _ mname rname serial refresh retry expire minimum _ =>
    [.name mname, .name rname, .raw (bytes32 serial), .raw (bytes32 refresh), .raw (bytes32 retry),
      .raw (bytes32 expire), .raw (bytes32 minimum)]
  | .srv _ priority weight port target _ =>
    [.raw (bytes16 priority), .raw (bytes16 weight), .raw (bytes16 port), .plain target]
  | .ptr _ ptrdname _ => [.name ptrdname]
  | .caa _ flags tag value _ =>
    [.raw [flags], .raw [UInt8.ofNat (min (utf8 tag).length 255)],
      .raw ((utf8 tag).take (min (utf8 tag).length 255)), .raw (utf8 value)]
  | .opt _ => []
  | .dnskey _ flags protocol algorithm publicKey _ =>
    [.raw (bytes16 flags), .raw [protocol], .raw [algorithm], .raw publicKey]
  | .rrsig _ typeCovered algorithm labels originalTtl signatureExpiration signatureInception keyTag
      signerName signature _ =>
    [.raw (bytes16 typeCovered), .raw [algorithm], .raw [labels], .raw (bytes32 originalTtl),
      .raw (bytes32 signatureExpiration), .raw (bytes32 signatureInception), .raw (bytes16 keyTag),
      .plain signerName, .raw signature]
  | .ds _ keyTag algorithm digestType digest _ =>
    [.raw (bytes16 keyTag), .raw [algorithm], .raw [digestType], .raw digest]
  | .nsec _ nextName typeBitmap _ => [.plain nextName, .raw typeBitmap]

def recordClass : DnsRecord → UInt16
  | .opt udpSize => udpSize
  | _ => 1

structure Layout where
  pos : ℕ
  names : Text → Option (ℕ × ℕ)

namespace Layout
open DnsPacketEncoder (labelBytes)

def advance (L : Layout) (n : ℕ) : Layout := { L with pos := L.pos + n }

@[simp] theorem advance_pos (L : Layout) (n : ℕ) : (L.advance n).pos = L.pos + n := rfl
@[simp] theorem advance_names (L : Layout) (n : ℕ) : (L.advance n).names = L.names := rfl
@[simp] theorem advance_advance (L : Layout) (m n : ℕ) : (L.advance m).advance n = L.advance (m + n) := by
  simp [advance, Nat.add_assoc]

def offsets (L : Layout) : NameOffsets := fun suffix => (L.names suffix).map fun entry => UInt16.ofNat entry.1

def remember (L : Layout) (suffix : Text) (offset jumps : ℕ) : Layout :=
  if offset ≤ 0x3FFF then { L with names := Function.update L.names suffix (some (offset, jumps)) } else L

@[simp] theorem remember_pos (L : Layout) (suffix : Text) (offset jumps : ℕ) :
    (L.remember suffix offset jumps).pos = L.pos := by
  unfold remember
  split <;> rfl

/-! ## Names -/

/-- The layout behind a list of labels, and the jumps a reader makes in it. -/
def labels (L : Layout) : List Text → Layout × ℕ
  | [] => (L.advance 1, 0)
  | l :: ls =>
    match L.names (joinDots (l :: ls)) with
    | some entry => (L.advance 2, entry.2 + 1)
    | none =>
      let rest := (L.advance (labelBytes l).length).labels ls
      (rest.1.remember (joinDots (l :: ls)) L.pos rest.2, rest.2)

def labelsBytes (L : Layout) : List Text → Bytes
  | [] => [0]
  | l :: ls =>
    match L.names (joinDots (l :: ls)) with
    | some entry => bytes16 (0xC000 ||| UInt16.ofNat entry.1)
    | none => labelBytes l ++ (L.advance (labelBytes l).length).labelsBytes ls

def name (L : Layout) (n : Text) : Layout := (L.labels (nameLabels n)).1
def nameJumps (L : Layout) (n : Text) : ℕ := (L.labels (nameLabels n)).2
def nameBytes (L : Layout) (n : Text) : Bytes := L.labelsBytes (nameLabels n)

def plainBytes (n : Text) : Bytes := (nameLabels n).flatMap labelBytes ++ [0]

/-! ## Records -/

def field (L : Layout) : Field → Layout
  | .raw bytes => L.advance bytes.length
  | .name n => L.name n
  | .plain n => L.advance (plainBytes n).length

def fieldBytes (L : Layout) : Field → Bytes
  | .raw bytes => bytes
  | .name n => L.nameBytes n
  | .plain n => plainBytes n

def fields (L : Layout) : List Field → Layout
  | [] => L
  | f :: fs => (L.field f).fields fs

def fieldsBytes (L : Layout) : List Field → Bytes
  | [] => []
  | f :: fs => L.fieldBytes f ++ (L.field f).fieldsBytes fs

def rdata (L : Layout) (r : DnsRecord) : Layout := (L.name r.domain).advance 10

def rdataBytes (L : Layout) (r : DnsRecord) : Bytes := (L.rdata r).fieldsBytes (recordFields r)

def record (L : Layout) (r : DnsRecord) : Layout := (L.rdata r).fields (recordFields r)

def recordBytes (L : Layout) (r : DnsRecord) : Bytes :=
  L.nameBytes r.domain ++ bytes16 r.recordType ++ bytes16 (recordClass r) ++ bytes32 r.ttl ++
    bytes16 (UInt16.ofNat (L.rdataBytes r).length) ++ L.rdataBytes r

/-! ## Sections -/

def question (L : Layout) (q : DnsQuestion) : Layout := (L.name q.qname).advance 4

def questionBytes (L : Layout) (q : DnsQuestion) : Bytes :=
  L.nameBytes q.qname ++ bytes16 q.qtype ++ bytes16 q.qclass

def questions (L : Layout) : List DnsQuestion → Layout
  | [] => L
  | q :: qs => (L.question q).questions qs

def questionsBytes (L : Layout) : List DnsQuestion → Bytes
  | [] => []
  | q :: qs => L.questionBytes q ++ (L.question q).questionsBytes qs

def records (L : Layout) : List DnsRecord → Layout
  | [] => L
  | r :: rs => (L.record r).records rs

def recordsBytes (L : Layout) : List DnsRecord → Bytes
  | [] => []
  | r :: rs => L.recordBytes r ++ (L.record r).recordsBytes rs

theorem records_append (L : Layout) (rs rs' : List DnsRecord) :
    L.records (rs ++ rs') = (L.records rs).records rs' := by
  induction rs generalizing L with
  | nil => rfl
  | cons r rs ih => exact ih _

theorem recordsBytes_append (L : Layout) (rs rs' : List DnsRecord) :
    L.recordsBytes (rs ++ rs') = L.recordsBytes rs ++ (L.records rs).recordsBytes rs' := by
  induction rs generalizing L with
  | nil => rfl
  | cons r rs ih => simp [recordsBytes, records, ih]

def start : Layout := ⟨12, fun _ => none⟩

end Layout

def DnsPacket.records (p : DnsPacket) : List DnsRecord := p.answers ++ p.authorities ++ p.additionals

end MiniDns.Dns
