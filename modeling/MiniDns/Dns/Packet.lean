import MiniDns.Dns.Record

/-! The decoder of messages, `from_bytes` and the functions it calls, over checked reads.
Every `buf[i]` and `buf[a..b]` of the code is a `byteAt`, `u16At`, `u32At` or `slice` here, so a
read outside the buffer shows as a panic. -/
namespace MiniDns.Dns.DnsPacket
open Lib Lib.Outcome DnsRecord
set_option autoImplicit false

/-! ## Names -/

def maxPointerJumps : ℕ := 64

/-- The variables of the loop in `parse_qname`. -/
structure NameScan where
  qname : Text
  current : ℕ
  jumped : Bool
  endOffset : ℕ
  jumps : ℕ

/-- The loop of `parse_qname`, with a bound on its rounds; see `nameFuel`. -/
def parseQnameLoop (buf : Bytes) : ℕ → NameScan → Outcome DnsError NameScan
  | 0, _ => panic
  | fuel + 1, s =>
    if s.current ≥ buf.length then err (.truncated "qname label length")
    else do
      let len ← byteAt buf s.current
      if len &&& 0xC0 ≠ 0 then
        if s.current + 1 ≥ buf.length then err (.truncated "compression pointer")
        else if s.jumps + 1 > maxPointerJumps then err .pointerLoop
        else do
          let hi ← byteAt buf s.current
          let lo ← byteAt buf (s.current + 1)
          parseQnameLoop buf fuel
            { s with
              current := (be16 (hi &&& 0x3F) lo).toNat
              jumped := true
              endOffset := if s.jumped then s.endOffset else s.current + 2
              jumps := s.jumps + 1 }
      else if len = 0 then
        ok { s with endOffset := if s.jumped then s.endOffset else s.current + 1 }
      else if s.current + 1 + len.toNat > buf.length then err (.truncated "qname label")
      else do
        let label ← slice buf (s.current + 1) (s.current + 1 + len.toNat)
        parseQnameLoop buf fuel
          { s with
            qname := s.qname ++ fromUtf8Lossy label ++ ['.']
            current := s.current + 1 + len.toNat }

/-- Each round reads on behind a label or uses up one of the pointers. -/
def nameFuel (buf : Bytes) : ℕ := maxPointerJumps * (buf.length + 1) + buf.length + 1

/-- `if qname.ends_with('.') { qname.pop(); }` -/
def popDot (qname : Text) : Text := if qname.getLast? = some '.' then qname.dropLast else qname

def parseQname (buf : Bytes) (offset : ℕ) : Outcome DnsError (Text × ℕ) := do
  let s ← parseQnameLoop buf (nameFuel buf) ⟨[], offset, false, 0, 0⟩
  pure (popDot s.qname, s.endOffset)

/-! ## Records -/

def characterStringsLoop (data : Bytes) : ℕ → ℕ → Text → Outcome DnsError Text
  | 0, _, _ => panic
  | fuel + 1, i, text =>
    if i < data.length then do
      let len ← byteAt data i
      if i + 1 + len.toNat > data.length then err (.truncated "TXT character-string")
      else do
        let chunk ← slice data (i + 1) (i + 1 + len.toNat)
        characterStringsLoop data fuel (i + 1 + len.toNat) (text ++ fromUtf8Lossy chunk)
    else ok text

def parseCharacterStrings (data : Bytes) : Outcome DnsError Text :=
  characterStringsLoop data (data.length + 1) 0 []

/-! The arms of the `match record_type` of `parse_record`, each over the `dataLen` bytes of rdata
at `start`. -/

section Rdata
variable (buf : Bytes) (domain : Text) (ttl : UInt32) (start dataLen : ℕ)

def rdataA : Outcome DnsError DnsRecord :=
  if dataLen ≠ 4 then err (.invalidRdata typeA)
  else do
    let a ← byteAt buf start
    let b ← byteAt buf (start + 1)
    let c ← byteAt buf (start + 2)
    let d ← byteAt buf (start + 3)
    pure (.a domain ⟨a, b, c, d⟩ ttl)

def rdataAaaa : Outcome DnsError DnsRecord :=
  if dataLen ≠ 16 then err (.invalidRdata typeAaaa)
  else do
    let octets ← slice buf start (start + 16)
    let addr ← Ipv6Addr.copyFrom octets
    pure (.aaaa domain addr ttl)

/-- The arms of CNAME, NS and PTR, which differ in the record they build. -/
def rdataName (make : Text → Text → UInt32 → DnsRecord) : Outcome DnsError DnsRecord := do
  let (name, _) ← parseQname buf start
  pure (make domain name ttl)

def rdataMx : Outcome DnsError DnsRecord :=
  if dataLen < 3 then err (.invalidRdata typeMx)
  else do
    let preference ← u16At buf start
    let (exchange, _) ← parseQname buf (start + 2)
    pure (.mx domain preference exchange ttl)

def rdataTxt : Outcome DnsError DnsRecord := do
  let data ← slice buf start (start + dataLen)
  let text ← parseCharacterStrings data
  pure (.txt domain text ttl)

def rdataSoa : Outcome DnsError DnsRecord := do
  let (mname, afterMname) ← parseQname buf start
  let (rname, afterRname) ← parseQname buf afterMname
  if afterRname + 20 > buf.length then err (.truncated "SOA record")
  else do
    let serial ← u32At buf afterRname
    let refresh ← u32At buf (afterRname + 4)
    let retry ← u32At buf (afterRname + 8)
    let expire ← u32At buf (afterRname + 12)
    let minimum ← u32At buf (afterRname + 16)
    pure (.soa domain mname rname serial refresh retry expire minimum ttl)

def rdataSrv : Outcome DnsError DnsRecord :=
  if dataLen < 6 then err (.invalidRdata typeSrv)
  else do
    let priority ← u16At buf start
    let weight ← u16At buf (start + 2)
    let port ← u16At buf (start + 4)
    let (target, _) ← parseQname buf (start + 6)
    pure (.srv domain priority weight port target ttl)

def rdataCaa : Outcome DnsError DnsRecord :=
  if dataLen < 2 then err (.invalidRdata typeCaa)
  else do
    let flags ← byteAt buf start
    let tagLen ← byteAt buf (start + 1)
    if 2 + tagLen.toNat > dataLen then err (.invalidRdata typeCaa)
    else do
      let tag ← slice buf (start + 2) (start + 2 + tagLen.toNat)
      let value ← slice buf (start + 2 + tagLen.toNat) (start + dataLen)
      pure (.caa domain flags (fromUtf8Lossy tag) (fromUtf8Lossy value) ttl)

def rdataDnskey : Outcome DnsError DnsRecord :=
  if dataLen < 4 then err (.invalidRdata typeDnskey)
  else do
    let flags ← u16At buf start
    let protocol ← byteAt buf (start + 2)
    let algorithm ← byteAt buf (start + 3)
    let publicKey ← slice buf (start + 4) (start + dataLen)
    pure (.dnskey domain flags protocol algorithm publicKey ttl)

def rdataRrsig : Outcome DnsError DnsRecord :=
  if dataLen < 18 then err (.invalidRdata typeRrsig)
  else do
    let typeCovered ← u16At buf start
    let algorithm ← byteAt buf (start + 2)
    let labels ← byteAt buf (start + 3)
    let originalTtl ← u32At buf (start + 4)
    let signatureExpiration ← u32At buf (start + 8)
    let signatureInception ← u32At buf (start + 12)
    let keyTag ← u16At buf (start + 16)
    let (signerName, afterSigner) ← parseQname buf (start + 18)
    -- nothing has compared the end of the signer name with the end of the rdata
    let signature ← slice buf afterSigner (start + dataLen)
    pure (.rrsig domain typeCovered algorithm labels originalTtl signatureExpiration
      signatureInception keyTag signerName signature ttl)

def rdataDs : Outcome DnsError DnsRecord :=
  if dataLen < 4 then err (.invalidRdata typeDs)
  else do
    let keyTag ← u16At buf start
    let algorithm ← byteAt buf (start + 2)
    let digestType ← byteAt buf (start + 3)
    let digest ← slice buf (start + 4) (start + dataLen)
    pure (.ds domain keyTag algorithm digestType digest ttl)

def rdataNsec : Outcome DnsError DnsRecord := do
  let (nextName, afterName) ← parseQname buf start
  let typeBitmap ← slice buf afterName (start + dataLen)
  pure (.nsec domain nextName typeBitmap ttl)

/-- The `match record_type` of `parse_record`; `none` is a type the server does not model. -/
def parseRdata (recordType cls : UInt16) : Option (Outcome DnsError DnsRecord) :=
  if recordType = typeA then some (rdataA buf domain ttl start dataLen)
  else if recordType = typeAaaa then some (rdataAaaa buf domain ttl start dataLen)
  else if recordType = typeCname then some (rdataName buf domain ttl start .cname)
  else if recordType = typeMx then some (rdataMx buf domain ttl start dataLen)
  else if recordType = typeTxt then some (rdataTxt buf domain ttl start dataLen)
  else if recordType = typeNs then some (rdataName buf domain ttl start .ns)
  else if recordType = typeSoa then some (rdataSoa buf domain ttl start)
  else if recordType = typeSrv then some (rdataSrv buf domain ttl start dataLen)
  else if recordType = typePtr then some (rdataName buf domain ttl start .ptr)
  else if recordType = typeCaa then some (rdataCaa buf domain ttl start dataLen)
  else if recordType = typeOpt then some (ok (.opt cls))
  else if recordType = typeDnskey then some (rdataDnskey buf domain ttl start dataLen)
  else if recordType = typeRrsig then some (rdataRrsig buf domain ttl start dataLen)
  else if recordType = typeDs then some (rdataDs buf domain ttl start dataLen)
  else if recordType = typeNsec then some (rdataNsec buf domain ttl start dataLen)
  else none

end Rdata

def parseRecord (buf : Bytes) (offset : ℕ) : Outcome DnsError (Option DnsRecord × ℕ) := do
  let (domain, newOffset) ← parseQname buf offset
  if newOffset + 10 > buf.length then err (.truncated "record header")
  else do
    let recordType ← u16At buf newOffset
    let cls ← u16At buf (newOffset + 2)
    let ttl ← u32At buf (newOffset + 4)
    let dataLen ← u16At buf (newOffset + 8)
    if newOffset + 10 + dataLen.toNat > buf.length then err (.truncated "record data")
    else
      match parseRdata buf domain ttl (newOffset + 10) dataLen.toNat recordType cls with
      | some record => do
        let record ← record
        pure (some record, newOffset + 10 + dataLen.toNat)
      | none => pure (none, newOffset + 10 + dataLen.toNat)

/-! ## Sections -/

def parseQuestions (buf : Bytes) : ℕ → ℕ → Outcome DnsError (List DnsQuestion × ℕ)
  | 0, offset => ok ([], offset)
  | count + 1, offset => do
    let (qname, offset) ← parseQname buf offset
    if offset + 4 > buf.length then err (.truncated "question")
    else do
      let qtype ← u16At buf offset
      let qclass ← u16At buf (offset + 2)
      let (questions, next) ← parseQuestions buf count (offset + 4)
      pure (⟨qname, qtype, qclass⟩ :: questions, next)

def parseSection (buf : Bytes) : ℕ → ℕ → Outcome DnsError (List DnsRecord × ℕ)
  | 0, offset => ok ([], offset)
  | count + 1, offset => do
    let (record, next) ← parseRecord buf offset
    let (out, last) ← parseSection buf count next
    pure (record.toList ++ out, last)

def parseHeader (buf : Bytes) : Outcome DnsError DnsHeader := do
  let id ← u16At buf 0
  let flags ← u16At buf 2
  let questions ← u16At buf 4
  let answers ← u16At buf 6
  let authorities ← u16At buf 8
  let additionals ← u16At buf 10
  pure ⟨id, flags, questions, answers, authorities, additionals⟩

def fromBytes (buf : Bytes) : Outcome DnsError DnsPacket :=
  if buf.length < 12 then err (.truncated "header")
  else do
    let header ← parseHeader buf
    let (questions, offset) ← parseQuestions buf header.questions.toNat 12
    let (answers, offset) ← parseSection buf header.answers.toNat offset
    let (authorities, offset) ← parseSection buf header.authorities.toNat offset
    let (additionals, _) ← parseSection buf header.additionals.toNat offset
    pure ⟨header, questions, answers, authorities, additionals⟩

end MiniDns.Dns.DnsPacket
