import MiniDns.Lib.Names
import MiniDns.Lib.TextFields
import MiniDns.Dns.Resolver

/-! The loader of zone files: a line is a record, a line that does not parse is reported and skipped. What
the file says about a name is what the authoritative lookup answers. -/
namespace MiniDns
open Lib Lib.Outcome Dns
set_option autoImplicit false

/-! ## Errors of a line -/

inductive LineError where
  | fields
  | ttl (field : Text)
  | addressA
  | addressAaaa
  | fieldsMx
  | preferenceMx
  | fieldsSrv
  | prioritySrv
  | weightSrv
  | portSrv
  | fieldsCaa
  | flagsCaa
  | fieldsSoa
  | serialSoa
  | refreshSoa
  | retrySoa
  | expireSoa
  | minimumSoa
  deriving DecidableEq, Repr

def LineError.message : LineError → Text
  | fields => "expected at least 4 fields (domain ttl type data)".toList
  | ttl field => "invalid TTL `".toList ++ field ++ "`".toList
  | addressA => "invalid IPv4 address for A record".toList
  | addressAaaa => "invalid IPv6 address for AAAA record".toList
  | fieldsMx => "MX record requires a preference and an exchange".toList
  | preferenceMx => "invalid preference for MX record".toList
  | fieldsSrv => "SRV record requires priority, weight, port and target".toList
  | prioritySrv => "invalid SRV priority".toList
  | weightSrv => "invalid SRV weight".toList
  | portSrv => "invalid SRV port".toList
  | fieldsCaa => "CAA record requires flags, tag and value".toList
  | flagsCaa => "invalid CAA flags".toList
  | fieldsSoa => "SOA record requires 7 fields (mname rname serial refresh retry expire minimum)".toList
  | serialSoa => "invalid SOA serial".toList
  | refreshSoa => "invalid SOA refresh".toList
  | retrySoa => "invalid SOA retry".toList
  | expireSoa => "invalid SOA expire".toList
  | minimumSoa => "invalid SOA minimum".toList

/-! ## One line -/

def stripTrailingDot (name : Text) : Text := stripSuffix '.' name

def parseU8 (s : Text) : Option UInt8 := (parseUnsigned (by decide) s).map UInt8.ofFin
def parseU16 (s : Text) : Option UInt16 := (parseUnsigned (by decide) s).map UInt16.ofFin
def parseU32 (s : Text) : Option UInt32 := (parseUnsigned (by decide) s).map UInt32.ofFin

def parseIpv4Addr (s : Text) : Option Ipv4Addr :=
  (parseIpv4 s).map fun (a, b, c, d) => ⟨UInt8.ofFin a, UInt8.ofFin b, UInt8.ofFin c, UInt8.ofFin d⟩

def ipv6OfGroups (groups : { groups : List (Fin 65536) // groups.length = 8 }) : Ipv6Addr :=
  ⟨groups.1.flatMap fun g => bytes16 (UInt16.ofFin g), by
    rw [List.length_flatMap]
    simp [groups.2]⟩

def parseIpv6Addr (s : Text) : Option Ipv6Addr := (parseIpv6 s).map ipv6OfGroups

/-- The record types that a zone file can have. -/
inductive ZoneType where
  | a
  | aaaa
  | cname
  | ns
  | mx
  | txt
  | ptr
  | srv
  | caa
  | soa
  deriving DecidableEq, Repr

def ZoneType.ofText (s : Text) : Option ZoneType :=
  if s = ['A'] then some a
  else if s = ['A', 'A', 'A', 'A'] then some aaaa
  else if s = ['C', 'N', 'A', 'M', 'E'] then some cname
  else if s = ['N', 'S'] then some ns
  else if s = ['M', 'X'] then some mx
  else if s = ['T', 'X', 'T'] then some txt
  else if s = ['P', 'T', 'R'] then some ptr
  else if s = ['S', 'R', 'V'] then some srv
  else if s = ['C', 'A', 'A'] then some caa
  else if s = ['S', 'O', 'A'] then some soa
  else none

/-- The `match record_type` of `parse_line`, over the fields from the fourth on. -/
def parseData (domain : Text) (ttl : UInt32) (fields : List Text) : ZoneType → Outcome LineError DnsRecord
  | .a => do
    let addr ← ofOption (parseIpv4Addr (joinSpaces fields)) .addressA
    pure (.a domain addr ttl)
  | .aaaa => do
    let addr ← ofOption (parseIpv6Addr (joinSpaces fields)) .addressAaaa
    pure (.aaaa domain addr ttl)
  | .cname => pure (.cname domain (stripTrailingDot (joinSpaces fields)) ttl)
  | .ns => pure (.ns domain (stripTrailingDot (joinSpaces fields)) ttl)
  | .mx =>
    match fields with
    | preference :: exchange :: _ => do
      let preference ← ofOption (parseU16 preference) .preferenceMx
      pure (.mx domain preference (stripTrailingDot exchange) ttl)
    | _ => err .fieldsMx
  | .txt => pure (.txt domain (trimMatches '\x22' (joinSpaces fields)) ttl)
  | .ptr => pure (.ptr domain (stripTrailingDot (joinSpaces fields)) ttl)
  | .srv =>
    match fields with
    | priority :: weight :: port :: target :: _ => do
      let priority ← ofOption (parseU16 priority) .prioritySrv
      let weight ← ofOption (parseU16 weight) .weightSrv
      let port ← ofOption (parseU16 port) .portSrv
      pure (.srv domain priority weight port (stripTrailingDot target) ttl)
    | _ => err .fieldsSrv
  | .caa =>
    match fields with
    | flags :: tag :: first :: rest => do
      let flags ← ofOption (parseU8 flags) .flagsCaa
      pure (.caa domain flags tag (trimMatches '\x22' (joinSpaces (first :: rest))) ttl)
    | _ => err .fieldsCaa
  | .soa =>
    match fields with
    | mname :: rname :: serial :: refresh :: retry :: expire :: minimum :: _ => do
      let serial ← ofOption (parseU32 serial) .serialSoa
      let refresh ← ofOption (parseU32 refresh) .refreshSoa
      let retry ← ofOption (parseU32 retry) .retrySoa
      let expire ← ofOption (parseU32 expire) .expireSoa
      let minimum ← ofOption (parseU32 minimum) .minimumSoa
      pure (.soa domain (stripTrailingDot mname) (stripTrailingDot rname) serial refresh retry expire minimum ttl)
    | _ => err .fieldsSoa

def parseLine (rt : Runtime) (line : Text) : Outcome LineError (Option (Text × DnsRecord)) :=
  match splitWhitespace line with
  | owner :: ttl :: recordType :: first :: rest => do
    let domain := stripTrailingDot (rt.toLowercase owner)
    let ttl ← ofOption (parseU32 ttl) (.ttl ttl)
    match ZoneType.ofText recordType with
    | none => pure none
    | some kind => do
      let record ← parseData domain ttl (first :: rest) kind
      pure (some (domain, record))
  | _ => err .fields

/-- The record that the fields of an accepted line stand for. -/
inductive DataRecord (domain : Text) (ttl : UInt32) : List Text → ZoneType → DnsRecord → Prop
  | a (fields : List Text) (addr : Ipv4Addr) : DataRecord domain ttl fields .a (.a domain addr ttl)
  | aaaa (fields : List Text) (addr : Ipv6Addr) : DataRecord domain ttl fields .aaaa (.aaaa domain addr ttl)
  | cname (fields : List Text) :
      DataRecord domain ttl fields .cname (.cname domain (stripTrailingDot (joinSpaces fields)) ttl)
  | ns (fields : List Text) : DataRecord domain ttl fields .ns (.ns domain (stripTrailingDot (joinSpaces fields)) ttl)
  | mx (field exchange : Text) (rest : List Text) (preference : UInt16) :
      DataRecord domain ttl (field :: exchange :: rest) .mx (.mx domain preference (stripTrailingDot exchange) ttl)
  | txt (fields : List Text) :
      DataRecord domain ttl fields .txt (.txt domain (trimMatches '\x22' (joinSpaces fields)) ttl)
  | ptr (fields : List Text) :
      DataRecord domain ttl fields .ptr (.ptr domain (stripTrailingDot (joinSpaces fields)) ttl)
  | srv (field field' field'' target : Text) (rest : List Text) (priority weight port : UInt16) :
      DataRecord domain ttl (field :: field' :: field'' :: target :: rest) .srv
        (.srv domain priority weight port (stripTrailingDot target) ttl)
  | caa (field tag first : Text) (rest : List Text) (flags : UInt8) :
      DataRecord domain ttl (field :: tag :: first :: rest) .caa
        (.caa domain flags tag (trimMatches '\x22' (joinSpaces (first :: rest))) ttl)
  | soa (mname rname : Text) (rest : List Text) (serial refresh retry expire minimum : UInt32) :
      DataRecord domain ttl (mname :: rname :: rest) .soa
        (.soa domain (stripTrailingDot mname) (stripTrailingDot rname) serial refresh retry expire minimum ttl)

theorem dataRecord_of_parseData {domain : Text} {ttl : UInt32} {fields : List Text} {kind : ZoneType} {r : DnsRecord}
    (h : parseData domain ttl fields kind = .ok r) : DataRecord domain ttl fields kind r := by
  cases kind with
  | cname => cases h; exact .cname fields
  | ns => cases h; exact .ns fields
  | txt => cases h; exact .txt fields
  | ptr => cases h; exact .ptr fields
  | a =>
    simp only [parseData, bind_eq_ok] at h
    obtain ⟨addr, _, h⟩ := h
    cases h
    exact .a fields addr
  | aaaa =>
    simp only [parseData, bind_eq_ok] at h
    obtain ⟨addr, _, h⟩ := h
    cases h
    exact .aaaa fields addr
  | mx =>
    simp only [parseData] at h
    split at h
    · simp only [bind_eq_ok] at h
      obtain ⟨preference, _, h⟩ := h
      cases h
      exact .mx _ _ _ preference
    · cases h
  | caa =>
    simp only [parseData] at h
    split at h
    · simp only [bind_eq_ok] at h
      obtain ⟨flags, _, h⟩ := h
      cases h
      exact .caa _ _ _ _ flags
    · cases h
  | srv =>
    simp only [parseData] at h
    split at h
    · simp only [bind_eq_ok] at h
      obtain ⟨priority, _, weight, _, port, _, h⟩ := h
      cases h
      exact .srv _ _ _ _ _ priority weight port
    · cases h
  | soa =>
    simp only [parseData] at h
    split at h
    · simp only [bind_eq_ok] at h
      obtain ⟨serial, _, refresh, _, retry, _, expire, _, minimum, _, h⟩ := h
      cases h
      exact .soa _ _ _ serial refresh retry expire minimum
    · cases h

theorem DataRecord.domain_eq {domain : Text} {ttl : UInt32} {fields : List Text} {kind : ZoneType} {r : DnsRecord}
    (h : DataRecord domain ttl fields kind r) : r.domain = domain := by
  cases h <;> rfl

/-- What an accepted line has: at least four fields, a TTL, and a record of a known type. -/
theorem parseLine_ok {rt : Runtime} {line domain : Text} {r : DnsRecord}
    (h : parseLine rt line = .ok (some (domain, r))) :
    ∃ owner ttl recordType first rest seconds kind,
      splitWhitespace line = owner :: ttl :: recordType :: first :: rest ∧ parseU32 ttl = some seconds ∧
      ZoneType.ofText recordType = some kind ∧ domain = stripTrailingDot (rt.toLowercase owner) ∧
      DataRecord domain seconds (first :: rest) kind r := by
  unfold parseLine at h
  split at h
  · rename_i owner ttl recordType first rest hfields
    obtain ⟨seconds, hseconds, h⟩ := bind_eq_ok.mp h
    split at h
    · cases h
    · rename_i kind hkind
      obtain ⟨record, hrecord, h⟩ := bind_eq_ok.mp h
      obtain ⟨rfl, rfl⟩ := Prod.mk.inj (Option.some.inj (Outcome.ok.inj h))
      exact ⟨owner, ttl, recordType, first, rest, seconds, kind, hfields, ofOption_eq_ok.mp hseconds, hkind, rfl,
        dataRecord_of_parseData hrecord⟩
  · cases h

/-! ## The file -/

/-- The zone so far, and the warnings in the log. -/
structure ZoneLoad where
  zone : Zone
  log : List Text

/-- `{path}:{lineno}: {e}; skipping line` -/
def skipWarning (path : Text) (lineno : ℕ) (error : LineError) : Text :=
  path ++ ':' :: Nat.toDigits 10 lineno ++ ':' :: ' ' :: error.message ++ "; skipping line".toList

/-- One round of the loop over the numbered lines. -/
def loadLine (rt : Runtime) (path : Text) (load : ZoneLoad) (numbered : Text × ℕ) : ZoneLoad :=
  let line := trim numbered.1
  if line = [] ∨ line.head? = some ';' then load
  else
    match parseLine rt line with
    | ok (some (domain, record)) => { load with zone := pushEntry load.zone domain record }
    | err e => { load with log := load.log ++ [skipWarning path (numbered.2 + 1) e] }
    | _ => load

/-- `load_zone_file` on the content of the file. -/
def loadZoneFile (rt : Runtime) (path content : Text) : ZoneLoad :=
  (lines content).zipIdx.foldl (loadLine rt path) ⟨∅, []⟩

/-! ## What a file says -/

/-- The owner and the record that a line stands for. -/
def lineRecord (rt : Runtime) (line : Text) : Option (Text × DnsRecord) :=
  if trim line = [] ∨ (trim line).head? = some ';' then none else (parseLine rt (trim line)).toOption.join

def fileRecords (rt : Runtime) (content : Text) : List (Text × DnsRecord) :=
  (lines content).filterMap (lineRecord rt)

section Load
variable {rt : Runtime} {path content : Text}

theorem zone_loadLine (load : ZoneLoad) (numbered : Text × ℕ) :
    (loadLine rt path load numbered).zone =
      match lineRecord rt numbered.1 with
      | some (domain, record) => pushEntry load.zone domain record
      | none => load.zone := by
  unfold loadLine lineRecord
  dsimp only
  split
  · rfl
  · cases parseLine rt (trim numbered.1) with
    | ok found => cases found <;> rfl
    | err e => rfl
    | panic => rfl

theorem zone_foldl_loadLine (ls : List Text) (n : ℕ) (load : ZoneLoad) :
    ((ls.zipIdx n).foldl (loadLine rt path) load).zone =
      (ls.filterMap (lineRecord rt)).foldl (fun zone entry => pushEntry zone entry.1 entry.2) load.zone := by
  induction ls generalizing n load with
  | nil => rfl
  | cons line ls ih =>
    rw [List.zipIdx_cons, List.foldl_cons, ih, zone_loadLine, List.filterMap_cons]
    cases lineRecord rt line <;> rfl

/-- **The zone of a file has for each name the records of its lines, in the order of the lines.** -/
theorem lookup_loadZoneFile (k : Text) : (loadZoneFile rt path content).zone.lookup k =
    if valuesOf (fileRecords rt content) k = [] then none else some (valuesOf (fileRecords rt content) k) := by
  rw [loadZoneFile, zone_foldl_loadLine]
  exact lookup_foldl_pushEntry (fileRecords rt content) ∅ k

theorem exists_lookup_loadZoneFile {k : Text} {r : DnsRecord} :
    (∃ rs, (loadZoneFile rt path content).zone.lookup k = some rs ∧ r ∈ rs) ↔ (k, r) ∈ fileRecords rt content := by
  rw [← mem_valuesOf, lookup_loadZoneFile]
  constructor
  · rintro ⟨rs, hrs, hr⟩
    split at hrs
    · cases hrs
    · rwa [Option.some.inj hrs]
  · intro hr
    exact ⟨_, if_neg (List.ne_nil_of_mem hr), hr⟩

theorem parseLine_of_lineRecord {line domain : Text} {r : DnsRecord} (h : lineRecord rt line = some (domain, r)) :
    parseLine rt (trim line) = .ok (some (domain, r)) := by
  unfold lineRecord at h
  split at h
  · cases h
  · exact eq_ok_of_toOption (Option.join_eq_some_iff.mp h)

theorem domain_of_mem_fileRecords {k : Text} {r : DnsRecord} (h : (k, r) ∈ fileRecords rt content) :
    r.domain = k := by
  obtain ⟨line, _, hline⟩ := List.mem_filterMap.mp h
  obtain ⟨_, _, _, _, _, _, _, _, _, _, _, hdata⟩ := parseLine_ok (parseLine_of_lineRecord hline)
  exact hdata.domain_eq

/-- **Each malformed line is reported with its number, and nothing else is.** -/
theorem log_loadZoneFile : (loadZoneFile rt path content).log = (lines content).zipIdx.filterMap fun numbered =>
    if trim numbered.1 = [] ∨ (trim numbered.1).head? = some ';' then none
    else
      match parseLine rt (trim numbered.1) with
      | err e => some (skipWarning path (numbered.2 + 1) e)
      | _ => none := by
  rw [loadZoneFile]
  suffices key : ∀ (ls : List (Text × ℕ)) (load : ZoneLoad), (ls.foldl (loadLine rt path) load).log =
      load.log ++ ls.filterMap _ from key _ ⟨∅, []⟩
  intro ls
  induction ls with
  | nil => exact fun load => (List.append_nil _).symm
  | cons numbered ls ih =>
    intro load
    rw [List.foldl_cons, ih, List.filterMap_cons, loadLine]
    split
    · rfl
    · cases parseLine rt (trim numbered.1) with
      | ok found => cases found <;> rfl
      | err e => simp
      | panic => rfl

end Load

/-! ## What is answered -/

/-- How `to_lowercase` treats ASCII letters, text in lower case, and a final dot. -/
structure LowercaseLaws (rt : Runtime) : Prop where
  ignoresCase : ∀ s s', eqIgnoreAsciiCase s s' = true → rt.toLowercase s = rt.toLowercase s'
  idempotent : ∀ s, rt.toLowercase (rt.toLowercase s) = rt.toLowercase s
  finalDot : ∀ s, rt.toLowercase (s ++ ['.']) = rt.toLowercase s ++ ['.']

theorem LowercaseLaws.stripTrailingDot {rt : Runtime} (laws : LowercaseLaws rt) (s : Text) :
    rt.toLowercase (stripTrailingDot (rt.toLowercase s)) = MiniDns.stripTrailingDot (rt.toLowercase s) := by
  unfold MiniDns.stripTrailingDot stripSuffix
  split
  · rename_i hdot
    have hsplit : (rt.toLowercase s).dropLast ++ ['.'] = rt.toLowercase s :=
      List.dropLast_append_getLast? '.' hdot
    have hsame := laws.idempotent s
    rw [← hsplit, laws.finalDot] at hsame
    exact List.append_cancel_right hsame
  · exact laws.idempotent s

theorem withDomain_self (r : DnsRecord) : r.withDomain r.domain = r := by
  cases r <;> rfl

theorem find_fromSingle {origin name : Text} (records : Zone) (h : underSuffix name origin = true) :
    (ZoneSet.fromSingle origin records).find name = some ⟨origin, records⟩ := by
  have hcond : (origin.isEmpty || underSuffix name origin) = true := by rw [h, Bool.or_true]
  exact List.find?_cons_of_pos hcond

/-- A name with records of the asked type is answered with them in the first round. -/
theorem chase_of_direct (rt : Runtime) {origin name : Text} {zone : Zone} {records : List DnsRecord} {qtype : UInt16}
    (rounds : ℕ) (matching : Option AuthZone) (hunder : underSuffix name origin = true)
    (hlookup : zone.lookup name = some records) (hdirect : (records.filter fun r => r.recordType == qtype) ≠ []) :
    chase rt (ZoneSet.fromSingle origin zone) qtype (rounds + 1) ⟨name, [], [], false, 0, matching⟩ =
      ⟨name, [name], (records.filter fun r => r.recordType == qtype).map fun r => r.withDomain name, true, 0,
        matching.or (some ⟨origin, zone⟩)⟩ := by
  have hfind := find_fromSingle zone hunder
  have hname : Dns.lookup zone name = some records := by rw [Dns.lookup, hlookup]
  have hnonempty : (records.filter fun r => r.recordType == qtype).isEmpty = false := by
    rwa [List.isEmpty_eq_false_iff]
  rw [chase, if_neg List.not_mem_nil]
  simp only [hfind, hname, hnonempty]
  rfl

/-- The records of an owner and a type, in the order of the file. -/
def recordsOf (rt : Runtime) (content k : Text) (t : UInt16) : List DnsRecord :=
  ((fileRecords rt content).filter fun entry => entry.1 = k ∧ entry.2.recordType = t).map Prod.snd

section Answered
variable {rt : Runtime} {path content k : Text} {t : UInt16}

theorem mem_recordsOf {r : DnsRecord} :
    r ∈ recordsOf rt content k t ↔ (k, r) ∈ fileRecords rt content ∧ r.recordType = t := by
  simp only [recordsOf, List.mem_map, List.mem_filter, decide_eq_true_eq]
  constructor
  · rintro ⟨⟨_, _⟩, ⟨hmem, rfl, htype⟩, rfl⟩
    exact ⟨hmem, htype⟩
  · rintro ⟨hmem, htype⟩
    exact ⟨(k, r), ⟨hmem, rfl, htype⟩, rfl⟩

theorem filter_valuesOf (k : Text) (t : UInt16) :
    (valuesOf (fileRecords rt content) k).filter (fun r => r.recordType == t) = recordsOf rt content k t := by
  rw [valuesOf, List.filter_map, List.filter_filter, recordsOf]
  congr 2
  funext entry
  simp [Bool.and_comm, Bool.beq_eq_decide_eq]

theorem lookup_of_mem_recordsOf (path : Text) {r : DnsRecord} (h : r ∈ recordsOf rt content k t) :
    (loadZoneFile rt path content).zone.lookup k = some (valuesOf (fileRecords rt content) k) := by
  rw [lookup_loadZoneFile, if_neg]
  intro hnil
  rw [← filter_valuesOf, hnil] at h
  cases h

/-- The records of a file have the owner that they are stored under. -/
theorem map_withDomain_recordsOf :
    (recordsOf rt content k t).map (fun r => r.withDomain k) = recordsOf rt content k t := by
  refine (List.map_congr_left fun r hr => ?_).trans (List.map_id _)
  have howner := domain_of_mem_fileRecords (mem_recordsOf.mp hr).1
  rw [← howner]
  exact withDomain_self r

theorem zone_of_same_lines {path' content' : Text}
    (h : (lines content').filter (fun line => (lineRecord rt line).isSome) =
      (lines content).filter fun line => (lineRecord rt line).isSome) :
    (loadZoneFile rt path' content').zone = (loadZoneFile rt path content).zone := by
  have hfilter : ∀ ls : List Text,
      ls.filterMap (lineRecord rt) = (ls.filter fun line => (lineRecord rt line).isSome).filterMap (lineRecord rt) := by
    intro ls
    rw [List.filterMap_filter]
    refine List.filterMap_congr fun line _ => ?_
    cases lineRecord rt line <;> rfl
  rw [loadZoneFile, loadZoneFile, zone_foldl_loadLine, zone_foldl_loadLine, hfilter, h, ← hfilter]

end Answered

/-- **What a file says about a name is answered.** Every name at or below the origin with a record of the
asked type is answered with exactly its records of that type, in the order of the file; lines that hold no
record make no difference. -/
theorem loaded_records_answered (rt : Runtime) (laws : LowercaseLaws rt) (path content origin k qname : Text)
    (t qclass : UInt16) (request : DnsPacket) (hquestion : request.questions.head? = some ⟨qname, t, qclass⟩)
    (hcase : eqIgnoreAsciiCase qname k = true) (hunder : underSuffix k origin = true)
    (hline : ∃ line ∈ lines content, ∃ r, lineRecord rt line = some (k, r) ∧ r.recordType = t) :
    let response := buildResponse rt request (ZoneSet.fromSingle origin (loadZoneFile rt path content).zone)
    response.header.flags &&& 0x000F = 0 ∧ response.header.flags &&& 0x0400 = 0x0400 ∧
      response.answers = recordsOf rt content k t ∧ (∀ r ∈ response.answers, r.domain = k) ∧
      ∀ path' content', (lines content').filter (fun line => (lineRecord rt line).isSome) =
          (lines content).filter (fun line => (lineRecord rt line).isSome) →
        (loadZoneFile rt path' content').zone = (loadZoneFile rt path content).zone := by
  obtain ⟨line, hmem, r, hrecord, htype⟩ := hline
  have hlower : rt.toLowercase qname = k := by
    obtain ⟨owner, _, _, _, _, _, _, _, _, _, rfl, _⟩ := parseLine_ok (parseLine_of_lineRecord hrecord)
    rw [laws.ignoresCase _ _ hcase, laws.stripTrailingDot]
  have hin : r ∈ recordsOf rt content k t :=
    mem_recordsOf.mpr ⟨List.mem_filterMap.mpr ⟨line, hmem, hrecord⟩, htype⟩
  obtain ⟨zone, hchase⟩ : ∃ zone, chaseQuestion rt (ZoneSet.fromSingle origin (loadZoneFile rt path content).zone)
      request.questions.head? = ⟨k, [k], recordsOf rt content k t, true, 0, zone⟩ := by
    have hdirect := List.ne_nil_of_mem hin
    rw [← filter_valuesOf] at hdirect
    have hround := chase_of_direct rt 15 ((ZoneSet.fromSingle origin (loadZoneFile rt path content).zone).find k) hunder
      (lookup_of_mem_recordsOf path hin) hdirect
    rw [filter_valuesOf, map_withDomain_recordsOf] at hround
    rw [hquestion, chaseQuestion, hlower]
    exact ⟨_, hround⟩
  intro response
  have hflags : response.header.flags = 0x8000 ||| (request.header.flags &&& 0x0100) ||| 0 ||| 0x0400 := by
    simp only [response, buildResponse, hchase]
    rfl
  have hanswers : response.answers = recordsOf rt content k t := by
    simp only [response, buildResponse, hchase]
  obtain ⟨hrcode, haa⟩ := rcode_and_aa request.header.flags (.inl rfl) true
  rw [hflags, hanswers]
  refine ⟨hrcode, haa, rfl, fun r hr => ?_, fun path' content' => zone_of_same_lines⟩
  exact domain_of_mem_fileRecords (mem_recordsOf.mp hr).1

theorem lowercaseLaws_ascii : LowercaseLaws .ascii where
  ignoresCase _ _ h := beq_iff_eq.mp h
  idempotent s := by
    change (s.map Char.toLower).map Char.toLower = s.map Char.toLower
    rw [List.map_map]
    exact List.map_congr_left fun c _ => toLower_toLower c
  finalDot s := List.map_append

/-- A file with a comment, a line that is too short, and two addresses of `a.b`. -/
def twoAddresses : Text := "A.b. 60 A 10.0.0.1\n; none\na.b\na.b 60 TXT x\na.B 60 A 10.0.0.2".toList

def addressQuery : DnsPacket := ⟨⟨7, 0x0100, 1, 0, 0, 0⟩, [⟨['A', '.', 'B'], 1, 1⟩], [], [], []⟩

theorem loaded_records_answered_twoAddresses :
    (buildResponse .ascii addressQuery (ZoneSet.fromSingle ['b'] (loadZoneFile .ascii ['z'] twoAddresses).zone)).answers =
      [.a ['a', '.', 'b'] ⟨10, 0, 0, 1⟩ 60, .a ['a', '.', 'b'] ⟨10, 0, 0, 2⟩ 60] := by
  have hline : ∃ line ∈ lines twoAddresses, ∃ r, lineRecord .ascii line = some (['a', '.', 'b'], r) ∧ r.recordType = 1 :=
    ⟨"A.b. 60 A 10.0.0.1".toList, by decide, .a ['a', '.', 'b'] ⟨10, 0, 0, 1⟩ 60, by decide, rfl⟩
  have h := loaded_records_answered .ascii lowercaseLaws_ascii ['z'] twoAddresses ['b'] ['a', '.', 'b']
    ['A', '.', 'B'] 1 1
    addressQuery rfl (by decide) (by decide) hline
  exact h.2.2.1.trans (by decide)

end MiniDns
