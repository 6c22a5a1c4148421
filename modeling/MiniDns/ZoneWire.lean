import MiniDns.Dns.LoneRecord
import MiniDns.ZoneFile

/-! Which lines of a zone file stand for a record that a message can carry. The loader takes every token for
a name and every text for data; the encoder cuts labels at 63 bytes, tags at 255, texts every 255 bytes, and
writes lengths modulo 65536. -/
namespace MiniDns
open Lib Dns
set_option autoImplicit false

/-! ## Sizes -/

/-- No label is empty, and none loses anything at 63 bytes. -/
def SizedName (n : Text) : Prop := ∀ l ∈ nameLabels n, l ≠ [] ∧ FitsCut 63 l

theorem goodName_iff_sizedName (n : Text) : GoodName n ↔ SizedName n :=
  forall₂_congr fun l _ => and_congr_right fun _ => fromUtf8Lossy_take_eq_self l 63

theorem length_characterStrings_le (text : Text) :
    (DnsPacketEncoder.characterStrings text).length ≤ 65535 ↔ (utf8 text).length ≤ 65279 := by
  by_cases hnil : utf8 text = []
  · rw [DnsPacketEncoder.characterStrings, if_pos hnil, hnil]
    decide
  · have hstrings : DnsPacketEncoder.characterStrings text = stringsBytes (chunks 255 (utf8 text)) := if_neg hnil
    have hupper := length_chunks_lt (n := 255) (by omega) (utf8 text)
    have hlower := length_le_chunks (n := 255) (by omega) (utf8 text)
    rw [hstrings, length_stringsBytes, flatten_chunks (by omega)]
    omega

/-- What the fields of a line have to be, beside an owner that is carried. -/
def FieldsCarried (domain : Text) (fields : List Text) : ZoneType → Prop
  | .a | .aaaa => True
  | .cname | .ns | .ptr => SizedName (stripTrailingDot (joinSpaces fields))
  | .mx =>
    let exchange := stripTrailingDot (fields.getD 1 [])
    SizedName exchange ∧ 3 ≤ (2 + (((Layout.start.name domain).advance 12).nameBytes exchange).length) % 65536
  | .txt =>
    let text := trimMatches '\x22' (joinSpaces fields)
    CutsBetween 255 text ∧ (utf8 text).length ≤ 65279
  | .srv =>
    let target := stripTrailingDot (fields.getD 3 [])
    SizedName target ∧ 6 ≤ (6 + (Layout.plainBytes target).length) % 65536
  | .caa =>
    let tag := fields.getD 1 []
    let value := trimMatches '\x22' (joinSpaces (fields.drop 2))
    FitsCut 255 tag ∧ 2 + min (utf8 tag).length 255 + (utf8 value).length ≤ 65535
  | .soa => SizedName (stripTrailingDot (fields.getD 0 [])) ∧ SizedName (stripTrailingDot (fields.getD 1 []))

/-- What a line has to be for its record to be carried. -/
def LineCarried (rt : Runtime) (line : Text) : Prop :=
  match splitWhitespace (trim line) with
  | owner :: _ :: recordType :: fields =>
    let domain := stripTrailingDot (rt.toLowercase owner)
    SizedName domain ∧ ∀ kind, ZoneType.ofText recordType = some kind → FieldsCarried domain fields kind
  | _ => True

/-! ## Lines and records -/

section Record
variable {domain : Text} {ttl : UInt32} {fields : List Text} {kind : ZoneType} {r : DnsRecord}

theorem DataRecord.isZoneData (h : DataRecord domain ttl fields kind r) : Dns.isZoneData r = true := by
  cases h <;> rfl

theorem length_rdataBytes_mx (preference : UInt16) (exchange : Text) :
    (Layout.start.rdataBytes (.mx domain preference exchange ttl)).length =
      2 + (((Layout.start.name domain).advance 12).nameBytes exchange).length := by
  change (bytes16 preference ++ ((((Layout.start.name domain).advance 10).advance 2).nameBytes exchange ++ [])).length = _
  rw [List.append_nil, Layout.advance_advance, List.length_append, bytes16_length]

theorem length_rdataBytes_srv (priority weight port : UInt16) (target : Text) :
    (Layout.start.rdataBytes (.srv domain priority weight port target ttl)).length =
      6 + (Layout.plainBytes target).length := by
  simp only [Layout.rdataBytes, recordFields, Layout.fieldsBytes, Layout.fieldBytes, List.length_append, bytes16_length,
    List.length_nil]
  omega

theorem length_rdataBytes_caa (flags : UInt8) (tag value : Text) :
    (Layout.start.rdataBytes (.caa domain flags tag value ttl)).length =
      2 + min (utf8 tag).length 255 + (utf8 value).length := by
  simp only [Layout.rdataBytes, recordFields, Layout.fieldsBytes, Layout.fieldBytes, List.length_append,
    List.length_singleton, List.length_take, List.length_nil]
  omega

/-- The names, texts and lengths of a record, from the fields of its line. -/
theorem DataRecord.fieldsCarried_iff (h : DataRecord domain ttl fields kind r) :
    (∀ n ∈ (recordFields r).filterMap Field.name?, SizedName n) ∧ TextSurvives r ∧
      LengthRead (Layout.start.rdataBytes r).length r ↔ FieldsCarried domain fields kind := by
  have hone : ∀ n : Text, (∀ n' ∈ [n], SizedName n') ∧ True ∧ True ↔ SizedName n := by simp
  cases h with
  | a | aaaa => exact iff_of_true ⟨List.forall_mem_nil _, trivial, trivial⟩ trivial
  | cname | ns | ptr => exact hone _
  | mx field exchange rest preference =>
    rw [length_rdataBytes_mx]
    exact and_congr List.forall_mem_singleton (and_iff_right trivial)
  | txt fields =>
    refine (and_iff_right (List.forall_mem_nil _)).trans (and_congr ?_ ?_)
    · exact flatMap_lossy_chunks_eq_self (by omega) _
    · have hbytes : Layout.start.rdataBytes (.txt domain (trimMatches '\x22' (joinSpaces fields)) ttl) =
          DnsPacketEncoder.characterStrings (trimMatches '\x22' (joinSpaces fields)) := List.append_nil _
      rw [hbytes]
      exact length_characterStrings_le _
  | srv field field' field'' target rest priority weight port =>
    rw [length_rdataBytes_srv]
    exact and_congr List.forall_mem_singleton (and_iff_right trivial)
  | caa field tag first rest flags =>
    rw [length_rdataBytes_caa]
    exact (and_iff_right (List.forall_mem_nil _)).trans (and_congr_left' (fromUtf8Lossy_take_eq_self tag 255))
  | soa mname rname rest =>
    have htwo : ∀ n n' : Text, (∀ m ∈ [n, n'], SizedName m) ∧ True ∧ True ↔ SizedName n ∧ SizedName n' := by simp
    exact htwo _ _

end Record

section Stored
variable {rt : Runtime} {header : DnsHeader} {line k : Text} {r : DnsRecord}

theorem carriedAlone_iff_lineCarried (h : lineRecord rt line = some (k, r)) :
    CarriedAlone header r ↔ LineCarried rt line := by
  obtain ⟨owner, ttl, recordType, first, rest, seconds, kind, hfields, _, hkind, rfl, hdata⟩ :=
    parseLine_ok (parseLine_of_lineRecord h)
  have hnames : (∀ n ∈ recordNames r, GoodName n) ↔ SizedName (stripTrailingDot (rt.toLowercase owner)) ∧
      ∀ n ∈ (recordFields r).filterMap Field.name?, SizedName n := by
    simp only [recordNames, List.forall_mem_cons, goodName_iff_sizedName, hdata.domain_eq]
  rw [carriedAlone_iff hdata.isZoneData, hnames, and_assoc, hdata.fieldsCarried_iff]
  simp only [LineCarried, hfields, hkind, Option.some.injEq, forall_eq']

end Stored

/-- **Every stored record is carried by a message exactly when every line that the loader takes is of a size
that the encoder keeps.** -/
theorem stored_records_carried_iff (rt : Runtime) (header : DnsHeader) (path content : Text) :
    (∀ k rs, (loadZoneFile rt path content).zone.lookup k = some rs → ∀ r ∈ rs, CarriedAlone header r) ↔
      ∀ line ∈ lines content, (lineRecord rt line).isSome = true → LineCarried rt line := by
  constructor
  · intro h line hmem hsome
    obtain ⟨⟨k, r⟩, hrecord⟩ := Option.isSome_iff_exists.mp hsome
    obtain ⟨rs, hlookup, hr⟩ := exists_lookup_loadZoneFile.mpr (List.mem_filterMap.mpr ⟨line, hmem, hrecord⟩)
    exact (carriedAlone_iff_lineCarried hrecord).mp (h k rs hlookup r hr)
  · intro h k rs hlookup r hr
    obtain ⟨line, hmem, hrecord⟩ := List.mem_filterMap.mp (exists_lookup_loadZoneFile.mp ⟨rs, hlookup, hr⟩)
    exact (carriedAlone_iff_lineCarried hrecord).mpr (h line hmem (Option.isSome_of_mem hrecord))

/-- An address of an owner with a label of 64 bytes. -/
def longLabel : Text := List.replicate 64 'a' ++ " 60 A 10.0.0.1".toList

/-- The owner of a stored record comes back one byte shorter. -/
theorem long_label_cut : (loadZoneFile .ascii ['z'] longLabel).zone.lookup (List.replicate 64 'a') =
      some [.a (List.replicate 64 'a') ⟨10, 0, 0, 1⟩ 60] ∧
    DnsPacket.fromBytes (loneAnswer ⟨7, 0x8400, 0, 1, 0, 0⟩ (.a (List.replicate 64 'a') ⟨10, 0, 0, 1⟩ 60)).toBytes =
      .ok (loneAnswer ⟨7, 0x8400, 0, 1, 0, 0⟩ (.a (List.replicate 63 'a') ⟨10, 0, 0, 1⟩ 60)) := by
  decide

end MiniDns
