import MiniDns.Dnssec
import MiniDns.Dns.EncoderLayout
import MiniDns.Lib.Framing
import MiniDns.ZoneFile

/-! The rdata that is signed beside the rdata that is sent. `canonical_rdata` and `encode_record` write the same fields
on their own; the names are compared for an encoder that can neither point to an earlier name nor remember one. -/
namespace MiniDns
open Lib Dns DnsPacketEncoder DnsRecord
set_option autoImplicit false

/-! ## Names -/

/-- A name of ASCII characters, with at most 63 in a label. -/
structure AsciiName (name : Text) : Prop where
  ascii : ∀ c ∈ name, c.toNat < 0x80
  short : ∀ l ∈ splitDots name, l.length ≤ 63

/-- A length octet and the label for each label, then the octet of the root. -/
def wireName (name : Text) : Bytes :=
  ((nameLabels name).flatMap fun l => UInt8.ofNat (utf8 l).length :: utf8 l) ++ [0]

section Names
variable {rt : Runtime} {name : Text}

theorem lower_ascii (hascii : ∀ c ∈ name, c.toNat < 0x80) : ∀ c ∈ name.map Char.toLower, c.toNat < 0x80 := by
  intro c hc
  obtain ⟨d, hd, rfl⟩ := List.mem_map.mp hc
  exact toLower_ascii (hascii d hd)

theorem length_wireName (hascii : ∀ c ∈ name, c.toNat < 0x80) :
    (wireName name).length = if name = [] then 1 else name.length + 2 := by
  unfold wireName nameLabels
  split
  · rfl
  · have hlabels : ((splitDots name).map fun l => (UInt8.ofNat (utf8 l).length :: utf8 l).length) =
        (splitDots name).map fun l => l.length + 1 := by
      refine List.map_congr_left fun l hl => ?_
      rw [List.length_cons, utf8_ascii fun c hc => hascii c (mem_of_mem_splitDots hl hc), List.length_map]
    rw [List.length_append, List.length_flatMap, hlabels, sum_length_splitDots]
    rfl

theorem nameLabels_lower (name : Text) :
    nameLabels (name.map Char.toLower) = (nameLabels name).map (List.map Char.toLower) := by
  by_cases hne : name = []
  · rw [hne]
    rfl
  · rw [nameLabels, nameLabels, if_neg hne, if_neg (mt List.map_eq_nil_iff.mp hne), splitDots_map toLower_eq_dot]

theorem mem_splitDots_of_mem_nameLabels {l : Text} (h : l ∈ nameLabels name) : l ∈ splitDots name := by
  unfold nameLabels at h
  split at h
  · cases h
  · exact h

theorem canonicalName_eq (hascii : ∀ c ∈ name, c.toNat < 0x80) :
    canonicalName rt name = wireName ((trimEndDots name).map Char.toLower) := by
  have hbegins := (trimEndDots_begins name).subset
  rw [canonicalName, wireName, nameLabels_lower, List.flatMap_map, nameLabels]
  dsimp only
  split
  · rfl
  · rw [List.append_cancel_right_eq]
    refine List.flatMap_congr fun l hl => ?_
    rw [rt.toLowercase_ascii l fun c hc => hascii c (hbegins (mem_of_mem_splitDots hl hc))]

theorem plainBytes_lower (h : AsciiName name) :
    Layout.plainBytes (rt.toLowercase name) = wireName (name.map Char.toLower) := by
  rw [rt.toLowercase_ascii name h.ascii, Layout.plainBytes, wireName, nameLabels_lower, List.flatMap_map,
    List.flatMap_map, List.append_cancel_right_eq]
  refine List.flatMap_congr fun l hl => ?_
  replace hl := mem_splitDots_of_mem_nameLabels hl
  have hascii := lower_ascii fun c hc => h.ascii c (mem_of_mem_splitDots hl hc)
  have hshort : (utf8 (l.map Char.toLower)).length ≤ 63 := by
    rw [utf8_ascii hascii, List.length_map, List.length_map]
    exact h.short l hl
  rw [labelBytes, Nat.min_eq_left hshort, List.take_length]

theorem length_canonicalName_le (rt : Runtime) (h : AsciiName name) :
    (canonicalName rt name).length ≤ (Layout.plainBytes (rt.toLowercase name)).length ∧
      ((canonicalName rt name).length = (Layout.plainBytes (rt.toLowercase name)).length →
        name.getLast? ≠ some '.') := by
  -- the canonical form drops the dots at the end, which the encoder writes as empty labels
  have hbegins := trimEndDots_begins name
  rw [canonicalName_eq h.ascii, plainBytes_lower h, length_wireName (lower_ascii h.ascii),
    length_wireName (lower_ascii fun c hc => h.ascii c (hbegins.subset hc))]
  simp only [← List.length_eq_zero_iff, List.length_map]
  have hle := hbegins.length_le
  refine ⟨by split <;> split <;> omega, fun hlen => ?_⟩
  refine trimEndDots_eq_self_iff.mp (hbegins.eq_of_length ?_)
  split at hlen <;> split at hlen <;> omega

theorem canonicalName_eq_plain_iff (h : AsciiName name) :
    canonicalName rt name = Layout.plainBytes (rt.toLowercase name) ↔ name.getLast? ≠ some '.' := by
  constructor
  · exact fun heq => (length_canonicalName_le rt h).2 (congrArg List.length heq)
  · intro hlast
    rw [canonicalName_eq h.ascii, plainBytes_lower h, trimEndDots_eq_self_iff.mpr hlast]

end Names

/-! ## An encoder without compression -/

/-- No name can be pointed to, and none that is written now will be. -/
structure Uncompressed (e : DnsPacketEncoder) : Prop where
  nameless : e.nameOffsets = fun _ => none
  beyond : 0x3FFF < e.buf.length

structure BareLayout (L : Layout) : Prop where
  nameless : L.names = fun _ => none
  beyond : 0x3FFF < L.pos

def plainField : Field → Bytes
  | .raw bytes => bytes
  | .name n | .plain n => Layout.plainBytes n

namespace BareLayout
variable {L : Layout}

theorem advance (h : BareLayout L) (n : ℕ) : BareLayout (L.advance n) :=
  ⟨h.nameless, h.beyond.trans_le (Nat.le_add_right _ _)⟩

theorem labelsBytes_eq (h : BareLayout L) (ls : List Text) : L.labelsBytes ls = ls.flatMap labelBytes ++ [0] := by
  induction ls generalizing L with
  | nil => rfl
  | cons l ls ih => rw [Layout.labelsBytes, h.nameless, ih (h.advance _), List.flatMap_cons, List.append_assoc]

theorem labels (h : BareLayout L) (ls : List Text) : BareLayout (L.labels ls).1 := by
  induction ls generalizing L with
  | nil => exact h.advance 1
  | cons l ls ih =>
    rw [Layout.labels, h.nameless]
    -- the position of the name is beyond what a pointer can hold
    dsimp only
    rw [Layout.remember, if_neg (not_le.mpr h.beyond)]
    exact ih (h.advance _)

theorem field (h : BareLayout L) (f : Field) : BareLayout (L.field f) := by
  cases f with
  | raw bytes => exact h.advance _
  | name n => exact h.labels _
  | plain n => exact h.advance _

theorem fieldBytes_eq (h : BareLayout L) (f : Field) : L.fieldBytes f = plainField f := by
  cases f with
  | raw bytes => rfl
  | name n => exact h.labelsBytes_eq _
  | plain n => rfl

theorem fieldsBytes_eq (h : BareLayout L) (fs : List Field) : L.fieldsBytes fs = fs.flatMap plainField := by
  induction fs generalizing L with
  | nil => rfl
  | cons f fs ih => rw [Layout.fieldsBytes, h.fieldBytes_eq, ih (h.field f), List.flatMap_cons]

end BareLayout

def lowerNames (rt : Runtime) : DnsRecord → DnsRecord
  | .cname domain aliasName ttl => .cname domain (rt.toLowercase aliasName) ttl
  | .mx domain preference exchange ttl => .mx domain preference (rt.toLowercase exchange) ttl
  | .ns domain nameserver ttl => .ns domain (rt.toLowercase nameserver) ttl
  | .soa domain mname rname serial refresh retry expire minimum ttl =>
    .soa domain (rt.toLowercase mname) (rt.toLowercase rname) serial refresh retry expire minimum ttl
  | .srv domain priority weight port target ttl => .srv domain priority weight port (rt.toLowercase target) ttl
  | .ptr domain ptrdname ttl => .ptr domain (rt.toLowercase ptrdname) ttl
  | r => r

def sentRdata (rt : Runtime) (r : DnsRecord) : Bytes := (recordFields (lowerNames rt r)).flatMap plainField

/-- Behind the head of the record, the encoder writes this rdata with its length. -/
def Emits (rt : Runtime) (e : DnsPacketEncoder) (r : DnsRecord) (rdata : Bytes) : Prop :=
  (e.encodeRecord (lowerNames rt r)).buf = (e.encodeRecordHeader r.domain r.recordType r.ttl).buf ++ frame rdata

theorem lowerNames_head (rt : Runtime) (r : DnsRecord) : (lowerNames rt r).domain = r.domain ∧
    (lowerNames rt r).recordType = r.recordType ∧ (lowerNames rt r).ttl = r.ttl ∧
      recordClass (lowerNames rt r) = recordClass r := by
  cases r <;> exact ⟨rfl, rfl, rfl, rfl⟩

theorem emits_iff {rt : Runtime} {e : DnsPacketEncoder} {r : DnsRecord} {rdata : Bytes} (he : Uncompressed e)
    (hclass : recordClass r = 1) : Emits rt e r rdata ↔ rdata = sentRdata rt r := by
  obtain ⟨hdomain, htype, httl, hcls⟩ := lowerNames_head rt r
  -- nothing can be pointed to, so the layout knows no name either
  let L : Layout := ⟨e.buf.length, fun _ => none⟩
  have hbare : BareLayout L := ⟨rfl, he.beyond⟩
  have hat : e.At L := ⟨rfl, he.nameless⟩
  have hhead : (e.encodeRecordHeader r.domain r.recordType r.ttl).buf =
      e.buf ++ (L.nameBytes r.domain ++ bytes16 r.recordType ++ bytes16 1 ++ bytes32 r.ttl) :=
    (writes_head r.domain r.recordType 1 r.ttl e L hat).1
  have hrecord : (e.encodeRecord (lowerNames rt r)).buf = e.buf ++ L.recordBytes (lowerNames rt r) :=
    (writes_encodeRecord (lowerNames rt r) e L hat).1
  have hrdata : L.rdataBytes (lowerNames rt r) = sentRdata rt r := ((hbare.labels _).advance 10).fieldsBytes_eq _
  rw [Emits, hrecord, hhead, Layout.recordBytes, hrdata, hdomain, htype, httl, hcls, hclass,
    List.append_assoc _ (bytes16 _) (sentRdata rt r), List.append_assoc e.buf, List.append_cancel_left_eq,
    List.append_cancel_left_eq]
  refine ⟨fun h => ?_, fun h => by rw [h, frame]⟩
  have hframe : frame (sentRdata rt r) ++ [] = frame rdata ++ [] := congrArg (· ++ []) h
  obtain ⟨_, heq⟩ := frame_append_eq_iff.mp hframe
  rw [List.append_nil, List.append_nil] at heq
  exact heq.symm

/-! ## Signed and sent -/

def embeddedNames : DnsRecord → List Text
  | .cname _ name _ | .mx _ _ name _ | .ns _ name _ | .srv _ _ _ _ name _ | .ptr _ name _ => [name]
  | .soa _ mname rname .. => [mname, rname]
  | _ => []

/-- A record of a zone file, or a DNSKEY record. -/
def IsSignedRecord (rt : Runtime) (r : DnsRecord) : Prop :=
  (∃ path content owner records, (loadZoneFile rt path content).zone.lookup owner = some records ∧ r ∈ records) ∨
    r.recordType = typeDnskey

structure WithinLimits (r : DnsRecord) : Prop where
  names : ∀ n ∈ embeddedNames r, AsciiName n
  tag : ∀ owner flags tag value ttl, r = .caa owner flags tag value ttl → (utf8 tag).length ≤ 255

/-- A text is not empty, and no name of the rdata ends in a dot. -/
def SignedAsSent : DnsRecord → Prop
  | .txt _ text _ => text ≠ []
  | r => ∀ n ∈ embeddedNames r, n.getLast? ≠ some '.'

/-- The types that a zone file can have, and DNSKEY. -/
def HasCanonicalRdata : DnsRecord → Prop
  | .opt .. | .rrsig .. | .ds .. | .nsec .. => False
  | _ => True

theorem hasCanonicalRdata_of_signed {rt : Runtime} {r : DnsRecord} (h : IsSignedRecord rt r) : HasCanonicalRdata r := by
  obtain ⟨path, content, owner, records, hlookup, hr⟩ | htype := h
  · obtain ⟨line, _, hline⟩ := List.mem_filterMap.mp (exists_lookup_loadZoneFile.mp ⟨records, hlookup, hr⟩)
    obtain ⟨_, _, _, _, _, _, _, _, _, _, _, hdata⟩ := parseLine_ok (parseLine_of_lineRecord hline)
    cases hdata <;> trivial
  · cases r with
    | opt | rrsig | ds | nsec => cases htype
    | _ => trivial

section Rdata
variable {rt : Runtime}

theorem last_name_iff (rt : Runtime) {name : Text} (h : AsciiName name) (front : Bytes) :
    front ++ canonicalName rt name = front ++ Layout.plainBytes (rt.toLowercase name) ↔
      ∀ n ∈ [name], n.getLast? ≠ some '.' := by
  rw [List.append_cancel_left_eq, List.forall_mem_singleton, canonicalName_eq_plain_iff h]

theorem two_names_iff (rt : Runtime) {mname rname : Text} (hmname : AsciiName mname) (hrname : AsciiName rname)
    (rest : Bytes) :
    canonicalName rt mname ++ canonicalName rt rname ++ rest =
        Layout.plainBytes (rt.toLowercase mname) ++ Layout.plainBytes (rt.toLowercase rname) ++ rest ↔
      ∀ n ∈ [mname, rname], n.getLast? ≠ some '.' := by
  rw [List.append_cancel_right_eq, List.forall_mem_cons, List.forall_mem_singleton]
  constructor
  · intro h
    -- neither name is longer in the canonical form, so equal lengths in all are equal lengths of each
    have hlen := congrArg List.length h
    rw [List.length_append, List.length_append] at hlen
    obtain ⟨hmle, hmeq⟩ := length_canonicalName_le rt hmname
    obtain ⟨hrle, hreq⟩ := length_canonicalName_le rt hrname
    exact ⟨hmeq (by omega), hreq (by omega)⟩
  · rintro ⟨hm, hr⟩
    rw [(canonicalName_eq_plain_iff hmname).mpr hm, (canonicalName_eq_plain_iff hrname).mpr hr]

theorem text_eq_iff {text : Text} :
    ((chunks 255 (utf8 text)).flatMap fun chunk => UInt8.ofNat chunk.length :: chunk) = characterStrings text ↔
      text ≠ [] := by
  unfold characterStrings
  split
  · rename_i hnil
    refine iff_of_false ?_ (not_not.mpr (utf8_eq_nil.mp hnil))
    rw [hnil]
    exact (List.cons_ne_nil _ _).symm
  · rename_i hne
    exact iff_of_true rfl (mt utf8_eq_nil.mpr hne)

theorem canonicalRdata_eq_sentRdata_iff {r : DnsRecord} (hr : HasCanonicalRdata r) (hlimits : WithinLimits r) :
    canonicalRdata rt r = sentRdata rt r ↔ SignedAsSent r := by
  obtain ⟨hnames, htag⟩ := hlimits
  rw [sentRdata]
  cases r with
  | a | aaaa | dnskey =>
    refine iff_of_true ?_ (List.forall_mem_nil _)
    simp [canonicalRdata, lowerNames, recordFields, plainField]
  | cname _ name _ | ns _ name _ | ptr _ name _ =>
    refine Iff.trans ?_ (last_name_iff rt (hnames name List.mem_cons_self) [])
    simp [canonicalRdata, lowerNames, recordFields, plainField]
  | mx _ preference name _ =>
    refine Iff.trans ?_ (last_name_iff rt (hnames name List.mem_cons_self) (bytes16 preference))
    simp [canonicalRdata, lowerNames, recordFields, plainField]
  | srv _ priority weight port name _ =>
    refine Iff.trans ?_
      (last_name_iff rt (hnames name List.mem_cons_self) (bytes16 priority ++ bytes16 weight ++ bytes16 port))
    simp [canonicalRdata, lowerNames, recordFields, plainField]
  | soa _ mname rname serial refresh retry expire minimum _ =>
    refine Iff.trans ?_ (two_names_iff rt (hnames mname List.mem_cons_self)
      (hnames rname (List.mem_cons_of_mem _ List.mem_cons_self))
      (bytes32 serial ++ bytes32 refresh ++ bytes32 retry ++ bytes32 expire ++ bytes32 minimum))
    simp [canonicalRdata, lowerNames, recordFields, plainField]
  | txt _ text _ =>
    refine Iff.trans ?_ text_eq_iff
    simp [canonicalRdata, lowerNames, recordFields, plainField]
  | caa _ flags tag value _ =>
    -- the encoder cuts a tag at 255 bytes, the canonical form does not
    refine iff_of_true ?_ (List.forall_mem_nil _)
    simp [canonicalRdata, lowerNames, recordFields, plainField, Nat.min_eq_left (htag _ _ _ _ _ rfl)]
  | opt | rrsig | ds | nsec => cases hr

end Rdata

/-- **For every record of a zone file and every DNSKEY record, the rdata that is signed is the rdata that is sent, with
its names in lower case and uncompressed, exactly if a text is not empty and no name ends in a dot.** -/
theorem signed_as_sent_iff (rt : Runtime) (e : DnsPacketEncoder) (r : DnsRecord) (he : Uncompressed e)
    (hr : IsSignedRecord rt r) (hlimits : WithinLimits r) :
    Emits rt e r (canonicalRdata rt r) ↔ SignedAsSent r := by
  have hkind := hasCanonicalRdata_of_signed hr
  -- only an OPT record has another class
  have hclass : recordClass r = 1 := by
    cases r with
    | opt => cases hkind
    | _ => rfl
  rw [emits_iff he hclass, canonicalRdata_eq_sentRdata_iff hkind hlimits]

def longEncoder : DnsPacketEncoder := ⟨List.replicate 0x4000 0, fun _ => none⟩

theorem longEncoder_uncompressed : Uncompressed longEncoder :=
  ⟨rfl, by rw [longEncoder, List.length_replicate]; decide⟩

theorem signed_as_sent_iff_nameserver :
    (loadZoneFile .ascii [] "a 60 NS N.b.".toList).zone.lookup ['a'] = some [.ns ['a'] ['N', '.', 'b'] 60] ∧
      Emits .ascii longEncoder (.ns ['a'] ['N', '.', 'b'] 60)
        (canonicalRdata .ascii (.ns ['a'] ['N', '.', 'b'] 60)) := by
  have hloaded : (loadZoneFile .ascii [] "a 60 NS N.b.".toList).zone.lookup ['a'] =
      some [.ns ['a'] ['N', '.', 'b'] 60] := by
    decide
  have hname : AsciiName ['N', '.', 'b'] := ⟨by simp, by decide⟩
  refine ⟨hloaded, (signed_as_sent_iff .ascii longEncoder (.ns ['a'] ['N', '.', 'b'] 60) longEncoder_uncompressed
    (.inl ⟨_, _, _, _, hloaded, List.mem_cons_self⟩) ⟨List.forall_mem_singleton.mpr hname, nofun⟩).mpr ?_⟩
  exact List.forall_mem_singleton.mpr (by decide)

/-- The line `a 60 TXT ""`: one empty character string is sent, and nothing is signed. -/
theorem empty_text_signed_as_nothing :
    (loadZoneFile .ascii [] "a 60 TXT \"\"".toList).zone.lookup ['a'] = some [.txt ['a'] [] 60] ∧
      Emits .ascii longEncoder (.txt ['a'] [] 60) [0] ∧ canonicalRdata .ascii (.txt ['a'] [] 60) = [] ∧
      ¬ Emits .ascii longEncoder (.txt ['a'] [] 60) (canonicalRdata .ascii (.txt ['a'] [] 60)) := by
  refine ⟨by decide, (emits_iff longEncoder_uncompressed rfl).mpr rfl, rfl, fun h => ?_⟩
  have heq := (emits_iff longEncoder_uncompressed rfl).mp h
  exact absurd heq (by decide)

end MiniDns
