import MiniDns.Dns.Codec

/-! A record as the only answer of a message. It is read back exactly when its names and texts survive and
the length field of its rdata, which counts modulo 65536, says enough to the reader. -/
namespace MiniDns.Dns
open Lib Lib.Outcome DnsRecord DnsPacket DnsPacketEncoder
set_option autoImplicit false

/-! ## Character strings that are cut off -/

theorem length_stringsBytes (cs : List Bytes) : (stringsBytes cs).length = cs.flatten.length + cs.length := by
  induction cs with
  | nil => rfl
  | cons c cs ih =>
    simp only [stringsBytes, List.flatMap_cons, List.length_append, List.length_cons, List.flatten_cons] at ih ⊢
    omega

theorem read_of_take_zero {before bytes : Bytes} {text read : Text} {fuel : ℕ}
    (h : characterStringsLoop (before ++ bytes.take 0) fuel before.length text = ok read) : read = text ++ [] := by
  cases fuel with
  | zero => cases h
  | succ fuel =>
    rw [List.take_zero, List.append_nil, characterStringsLoop_end] at h
    rw [List.append_nil, Outcome.ok.inj h]

/-- What is read from the front of some character strings is made of whole ones. -/
theorem characterStringsLoop_take (cs : List Bytes) (hcs : ∀ c ∈ cs, c.length ≤ 255) (before : Bytes)
    (text read : Text) (fuel n : ℕ) (hn : n ≤ (stringsBytes cs).length)
    (h : characterStringsLoop (before ++ (stringsBytes cs).take n) fuel before.length text = ok read) :
    ∃ k, read = text ++ (cs.take k).flatMap fromUtf8Lossy ∧ (stringsBytes (cs.take k)).length = n := by
  induction cs generalizing before text fuel n with
  | nil =>
    obtain rfl : n = 0 := Nat.le_zero.mp hn
    exact ⟨0, read_of_take_zero h, rfl⟩
  | cons c cs ih =>
    rw [List.forall_mem_cons] at hcs
    cases n with
    | zero => exact ⟨0, read_of_take_zero h, rfl⟩
    | succ n =>
      cases fuel with
      | zero => cases h
      | succ fuel =>
        have hbytes : stringsBytes (c :: cs) = UInt8.ofNat c.length :: (c ++ stringsBytes cs) := rfl
        have hdata : before ++ (stringsBytes (c :: cs)).take (n + 1) =
            before ++ [UInt8.ofNat c.length] ++ (c ++ stringsBytes cs).take n := by
          simp [hbytes]
        rw [hdata, characterStringsLoop_cons hcs.1] at h
        rw [hbytes, List.length_cons, List.length_append] at hn
        split at h
        · cases h
        · rename_i hwhole
          rw [List.length_take, List.length_append] at hwhole
          have htake : (c ++ stringsBytes cs).take n = c ++ (stringsBytes cs).take (n - c.length) := by
            rw [List.take_append, List.take_of_length_le (by omega)]
          have hlength : before.length + 1 + c.length = (before ++ [UInt8.ofNat c.length] ++ c).length := by
            simp only [List.length_append, List.length_singleton]
          rw [htake, List.take_left, hlength, ← List.append_assoc] at h
          obtain ⟨k, hread, hlen⟩ := ih hcs.2 (before ++ [UInt8.ofNat c.length] ++ c) (text ++ fromUtf8Lossy c) fuel
            (n - c.length) (by omega) h
          refine ⟨k + 1, ?_, ?_⟩
          · rw [hread]
            simp
          · change ((UInt8.ofNat c.length :: c) ++ stringsBytes (cs.take k)).length = n + 1
            rw [List.length_append, List.length_cons, hlen]
            omega

theorem length_flatMap_lossy_le {cs : List Bytes} (h : ∀ c ∈ cs, (utf8 (fromUtf8Lossy c)).length ≤ c.length + 8) :
    (utf8 (cs.flatMap fromUtf8Lossy)).length ≤ cs.flatten.length + 8 * cs.length := by
  induction cs with
  | nil => simp
  | cons c cs ih =>
    rw [List.forall_mem_cons] at h
    have hrest := ih h.2
    simp only [List.flatMap_cons, utf8_append, List.length_append, List.flatten_cons, List.length_cons]
    omega

/-- Character strings of more than 65535 bytes are not read back as the text that they were made of: the
reader gets more than 65535 bytes less, and the broken characters are too few to make up for it. -/
theorem parseCharacterStrings_wrapped {text : Text} (hlong : 65535 < (characterStrings text).length) :
    parseCharacterStrings ((characterStrings text).take ((characterStrings text).length % 65536)) ≠ ok text := by
  have hne : utf8 text ≠ [] := by
    intro hnil
    rw [characterStrings, if_pos hnil] at hlong
    exact absurd hlong (by decide)
  have hstrings : characterStrings text = stringsBytes (chunks 255 (utf8 text)) := if_neg hne
  rw [hstrings] at hlong ⊢
  intro hread
  obtain ⟨k, htext, hlen⟩ := characterStringsLoop_take (chunks 255 (utf8 text))
    (fun c hc => length_le_of_mem_chunks (by omega) hc) [] [] text _ _ (Nat.mod_le _ _) hread
  have hpiece : ∀ c ∈ (chunks 255 (utf8 text)).take k, (utf8 (fromUtf8Lossy c)).length ≤ c.length + 8 := by
    intro c hc
    obtain ⟨i, rfl⟩ := exists_of_mem_chunks (by omega) (List.mem_of_mem_take hc)
    exact length_lossy_piece_le text i 255
  have hbytes := length_flatMap_lossy_le hpiece
  have hcount := length_chunks_lt (n := 255) (by omega) (utf8 text)
  have htotal := length_stringsBytes (chunks 255 (utf8 text))
  rw [flatten_chunks (by omega)] at htotal
  rw [length_stringsBytes] at hlen
  rw [List.nil_append] at htext
  rw [← htext] at hbytes
  have hfew : ((chunks 255 (utf8 text)).take k).length ≤ (chunks 255 (utf8 text)).length := List.length_take_le' k _
  omega

/-! ## Rdata and the length that is read -/

/-- The types that a zone can have as text, each of which the server also writes. -/
def isZoneData : DnsRecord → Bool
  | .a .. | .aaaa .. | .cname .. | .mx .. | .txt .. | .ns .. | .soa .. | .srv .. | .ptr .. | .caa .. => true
  | .opt .. | .dnskey .. | .rrsig .. | .ds .. | .nsec .. => false

/-- What the length of the rdata has to be for a reader who takes it modulo 65536. -/
def LengthRead (len : ℕ) : DnsRecord → Prop
  | .mx .. => 3 ≤ len % 65536
  | .srv .. => 6 ≤ len % 65536
  | .txt .. | .caa .. => len ≤ 65535
  | _ => True

section Wrapped
variable {buf : Bytes} {start len : ℕ}

theorem lengthRead_of_le (r : DnsRecord) (h : FieldsAt buf (recordFields r) start (start + len)) (hle : len ≤ 65535) :
    LengthRead len r := by
  have hmod : len % 65536 = len := Nat.mod_eq_of_lt (by omega)
  cases r with
  | mx d preference n t =>
    obtain ⟨_, m, hname, hend⟩ := h
    have hlt := (parseQname_end hname).1
    have hend : m = start + len := hend
    rw [bytes16_length] at hlt
    change 3 ≤ len % 65536
    omega
  | srv d priority weight port n t =>
    obtain ⟨_, _, _, m, hname, hend⟩ := h
    have hlt := (parseQname_end hname).1
    have hend : m = start + len := hend
    simp only [bytes16_length] at hlt
    change 6 ≤ len % 65536
    omega
  | txt | caa => exact hle
  | _ => trivial

theorem caa_wrapped {domain tag value : Text} {flags : UInt8} {ttl : UInt32}
    (h : FieldsAt buf (recordFields (.caa domain flags tag value ttl)) start (start + len)) (hlong : 65535 < len) :
    rdataCaa buf domain ttl start (len % 65536) ≠ ok (.caa domain flags tag value ttl) := by
  intro hread
  obtain ⟨_, hlen, _, hvalue, hend⟩ := caa_fieldsAt h
  obtain ⟨_, tagLen, hbyte, hle, heq⟩ := rdataCaa_ok hread
  rw [byteAt_of_raw hlen, Outcome.ok.injEq] at hbyte
  have hsize : tagLen.toNat = min (utf8 tag).length 255 := by rw [← hbyte, byte_toNat _ (by omega)]
  -- the value that is read is the front of the one that was written
  have hsame := (DnsRecord.caa.inj heq).2.2.2.1
  rw [hsize] at hsame hle
  have hcut := take_window hvalue (show len % 65536 - (2 + min (utf8 tag).length 255) ≤ (utf8 value).length by omega)
  rw [hcut] at hsame
  have hshort := length_lossy_piece_le value 0 (len % 65536 - (2 + min (utf8 tag).length 255))
  rw [List.drop_zero, ← hsame, List.length_take] at hshort
  omega

/-- The rdata of a zone record, read with the length field that was written for it. -/
theorem parseRdata_wrapped (r : DnsRecord) (hzone : isZoneData r = true)
    (h : FieldsAt buf (recordFields r) start (start + len)) (hfit : start + len ≤ buf.length) :
    parseRdata buf r.domain r.ttl start (len % 65536) r.recordType (recordClass r) = some (ok r) ↔
      TextSurvives r ∧ LengthRead len r := by
  have hread := parseRdata_of_fieldsAt r h hfit
  by_cases hle : len ≤ 65535
  · rw [Nat.mod_eq_of_lt (by omega), hread]
    simp only [Option.some.injEq, Outcome.ok.injEq, reread_eq_self, lengthRead_of_le r h hle, and_true]
  · have hlong : 65535 < len := by omega
    cases r with
    | a d addr t =>
      have hlen : start + 4 = start + len := h.2
      omega
    | aaaa d addr t =>
      have hlen : start + 16 = start + len := addr.size ▸ h.2
      omega
    | cname | ns | ptr | soa => exact iff_of_true hread ⟨trivial, trivial⟩
    | mx d preference n t =>
      have hok : rdataMx buf d t start len = ok (.mx d preference n t) := Option.some.inj hread
      rw [rdataMx, if_neg (by omega)] at hok
      change some (rdataMx buf d t start (len % 65536)) = _ ↔ True ∧ 3 ≤ len % 65536
      rw [true_and, Option.some.injEq, rdataMx, ite_err_eq_ok, and_iff_left hok, not_lt]
    | srv d priority weight port n t =>
      have hok : rdataSrv buf d t start len = ok (.srv d priority weight port n t) := Option.some.inj hread
      rw [rdataSrv, if_neg (by omega)] at hok
      change some (rdataSrv buf d t start (len % 65536)) = _ ↔ True ∧ 6 ≤ len % 65536
      rw [true_and, Option.some.injEq, rdataSrv, ite_err_eq_ok, and_iff_left hok, not_lt]
    | txt d text t =>
      refine iff_of_false (fun hparse => ?_) fun hboth => hle hboth.2
      obtain ⟨hdata, hend⟩ := h
      have hlen : (characterStrings text).length = len := Nat.add_left_cancel hend
      obtain ⟨_, htext, heq⟩ := rdataTxt_ok (Option.some.inj hparse)
      cases heq
      rw [take_window hdata (hlen ▸ Nat.mod_le _ _), ← hlen] at htext
      exact parseCharacterStrings_wrapped (hlen ▸ hlong) htext
    | caa d flags tag value t =>
      exact iff_of_false (fun hparse => caa_wrapped h hlong (Option.some.inj hparse)) fun hboth => hle hboth.2
    | opt | dnskey | rrsig | ds | nsec => cases hzone

end Wrapped

/-! ## Names of a lone record -/

/-- No pointer of the layout leads to a place that is `k` jumps deep. -/
def Layout.Shallow (L : Layout) (k : ℕ) : Prop := ∀ s o j, L.names s = some (o, j) → j < k

namespace Layout.Shallow
variable {L : Layout} {k : ℕ}

theorem labels (h : L.Shallow k) (ls : List Text) : (L.labels ls).2 ≤ k ∧ (L.labels ls).1.Shallow (k + 1) := by
  induction ls generalizing L with
  | nil => exact ⟨Nat.zero_le k, fun s o j hs => Nat.lt_succ_of_lt (h s o j hs)⟩
  | cons l ls ih =>
    simp only [Layout.labels]
    cases hentry : L.names (joinDots (l :: ls)) with
    | some entry => exact ⟨h _ _ _ hentry, fun s o j hs => Nat.lt_succ_of_lt (h s o j hs)⟩
    | none =>
      obtain ⟨hjumps, hrest⟩ := ih (L := L.advance (labelBytes l).length) h
      refine ⟨hjumps, fun s o j hs => ?_⟩
      obtain ⟨_, _, _, rfl⟩ | hs := Layout.of_names_remember hs
      · exact Nat.lt_succ_of_le hjumps
      · exact hrest s o j hs

theorem field (h : L.Shallow k) (f : Field) : (L.field f).Shallow (k + 1) := by
  cases f with
  | raw bytes => exact fun s o j hs => Nat.lt_succ_of_lt (h s o j hs)
  | name n => exact (h.labels (nameLabels n)).2
  | plain n => exact fun s o j hs => Nat.lt_succ_of_lt (h s o j hs)

/-- Behind few names, the names of a short list of pieces survive if they are good. -/
theorem fieldsSurvive (h : L.Shallow k) {fs : List Field} (hk : k + fs.length ≤ maxPointerJumps + 1) :
    L.FieldsSurvive fs ↔ ∀ f ∈ fs, f.Good := by
  induction fs generalizing L k with
  | nil => exact iff_of_true trivial (List.forall_mem_nil _)
  | cons f fs ih =>
    rw [List.length_cons] at hk
    rw [List.forall_mem_cons]
    refine and_congr ?_ (ih (h.field f) (by omega))
    cases f with
    | raw bytes => exact Iff.rfl
    | name n => exact and_iff_left ((h.labels (nameLabels n)).1.trans (by omega))
    | plain n => exact Iff.rfl

end Layout.Shallow

/-! ## The message -/

def loneAnswer (header : DnsHeader) (r : DnsRecord) : DnsPacket := ⟨header, [], [r], [], []⟩

/-- The message with the record as its only answer decodes to it. -/
def CarriedAlone (header : DnsHeader) (r : DnsRecord) : Prop :=
  ∃ q, fromBytes (loneAnswer header r).toBytes = ok q ∧ q.answers = [r]

section Lone
variable {header : DnsHeader} {r : DnsRecord}

theorem carriedAlone_iff_parseRecord : CarriedAlone header r ↔
    ∃ next, parseRecord (headerBytes (loneAnswer header r) ++ Layout.start.recordBytes r ++ []) 12 =
      ok (some r, next) := by
  have hbytes : (loneAnswer header r).toBytes =
      headerBytes (loneAnswer header r) ++ Layout.start.recordBytes r ++ [] := by
    rw [toBytes_eq]
    simp [loneAnswer, DnsPacket.records, Layout.questionsBytes, Layout.questions, Layout.recordsBytes]
  have hread := fromBytes_toBytes_eq (loneAnswer header r)
    ⟨Nat.zero_le _, (by decide : 1 ≤ 65535), Nat.zero_le _, Nat.zero_le _⟩
  rw [hbytes] at hread
  unfold CarriedAlone
  rw [hbytes, hread]
  constructor
  · rintro ⟨q, hq, hanswers⟩
    obtain ⟨questions, hquestions, hq⟩ := bind_eq_ok.mp hq
    obtain rfl := Outcome.ok.inj hquestions
    obtain ⟨⟨answers, next⟩, hsection, hq⟩ := bind_eq_ok.mp hq
    obtain ⟨record, after, out, hrecord, hout, rfl⟩ := parseSection_succ.mp hsection
    obtain ⟨rfl, rfl⟩ := Prod.mk.inj (Outcome.ok.inj hout)
    obtain rfl := Outcome.ok.inj hq
    obtain rfl : record = some r := by
      cases record with
      | none => cases hanswers
      | some r' => exact congrArg some (List.cons.inj hanswers).1
    exact ⟨_, hrecord⟩
  · rintro ⟨next, hrecord⟩
    have hsection : parseSection (headerBytes (loneAnswer header r) ++ Layout.start.recordBytes r ++ []) 1 12 =
        ok ([r], next) := parseSection_succ.mpr ⟨some r, next, [], hrecord, rfl, rfl⟩
    exact ⟨_, bind_eq_ok.mpr ⟨_, rfl, bind_eq_ok.mpr ⟨_, hsection, rfl⟩⟩, rfl⟩

theorem Readable.parseRecord_eq_ok {buf : Bytes} {L : Layout} (h : Readable buf L) (hname : L.NameSurvives r.domain)
    (more : Bytes) : (∃ next, parseRecord (buf ++ L.recordBytes r ++ more) L.pos = ok (some r, next)) ↔
      parseRdata (buf ++ L.recordBytes r ++ more) r.domain r.ttl ((L.name r.domain).pos + 10)
        ((L.rdataBytes r).length % 65536) r.recordType (recordClass r) = some (ok r) := by
  rw [parseRecord_of_head (h.recordHead hname more), UInt16.toNat_ofNat']
  constructor
  · rintro ⟨next, hr⟩
    split at hr
    · rename_i outcome hparse
      obtain ⟨r', rfl, heq⟩ := bind_eq_ok.mp hr
      obtain rfl : r' = r := Option.some.inj (Prod.mk.inj (Outcome.ok.inj heq)).1
      exact hparse
    · cases hr
  · intro hparse
    rw [hparse]
    exact ⟨_, rfl⟩

theorem length_recordFields_le (r : DnsRecord) : (recordFields r).length ≤ 10 := by
  cases r <;> simp [recordFields]

theorem shallow_start : Layout.start.Shallow 0 := by simp [Layout.Shallow, Layout.start]

/-- **A zone record on its own is read back exactly when its names are good, its texts survive, and a reader
can do with the length of its rdata modulo 65536.** -/
theorem carriedAlone_iff (hzone : isZoneData r = true) : CarriedAlone header r ↔
    (∀ n ∈ recordNames r, GoodName n) ∧ TextSurvives r ∧ LengthRead (Layout.start.rdataBytes r).length r := by
  have h := readable_start (loneAnswer header r)
  have hfields : (Layout.start.rdata r).FieldsSurvive (recordFields r) ↔ ∀ f ∈ recordFields r, f.Good := by
    have hshallow : (Layout.start.rdata r).Shallow 1 := (shallow_start.labels (nameLabels r.domain)).2
    refine hshallow.fieldsSurvive ?_
    have := length_recordFields_le r
    simp only [maxPointerJumps]
    omega
  have hnames : (∀ n ∈ recordNames r, GoodName n) ↔
      Layout.start.NameSurvives r.domain ∧ (Layout.start.rdata r).FieldsSurvive (recordFields r) := by
    have hjumps := (shallow_start.labels (nameLabels r.domain)).1
    rw [recordNames, List.forall_mem_cons, hfields, forall_good_iff]
    exact and_congr_left' (and_iff_left (hjumps.trans (Nat.zero_le _))).symm
  have hread : Layout.start.NameSurvives r.domain → (Layout.start.rdata r).FieldsSurvive (recordFields r) →
      ((∃ next, parseRecord (headerBytes (loneAnswer header r) ++ Layout.start.recordBytes r ++ []) 12 =
        ok (some r, next)) ↔ TextSurvives r ∧ LengthRead (Layout.start.rdataBytes r).length r) := by
    intro hname hsurvive
    refine (h.parseRecord_eq_ok hname []).trans (parseRdata_wrapped r hzone ?_ ?_)
    · exact h.fieldsAt_recordBytes hname.1 hsurvive []
    · exact h.rdata_end_le r []
  rw [carriedAlone_iff_parseRecord, hnames]
  constructor
  · intro hcarried
    obtain ⟨next, hr⟩ := hcarried
    have hname := h.nameSurvives_of_parseRecord hr
    have hparse := (h.parseRecord_eq_ok hname []).mp ⟨next, hr⟩
    have hat := namesAt_of_parseRdata hparse
    rw [Readable.recordBytes_eq] at hat
    have hsurvive := (h.rdata hname.1.whole).fieldsSurvive hat
    exact ⟨⟨hname, hsurvive⟩, (hread hname hsurvive).mp ⟨next, hr⟩⟩
  · rintro ⟨⟨hname, hsurvive⟩, hrest⟩
    exact (hread hname hsurvive).mpr hrest

end Lone

end MiniDns.Dns
