import MiniDns.Dns.NameRoundTrip
import MiniDns.Dns.RdataSpec

/-! Decoding what was encoded. `Layout.RecordSurvives` and its companions say, in terms of the
packet and its layout alone, when the decoder reads back what the encoder meant; the theorems of
this module say that it is exactly then. -/
namespace MiniDns.Dns
open Lib Lib.Outcome DnsRecord DnsPacket DnsPacketEncoder
set_option autoImplicit false

/-! ## What survives -/

def Field.Good : Field → Prop
  | .raw _ => True
  | .name n => GoodName n
  | .plain n => GoodName n

def Field.Whole : Field → Prop
  | .raw _ => True
  | .name n => WholeName n
  | .plain n => WholeName n

theorem Field.Good.whole {f : Field} (h : f.Good) : f.Whole := by
  cases f with
  | raw bytes => trivial
  | name n => exact GoodName.whole h
  | plain n => exact GoodName.whole h

namespace Layout

def NameSurvives (L : Layout) (n : Text) : Prop := GoodName n ∧ L.nameJumps n ≤ maxPointerJumps

def FieldSurvives (L : Layout) : Field → Prop
  | .raw _ => True
  | .name n => L.NameSurvives n
  | .plain n => GoodName n

def FieldsSurvive (L : Layout) : List Field → Prop
  | [] => True
  | f :: fs => L.FieldSurvives f ∧ (L.field f).FieldsSurvive fs

def RecordSurvives (L : Layout) (r : DnsRecord) : Prop :=
  L.NameSurvives r.domain ∧ (L.rdata r).FieldsSurvive (recordFields r) ∧ TextSurvives r

def RecordsSurvive (L : Layout) : List DnsRecord → Prop
  | [] => True
  | r :: rs => L.RecordSurvives r ∧ (L.record r).RecordsSurvive rs

def QuestionsSurvive (L : Layout) : List DnsQuestion → Prop
  | [] => True
  | q :: qs => L.NameSurvives q.qname ∧ (L.question q).QuestionsSurvive qs

def RecordsFit (L : Layout) : List DnsRecord → Prop
  | [] => True
  | r :: rs => (L.rdataBytes r).length ≤ 65535 ∧ (L.record r).RecordsFit rs

theorem recordsSurvive_append (L : Layout) (rs rs' : List DnsRecord) :
    L.RecordsSurvive (rs ++ rs') ↔ L.RecordsSurvive rs ∧ (L.records rs).RecordsSurvive rs' := by
  induction rs generalizing L with
  | nil => simp [RecordsSurvive, records]
  | cons r rs ih => simp [RecordsSurvive, records, ih, and_assoc]

theorem recordsFit_append (L : Layout) (rs rs' : List DnsRecord) :
    L.RecordsFit (rs ++ rs') ↔ L.RecordsFit rs ∧ (L.records rs).RecordsFit rs' := by
  induction rs generalizing L with
  | nil => simp [RecordsFit, records]
  | cons r rs ih => simp [RecordsFit, records, ih, and_assoc]

end Layout

namespace Layout

instance (L : Layout) (n : Text) : Decidable (L.NameSurvives n) := inferInstanceAs (Decidable (_ ∧ _))

instance (L : Layout) (f : Field) : Decidable (L.FieldSurvives f) :=
  match f with
  | .raw _ => isTrue trivial
  | .name n => inferInstanceAs (Decidable (L.NameSurvives n))
  | .plain n => inferInstanceAs (Decidable (GoodName n))

instance decidableFieldsSurvive (L : Layout) : (fs : List Field) → Decidable (L.FieldsSurvive fs)
  | [] => isTrue trivial
  | f :: fs => @instDecidableAnd _ _ _ (decidableFieldsSurvive (L.field f) fs)

instance (L : Layout) (r : DnsRecord) : Decidable (L.RecordSurvives r) :=
  inferInstanceAs (Decidable (_ ∧ _))

instance decidableRecordsSurvive (L : Layout) : (rs : List DnsRecord) → Decidable (L.RecordsSurvive rs)
  | [] => isTrue trivial
  | r :: rs => @instDecidableAnd _ _ _ (decidableRecordsSurvive (L.record r) rs)

instance decidableQuestionsSurvive (L : Layout) : (qs : List DnsQuestion) → Decidable (L.QuestionsSurvive qs)
  | [] => isTrue trivial
  | q :: qs => @instDecidableAnd _ _ _ (decidableQuestionsSurvive (L.question q) qs)

instance decidableRecordsFit (L : Layout) : (rs : List DnsRecord) → Decidable (L.RecordsFit rs)
  | [] => isTrue trivial
  | r :: rs => @instDecidableAnd _ _ _ (decidableRecordsFit (L.record r) rs)

end Layout

/-- Reading the message of a packet gives back its sections. -/
def DnsPacket.Stable (p : DnsPacket) : Prop :=
  ∃ q, fromBytes p.toBytes = ok q ∧ q.questions = p.questions ∧ q.answers = p.answers ∧
    q.authorities = p.authorities ∧ q.additionals = p.additionals

def DnsPacket.Survives (p : DnsPacket) : Prop :=
  Layout.start.QuestionsSurvive p.questions ∧
    (Layout.start.questions p.questions).RecordsSurvive p.records

def DnsPacket.Fits (p : DnsPacket) : Prop := (Layout.start.questions p.questions).RecordsFit p.records

instance (p : DnsPacket) : Decidable p.Survives := inferInstanceAs (Decidable (_ ∧ _))
instance (p : DnsPacket) : Decidable p.Fits := Layout.decidableRecordsFit _ _

structure DnsPacket.Counted (p : DnsPacket) : Prop where
  questions : p.questions.length ≤ 65535
  answers : p.answers.length ≤ 65535
  authorities : p.authorities.length ≤ 65535
  additionals : p.additionals.length ≤ 65535

def DnsPacket.recounted (p : DnsPacket) : DnsPacket :=
  { p with
    header :=
      { p.header with
        questions := UInt16.ofNat p.questions.length
        answers := UInt16.ofNat p.answers.length
        authorities := UInt16.ofNat p.authorities.length
        additionals := UInt16.ofNat p.additionals.length } }

/-! ## Pieces of rdata -/

namespace Readable
variable {buf : Bytes} {L : Layout}

theorem field_of_whole (h : Readable buf L) {f : Field} (hf : f.Whole) :
    Readable (buf ++ L.fieldBytes f) (L.field f) := by
  cases f with
  | raw bytes => exact h.append bytes
  | name n => exact h.name hf
  | plain n => exact h.append (Layout.plainBytes n)

theorem field (h : Readable buf L) {f : Field} (hf : L.FieldSurvives f) :
    Readable (buf ++ L.fieldBytes f) (L.field f) := by
  apply h.field_of_whole
  cases f with
  | raw bytes => trivial
  | name n => exact hf.1.whole
  | plain n => exact GoodName.whole hf

theorem fields (h : Readable buf L) {fs : List Field} (hfs : L.FieldsSurvive fs) (more : Bytes) :
    FieldsAt (buf ++ L.fieldsBytes fs ++ more) fs L.pos (L.fields fs).pos ∧
      Readable (buf ++ L.fieldsBytes fs) (L.fields fs) := by
  induction fs generalizing buf L with
  | nil => exact ⟨rfl, by simpa [Layout.fieldsBytes, Layout.fields] using h⟩
  | cons f fs ih =>
    obtain ⟨hf, hfs⟩ := hfs
    obtain ⟨hat, hread⟩ := ih (h.field hf) hfs
    have hbuf : buf ++ L.fieldsBytes (f :: fs) = buf ++ L.fieldBytes f ++ (L.field f).fieldsBytes fs := by
      simp [Layout.fieldsBytes]
    rw [hbuf]
    refine ⟨?_, hread⟩
    cases f with
    | raw bytes =>
      refine ⟨?_, hat⟩
      have := window_append buf bytes ((L.field (.raw bytes)).fieldsBytes fs ++ more)
      rw [← h.pos]
      simpa [Layout.fieldBytes] using this
    | name n =>
      refine ⟨(L.name n).pos, ?_, hat⟩
      have := (h.parseQname_nameBytes n ((L.field (.name n)).fieldsBytes fs ++ more) _).mpr ⟨hf.1, hf.2, rfl⟩
      simpa [Layout.fieldBytes] using this
    | plain n =>
      refine ⟨_, ?_, hat⟩
      have := (parseQname_plainBytes buf n ((L.field (.plain n)).fieldsBytes fs ++ more) _).mpr ⟨hf, rfl⟩
      rw [← h.pos]
      simpa [Layout.fieldBytes, Layout.field, ← h.pos] using this

theorem fieldsSurvive (h : Readable buf L) {fs : List Field} {more : Bytes}
    (hnames : NamesAt (buf ++ L.fieldsBytes fs ++ more) fs L.pos) : L.FieldsSurvive fs := by
  induction fs generalizing buf L with
  | nil => trivial
  | cons f fs ih =>
    have hbuf : buf ++ L.fieldsBytes (f :: fs) ++ more =
        buf ++ L.fieldBytes f ++ ((L.field f).fieldsBytes fs ++ more) := by simp [Layout.fieldsBytes]
    rw [hbuf] at hnames
    cases f with
    | raw bytes =>
      have hread := h.field (f := .raw bytes) trivial
      rw [← List.append_assoc] at hnames
      exact ⟨trivial, ih hread hnames⟩
    | name n =>
      obtain ⟨e, hname, hrest⟩ := hnames
      obtain ⟨hgood, hjumps, rfl⟩ := (h.parseQname_nameBytes n _ e).mp hname
      have hread := h.field (f := .name n) ⟨hgood, hjumps⟩
      rw [← List.append_assoc] at hrest
      exact ⟨⟨hgood, hjumps⟩, ih hread hrest⟩
    | plain n =>
      obtain ⟨e, hname, hrest⟩ := hnames
      rw [← h.pos] at hname
      obtain ⟨hgood, rfl⟩ := (parseQname_plainBytes buf n _ e).mp hname
      have hread := h.field (f := .plain n) hgood
      rw [← List.append_assoc, h.pos] at hrest
      exact ⟨hgood, ih hread hrest⟩

end Readable

/-! ## Records -/

namespace Readable
variable {buf : Bytes} {L : Layout}

theorem length_nameBytes (L : Layout) (n : Text) : (L.name n).pos = L.pos + (L.nameBytes n).length :=
  (writes_encodeQname n).length_out L

theorem length_rdataBytes (L : Layout) (r : DnsRecord) :
    (L.record r).pos = (L.name r.domain).pos + 10 + (L.rdataBytes r).length :=
  (writes_encodeFields (recordFields r)).length_out (L.rdata r)

theorem headAt_recordBytes (hbuf : buf.length = L.pos) (r : DnsRecord) (more : Bytes) :
    HeadAt (buf ++ L.recordBytes r ++ more) (L.name r.domain).pos r.recordType (recordClass r) r.ttl
      (UInt16.ofNat (L.rdataBytes r).length) := by
  have hpos := length_nameBytes L r.domain
  rw [← hbuf] at hpos
  have hlen : (UInt16.ofNat (L.rdataBytes r).length).toNat ≤ (L.rdataBytes r).length := by
    rw [UInt16.toNat_ofNat']
    exact Nat.mod_le _ _
  refine ⟨?_, ?_, ?_, ?_, ?_⟩
  · have := u16At_append DnsError (buf ++ L.nameBytes r.domain)
      (bytes16 (recordClass r) ++ bytes32 r.ttl ++ bytes16 (UInt16.ofNat (L.rdataBytes r).length) ++
        L.rdataBytes r ++ more) r.recordType (i := (L.name r.domain).pos) (by simp [hpos])
    simpa [Layout.recordBytes] using this
  · have := u16At_append DnsError (buf ++ L.nameBytes r.domain ++ bytes16 r.recordType)
      (bytes32 r.ttl ++ bytes16 (UInt16.ofNat (L.rdataBytes r).length) ++ L.rdataBytes r ++ more)
      (recordClass r) (i := (L.name r.domain).pos + 2) (by simp [hpos, Nat.add_assoc])
    simpa [Layout.recordBytes] using this
  · have := u32At_append DnsError (buf ++ L.nameBytes r.domain ++ bytes16 r.recordType ++
      bytes16 (recordClass r)) (bytes16 (UInt16.ofNat (L.rdataBytes r).length) ++ L.rdataBytes r ++ more) r.ttl
      (i := (L.name r.domain).pos + 4) (by simp [hpos, Nat.add_assoc])
    simpa [Layout.recordBytes] using this
  · have := u16At_append DnsError (buf ++ L.nameBytes r.domain ++ bytes16 r.recordType ++
      bytes16 (recordClass r) ++ bytes32 r.ttl) (L.rdataBytes r ++ more)
      (UInt16.ofNat (L.rdataBytes r).length) (i := (L.name r.domain).pos + 8) (by simp [hpos, Nat.add_assoc])
    simpa [Layout.recordBytes] using this
  · rw [hpos]
    simp [Layout.recordBytes]
    omega

theorem recordHead (h : Readable buf L) {r : DnsRecord} (hname : L.NameSurvives r.domain) (more : Bytes) :
    RecordHead (buf ++ L.recordBytes r ++ more) L.pos r.domain (L.name r.domain).pos r.recordType
      (recordClass r) r.ttl (UInt16.ofNat (L.rdataBytes r).length) := by
  refine ⟨headAt_recordBytes h.pos r more, ?_⟩
  have := (h.parseQname_nameBytes r.domain (bytes16 r.recordType ++ bytes16 (recordClass r) ++ bytes32 r.ttl ++
    bytes16 (UInt16.ofNat (L.rdataBytes r).length) ++ L.rdataBytes r ++ more) _).mpr ⟨hname.1, hname.2, rfl⟩
  simpa [Layout.recordBytes] using this

theorem rdata (h : Readable buf L) {r : DnsRecord} (hwhole : WholeName r.domain) :
    Readable (buf ++ L.nameBytes r.domain ++ (bytes16 r.recordType ++ bytes16 (recordClass r) ++
      bytes32 r.ttl ++ bytes16 (UInt16.ofNat (L.rdataBytes r).length))) (L.rdata r) :=
  (h.name hwhole).append _

theorem recordBytes_eq (L : Layout) (r : DnsRecord) (more : Bytes) :
    buf ++ L.recordBytes r ++ more = buf ++ L.nameBytes r.domain ++ (bytes16 r.recordType ++
      bytes16 (recordClass r) ++ bytes32 r.ttl ++ bytes16 (UInt16.ofNat (L.rdataBytes r).length)) ++
      (L.rdata r).fieldsBytes (recordFields r) ++ more := by
  simp [Layout.recordBytes, Layout.rdataBytes]

theorem record (h : Readable buf L) {r : DnsRecord} (hr : L.RecordSurvives r) :
    Readable (buf ++ L.recordBytes r) (L.record r) := by
  have := ((h.rdata hr.1.1.whole).fields hr.2.1 []).2
  rw [← List.append_nil (buf ++ L.recordBytes r), recordBytes_eq, List.append_nil]
  exact this

theorem nameSurvives_of_parseRecord (h : Readable buf L) {r : DnsRecord} {more : Bytes} {next : ℕ}
    (hr : parseRecord (buf ++ L.recordBytes r ++ more) L.pos = ok (some r, next)) :
    L.NameSurvives r.domain := by
  rcases parseRecord_cases (buf ++ L.recordBytes r ++ more) L.pos with
    ⟨error, herr⟩ | ⟨domain, e, rtype, cls, ttl, dataLen, head⟩
  · rw [herr] at hr
    cases hr
  have howner := head.readOwner
  rw [parseRecord_of_head head] at hr
  cases hparse : parseRdata (buf ++ L.recordBytes r ++ more) domain ttl (e + 10) dataLen.toNat rtype cls with
  | none => rw [hparse] at hr; cases hr
  | some outcome =>
    rw [hparse] at hr
    obtain ⟨r', hout, heq⟩ := bind_eq_ok.mp hr
    obtain rfl : r' = r := Option.some.inj (Prod.mk.inj (Outcome.ok.inj heq)).1
    rw [hout] at hparse
    rcases (parseRdata_ok hparse).2 with ⟨hdom, _⟩ | hopt
    · rw [recordBytes_eq, List.append_assoc, List.append_assoc, ← hdom] at howner
      obtain ⟨hgood, hjumps, _⟩ := (h.parseQname_nameBytes _ _ _).mp howner
      exact ⟨hgood, hjumps⟩
    · -- OPT has no owner: the encoder writes the root
      cases r' <;> simp only [isOpt, Bool.false_eq_true] at hopt
      exact ⟨by simp [GoodName, DnsRecord.domain, nameLabels], Nat.zero_le _⟩

theorem fieldsAt_recordBytes (h : Readable buf L) {r : DnsRecord} (hgood : GoodName r.domain)
    (hfields : (L.rdata r).FieldsSurvive (recordFields r)) (more : Bytes) :
    FieldsAt (buf ++ L.recordBytes r ++ more) (recordFields r) ((L.name r.domain).pos + 10)
      ((L.name r.domain).pos + 10 + (L.rdataBytes r).length) := by
  have hat := ((h.rdata hgood.whole).fields hfields more).1
  rw [← recordBytes_eq] at hat
  rw [← length_rdataBytes L r]
  exact hat

theorem rdata_end_le (h : Readable buf L) (r : DnsRecord) (more : Bytes) :
    (L.name r.domain).pos + 10 + (L.rdataBytes r).length ≤ (buf ++ L.recordBytes r ++ more).length := by
  rw [length_nameBytes L r.domain, ← h.pos]
  simp [Layout.recordBytes]
  omega

theorem parseRdata_of_fieldsSurvive (h : Readable buf L) {r : DnsRecord} (hgood : GoodName r.domain)
    (hfields : (L.rdata r).FieldsSurvive (recordFields r)) (more : Bytes) :
    parseRdata (buf ++ L.recordBytes r ++ more) r.domain r.ttl ((L.name r.domain).pos + 10)
        (L.rdataBytes r).length r.recordType (recordClass r) = some (ok r.reread) :=
  parseRdata_of_fieldsAt r (h.fieldsAt_recordBytes hgood hfields more) (h.rdata_end_le r more)

theorem parseRdata_rdataBytes (h : Readable buf L) {r : DnsRecord} (hname : L.NameSurvives r.domain)
    (more : Bytes) :
    parseRdata (buf ++ L.recordBytes r ++ more) r.domain r.ttl ((L.name r.domain).pos + 10)
        (L.rdataBytes r).length r.recordType (recordClass r) = some (ok r) ↔
      (L.rdata r).FieldsSurvive (recordFields r) ∧ TextSurvives r := by
  constructor
  · intro hparse
    have hnames := namesAt_of_parseRdata hparse
    rw [recordBytes_eq] at hnames
    have hfields := (h.rdata hname.1.whole).fieldsSurvive hnames
    rw [h.parseRdata_of_fieldsSurvive hname.1 hfields more] at hparse
    exact ⟨hfields, (reread_eq_self r).mp (Outcome.ok.inj (Option.some.inj hparse))⟩
  · rintro ⟨hfields, htext⟩
    rw [h.parseRdata_of_fieldsSurvive hname.1 hfields more, (reread_eq_self r).mpr htext]

/-- **A record is read back exactly when it survives.** -/
theorem parseRecord_recordBytes (h : Readable buf L) (r : DnsRecord) (more : Bytes) (next : ℕ)
    (hfit : (L.rdataBytes r).length ≤ 65535) :
    parseRecord (buf ++ L.recordBytes r ++ more) L.pos = ok (some r, next) ↔
      L.RecordSurvives r ∧ next = (L.record r).pos := by
  have hlen : (UInt16.ofNat (L.rdataBytes r).length).toNat = (L.rdataBytes r).length := by
    rw [UInt16.toNat_ofNat']
    omega
  constructor
  · intro hr
    have hname := h.nameSurvives_of_parseRecord hr
    rw [parseRecord_of_head (h.recordHead hname more), hlen] at hr
    cases hparse : parseRdata (buf ++ L.recordBytes r ++ more) r.domain r.ttl ((L.name r.domain).pos + 10)
        (L.rdataBytes r).length r.recordType (recordClass r) with
    | none => rw [hparse] at hr; cases hr
    | some outcome =>
      rw [hparse] at hr
      obtain ⟨r', hout, heq⟩ := bind_eq_ok.mp hr
      obtain ⟨hsome, rfl⟩ := Prod.mk.inj (Outcome.ok.inj heq)
      obtain rfl := Option.some.inj hsome
      rw [hout] at hparse
      exact ⟨⟨hname, (h.parseRdata_rdataBytes hname more).mp hparse⟩, (length_rdataBytes L r').symm⟩
  · rintro ⟨⟨hname, hrest⟩, rfl⟩
    rw [parseRecord_of_head (h.recordHead hname more), hlen,
      (h.parseRdata_rdataBytes hname more).mpr hrest, length_rdataBytes]
    rfl

end Readable

/-! ## Sections -/

theorem parseSection_length_le {buf : Bytes} {count offset next : ℕ} {out : List DnsRecord}
    (h : parseSection buf count offset = ok (out, next)) : out.length ≤ count := by
  induction count generalizing offset next out with
  | zero =>
    obtain ⟨rfl, _⟩ := Prod.mk.inj (Outcome.ok.inj h)
    exact Nat.zero_le _
  | succ count ih =>
    obtain ⟨record, after, rest, _, hrest, rfl⟩ := parseSection_succ.mp h
    have := ih hrest
    cases record <;> simp <;> omega

namespace Readable
variable {buf : Bytes} {L : Layout}

theorem records (h : Readable buf L) {rs : List DnsRecord} (hrs : L.RecordsSurvive rs) :
    Readable (buf ++ L.recordsBytes rs) (L.records rs) := by
  induction rs generalizing buf L with
  | nil => simpa [Layout.recordsBytes, Layout.records] using h
  | cons r rs ih =>
    have := ih (h.record hrs.1) hrs.2
    simpa [Layout.recordsBytes, Layout.records] using this

/-- **A section is read back exactly when its records survive.** -/
theorem parseSection_recordsBytes (h : Readable buf L) (rs : List DnsRecord) (more : Bytes) (next : ℕ)
    (hfit : L.RecordsFit rs) :
    parseSection (buf ++ L.recordsBytes rs ++ more) rs.length L.pos = ok (rs, next) ↔
      L.RecordsSurvive rs ∧ next = (L.records rs).pos := by
  induction rs generalizing buf L with
  | nil => simp [parseSection, Layout.RecordsSurvive, Layout.records, eq_comm]
  | cons r rs ih =>
    have hbuf : buf ++ L.recordsBytes (r :: rs) ++ more =
        buf ++ L.recordBytes r ++ ((L.record r).recordsBytes rs ++ more) := by simp [Layout.recordsBytes]
    have hbuf' : buf ++ L.recordBytes r ++ ((L.record r).recordsBytes rs ++ more) =
        buf ++ L.recordBytes r ++ (L.record r).recordsBytes rs ++ more := by simp
    rw [hbuf, List.length_cons, parseSection_succ]
    constructor
    · rintro ⟨record, after, rest, hrecord, hrest, hlist⟩
      -- a record that was skipped would leave the section one record short
      cases record with
      | none =>
        have := parseSection_length_le hrest
        have hlen : rs.length + 1 = rest.length := congrArg List.length hlist
        omega
      | some r' =>
        obtain ⟨rfl, rfl⟩ := List.cons.inj hlist
        obtain ⟨hr, rfl⟩ := (h.parseRecord_recordBytes r _ _ hfit.1).mp hrecord
        rw [hbuf'] at hrest
        obtain ⟨hrs, rfl⟩ := (ih (h.record hr) hfit.2).mp hrest
        exact ⟨⟨hr, hrs⟩, rfl⟩
    · rintro ⟨⟨hr, hrs⟩, rfl⟩
      have hrest := (ih (h.record hr) hfit.2).mpr ⟨hrs, rfl⟩
      rw [← hbuf'] at hrest
      exact ⟨some r, _, rs, (h.parseRecord_recordBytes r _ _ hfit.1).mpr ⟨hr, rfl⟩, hrest, rfl⟩

theorem question_of_whole (h : Readable buf L) {q : DnsQuestion} (hwhole : WholeName q.qname) :
    Readable (buf ++ L.questionBytes q) (L.question q) := by
  have hnext := (h.name hwhole).append (bytes16 q.qtype ++ bytes16 q.qclass)
  simpa [Layout.questionBytes, Layout.question] using hnext

theorem question (h : Readable buf L) {q : DnsQuestion} (hq : L.NameSurvives q.qname) :
    Readable (buf ++ L.questionBytes q) (L.question q) :=
  h.question_of_whole hq.1.whole

theorem questions (h : Readable buf L) {qs : List DnsQuestion} (hqs : L.QuestionsSurvive qs) :
    Readable (buf ++ L.questionsBytes qs) (L.questions qs) := by
  induction qs generalizing buf L with
  | nil => simpa [Layout.questionsBytes, Layout.questions] using h
  | cons q qs ih =>
    have := ih (h.question hqs.1) hqs.2
    simpa [Layout.questionsBytes, Layout.questions] using this

theorem questionsBytes_name (buf : Bytes) (L : Layout) (q : DnsQuestion) (qs : List DnsQuestion) (more : Bytes) :
    buf ++ L.questionsBytes (q :: qs) ++ more = buf ++ L.nameBytes q.qname ++
      (bytes16 q.qtype ++ bytes16 q.qclass ++ (L.question q).questionsBytes qs ++ more) := by
  simp [Layout.questionsBytes, Layout.questionBytes]

theorem questionsBytes_question (buf : Bytes) (L : Layout) (q : DnsQuestion) (qs : List DnsQuestion) (more : Bytes) :
    buf ++ L.questionsBytes (q :: qs) ++ more = buf ++ L.questionBytes q ++ (L.question q).questionsBytes qs ++ more := by
  simp [Layout.questionsBytes]

/-- What stands behind the name of a question. -/
theorem question_tail (hbuf : buf.length = L.pos) (q : DnsQuestion) (qs : List DnsQuestion) (more : Bytes) :
    (L.name q.qname).pos + 4 ≤ (buf ++ L.questionsBytes (q :: qs) ++ more).length ∧
      (u16At (buf ++ L.questionsBytes (q :: qs) ++ more) (L.name q.qname).pos : Outcome DnsError UInt16) = ok q.qtype ∧
      (u16At (buf ++ L.questionsBytes (q :: qs) ++ more) ((L.name q.qname).pos + 2) : Outcome DnsError UInt16) =
        ok q.qclass := by
  have hpos := length_nameBytes L q.qname
  rw [← hbuf] at hpos
  rw [questionsBytes_name]
  refine ⟨?_, ?_, ?_⟩
  · rw [hpos]
    simp
    omega
  · have htype := u16At_append DnsError (buf ++ L.nameBytes q.qname) (bytes16 q.qclass ++
      (L.question q).questionsBytes qs ++ more) q.qtype (i := (L.name q.qname).pos) (by simp [hpos])
    simpa using htype
  · have hclass := u16At_append DnsError (buf ++ L.nameBytes q.qname ++ bytes16 q.qtype)
      ((L.question q).questionsBytes qs ++ more) q.qclass (i := (L.name q.qname).pos + 2)
      (by simp [hpos, Nat.add_assoc])
    simpa using hclass

/-- **The question section is read back exactly when its names survive.** -/
theorem parseQuestions_questionsBytes (h : Readable buf L) (qs : List DnsQuestion) (more : Bytes) (next : ℕ) :
    parseQuestions (buf ++ L.questionsBytes qs ++ more) qs.length L.pos = ok (qs, next) ↔
      L.QuestionsSurvive qs ∧ next = (L.questions qs).pos := by
  induction qs generalizing buf L with
  | nil => simp [parseQuestions, Layout.QuestionsSurvive, Layout.questions, eq_comm]
  | cons q qs ih =>
    have hbuf := questionsBytes_name buf L q qs more
    have hbuf' := questionsBytes_question buf L q qs more
    obtain ⟨hlen, htype, hclass⟩ := question_tail h.pos q qs more
    rw [List.length_cons, parseQuestions_succ]
    constructor
    · rintro ⟨q', qs', e, hlist, hname, _, _, _, hrest⟩
      obtain ⟨rfl, rfl⟩ := List.cons.inj hlist
      rw [hbuf] at hname
      obtain ⟨hgood, hjumps, rfl⟩ := (h.parseQname_nameBytes _ _ _).mp hname
      rw [hbuf'] at hrest
      obtain ⟨hqs, hlast⟩ := (ih (h.question ⟨hgood, hjumps⟩)).mp hrest
      exact ⟨⟨⟨hgood, hjumps⟩, hqs⟩, hlast⟩
    · rintro ⟨⟨hq, hqs⟩, rfl⟩
      have hname := (h.parseQname_nameBytes q.qname (bytes16 q.qtype ++ bytes16 q.qclass ++
        (L.question q).questionsBytes qs ++ more) _).mpr ⟨hq.1, hq.2, rfl⟩
      have hrest := (ih (h.question hq)).mpr ⟨hqs, rfl⟩
      rw [← hbuf] at hname
      rw [← hbuf'] at hrest
      exact ⟨q, qs, _, rfl, hname, hlen, htype, hclass, hrest⟩

/-- Questions that are read from the encoding of others, whose encoding reads as them, are the same. -/
theorem questionsSurvive_of_swap {buf' more more' : Bytes}
    {qs qs' : List DnsQuestion} {next next' : ℕ} (h : Readable buf L) (h' : Readable buf' L)
    (hread : parseQuestions (buf ++ L.questionsBytes qs ++ more) qs.length L.pos = ok (qs', next))
    (hback : parseQuestions (buf' ++ L.questionsBytes qs' ++ more') qs.length L.pos = ok (qs, next')) :
    L.QuestionsSurvive qs := by
  induction qs generalizing buf buf' L qs' with
  | nil => trivial
  | cons q qs ih =>
    obtain ⟨q', rest, e, rfl, hname, _, _, _, hrest⟩ := parseQuestions_succ.mp hread
    obtain ⟨q'', rest', e', heq, hname', _, _, _, hrest'⟩ := parseQuestions_succ.mp hback
    obtain ⟨rfl, rfl⟩ := List.cons.inj heq
    simp only [Layout.questionsBytes, Layout.questionBytes, List.append_assoc] at hname hname'
    rw [← List.append_assoc] at hname hname'
    -- what was read from the first name is good, so reading it again gives it again
    have hsame := h'.parseQname_of_good (h.goodName_of_parseQname hname) hname'
    rw [← hsame] at hname hname'
    obtain ⟨hgood, hjumps, rfl⟩ := (h.parseQname_nameBytes _ _ _).mp hname
    obtain ⟨_, _, rfl⟩ := (h'.parseQname_nameBytes _ _ _).mp hname'
    have hlayout : L.question q' = L.question q := by rw [Layout.question, Layout.question, hsame]
    have hreadable' := h'.question (q := q') (hsame ▸ ⟨hgood, hjumps⟩)
    have hbuf := questionsBytes_question buf L q qs more
    have hbuf' : buf' ++ L.questionsBytes (q' :: rest) ++ more' =
        buf' ++ L.questionBytes q' ++ (L.question q).questionsBytes rest ++ more' := by
      simp [Layout.questionsBytes, hlayout]
    rw [hbuf] at hrest
    rw [hbuf'] at hrest'
    exact ⟨⟨hgood, hjumps⟩, ih (h.question ⟨hgood, hjumps⟩) (hlayout ▸ hreadable') hrest hrest'⟩

end Readable

/-! ## Messages -/

theorem readable_start (p : DnsPacket) : Readable (headerBytes p) Layout.start :=
  ⟨headerBytes_length p, by simp [Layout.start]⟩

theorem parseHeader_append (p : DnsPacket) (more : Bytes) :
    parseHeader (headerBytes p ++ more) = ok p.recounted.header := by
  simp only [headerBytes, DnsPacket.recounted]
  generalize UInt16.ofNat p.questions.length = questions
  generalize UInt16.ofNat p.answers.length = answers
  generalize UInt16.ofNat p.authorities.length = authorities
  generalize UInt16.ofNat p.additionals.length = additionals
  simp [parseHeader, u16At, byteAt, bytes16, be16_bytes16]

theorem toNat_count {n : ℕ} (h : n ≤ 65535) : (UInt16.ofNat n).toNat = n := by
  rw [UInt16.toNat_ofNat']
  omega

theorem fromBytes_toBytes_eq (p : DnsPacket) (hcount : p.Counted) :
    fromBytes p.toBytes = (do
      let questions ← parseQuestions p.toBytes p.questions.length 12
      let answers ← parseSection p.toBytes p.answers.length questions.2
      let authorities ← parseSection p.toBytes p.authorities.length answers.2
      let additionals ← parseSection p.toBytes p.additionals.length authorities.2
      pure ⟨p.recounted.header, questions.1, answers.1, authorities.1, additionals.1⟩) := by
  have hlen : ¬ p.toBytes.length < 12 := by
    rw [toBytes_eq, List.append_assoc, List.length_append, headerBytes_length]
    omega
  have hheader : parseHeader p.toBytes = ok p.recounted.header := by
    rw [toBytes_eq, List.append_assoc]
    exact parseHeader_append p _
  rw [fromBytes, if_neg hlen, hheader, ok_bind]
  simp only [DnsPacket.recounted, toNat_count hcount.questions, toNat_count hcount.answers,
    toNat_count hcount.authorities, toNat_count hcount.additionals]

section Message
variable (p : DnsPacket)

theorem parseQuestions_toBytes (next : ℕ) :
    parseQuestions p.toBytes p.questions.length 12 = ok (p.questions, next) ↔
      Layout.start.QuestionsSurvive p.questions ∧ next = (Layout.start.questions p.questions).pos := by
  rw [toBytes_eq]
  exact (readable_start p).parseQuestions_questionsBytes p.questions _ next

/-- The three record sections of a message are read back exactly when the records survive. -/
theorem parseSections_toBytes (hfit : p.Fits) (hq : Layout.start.QuestionsSurvive p.questions) :
    (∃ o₁ o₂ o₃, parseSection p.toBytes p.answers.length (Layout.start.questions p.questions).pos =
        ok (p.answers, o₁) ∧ parseSection p.toBytes p.authorities.length o₁ = ok (p.authorities, o₂) ∧
        parseSection p.toBytes p.additionals.length o₂ = ok (p.additionals, o₃)) ↔
      (Layout.start.questions p.questions).RecordsSurvive p.records := by
  have hread := (readable_start p).questions hq
  unfold DnsPacket.Fits at hfit
  rw [toBytes_eq]
  simp only [DnsPacket.records, Layout.recordsBytes_append, Layout.recordsSurvive_append,
    Layout.recordsFit_append, Layout.records_append, ← List.append_assoc] at hfit ⊢
  generalize headerBytes p ++ Layout.start.questionsBytes p.questions = buf at *
  generalize Layout.start.questions p.questions = L at *
  obtain ⟨⟨hfit₁, hfit₂⟩, hfit₃⟩ := hfit
  have answers := hread.parseSection_recordsBytes p.answers ((L.records p.answers).recordsBytes p.authorities ++
    ((L.records p.answers).records p.authorities).recordsBytes p.additionals)
  simp only [← List.append_assoc] at answers
  constructor
  · rintro ⟨o₁, o₂, o₃, h₁, h₂, h₃⟩
    obtain ⟨hs₁, rfl⟩ := (answers o₁ hfit₁).mp h₁
    have hread₁ := hread.records hs₁
    obtain ⟨hs₂, rfl⟩ := (hread₁.parseSection_recordsBytes p.authorities _ o₂ hfit₂).mp h₂
    have hread₂ := hread₁.records hs₂
    have h₃' := (hread₂.parseSection_recordsBytes p.additionals [] o₃ hfit₃).mp (by simpa using h₃)
    exact ⟨⟨hs₁, hs₂⟩, h₃'.1⟩
  · rintro ⟨⟨hs₁, hs₂⟩, hs₃⟩
    have hread₁ := hread.records hs₁
    have hread₂ := hread₁.records hs₂
    have h₃ := (hread₂.parseSection_recordsBytes p.additionals [] _ hfit₃).mpr ⟨hs₃, rfl⟩
    rw [List.append_nil] at h₃
    exact ⟨_, _, _, (answers _ hfit₁).mpr ⟨hs₁, rfl⟩,
      (hread₁.parseSection_recordsBytes p.authorities _ _ hfit₂).mpr ⟨hs₂, rfl⟩, h₃⟩

/-- **A packet whose names and texts survive is decoded from its own message.** -/
theorem fromBytes_toBytes (hcount : p.Counted) (hfit : p.Fits) (h : p.Survives) :
    fromBytes p.toBytes = ok p.recounted := by
  obtain ⟨o₁, o₂, o₃, h₁, h₂, h₃⟩ := (parseSections_toBytes p hfit h.1).mpr h.2
  rw [fromBytes_toBytes_eq p hcount, (parseQuestions_toBytes p _).mpr ⟨h.1, rfl⟩]
  simp only [ok_bind, h₁, h₂, h₃]
  rfl

theorem survives_of_stable (hcount : p.Counted) (hfit : p.Fits) (h : p.Stable) : p.Survives := by
  obtain ⟨q, hq, hquestions, hanswers, hauthorities, hadditionals⟩ := h
  rw [fromBytes_toBytes_eq p hcount] at hq
  simp only [bind_eq_ok, Prod.exists, pure_eq_ok, Outcome.ok.injEq] at hq
  obtain ⟨questions, o, hparse, answers, o₁, h₁, authorities, o₂, h₂, additionals, o₃, h₃, rfl⟩ := hq
  dsimp only at hquestions hanswers hauthorities hadditionals
  subst hquestions hanswers hauthorities hadditionals
  obtain ⟨hs, rfl⟩ := (parseQuestions_toBytes p o).mp hparse
  exact ⟨hs, (parseSections_toBytes p hfit hs).mp ⟨o₁, o₂, o₃, h₁, h₂, h₃⟩⟩

end Message

end MiniDns.Dns
