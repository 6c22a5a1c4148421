import MiniDns.Dns.Wire

/-! The records that the encoder writes, as a reader finds them. They stand on the wire as they are
meant, with their labels cut, when no label is empty; a reader who finds the names that were meant has found
good ones. -/
namespace MiniDns.Dns
open Lib Lib.Outcome DnsRecord DnsPacket
set_option autoImplicit false

/-! ## What is meant -/

def wireName (n : Text) : List Bytes := (nameLabels n).map wireLabel

def wireFields (gap : Bytes) : List Field → WireRdata
  | [] => ⟨[], gap, 0⟩
  | .raw bytes :: fs => wireFields (gap ++ bytes) fs
  | .name n :: fs => (wireFields [] fs).cons gap (wireName n)
  | .plain n :: fs => (wireFields [] fs).cons gap (wireName n)

def wireOf (r : DnsRecord) : WireRecord :=
  ⟨wireName r.domain, r.recordType, recordClass r, r.ttl, wireFields [] (recordFields r)⟩

structure GoodRecord (r : DnsRecord) : Prop where
  owner : GoodName r.domain
  fields : ∀ f ∈ recordFields r, f.Good

structure WholeRecord (r : DnsRecord) : Prop where
  owner : WholeName r.domain
  fields : ∀ f ∈ recordFields r, f.Whole

theorem GoodRecord.whole {r : DnsRecord} (h : GoodRecord r) : WholeRecord r :=
  ⟨h.owner.whole, fun f hf => (h.fields f hf).whole⟩

theorem goodName_of_spells {n : Text} (h : Spells n (wireName n)) : GoodName n := by
  obtain ⟨heq, hne⟩ := h
  have hwhole : WholeName n := by
    rintro l hl rfl
    exact hne _ (List.mem_map.mpr ⟨[], hl, rfl⟩) rfl
  have hcut : cutName n = n := heq.symm
  rw [← hcut]
  exact hwhole.goodName_cutName

/-! ## Pieces -/

theorem Field.raw_or_name (f : Field) : (∃ bytes, f = .raw bytes) ∨ ∃ n, f = .name n ∨ f = .plain n := by
  cases f with
  | raw bytes => exact .inl ⟨bytes, rfl⟩
  | name n => exact .inr ⟨n, .inl rfl⟩
  | plain n => exact .inr ⟨n, .inr rfl⟩

section Name
variable {f : Field} {n : Text} {fs : List Field} (hf : f = .name n ∨ f = .plain n)
include hf

theorem good_name : f.Good ↔ GoodName n := by
  obtain rfl | rfl := hf <;> rfl

theorem whole_name : f.Whole ↔ WholeName n := by
  obtain rfl | rfl := hf <;> rfl

theorem fieldGaps_name {gap : ℕ} : fieldGaps gap (f :: fs) = gap :: fieldGaps 0 fs := by
  obtain rfl | rfl := hf <;> rfl

theorem wireFields_name {gap : Bytes} : wireFields gap (f :: fs) = (wireFields [] fs).cons gap (wireName n) := by
  obtain rfl | rfl := hf <;> rfl

theorem namesSpell_name {gap : Bytes} {labels : List Bytes} {w : WireRdata} :
    NamesSpell (f :: fs) (w.cons gap labels).names ↔ Spells n labels ∧ NamesSpell fs w.names := by
  obtain rfl | rfl := hf <;> rfl

end Name

theorem good_of_namesSpell {gap : Bytes} {fs : List Field} (h : NamesSpell fs (wireFields gap fs).names) :
    ∀ f ∈ fs, f.Good := by
  induction fs generalizing gap with
  | nil => simp
  | cons f fs ih =>
    rw [List.forall_mem_cons]
    obtain ⟨bytes, rfl⟩ | ⟨n, hf⟩ := f.raw_or_name
    · exact ⟨trivial, ih h⟩
    · rw [wireFields_name hf, namesSpell_name hf] at h
      exact ⟨(good_name hf).mpr (goodName_of_spells h.1), ih h.2⟩

theorem goodRecord_opt {r : DnsRecord} (h : r.isOpt = true) : GoodRecord r := by
  cases r <;> simp only [isOpt, Bool.false_eq_true] at h
  exact ⟨by simp [GoodName, DnsRecord.domain, nameLabels], by simp [recordFields]⟩

theorem goodRecord_of_readFrom {r : DnsRecord} (h : ReadFrom r (wireOf r)) : GoodRecord r := by
  cases hopt : r.isOpt with
  | true => exact goodRecord_opt hopt
  | false => exact ⟨goodName_of_spells (h.owner hopt), good_of_namesSpell h.names⟩

theorem fieldsBytes_cons (buf : Bytes) (L : Layout) (f : Field) (fs : List Field) (more : Bytes) :
    buf ++ L.fieldsBytes (f :: fs) ++ more = buf ++ L.fieldBytes f ++ ((L.field f).fieldsBytes fs ++ more) := by
  simp [Layout.fieldsBytes]

namespace Readable
variable {buf before gap more : Bytes} {L : Layout}

theorem nameAt_field (h : Readable buf L) {f : Field} {n : Text} (hf : f = .name n ∨ f = .plain n) (more : Bytes) :
    (WholeName n → ∃ j, NameAt (buf ++ L.fieldBytes f ++ more) L.pos (wireName n) j (L.field f).pos) ∧
      ∀ ws j e, NameAt (buf ++ L.fieldBytes f ++ more) L.pos ws j e → n = dotted ws → GoodName n := by
  obtain rfl | rfl := hf
  · exact ⟨fun hwhole => ⟨_, h.nameAt_of_whole hwhole more⟩, fun ws j e hat => (h.nameAt_nameBytes hat).2⟩
  · -- a name that is not compressed is one that is written where nothing can be pointed to
    have hread : Readable buf ⟨buf.length, fun _ => none⟩ := ⟨rfl, by simp⟩
    have hbytes : (⟨buf.length, fun _ => none⟩ : Layout).nameBytes n = Layout.plainBytes n :=
      labelsBytes_of_no_names _ _
    have hpos := (labels_of_no_names buf.length (nameLabels n)).2
    rw [Layout.fieldBytes, ← hbytes, ← h.pos]
    rw [Layout.field, Layout.advance_pos, ← h.pos, Layout.plainBytes, ← hpos]
    exact ⟨fun hwhole => ⟨_, hread.nameAt_of_whole hwhole more⟩,
      fun ws j e hat => (hread.nameAt_nameBytes hat).2⟩

theorem rdataAt (h : Readable (before ++ gap) L) {fs : List Field} (hwhole : ∀ f ∈ fs, f.Whole) (more : Bytes) :
    RdataAt (before ++ gap ++ L.fieldsBytes fs ++ more) (L.fields fs).pos (fieldGaps gap.length fs)
      before.length (wireFields gap fs) := by
  induction fs generalizing before gap L with
  | nil =>
    have hpos := h.pos
    rw [List.length_append] at hpos
    have hwin := window_append before gap more
    have hrest : L.pos - before.length = gap.length := by omega
    have hexcess : before.length - L.pos = 0 := by omega
    simp only [Layout.fieldsBytes, Layout.fields, List.append_nil, fieldGaps, RdataAt, wireFields, hrest, hexcess,
      hwin]
  | cons f fs ih =>
    have hbuf := fieldsBytes_cons (before ++ gap) L f fs more
    have hfwhole : f.Whole := hwhole f List.mem_cons_self
    have htail : ∀ g ∈ fs, g.Whole := fun g hg => hwhole g (List.mem_cons_of_mem _ hg)
    obtain ⟨bytes, rfl⟩ | ⟨n, hf⟩ := f.raw_or_name
    · have hread := h.append bytes
      rw [List.append_assoc] at hread
      have hrest := ih hread htail
      rw [List.length_append, ← List.append_assoc before, List.append_assoc _ _ more] at hrest
      rw [hbuf]
      exact hrest
    · have hwin := window_append before gap (L.fieldBytes f ++ ((L.field f).fieldsBytes fs ++ more))
      rw [← List.append_assoc, ← hbuf] at hwin
      obtain ⟨j, hname⟩ := (h.nameAt_field hf ((L.field f).fieldsBytes fs ++ more)).1 ((whole_name hf).mp hfwhole)
      rw [← hbuf, ← h.pos, List.length_append] at hname
      have hread := h.field_of_whole hfwhole
      have hend := hread.pos
      rw [← List.append_nil (before ++ gap ++ L.fieldBytes f)] at hread
      have hrest := ih hread htail
      rw [List.append_nil, hend, List.append_assoc _ _ more, ← hbuf] at hrest
      rw [fieldGaps_name hf, wireFields_name hf]
      exact ⟨_, j, _, _, hname, hrest, by rw [hwin]⟩

theorem good_of_rdataAt (h : Readable (before ++ gap) L) {fs : List Field} (more : Bytes) (stop : ℕ)
    {w : WireRdata}
    (hat : RdataAt (before ++ gap ++ L.fieldsBytes fs ++ more) stop (fieldGaps gap.length fs) before.length w)
    (hnames : NamesSpell fs w.names) : ∀ f ∈ fs, f.Good := by
  induction fs generalizing before gap L w with
  | nil => simp
  | cons f fs ih =>
    rw [fieldsBytes_cons] at hat
    rw [List.forall_mem_cons]
    obtain ⟨bytes, rfl⟩ | ⟨n, hf⟩ := f.raw_or_name
    · have hread := h.append bytes
      rw [List.append_assoc] at hread
      refine ⟨trivial, ih hread ?_ hnames⟩
      rw [List.length_append, ← List.append_assoc before, List.append_assoc _ _ more]
      exact hat
    · rw [fieldGaps_name hf] at hat
      obtain ⟨labels, j, e, rest, hname, hrest, rfl⟩ := hat
      obtain ⟨hspells, hnames⟩ := (namesSpell_name hf).mp hnames
      rw [← List.length_append, h.pos] at hname
      have hfield := h.nameAt_field hf ((L.field f).fieldsBytes fs ++ more)
      have hn := hfield.2 _ _ _ hname hspells.1
      obtain ⟨j', hname'⟩ := hfield.1 hn.whole
      obtain ⟨_, _, rfl⟩ := hname.unique hname'
      have hread := h.field_of_whole ((whole_name hf).mpr hn.whole)
      rw [← hread.pos, ← List.append_assoc] at hrest
      rw [← List.append_nil (before ++ gap ++ L.fieldBytes f)] at hread
      refine ⟨(good_name hf).mpr hn, ih hread ?_ hnames⟩
      rwa [List.append_nil]

theorem fields_of_whole (h : Readable buf L) {fs : List Field} (hwhole : ∀ f ∈ fs, f.Whole) :
    Readable (buf ++ L.fieldsBytes fs) (L.fields fs) := by
  induction fs generalizing buf L with
  | nil => simpa [Layout.fieldsBytes, Layout.fields] using h
  | cons f fs ih =>
    rw [List.forall_mem_cons] at hwhole
    have hrest := ih (h.field_of_whole hwhole.1) hwhole.2
    rw [List.append_assoc] at hrest
    exact hrest

/-! ## Records -/

theorem rdata_of_whole (h : Readable buf L) {r : DnsRecord} (hwhole : WholeName r.domain) :
    Readable (buf ++ L.nameBytes r.domain ++ (bytes16 r.recordType ++ bytes16 (recordClass r) ++
      bytes32 r.ttl ++ bytes16 (UInt16.ofNat (L.rdataBytes r).length)) ++ []) (L.rdata r) := by
  rw [List.append_nil]
  exact h.rdata hwhole

theorem record_of_whole (h : Readable buf L) {r : DnsRecord} (hwhole : WholeRecord r) :
    Readable (buf ++ L.recordBytes r) (L.record r) := by
  rw [← List.append_nil (buf ++ L.recordBytes r), recordBytes_eq, List.append_nil]
  exact (h.rdata hwhole.owner).fields_of_whole hwhole.fields

theorem toNat_rdlength {r : DnsRecord} (hfit : (L.rdataBytes r).length ≤ 65535) :
    (L.name r.domain).pos + 10 + (UInt16.ofNat (L.rdataBytes r).length).toNat = (L.record r).pos := by
  rw [length_rdataBytes, UInt16.toNat_ofNat', Nat.mod_eq_of_lt (by omega)]

theorem owner_of_whole (h : Readable buf L) {r : DnsRecord} (hwhole : WholeName r.domain) (more : Bytes) :
    NameAt (buf ++ L.recordBytes r ++ more) L.pos (wireName r.domain) (L.nameJumps r.domain)
      (L.name r.domain).pos := by
  rw [recordBytes_eq, List.append_assoc, List.append_assoc]
  exact h.nameAt_of_whole hwhole _

/-- **A record without empty labels stands on the wire as it is meant.** -/
theorem recordAt (h : Readable buf L) {r : DnsRecord} (hwhole : WholeRecord r)
    (hfit : (L.rdataBytes r).length ≤ 65535) (more : Bytes) :
    RecordAt (buf ++ L.recordBytes r ++ more) L.pos (wireOf r) (L.record r).pos := by
  refine ⟨_, _, _, h.owner_of_whole hwhole.owner more, headAt_recordBytes h.pos r more,
    (toNat_rdlength hfit).symm, ?_⟩
  have hread := h.rdata_of_whole hwhole.owner
  have hrdata := hread.rdataAt hwhole.fields more
  have hpos := hread.pos
  rw [List.append_nil] at hpos hrdata
  rw [hpos, ← recordBytes_eq] at hrdata
  rw [show nameGaps (wireOf r).rtype = fieldGaps 0 (recordFields r) from nameGaps_recordType r]
  exact hrdata

theorem rtype_of_recordAt (h : Readable buf L) {r : DnsRecord} (hwhole : WholeName r.domain) {w : WireRecord} {e : ℕ}
    (hat : RecordAt (buf ++ L.recordBytes r ++ more) L.pos w e) : w.rtype = r.recordType := by
  obtain ⟨j, m, len, howner, head, rfl, hrdata⟩ := hat
  obtain ⟨_, _, rfl⟩ := howner.unique (h.owner_of_whole hwhole more)
  exact (head.unique (headAt_recordBytes h.pos r more)).1

/-- **A record that is found as what it was read from has good names.** -/
theorem good_of_recordAt (h : Readable buf L) {r : DnsRecord} {w : WireRecord} {e : ℕ}
    (hat : RecordAt (buf ++ L.recordBytes r ++ more) L.pos w e) (hread : ReadFrom r w) : GoodRecord r := by
  obtain ⟨j, m, len, howner, head, rfl, hrdata⟩ := hat
  have hgood : GoodName r.domain := by
    cases hopt : r.isOpt with
    | true => exact (goodRecord_opt hopt).owner
    | false =>
      have hname := howner
      rw [recordBytes_eq, List.append_assoc, List.append_assoc] at hname
      exact (h.nameAt_nameBytes hname).2 (hread.owner hopt).1
  obtain ⟨_, _, rfl⟩ := howner.unique (h.owner_of_whole hgood.whole more)
  refine ⟨hgood, ?_⟩
  have hfields := h.rdata_of_whole hgood.whole
  have hpos := hfields.pos
  rw [List.append_nil] at hpos
  rw [← hread.rtype, nameGaps_recordType, recordBytes_eq] at hrdata
  refine hfields.good_of_rdataAt more ((L.name r.domain).pos + 10 + len.toNat) ?_ hread.names
  rw [List.append_nil, hpos]
  exact hrdata

/-! ## Sections -/

theorem recordsAt (h : Readable buf L) {rs : List DnsRecord} (hwhole : ∀ r ∈ rs, WholeRecord r)
    (hfit : L.RecordsFit rs) (more : Bytes) :
    RecordsAt (buf ++ L.recordsBytes rs ++ more) L.pos (rs.map wireOf) (L.records rs).pos ∧
      Readable (buf ++ L.recordsBytes rs) (L.records rs) := by
  induction rs generalizing buf L with
  | nil => exact ⟨rfl, by simpa [Layout.recordsBytes, Layout.records] using h⟩
  | cons r rs ih =>
    rw [List.forall_mem_cons] at hwhole
    obtain ⟨hat, hread⟩ := ih (h.record_of_whole hwhole.1) hwhole.2 hfit.2
    have hbuf : buf ++ L.recordsBytes (r :: rs) = buf ++ L.recordBytes r ++ (L.record r).recordsBytes rs := by
      simp [Layout.recordsBytes]
    rw [hbuf]
    refine ⟨⟨_, ?_, hat⟩, hread⟩
    rw [List.append_assoc]
    exact h.recordAt hwhole.1 hfit.1 _

theorem recordsAt_tail (h : Readable buf L) {r : DnsRecord} {rs : List DnsRecord} (hwhole : WholeRecord r)
    (hfit : (L.rdataBytes r).length ≤ 65535) {w : WireRecord} {ws : List WireRecord} {e : ℕ}
    (hat : RecordsAt (buf ++ L.recordsBytes (r :: rs) ++ more) L.pos (w :: ws) e) :
    w = wireOf r ∧
      RecordsAt (buf ++ L.recordBytes r ++ (L.record r).recordsBytes rs ++ more) (L.record r).pos ws e := by
  have hbuf : buf ++ L.recordsBytes (r :: rs) ++ more =
      buf ++ L.recordBytes r ++ ((L.record r).recordsBytes rs ++ more) := by
    simp [Layout.recordsBytes]
  obtain ⟨m, hw, hws⟩ := hat
  rw [hbuf] at hw hws
  obtain ⟨rfl, rfl⟩ := hw.unique (h.recordAt hwhole hfit _)
  rw [← List.append_assoc] at hws
  exact ⟨rfl, hws⟩

theorem recordAt_head {r : DnsRecord} {rs : List DnsRecord} {w : WireRecord} {ws : List WireRecord} {e : ℕ}
    (hat : RecordsAt (buf ++ L.recordsBytes (r :: rs) ++ more) L.pos (w :: ws) e) :
    ∃ m, RecordAt (buf ++ L.recordBytes r ++ ((L.record r).recordsBytes rs ++ more)) L.pos w m := by
  obtain ⟨m, hw, _⟩ := hat
  have hbuf : buf ++ L.recordsBytes (r :: rs) ++ more =
      buf ++ L.recordBytes r ++ ((L.record r).recordsBytes rs ++ more) := by
    simp [Layout.recordsBytes]
  exact ⟨m, hbuf ▸ hw⟩

theorem good_of_recordsAt (h : Readable buf L) {rs : List DnsRecord} {ws : List WireRecord} {e : ℕ}
    (hfit : L.RecordsFit rs) (hat : RecordsAt (buf ++ L.recordsBytes rs ++ more) L.pos ws e)
    (hread : List.Forall₂ ReadFrom rs ws) : ∀ r ∈ rs, GoodRecord r := by
  induction hread generalizing buf L with
  | nil => simp
  | cons hr _ ih =>
    obtain ⟨m, hw⟩ := recordAt_head hat
    have hgood := h.good_of_recordAt hw hr
    rw [List.forall_mem_cons]
    exact ⟨hgood, ih (h.record_of_whole hgood.whole) hfit.2 (h.recordsAt_tail hgood.whole hfit.1 hat).2⟩

/-- Only the records other than OPT have to be found as what they were read from, if no owner leads
the reader astray. -/
theorem good_of_recordsAt_withoutOpt (h : Readable buf L) {rs : List DnsRecord} {ws : List WireRecord} {e : ℕ}
    (hfit : L.RecordsFit rs) (hat : RecordsAt (buf ++ L.recordsBytes rs ++ more) L.pos ws e)
    (hlen : ws.length = rs.length) (howner : ∀ r ∈ rs, GoodName r.domain)
    (hread : ReadAll (rs.filter fun r => !r.isOpt) (ws.filter fun w => !w.isOpt)) :
    ∀ r ∈ rs, GoodRecord r := by
  induction rs generalizing buf L ws with
  | nil => simp
  | cons r rs ih =>
    obtain ⟨w, ws, rfl⟩ := List.exists_cons_of_length_eq_add_one hlen
    rw [List.forall_mem_cons] at howner ⊢
    obtain ⟨m, hw⟩ := recordAt_head hat
    have htype := h.rtype_of_recordAt howner.1.whole hw
    have hlen' : ws.length = rs.length := Nat.succ.inj hlen
    have hsame := isOpt_of_rtype htype.symm
    cases hopt : r.isOpt with
    | true =>
      have hgood := goodRecord_opt hopt
      rw [List.filter_cons_of_neg (by simp [hopt]), List.filter_cons_of_neg (by simp [hsame, hopt])] at hread
      exact ⟨hgood, ih (h.record_of_whole hgood.whole) hfit.2 (h.recordsAt_tail hgood.whole hfit.1 hat).2 hlen' howner.2
        hread⟩
    | false =>
      rw [List.filter_cons_of_pos (by simp [hopt]), List.filter_cons_of_pos (by simp [hsame, hopt])] at hread
      cases hread with
      | read hr hread =>
        have hgood := h.good_of_recordAt hw hr
        exact ⟨hgood, ih (h.record_of_whole hgood.whole) hfit.2 (h.recordsAt_tail hgood.whole hfit.1 hat).2 hlen' howner.2
        hread⟩
      | skip hskip _ => exact absurd htype.symm (hskip r)

theorem questionsAt (h : Readable buf L) {qs : List DnsQuestion} (hwhole : ∀ q ∈ qs, WholeName q.qname)
    (more : Bytes) :
    QuestionsAt (buf ++ L.questionsBytes qs ++ more) qs.length L.pos (L.questions qs).pos ∧
      Readable (buf ++ L.questionsBytes qs) (L.questions qs) := by
  induction qs generalizing buf L with
  | nil => exact ⟨rfl, by simpa [Layout.questionsBytes, Layout.questions] using h⟩
  | cons q qs ih =>
    rw [List.forall_mem_cons] at hwhole
    have hnext := h.question_of_whole hwhole.1
    obtain ⟨hat, hread⟩ := ih hnext hwhole.2
    have hbuf : buf ++ L.questionsBytes (q :: qs) = buf ++ L.questionBytes q ++ (L.question q).questionsBytes qs := by
      simp [Layout.questionsBytes]
    rw [hbuf]
    refine ⟨⟨wireName q.qname, L.nameJumps q.qname, (L.name q.qname).pos, ?_, ?_, hat⟩, hread⟩
    · have hname := h.nameAt_of_whole hwhole.1 (bytes16 q.qtype ++ bytes16 q.qclass ++
        (L.question q).questionsBytes qs ++ more)
      simpa [Layout.questionBytes, wireName] using hname
    · have hpos := hnext.pos
      rw [Layout.question, Layout.advance_pos] at hpos
      rw [← hpos]
      simp only [List.length_append]
      omega

end Readable

/-! ## Messages -/

def DnsPacket.wireSections (p : DnsPacket) : WireSections :=
  ⟨p.answers.map wireOf, p.authorities.map wireOf, p.additionals.map wireOf⟩

/-- No label of the questions of a packet is empty, its sections can be counted and its rdata fit. -/
structure DnsPacket.Writable (p : DnsPacket) : Prop where
  questions : ∀ q ∈ p.questions, WholeName q.qname
  counted : p.Counted
  fits : p.Fits

theorem carries_toBytes {p : DnsPacket} (hp : p.Writable) {s : WireSections} :
    Carries p.toBytes s ↔ ∃ o₁ o₂ o₃, s.answers.length = p.answers.length ∧
      RecordsAt p.toBytes (Layout.start.questions p.questions).pos s.answers o₁ ∧
      s.authorities.length = p.authorities.length ∧ RecordsAt p.toBytes o₁ s.authorities o₂ ∧
      s.additionals.length = p.additionals.length ∧ RecordsAt p.toBytes o₂ s.additionals o₃ := by
  have hheader : parseHeader p.toBytes = ok p.recounted.header := by
    rw [toBytes_eq, List.append_assoc]
    exact parseHeader_append p _
  have hqs : QuestionsAt p.toBytes p.questions.length 12 (Layout.start.questions p.questions).pos := by
    rw [toBytes_eq]
    exact ((readable_start p).questionsAt hp.questions _).1
  have hcounts : p.recounted.header.questions.toNat = p.questions.length ∧
      p.recounted.header.answers.toNat = p.answers.length ∧
      p.recounted.header.authorities.toNat = p.authorities.length ∧
      p.recounted.header.additionals.toNat = p.additionals.length :=
    ⟨toNat_count hp.counted.questions, toNat_count hp.counted.answers, toNat_count hp.counted.authorities,
      toNat_count hp.counted.additionals⟩
  obtain ⟨hq, hans, haut, hadd⟩ := hcounts
  constructor
  · rintro ⟨header, o₀, o₁, o₂, o₃, hheader', h₀, hlen₁, h₁, hlen₂, h₂, hlen₃, h₃⟩
    obtain rfl := Outcome.ok.inj (hheader.symm.trans hheader')
    rw [hq] at h₀
    obtain rfl := hqs.unique h₀
    exact ⟨o₁, o₂, o₃, hlen₁.trans hans, h₁, hlen₂.trans haut, h₂, hlen₃.trans hadd, h₃⟩
  · rintro ⟨o₁, o₂, o₃, hlen₁, h₁, hlen₂, h₂, hlen₃, h₃⟩
    exact ⟨_, _, o₁, o₂, o₃, hheader, by rw [hq]; exact hqs, hlen₁.trans hans.symm, h₁, hlen₂.trans haut.symm, h₂,
      hlen₃.trans hadd.symm, h₃⟩

theorem toBytes_sections {p : DnsPacket} (hp : p.Writable) : ∃ buf L,
    Readable buf L ∧ L.pos = (Layout.start.questions p.questions).pos ∧
      p.toBytes = buf ++ L.recordsBytes p.answers ++ (L.records p.answers).recordsBytes p.authorities ++
        ((L.records p.answers).records p.authorities).recordsBytes p.additionals ∧
      L.RecordsFit p.answers ∧ (L.records p.answers).RecordsFit p.authorities ∧
      ((L.records p.answers).records p.authorities).RecordsFit p.additionals := by
  have hfit := hp.fits
  rw [DnsPacket.Fits, DnsPacket.records, Layout.recordsFit_append, Layout.recordsFit_append,
    Layout.records_append] at hfit
  refine ⟨_, _, ((readable_start p).questionsAt hp.questions []).2, rfl, ?_, hfit.1.1, hfit.1.2, hfit.2⟩
  rw [toBytes_eq, DnsPacket.records, Layout.recordsBytes_append, Layout.recordsBytes_append, Layout.records_append]
  simp only [List.append_assoc]

/-- **A packet without empty labels is carried by its message as it is meant.** -/
theorem carries_of_whole {p : DnsPacket} (hp : p.Writable) (hwhole : ∀ r ∈ p.records, WholeRecord r) :
    Carries p.toBytes p.wireSections := by
  obtain ⟨buf, L, hread, hpos, hbytes, hfit₁, hfit₂, hfit₃⟩ := toBytes_sections hp
  have hans : ∀ r ∈ p.answers, WholeRecord r := fun r hr => hwhole r (by simp [DnsPacket.records, hr])
  have haut : ∀ r ∈ p.authorities, WholeRecord r := fun r hr => hwhole r (by simp [DnsPacket.records, hr])
  have hadd : ∀ r ∈ p.additionals, WholeRecord r := fun r hr => hwhole r (by simp [DnsPacket.records, hr])
  rw [carries_toBytes hp, hbytes, ← hpos]
  obtain ⟨h₁, hread₁⟩ := hread.recordsAt hans hfit₁ ((L.records p.answers).recordsBytes p.authorities ++
    ((L.records p.answers).records p.authorities).recordsBytes p.additionals)
  obtain ⟨h₂, hread₂⟩ := hread₁.recordsAt haut hfit₂
    (((L.records p.answers).records p.authorities).recordsBytes p.additionals)
  obtain ⟨h₃, _⟩ := hread₂.recordsAt hadd hfit₃ []
  rw [← List.append_assoc] at h₁
  rw [List.append_nil] at h₃
  exact ⟨_, _, _, List.length_map _, h₁, List.length_map _, h₂, List.length_map _, h₃⟩

/-- **A packet that is found as what it was read from has good names.** -/
theorem good_of_carries {p : DnsPacket} (hp : p.Writable) {s : WireSections} (hs : Carries p.toBytes s)
    (hans : List.Forall₂ ReadFrom p.answers s.answers) (haut : List.Forall₂ ReadFrom p.authorities s.authorities)
    (howner : ∀ r ∈ p.additionals, GoodName r.domain)
    (hadd : ReadAll (p.additionals.filter fun r => !r.isOpt) (s.additionals.filter fun w => !w.isOpt)) :
    ∀ r ∈ p.records, GoodRecord r := by
  obtain ⟨buf, L, hread, hpos, hbytes, hfit₁, hfit₂, hfit₃⟩ := toBytes_sections hp
  obtain ⟨o₁, o₂, o₃, hlen₁, h₁, hlen₂, h₂, hlen₃, h₃⟩ := (carries_toBytes hp).mp hs
  rw [hbytes, ← hpos] at h₁
  rw [hbytes] at h₂ h₃
  rw [List.append_assoc] at h₁
  have hgood₁ := hread.good_of_recordsAt hfit₁ h₁ hans
  have hwhole₁ : ∀ r ∈ p.answers, WholeRecord r := fun r hr => (hgood₁ r hr).whole
  obtain ⟨hat₁, hread₁⟩ := hread.recordsAt hwhole₁ hfit₁ ((L.records p.answers).recordsBytes p.authorities ++
    ((L.records p.answers).records p.authorities).recordsBytes p.additionals)
  obtain ⟨_, rfl⟩ := h₁.unique hat₁ (by rw [hlen₁, List.length_map])
  have hgood₂ := hread₁.good_of_recordsAt hfit₂ h₂ haut
  have hwhole₂ : ∀ r ∈ p.authorities, WholeRecord r := fun r hr => (hgood₂ r hr).whole
  obtain ⟨hat₂, hread₂⟩ := hread₁.recordsAt hwhole₂ hfit₂
    (((L.records p.answers).records p.authorities).recordsBytes p.additionals)
  obtain ⟨_, rfl⟩ := h₂.unique hat₂ (by rw [hlen₂, List.length_map])
  rw [← List.append_nil (_ ++ _)] at h₃
  have hgood₃ := hread₂.good_of_recordsAt_withoutOpt hfit₃ h₃ hlen₃ howner hadd
  intro r hr
  rw [DnsPacket.records, List.mem_append, List.mem_append] at hr
  obtain (hr | hr) | hr := hr
  · exact hgood₁ r hr
  · exact hgood₂ r hr
  · exact hgood₃ r hr
end MiniDns.Dns
