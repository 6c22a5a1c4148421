import MiniDns.Dns.Codec
import MiniDns.Dns.WireEncoding

/-! How many pointers a reader follows in a message. The encoder points at names that end in pointers
themselves, so a message whose names are nested in each other can need more jumps than the decoder makes. -/
namespace MiniDns.Dns
open Lib Lib.Outcome DnsRecord DnsPacket DnsPacketEncoder
set_option autoImplicit false

/-! ## Names and their jumps -/

/-- The limits of RFC 1035: labels of 1 to 63 bytes, and at most 255 bytes on the wire. -/
def ValidName (n : Text) : Prop :=
  (∀ l ∈ nameLabels n, 1 ≤ (utf8 l).length ∧ (utf8 l).length ≤ 63) ∧ (Layout.plainBytes n).length ≤ 255

instance (n : Text) : Decidable (ValidName n) := inferInstanceAs (Decidable (_ ∧ _))

def DnsPacket.names (p : DnsPacket) : List Text := p.questions.map (·.qname) ++ p.records.flatMap recordNames

namespace Layout

def fieldJumps (L : Layout) : Field → List ℕ
  | .name n => [L.nameJumps n]
  | .raw _ | .plain _ => []

def fieldsJumps (L : Layout) : List Field → List ℕ
  | [] => []
  | f :: fs => L.fieldJumps f ++ (L.field f).fieldsJumps fs

def recordJumps (L : Layout) (r : DnsRecord) : List ℕ :=
  L.nameJumps r.domain :: (L.rdata r).fieldsJumps (recordFields r)

def recordsJumps (L : Layout) : List DnsRecord → List ℕ
  | [] => []
  | r :: rs => L.recordJumps r ++ (L.record r).recordsJumps rs

def questionsJumps (L : Layout) : List DnsQuestion → List ℕ
  | [] => []
  | q :: qs => L.nameJumps q.qname :: (L.question q).questionsJumps qs

theorem labelsBytes_length_pos (L : Layout) (ls : List Text) : 0 < (L.labelsBytes ls).length := by
  cases ls with
  | nil => exact Nat.one_pos
  | cons l ls =>
    rw [labelsBytes]
    cases L.names (joinDots (l :: ls)) <;> simp [labelBytes]

theorem recordsJumps_append (L : Layout) (rs rs' : List DnsRecord) :
    L.recordsJumps (rs ++ rs') = L.recordsJumps rs ++ (L.records rs).recordsJumps rs' := by
  induction rs generalizing L with
  | nil => rfl
  | cons r rs ih => simp only [List.cons_append, recordsJumps, records, ih, List.append_assoc]

end Layout

/-- For each name that the encoder may compress, in the order of the message, the pointers on its way. -/
def DnsPacket.jumps (p : DnsPacket) : List ℕ :=
  Layout.start.questionsJumps p.questions ++ (Layout.start.questions p.questions).recordsJumps p.records

def DnsQuestion.cut (q : DnsQuestion) : DnsQuestion := { q with qname := cutName q.qname }

theorem map_cut {qs : List DnsQuestion} (h : ∀ q ∈ qs, GoodName q.qname) : qs.map DnsQuestion.cut = qs := by
  conv_rhs => rw [← List.map_id qs]
  exact List.map_congr_left fun q hq => by rw [DnsQuestion.cut, (h q hq).cutName_eq, id]

theorem ValidName.goodName {n : Text} (h : ValidName n) : GoodName n := by
  intro l hl
  obtain ⟨hpos, hle⟩ := h.1 l hl
  refine goodLabel_of_length_le ?_ hle
  rintro rfl
  exact absurd hpos (by decide)

theorem goodRecord_of_names {r : DnsRecord} (h : ∀ n ∈ recordNames r, GoodName n) : GoodRecord r := by
  obtain ⟨howner, hfields⟩ := List.forall_mem_cons.mp h
  exact ⟨howner, forall_good_iff.mpr hfields⟩

/-! ## Reads that end at the limit -/

section Limited
variable {α β : Type} {js js' : List ℕ} {a : α} {b : β} {f : α → Outcome DnsError β}

/-- A read that meets these jumps on its way. -/
def limited (js : List ℕ) (a : α) : Outcome DnsError α :=
  if ∀ j ∈ js, j ≤ maxPointerJumps then ok a else err .pointerLoop

theorem limited_nil (a : α) : limited [] a = ok a := if_pos (List.forall_mem_nil _)

theorem limited_singleton (j : ℕ) (a : α) :
    limited [j] a = if j ≤ maxPointerJumps then ok a else err .pointerLoop :=
  if_congr List.forall_mem_singleton rfl rfl

theorem limited_bind (h : f a = limited js' b) : (limited js a >>= f) = limited (js ++ js') b := by
  by_cases hjs : ∀ j ∈ js, j ≤ maxPointerJumps
  · rw [limited, if_pos hjs, ok_bind, h]
    refine if_congr ?_ rfl rfl
    rw [List.forall_mem_append]
    exact ⟨fun hjs' => ⟨hjs, hjs'⟩, fun hboth => hboth.2⟩
  · rw [limited, if_neg hjs, err_bind]
    exact (if_neg fun hboth => hjs (List.forall_mem_append.mp hboth).1).symm

theorem limited_bind_ok (h : f a = ok b) : (limited js a >>= f) = limited js b := by
  have hbind := (limited_bind (h.trans (limited_nil b).symm) : (limited js a >>= f) = limited (js ++ []) b)
  rwa [List.append_nil] at hbind

theorem limited_ne_pointerLoop : limited js a ≠ err .pointerLoop ↔ ∀ j ∈ js, j ≤ maxPointerJumps := by
  unfold limited
  split <;> simp_all

end Limited

/-! ## Pieces of rdata -/

/-- The pieces stand one behind the other up to a name that needs too many jumps. -/
def FieldsLoop (buf : Bytes) : List Field → ℕ → Prop
  | [], _ => False
  | .raw bytes :: fs, o => window buf o bytes.length = bytes ∧ FieldsLoop buf fs (o + bytes.length)
  | .name n :: fs, o => parseQname buf o = err .pointerLoop ∨ ∃ e, parseQname buf o = ok (n, e) ∧ FieldsLoop buf fs e
  | .plain n :: fs, o => ∃ e, parseQname buf o = ok (n, e) ∧ FieldsLoop buf fs e

theorem parseRdata_of_fieldsLoop {buf : Bytes} {start dataLen : ℕ} (r : DnsRecord)
    (h : FieldsLoop buf (recordFields r) start) (hmx : ∀ d preference n t, r = .mx d preference n t → 3 ≤ dataLen) :
    parseRdata buf r.domain r.ttl start dataLen r.recordType (recordClass r) = some (err .pointerLoop) := by
  cases r with
  | cname d n t =>
    obtain hloop | ⟨_, _, hnil⟩ := h
    · change some (rdataName buf d t start .cname) = _
      rw [rdataName, hloop, err_bind]
    · cases hnil
  | ns d n t =>
    obtain hloop | ⟨_, _, hnil⟩ := h
    · change some (rdataName buf d t start .ns) = _
      rw [rdataName, hloop, err_bind]
    · cases hnil
  | ptr d n t =>
    obtain hloop | ⟨_, _, hnil⟩ := h
    · change some (rdataName buf d t start .ptr) = _
      rw [rdataName, hloop, err_bind]
    · cases hnil
  | mx d preference n t =>
    obtain ⟨hpref, hloop | ⟨_, _, hnil⟩⟩ := h
    · change some (rdataMx buf d t start dataLen) = _
      rw [rdataMx, if_neg (Nat.not_lt.mpr (hmx d preference n t rfl)), u16At_of_window hpref, ok_bind]
      exact congrArg some (congrArg (· >>= _) hloop)
    · cases hnil
  | soa d mname rname serial refresh retry expire minimum t =>
    change some (rdataSoa buf d t start) = _
    obtain hloop | ⟨e, hm, hloop | ⟨_, _, _, _, _, _, _, hnil⟩⟩ := h
    · rw [rdataSoa, hloop, err_bind]
    · rw [rdataSoa, hm, ok_bind]
      exact congrArg some (congrArg (· >>= _) hloop)
    · cases hnil
  | a | aaaa | txt => exact h.2.elim
  | caa => exact h.2.2.2.2.elim
  | opt => exact h.elim
  | dnskey | ds => exact h.2.2.2.2.elim
  | srv =>
    obtain ⟨_, _, _, _, _, hnil⟩ := h
    cases hnil
  | rrsig =>
    obtain ⟨_, _, _, _, _, _, _, _, _, _, hnil⟩ := h
    cases hnil
  | nsec =>
    obtain ⟨_, _, _, hnil⟩ := h
    cases hnil

theorem Layout.fieldsSurvive_of_jumps {L : Layout} {fs : List Field} (hgood : ∀ f ∈ fs, f.Good)
    (hjs : ∀ j ∈ L.fieldsJumps fs, j ≤ maxPointerJumps) : L.FieldsSurvive fs := by
  induction fs generalizing L with
  | nil => trivial
  | cons f fs ih =>
    rw [List.forall_mem_cons] at hgood
    rw [Layout.fieldsJumps, List.forall_mem_append] at hjs
    refine ⟨?_, ih hgood.2 hjs.2⟩
    cases f with
    | raw bytes => trivial
    | name n => exact ⟨hgood.1, hjs.1 _ List.mem_cons_self⟩
    | plain n => exact hgood.1

namespace Readable
variable {buf : Bytes} {L : Layout}

/-- A name is read, with its labels cut, or it needs too many jumps. -/
theorem parseQname_limited (h : Readable buf L) {n : Text} (hwhole : WholeName n) (more : Bytes) :
    parseQname (buf ++ L.nameBytes n ++ more) L.pos = limited [L.nameJumps n] (cutName n, (L.name n).pos) := by
  have hname := h.nameAt_of_whole hwhole more
  rw [limited_singleton]
  split
  · rename_i hj
    exact parseQname_eq_ok.mpr ⟨_, _, hname, hj, rfl⟩
  · rename_i hj
    exact parseQname_of_deep hname (Nat.not_le.mp hj)

theorem fieldsLoop (h : Readable buf L) {fs : List Field} (hgood : ∀ f ∈ fs, f.Good)
    (hjs : ¬ ∀ j ∈ L.fieldsJumps fs, j ≤ maxPointerJumps) (more : Bytes) :
    FieldsLoop (buf ++ L.fieldsBytes fs ++ more) fs L.pos := by
  induction fs generalizing buf L with
  | nil => exact hjs (List.forall_mem_nil _)
  | cons f fs ih =>
    rw [List.forall_mem_cons] at hgood
    have hbuf : buf ++ L.fieldsBytes (f :: fs) ++ more = buf ++ L.fieldBytes f ++ (L.field f).fieldsBytes fs ++ more := by
      simp [Layout.fieldsBytes]
    have hrest := ih (h.field_of_whole hgood.1.whole) hgood.2
    rw [hbuf]
    rw [Layout.fieldsJumps, List.forall_mem_append] at hjs
    cases f with
    | raw bytes =>
      refine ⟨?_, hrest fun hall => hjs ⟨List.forall_mem_nil _, hall⟩⟩
      rw [List.append_assoc, ← h.pos]
      exact window_append buf bytes _
    | name n =>
      have hname := h.parseQname_limited (GoodName.whole hgood.1) ((L.name n).fieldsBytes fs ++ more)
      rw [GoodName.cutName_eq hgood.1, ← List.append_assoc, limited] at hname
      split at hname
      · rename_i hj
        exact .inr ⟨_, hname, hrest fun hall => hjs ⟨hj, hall⟩⟩
      · exact .inl hname
    | plain n =>
      refine ⟨_, ?_, hrest fun hall => hjs ⟨List.forall_mem_nil _, hall⟩⟩
      have hname := (parseQname_plainBytes buf n ((L.field (.plain n)).fieldsBytes fs ++ more) _).mpr ⟨hgood.1, rfl⟩
      rw [h.pos, ← List.append_assoc] at hname
      exact hname

/-! ## Records -/

theorem three_le_length_mx (L : Layout) (d : Text) (preference : UInt16) (n : Text) (t : UInt32) :
    3 ≤ (L.rdataBytes (.mx d preference n t)).length := by
  have hpos := ((L.rdata (.mx d preference n t)).field (.raw (bytes16 preference))).labelsBytes_length_pos (nameLabels n)
  simp only [Layout.rdataBytes, recordFields, Layout.fieldsBytes, Layout.fieldBytes, Layout.nameBytes,
    List.length_append, bytes16_length]
  omega

theorem parseRdata_limited (h : Readable buf L) {r : DnsRecord} (hgood : GoodRecord r) (more : Bytes) :
    parseRdata (buf ++ L.recordBytes r ++ more) r.domain r.ttl ((L.name r.domain).pos + 10)
        (L.rdataBytes r).length r.recordType (recordClass r) =
      some (limited ((L.rdata r).fieldsJumps (recordFields r)) r.reread) := by
  by_cases hjs : ∀ j ∈ (L.rdata r).fieldsJumps (recordFields r), j ≤ maxPointerJumps
  · rw [limited, if_pos hjs]
    exact h.parseRdata_of_fieldsSurvive hgood.owner (Layout.fieldsSurvive_of_jumps hgood.fields hjs) more
  · rw [limited, if_neg hjs]
    refine parseRdata_of_fieldsLoop r ?_ ?_
    rotate_left
    · rintro d preference n t rfl
      exact three_le_length_mx L d preference n t
    have hloop := (h.rdata hgood.owner.whole).fieldsLoop hgood.fields hjs more
    rw [← recordBytes_eq] at hloop
    exact hloop

theorem parseRecord_limited (h : Readable buf L) {r : DnsRecord} (hgood : GoodRecord r)
    (hfit : (L.rdataBytes r).length ≤ 65535) (more : Bytes) :
    parseRecord (buf ++ L.recordBytes r ++ more) L.pos =
      limited (L.recordJumps r) (some r.reread, (L.record r).pos) := by
  have hrdata := h.parseRdata_limited hgood more
  by_cases hj : L.nameJumps r.domain ≤ maxPointerJumps
  · rw [parseRecord_of_head (h.recordHead ⟨hgood.owner, hj⟩ more), toNat_count hfit, hrdata,
      ← length_rdataBytes L r]
    dsimp only
    rw [limited_bind_ok (f := fun r' => ok (some r', (L.record r).pos)) rfl]
    exact if_congr (by rw [Layout.recordJumps, List.forall_mem_cons, and_iff_right hj]) rfl rfl
  · have hname := h.owner_of_whole hgood.owner.whole more
    rw [parseRecord, parseQname_of_deep hname (Nat.not_le.mp hj), err_bind]
    exact (if_neg fun hall => hj (hall _ List.mem_cons_self)).symm

/-! ## Sections -/

theorem parseSection_limited (h : Readable buf L) {rs : List DnsRecord} (hgood : ∀ r ∈ rs, GoodRecord r)
    (hfit : L.RecordsFit rs) (more : Bytes) :
    parseSection (buf ++ L.recordsBytes rs ++ more) rs.length L.pos =
      limited (L.recordsJumps rs) (rs.map DnsRecord.reread, (L.records rs).pos) := by
  induction rs generalizing buf L with
  | nil => exact (limited_nil _).symm
  | cons r rs ih =>
    rw [List.forall_mem_cons] at hgood
    have hbuf : buf ++ L.recordsBytes (r :: rs) ++ more =
        buf ++ L.recordBytes r ++ ((L.record r).recordsBytes rs ++ more) := by simp [Layout.recordsBytes]
    have hrest := ih (h.record_of_whole hgood.1.whole) hgood.2 hfit.2
    rw [List.append_assoc, ← hbuf] at hrest
    have hrecord := h.parseRecord_limited hgood.1 hfit.1 ((L.record r).recordsBytes rs ++ more)
    rw [← hbuf] at hrecord
    rw [List.length_cons, parseSection, hrecord]
    refine limited_bind ?_
    dsimp only
    rw [hrest]
    exact limited_bind_ok rfl

theorem parseQuestions_limited (h : Readable buf L) {qs : List DnsQuestion} (hwhole : ∀ q ∈ qs, WholeName q.qname)
    (more : Bytes) :
    parseQuestions (buf ++ L.questionsBytes qs ++ more) qs.length L.pos =
      limited (L.questionsJumps qs) (qs.map DnsQuestion.cut, (L.questions qs).pos) := by
  induction qs generalizing buf L with
  | nil => exact (limited_nil _).symm
  | cons q qs ih =>
    rw [List.forall_mem_cons] at hwhole
    obtain ⟨hlen, htype, hclass⟩ := question_tail h.pos q qs more
    have hname := h.parseQname_limited hwhole.1 (bytes16 q.qtype ++ bytes16 q.qclass ++
      (L.question q).questionsBytes qs ++ more)
    rw [← questionsBytes_name] at hname
    have hrest := ih (h.question_of_whole hwhole.1) hwhole.2
    rw [← questionsBytes_question] at hrest
    rw [List.length_cons, parseQuestions, hname]
    refine limited_bind ?_
    dsimp only
    rw [if_neg (Nat.not_lt.mpr hlen), htype, ok_bind, hclass, ok_bind]
    refine (congrArg (· >>= _) hrest).trans ?_
    exact limited_bind_ok rfl

end Readable

/-! ## Messages -/

def DnsPacket.reread (p : DnsPacket) : DnsPacket :=
  { p.recounted with
    answers := p.answers.map DnsRecord.reread
    authorities := p.authorities.map DnsRecord.reread
    additionals := p.additionals.map DnsRecord.reread }

/-- **A message with questions alone is read, or it has a name that needs too many jumps.** -/
theorem fromBytes_of_questions (p : DnsPacket) (hcount : p.Counted) (hrecords : p.records = [])
    (hwhole : ∀ q ∈ p.questions, WholeName q.qname) :
    fromBytes p.toBytes = limited (Layout.start.questionsJumps p.questions)
      ⟨p.recounted.header, p.questions.map DnsQuestion.cut, [], [], []⟩ := by
  have hparse := (readable_start p).parseQuestions_limited hwhole
    ((Layout.start.questions p.questions).recordsBytes p.records)
  rw [← toBytes_eq] at hparse
  simp only [DnsPacket.records, List.append_eq_nil_iff] at hrecords
  obtain ⟨⟨hans, haut⟩, hadd⟩ := hrecords
  rw [fromBytes_toBytes_eq p hcount, hans, haut, hadd]
  exact (congrArg (· >>= _) hparse).trans (limited_bind_ok rfl)

/-- **A message whose names are good is read, or it has a name that needs too many jumps.** -/
theorem fromBytes_toBytes_limited (p : DnsPacket) (hp : p.Writable) (hqs : ∀ q ∈ p.questions, GoodName q.qname)
    (hgood : ∀ r ∈ p.records, GoodRecord r) :
    fromBytes p.toBytes = limited p.jumps p.reread := by
  have hquestions : parseQuestions p.toBytes p.questions.length 12 =
      limited (Layout.start.questionsJumps p.questions) (p.questions, (Layout.start.questions p.questions).pos) := by
    have hparse := (readable_start p).parseQuestions_limited hp.questions
      ((Layout.start.questions p.questions).recordsBytes p.records)
    rwa [← toBytes_eq, map_cut hqs] at hparse
  have hread := ((readable_start p).questionsAt hp.questions []).2
  have hfit := hp.fits
  have hbytes := toBytes_eq p
  rw [DnsPacket.Fits] at hfit
  rw [fromBytes_toBytes_eq p hp.counted, hquestions, DnsPacket.jumps]
  refine limited_bind ?_
  dsimp only
  simp only [DnsPacket.records, List.forall_mem_append, Layout.recordsFit_append, Layout.recordsBytes_append,
    Layout.recordsJumps_append, Layout.records_append, ← List.append_assoc] at hgood hfit hbytes ⊢
  generalize headerBytes p ++ Layout.start.questionsBytes p.questions = buf at *
  generalize Layout.start.questions p.questions = L at *
  obtain ⟨⟨hgood₁, hgood₂⟩, hgood₃⟩ := hgood
  obtain ⟨⟨hfit₁, hfit₂⟩, hfit₃⟩ := hfit
  have hread₁ := (hread.recordsAt (fun r hr => (hgood₁ r hr).whole) hfit₁ []).2
  have hread₂ := (hread₁.recordsAt (fun r hr => (hgood₂ r hr).whole) hfit₂ []).2
  have h₁ := hread.parseSection_limited hgood₁ hfit₁ ((L.records p.answers).recordsBytes p.authorities ++
    ((L.records p.answers).records p.authorities).recordsBytes p.additionals)
  have h₂ := hread₁.parseSection_limited hgood₂ hfit₂
    (((L.records p.answers).records p.authorities).recordsBytes p.additionals)
  have h₃ := hread₂.parseSection_limited hgood₃ hfit₃ []
  rw [← List.append_assoc, ← hbytes] at h₁
  rw [← hbytes] at h₂
  rw [List.append_nil, ← hbytes] at h₃
  rw [h₁, List.append_assoc]
  refine limited_bind ?_
  rw [h₂]
  refine limited_bind ?_
  rw [h₃]
  exact limited_bind_ok rfl

theorem fromBytes_toBytes_of_names (p : DnsPacket) (hgood : ∀ n ∈ p.names, GoodName n) (hcount : p.Counted)
    (hfit : p.Fits) : fromBytes p.toBytes = limited p.jumps p.reread := by
  obtain ⟨hquestions, hrecords⟩ := List.forall_mem_append.mp hgood
  have hqs : ∀ q ∈ p.questions, GoodName q.qname := fun q hq => hquestions _ (List.mem_map_of_mem hq)
  refine fromBytes_toBytes_limited p ⟨fun q hq => (hqs q hq).whole, hcount, hfit⟩ hqs ?_
  exact fun r hr => goodRecord_of_names fun n hn => hrecords n (List.mem_flatMap.mpr ⟨r, hr, hn⟩)

/-- **The message of a packet with valid names is not given up for a pointer loop exactly when no name of it
needs more than 64 jumps.** -/
theorem ne_pointerLoop_iff_jumps (p : DnsPacket) (hvalid : ∀ n ∈ p.names, ValidName n) (hcount : p.Counted)
    (hfit : p.Fits) : fromBytes p.toBytes ≠ err .pointerLoop ↔ ∀ j ∈ p.jumps, j ≤ maxPointerJumps := by
  rw [fromBytes_toBytes_of_names p (fun n hn => (hvalid n hn).goodName) hcount hfit]
  exact limited_ne_pointerLoop

theorem ne_pointerLoop_iff_jumps_mailReply : (∀ n ∈ mailReply.names, ValidName n) ∧
    fromBytes mailReply.toBytes ≠ err .pointerLoop :=
  ⟨by decide, (ne_pointerLoop_iff_jumps mailReply (by decide)
    ⟨by decide, by decide, by decide, by decide⟩ (by decide)).mpr (by decide)⟩

/-- Address records of the names `a`, `a.a`, `a.a.a` and so on, as a transfer lists them. -/
def nestedZone (depth : ℕ) : DnsPacket where
  header := ⟨7, 0x8400, 0, UInt16.ofNat depth, 0, 0⟩
  questions := []
  answers := (List.range depth).map fun k => .a (joinDots (List.replicate (k + 1) ['a'])) ⟨10, 0, 0, 1⟩ 60
  authorities := []
  additionals := []

/-- The sixty-sixth name is 133 bytes long, and a reader needs 65 jumps for it. -/
theorem nested_names_pointerLoop : (∀ n ∈ (nestedZone 66).names, ValidName n) ∧
    fromBytes (nestedZone 66).toBytes = err .pointerLoop := by
  have hvalid : ∀ n ∈ (nestedZone 66).names, ValidName n := by decide +kernel
  refine ⟨hvalid, ?_⟩
  rw [fromBytes_toBytes_of_names (nestedZone 66) (fun n hn => (hvalid n hn).goodName)
    ⟨by decide, by decide, by decide, by decide⟩ (by decide +kernel)]
  exact if_neg (by decide +kernel)

end MiniDns.Dns
