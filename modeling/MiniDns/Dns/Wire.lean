import MiniDns.Dns.Codec
import Mathlib.Data.List.Forall2

/-! The records of a message as they stand on the wire, of modelled and unmodelled types alike, with
the names written out. Two messages carry the same records when these agree. -/
namespace MiniDns.Dns
open Lib Lib.Outcome DnsRecord DnsPacket
set_option autoImplicit false

/-! ## Records on the wire -/

/-- Rdata with its names written out: each name with the bytes in front of it, the bytes behind the
last name, and the number of bytes by which that name leaves the rdata. -/
structure WireRdata where
  names : List (Bytes × List Bytes)
  rest : Bytes
  excess : ℕ
  deriving DecidableEq

def WireRdata.cons (gap : Bytes) (labels : List Bytes) (w : WireRdata) : WireRdata :=
  { w with names := (gap, labels) :: w.names }

structure WireRecord where
  owner : List Bytes
  rtype : UInt16
  cls : UInt16
  ttl : UInt32
  rdata : WireRdata
  deriving DecidableEq

/-- The number of bytes in front of each name in the rdata of a type. -/
def nameGaps (rtype : UInt16) : List ℕ :=
  if rtype = typeCname ∨ rtype = typeNs ∨ rtype = typePtr ∨ rtype = typeNsec then [0]
  else if rtype = typeMx then [2]
  else if rtype = typeSoa then [0, 0]
  else if rtype = typeSrv then [6]
  else if rtype = typeRrsig then [18]
  else []

def RdataAt (buf : Bytes) (stop : ℕ) : List ℕ → ℕ → WireRdata → Prop
  | [], o, w => w = ⟨[], window buf o (stop - o), o - stop⟩
  | gap :: gaps, o, w => ∃ labels j e rest, NameAt buf (o + gap) labels j e ∧
      RdataAt buf stop gaps e rest ∧ w = rest.cons (window buf o gap) labels

def RecordAt (buf : Bytes) (o : ℕ) (w : WireRecord) (e : ℕ) : Prop :=
  ∃ j m len, NameAt buf o w.owner j m ∧ HeadAt buf m w.rtype w.cls w.ttl len ∧ e = m + 10 + len.toNat ∧
    RdataAt buf e (nameGaps w.rtype) (m + 10) w.rdata

def RecordsAt (buf : Bytes) : ℕ → List WireRecord → ℕ → Prop
  | o, [], e => o = e
  | o, w :: ws, e => ∃ m, RecordAt buf o w m ∧ RecordsAt buf m ws e

def QuestionsAt (buf : Bytes) : ℕ → ℕ → ℕ → Prop
  | 0, o, e => o = e
  | count + 1, o, e => ∃ labels j m, NameAt buf o labels j m ∧ m + 4 ≤ buf.length ∧
      QuestionsAt buf count (m + 4) e

structure WireSections where
  answers : List WireRecord
  authorities : List WireRecord
  additionals : List WireRecord

/-- The sections that a reader finds in a message. -/
def Carries (msg : Bytes) (s : WireSections) : Prop :=
  ∃ header o₀ o₁ o₂ o₃, parseHeader msg = ok header ∧ QuestionsAt msg header.questions.toNat 12 o₀ ∧
    s.answers.length = header.answers.toNat ∧ RecordsAt msg o₀ s.answers o₁ ∧
    s.authorities.length = header.authorities.toNat ∧ RecordsAt msg o₁ s.authorities o₂ ∧
    s.additionals.length = header.additionals.toNat ∧ RecordsAt msg o₂ s.additionals o₃

def WireRecord.isOpt (w : WireRecord) : Bool := w.rtype == typeOpt

def WireSections.withoutOpt (s : WireSections) : WireSections :=
  { s with additionals := s.additionals.filter fun w => !w.isOpt }

/-- Two messages carry the same answers, authorities and additional records other than OPT. -/
def SameRecords (msg msg' : Bytes) : Prop :=
  ∃ s s', Carries msg s ∧ Carries msg' s' ∧ s.withoutOpt = s'.withoutOpt

/-! ## A reader finds one thing -/

section Unique
variable {buf : Bytes}

theorem RdataAt.unique {stop : ℕ} {gaps : List ℕ} {o : ℕ} {w w' : WireRdata} (h : RdataAt buf stop gaps o w)
    (h' : RdataAt buf stop gaps o w') : w = w' := by
  induction gaps generalizing o w w' with
  | nil => exact Eq.trans h (Eq.symm h')
  | cons gap gaps ih =>
    obtain ⟨labels, j, e, rest, hname, hrest, rfl⟩ := h
    obtain ⟨labels', j', e', rest', hname', hrest', rfl⟩ := h'
    obtain ⟨rfl, _, rfl⟩ := hname.unique hname'
    rw [ih hrest hrest']

theorem RecordAt.unique {o e e' : ℕ} {w w' : WireRecord} (h : RecordAt buf o w e) (h' : RecordAt buf o w' e') :
    w = w' ∧ e = e' := by
  obtain ⟨j, m, len, hname, head, rfl, hrdata⟩ := h
  obtain ⟨j', m', len', hname', head', rfl, hrdata'⟩ := h'
  obtain ⟨howner, _, rfl⟩ := hname.unique hname'
  obtain ⟨htype, hclass, httl, rfl⟩ := head.unique head'
  rw [← htype] at hrdata'
  have hsame := hrdata.unique hrdata'
  cases w
  cases w'
  simp_all

theorem RecordsAt.unique {o e e' : ℕ} {ws ws' : List WireRecord} (h : RecordsAt buf o ws e)
    (h' : RecordsAt buf o ws' e') (hlen : ws.length = ws'.length) : ws = ws' ∧ e = e' := by
  induction ws generalizing o ws' with
  | nil =>
    obtain rfl := List.eq_nil_of_length_eq_zero hlen.symm
    exact ⟨rfl, Eq.trans (Eq.symm h) h'⟩
  | cons w ws ih =>
    obtain ⟨w', ws', rfl⟩ := List.exists_cons_of_length_eq_add_one hlen.symm
    obtain ⟨m, hw, hws⟩ := h
    obtain ⟨m', hw', hws'⟩ := h'
    obtain ⟨rfl, rfl⟩ := hw.unique hw'
    obtain ⟨rfl, rfl⟩ := ih hws hws' (Nat.succ.inj hlen)
    exact ⟨rfl, rfl⟩

theorem QuestionsAt.unique {count o e e' : ℕ} (h : QuestionsAt buf count o e) (h' : QuestionsAt buf count o e') :
    e = e' := by
  induction count generalizing o with
  | zero => exact Eq.trans (Eq.symm h) h'
  | succ count ih =>
    obtain ⟨labels, j, m, hname, _, hrest⟩ := h
    obtain ⟨labels', j', m', hname', _, hrest'⟩ := h'
    obtain ⟨_, _, rfl⟩ := hname.unique hname'
    exact ih hrest hrest'

end Unique

/-! ## What the decoder reads -/

def Spells (n : Text) (labels : List Bytes) : Prop := n = dotted labels ∧ ∀ l ∈ labels, l ≠ []

def NamesSpell : List Field → List (Bytes × List Bytes) → Prop
  | [], _ => True
  | .raw _ :: fs, names => NamesSpell fs names
  | .name n :: fs, name :: names => Spells n name.2 ∧ NamesSpell fs names
  | .plain n :: fs, name :: names => Spells n name.2 ∧ NamesSpell fs names
  | _, _ => False

/-- The record `r` was read from `w`; an OPT record keeps no owner. -/
structure ReadFrom (r : DnsRecord) (w : WireRecord) : Prop where
  rtype : r.recordType = w.rtype
  owner : r.isOpt = false → Spells r.domain w.owner
  names : NamesSpell (recordFields r) w.rdata.names

/-- The records of a section were read from those on the wire, except for those of unmodelled types. -/
inductive ReadAll : List DnsRecord → List WireRecord → Prop
  | nil : ReadAll [] []
  | read {r : DnsRecord} {w : WireRecord} {rs : List DnsRecord} {ws : List WireRecord} :
      ReadFrom r w → ReadAll rs ws → ReadAll (r :: rs) (w :: ws)
  | skip {w : WireRecord} {rs : List DnsRecord} {ws : List WireRecord} :
      (∀ r : DnsRecord, r.recordType ≠ w.rtype) → ReadAll rs ws → ReadAll rs (w :: ws)

theorem ReadAll.length_le {rs : List DnsRecord} {ws : List WireRecord} (h : ReadAll rs ws) :
    rs.length ≤ ws.length := by
  induction h with
  | nil => exact le_rfl
  | read _ _ ih => simpa using ih
  | skip _ _ ih => exact Nat.le_succ_of_le ih

theorem ReadAll.forall₂ {rs : List DnsRecord} {ws : List WireRecord} (h : ReadAll rs ws)
    (hlen : rs.length = ws.length) : List.Forall₂ ReadFrom rs ws := by
  induction h with
  | nil => exact .nil
  | read hr _ ih => exact .cons hr (ih (Nat.succ.inj hlen))
  | skip _ hall _ =>
    have := hall.length_le
    rw [hlen, List.length_cons] at this
    omega

theorem isOpt_iff (r : DnsRecord) : r.isOpt = true ↔ r.recordType = typeOpt := by
  cases r <;> simp [isOpt, recordType, typeOpt, typeA, typeAaaa, typeCname, typeMx, typeTxt, typeNs, typeSoa,
    typeSrv, typePtr, typeCaa, typeDnskey, typeRrsig, typeDs, typeNsec]

theorem isOpt_of_rtype {r : DnsRecord} {w : WireRecord} (h : r.recordType = w.rtype) : w.isOpt = r.isOpt := by
  rw [Bool.eq_iff_iff, isOpt_iff, h, WireRecord.isOpt, beq_iff_eq]

theorem ReadAll.withoutOpt {rs : List DnsRecord} {ws : List WireRecord} (h : ReadAll rs ws) :
    ReadAll (rs.filter fun r => !r.isOpt) (ws.filter fun w => !w.isOpt) := by
  induction h with
  | nil => exact .nil
  | read hr _ ih =>
    rw [List.filter_cons, List.filter_cons, isOpt_of_rtype hr.rtype]
    split
    · exact .read hr ih
    · exact ih
  | skip hskip _ ih =>
    rw [List.filter_cons]
    split
    · exact .skip hskip ih
    · exact ih

def fieldGaps (gap : ℕ) : List Field → List ℕ
  | [] => []
  | .raw bytes :: fs => fieldGaps (gap + bytes.length) fs
  | .name _ :: fs => gap :: fieldGaps 0 fs
  | .plain _ :: fs => gap :: fieldGaps 0 fs

theorem nameGaps_recordType (r : DnsRecord) : nameGaps r.recordType = fieldGaps 0 (recordFields r) := by
  cases r <;> rfl

theorem spells_of_parseQname {buf : Bytes} {o e : ℕ} {n : Text} (h : parseQname buf o = ok (n, e)) :
    ∃ labels j, NameAt buf o labels j e ∧ Spells n labels := by
  obtain ⟨labels, j, hname, _, heq⟩ := parseQname_eq_ok.mp h
  exact ⟨labels, j, hname, heq, hname.label_ne_nil⟩

theorem rdataAt_of_namesAt {buf : Bytes} (stop : ℕ) {fs : List Field} {o gap : ℕ} (h : NamesAt buf fs (o + gap)) :
    ∃ w, RdataAt buf stop (fieldGaps gap fs) o w ∧ NamesSpell fs w.names := by
  induction fs generalizing o gap with
  | nil => exact ⟨_, rfl, trivial⟩
  | cons f fs ih =>
    cases f with
    | raw bytes =>
      rw [NamesAt, Nat.add_assoc] at h
      exact ih h
    | name n =>
      obtain ⟨e, hname, hrest⟩ := h
      obtain ⟨labels, j, hlabels, hspells⟩ := spells_of_parseQname hname
      obtain ⟨w, hw, hnames⟩ := ih (show NamesAt buf fs (e + 0) from hrest)
      exact ⟨_, ⟨labels, j, e, w, hlabels, hw, rfl⟩, hspells, hnames⟩
    | plain n =>
      obtain ⟨e, hname, hrest⟩ := h
      obtain ⟨labels, j, hlabels, hspells⟩ := spells_of_parseQname hname
      obtain ⟨w, hw, hnames⟩ := ih (show NamesAt buf fs (e + 0) from hrest)
      exact ⟨_, ⟨labels, j, e, w, hlabels, hw, rfl⟩, hspells, hnames⟩

theorem nameGaps_of_unmodelled {buf : Bytes} {domain : Text} {ttl : UInt32} {start dataLen : ℕ}
    {rtype cls : UInt16} (h : parseRdata buf domain ttl start dataLen rtype cls = none) :
    nameGaps rtype = [] := by
  unfold nameGaps
  split
  · rename_i htype
    obtain rfl | rfl | rfl | rfl := htype <;> cases h
  split
  · rename_i htype
    subst htype
    cases h
  split
  · rename_i htype
    subst htype
    cases h
  split
  · rename_i htype
    subst htype
    cases h
  split
  · rename_i htype
    subst htype
    cases h
  · rfl

theorem recordType_ne_of_unmodelled {buf : Bytes} {domain : Text} {ttl : UInt32} {start dataLen : ℕ}
    {rtype cls : UInt16} (h : parseRdata buf domain ttl start dataLen rtype cls = none) (r : DnsRecord) :
    r.recordType ≠ rtype := by
  rintro rfl
  cases r <;> cases h

theorem readFrom_of_parseRecord {buf : Bytes} {o e : ℕ} {record : Option DnsRecord}
    (h : parseRecord buf o = ok (record, e)) :
    ∃ w, RecordAt buf o w e ∧
      match record with
      | some r => ReadFrom r w
      | none => ∀ r : DnsRecord, r.recordType ≠ w.rtype := by
  obtain ⟨domain, m, rtype, cls, ttl, len, head, rfl, hparse⟩ := parseRecord_ok h
  obtain ⟨labels, j, howner, hspells⟩ := spells_of_parseQname head.readOwner
  have hhead := head.toHeadAt
  cases record with
  | none =>
    have hrdata : ∃ w, RdataAt buf (m + 10 + len.toNat) (nameGaps rtype) (m + 10) w := by
      rw [nameGaps_of_unmodelled hparse]
      exact ⟨_, rfl⟩
    obtain ⟨w, hrdata⟩ := hrdata
    exact ⟨⟨labels, rtype, cls, ttl, w⟩, ⟨j, m, len, howner, hhead, rfl, hrdata⟩,
      recordType_ne_of_unmodelled hparse⟩
  | some r =>
    obtain ⟨htype, hdomain⟩ := parseRdata_ok hparse
    subst htype
    obtain ⟨w, hw, hnames⟩ := rdataAt_of_namesAt (m + 10 + len.toNat)
      (show NamesAt buf (recordFields r) (m + 10 + 0) from namesAt_of_parseRdata hparse)
    rw [← nameGaps_recordType] at hw
    refine ⟨⟨labels, r.recordType, cls, ttl, w⟩, ⟨j, m, len, howner, hhead, rfl, hw⟩, rfl, fun hopt => ?_, hnames⟩
    obtain ⟨hdomain, _⟩ | hdomain := hdomain
    · rw [hdomain]
      exact hspells
    · rw [hopt] at hdomain
      cases hdomain

/-- A section that was read stands on the wire; records of unmodelled types were left out. -/
theorem readAll_of_parseSection {buf : Bytes} {count o e : ℕ} {rs : List DnsRecord}
    (h : parseSection buf count o = ok (rs, e)) :
    ∃ ws, ws.length = count ∧ RecordsAt buf o ws e ∧ ReadAll rs ws := by
  induction count generalizing o rs with
  | zero =>
    obtain ⟨rfl, rfl⟩ := Prod.mk.inj (Outcome.ok.inj h)
    exact ⟨[], rfl, rfl, .nil⟩
  | succ count ih =>
    obtain ⟨record, next, out, hrecord, hrest, rfl⟩ := parseSection_succ.mp h
    obtain ⟨w, hw, hread⟩ := readFrom_of_parseRecord hrecord
    obtain ⟨ws, hlen, hws, hall⟩ := ih hrest
    refine ⟨w :: ws, by rw [List.length_cons, hlen], ⟨next, hw, hws⟩, ?_⟩
    cases record with
    | none => exact .skip hread hall
    | some r => exact .read hread hall

theorem questionsAt_of_parseQuestions {buf : Bytes} {count o e : ℕ} {qs : List DnsQuestion}
    (h : parseQuestions buf count o = ok (qs, e)) : QuestionsAt buf count o e := by
  induction count generalizing o qs with
  | zero => exact (Prod.mk.inj (Outcome.ok.inj h)).2
  | succ count ih =>
    obtain ⟨q, rest, m, _, hname, hfits, _, _, hrest⟩ := parseQuestions_succ.mp h
    obtain ⟨labels, j, hlabels, _⟩ := spells_of_parseQname hname
    exact ⟨labels, j, m, hlabels, hfits, ih hrest⟩

/-- **A message that was accepted carries sections from which its packet was read.** -/
theorem carries_of_fromBytes {raw : Bytes} {q : DnsPacket} (h : fromBytes raw = ok q) :
    ∃ s, Carries raw s ∧ ReadAll q.answers s.answers ∧ ReadAll q.authorities s.authorities ∧
      ReadAll q.additionals s.additionals := by
  obtain ⟨_, hheader, o₀, o₁, o₂, o₃, h₀, h₁, h₂, h₃⟩ := fromBytes_ok h
  obtain ⟨answers, hlen₁, hat₁, hread₁⟩ := readAll_of_parseSection h₁
  obtain ⟨authorities, hlen₂, hat₂, hread₂⟩ := readAll_of_parseSection h₂
  obtain ⟨additionals, hlen₃, hat₃, hread₃⟩ := readAll_of_parseSection h₃
  exact ⟨⟨answers, authorities, additionals⟩, ⟨_, o₀, o₁, o₂, o₃, hheader,
    questionsAt_of_parseQuestions h₀, hlen₁, hat₁, hlen₂, hat₂, hlen₃, hat₃⟩, hread₁, hread₂, hread₃⟩

/-! ## Lifetimes -/

/-- The record has the type and the lifetime of the one on the wire; an OPT record has no lifetime. -/
def LivesAs (r : DnsRecord) (w : WireRecord) : Prop := r.recordType = w.rtype ∧ (r.isOpt = true ∨ r.ttl = w.ttl)

/-- The record that is read at a place has the lifetime of the one that stands there. -/
theorem ttl_of_parseRecord {buf : Bytes} {o e e' : ℕ} {record : Option DnsRecord} {w : WireRecord}
    (h : parseRecord buf o = ok (record, e)) (hw : RecordAt buf o w e') :
    e = e' ∧
      match record with
      | some r => LivesAs r w
      | none => ∀ r : DnsRecord, r.recordType ≠ w.rtype := by
  obtain ⟨domain, m, rtype, cls, ttl, len, head, rfl, hparse⟩ := parseRecord_ok h
  obtain ⟨labels, j, howner, _⟩ := spells_of_parseQname head.readOwner
  obtain ⟨j', m', len', hname, hhead, rfl, _⟩ := hw
  obtain ⟨_, _, rfl⟩ := howner.unique hname
  obtain ⟨rfl, _, rfl, rfl⟩ := head.toHeadAt.unique hhead
  cases record with
  | none => exact ⟨rfl, recordType_ne_of_unmodelled hparse⟩
  | some r =>
    obtain ⟨htype, hrest⟩ := parseRdata_ok hparse
    exact ⟨rfl, htype, hrest.elim (fun hkept => .inr hkept.2) .inl⟩

/-- The server models no record of this type. -/
def WireRecord.Unmodelled (w : WireRecord) : Prop := ∀ r : DnsRecord, r.recordType ≠ w.rtype

/-- The records that were read live as some of those on the wire; these are all that the server models. -/
def LiveAs (rs : List DnsRecord) (ws : List WireRecord) : Prop :=
  ∃ kept, List.Forall₂ LivesAs rs kept ∧ kept.Sublist ws ∧
    ∀ ws' : List WireRecord, ws'.Sublist ws → (∀ w ∈ ws', ¬ w.Unmodelled) → ws'.Sublist kept

theorem liveAs_of_parseSection {buf : Bytes} {o e e' : ℕ} {rs : List DnsRecord} {ws : List WireRecord}
    (h : parseSection buf ws.length o = ok (rs, e)) (hws : RecordsAt buf o ws e') : LiveAs rs ws := by
  induction ws generalizing o rs with
  | nil =>
    obtain ⟨rfl, _⟩ := Prod.mk.inj (Outcome.ok.inj h)
    exact ⟨[], .nil, .slnil, fun ws' hws' _ => hws'⟩
  | cons w ws ih =>
    obtain ⟨record, next, out, hrecord, hrest, rfl⟩ := parseSection_succ.mp h
    obtain ⟨m, hw, hws⟩ := hws
    obtain ⟨rfl, hread⟩ := ttl_of_parseRecord hrecord hw
    obtain ⟨kept, hlive, hsub, hall⟩ := ih hrest hws
    cases record with
    | none =>
      refine ⟨kept, hlive, hsub.cons w, fun ws' hws' hmodelled => ?_⟩
      cases hws' with
      | cons _ hws' => exact hall ws' hws' hmodelled
      | cons_cons _ _ => exact absurd hread (hmodelled w List.mem_cons_self)
    | some r =>
      refine ⟨w :: kept, .cons hread hlive, hsub.cons_cons w, fun ws' hws' hmodelled => ?_⟩
      cases hws' with
      | cons _ hws' => exact (hall ws' hws' hmodelled).cons w
      | cons_cons _ hws' => exact (hall _ hws' fun w' hw' => hmodelled w' (List.mem_cons_of_mem _ hw')).cons_cons w

theorem exists_of_mem_forall₂ {α β : Type} {R : α → β → Prop} {l : List α} {l' : List β} (h : List.Forall₂ R l l')
    {b : β} (hb : b ∈ l') : ∃ a ∈ l, R a b := by
  induction h with
  | nil => cases hb
  | cons hab _ ih =>
    obtain rfl | hb := List.mem_cons.mp hb
    · exact ⟨_, List.mem_cons_self, hab⟩
    · obtain ⟨a, ha, hab⟩ := ih hb
      exact ⟨a, List.mem_cons_of_mem _ ha, hab⟩

/-- Every record on the wire is of an unmodelled type or lends its lifetime to one that was read; OPT
records have none. -/
theorem LiveAs.ttl_kept {rs : List DnsRecord} {ws : List WireRecord} (h : LiveAs rs ws) :
    ∀ w ∈ ws, w.Unmodelled ∨ ∃ r ∈ rs, r.isOpt = true ∨ r.ttl = w.ttl := by
  obtain ⟨kept, hlive, _, hall⟩ := h
  intro w hw
  by_cases hunmodelled : w.Unmodelled
  · exact .inl hunmodelled
  have hone := hall [w] (List.singleton_sublist.mpr hw) fun w' hw' => by rwa [List.mem_singleton.mp hw']
  obtain ⟨r, hr, hlives⟩ := exists_of_mem_forall₂ hlive (List.singleton_sublist.mp hone)
  exact .inr ⟨r, hr, hlives.2⟩

theorem Carries.unique {msg : Bytes} {s s' : WireSections} (h : Carries msg s) (h' : Carries msg s') : s = s' := by
  obtain ⟨header, o₀, o₁, o₂, o₃, hheader, h₀, hlen₁, h₁, hlen₂, h₂, hlen₃, h₃⟩ := h
  obtain ⟨header', o₀', o₁', o₂', o₃', hheader', h₀', hlen₁', h₁', hlen₂', h₂', hlen₃', h₃'⟩ := h'
  obtain rfl := Outcome.ok.inj (hheader.symm.trans hheader')
  obtain rfl := h₀.unique h₀'
  obtain ⟨hans, rfl⟩ := h₁.unique h₁' (hlen₁.trans hlen₁'.symm)
  obtain ⟨haut, rfl⟩ := h₂.unique h₂' (hlen₂.trans hlen₂'.symm)
  obtain ⟨hadd, _⟩ := h₃.unique h₃' (hlen₃.trans hlen₃'.symm)
  cases s
  cases s'
  simp_all

theorem Carries.liveAs {msg : Bytes} {s : WireSections} {p : DnsPacket} (h : Carries msg s)
    (hp : fromBytes msg = ok p) : LiveAs p.answers s.answers := by
  obtain ⟨header, o₀, o₁, o₂, o₃, hheader, h₀, hlen, h₁, _⟩ := h
  obtain ⟨_, hheader', o₀', o₁', _, _, h₀', h₁', _⟩ := fromBytes_ok hp
  obtain rfl := Outcome.ok.inj (hheader.symm.trans hheader')
  obtain rfl := h₀.unique (questionsAt_of_parseQuestions h₀')
  rw [← hlen] at h₁'
  exact liveAs_of_parseSection h₁' h₁

theorem Carries.ttl_kept {msg : Bytes} {s : WireSections} {p : DnsPacket} (h : Carries msg s)
    (hp : fromBytes msg = ok p) :
    ∀ w ∈ s.answers, w.Unmodelled ∨ ∃ r ∈ p.answers, r.isOpt = true ∨ r.ttl = w.ttl :=
  (h.liveAs hp).ttl_kept

end MiniDns.Dns
