import MiniDns.Dns.Layout

/-! The encoder writes what the layout describes.
Each encoding function appends bytes that depend on the layout alone, also through the rdlength
that is filled in afterwards. -/
namespace MiniDns.Dns
open Lib DnsRecord DnsPacketEncoder
set_option autoImplicit false

structure DnsPacketEncoder.At (e : DnsPacketEncoder) (L : Layout) : Prop where
  pos : e.buf.length = L.pos
  names : e.nameOffsets = L.offsets

/-- From any layout, `f` appends `out` and comes to `next`. -/
def Writes (f : DnsPacketEncoder → DnsPacketEncoder) (out : Layout → Bytes) (next : Layout → Layout) :
    Prop :=
  ∀ e L, e.At L → (f e).buf = e.buf ++ out L ∧ (f e).At (next L)

theorem overwrite_append (before old new behind : Bytes) (h : old.length = new.length) :
    overwrite (before ++ (old ++ behind)) before.length new = before ++ (new ++ behind) := by
  rw [overwrite, List.take_left, List.drop_append, List.drop_eq_nil_of_le (by omega),
    Nat.add_sub_cancel_left, ← h, List.drop_left, List.append_assoc]
  rfl

namespace Writes

theorem write (bytes : Bytes) :
    Writes (fun e => e.write bytes) (fun _ => bytes) (fun L => L.advance bytes.length) := by
  intro e L h
  refine ⟨rfl, ?_, h.names⟩
  simp [DnsPacketEncoder.write, h.pos]

theorem comp {f g : DnsPacketEncoder → DnsPacketEncoder} {out out' : Layout → Bytes}
    {next next' : Layout → Layout} (hf : Writes f out next) (hg : Writes g out' next') :
    Writes (fun e => g (f e)) (fun L => out L ++ out' (next L)) (fun L => next' (next L)) := by
  intro e L h
  obtain ⟨hbuf, hat⟩ := hf e L h
  obtain ⟨hbuf', hat'⟩ := hg (f e) (next L) hat
  exact ⟨by rw [hbuf', hbuf, List.append_assoc], hat'⟩

theorem length_out {f : DnsPacketEncoder → DnsPacketEncoder} {out : Layout → Bytes}
    {next : Layout → Layout} (hf : Writes f out next) (L : Layout) :
    (next L).pos = L.pos + (out L).length := by
  have hat : (⟨List.replicate L.pos 0, L.offsets⟩ : DnsPacketEncoder).At L := ⟨by simp, rfl⟩
  obtain ⟨hbuf, hat'⟩ := hf _ L hat
  rw [← hat'.pos, hbuf]
  simp

theorem rdata {f : DnsPacketEncoder → DnsPacketEncoder} {out : Layout → Bytes}
    {next : Layout → Layout} (hf : Writes f out next) :
    Writes (fun e => e.encodeRdata f)
      (fun L => bytes16 (UInt16.ofNat (out (L.advance 2)).length) ++ out (L.advance 2))
      (fun L => next (L.advance 2)) := by
  intro e L h
  obtain ⟨-, hopened⟩ := write (bytes16 0) e L h
  obtain ⟨hbuf, hat⟩ := hf _ _ hopened
  simp only [bytes16_length] at hbuf hat hopened
  have hbody : (f (e.write (bytes16 0))).buf = e.buf ++ (bytes16 0 ++ out (L.advance 2)) := by
    rw [hbuf, DnsPacketEncoder.write, List.append_assoc]
  have hlen : (f (e.write (bytes16 0))).buf.length - (e.write (bytes16 0)).buf.length =
      (out (L.advance 2)).length := by
    rw [hbuf]
    simp
  have hover : overwrite (f (e.write (bytes16 0))).buf e.buf.length
      (bytes16 (UInt16.ofNat (out (L.advance 2)).length)) =
      e.buf ++ (bytes16 (UInt16.ofNat (out (L.advance 2)).length) ++ out (L.advance 2)) := by
    rw [hbody]
    exact overwrite_append _ _ _ _ rfl
  refine ⟨?_, ?_, ?_⟩
  · simp only [encodeRdata, hlen]
    exact hover
  · simp only [encodeRdata, hlen, hover]
    rw [← hat.pos, hbody]
    simp
  · exact hat.names

end Writes

/-! ## Names -/

/-- A remembered suffix that is not one of those being written changes nothing else. -/
theorem encodeLabels_update (buf : Bytes) (t : NameOffsets) (ls : List Text) (k : Text)
    (v : Option UInt16) (hk : ∀ m, m <:+ ls → m ≠ [] → joinDots m ≠ k) :
    encodeLabels ⟨buf, Function.update t k v⟩ ls =
      ⟨(encodeLabels ⟨buf, t⟩ ls).buf, Function.update (encodeLabels ⟨buf, t⟩ ls).nameOffsets k v⟩ := by
  induction ls generalizing buf t with
  | nil => rfl
  | cons l ls ih =>
    have hl : joinDots (l :: ls) ≠ k := hk _ List.suffix_rfl (by simp)
    have htail : ∀ m, m <:+ ls → m ≠ [] → joinDots m ≠ k :=
      fun m hm => hk m (hm.trans (List.suffix_cons l ls))
    simp only [encodeLabels, Function.update_of_ne hl]
    cases t (joinDots (l :: ls)) with
    | some offset => rfl
    | none =>
      dsimp only
      split
      · rw [Function.update_comm hl.symm]
        exact ih _ _ htail
      · exact ih _ _ htail

/-- The suffix that is being written is not looked up while the rest of it is written. -/
theorem encodeLabels_cons {e : DnsPacketEncoder} {l : Text} {ls : List Text}
    (hnone : e.nameOffsets (joinDots (l :: ls)) = none) :
    e.encodeLabels (l :: ls) = ⟨((e.write (labelBytes l)).encodeLabels ls).buf,
      if e.buf.length ≤ 0x3FFF then
        Function.update ((e.write (labelBytes l)).encodeLabels ls).nameOffsets (joinDots (l :: ls))
          (some (UInt16.ofNat e.buf.length))
      else ((e.write (labelBytes l)).encodeLabels ls).nameOffsets⟩ := by
  simp only [encodeLabels, hnone]
  split
  · exact encodeLabels_update _ _ _ _ _ fun m hm hne => joinDots_ne_of_suffix hm hne
  · rfl

theorem offsets_remember (L : Layout) (suffix : Text) (offset jumps : ℕ) :
    (L.remember suffix offset jumps).offsets =
      if offset ≤ 0x3FFF then Function.update L.offsets suffix (some (UInt16.ofNat offset)) else L.offsets := by
  unfold Layout.remember
  split
  · funext s
    by_cases hs : s = suffix
    · subst hs
      simp [Layout.offsets]
    · simp [Layout.offsets, Function.update_of_ne hs]
  · rfl

theorem writes_encodeLabels (ls : List Text) :
    Writes (fun e => e.encodeLabels ls) (fun L => L.labelsBytes ls) (fun L => (L.labels ls).1) := by
  induction ls with
  | nil => exact Writes.write [0]
  | cons l ls ih =>
    intro e L h
    have hlookup : e.nameOffsets (joinDots (l :: ls)) =
        (L.names (joinDots (l :: ls))).map fun entry => UInt16.ofNat entry.1 := by
      rw [h.names]
      rfl
    cases hentry : L.names (joinDots (l :: ls)) with
    | some entry =>
      rw [hentry] at hlookup
      simp only [encodeLabels, Layout.labels, Layout.labelsBytes, hlookup, hentry]
      exact Writes.write _ e L h
    | none =>
      rw [hentry] at hlookup
      obtain ⟨-, hlabel⟩ := Writes.write (labelBytes l) e L h
      obtain ⟨hbuf, hat⟩ := ih (e.write (labelBytes l)) _ hlabel
      simp only [encodeLabels_cons hlookup, Layout.labels, Layout.labelsBytes, hentry]
      refine ⟨by rw [hbuf, DnsPacketEncoder.write, List.append_assoc], ?_, ?_⟩
      · rw [Layout.remember_pos, ← hat.pos]
      · rw [offsets_remember, ← hat.names, h.pos]

theorem encodeQname_eq (e : DnsPacketEncoder) (n : Text) : e.encodeQname n = e.encodeLabels (nameLabels n) := by
  unfold encodeQname nameLabels
  split <;> rfl

theorem writes_encodeQname (n : Text) :
    Writes (fun e => e.encodeQname n) (fun L => L.nameBytes n) (fun L => L.name n) := by
  simp only [encodeQname_eq]
  exact writes_encodeLabels (nameLabels n)

theorem encodeNameUncompressed_eq (e : DnsPacketEncoder) (n : Text) :
    e.encodeNameUncompressed n = e.write (Layout.plainBytes n) := by
  unfold encodeNameUncompressed Layout.plainBytes nameLabels
  split <;> rfl

theorem writes_encodeNameUncompressed (n : Text) :
    Writes (fun e => e.encodeNameUncompressed n) (fun _ => Layout.plainBytes n)
      (fun L => L.advance (Layout.plainBytes n).length) := by
  simp only [encodeNameUncompressed_eq]
  exact Writes.write _

/-! ## Records -/

def encodeField (e : DnsPacketEncoder) : Field → DnsPacketEncoder
  | .raw bytes => e.write bytes
  | .name n => e.encodeQname n
  | .plain n => e.encodeNameUncompressed n

def encodeFields (e : DnsPacketEncoder) : List Field → DnsPacketEncoder
  | [] => e
  | f :: fs => encodeFields (encodeField e f) fs

theorem writes_encodeField (f : Field) :
    Writes (fun e => encodeField e f) (fun L => L.fieldBytes f) (fun L => L.field f) := by
  cases f with
  | raw bytes => exact Writes.write bytes
  | name n => exact writes_encodeQname n
  | plain n => exact writes_encodeNameUncompressed n

theorem writes_encodeFields (fs : List Field) :
    Writes (fun e => encodeFields e fs) (fun L => L.fieldsBytes fs) (fun L => L.fields fs) := by
  induction fs with
  | nil => exact fun e L h => ⟨by simp [encodeFields, Layout.fieldsBytes], h⟩
  | cons f fs ih => exact (writes_encodeField f).comp ih

theorem writes_head (domain : Text) (rtype cls : UInt16) (ttl : UInt32) :
    Writes (fun e => (((e.encodeQname domain).write (bytes16 rtype)).write (bytes16 cls)).write (bytes32 ttl))
      (fun L => L.nameBytes domain ++ bytes16 rtype ++ bytes16 cls ++ bytes32 ttl)
      (fun L => (L.name domain).advance 8) := by
  have h := (((writes_encodeQname domain).comp (Writes.write (bytes16 rtype))).comp
    (Writes.write (bytes16 cls))).comp (Writes.write (bytes32 ttl))
  simpa only [Layout.advance_advance, bytes16_length, bytes32_length] using h

theorem writes_rdata (r : DnsRecord) :
    Writes (fun e => ((((e.encodeQname r.domain).write (bytes16 r.recordType)).write
        (bytes16 (recordClass r))).write (bytes32 r.ttl)).encodeRdata fun enc =>
          encodeFields enc (recordFields r))
      (fun L => L.recordBytes r) (fun L => L.record r) := by
  have h := (writes_head r.domain r.recordType (recordClass r) r.ttl).comp
    (writes_encodeFields (recordFields r)).rdata
  simp only [Layout.advance_advance, Nat.reduceAdd, ← List.append_assoc] at h
  exact h

theorem encodeRdata_write (e : DnsPacketEncoder) (bytes : Bytes) :
    (e.encodeRdata fun enc => enc.write bytes) =
      (e.write (bytes16 (UInt16.ofNat bytes.length))).write bytes := by
  have hlen : (e.buf ++ bytes16 0 ++ bytes).length - (e.buf ++ bytes16 0).length = bytes.length := by
    simp
    omega
  have hover := overwrite_append e.buf (bytes16 0) (bytes16 (UInt16.ofNat bytes.length)) bytes rfl
  rw [← List.append_assoc, ← List.append_assoc] at hover
  simp only [encodeRdata, DnsPacketEncoder.write, hlen, hover]

theorem encodeRecord_eq (e : DnsPacketEncoder) (r : DnsRecord) :
    e.encodeRecord r = ((((e.encodeQname r.domain).write (bytes16 r.recordType)).write
        (bytes16 (recordClass r))).write (bytes32 r.ttl)).encodeRdata fun enc =>
          encodeFields enc (recordFields r) := by
  cases r with
  | a domain addr ttl => exact (encodeRdata_write _ addr.octets).symm
  | aaaa domain addr ttl =>
    have h := encodeRdata_write (e.encodeRecordHeader domain typeAaaa ttl) addr.octets
    rw [addr.size] at h
    exact h.symm
  | opt udpSize =>
    have h := encodeRdata_write
      ((((e.write [0]).write (bytes16 typeOpt)).write (bytes16 udpSize)).write (bytes32 0)) []
    have hnil : ∀ enc : DnsPacketEncoder, enc.write [] = enc := fun enc => by
      simp [DnsPacketEncoder.write]
    simp only [hnil] at h
    exact h.symm
  | _ => rfl

theorem writes_encodeRecord (r : DnsRecord) :
    Writes (fun e => e.encodeRecord r) (fun L => L.recordBytes r) (fun L => L.record r) := by
  simp only [encodeRecord_eq]
  exact writes_rdata r

/-! ## Messages -/

theorem writes_encodeQuestion (q : DnsQuestion) :
    Writes (fun e => e.encodeQuestion q) (fun L => L.questionBytes q) (fun L => L.question q) := by
  have h := ((writes_encodeQname q.qname).comp (Writes.write (bytes16 q.qtype))).comp
    (Writes.write (bytes16 q.qclass))
  simp only [Layout.advance_advance, bytes16_length] at h
  exact h

theorem writes_questions (qs : List DnsQuestion) :
    Writes (fun e => qs.foldl encodeQuestion e) (fun L => L.questionsBytes qs) (fun L => L.questions qs) := by
  induction qs with
  | nil => exact fun e L h => ⟨by simp [Layout.questionsBytes], h⟩
  | cons q qs ih => exact (writes_encodeQuestion q).comp ih

theorem writes_records (rs : List DnsRecord) :
    Writes (fun e => rs.foldl encodeRecord e) (fun L => L.recordsBytes rs) (fun L => L.records rs) := by
  induction rs with
  | nil => exact fun e L h => ⟨by simp [Layout.recordsBytes], h⟩
  | cons r rs ih => exact (writes_encodeRecord r).comp ih

theorem headerBytes_length (p : DnsPacket) : (headerBytes p).length = 12 := rfl

/-- **The message of a packet is its header and what the layout describes.** -/
theorem toBytes_eq (p : DnsPacket) :
    p.toBytes = headerBytes p ++ Layout.start.questionsBytes p.questions ++
      (Layout.start.questions p.questions).recordsBytes p.records := by
  have hstart : (⟨headerBytes p, fun _ => none⟩ : DnsPacketEncoder).At Layout.start := ⟨rfl, rfl⟩
  have hfold : (DnsPacketEncoder.encode ⟨[], fun _ => none⟩ p) =
      p.records.foldl encodeRecord (p.questions.foldl encodeQuestion ⟨headerBytes p, fun _ => none⟩) := by
    simp [DnsPacketEncoder.encode, DnsPacket.records, List.foldl_append, DnsPacketEncoder.write]
  obtain ⟨hbuf, _⟩ := (writes_questions p.questions).comp (writes_records p.records) _ _ hstart
  rw [DnsPacket.toBytes, hfold, hbuf, List.append_assoc]

end MiniDns.Dns
