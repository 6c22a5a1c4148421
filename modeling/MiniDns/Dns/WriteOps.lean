import MiniDns.Dns.EncoderLayout

/-! Messages as lists of single writes.
`encode_rdata` is taken apart into its two ends, so that the encoder is known in the middle of a record as well,
while the rdlength is not filled in yet. -/
namespace MiniDns.Dns
open Lib DnsRecord DnsPacketEncoder
set_option autoImplicit false

/-! ## Writes -/

/-- A field, or one of the two ends of `encode_rdata`. -/
inductive WriteOp where
  | field (f : Field)
  | openRdata
  | closeRdata

/-- The encoder, and where rdlengths are reserved that are not filled in yet, the last one first. -/
structure Writing where
  enc : DnsPacketEncoder
  reserved : List ℕ

namespace Writing

def start : Writing := ⟨⟨[], fun _ => none⟩, []⟩

def write (w : Writing) : WriteOp → Writing
  | .field f => { w with enc := encodeField w.enc f }
  | .openRdata => ⟨w.enc.write (bytes16 0), w.enc.buf.length :: w.reserved⟩
  | .closeRdata =>
    match w.reserved with
    | [] => w
    | lenPos :: reserved =>
      let rdlength := UInt16.ofNat (w.enc.buf.length - (lenPos + 2))
      ⟨{ w.enc with buf := overwrite w.enc.buf lenPos (bytes16 rdlength) }, reserved⟩

def writeAll (w : Writing) (ops : List WriteOp) : Writing := ops.foldl write w

theorem writeAll_append (w : Writing) (ops ops' : List WriteOp) :
    w.writeAll (ops ++ ops') = (w.writeAll ops).writeAll ops' := List.foldl_append

end Writing

/-! ## Messages -/

def headerOps (domain : Text) (rtype : UInt16) (ttl : UInt32) : List WriteOp :=
  [.field (.name domain), .field (.raw (bytes16 rtype)), .field (.raw (bytes16 1)), .field (.raw (bytes32 ttl))]

def rdataOps (fs : List Field) : List WriteOp := .openRdata :: (fs.map .field ++ [.closeRdata])

def recordOps : DnsRecord → List WriteOp
  | .a domain addr ttl => headerOps domain typeA ttl ++ [.field (.raw (bytes16 4)), .field (.raw addr.octets)]
  | .aaaa domain addr ttl =>
    headerOps domain typeAaaa ttl ++ [.field (.raw (bytes16 16)), .field (.raw addr.octets)]
  | .opt udpSize =>
    [.field (.raw [0]), .field (.raw (bytes16 typeOpt)), .field (.raw (bytes16 udpSize)), .field (.raw (bytes32 0)),
      .field (.raw (bytes16 0))]
  | r => headerOps r.domain r.recordType r.ttl ++ rdataOps (recordFields r)

def questionOps (question : DnsQuestion) : List WriteOp :=
  [.field (.name question.qname), .field (.raw (bytes16 question.qtype)), .field (.raw (bytes16 question.qclass))]

def packetOps (packet : DnsPacket) : List WriteOp :=
  .field (.raw (headerBytes packet)) ::
    (packet.questions.flatMap questionOps ++ packet.records.flatMap recordOps)

namespace Writing

theorem writeAll_fields (w : Writing) (fs : List Field) :
    w.writeAll (fs.map .field) = { w with enc := encodeFields w.enc fs } := by
  induction fs generalizing w with
  | nil => rfl
  | cons f fs ih => exact ih _

theorem writeAll_rdataOps (w : Writing) (fs : List Field) :
    w.writeAll (rdataOps fs) = { w with enc := w.enc.encodeRdata fun enc => encodeFields enc fs } := by
  have hstart : (w.enc.write (bytes16 0)).buf.length = w.enc.buf.length + 2 := by
    simp [DnsPacketEncoder.write]
  have hbody := writeAll_fields (w.write .openRdata) fs
  rw [rdataOps, show w.writeAll (.openRdata :: (fs.map .field ++ [.closeRdata])) =
    (w.write .openRdata).writeAll (fs.map .field ++ [.closeRdata]) from rfl, writeAll_append, hbody]
  simp only [encodeRdata, hstart]
  rfl

theorem writeAll_recordOps (w : Writing) (r : DnsRecord) :
    w.writeAll (recordOps r) = { w with enc := w.enc.encodeRecord r } := by
  cases r with
  | a domain addr ttl => rfl
  | aaaa domain addr ttl => rfl
  | opt udpSize => rfl
  | _ =>
    rw [recordOps, writeAll_append, writeAll_rdataOps]
    · rfl
    all_goals simp

theorem writeAll_questions (w : Writing) (qs : List DnsQuestion) :
    w.writeAll (qs.flatMap questionOps) = { w with enc := qs.foldl encodeQuestion w.enc } := by
  induction qs generalizing w with
  | nil => rfl
  | cons q qs ih =>
    rw [List.flatMap_cons, writeAll_append, ih]
    rfl

theorem writeAll_records (w : Writing) (rs : List DnsRecord) :
    w.writeAll (rs.flatMap recordOps) = { w with enc := rs.foldl encodeRecord w.enc } := by
  induction rs generalizing w with
  | nil => rfl
  | cons r rs ih => rw [List.flatMap_cons, writeAll_append, writeAll_recordOps, ih, List.foldl_cons]

theorem writeAll_packetOps (p : DnsPacket) :
    start.writeAll (packetOps p) = ⟨DnsPacketEncoder.encode ⟨[], fun _ => none⟩ p, []⟩ := by
  have hheader : start.writeAll (packetOps p) = (start.write (.field (.raw (headerBytes p)))).writeAll
      (p.questions.flatMap questionOps ++ p.records.flatMap recordOps) := rfl
  rw [hheader, writeAll_append, writeAll_questions, writeAll_records]
  simp only [DnsPacketEncoder.encode, DnsPacket.records, List.foldl_append]
  rfl

/-! ## Filling in an rdlength -/

theorem length_overwrite {dst bytes : Bytes} {pos : ℕ} (hle : pos + bytes.length ≤ dst.length) :
    (overwrite dst pos bytes).length = dst.length := by
  simp [overwrite]
  omega

theorem getElem?_overwrite {dst bytes : Bytes} {pos i : ℕ} (hle : pos + bytes.length ≤ dst.length)
    (hi : i < pos ∨ pos + bytes.length ≤ i) : (overwrite dst pos bytes)[i]? = dst[i]? := by
  have htake : (dst.take pos).length = pos := List.length_take_of_le (by omega)
  rw [overwrite, List.append_assoc]
  obtain hbefore | hbehind := hi
  · rw [List.getElem?_append_left (by omega), List.getElem?_take_of_lt hbefore]
  · rw [List.getElem?_append_right (by omega), List.getElem?_append_right (by omega), List.getElem?_drop, htake]
    congr 1
    omega

variable {w : Writing} {lenPos : ℕ} {reserved : List ℕ}

theorem write_closeRdata (hres : w.reserved = lenPos :: reserved) :
    w.write .closeRdata = ⟨⟨overwrite w.enc.buf lenPos (bytes16 (UInt16.ofNat (w.enc.buf.length - (lenPos + 2)))),
      w.enc.nameOffsets⟩, reserved⟩ := by
  simp only [write, hres]

/-! ## Ends of rdata and their beginnings -/

/-- Every end of an `encode_rdata` has its beginning, if `d` of them are open. -/
def Matched : ℕ → List WriteOp → Prop
  | _, [] => True
  | d, .field _ :: ops => Matched d ops
  | d, .openRdata :: ops => Matched (d + 1) ops
  | 0, .closeRdata :: _ => False
  | d + 1, .closeRdata :: ops => Matched d ops

theorem Matched.write {op : WriteOp} {ops : List WriteOp} (h : Matched w.reserved.length (op :: ops)) :
    Matched (w.write op).reserved.length ops := by
  cases op with
  | field f => exact h
  | openRdata => exact h
  | closeRdata =>
    cases hres : w.reserved with
    | nil =>
      rw [hres] at h
      exact h.elim
    | cons lenPos reserved =>
      rw [hres] at h
      rw [write_closeRdata hres]
      exact h

theorem Matched.writeAll {done more : List WriteOp} (h : Matched w.reserved.length (done ++ more)) :
    Matched (w.writeAll done).reserved.length more := by
  induction done generalizing w with
  | nil => exact h
  | cons op done ih => exact ih h.write

theorem Matched.exists_reserved {more : List WriteOp} (h : Matched w.reserved.length (.closeRdata :: more)) :
    ∃ lenPos reserved, w.reserved = lenPos :: reserved := by
  cases hres : w.reserved with
  | nil =>
    rw [hres] at h
    exact h.elim
  | cons lenPos reserved => exact ⟨lenPos, reserved, rfl⟩

theorem matched_fields {d : ℕ} {ops : List WriteOp} (fs : List Field) (h : Matched d ops) :
    Matched d (fs.map .field ++ ops) := by
  induction fs with
  | nil => exact h
  | cons f fs ih => exact ih

theorem matched_recordOps {d : ℕ} {ops : List WriteOp} (r : DnsRecord) (h : Matched d ops) :
    Matched d (recordOps r ++ ops) := by
  have hrdata : Matched d (headerOps r.domain r.recordType r.ttl ++ rdataOps (recordFields r) ++ ops) := by
    have hclose : Matched (d + 1) ([.closeRdata] ++ ops) := h
    have hfields := matched_fields (recordFields r) hclose
    rw [← List.append_assoc] at hfields
    exact hfields
  cases r with
  | a domain addr ttl => exact h
  | aaaa domain addr ttl => exact h
  | opt udpSize => exact h
  | _ => exact hrdata

theorem matched_flatMap {α : Type} {d : ℕ} {ops : List WriteOp} {f : α → List WriteOp}
    (hf : ∀ a ops, Matched d ops → Matched d (f a ++ ops)) (as : List α) (h : Matched d ops) :
    Matched d (as.flatMap f ++ ops) := by
  induction as with
  | nil => exact h
  | cons a as ih =>
    rw [List.flatMap_cons, List.append_assoc]
    exact hf a _ ih

theorem matched_packetOps (p : DnsPacket) : Matched 0 (packetOps p) := by
  have hrecords : Matched 0 (p.records.flatMap recordOps ++ []) :=
    matched_flatMap (fun r _ h => matched_recordOps r h) p.records trivial
  rw [List.append_nil] at hrecords
  exact matched_flatMap (f := questionOps) (fun _ _ h => h) p.questions hrecords

end Writing
end MiniDns.Dns
