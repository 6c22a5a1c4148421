import MiniDns.Dns.PacketNames

/-! Where `from_bytes` reads outside the buffer. All arms of `parse_record` stay inside it except
two: RRSIG and NSEC slice from the end of an embedded name to the end of the rdata, and nothing
keeps the name from ending behind the rdata. -/
namespace MiniDns.Dns.DnsPacket
open Lib Lib.Outcome DnsRecord
set_option autoImplicit false

variable {buf : Bytes} {domain : Text} {ttl : UInt32} {start dataLen : ℕ}

/-! ## Arms that stay inside the buffer -/

theorem characterStringsLoop_ne_panic (data : Bytes) (fuel i : ℕ) (text : Text)
    (h : data.length - i < fuel) : characterStringsLoop data fuel i text ≠ panic := by
  induction fuel generalizing i text with
  | zero => omega
  | succ fuel ih =>
    rw [characterStringsLoop]
    split
    · refine bind_ne_panic (byteAt_ne_panic ‹_›) fun len _ => ?_
      split
      · simp
      · exact bind_ne_panic (slice_ne_panic (by omega) (by omega)) fun chunk _ => ih _ _ (by omega)
    · simp

theorem parseCharacterStrings_ne_panic (data : Bytes) : parseCharacterStrings data ≠ panic :=
  characterStringsLoop_ne_panic data _ _ _ (by omega)

theorem rdataA_ne_panic (h : start + dataLen ≤ buf.length) :
    rdataA buf domain ttl start dataLen ≠ panic := by
  unfold rdataA
  split
  · simp
  refine bind_ne_panic (byteAt_ne_panic (by omega)) fun _ _ => ?_
  refine bind_ne_panic (byteAt_ne_panic (by omega)) fun _ _ => ?_
  refine bind_ne_panic (byteAt_ne_panic (by omega)) fun _ _ => ?_
  exact bind_ne_panic (byteAt_ne_panic (by omega)) fun _ _ => by simp

theorem rdataAaaa_ne_panic (h : start + dataLen ≤ buf.length) :
    rdataAaaa buf domain ttl start dataLen ≠ panic := by
  unfold rdataAaaa
  split
  · simp
  refine bind_ne_panic (slice_ne_panic (by omega) (by omega)) fun octets ho => ?_
  obtain ⟨_, _, rfl⟩ := slice_eq_ok.mp ho
  have hlen : (window buf start (start + 16 - start)).length = 16 := by
    rw [window_length_of_le (by omega)]
    omega
  rw [Ipv6Addr.copyFrom, dif_pos hlen]
  simp

theorem rdataName_ne_panic (make : Text → Text → UInt32 → DnsRecord) :
    rdataName buf domain ttl start make ≠ panic :=
  bind_ne_panic (parseQname_ne_panic start) fun _ _ => by simp

theorem rdataMx_ne_panic (h : start + dataLen ≤ buf.length) :
    rdataMx buf domain ttl start dataLen ≠ panic := by
  unfold rdataMx
  split
  · simp
  refine bind_ne_panic (u16At_ne_panic (by omega)) fun _ _ => ?_
  exact bind_ne_panic (parseQname_ne_panic _) fun _ _ => by simp

theorem rdataTxt_ne_panic (h : start + dataLen ≤ buf.length) :
    rdataTxt buf domain ttl start dataLen ≠ panic := by
  unfold rdataTxt
  refine bind_ne_panic (slice_ne_panic (by omega) h) fun data _ => ?_
  exact bind_ne_panic (parseCharacterStrings_ne_panic data) fun _ _ => by simp

theorem rdataSoa_ne_panic : rdataSoa buf domain ttl start ≠ panic := by
  unfold rdataSoa
  refine bind_ne_panic (parseQname_ne_panic _) fun _ _ => ?_
  refine bind_ne_panic (parseQname_ne_panic _) ?_
  rintro ⟨rname, afterRname⟩ _
  dsimp only
  split
  · simp
  refine bind_ne_panic (u32At_ne_panic (by omega)) fun _ _ => ?_
  refine bind_ne_panic (u32At_ne_panic (by omega)) fun _ _ => ?_
  refine bind_ne_panic (u32At_ne_panic (by omega)) fun _ _ => ?_
  refine bind_ne_panic (u32At_ne_panic (by omega)) fun _ _ => ?_
  exact bind_ne_panic (u32At_ne_panic (by omega)) fun _ _ => by simp

theorem rdataSrv_ne_panic (h : start + dataLen ≤ buf.length) :
    rdataSrv buf domain ttl start dataLen ≠ panic := by
  unfold rdataSrv
  split
  · simp
  refine bind_ne_panic (u16At_ne_panic (by omega)) fun _ _ => ?_
  refine bind_ne_panic (u16At_ne_panic (by omega)) fun _ _ => ?_
  refine bind_ne_panic (u16At_ne_panic (by omega)) fun _ _ => ?_
  exact bind_ne_panic (parseQname_ne_panic _) fun _ _ => by simp

theorem rdataCaa_ne_panic (h : start + dataLen ≤ buf.length) :
    rdataCaa buf domain ttl start dataLen ≠ panic := by
  unfold rdataCaa
  split
  · simp
  refine bind_ne_panic (byteAt_ne_panic (by omega)) fun _ _ => ?_
  refine bind_ne_panic (byteAt_ne_panic (by omega)) fun _ _ => ?_
  split
  · simp
  refine bind_ne_panic (slice_ne_panic (by omega) (by omega)) fun _ _ => ?_
  exact bind_ne_panic (slice_ne_panic (by omega) (by omega)) fun _ _ => by simp

theorem rdataDnskey_ne_panic (h : start + dataLen ≤ buf.length) :
    rdataDnskey buf domain ttl start dataLen ≠ panic := by
  unfold rdataDnskey
  split
  · simp
  refine bind_ne_panic (u16At_ne_panic (by omega)) fun _ _ => ?_
  refine bind_ne_panic (byteAt_ne_panic (by omega)) fun _ _ => ?_
  refine bind_ne_panic (byteAt_ne_panic (by omega)) fun _ _ => ?_
  exact bind_ne_panic (slice_ne_panic (by omega) (by omega)) fun _ _ => by simp

theorem rdataDs_ne_panic (h : start + dataLen ≤ buf.length) :
    rdataDs buf domain ttl start dataLen ≠ panic := by
  unfold rdataDs
  split
  · simp
  refine bind_ne_panic (u16At_ne_panic (by omega)) fun _ _ => ?_
  refine bind_ne_panic (byteAt_ne_panic (by omega)) fun _ _ => ?_
  refine bind_ne_panic (byteAt_ne_panic (by omega)) fun _ _ => ?_
  exact bind_ne_panic (slice_ne_panic (by omega) (by omega)) fun _ _ => by simp

/-! ## Arms that can leave it -/

def NameOverruns (buf : Bytes) (offset limit : ℕ) : Prop :=
  ∃ ls j e, NameAt buf offset ls j e ∧ j ≤ maxPointerJumps ∧ limit < e

theorem name_then_slice_eq_panic {α : Type} {offset limit : ℕ} (hlimit : limit ≤ buf.length)
    (f : Text → Bytes → α) :
    (do let name ← parseQname buf offset
        let rest ← slice buf name.2 limit
        pure (f name.1 rest) : Outcome DnsError α) = panic ↔ NameOverruns buf offset limit := by
  rw [bind_eq_panic]
  constructor
  · rintro (h | ⟨⟨name, e⟩, hname, h⟩)
    · exact absurd h (parseQname_ne_panic offset)
    · obtain ⟨ls, j, hat, hj, _⟩ := parseQname_eq_ok.mp hname
      rcases bind_eq_panic.mp h with h | ⟨_, _, h⟩
      · rcases slice_eq_panic.mp h with h | h
        · exact ⟨ls, j, e, hat, hj, h⟩
        · omega
      · cases h
  · rintro ⟨ls, j, e, hat, hj, he⟩
    refine .inr ⟨(dotted ls, e), parseQname_eq_ok.mpr ⟨ls, j, hat, hj, rfl⟩, ?_⟩
    exact bind_eq_panic.mpr (.inl (slice_eq_panic.mpr (.inl he)))

theorem rdataNsec_eq_panic (h : start + dataLen ≤ buf.length) :
    rdataNsec buf domain ttl start dataLen = panic ↔ NameOverruns buf start (start + dataLen) :=
  name_then_slice_eq_panic h fun name bitmap => nsec domain name bitmap ttl

theorem rdataRrsig_eq_panic (h : start + dataLen ≤ buf.length) :
    rdataRrsig buf domain ttl start dataLen = panic ↔
      18 ≤ dataLen ∧ NameOverruns buf (start + 18) (start + dataLen) := by
  unfold rdataRrsig
  by_cases hlen : dataLen < 18
  · simp [hlen]
  rw [if_neg hlen]
  obtain ⟨covered, hc⟩ := u16At_of_le DnsError buf start (by omega)
  obtain ⟨original, ho⟩ := u32At_of_le DnsError buf (start + 4) (by omega)
  obtain ⟨expiration, he⟩ := u32At_of_le DnsError buf (start + 8) (by omega)
  obtain ⟨inception, hi⟩ := u32At_of_le DnsError buf (start + 12) (by omega)
  obtain ⟨tag, ht⟩ := u16At_of_le DnsError buf (start + 16) (by omega)
  rw [hc, byteAt_of_lt (i := start + 2) (by omega), byteAt_of_lt (i := start + 3) (by omega), ho, he, hi, ht]
  simp only [ok_bind]
  refine (name_then_slice_eq_panic h fun name signature =>
    rrsig domain covered _ _ original expiration inception tag name signature ttl).trans ?_
  exact ⟨fun hover => ⟨by omega, hover⟩, fun hover => hover.2⟩

/-- The record of type `rtype` whose rdata is the `dataLen` bytes at `start` makes the decoder
slice backwards. -/
def RdataOverruns (buf : Bytes) (rtype : UInt16) (start dataLen : ℕ) : Prop :=
  rtype = typeRrsig ∧ 18 ≤ dataLen ∧ NameOverruns buf (start + 18) (start + dataLen) ∨
  rtype = typeNsec ∧ NameOverruns buf start (start + dataLen)

theorem parseRdata_eq_panic (domain : Text) (ttl : UInt32) (rtype cls : UInt16) (h : start + dataLen ≤ buf.length) :
    parseRdata buf domain ttl start dataLen rtype cls = some panic ↔
      RdataOverruns buf rtype start dataLen := by
  unfold RdataOverruns
  by_cases hr : rtype = typeRrsig
  · subst hr
    have harm : parseRdata buf domain ttl start dataLen typeRrsig cls =
        some (rdataRrsig buf domain ttl start dataLen) := rfl
    rw [harm, Option.some.injEq, rdataRrsig_eq_panic h]
    simp [show typeRrsig ≠ typeNsec by decide]
  by_cases hn : rtype = typeNsec
  · subst hn
    have harm : parseRdata buf domain ttl start dataLen typeNsec cls =
        some (rdataNsec buf domain ttl start dataLen) := rfl
    rw [harm, Option.some.injEq, rdataNsec_eq_panic h]
    simp [show typeNsec ≠ typeRrsig by decide]
  simp only [hr, hn, false_and, or_self, iff_false]
  have arm : ∀ {p : Prop} [Decidable p] {x : Outcome DnsError DnsRecord}
      {y : Option (Outcome DnsError DnsRecord)}, x ≠ panic → y ≠ some panic →
      (if p then some x else y) ≠ some panic := by
    intro p _ x y hx hy
    split
    · exact fun heq => hx (Option.some.inj heq)
    · exact hy
  unfold parseRdata
  rw [if_neg hr, if_neg hn]
  refine arm (rdataA_ne_panic h) ?_
  refine arm (rdataAaaa_ne_panic h) ?_
  refine arm (rdataName_ne_panic _) ?_
  refine arm (rdataMx_ne_panic h) ?_
  refine arm (rdataTxt_ne_panic h) ?_
  refine arm (rdataName_ne_panic _) ?_
  refine arm rdataSoa_ne_panic ?_
  refine arm (rdataSrv_ne_panic h) ?_
  refine arm (rdataName_ne_panic _) ?_
  refine arm (rdataCaa_ne_panic h) ?_
  refine arm (by simp) ?_
  refine arm (rdataDnskey_ne_panic h) ?_
  exact arm (rdataDs_ne_panic h) (by simp)

/-! ## Records and messages -/

def RecordOverruns (buf : Bytes) (offset : ℕ) : Prop :=
  ∃ ls j e rtype dataLen, NameAt buf offset ls j e ∧ j ≤ maxPointerJumps ∧
    (u16At buf e : Outcome DnsError UInt16) = ok rtype ∧
    (u16At buf (e + 8) : Outcome DnsError UInt16) = ok dataLen ∧
    e + 10 + dataLen.toNat ≤ buf.length ∧ RdataOverruns buf rtype (e + 10) dataLen.toNat

theorem parseRecord_eq_panic {offset : ℕ} :
    parseRecord buf offset = panic ↔ RecordOverruns buf offset := by
  constructor
  · intro h
    rcases parseRecord_cases buf offset with ⟨error, herr⟩ | ⟨domain, e, rtype, cls, ttl, dataLen, head⟩
    · rw [herr] at h
      cases h
    obtain ⟨ls, j, hat, hj, _⟩ := parseQname_eq_ok.mp head.readOwner
    refine ⟨ls, j, e, rtype, dataLen, hat, hj, head.readType, head.readLen, head.fits, ?_⟩
    rw [← parseRdata_eq_panic domain ttl rtype cls head.fits]
    rw [parseRecord_of_head head] at h
    cases hr : parseRdata buf domain ttl (e + 10) dataLen.toNat rtype cls with
    | none => simp [hr] at h
    | some record =>
      rw [hr] at h
      rcases bind_eq_panic.mp h with h | ⟨_, _, h⟩
      · rw [h]
      · cases h
  · rintro ⟨ls, j, e, rtype, dataLen, hat, hj, htype, hlen, hfits, hover⟩
    have hname := parseQname_eq_ok.mpr ⟨ls, j, hat, hj, rfl⟩
    obtain ⟨cls, hcls⟩ := u16At_of_le DnsError buf (e + 2) (by omega)
    obtain ⟨ttl, httl⟩ := u32At_of_le DnsError buf (e + 4) (by omega)
    have head : RecordHead buf offset (dotted ls) e rtype cls ttl dataLen :=
      ⟨⟨htype, hcls, httl, hlen, hfits⟩, hname⟩
    have hpanic := (parseRdata_eq_panic (dotted ls) ttl rtype cls hfits).mpr hover
    rw [parseRecord_of_head head, hpanic]
    rfl

theorem parseSection_eq_panic {count offset : ℕ} :
    parseSection buf count offset = panic ↔
      ∃ k < count, ∃ out next, parseSection buf k offset = ok (out, next) ∧ parseRecord buf next = panic := by
  induction count generalizing offset with
  | zero => simp [parseSection]
  | succ count ih =>
    rw [parseSection, bind_eq_panic]
    constructor
    · rintro (h | ⟨⟨record, next⟩, hrecord, h⟩)
      · exact ⟨0, by omega, [], offset, rfl, h⟩
      · rcases bind_eq_panic.mp h with h | ⟨_, _, h⟩
        · obtain ⟨k, hk, out, last, hsection, hpanic⟩ := ih.mp h
          refine ⟨k + 1, by omega, record.toList ++ out, last, ?_, hpanic⟩
          simp [parseSection, hrecord, hsection]
        · cases h
    · rintro ⟨k, hk, out, last, hsection, hpanic⟩
      cases k with
      | zero =>
        obtain ⟨_, rfl⟩ := Prod.mk.inj (Outcome.ok.inj hsection)
        exact .inl hpanic
      | succ k =>
        obtain ⟨record, next, out', hrecord, hsection', _⟩ := parseSection_succ.mp hsection
        refine .inr ⟨(record, next), hrecord, ?_⟩
        have h := ih.mpr ⟨k, by omega, out', last, hsection', hpanic⟩
        simp [h]

theorem parseSection_add (m n offset : ℕ) :
    parseSection buf (m + n) offset = (do
      let first ← parseSection buf m offset
      let second ← parseSection buf n first.2
      pure (first.1 ++ second.1, second.2)) := by
  induction m generalizing offset with
  | zero =>
    rw [Nat.zero_add, parseSection, ok_bind]
    cases parseSection buf n offset <;> rfl
  | succ m ih =>
    rw [Nat.add_right_comm, parseSection, parseSection]
    cases parseRecord buf offset with
    | err error => rfl
    | panic => rfl
    | ok record =>
      simp only [ok_bind, ih]
      cases parseSection buf m record.2 with
      | err error => rfl
      | panic => rfl
      | ok first =>
        simp only [ok_bind, pure_eq_ok]
        cases parseSection buf n first.2 <;> simp

theorem parseHeader_of_le (buf : Bytes) (h : 12 ≤ buf.length) : ∃ header, parseHeader buf = ok header := by
  obtain ⟨_, h0⟩ := u16At_of_le DnsError buf 0 (by omega)
  obtain ⟨_, h2⟩ := u16At_of_le DnsError buf 2 (by omega)
  obtain ⟨_, h4⟩ := u16At_of_le DnsError buf 4 (by omega)
  obtain ⟨_, h6⟩ := u16At_of_le DnsError buf 6 (by omega)
  obtain ⟨_, h8⟩ := u16At_of_le DnsError buf 8 (by omega)
  obtain ⟨_, h10⟩ := u16At_of_le DnsError buf 10 (by omega)
  simp [parseHeader, h0, h2, h4, h6, h8, h10]

theorem parseQuestions_ne_panic (count offset : ℕ) : parseQuestions buf count offset ≠ panic := by
  induction count generalizing offset with
  | zero => simp [parseQuestions]
  | succ count ih =>
    rw [parseQuestions]
    refine bind_ne_panic (parseQname_ne_panic offset) ?_
    rintro ⟨qname, next⟩ _
    dsimp only
    split
    · simp
    refine bind_ne_panic (u16At_ne_panic (by omega)) fun _ _ => ?_
    refine bind_ne_panic (u16At_ne_panic (by omega)) fun _ _ => ?_
    exact bind_ne_panic (ih _) fun _ _ => by simp

theorem fromBytes_eq_panic {header : DnsHeader} {questions : List DnsQuestion} {first : ℕ}
    (hlen : 12 ≤ buf.length) (hheader : parseHeader buf = ok header)
    (hq : parseQuestions buf header.questions.toNat 12 = ok (questions, first)) :
    fromBytes buf = panic ↔
      parseSection buf (header.answers.toNat + header.authorities.toNat + header.additionals.toNat)
        first = panic := by
  unfold fromBytes
  rw [if_neg (by omega), hheader, ok_bind, hq, parseSection_add, parseSection_add]
  simp only [ok_bind]
  cases parseSection buf header.answers.toNat first with
  | panic => simp
  | err error => simp
  | ok answers =>
    simp only [ok_bind]
    cases parseSection buf header.authorities.toNat answers.2 with
    | panic => simp
    | err error => simp
    | ok authorities =>
      simp only [ok_bind, pure_eq_ok]
      cases parseSection buf header.additionals.toNat authorities.2 <;> simp

/-- The decoder comes to a record at `offset`: the questions and all records before it were
accepted, and the counts announce one more. -/
def RecordReached (buf : Bytes) (offset : ℕ) : Prop :=
  12 ≤ buf.length ∧ ∃ header questions first, parseHeader buf = ok header ∧
    parseQuestions buf header.questions.toNat 12 = ok (questions, first) ∧
    ∃ k < header.answers.toNat + header.authorities.toNat + header.additionals.toNat,
      ∃ out, parseSection buf k first = ok (out, offset)

/-- **`from_bytes` returns, with a packet or an error, exactly when no record it comes to has an
RRSIG signer name or an NSEC next name that ends behind the rdata.** -/
theorem fromBytes_ne_panic_iff (buf : Bytes) :
    fromBytes buf ≠ panic ↔ ∀ offset, RecordReached buf offset → ¬ RecordOverruns buf offset := by
  constructor
  · rintro hnot offset ⟨hlen, header, questions, first, hheader, hq, k, hk, out, hsection⟩ hover
    refine hnot ((fromBytes_eq_panic hlen hheader hq).mpr ?_)
    exact parseSection_eq_panic.mpr ⟨k, hk, out, offset, hsection, parseRecord_eq_panic.mpr hover⟩
  · intro hall hpanic
    by_cases hlen : buf.length < 12
    · simp [fromBytes, hlen] at hpanic
    obtain ⟨header, hheader⟩ := parseHeader_of_le buf (by omega)
    cases hq : parseQuestions buf header.questions.toNat 12 with
    | panic => exact parseQuestions_ne_panic _ _ hq
    | err error => simp [fromBytes, hlen, hheader, hq] at hpanic
    | ok questions =>
      rw [fromBytes_eq_panic (by omega) hheader hq, parseSection_eq_panic] at hpanic
      obtain ⟨k, hk, out, offset, hsection, hrecord⟩ := hpanic
      exact hall offset ⟨by omega, header, _, _, hheader, hq, k, hk, out, hsection⟩
        (parseRecord_eq_panic.mp hrecord)

/-- A message of 24 bytes whose only record is an NSEC with an empty rdata: the next name is read
from the byte behind the rdata, and the type bitmap would start behind its own end. -/
theorem fromBytes_nsec_panics :
    fromBytes [0, 1, 0, 0, 0, 0, 0, 1, 0, 0, 0, 0, 0, 0, 47, 0, 1, 0, 0, 0, 0, 0, 0, 0] = panic := by
  decide

end MiniDns.Dns.DnsPacket
