import MiniDns.Dns.PacketNames
import MiniDns.Dns.Layout

/-! What the arms of `parse_record` read, in terms of the pieces the encoder writes: an arm returns
a record whose names stand in the rdata, and it returns the record whose pieces stand there. -/
namespace MiniDns.Dns
open Lib Lib.Outcome DnsRecord DnsPacket
set_option autoImplicit false

/-! ## Inversion of the arms -/

section Inversion
variable {buf : Bytes} {domain : Text} {ttl : UInt32} {start dataLen : ℕ} {r : DnsRecord}

theorem rdataA_ok (h : rdataA buf domain ttl start dataLen = ok r) : ∃ addr, r = .a domain addr ttl := by
  unfold rdataA at h
  split at h
  · cases h
  · simp only [bind_eq_ok, pure_eq_ok, ok.injEq] at h
    obtain ⟨a, _, b, _, c, _, d, _, rfl⟩ := h
    exact ⟨_, rfl⟩

theorem rdataAaaa_ok (h : rdataAaaa buf domain ttl start dataLen = ok r) :
    ∃ addr, r = .aaaa domain addr ttl := by
  unfold rdataAaaa at h
  split at h
  · cases h
  · simp only [bind_eq_ok, pure_eq_ok, ok.injEq] at h
    obtain ⟨octets, _, addr, _, rfl⟩ := h
    exact ⟨addr, rfl⟩

theorem rdataName_ok {make : Text → Text → UInt32 → DnsRecord}
    (h : rdataName buf domain ttl start make = ok r) :
    ∃ n e, parseQname buf start = ok (n, e) ∧ r = make domain n ttl := by
  simp only [rdataName, bind_eq_ok, pure_eq_ok, ok.injEq, Prod.exists] at h
  obtain ⟨n, e, hname, rfl⟩ := h
  exact ⟨n, e, hname, rfl⟩

theorem rdataMx_ok (h : rdataMx buf domain ttl start dataLen = ok r) :
    ∃ preference n e, parseQname buf (start + 2) = ok (n, e) ∧ r = .mx domain preference n ttl := by
  unfold rdataMx at h
  split at h
  · cases h
  · simp only [bind_eq_ok, pure_eq_ok, ok.injEq, Prod.exists] at h
    obtain ⟨preference, _, n, e, hname, rfl⟩ := h
    exact ⟨preference, n, e, hname, rfl⟩

theorem rdataTxt_ok (h : rdataTxt buf domain ttl start dataLen = ok r) :
    ∃ text, parseCharacterStrings (window buf start dataLen) = ok text ∧ r = .txt domain text ttl := by
  simp only [rdataTxt, bind_eq_ok, pure_eq_ok, ok.injEq] at h
  obtain ⟨data, hdata, text, htext, rfl⟩ := h
  obtain ⟨_, _, rfl⟩ := slice_eq_ok.mp hdata
  rw [Nat.add_sub_cancel_left] at htext
  exact ⟨text, htext, rfl⟩

theorem rdataSoa_ok (h : rdataSoa buf domain ttl start = ok r) :
    ∃ mname after rname e serial refresh retry expire minimum,
      parseQname buf start = ok (mname, after) ∧ parseQname buf after = ok (rname, e) ∧
      r = .soa domain mname rname serial refresh retry expire minimum ttl := by
  simp only [rdataSoa, bind_eq_ok, Prod.exists] at h
  obtain ⟨mname, after, hm, rname, e, hr, h⟩ := h
  split at h
  · cases h
  · simp only [bind_eq_ok, pure_eq_ok, ok.injEq] at h
    obtain ⟨serial, _, refresh, _, retry, _, expire, _, minimum, _, rfl⟩ := h
    exact ⟨mname, after, rname, e, serial, refresh, retry, expire, minimum, hm, hr, rfl⟩

theorem rdataSrv_ok (h : rdataSrv buf domain ttl start dataLen = ok r) :
    ∃ priority weight port n e, parseQname buf (start + 6) = ok (n, e) ∧
      r = .srv domain priority weight port n ttl := by
  unfold rdataSrv at h
  split at h
  · cases h
  · simp only [bind_eq_ok, pure_eq_ok, ok.injEq, Prod.exists] at h
    obtain ⟨priority, _, weight, _, port, _, n, e, hname, rfl⟩ := h
    exact ⟨priority, weight, port, n, e, hname, rfl⟩

theorem rdataCaa_ok (h : rdataCaa buf domain ttl start dataLen = ok r) :
    ∃ flags tagLen, (byteAt buf (start + 1) : Outcome DnsError UInt8) = ok tagLen ∧
      2 + tagLen.toNat ≤ dataLen ∧
      r = .caa domain flags (fromUtf8Lossy (window buf (start + 2) tagLen.toNat))
        (fromUtf8Lossy (window buf (start + 2 + tagLen.toNat) (dataLen - (2 + tagLen.toNat)))) ttl := by
  unfold rdataCaa at h
  split at h
  · cases h
  · simp only [bind_eq_ok] at h
    obtain ⟨flags, _, tagLen, hlen, h⟩ := h
    split at h
    · cases h
    · simp only [bind_eq_ok, pure_eq_ok, ok.injEq] at h
      obtain ⟨tag, htag, value, hvalue, rfl⟩ := h
      obtain ⟨_, _, rfl⟩ := slice_eq_ok.mp htag
      obtain ⟨_, _, rfl⟩ := slice_eq_ok.mp hvalue
      refine ⟨flags, tagLen, hlen, by omega, ?_⟩
      rw [Nat.add_sub_cancel_left, show start + dataLen - (start + 2 + tagLen.toNat) =
        dataLen - (2 + tagLen.toNat) by omega]

theorem rdataDnskey_ok (h : rdataDnskey buf domain ttl start dataLen = ok r) :
    ∃ flags protocol algorithm publicKey, r = .dnskey domain flags protocol algorithm publicKey ttl := by
  unfold rdataDnskey at h
  split at h
  · cases h
  · simp only [bind_eq_ok, pure_eq_ok, ok.injEq] at h
    obtain ⟨flags, _, protocol, _, algorithm, _, publicKey, _, rfl⟩ := h
    exact ⟨flags, protocol, algorithm, publicKey, rfl⟩

theorem rdataRrsig_ok (h : rdataRrsig buf domain ttl start dataLen = ok r) :
    ∃ typeCovered algorithm labels originalTtl signatureExpiration signatureInception keyTag n e
      signature, parseQname buf (start + 18) = ok (n, e) ∧
      r = .rrsig domain typeCovered algorithm labels originalTtl signatureExpiration
        signatureInception keyTag n signature ttl := by
  unfold rdataRrsig at h
  split at h
  · cases h
  · simp only [bind_eq_ok, pure_eq_ok, ok.injEq, Prod.exists] at h
    obtain ⟨typeCovered, _, algorithm, _, labels, _, originalTtl, _, expiration, _, inception, _, keyTag, _,
      n, e, hname, signature, _, rfl⟩ := h
    exact ⟨typeCovered, algorithm, labels, originalTtl, expiration, inception, keyTag, n, e, signature,
      hname, rfl⟩

theorem rdataDs_ok (h : rdataDs buf domain ttl start dataLen = ok r) :
    ∃ keyTag algorithm digestType digest, r = .ds domain keyTag algorithm digestType digest ttl := by
  unfold rdataDs at h
  split at h
  · cases h
  · simp only [bind_eq_ok, pure_eq_ok, ok.injEq] at h
    obtain ⟨keyTag, _, algorithm, _, digestType, _, digest, _, rfl⟩ := h
    exact ⟨keyTag, algorithm, digestType, digest, rfl⟩

theorem rdataNsec_ok (h : rdataNsec buf domain ttl start dataLen = ok r) :
    ∃ n e typeBitmap, parseQname buf start = ok (n, e) ∧ r = .nsec domain n typeBitmap ttl := by
  simp only [rdataNsec, bind_eq_ok, pure_eq_ok, ok.injEq, Prod.exists] at h
  obtain ⟨n, e, hname, typeBitmap, _, rfl⟩ := h
  exact ⟨n, e, typeBitmap, hname, rfl⟩

end Inversion

/-! ## Names in the rdata -/

/-- The names among the pieces are read where the pieces before them end. -/
def NamesAt (buf : Bytes) : List Field → ℕ → Prop
  | [], _ => True
  | .raw bytes :: fs, o => NamesAt buf fs (o + bytes.length)
  | .name n :: fs, o => ∃ e, parseQname buf o = ok (n, e) ∧ NamesAt buf fs e
  | .plain n :: fs, o => ∃ e, parseQname buf o = ok (n, e) ∧ NamesAt buf fs e

section Sound
variable {buf : Bytes} {domain : Text} {ttl : UInt32} {start dataLen : ℕ} {rtype cls : UInt16} {r : DnsRecord}

theorem of_arm {p : Prop} [Decidable p] {x : Outcome DnsError DnsRecord}
    {y : Option (Outcome DnsError DnsRecord)} (h : (if p then some x else y) = some (ok r)) :
    p ∧ x = ok r ∨ y = some (ok r) := by
  split at h
  · exact .inl ⟨‹_›, Option.some.inj h⟩
  · exact .inr h

theorem parseRdata_ok (h : parseRdata buf domain ttl start dataLen rtype cls = some (ok r)) :
    r.recordType = rtype ∧ (r.domain = domain ∧ r.ttl = ttl ∨ r.isOpt = true) := by
  unfold parseRdata at h
  rcases of_arm h with ⟨ht, hx⟩ | h
  · obtain ⟨addr, rfl⟩ := rdataA_ok hx
    exact ⟨ht.symm, .inl ⟨rfl, rfl⟩⟩
  rcases of_arm h with ⟨ht, hx⟩ | h
  · obtain ⟨addr, rfl⟩ := rdataAaaa_ok hx
    exact ⟨ht.symm, .inl ⟨rfl, rfl⟩⟩
  rcases of_arm h with ⟨ht, hx⟩ | h
  · obtain ⟨n, e, _, rfl⟩ := rdataName_ok hx
    exact ⟨ht.symm, .inl ⟨rfl, rfl⟩⟩
  rcases of_arm h with ⟨ht, hx⟩ | h
  · obtain ⟨_, _, _, _, rfl⟩ := rdataMx_ok hx
    exact ⟨ht.symm, .inl ⟨rfl, rfl⟩⟩
  rcases of_arm h with ⟨ht, hx⟩ | h
  · obtain ⟨_, _, rfl⟩ := rdataTxt_ok hx
    exact ⟨ht.symm, .inl ⟨rfl, rfl⟩⟩
  rcases of_arm h with ⟨ht, hx⟩ | h
  · obtain ⟨n, e, _, rfl⟩ := rdataName_ok hx
    exact ⟨ht.symm, .inl ⟨rfl, rfl⟩⟩
  rcases of_arm h with ⟨ht, hx⟩ | h
  · obtain ⟨_, _, _, _, _, _, _, _, _, _, _, rfl⟩ := rdataSoa_ok hx
    exact ⟨ht.symm, .inl ⟨rfl, rfl⟩⟩
  rcases of_arm h with ⟨ht, hx⟩ | h
  · obtain ⟨_, _, _, _, _, _, rfl⟩ := rdataSrv_ok hx
    exact ⟨ht.symm, .inl ⟨rfl, rfl⟩⟩
  rcases of_arm h with ⟨ht, hx⟩ | h
  · obtain ⟨n, e, _, rfl⟩ := rdataName_ok hx
    exact ⟨ht.symm, .inl ⟨rfl, rfl⟩⟩
  rcases of_arm h with ⟨ht, hx⟩ | h
  · obtain ⟨_, _, _, _, rfl⟩ := rdataCaa_ok hx
    exact ⟨ht.symm, .inl ⟨rfl, rfl⟩⟩
  rcases of_arm h with ⟨ht, hx⟩ | h
  · obtain rfl := Outcome.ok.inj hx
    exact ⟨ht.symm, .inr rfl⟩
  rcases of_arm h with ⟨ht, hx⟩ | h
  · obtain ⟨_, _, _, _, rfl⟩ := rdataDnskey_ok hx
    exact ⟨ht.symm, .inl ⟨rfl, rfl⟩⟩
  rcases of_arm h with ⟨ht, hx⟩ | h
  · obtain ⟨_, _, _, _, _, _, _, _, _, _, _, rfl⟩ := rdataRrsig_ok hx
    exact ⟨ht.symm, .inl ⟨rfl, rfl⟩⟩
  rcases of_arm h with ⟨ht, hx⟩ | h
  · obtain ⟨_, _, _, _, rfl⟩ := rdataDs_ok hx
    exact ⟨ht.symm, .inl ⟨rfl, rfl⟩⟩
  rcases of_arm h with ⟨ht, hx⟩ | h
  · obtain ⟨_, _, _, _, rfl⟩ := rdataNsec_ok hx
    exact ⟨ht.symm, .inl ⟨rfl, rfl⟩⟩
  cases h

theorem namesAt_of_parseRdata
    (h : parseRdata buf domain ttl start dataLen r.recordType cls = some (ok r)) :
    NamesAt buf (recordFields r) start := by
  cases r with
  | cname d n t =>
    obtain ⟨n', e, hname, heq⟩ := rdataName_ok (Option.some.inj h)
    cases heq
    exact ⟨e, hname, trivial⟩
  | ns d n t =>
    obtain ⟨n', e, hname, heq⟩ := rdataName_ok (Option.some.inj h)
    cases heq
    exact ⟨e, hname, trivial⟩
  | ptr d n t =>
    obtain ⟨n', e, hname, heq⟩ := rdataName_ok (Option.some.inj h)
    cases heq
    exact ⟨e, hname, trivial⟩
  | mx d preference n t =>
    obtain ⟨_, _, e, hname, heq⟩ := rdataMx_ok (Option.some.inj h)
    cases heq
    exact ⟨e, hname, trivial⟩
  | soa d mname rname serial refresh retry expire minimum t =>
    obtain ⟨_, after, _, e, _, _, _, _, _, hm, hr, heq⟩ := rdataSoa_ok (Option.some.inj h)
    cases heq
    exact ⟨after, hm, e, hr, trivial⟩
  | srv d priority weight port n t =>
    obtain ⟨_, _, _, _, e, hname, heq⟩ := rdataSrv_ok (Option.some.inj h)
    cases heq
    exact ⟨e, hname, trivial⟩
  | rrsig d c a l o x i k n g t =>
    obtain ⟨_, _, _, _, _, _, _, _, e, _, hname, heq⟩ := rdataRrsig_ok (Option.some.inj h)
    cases heq
    exact ⟨e, hname, trivial⟩
  | nsec d n b t =>
    obtain ⟨_, e, _, hname, heq⟩ := rdataNsec_ok (Option.some.inj h)
    cases heq
    exact ⟨e, hname, trivial⟩
  | _ => exact trivial

end Sound

/-! ## Character strings -/

def stringsBytes (cs : List Bytes) : Bytes := cs.flatMap fun c => UInt8.ofNat c.length :: c

theorem characterStringsLoop_end (before : Bytes) (text : Text) (fuel : ℕ) :
    characterStringsLoop before (fuel + 1) before.length text = ok text := by
  rw [characterStringsLoop, if_neg (Nat.lt_irrefl _)]

/-- A whole character string is read in one round; of a part of one, the loop says that it is cut off. -/
theorem characterStringsLoop_cons {c : Bytes} (hc : c.length ≤ 255) (before rest : Bytes) (text : Text) (fuel : ℕ) :
    characterStringsLoop (before ++ [UInt8.ofNat c.length] ++ rest) (fuel + 1) before.length text =
      if rest.length < c.length then err (.truncated "TXT character-string")
      else characterStringsLoop (before ++ [UInt8.ofNat c.length] ++ rest) fuel (before.length + 1 + c.length)
        (text ++ fromUtf8Lossy (rest.take c.length)) := by
  have hlen : (UInt8.ofNat c.length).toNat = c.length := byte_toNat _ (by omega)
  have hbyte : (byteAt (before ++ [UInt8.ofNat c.length] ++ rest) before.length : Outcome DnsError UInt8) =
      ok (UInt8.ofNat c.length) := byteAt_eq_ok.mpr (by simp)
  have hsize : (before ++ [UInt8.ofNat c.length] ++ rest).length = before.length + 1 + rest.length := by
    rw [List.length_append, List.length_append, List.length_singleton]
  rw [characterStringsLoop, if_pos (by omega), hbyte, ok_bind, hlen, hsize]
  by_cases hshort : rest.length < c.length
  · rw [if_pos (by omega), if_pos hshort]
  · have hslice : (slice (before ++ [UInt8.ofNat c.length] ++ rest) (before.length + 1)
        (before.length + 1 + c.length) : Outcome DnsError Bytes) = ok (rest.take c.length) := by
      refine slice_of_window (by omega) (by omega) ?_
      rw [Nat.add_sub_cancel_left, window, List.drop_append_of_le_length (by simp), List.drop_of_length_le (by simp),
        List.nil_append]
    rw [if_neg (by omega), if_neg hshort, hslice, ok_bind]

theorem characterStringsLoop_stringsBytes (cs : List Bytes) (hcs : ∀ c ∈ cs, c.length ≤ 255)
    (before : Bytes) (text : Text) (fuel : ℕ) (hfuel : cs.length < fuel) :
    characterStringsLoop (before ++ stringsBytes cs) fuel before.length text =
      ok (text ++ cs.flatMap fromUtf8Lossy) := by
  obtain ⟨fuel, rfl⟩ : ∃ k, fuel = k + 1 := ⟨fuel - 1, by omega⟩
  induction cs generalizing before text fuel with
  | nil =>
    simp only [stringsBytes, List.flatMap_nil, List.append_nil]
    exact characterStringsLoop_end before text fuel
  | cons c cs ih =>
    rw [List.forall_mem_cons] at hcs
    rw [List.length_cons] at hfuel
    obtain ⟨fuel, rfl⟩ : ∃ k, fuel = k + 1 := ⟨fuel - 1, by omega⟩
    have hdata : before ++ stringsBytes (c :: cs) = before ++ [UInt8.ofNat c.length] ++ (c ++ stringsBytes cs) := by
      simp [stringsBytes]
    have hrest := ih hcs.2 (before ++ [UInt8.ofNat c.length] ++ c) (text ++ fromUtf8Lossy c) fuel (by omega)
    rw [List.append_assoc, List.length_append, List.length_append, List.length_singleton] at hrest
    rw [hdata, characterStringsLoop_cons hcs.1, if_neg (by simp), List.take_left, hrest]
    simp

theorem length_le_of_mem_chunks {n : ℕ} (hn : 0 < n) {bytes c : Bytes} (h : c ∈ chunks n bytes) :
    c.length ≤ n := by
  induction bytes using chunks_induction hn with
  | nil => simp at h
  | chunk bytes hne ih =>
    rw [chunks_of_ne_nil hn hne] at h
    rcases List.mem_cons.mp h with rfl | h
    · simp
    · exact ih h

def rereadText (text : Text) : Text := (chunks 255 (utf8 text)).flatMap fromUtf8Lossy

theorem parseCharacterStrings_characterStrings (text : Text) :
    parseCharacterStrings (DnsPacketEncoder.characterStrings text) = ok (rereadText text) := by
  unfold DnsPacketEncoder.characterStrings rereadText
  split
  · rename_i hnil
    rw [hnil]
    rfl
  · have hle := fun c (hc : c ∈ chunks 255 (utf8 text)) => length_le_of_mem_chunks (by omega) hc
    have hlen : ∀ cs : List Bytes, cs.length ≤ (stringsBytes cs).length := by
      intro cs
      induction cs with
      | nil => simp
      | cons c cs ih =>
        simp only [stringsBytes, List.flatMap_cons, List.length_append, List.length_cons] at ih ⊢
        omega
    have h := characterStringsLoop_stringsBytes (chunks 255 (utf8 text)) hle [] []
      ((stringsBytes (chunks 255 (utf8 text))).length + 1) (by have := hlen (chunks 255 (utf8 text)); omega)
    simp only [List.nil_append, List.length_nil] at h
    exact h

/-- **A text comes back from its character strings exactly when none of them begins within a character.** -/
theorem encoded_text_read_iff (e : DnsPacketEncoder) (text : Text) :
    parseCharacterStrings ((e.encodeCharacterStrings text).buf.drop e.buf.length) = ok text ↔
      CutsBetween 255 text := by
  have hwritten : (e.encodeCharacterStrings text).buf.drop e.buf.length = DnsPacketEncoder.characterStrings text :=
    List.drop_left
  rw [hwritten, parseCharacterStrings_characterStrings, Outcome.ok.injEq]
  exact flatMap_lossy_chunks_eq_self (by omega) text

/-- A character of two bytes behind 254 others. -/
def cutText : Text := List.replicate 254 'a' ++ ['é']

/-- Its halves come back as two replacement characters. -/
theorem cut_text_lost :
    let e : DnsPacketEncoder := ⟨[], fun _ => none⟩
    (DnsPacketEncoder.characterStrings cutText).length ≤ 65535 ∧
      parseCharacterStrings ((e.encodeCharacterStrings cutText).buf.drop e.buf.length) =
        ok (List.replicate 254 'a' ++ [replacement, replacement]) ∧
      List.replicate 254 'a' ++ [replacement, replacement] ≠ cutText := by
  decide +kernel

/-- What is read where a record was written: a reader may find other texts in TXT and CAA. -/
@[simp] def DnsRecord.reread : DnsRecord → DnsRecord
  | .txt d text t => .txt d (rereadText text) t
  | .caa d flags tag value t => .caa d flags (fromUtf8Lossy ((utf8 tag).take 255)) value t
  | r => r

def TextSurvives : DnsRecord → Prop
  | .txt _ text _ => rereadText text = text
  | .caa _ _ tag _ _ => fromUtf8Lossy ((utf8 tag).take 255) = tag
  | _ => True

instance (r : DnsRecord) : Decidable (TextSurvives r) :=
  match r with
  | .txt _ text _ => inferInstanceAs (Decidable (rereadText text = text))
  | .caa _ _ tag _ _ => inferInstanceAs (Decidable (fromUtf8Lossy ((utf8 tag).take 255) = tag))
  | .a .. | .aaaa .. | .cname .. | .mx .. | .ns .. | .soa .. | .srv .. | .ptr .. | .opt .. | .dnskey ..
  | .rrsig .. | .ds .. | .nsec .. => isTrue trivial

theorem reread_eq_self (r : DnsRecord) : r.reread = r ↔ TextSurvives r := by
  cases r <;> simp [TextSurvives]

/-! ## Pieces that stand in the rdata -/

def FieldsAt (buf : Bytes) : List Field → ℕ → ℕ → Prop
  | [], o, e => o = e
  | .raw bytes :: fs, o, e => window buf o bytes.length = bytes ∧ FieldsAt buf fs (o + bytes.length) e
  | .name n :: fs, o, e => ∃ m, parseQname buf o = ok (n, m) ∧ FieldsAt buf fs m e
  | .plain n :: fs, o, e => ∃ m, parseQname buf o = ok (n, m) ∧ FieldsAt buf fs m e

section Complete
variable {buf : Bytes} {start dataLen : ℕ}

theorem byteAt_of_raw {b : UInt8} {o : ℕ} (h : window buf o 1 = [b]) :
    (byteAt buf o : Outcome DnsError UInt8) = ok b := by
  have := byteAt_of_window DnsError h (i := 0) rfl
  rwa [Nat.add_zero] at this

theorem slice_of_raw {bytes : Bytes} {o e : ℕ} (h : window buf o bytes.length = bytes)
    (hend : o + bytes.length = e) (hfit : e ≤ buf.length) :
    (slice buf o e : Outcome DnsError Bytes) = ok bytes := by
  subst hend
  refine slice_of_window (by omega) hfit ?_
  rwa [Nat.add_sub_cancel_left]

/-- The places of the pieces of a CAA record. -/
theorem caa_fieldsAt {d tag value : Text} {flags : UInt8} {t : UInt32} {e : ℕ}
    (h : FieldsAt buf (recordFields (.caa d flags tag value t)) start e) :
    let size := min (utf8 tag).length 255
    window buf start 1 = [flags] ∧ window buf (start + 1) 1 = [UInt8.ofNat size] ∧
      window buf (start + 2) size = (utf8 tag).take 255 ∧
      window buf (start + 2 + size) (utf8 value).length = utf8 value ∧ start + 2 + size + (utf8 value).length = e := by
  obtain ⟨hflags, hlen, htag, hvalue, hend⟩ := h
  have hsize : ((utf8 tag).take (min (utf8 tag).length 255)).length = min (utf8 tag).length 255 := by simp
  have htake : (utf8 tag).take (min (utf8 tag).length 255) = (utf8 tag).take 255 := by
    rw [List.take_eq_take_iff]
    omega
  have hend : start + 1 + 1 + ((utf8 tag).take (min (utf8 tag).length 255)).length + (utf8 value).length = e := hend
  rw [hsize] at htag hvalue hend
  rw [htake] at htag
  exact ⟨hflags, hlen, htag, hvalue, hend⟩

theorem rdataCaa_of_fieldsAt {d tag value : Text} {flags : UInt8} {t : UInt32}
    (h : FieldsAt buf (recordFields (.caa d flags tag value t)) start (start + dataLen))
    (hfit : start + dataLen ≤ buf.length) :
    rdataCaa buf d t start dataLen = ok (.caa d flags (fromUtf8Lossy ((utf8 tag).take 255)) value t) := by
  obtain ⟨hflags, hlen, htag, hvalue, hend⟩ := caa_fieldsAt h
  have hbyte : (UInt8.ofNat (min (utf8 tag).length 255)).toNat = min (utf8 tag).length 255 :=
    byte_toNat _ (by omega)
  have hslice : (slice buf (start + 2) (start + 2 + min (utf8 tag).length 255) : Outcome DnsError Bytes) =
      ok ((utf8 tag).take 255) := by
    refine slice_of_window (by omega) (by omega) ?_
    rwa [Nat.add_sub_cancel_left]
  rw [rdataCaa, if_neg (by omega), byteAt_of_raw hflags, ok_bind, byteAt_of_raw hlen, ok_bind, hbyte,
    if_neg (by omega), hslice, ok_bind, slice_of_raw hvalue hend hfit, ok_bind, fromUtf8Lossy_utf8]
  rfl

/-- **The record whose pieces fill the rdata is the record that is read.** -/
theorem parseRdata_of_fieldsAt (r : DnsRecord) (h : FieldsAt buf (recordFields r) start (start + dataLen))
    (hfit : start + dataLen ≤ buf.length) :
    parseRdata buf r.domain r.ttl start dataLen r.recordType (recordClass r) = some (ok r.reread) := by
  cases r with
  | a d addr t =>
    obtain ⟨hoct, hend⟩ := h
    have h0 := byteAt_of_window DnsError hoct (i := 0) (b := addr.a) rfl
    have h1 := byteAt_of_window DnsError hoct (i := 1) (b := addr.b) rfl
    have h2 := byteAt_of_window DnsError hoct (i := 2) (b := addr.c) rfl
    have h3 := byteAt_of_window DnsError hoct (i := 3) (b := addr.d) rfl
    rw [Nat.add_zero] at h0
    have hlen : start + 4 = start + dataLen := hend
    show some (rdataA buf d t start dataLen) = _
    rw [rdataA, if_neg (by omega)]
    simp [h0, h1, h2, h3]
  | aaaa d addr t =>
    obtain ⟨hoct, hend⟩ := h
    have hlen : start + 16 = start + dataLen := addr.size ▸ hend
    have hslice := slice_of_raw hoct (by rw [addr.size]) (e := start + 16) (by omega)
    show some (rdataAaaa buf d t start dataLen) = _
    rw [rdataAaaa, if_neg (by omega)]
    simp [hslice, addr.copyFrom_octets]
  | cname d n t =>
    obtain ⟨m, hname, _⟩ := h
    show some (rdataName buf d t start .cname) = _
    simp [rdataName, hname]
  | mx d preference n t =>
    obtain ⟨hpref, m, hname, hend⟩ := h
    have hlt := (parseQname_end hname).1
    have hend : m = start + dataLen := hend
    show some (rdataMx buf d t start dataLen) = _
    rw [bytes16_length] at hname hlt
    rw [rdataMx, if_neg (by omega)]
    simp [u16At_of_window hpref, hname]
  | txt d text t =>
    obtain ⟨hdata, hend⟩ := h
    have hslice := slice_of_raw hdata hend hfit
    show some (rdataTxt buf d t start dataLen) = _
    simp only [rdataTxt, hslice, ok_bind, parseCharacterStrings_characterStrings, pure_eq_ok]
    rfl
  | ns d n t =>
    obtain ⟨m, hname, _⟩ := h
    show some (rdataName buf d t start .ns) = _
    simp [rdataName, hname]
  | soa d mname rname serial refresh retry expire minimum t =>
    obtain ⟨m, hm, e, hr, hserial, hrefresh, hretry, hexpire, hminimum, hend⟩ := h
    simp only [bytes32_length, Nat.add_assoc, Nat.reduceAdd] at hserial hrefresh hretry hexpire hminimum
    have hend : e + 4 + 4 + 4 + 4 + 4 = start + dataLen := hend
    show some (rdataSoa buf d t start) = _
    simp only [rdataSoa, hm, hr, ok_bind]
    rw [if_neg (by omega)]
    simp [u32At_of_window hserial, u32At_of_window hrefresh, u32At_of_window hretry,
      u32At_of_window hexpire, u32At_of_window hminimum]
  | srv d priority weight port n t =>
    obtain ⟨hpriority, hweight, hport, m, hname, hend⟩ := h
    simp only [bytes16_length, Nat.add_assoc, Nat.reduceAdd] at hpriority hweight hport hname
    have hlt := (parseQname_end hname).1
    have hend : m = start + dataLen := hend
    show some (rdataSrv buf d t start dataLen) = _
    rw [rdataSrv, if_neg (by omega)]
    simp [u16At_of_window hpriority, u16At_of_window hweight, u16At_of_window hport, hname]
  | ptr d n t =>
    obtain ⟨m, hname, _⟩ := h
    show some (rdataName buf d t start .ptr) = _
    simp [rdataName, hname]
  | caa d flags tag value t =>
    exact congrArg some (rdataCaa_of_fieldsAt h hfit)
  | opt size => rfl
  | dnskey d flags protocol algorithm key t =>
    obtain ⟨hflags, hprotocol, halgorithm, hkey, hend⟩ := h
    simp only [bytes16_length, List.length_singleton, Nat.add_assoc, Nat.reduceAdd] at hflags hprotocol halgorithm hkey
    have hend : start + 2 + 1 + 1 + key.length = start + dataLen := hend
    have hslice := slice_of_raw hkey (e := start + dataLen) (by omega) hfit
    show some (rdataDnskey buf d t start dataLen) = _
    rw [rdataDnskey, if_neg (by omega)]
    simp [u16At_of_window hflags, byteAt_of_raw hprotocol, byteAt_of_raw halgorithm, hslice]
  | rrsig d c a l o x i k n g t =>
    obtain ⟨hc, ha, hl, ho, hx, hi, hk, m, hname, hg, hend⟩ := h
    simp only [bytes16_length, bytes32_length, List.length_singleton, Nat.add_assoc, Nat.reduceAdd]
      at hc ha hl ho hx hi hk hname
    have hlt := (parseQname_end hname).1
    have hend : m + g.length = start + dataLen := hend
    have hslice := slice_of_raw hg hend hfit
    show some (rdataRrsig buf d t start dataLen) = _
    rw [rdataRrsig, if_neg (by omega)]
    simp [u16At_of_window hc, byteAt_of_raw ha, byteAt_of_raw hl, u32At_of_window ho, u32At_of_window hx,
      u32At_of_window hi, u16At_of_window hk, hname, hslice]
  | ds d k a y g t =>
    obtain ⟨hk, ha, hy, hg, hend⟩ := h
    simp only [bytes16_length, List.length_singleton, Nat.add_assoc, Nat.reduceAdd] at hk ha hy hg
    have hend : start + 2 + 1 + 1 + g.length = start + dataLen := hend
    have hslice := slice_of_raw hg (e := start + dataLen) (by omega) hfit
    show some (rdataDs buf d t start dataLen) = _
    rw [rdataDs, if_neg (by omega)]
    simp [u16At_of_window hk, byteAt_of_raw ha, byteAt_of_raw hy, hslice]
  | nsec d n b t =>
    obtain ⟨m, hname, hb, hend⟩ := h
    have hslice := slice_of_raw hb hend hfit
    show some (rdataNsec buf d t start dataLen) = _
    simp [rdataNsec, hname, hslice]

end Complete

end MiniDns.Dns
