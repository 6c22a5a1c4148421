import MiniDns.Dns.Packet

/-! What `parse_qname` computes: it succeeds exactly on the names of `NameAt` that need at most
64 jumps, and it never panics. From it, what `parse_record` finds in front of the rdata. -/
namespace MiniDns.Dns.DnsPacket
open Lib Lib.Outcome
set_option autoImplicit false

variable {buf : Bytes}

/-! ## The loop -/

def NameScan.rounds (buf : Bytes) (s : NameScan) : ℕ :=
  (maxPointerJumps - s.jumps) * (buf.length + 1) + (buf.length - s.current) + 1

def NameScan.endOf (s : NameScan) (e : ℕ) : ℕ := if s.jumped then s.endOffset else e

def NameScan.readLabel (buf : Bytes) (s : NameScan) (len : UInt8) : NameScan :=
  { s with
    qname := s.qname ++ fromUtf8Lossy (window buf (s.current + 1) len.toNat) ++ ['.']
    current := s.current + 1 + len.toNat }

def NameScan.follow (s : NameScan) (hi lo : UInt8) : NameScan :=
  { s with
    current := pointerTarget hi lo
    jumped := true
    endOffset := s.endOf (s.current + 2)
    jumps := s.jumps + 1 }

/-- One round of the loop, by what stands at the current offset. -/
inductive NameRound (buf : Bytes) (s : NameScan) (next : NameScan → Outcome DnsError NameScan) :
    Outcome DnsError NameScan → Prop
  | fail (e : DnsError) : (∀ ls j e', NameAt buf s.current ls j e' → maxPointerJumps < s.jumps + j) →
      NameRound buf s next (err e)
  | root : buf[s.current]? = some 0 →
      NameRound buf s next (ok { s with endOffset := s.endOf (s.current + 1) })
  | label (len : UInt8) : buf[s.current]? = some len → len &&& 0xC0 = 0 → len ≠ 0 →
      s.current + 1 + len.toNat ≤ buf.length → NameRound buf s next (next (s.readLabel buf len))
  | pointer (hi lo : UInt8) : buf[s.current]? = some hi → hi &&& 0xC0 ≠ 0 →
      buf[s.current + 1]? = some lo → s.jumps + 1 ≤ maxPointerJumps →
      NameRound buf s next (next (s.follow hi lo))

theorem parseQnameLoop_label {fuel : ℕ} {s : NameScan} {len : UInt8} (hlen : buf[s.current]? = some len)
    (hp : len &&& 0xC0 = 0) (hne : len ≠ 0) (hle : s.current + 1 + len.toNat ≤ buf.length) :
    parseQnameLoop buf (fuel + 1) s = parseQnameLoop buf fuel (s.readLabel buf len) := by
  have hslice : (slice buf (s.current + 1) (s.current + 1 + len.toNat) : Outcome DnsError Bytes) =
      ok (window buf (s.current + 1) len.toNat) := by
    rw [slice_of_le (by omega) hle, Nat.add_sub_cancel_left]
  rw [parseQnameLoop, if_neg (by omega), byteAt_eq_ok.mpr hlen, ok_bind, if_neg (not_not.mpr hp), if_neg hne,
    if_neg (by omega), hslice, ok_bind]
  rfl

theorem parseQnameLoop_pointer {fuel : ℕ} {s : NameScan} {hi lo : UInt8} (hhi : buf[s.current]? = some hi)
    (hp : hi &&& 0xC0 ≠ 0) (hlo : buf[s.current + 1]? = some lo) :
    parseQnameLoop buf (fuel + 1) s =
      if s.jumps + 1 > maxPointerJumps then err .pointerLoop else parseQnameLoop buf fuel (s.follow hi lo) := by
  have hlt := (List.getElem?_eq_some_iff.mp hlo).1
  rw [parseQnameLoop, if_neg (by omega), byteAt_eq_ok.mpr hhi, ok_bind, if_pos hp, if_neg (by omega),
    byteAt_eq_ok.mpr hlo, ok_bind, ok_bind]
  rfl

theorem parseQnameLoop_round (buf : Bytes) (fuel : ℕ) (s : NameScan) :
    NameRound buf s (parseQnameLoop buf fuel) (parseQnameLoop buf (fuel + 1) s) := by
  by_cases hlt : s.current < buf.length
  swap
  · rw [parseQnameLoop, if_pos (by omega)]
    refine .fail _ fun ls j e' hname => ?_
    have := hname.start_lt
    omega
  obtain ⟨len, hlen⟩ : ∃ len, buf[s.current]? = some len := ⟨_, List.getElem?_eq_getElem hlt⟩
  by_cases hp : len &&& 0xC0 = 0
  · by_cases hzero : len = 0
    · subst hzero
      rw [parseQnameLoop, if_neg (by omega), byteAt_eq_ok.mpr hlen, ok_bind, if_neg (not_not.mpr hp), if_pos rfl]
      exact .root hlen
    by_cases hend : s.current + 1 + len.toNat ≤ buf.length
    · rw [parseQnameLoop_label hlen hp hzero hend]
      exact .label len hlen hp hzero hend
    · rw [parseQnameLoop, if_neg (by omega), byteAt_eq_ok.mpr hlen, ok_bind, if_neg (not_not.mpr hp), if_neg hzero,
        if_pos (by omega)]
      exact .fail _ fun ls j e' hname => absurd (hname.of_label_byte hlen hp hzero) hend
  · by_cases hend : s.current + 1 < buf.length
    · obtain ⟨lo, hlo⟩ : ∃ lo, buf[s.current + 1]? = some lo := ⟨_, List.getElem?_eq_getElem hend⟩
      rw [parseQnameLoop_pointer hlen hp hlo]
      split
      · refine .fail _ fun ls j e' hname => ?_
        have := (hname.of_pointer_byte hlen hp).2
        omega
      · exact .pointer len lo hlen hp hlo (by omega)
    · rw [parseQnameLoop, if_neg (by omega), byteAt_eq_ok.mpr hlen, ok_bind, if_pos hp, if_pos (by omega)]
      exact .fail _ fun ls j e' hname => absurd (hname.of_pointer_byte hlen hp).1 hend

theorem NameScan.rounds_readLabel {s : NameScan} {len : UInt8}
    (h : s.current + 1 + len.toNat ≤ buf.length) :
    (s.readLabel buf len).rounds buf + 1 ≤ s.rounds buf := by
  simp only [rounds, readLabel]
  omega

theorem NameScan.rounds_follow (buf : Bytes) (hi lo : UInt8) {s : NameScan} (h : s.jumps + 1 ≤ maxPointerJumps) :
    (s.follow hi lo).rounds buf + 1 ≤ s.rounds buf := by
  simp only [rounds, follow]
  have hmul : (maxPointerJumps - s.jumps) * (buf.length + 1) =
      (maxPointerJumps - (s.jumps + 1)) * (buf.length + 1) + (buf.length + 1) := by
    rw [show maxPointerJumps - s.jumps = maxPointerJumps - (s.jumps + 1) + 1 by omega, Nat.succ_mul]
  omega

theorem parseQnameLoop_ne_panic (fuel : ℕ) (s : NameScan) (h : s.rounds buf ≤ fuel) :
    parseQnameLoop buf fuel s ≠ panic := by
  induction fuel generalizing s with
  | zero => simp [NameScan.rounds] at h
  | succ fuel ih =>
    have hround := parseQnameLoop_round buf fuel s
    generalize parseQnameLoop buf (fuel + 1) s = result at hround ⊢
    cases hround with
    | fail e _ => simp
    | root _ => simp
    | label len _ _ _ hle =>
      have := NameScan.rounds_readLabel hle
      exact ih _ (by omega)
    | pointer hi lo _ _ _ hj =>
      have := NameScan.rounds_follow buf hi lo hj
      exact ih _ (by omega)

def spelled (ls : List Bytes) : Text := ls.flatMap fun l => fromUtf8Lossy l ++ ['.']

theorem parseQnameLoop_of_nameAt (fuel : ℕ) (s : NameScan) {ls : List Bytes} {j e : ℕ}
    (hname : NameAt buf s.current ls j e) (hj : s.jumps + j ≤ maxPointerJumps)
    (hfuel : s.rounds buf ≤ fuel) :
    ∃ t, parseQnameLoop buf fuel s = ok t ∧ t.qname = s.qname ++ spelled ls ∧ t.endOffset = s.endOf e := by
  induction fuel generalizing s ls j e with
  | zero => simp [NameScan.rounds] at hfuel
  | succ fuel ih =>
    have hround := parseQnameLoop_round buf fuel s
    generalize parseQnameLoop buf (fuel + 1) s = result at hround ⊢
    cases hround with
    | fail error hnot => exact absurd (hnot ls j e hname) (by omega)
    | root h =>
      obtain ⟨rfl, rfl, rfl⟩ := hname.unique (.root h)
      exact ⟨_, rfl, by simp [spelled], rfl⟩
    | label len h hp hne hle =>
      cases hname with
      | root h2 => rw [h] at h2; exact absurd (Option.some.inj h2) hne
      | pointer h2 hp2 _ _ => rw [h] at h2; exact absurd hp (Option.some.inj h2 ▸ hp2)
      | label h2 _ _ _ hrest =>
        rw [h] at h2
        obtain rfl := Option.some.inj h2
        have hless := NameScan.rounds_readLabel hle
        obtain ⟨t, ht, hq, he⟩ := ih (s.readLabel buf len) hrest hj (by omega)
        refine ⟨t, ht, ?_, he⟩
        rw [hq]
        simp [NameScan.readLabel, spelled]
    | pointer hi lo h hp hlo hjumps =>
      cases hname with
      | root h2 => rw [h] at h2; exact absurd (Option.some.inj h2) (by rintro rfl; exact hp rfl)
      | label h2 hp2 _ _ _ => rw [h] at h2; exact absurd hp2 (Option.some.inj h2 ▸ hp)
      | pointer h2 _ hlo2 hrest =>
        rw [h] at h2
        rw [hlo] at hlo2
        obtain rfl := Option.some.inj h2
        obtain rfl := Option.some.inj hlo2
        have hless := NameScan.rounds_follow buf hi lo hjumps
        obtain ⟨t, ht, hq, he⟩ := ih (s.follow hi lo) hrest (by simp only [NameScan.follow]; omega) (by omega)
        exact ⟨t, ht, hq, he⟩

/-- A name that needs more pointers than the limit is given up at the first one too many. -/
theorem parseQnameLoop_of_deep (fuel : ℕ) (s : NameScan) {ls : List Bytes} {j e : ℕ}
    (hname : NameAt buf s.current ls j e) (hs : s.jumps ≤ maxPointerJumps) (hj : maxPointerJumps < s.jumps + j)
    (hfuel : s.rounds buf ≤ fuel) : parseQnameLoop buf fuel s = err .pointerLoop := by
  induction fuel generalizing s ls j e with
  | zero => simp [NameScan.rounds] at hfuel
  | succ fuel ih =>
    cases hname with
    | root h => omega
    | label h hp hne hle hrest =>
      have hless := NameScan.rounds_readLabel hle
      rw [parseQnameLoop_label h hp hne hle]
      exact ih _ hrest hs hj (by omega)
    | @pointer _ hi lo _ _ _ h hp hlo hrest =>
      rw [parseQnameLoop_pointer h hp hlo]
      split
      · rfl
      · rename_i hjumps
        have hless := NameScan.rounds_follow buf hi lo (Nat.not_lt.mp hjumps)
        exact ih _ hrest (Nat.not_lt.mp hjumps) (by simp only [NameScan.follow]; omega) (by omega)

theorem nameAt_of_parseQnameLoop (fuel : ℕ) (s : NameScan) {t : NameScan}
    (hs : s.jumps ≤ maxPointerJumps) (h : parseQnameLoop buf fuel s = ok t) :
    ∃ ls j e, NameAt buf s.current ls j e ∧ s.jumps + j ≤ maxPointerJumps ∧
      t.qname = s.qname ++ spelled ls ∧ t.endOffset = s.endOf e := by
  induction fuel generalizing s with
  | zero => cases h
  | succ fuel ih =>
    have hround := parseQnameLoop_round buf fuel s
    rw [h] at hround
    generalize hres : (ok t : Outcome DnsError NameScan) = result at hround
    cases hround with
    | fail _ _ => cases hres
    | root h0 =>
      obtain rfl := Outcome.ok.inj hres
      exact ⟨[], 0, _, .root h0, by omega, by simp [spelled], rfl⟩
    | label len h0 hp hne hle =>
      obtain ⟨ls, j, e, hname, hj, hq, he⟩ := ih (s.readLabel buf len) hs hres.symm
      refine ⟨_, j, e, .label h0 hp hne hle hname, hj, ?_, he⟩
      rw [hq]
      simp [NameScan.readLabel, spelled]
    | pointer hi lo h0 hp hlo hjumps =>
      obtain ⟨ls, j, e, hname, hj, hq, he⟩ := ih (s.follow hi lo) hjumps hres.symm
      exact ⟨ls, j + 1, _, .pointer h0 hp hlo hname, by simp only [NameScan.follow] at hj; omega, hq, he⟩

/-! ## The function -/

theorem spelled_getLast (l : Bytes) (ls : List Bytes) : (spelled (l :: ls)).getLast? = some '.' := by
  induction ls generalizing l with
  | nil => simp [spelled]
  | cons m ms ih =>
    have hsplit : spelled (l :: m :: ms) = fromUtf8Lossy l ++ ['.'] ++ spelled (m :: ms) := rfl
    rw [hsplit, List.getLast?_append, ih m]
    rfl

theorem popDot_spelled (ls : List Bytes) : popDot (spelled ls) = dotted ls := by
  cases ls with
  | nil => rfl
  | cons l ls =>
    unfold popDot
    rw [if_pos (spelled_getLast l ls)]
    exact dropLast_flatMap_dot (l :: ls)

theorem rounds_start (offset : ℕ) : NameScan.rounds buf ⟨[], offset, false, 0, 0⟩ ≤ nameFuel buf := by
  simp only [NameScan.rounds, nameFuel, Nat.sub_zero]
  omega

/-- **`parse_qname` reads exactly the names that need at most 64 jumps.** -/
theorem parseQname_eq_ok {offset e : ℕ} {qname : Text} :
    parseQname buf offset = ok (qname, e) ↔
      ∃ ls j, NameAt buf offset ls j e ∧ j ≤ maxPointerJumps ∧ qname = dotted ls := by
  unfold parseQname
  rw [bind_eq_ok]
  constructor
  · rintro ⟨t, ht, hpure⟩
    obtain ⟨hq, he⟩ := Prod.mk.inj (Outcome.ok.inj hpure)
    obtain ⟨ls, j, e', hname, hj, hspell, hend⟩ := nameAt_of_parseQnameLoop _ _ (Nat.zero_le _) ht
    have hee : e' = e := hend.symm.trans he
    subst hee
    refine ⟨ls, j, hname, by simpa using hj, ?_⟩
    rw [← hq, hspell, List.nil_append, popDot_spelled]
  · rintro ⟨ls, j, hname, hj, rfl⟩
    obtain ⟨t, ht, hq, he⟩ := parseQnameLoop_of_nameAt (nameFuel buf) ⟨[], offset, false, 0, 0⟩ hname
      (by simpa using hj) (rounds_start offset)
    refine ⟨t, ht, ?_⟩
    rw [hq, he, List.nil_append, popDot_spelled]
    rfl

theorem parseQname_of_deep {offset j e : ℕ} {ls : List Bytes} (hname : NameAt buf offset ls j e)
    (hj : maxPointerJumps < j) : parseQname buf offset = err .pointerLoop := by
  rw [parseQname, parseQnameLoop_of_deep (nameFuel buf) ⟨[], offset, false, 0, 0⟩ hname (Nat.zero_le _)
    (by simpa using hj) (rounds_start offset), err_bind]

theorem parseQname_ne_panic (offset : ℕ) : parseQname buf offset ≠ panic := by
  unfold parseQname
  rw [Ne, bind_eq_panic]
  rintro (h | ⟨_, _, h⟩)
  · exact parseQnameLoop_ne_panic _ _ (rounds_start offset) h
  · cases h

theorem parseQname_end {offset e : ℕ} {qname : Text} (h : parseQname buf offset = ok (qname, e)) :
    offset < e ∧ e ≤ buf.length := by
  obtain ⟨ls, j, hname, _, _⟩ := parseQname_eq_ok.mp h
  exact ⟨hname.lt_end, hname.end_le⟩

theorem endsAt_of_parseQname {offset e : ℕ} {qname : Text} (h : parseQname buf offset = ok (qname, e)) :
    EndsAt buf offset e := by
  obtain ⟨ls, j, hname, _, _⟩ := parseQname_eq_ok.mp h
  exact hname.endsAt

/-! ## Record heads -/

structure HeadAt (buf : Bytes) (e : ℕ) (rtype cls : UInt16) (ttl : UInt32) (dataLen : UInt16) : Prop where
  readType : (u16At buf e : Outcome DnsError UInt16) = ok rtype
  readClass : (u16At buf (e + 2) : Outcome DnsError UInt16) = ok cls
  readTtl : (u32At buf (e + 4) : Outcome DnsError UInt32) = ok ttl
  readLen : (u16At buf (e + 8) : Outcome DnsError UInt16) = ok dataLen
  fits : e + 10 + dataLen.toNat ≤ buf.length

theorem HeadAt.unique {m : ℕ} {rtype cls rtype' cls' len len' : UInt16} {ttl ttl' : UInt32}
    (h : HeadAt buf m rtype cls ttl len) (h' : HeadAt buf m rtype' cls' ttl' len') :
    rtype = rtype' ∧ cls = cls' ∧ ttl = ttl' ∧ len = len' :=
  ⟨Outcome.ok.inj (h.readType.symm.trans h'.readType), Outcome.ok.inj (h.readClass.symm.trans h'.readClass),
    Outcome.ok.inj (h.readTtl.symm.trans h'.readTtl), Outcome.ok.inj (h.readLen.symm.trans h'.readLen)⟩

structure RecordHead (buf : Bytes) (offset : ℕ) (domain : Text) (e : ℕ) (rtype cls : UInt16)
    (ttl : UInt32) (dataLen : UInt16) : Prop extends HeadAt buf e rtype cls ttl dataLen where
  readOwner : parseQname buf offset = ok (domain, e)

theorem parseRecord_of_head {offset e : ℕ} {domain : Text} {rtype cls dataLen : UInt16} {ttl : UInt32}
    (h : RecordHead buf offset domain e rtype cls ttl dataLen) :
    parseRecord buf offset =
      match parseRdata buf domain ttl (e + 10) dataLen.toNat rtype cls with
      | some record => record >>= fun r => ok (some r, e + 10 + dataLen.toNat)
      | none => ok (none, e + 10 + dataLen.toNat) := by
  have hfits := h.fits
  simp only [parseRecord, h.readOwner, ok_bind, h.readType, h.readClass, h.readTtl, h.readLen]
  rw [if_neg (by omega), if_neg (by omega)]
  rfl

theorem parseRecord_cases (buf : Bytes) (offset : ℕ) :
    (∃ error, parseRecord buf offset = err error) ∨
      ∃ domain e rtype cls ttl dataLen, RecordHead buf offset domain e rtype cls ttl dataLen := by
  cases hname : parseQname buf offset with
  | panic => exact absurd hname (parseQname_ne_panic offset)
  | err error => exact .inl ⟨error, by simp [parseRecord, hname]⟩
  | ok name =>
    obtain ⟨domain, e⟩ := name
    by_cases hhead : e + 10 > buf.length
    · exact .inl ⟨_, by simp only [parseRecord, hname, ok_bind, if_pos hhead]; rfl⟩
    obtain ⟨rtype, hrtype⟩ := u16At_of_le DnsError buf e (by omega)
    obtain ⟨cls, hcls⟩ := u16At_of_le DnsError buf (e + 2) (by omega)
    obtain ⟨ttl, httl⟩ := u32At_of_le DnsError buf (e + 4) (by omega)
    obtain ⟨dataLen, hlen⟩ := u16At_of_le DnsError buf (e + 8) (by omega)
    by_cases hdata : e + 10 + dataLen.toNat > buf.length
    · refine .inl ⟨.truncated "record data", ?_⟩
      simp only [parseRecord, hname, ok_bind, if_neg hhead, hrtype, hcls, httl, hlen, if_pos hdata]
    · exact .inr ⟨domain, e, rtype, cls, ttl, dataLen, ⟨⟨hrtype, hcls, httl, hlen, by omega⟩, hname⟩⟩

theorem parseRecord_ok {offset last : ℕ} {record : Option DnsRecord} (h : parseRecord buf offset = ok (record, last)) :
    ∃ domain e rtype cls ttl dataLen, RecordHead buf offset domain e rtype cls ttl dataLen ∧
      last = e + 10 + dataLen.toNat ∧
      parseRdata buf domain ttl (e + 10) dataLen.toNat rtype cls = record.map ok := by
  obtain ⟨error, herr⟩ | ⟨domain, e, rtype, cls, ttl, dataLen, head⟩ := parseRecord_cases buf offset
  · rw [herr] at h
    cases h
  rw [parseRecord_of_head head] at h
  refine ⟨domain, e, rtype, cls, ttl, dataLen, head, ?_⟩
  cases hparse : parseRdata buf domain ttl (e + 10) dataLen.toNat rtype cls with
  | none =>
    rw [hparse] at h
    obtain ⟨rfl, rfl⟩ := Prod.mk.inj (Outcome.ok.inj h)
    exact ⟨rfl, rfl⟩
  | some outcome =>
    rw [hparse] at h
    obtain ⟨r, rfl, h⟩ := bind_eq_ok.mp h
    obtain ⟨rfl, rfl⟩ := Prod.mk.inj (Outcome.ok.inj h)
    exact ⟨rfl, rfl⟩

/-! ## Sections -/

theorem parseQuestions_succ {count offset next : ℕ} {qs : List DnsQuestion} :
    parseQuestions buf (count + 1) offset = ok (qs, next) ↔
      ∃ q rest e, qs = q :: rest ∧ parseQname buf offset = ok (q.qname, e) ∧ e + 4 ≤ buf.length ∧
        (u16At buf e : Outcome DnsError UInt16) = ok q.qtype ∧
        (u16At buf (e + 2) : Outcome DnsError UInt16) = ok q.qclass ∧
        parseQuestions buf count (e + 4) = ok (rest, next) := by
  rw [parseQuestions]
  constructor
  · intro h
    obtain ⟨⟨qname, e⟩, hname, h⟩ := bind_eq_ok.mp h
    dsimp only at h
    split at h
    · cases h
    obtain ⟨qtype, htype, h⟩ := bind_eq_ok.mp h
    obtain ⟨qclass, hclass, h⟩ := bind_eq_ok.mp h
    obtain ⟨⟨rest, last⟩, hrest, h⟩ := bind_eq_ok.mp h
    obtain ⟨rfl, rfl⟩ := Prod.mk.inj (Outcome.ok.inj h)
    exact ⟨⟨qname, qtype, qclass⟩, rest, e, rfl, hname, by omega, htype, hclass, hrest⟩
  · rintro ⟨q, rest, e, rfl, hname, hle, htype, hclass, hrest⟩
    rw [hname, ok_bind]
    dsimp only
    rw [if_neg (by omega), htype, ok_bind, hclass, ok_bind, hrest]
    rfl

theorem parseSection_succ {count offset last : ℕ} {rs : List DnsRecord} :
    parseSection buf (count + 1) offset = ok (rs, last) ↔
      ∃ record next out, parseRecord buf offset = ok (record, next) ∧
        parseSection buf count next = ok (out, last) ∧ rs = record.toList ++ out := by
  rw [parseSection]
  constructor
  · intro h
    obtain ⟨⟨record, next⟩, hrecord, h⟩ := bind_eq_ok.mp h
    obtain ⟨⟨out, last'⟩, hout, h⟩ := bind_eq_ok.mp h
    obtain ⟨rfl, rfl⟩ := Prod.mk.inj (Outcome.ok.inj h)
    exact ⟨record, next, out, hrecord, hout, rfl⟩
  · rintro ⟨record, next, out, hrecord, hout, rfl⟩
    rw [hrecord, ok_bind]
    dsimp only
    rw [hout]
    rfl

end MiniDns.Dns.DnsPacket
