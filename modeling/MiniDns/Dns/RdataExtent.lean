import MiniDns.Dns.PacketSafety
import MiniDns.Dns.RdataSpec

/-! How far `parse_record` reads into the rdata of a record. Names are read up to the end of the buffer, not of
the rdata, and the integers of an SOA record are read wherever its names end, so a record can be filled from
the bytes behind it. -/
namespace MiniDns.Dns.DnsPacket
open Lib Lib.Outcome DnsRecord
set_option autoImplicit false

variable {buf : Bytes} {domain : Text} {ttl : UInt32} {start dataLen : ℕ}

/-! ## Fields in place -/

/-- The character strings from an offset on, as long as one starts in front of `stop`. -/
inductive StringsEnd (buf : Bytes) (stop : ℕ) : ℕ → ℕ → Prop
  | done {o : ℕ} : stop ≤ o → StringsEnd buf stop o o
  | next {o c : ℕ} {len : UInt8} : o < stop → buf[o]? = some len → StringsEnd buf stop (o + 1 + len.toNat) c →
      StringsEnd buf stop o c

/-- Where the fields of a type end that are read from `start` on. A name counts up to its first pointer, and
the last field of CAA, DNSKEY, RRSIG, DS and NSEC is whatever is left in front of `stop`. -/
inductive FieldsEnd (buf : Bytes) (start stop : ℕ) : UInt16 → ℕ → Prop
  | a : FieldsEnd buf start stop typeA (start + 4)
  | aaaa : FieldsEnd buf start stop typeAaaa (start + 16)
  | cname {c : ℕ} : EndsAt buf start c → FieldsEnd buf start stop typeCname c
  | mx {c : ℕ} : EndsAt buf (start + 2) c → FieldsEnd buf start stop typeMx c
  | txt {c : ℕ} : StringsEnd buf stop start c → FieldsEnd buf start stop typeTxt c
  | ns {c : ℕ} : EndsAt buf start c → FieldsEnd buf start stop typeNs c
  | soa {m c : ℕ} : EndsAt buf start m → EndsAt buf m c → FieldsEnd buf start stop typeSoa (c + 20)
  | srv {c : ℕ} : EndsAt buf (start + 6) c → FieldsEnd buf start stop typeSrv c
  | ptr {c : ℕ} : EndsAt buf start c → FieldsEnd buf start stop typePtr c
  | caa {tagLen : UInt8} : buf[start + 1]? = some tagLen →
      FieldsEnd buf start stop typeCaa (start + 2 + tagLen.toNat)
  | opt : FieldsEnd buf start stop typeOpt start
  | dnskey : FieldsEnd buf start stop typeDnskey (start + 4)
  | rrsig {c : ℕ} : EndsAt buf (start + 18) c → FieldsEnd buf start stop typeRrsig c
  | ds : FieldsEnd buf start stop typeDs (start + 4)
  | nsec {c : ℕ} : EndsAt buf start c → FieldsEnd buf start stop typeNsec c

/-- What is read of an accepted record lies inside its declared length, and a record whose fields do not end
inside that length is an error. -/
def RdataInside (buf : Bytes) (offset : ℕ) : Prop :=
  ∀ domain e rtype cls ttl dataLen, RecordHead buf offset domain e rtype cls ttl dataLen →
    (∀ r last, parseRecord buf offset = ok (some r, last) →
      ∃ c, FieldsEnd buf (e + 10) (e + 10 + dataLen.toNat) rtype c ∧ c ≤ e + 10 + dataLen.toNat) ∧
    ∀ c, FieldsEnd buf (e + 10) (e + 10 + dataLen.toNat) rtype c → e + 10 + dataLen.toNat < c →
      ∃ error, parseRecord buf offset = err error

/-- The fields of a type with names can be read and end behind `stop`; MX, SRV and RRSIG records only get so
far with the length that is asked of them. -/
inductive ReadPast (buf : Bytes) (start stop : ℕ) : UInt16 → Prop
  | cname : NameOverruns buf start stop → ReadPast buf start stop typeCname
  | mx : start + 3 ≤ stop → NameOverruns buf (start + 2) stop → ReadPast buf start stop typeMx
  | ns : NameOverruns buf start stop → ReadPast buf start stop typeNs
  | soa {ls ls' : List Bytes} {j j' m e : ℕ} : NameAt buf start ls j m → j ≤ maxPointerJumps →
      NameAt buf m ls' j' e → j' ≤ maxPointerJumps → e + 20 ≤ buf.length → stop < e + 20 →
      ReadPast buf start stop typeSoa
  | srv : start + 6 ≤ stop → NameOverruns buf (start + 6) stop → ReadPast buf start stop typeSrv
  | ptr : NameOverruns buf start stop → ReadPast buf start stop typePtr
  | rrsig : start + 18 ≤ stop → NameOverruns buf (start + 18) stop → ReadPast buf start stop typeRrsig
  | nsec : NameOverruns buf start stop → ReadPast buf start stop typeNsec

theorem StringsEnd.unique {stop o c c' : ℕ} (h : StringsEnd buf stop o c) (h' : StringsEnd buf stop o c') : c = c' := by
  induction h with
  | done hstop =>
    cases h' with
    | done _ => rfl
    | next hlt _ _ => omega
  | next hlt hbyte _ ih =>
    cases h' with
    | done hstop => omega
    | next _ hbyte' hrest =>
      obtain rfl := Option.some.inj (hbyte.symm.trans hbyte')
      exact ih hrest

/-! ## Names -/

theorem NameOverruns.exists_end {o stop : ℕ} {p : ℕ → Prop} (h : NameOverruns buf o stop)
    (hp : ∀ {c}, EndsAt buf o c → p c) : ∃ c, p c ∧ stop < c := by
  obtain ⟨ls, j, e, hname, _, hlt⟩ := h
  exact ⟨e, hp hname.endsAt, hlt⟩

theorem NameOverruns.parseQname {o stop : ℕ} (h : NameOverruns buf o stop) :
    ∃ name, parseQname buf o = ok name := by
  obtain ⟨ls, j, e, hname, hj, _⟩ := h
  exact ⟨_, parseQname_eq_ok.mpr ⟨ls, j, hname, hj, rfl⟩⟩

/-- A name that was read ends in front of `stop` in place, or it overruns. -/
theorem le_or_overruns {o c e stop : ℕ} {qname : Text} (hend : EndsAt buf o c)
    (h : parseQname buf o = ok (qname, e)) : c ≤ stop ∨ NameOverruns buf o stop := by
  obtain ⟨ls, j, hname, hj, _⟩ := parseQname_eq_ok.mp h
  obtain rfl := hname.endsAt.unique hend
  by_cases hle : e ≤ stop
  · exact .inl hle
  · exact .inr ⟨ls, j, e, hname, hj, by omega⟩

/-! ## Lengths that are asked for -/

section Lengths
variable {r : DnsRecord}

theorem rdataA_length (h : rdataA buf domain ttl start dataLen = ok r) : dataLen = 4 := by
  unfold rdataA at h
  exact not_not.mp (ite_err_eq_ok.mp h).1

theorem rdataAaaa_length (h : rdataAaaa buf domain ttl start dataLen = ok r) : dataLen = 16 := by
  unfold rdataAaaa at h
  exact not_not.mp (ite_err_eq_ok.mp h).1

theorem rdataMx_length (h : rdataMx buf domain ttl start dataLen = ok r) : 3 ≤ dataLen := by
  unfold rdataMx at h
  exact not_lt.mp (ite_err_eq_ok.mp h).1

theorem rdataSrv_length (h : rdataSrv buf domain ttl start dataLen = ok r) : 6 ≤ dataLen := by
  unfold rdataSrv at h
  exact not_lt.mp (ite_err_eq_ok.mp h).1

theorem rdataDnskey_length (h : rdataDnskey buf domain ttl start dataLen = ok r) : 4 ≤ dataLen := by
  unfold rdataDnskey at h
  exact not_lt.mp (ite_err_eq_ok.mp h).1

theorem rdataRrsig_length (h : rdataRrsig buf domain ttl start dataLen = ok r) : 18 ≤ dataLen := by
  unfold rdataRrsig at h
  exact not_lt.mp (ite_err_eq_ok.mp h).1

theorem rdataDs_length (h : rdataDs buf domain ttl start dataLen = ok r) : 4 ≤ dataLen := by
  unfold rdataDs at h
  exact not_lt.mp (ite_err_eq_ok.mp h).1

/-- The integers of an SOA record are only kept inside the buffer. -/
theorem rdataSoa_length {m e : ℕ} {mname rname : Text} (h : rdataSoa buf domain ttl start = ok r)
    (hm : parseQname buf start = ok (mname, m)) (hr : parseQname buf m = ok (rname, e)) : e + 20 ≤ buf.length := by
  unfold rdataSoa at h
  rw [hm, ok_bind] at h
  dsimp only at h
  rw [hr, ok_bind] at h
  exact not_lt.mp (ite_err_eq_ok.mp h).1

/-- Character strings that were accepted end where the rdata ends. -/
theorem stringsEnd_of_loop {fuel i : ℕ} {text out : Text}
    (h : characterStringsLoop (window buf start dataLen) fuel i text = ok out)
    (hfits : start + dataLen ≤ buf.length) (hi : i ≤ dataLen) :
    StringsEnd buf (start + dataLen) (start + i) (start + dataLen) := by
  have hlen : (window buf start dataLen).length = dataLen := window_length_of_le hfits
  induction fuel generalizing i text with
  | zero => cases h
  | succ fuel ih =>
    rw [characterStringsLoop] at h
    split at h
    · rename_i hlt
      obtain ⟨len, hread, h⟩ := bind_eq_ok.mp h
      have hsame : (window buf start dataLen)[i]? = buf[start + i]? := getElem?_window buf start dataLen i (by omega)
      split at h
      · cases h
      · obtain ⟨chunk, _, h⟩ := bind_eq_ok.mp h
        have hrest := ih h (by omega)
        rw [← Nat.add_assoc, ← Nat.add_assoc] at hrest
        exact .next (by omega) (hsame.symm.trans (byteAt_eq_ok.mp hread)) hrest
    · rename_i hge
      obtain rfl : i = dataLen := by omega
      exact .done le_rfl

end Lengths

/-- A record that was accepted has its fields inside the declared length, unless a name let them out. -/
theorem FieldsEnd.le_or_readPast {rtype cls : UInt16} {c : ℕ} {r : DnsRecord} (hfits : start + dataLen ≤ buf.length)
    (hend : FieldsEnd buf start (start + dataLen) rtype c)
    (h : parseRdata buf domain ttl start dataLen rtype cls = some (ok r)) :
    c ≤ start + dataLen ∨ ReadPast buf start (start + dataLen) rtype := by
  cases hend with
  -- types without names: the length was asked for
  | a =>
    have := rdataA_length (Option.some.inj h)
    omega
  | aaaa =>
    have := rdataAaaa_length (Option.some.inj h)
    omega
  -- types with names: the name is read from the whole message
  | cname hend =>
    obtain ⟨n, e, hname, _⟩ := rdataName_ok (Option.some.inj h)
    exact (le_or_overruns hend hname).imp_right .cname
  | mx hend =>
    have hlen := rdataMx_length (Option.some.inj h)
    obtain ⟨_, n, e, hname, _⟩ := rdataMx_ok (Option.some.inj h)
    exact (le_or_overruns hend hname).imp_right (.mx (by omega))
  | txt hend =>
    obtain ⟨text, htext, _⟩ := rdataTxt_ok (Option.some.inj h)
    exact .inl (hend.unique (stringsEnd_of_loop htext hfits (Nat.zero_le _))).le
  | ns hend =>
    obtain ⟨n, e, hname, _⟩ := rdataName_ok (Option.some.inj h)
    exact (le_or_overruns hend hname).imp_right .ns
  | @soa m c hm hc =>
    obtain ⟨mname, m', rname, e, _, _, _, _, _, hmname, hrname, _⟩ := rdataSoa_ok (Option.some.inj h)
    have hlen := rdataSoa_length (Option.some.inj h) hmname hrname
    obtain ⟨ls, j, hat, hj, _⟩ := parseQname_eq_ok.mp hmname
    obtain ⟨ls', j', hat', hj', _⟩ := parseQname_eq_ok.mp hrname
    obtain rfl := hat.endsAt.unique hm
    obtain rfl := hat'.endsAt.unique hc
    by_cases hle : e + 20 ≤ start + dataLen
    · exact .inl hle
    · exact .inr (.soa hat hj hat' hj' hlen (by omega))
  | srv hend =>
    have hlen := rdataSrv_length (Option.some.inj h)
    obtain ⟨_, _, _, n, e, hname, _⟩ := rdataSrv_ok (Option.some.inj h)
    exact (le_or_overruns hend hname).imp_right (.srv (by omega))
  | ptr hend =>
    obtain ⟨n, e, hname, _⟩ := rdataName_ok (Option.some.inj h)
    exact (le_or_overruns hend hname).imp_right .ptr
  | caa hbyte =>
    obtain ⟨_, tagLen, hread, hlen, _⟩ := rdataCaa_ok (Option.some.inj h)
    obtain rfl := Option.some.inj (hbyte.symm.trans (byteAt_eq_ok.mp hread))
    omega
  | opt => omega
  | dnskey =>
    have := rdataDnskey_length (Option.some.inj h)
    omega
  | rrsig hend =>
    have hlen := rdataRrsig_length (Option.some.inj h)
    obtain ⟨_, _, _, _, _, _, _, n, e, _, hname, _⟩ := rdataRrsig_ok (Option.some.inj h)
    exact (le_or_overruns hend hname).imp_right (.rrsig (by omega))
  | ds =>
    have := rdataDs_length (Option.some.inj h)
    omega
  | nsec hend =>
    obtain ⟨n, e, _, hname, _⟩ := rdataNsec_ok (Option.some.inj h)
    exact (le_or_overruns hend hname).imp_right .nsec

theorem exists_fieldsEnd {rtype cls : UInt16} {r : DnsRecord} (hfits : start + dataLen ≤ buf.length)
    (h : parseRdata buf domain ttl start dataLen rtype cls = some (ok r)) :
    ∃ c, FieldsEnd buf start (start + dataLen) rtype c := by
  obtain ⟨rfl, _⟩ := parseRdata_ok h
  have hnames := namesAt_of_parseRdata h
  cases r with
  | a => exact ⟨_, .a⟩
  | aaaa => exact ⟨_, .aaaa⟩
  | cname =>
    obtain ⟨e, hname, _⟩ := hnames
    exact ⟨e, .cname (endsAt_of_parseQname hname)⟩
  | mx =>
    obtain ⟨e, hname, _⟩ := hnames
    exact ⟨e, .mx (endsAt_of_parseQname hname)⟩
  | txt =>
    obtain ⟨text, htext, _⟩ := rdataTxt_ok (Option.some.inj h)
    exact ⟨_, .txt (stringsEnd_of_loop htext hfits (Nat.zero_le _))⟩
  | ns =>
    obtain ⟨e, hname, _⟩ := hnames
    exact ⟨e, .ns (endsAt_of_parseQname hname)⟩
  | soa =>
    obtain ⟨m, hmname, e, hrname, _⟩ := hnames
    exact ⟨_, .soa (endsAt_of_parseQname hmname) (endsAt_of_parseQname hrname)⟩
  | srv =>
    obtain ⟨e, hname, _⟩ := hnames
    exact ⟨e, .srv (endsAt_of_parseQname hname)⟩
  | ptr =>
    obtain ⟨e, hname, _⟩ := hnames
    exact ⟨e, .ptr (endsAt_of_parseQname hname)⟩
  | caa =>
    obtain ⟨_, tagLen, hread, _⟩ := rdataCaa_ok (Option.some.inj h)
    exact ⟨_, .caa (byteAt_eq_ok.mp hread)⟩
  | opt => exact ⟨_, .opt⟩
  | dnskey => exact ⟨_, .dnskey⟩
  | rrsig =>
    obtain ⟨e, hname, _⟩ := hnames
    exact ⟨e, .rrsig (endsAt_of_parseQname hname)⟩
  | ds => exact ⟨_, .ds⟩
  | nsec =>
    obtain ⟨e, hname, _⟩ := hnames
    exact ⟨e, .nsec (endsAt_of_parseQname hname)⟩

/-! ## Records that are filled from behind -/

theorem RdataOverruns.readPast {rtype : UInt16} (h : RdataOverruns buf rtype start dataLen) :
    ReadPast buf start (start + dataLen) rtype := by
  rcases h with ⟨rfl, hlen, hname⟩ | ⟨rfl, hname⟩
  · exact .rrsig (by omega) hname
  · exact .nsec hname

theorem ReadPast.fieldsEnd {rtype : UInt16} {stop : ℕ} (h : ReadPast buf start stop rtype) :
    ∃ c, FieldsEnd buf start stop rtype c ∧ stop < c := by
  cases h with
  | cname h => exact h.exists_end .cname
  | mx _ h => exact h.exists_end .mx
  | ns h => exact h.exists_end .ns
  | soa hat _ hat' _ _ hlt => exact ⟨_, .soa hat.endsAt hat'.endsAt, hlt⟩
  | srv _ h => exact h.exists_end .srv
  | ptr h => exact h.exists_end .ptr
  | rrsig _ h => exact h.exists_end .rrsig
  | nsec h => exact h.exists_end .nsec

theorem rdataName_of_overruns (domain : Text) (ttl : UInt32) {stop : ℕ} (make : Text → Text → UInt32 → DnsRecord)
    (h : NameOverruns buf start stop) : ∃ r, rdataName buf domain ttl start make = ok r := by
  obtain ⟨name, hname⟩ := h.parseQname
  exact ⟨_, by rw [rdataName, hname, ok_bind]; rfl⟩

theorem rdataMx_of_overruns (domain : Text) (ttl : UInt32) {stop : ℕ} (hfits : start + dataLen ≤ buf.length)
    (hlen : 3 ≤ dataLen) (h : NameOverruns buf (start + 2) stop) : ∃ r, rdataMx buf domain ttl start dataLen = ok r := by
  obtain ⟨name, hname⟩ := h.parseQname
  obtain ⟨preference, hpreference⟩ := u16At_of_le DnsError buf start (by omega)
  exact ⟨_, by rw [rdataMx, if_neg (by omega), hpreference, ok_bind, hname, ok_bind]; rfl⟩

theorem rdataSrv_of_overruns (domain : Text) (ttl : UInt32) {stop : ℕ} (hfits : start + dataLen ≤ buf.length)
    (hlen : 6 ≤ dataLen) (h : NameOverruns buf (start + 6) stop) : ∃ r, rdataSrv buf domain ttl start dataLen = ok r := by
  obtain ⟨name, hname⟩ := h.parseQname
  obtain ⟨priority, hpriority⟩ := u16At_of_le DnsError buf start (by omega)
  obtain ⟨weight, hweight⟩ := u16At_of_le DnsError buf (start + 2) (by omega)
  obtain ⟨port, hport⟩ := u16At_of_le DnsError buf (start + 4) (by omega)
  exact ⟨_, by
    rw [rdataSrv, if_neg (by omega), hpriority, ok_bind, hweight, ok_bind, hport, ok_bind, hname, ok_bind]; rfl⟩

theorem rdataSoa_of_names (domain : Text) (ttl : UInt32) {m e : ℕ} {mname rname : Text}
    (hm : parseQname buf start = ok (mname, m)) (hr : parseQname buf m = ok (rname, e)) (hlen : e + 20 ≤ buf.length) :
    ∃ r, rdataSoa buf domain ttl start = ok r := by
  obtain ⟨serial, hserial⟩ := u32At_of_le DnsError buf e (by omega)
  obtain ⟨refresh, hrefresh⟩ := u32At_of_le DnsError buf (e + 4) (by omega)
  obtain ⟨retry, hretry⟩ := u32At_of_le DnsError buf (e + 8) (by omega)
  obtain ⟨expire, hexpire⟩ := u32At_of_le DnsError buf (e + 12) (by omega)
  obtain ⟨minimum, hminimum⟩ := u32At_of_le DnsError buf (e + 16) (by omega)
  refine ⟨.soa domain mname rname serial refresh retry expire minimum ttl, ?_⟩
  unfold rdataSoa
  rw [hm, ok_bind]
  dsimp only
  rw [hr, ok_bind]
  dsimp only
  rw [if_neg (by omega), hserial, ok_bind, hrefresh, ok_bind, hretry, ok_bind, hexpire, ok_bind, hminimum, ok_bind]
  rfl

/-- What reads past the rdata is accepted, or it panics; it is never refused. -/
theorem ReadPast.parseRdata {rtype : UInt16} (domain : Text) (ttl : UInt32) (cls : UInt16)
    (hfits : start + dataLen ≤ buf.length) (h : ReadPast buf start (start + dataLen) rtype) :
    (∃ r, parseRdata buf domain ttl start dataLen rtype cls = some (ok r)) ∨
      parseRdata buf domain ttl start dataLen rtype cls = some panic := by
  cases h with
  | cname h =>
    obtain ⟨r, hr⟩ := rdataName_of_overruns domain ttl .cname h
    exact .inl ⟨r, congrArg some hr⟩
  | mx hlen h =>
    obtain ⟨r, hr⟩ := rdataMx_of_overruns domain ttl hfits (by omega) h
    exact .inl ⟨r, congrArg some hr⟩
  | ns h =>
    obtain ⟨r, hr⟩ := rdataName_of_overruns domain ttl .ns h
    exact .inl ⟨r, congrArg some hr⟩
  | soa hat hj hat' hj' hlen _ =>
    obtain ⟨r, hr⟩ := rdataSoa_of_names domain ttl (parseQname_eq_ok.mpr ⟨_, _, hat, hj, rfl⟩)
      (parseQname_eq_ok.mpr ⟨_, _, hat', hj', rfl⟩) hlen
    exact .inl ⟨r, congrArg some hr⟩
  | srv hlen h =>
    obtain ⟨r, hr⟩ := rdataSrv_of_overruns domain ttl hfits (by omega) h
    exact .inl ⟨r, congrArg some hr⟩
  | ptr h =>
    obtain ⟨r, hr⟩ := rdataName_of_overruns domain ttl .ptr h
    exact .inl ⟨r, congrArg some hr⟩
  | rrsig hlen h =>
    exact .inr ((parseRdata_eq_panic domain ttl typeRrsig cls hfits).mpr (.inl ⟨rfl, by omega, h⟩))
  | nsec h => exact .inr ((parseRdata_eq_panic domain ttl typeNsec cls hfits).mpr (.inr ⟨rfl, h⟩))

theorem FieldsEnd.modelled {rtype cls : UInt16} {stop c : ℕ} (hend : FieldsEnd buf start stop rtype c) :
    parseRdata buf domain ttl start dataLen rtype cls ≠ none := by
  intro h
  cases hend <;> cases h

/-- **A record whose fields do not end inside its declared length is refused exactly when its type has no names
or its names, and the integers of an SOA record, can not be read past that length.** -/
theorem rdataInside_iff (buf : Bytes) (offset : ℕ) :
    RdataInside buf offset ↔
      ∀ domain e rtype cls ttl dataLen, RecordHead buf offset domain e rtype cls ttl dataLen →
        ¬ ReadPast buf (e + 10) (e + 10 + dataLen.toNat) rtype := by
  constructor
  · intro h domain e rtype cls ttl dataLen head hpast
    obtain ⟨c, hend, hlt⟩ := hpast.fieldsEnd
    obtain ⟨error, herr⟩ := (h domain e rtype cls ttl dataLen head).2 c hend hlt
    rw [parseRecord_of_head head] at herr
    rcases hpast.parseRdata domain ttl cls head.fits with ⟨r, hr⟩ | hr
    · rw [hr] at herr
      cases herr
    · rw [hr] at herr
      cases herr
  · intro h domain e rtype cls ttl dataLen head
    have hnot := h domain e rtype cls ttl dataLen head
    rw [parseRecord_of_head head]
    cases hparse : parseRdata buf domain ttl (e + 10) dataLen.toNat rtype cls with
    | none => exact ⟨nofun, fun c hend _ => absurd hparse hend.modelled⟩
    | some outcome =>
      cases outcome with
      | err error => exact ⟨nofun, fun _ _ _ => ⟨error, rfl⟩⟩
      | panic => exact absurd ((parseRdata_eq_panic domain ttl rtype cls head.fits).mp hparse).readPast hnot
      | ok r =>
        have hle : ∀ c, FieldsEnd buf (e + 10) (e + 10 + dataLen.toNat) rtype c → c ≤ e + 10 + dataLen.toNat :=
          fun c hend => (hend.le_or_readPast head.fits hparse).resolve_right hnot
        obtain ⟨c, hend⟩ := exists_fieldsEnd head.fits hparse
        exact ⟨fun _ _ _ => ⟨c, hend, hle c hend⟩, fun c hend hlt => absurd (hle c hend) (by omega)⟩

def emptyAlias : Bytes :=
  [0, 7, 0x84, 0, 0, 0, 0, 2, 0, 0, 0, 0] ++ [1, 97, 0, 0, 5, 0, 1, 0, 0, 0, 60, 0, 0] ++
    [1, 98, 0, 0, 1, 0, 1, 0, 0, 0, 60, 0, 4, 10, 0, 0, 1]

/-- Its alias is the owner of the record behind it. -/
theorem alias_filled_from_behind :
    fromBytes emptyAlias = ok ⟨⟨7, 0x8400, 0, 2, 0, 0⟩, [],
        [.cname ['a'] ['b'] 60, .a ['b'] ⟨10, 0, 0, 1⟩ 60], [], []⟩ ∧ ¬ RdataInside emptyAlias 12 := by
  refine ⟨by decide +kernel, fun h => ?_⟩
  have head : RecordHead emptyAlias 12 ['a'] 15 typeCname 1 60 0 :=
    ⟨⟨by decide, by decide, by decide, by decide, by decide⟩, by decide +kernel⟩
  have hpast : ReadPast emptyAlias 25 25 typeCname :=
    .cname ⟨_, 0, 28, .label rfl (by decide) (by decide) (by decide) (.root rfl), by decide, by decide⟩
  obtain ⟨c, hend, hlt⟩ := hpast.fieldsEnd
  obtain ⟨error, herr⟩ := (h _ _ _ _ _ _ head).2 c hend hlt
  have hok : parseRecord emptyAlias 12 = ok (some (.cname ['a'] ['b'] 60), 25) := by decide +kernel
  rw [hok] at herr
  cases herr

end MiniDns.Dns.DnsPacket
