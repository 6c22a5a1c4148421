import MiniDns.Dns.NameRoundTrip
import MiniDns.Dns.WriteOps

/-! The compression table of the encoder.
Each entry leads to the bytes of its suffix's first label, these bytes never change again, and whoever follows
pointers goes strictly backwards. -/
namespace MiniDns.Dns
open Lib DnsRecord DnsPacketEncoder
set_option autoImplicit false

def firstLabel (suffix : Text) : Text := (splitDots suffix).headD []

theorem firstLabel_joinDots {l : Text} {ls : List Text} (hdot : ∀ l' ∈ l :: ls, '.' ∉ l') :
    firstLabel (joinDots (l :: ls)) = l := by
  rw [firstLabel, splitDots_joinDots (List.cons_ne_nil l ls) hdot, List.headD_cons]

namespace Writing

/-! ## What a write leaves as it was -/

/-- Nothing but reserved bytes is different in `w'`, and nothing is forgotten. -/
structure Extends (w w' : Writing) : Prop where
  length : w.enc.buf.length ≤ w'.enc.buf.length
  bytes : ∀ i < w.enc.buf.length, (∀ pos ∈ w.reserved, i < pos ∨ pos + 2 ≤ i) → w'.enc.buf[i]? = w.enc.buf[i]?
  reserved : ∀ pos ∈ w'.reserved, pos ∈ w.reserved ∨ w.enc.buf.length ≤ pos
  entries : ∀ suffix off, w.enc.nameOffsets suffix = some off → w'.enc.nameOffsets suffix = some off

namespace Extends
variable {w w' w'' : Writing}

theorem refl (w : Writing) : w.Extends w where
  length := le_rfl
  bytes := fun _ _ _ => rfl
  reserved := fun _ h => .inl h
  entries := fun _ _ h => h

theorem trans (h : w.Extends w') (h' : w'.Extends w'') : w.Extends w'' where
  length := h.length.trans h'.length
  bytes := by
    intro i hi hfree
    rw [h'.bytes i (hi.trans_le h.length), h.bytes i hi hfree]
    intro pos hpos
    obtain hold | hnew := h.reserved pos hpos
    · exact hfree pos hold
    · exact .inl (by omega)
  reserved := by
    intro pos hpos
    obtain hpos | hnew := h'.reserved pos hpos
    · exact h.reserved pos hpos
    · exact .inr (h.length.trans hnew)
  entries := fun suffix off hs => h'.entries suffix off (h.entries suffix off hs)

theorem append (w : Writing) (bytes : Bytes) : w.Extends { w with enc := w.enc.write bytes } where
  length := by simp [DnsPacketEncoder.write]
  bytes := fun i hi _ => List.getElem?_append_left hi
  reserved := fun _ h => .inl h
  entries := fun _ _ h => h

theorem remember {suffix : Text} (w : Writing) (hnone : w.enc.nameOffsets suffix = none) (off : UInt16) :
    w.Extends ⟨⟨w.enc.buf, Function.update w.enc.nameOffsets suffix (some off)⟩, w.reserved⟩ where
  length := le_rfl
  bytes := fun _ _ _ => rfl
  reserved := fun _ h => .inl h
  entries := by
    intro s o hs
    have hne : s ≠ suffix := by
      rintro rfl
      rw [hnone] at hs
      cases hs
    exact (Function.update_of_ne hne _ _).trans hs

end Extends

/-! ## Names that can be read -/

def Remembers (w : Writing) (t : ℕ) : Prop := ∃ suffix off, w.enc.nameOffsets suffix = some off ∧ off.toNat = t

/-- The name between the two offsets is complete, and its pointer, if there is one, leads back to a
remembered suffix. -/
structure ReadsBack (w : Writing) (o e : ℕ) : Prop where
  ends : EndsAt w.enc.buf o e
  le : e ≤ w.enc.buf.length
  apart : ∀ pos ∈ w.reserved, e ≤ pos ∨ pos + 2 ≤ o
  back : ∀ t, Hop w.enc.buf o t → t < o ∧ w.Remembers t

structure Entry (w : Writing) (suffix : Text) (o : ℕ) : Prop where
  bound : o ≤ 0x3FFF
  reads : ∃ e, w.ReadsBack o e ∧ o + (labelBytes (firstLabel suffix)).length ≤ e
  label : window w.enc.buf o (labelBytes (firstLabel suffix)).length = labelBytes (firstLabel suffix)

structure Sound (w : Writing) : Prop where
  reserved : ∀ pos ∈ w.reserved, pos + 2 ≤ w.enc.buf.length
  entry : ∀ suffix off, w.enc.nameOffsets suffix = some off → w.Entry suffix off.toNat

variable {w w' : Writing} {o e : ℕ}

theorem Remembers.mono {t : ℕ} (h : w.Remembers t) (hext : w.Extends w') : w'.Remembers t := by
  obtain ⟨suffix, off, hs, ht⟩ := h
  exact ⟨suffix, off, hext.entries suffix off hs, ht⟩

theorem ReadsBack.same (h : w.ReadsBack o e) (hext : w.Extends w') (i : ℕ) (ho : o ≤ i) (he : i < e) :
    w'.enc.buf[i]? = w.enc.buf[i]? := by
  refine hext.bytes i (he.trans_le h.le) fun pos hpos => ?_
  have := h.apart pos hpos
  omega

theorem ReadsBack.mono (h : w.ReadsBack o e) (hext : w.Extends w') : w'.ReadsBack o e where
  ends := h.ends.congr (h.same hext)
  le := h.le.trans hext.length
  apart := by
    intro pos hpos
    obtain hold | hnew := hext.reserved pos hpos
    · exact h.apart pos hold
    · exact .inl (h.le.trans hnew)
  back := by
    intro t ht
    obtain ⟨hlt, hmem⟩ := h.back t (Hop.congr h.ends (h.same hext) ht)
    exact ⟨hlt, hmem.mono hext⟩

theorem Entry.same {suffix : Text} (h : w.Entry suffix o) (hext : w.Extends w') :
    window w'.enc.buf o (labelBytes (firstLabel suffix)).length =
      window w.enc.buf o (labelBytes (firstLabel suffix)).length := by
  obtain ⟨e, hreads, hle⟩ := h.reads
  exact window_congr fun i ho hi => hreads.same hext i ho (by omega)

theorem Entry.mono {suffix : Text} (h : w.Entry suffix o) (hext : w.Extends w') : w'.Entry suffix o where
  bound := h.bound
  reads := by
    obtain ⟨e, hreads, hle⟩ := h.reads
    exact ⟨e, hreads.mono hext, hle⟩
  label := (h.same hext).trans h.label

theorem Entry.lt {suffix : Text} (h : w.Entry suffix o) : o < w.enc.buf.length := by
  obtain ⟨e, hreads, _⟩ := h.reads
  exact hreads.ends.lt.trans_le hreads.le

namespace Sound

theorem start : Writing.start.Sound where
  reserved := fun _ h => absurd h List.not_mem_nil
  entry := fun _ _ h => nomatch h

theorem of_extends (h : w.Sound) (hext : w.Extends w') (hres : ∀ pos ∈ w'.reserved, pos + 2 ≤ w'.enc.buf.length)
    (hnew : ∀ suffix off, w'.enc.nameOffsets suffix = some off →
      w.enc.nameOffsets suffix = some off ∨ w'.Entry suffix off.toNat) : w'.Sound where
  reserved := hres
  entry := by
    intro suffix off hs
    obtain hold | hnew := hnew suffix off hs
    · exact (h.entry suffix off hold).mono hext
    · exact hnew

theorem append (h : w.Sound) (bytes : Bytes) : Sound { w with enc := w.enc.write bytes } :=
  h.of_extends (.append w bytes) (fun pos hpos => (h.reserved pos hpos).trans (Extends.append w bytes).length)
    fun _ _ hs => .inl hs

theorem lt_of_remembers (h : w.Sound) {t : ℕ} (ht : w.Remembers t) : t < w.enc.buf.length := by
  obtain ⟨suffix, off, hs, rfl⟩ := ht
  exact (h.entry suffix off hs).lt

theorem descends (h : w.Sound) (ho : w.ReadsBack o e) : Descends w.enc.buf o := by
  refine descends_of_hop (S := fun o => ∃ e, w.ReadsBack o e) ?_ ⟨e, ho⟩
  rintro o ⟨e, ho⟩ t ht
  obtain ⟨hlt, suffix, off, hs, rfl⟩ := ho.back t ht
  obtain ⟨e', hreads, _⟩ := (h.entry suffix off hs).reads
  exact ⟨hlt, e', hreads⟩

end Sound

/-! ## Writing a name -/

theorem exists_endsAt_label {buf : Bytes} {l : Text} (hlabel : window buf o (labelBytes l).length = labelBytes l)
    (hrest : EndsAt buf (o + (labelBytes l).length) e) (hle : e ≤ buf.length) :
    ∃ e', EndsAt buf o e' ∧ o + (labelBytes l).length ≤ e' ∧ e' ≤ buf.length ∧
      ∀ t, Hop buf o t → Hop buf (o + (labelBytes l).length) t := by
  have hlt := wireLabel_length_lt l
  have hnat := toNat_lengthByte l
  have hsize := length_labelBytes l
  have hbyte : buf[o]? = some (UInt8.ofNat (wireLabel l).length) := by
    rw [← Nat.add_zero o, ← getElem?_window buf o (labelBytes l).length 0 (by omega), hlabel, labelBytes_eq]
    rfl
  have hbehind := hrest.lt
  by_cases hzero : (wireLabel l).length = 0
  · -- a reader takes an empty label for the end of the name
    rw [hzero] at hbyte
    exact ⟨o + 1, .root hbyte, by omega, by omega, fun t ht => (ht.root_elim hbyte).elim⟩
  · have hnext : o + 1 + (UInt8.ofNat (wireLabel l).length).toNat = o + (labelBytes l).length := by omega
    refine ⟨e, .label hbyte (lengthByte_and hlt) (lengthByte_ne_zero hlt hzero) ?_, hbehind.le, hle, ?_⟩
    · rwa [hnext]
    · intro t ht
      rw [← hnext]
      exact ht.of_label hbyte (lengthByte_and hlt)

/-- From `w` to `w'` a name was written; its pointer leads to a suffix that was remembered before. -/
structure NameWritten (w w' : Writing) : Prop where
  sound : w'.Sound
  ext : w.Extends w'
  reserved : w'.reserved = w.reserved
  reads : ∃ e, EndsAt w'.enc.buf w.enc.buf.length e ∧ e ≤ w'.enc.buf.length ∧
    ∀ t, Hop w'.enc.buf w.enc.buf.length t → w.Remembers t

theorem Sound.readsBack (h : w.Sound) (hext : w.Extends w') (hres : w'.reserved = w.reserved)
    (hends : EndsAt w'.enc.buf w.enc.buf.length e) (hle : e ≤ w'.enc.buf.length)
    (hhop : ∀ t, Hop w'.enc.buf w.enc.buf.length t → w.Remembers t) : w'.ReadsBack w.enc.buf.length e where
  ends := hends
  le := hle
  apart := fun pos hpos => .inr (h.reserved pos (hres ▸ hpos))
  back := fun t ht => ⟨h.lt_of_remembers (hhop t ht), (hhop t ht).mono hext⟩

namespace NameWritten

theorem root (h : w.Sound) : NameWritten w { w with enc := w.enc.write [0] } where
  sound := h.append [0]
  ext := .append w [0]
  reserved := rfl
  reads := by
    have hbyte : (w.enc.write [0]).buf[w.enc.buf.length]? = some 0 := by simp [DnsPacketEncoder.write]
    exact ⟨_, .root hbyte, by simp [DnsPacketEncoder.write], fun t ht => (ht.root_elim hbyte).elim⟩

theorem pointer (h : w.Sound) {suffix : Text} {off : UInt16} (hs : w.enc.nameOffsets suffix = some off) :
    NameWritten w { w with enc := w.enc.write (bytes16 (0xC000 ||| off)) } where
  sound := h.append _
  ext := .append w _
  reserved := rfl
  reads := by
    obtain ⟨hi, lo, hbytes, hmark, htarget⟩ := pointerBytes (h.entry suffix off hs).bound
    rw [UInt16.ofNat_toNat] at hbytes
    have hhi : (w.enc.write (bytes16 (0xC000 ||| off))).buf[w.enc.buf.length]? = some hi := by
      simp [DnsPacketEncoder.write, hbytes]
    have hlo : (w.enc.write (bytes16 (0xC000 ||| off))).buf[w.enc.buf.length + 1]? = some lo := by
      simp [DnsPacketEncoder.write, hbytes]
    refine ⟨_, .pointer hhi hmark, by simp [DnsPacketEncoder.write], fun t ht => ⟨suffix, off, hs, ?_⟩⟩
    rw [ht.target_eq hhi hmark hlo, htarget]

variable {l : Text}

theorem window_label (h : w.Sound) (hrest : NameWritten { w with enc := w.enc.write (labelBytes l) } w') :
    window w'.enc.buf w.enc.buf.length (labelBytes l).length = labelBytes l := by
  have hwritten := window_append w.enc.buf (labelBytes l) []
  rw [List.append_nil] at hwritten
  refine (window_congr fun i hfrom hto => hrest.ext.bytes i ?_ fun pos hpos => .inr ?_).trans hwritten
  · simpa [DnsPacketEncoder.write] using hto
  · exact (h.reserved pos hpos).trans hfrom

theorem reads_label (h : w.Sound) (hrest : NameWritten { w with enc := w.enc.write (labelBytes l) } w') :
    ∃ e, EndsAt w'.enc.buf w.enc.buf.length e ∧ w.enc.buf.length + (labelBytes l).length ≤ e ∧
      e ≤ w'.enc.buf.length ∧ ∀ t, Hop w'.enc.buf w.enc.buf.length t → w.Remembers t := by
  have hlen : (w.enc.write (labelBytes l)).buf.length = w.enc.buf.length + (labelBytes l).length :=
    List.length_append
  obtain ⟨e, hends, hle, hhop⟩ := hrest.reads
  rw [hlen] at hends hhop
  obtain ⟨e', hends', hlabel, hle', hhop'⟩ := exists_endsAt_label (hrest.window_label h) hends hle
  exact ⟨e', hends', hlabel, hle', fun t ht => hhop t (hhop' t ht)⟩

theorem label (h : w.Sound) (hrest : NameWritten { w with enc := w.enc.write (labelBytes l) } w') :
    NameWritten w w' where
  sound := hrest.sound
  ext := (Extends.append w _).trans hrest.ext
  reserved := hrest.reserved
  reads := by
    obtain ⟨e, hends, _, hle, hhop⟩ := hrest.reads_label h
    exact ⟨e, hends, hle, hhop⟩

theorem entry (h : w.Sound) (hrest : NameWritten { w with enc := w.enc.write (labelBytes l) } w') {suffix : Text}
    (hfirst : firstLabel suffix = l) (hbound : w.enc.buf.length ≤ 0x3FFF) :
    w'.Entry suffix w.enc.buf.length where
  bound := hbound
  reads := by
    obtain ⟨e, hends, hlabel, hle, hhop⟩ := hrest.reads_label h
    have hwritten := hrest.label h
    exact ⟨e, h.readsBack hwritten.ext hwritten.reserved hends hle hhop, hfirst ▸ hlabel⟩
  label := hfirst ▸ hrest.window_label h

theorem remember (h : NameWritten w w') {suffix : Text} (hnone : w'.enc.nameOffsets suffix = none) {off : UInt16}
    (hentry : w'.Entry suffix off.toNat) :
    NameWritten w ⟨⟨w'.enc.buf, Function.update w'.enc.nameOffsets suffix (some off)⟩, w'.reserved⟩ where
  sound := by
    refine h.sound.of_extends (.remember w' hnone off) h.sound.reserved fun s o hs => ?_
    by_cases hsame : s = suffix
    · subst hsame
      have hself : Function.update w'.enc.nameOffsets s (some off) s = some off := Function.update_self ..
      obtain rfl := Option.some.inj (hself.symm.trans hs)
      exact .inr (hentry.mono (.remember w' hnone off))
    · exact .inl ((Function.update_of_ne hsame ..).symm.trans hs)
  ext := h.ext.trans (.remember w' hnone off)
  reserved := h.reserved
  reads := h.reads

end NameWritten

/-- A suffix is remembered only when it is written itself. -/
theorem encodeLabels_nameOffsets_eq_none {enc : DnsPacketEncoder} {l : Text} {ls : List Text}
    (hnone : enc.nameOffsets (joinDots (l :: ls)) = none) :
    (enc.encodeLabels ls).nameOffsets (joinDots (l :: ls)) = none := by
  have hself : Function.update enc.nameOffsets (joinDots (l :: ls)) none = enc.nameOffsets := by
    rw [← hnone, Function.update_eq_self]
  have h := encodeLabels_update enc.buf enc.nameOffsets ls (joinDots (l :: ls)) none
    fun m hm hne => joinDots_ne_of_suffix hm hne
  rw [hself] at h
  rw [h]
  exact Function.update_self ..

theorem Sound.labels (h : w.Sound) {ls : List Text} (hdot : ∀ l ∈ ls, '.' ∉ l) :
    NameWritten w { w with enc := w.enc.encodeLabels ls } := by
  induction ls generalizing w with
  | nil => exact .root h
  | cons l ls ih =>
    cases hfound : w.enc.nameOffsets (joinDots (l :: ls)) with
    | some off =>
      have hwritten := NameWritten.pointer h hfound
      simpa only [encodeLabels, hfound] using hwritten
    | none =>
      -- the entry of this suffix plays no part until the rest of it is written
      have hrest := ih (h.append (labelBytes l)) fun l' hl' => hdot l' (List.mem_cons_of_mem l hl')
      have hnone : ((w.enc.write (labelBytes l)).encodeLabels ls).nameOffsets (joinDots (l :: ls)) = none :=
        encodeLabels_nameOffsets_eq_none hfound
      rw [encodeLabels_cons hfound]
      split
      · rename_i hbound
        have hnat : (UInt16.ofNat w.enc.buf.length).toNat = w.enc.buf.length := by
          rw [UInt16.toNat_ofNat']
          omega
        have hentry := hrest.entry h (firstLabel_joinDots hdot) hbound
        exact (hrest.label h).remember hnone (hnat.symm ▸ hentry)
      · exact hrest.label h

theorem encodeLabels_buf (enc : DnsPacketEncoder) (ls : List Text) :
    (enc.encodeLabels ls).buf = enc.buf ++ ls.flatMap labelBytes ++ [0] ∨
      ∃ written rest off, ls = written ++ rest ∧ enc.nameOffsets (joinDots rest) = some off ∧
        (enc.encodeLabels ls).buf = enc.buf ++ written.flatMap labelBytes ++ bytes16 (0xC000 ||| off) := by
  induction ls generalizing enc with
  | nil => exact .inl (by simp [encodeLabels, DnsPacketEncoder.write])
  | cons l ls ih =>
    cases hfound : enc.nameOffsets (joinDots (l :: ls)) with
    | some off => exact .inr ⟨[], l :: ls, off, rfl, hfound, by simp [encodeLabels, hfound, DnsPacketEncoder.write]⟩
    | none =>
      rw [encodeLabels_cons hfound]
      obtain hbuf | ⟨written, rest, off, rfl, hoff, hbuf⟩ := ih (enc.write (labelBytes l))
      · exact .inl (hbuf.trans (by simp [DnsPacketEncoder.write]))
      · exact .inr ⟨l :: written, rest, off, rfl, hoff, hbuf.trans (by simp [DnsPacketEncoder.write])⟩

theorem Sound.name (h : w.Sound) (n : Text) : NameWritten w (w.write (.field (.name n))) := by
  have hwritten : NameWritten w { w with enc := w.enc.encodeLabels (nameLabels n) } :=
    h.labels fun l hl => dot_not_mem_of_mem_nameLabels hl
  rwa [← encodeQname_eq] at hwritten

/-- An uncompressed name is one that is written while nothing is remembered. -/
theorem plain_reads (w : Writing) (n : Text) :
    ∃ e, EndsAt (w.enc.buf ++ Layout.plainBytes n) w.enc.buf.length e ∧
      e ≤ (w.enc.buf ++ Layout.plainBytes n).length ∧
      ∀ t, ¬Hop (w.enc.buf ++ Layout.plainBytes n) w.enc.buf.length t := by
  have hempty : Sound ⟨⟨w.enc.buf, fun _ => none⟩, []⟩ :=
    ⟨fun _ h => absurd h List.not_mem_nil, fun _ _ h => nomatch h⟩
  have hbuf : (encodeLabels ⟨w.enc.buf, fun _ => none⟩ (nameLabels n)).buf =
      w.enc.buf ++ Layout.plainBytes n := by
    obtain hbuf | ⟨_, _, _, _, hoff, _⟩ := encodeLabels_buf ⟨w.enc.buf, fun _ => none⟩ (nameLabels n)
    · exact hbuf.trans (List.append_assoc ..)
    · cases hoff
  obtain ⟨e, hends, hle, hhop⟩ := (hempty.labels fun l hl => dot_not_mem_of_mem_nameLabels hl).reads
  rw [hbuf] at hends hle hhop
  refine ⟨e, hends, hle, fun t ht => ?_⟩
  obtain ⟨_, _, hoff, _⟩ := hhop t ht
  cases hoff

/-! ## Single writes and whole messages -/

variable {lenPos : ℕ} {reserved : List ℕ}

theorem closeRdata_bytes (h : w.Sound) (hres : w.reserved = lenPos :: reserved) :
    (w.write .closeRdata).enc.buf.length = w.enc.buf.length ∧
      ∀ i, i < lenPos ∨ lenPos + 2 ≤ i → (w.write .closeRdata).enc.buf[i]? = w.enc.buf[i]? := by
  have hle := h.reserved lenPos (hres ▸ List.mem_cons_self)
  rw [write_closeRdata hres]
  exact ⟨length_overwrite hle, fun i hi => getElem?_overwrite hle hi⟩

theorem Sound.closeRdata (h : w.Sound) :
    w.Extends (w.write .closeRdata) ∧ (w.write .closeRdata).Sound := by
  cases hres : w.reserved with
  | nil =>
    have heq : w.write .closeRdata = w := by simp only [Writing.write, hres]
    rw [heq]
    exact ⟨.refl w, h⟩
  | cons lenPos reserved =>
    obtain ⟨hlen, hbytes⟩ := closeRdata_bytes h hres
    have hstill : ∀ pos ∈ (w.write .closeRdata).reserved, pos ∈ w.reserved := by
      intro pos hpos
      rw [write_closeRdata hres] at hpos
      exact hres ▸ List.mem_cons_of_mem lenPos hpos
    have hsame : (w.write .closeRdata).enc.nameOffsets = w.enc.nameOffsets := by rw [write_closeRdata hres]
    have hext : w.Extends (w.write .closeRdata) :=
      ⟨hlen.ge, fun i _ hfree => hbytes i (hfree lenPos (hres ▸ List.mem_cons_self)),
        fun pos hpos => .inl (hstill pos hpos), fun suffix off hs => by rwa [hsame]⟩
    refine ⟨hext, h.of_extends hext (fun pos hpos => ?_) fun suffix off hs => .inl (by rwa [hsame] at hs)⟩
    exact (h.reserved pos (hstill pos hpos)).trans hlen.ge

theorem Sound.openRdata (h : w.Sound) : w.Extends (w.write .openRdata) ∧ (w.write .openRdata).Sound := by
  have hlen : (w.write .openRdata).enc.buf.length = w.enc.buf.length + 2 := List.length_append
  have happend := Extends.append w (bytes16 0)
  have hext : w.Extends (w.write .openRdata) := by
    refine ⟨happend.length, happend.bytes, fun pos hpos => ?_, happend.entries⟩
    obtain rfl | hpos := List.mem_cons.mp hpos
    · exact .inr le_rfl
    · exact .inl hpos
  refine ⟨hext, h.of_extends hext (fun pos hpos => ?_) fun _ _ hs => .inl hs⟩
  obtain rfl | hpos := List.mem_cons.mp hpos
  · exact hlen.ge
  · exact (h.reserved pos hpos).trans happend.length

theorem Sound.write (h : w.Sound) (op : WriteOp) : w.Extends (w.write op) ∧ (w.write op).Sound := by
  match op with
  | .field (.raw bytes) => exact ⟨.append w bytes, h.append bytes⟩
  | .field (.name n) => exact ⟨(h.name n).ext, (h.name n).sound⟩
  | .field (.plain n) =>
    rw [Writing.write, encodeField, encodeNameUncompressed_eq]
    exact ⟨.append w _, h.append _⟩
  | .openRdata => exact h.openRdata
  | .closeRdata => exact h.closeRdata

theorem Sound.writeAll (h : w.Sound) (ops : List WriteOp) :
    w.Extends (w.writeAll ops) ∧ (w.writeAll ops).Sound := by
  induction ops generalizing w with
  | nil => exact ⟨.refl w, h⟩
  | cons op ops ih =>
    obtain ⟨hext, hsound⟩ := h.write op
    obtain ⟨hext', hsound'⟩ := ih hsound
    exact ⟨hext.trans hext', hsound'⟩

end Writing

/-! ## The table -/

/-- Each entry is a 14-bit offset of the buffer at which the first label of the suffix is written, and from
which pointers lead down. -/
structure TableInvariant (e : DnsPacketEncoder) : Prop where
  bound : ∀ suffix off, e.nameOffsets suffix = some off → off.toNat ≤ 0x3FFF ∧ off.toNat < e.buf.length
  label : ∀ suffix off, e.nameOffsets suffix = some off →
    window e.buf off.toNat (labelBytes (firstLabel suffix)).length = labelBytes (firstLabel suffix)
  descends : ∀ suffix off, e.nameOffsets suffix = some off → Descends e.buf off.toNat

def Field.IsName : Field → Prop
  | .raw _ => False
  | .name _ => True
  | .plain _ => True

namespace Writing
variable {w : Writing}

theorem Sound.tableInvariant (h : w.Sound) : TableInvariant w.enc where
  bound := fun suffix off hs => ⟨(h.entry suffix off hs).bound, (h.entry suffix off hs).lt⟩
  label := fun suffix off hs => (h.entry suffix off hs).label
  descends := by
    intro suffix off hs
    obtain ⟨e, hreads, _⟩ := (h.entry suffix off hs).reads
    exact h.descends hreads

/-- What holds in the middle of a message, if `more` is still to be written: the table is right and stays as it
is, an rdlength is filled in on its own two bytes, and names point back. -/
structure Settled (w : Writing) (more : List WriteOp) : Prop where
  table : TableInvariant w.enc
  unmodified : ∀ next, next <+: more → ∀ suffix off, w.enc.nameOffsets suffix = some off →
    (w.writeAll next).enc.nameOffsets suffix = some off ∧
      window (w.writeAll next).enc.buf off.toNat (labelBytes (firstLabel suffix)).length =
        window w.enc.buf off.toNat (labelBytes (firstLabel suffix)).length
  backfill : more.head? = some .closeRdata → ∃ lenPos reserved, w.reserved = lenPos :: reserved ∧
    (w.write .closeRdata).enc.buf.length = w.enc.buf.length ∧
    (∀ i, i < lenPos ∨ lenPos + 2 ≤ i → (w.write .closeRdata).enc.buf[i]? = w.enc.buf[i]?) ∧
    ∀ suffix off, w.enc.nameOffsets suffix = some off →
      off.toNat + (labelBytes (firstLabel suffix)).length ≤ lenPos ∨ lenPos + 2 ≤ off.toNat
  pointer : ∀ n, more.head? = some (.field (.name n)) →
    (w.enc.encodeQname n).buf = w.enc.buf ++ (nameLabels n).flatMap labelBytes ++ [0] ∨
      ∃ written rest off, nameLabels n = written ++ rest ∧ w.enc.nameOffsets (joinDots rest) = some off ∧
        (w.enc.encodeQname n).buf = w.enc.buf ++ written.flatMap labelBytes ++ bytes16 (0xC000 ||| off) ∧
        off.toNat < (w.enc.buf ++ written.flatMap labelBytes).length
  descends : ∀ f next, f.IsName → .field f :: next <+: more →
    Descends (w.writeAll (.field f :: next)).enc.buf w.enc.buf.length

/-- Whoever reads an emitted name jumps at most as often as there are bytes in front of it. -/
theorem Settled.jumps_le {more next : List WriteOp} {f : Field} {ls : List Bytes} {j e : ℕ} (h : w.Settled more)
    (hf : f.IsName) (hnext : .field f :: next <+: more)
    (hname : NameAt (w.writeAll (.field f :: next)).enc.buf w.enc.buf.length ls j e) : j ≤ w.enc.buf.length :=
  (h.descends f next hf hnext).jumps_le hname

theorem Sound.exists_readsBack (h : w.Sound) {f : Field} (hf : f.IsName) :
    ∃ e, (w.write (.field f)).ReadsBack w.enc.buf.length e := by
  cases f with
  | raw bytes => exact hf.elim
  | name n =>
    have hname := h.name n
    obtain ⟨e, hends, hle, hhop⟩ := hname.reads
    exact ⟨e, h.readsBack hname.ext hname.reserved hends hle hhop⟩
  | plain n =>
    obtain ⟨e, hends, hle, hhop⟩ := plain_reads w n
    have hext := (h.write (.field (.plain n))).1
    rw [Writing.write, encodeField, encodeNameUncompressed_eq] at hext ⊢
    exact ⟨e, h.readsBack hext rfl hends hle fun t ht => absurd ht (hhop t)⟩

theorem Sound.settled (h : w.Sound) {more : List WriteOp} (hmore : Matched w.reserved.length more) :
    w.Settled more where
  table := h.tableInvariant
  unmodified := by
    intro next _ suffix off hs
    have hext := (h.writeAll next).1
    exact ⟨hext.entries suffix off hs, (h.entry suffix off hs).same hext⟩
  backfill := by
    intro hhead
    obtain ⟨rest, rfl⟩ := List.head?_eq_some_iff.mp hhead
    obtain ⟨lenPos, reserved, hres⟩ := hmore.exists_reserved
    obtain ⟨hlen, hbytes⟩ := closeRdata_bytes h hres
    refine ⟨lenPos, reserved, hres, hlen, hbytes, fun suffix off hs => ?_⟩
    obtain ⟨e, hreads, hle⟩ := (h.entry suffix off hs).reads
    have hapart := hreads.apart lenPos (hres ▸ List.mem_cons_self)
    omega
  pointer := by
    intro n _
    rw [encodeQname_eq]
    obtain hbuf | ⟨written, rest, off, hlabels, hs, hbuf⟩ := encodeLabels_buf w.enc (nameLabels n)
    · exact .inl hbuf
    · refine .inr ⟨written, rest, off, hlabels, hs, hbuf, ?_⟩
      rw [List.length_append]
      exact (h.entry _ off hs).lt.trans_le (Nat.le_add_right ..)
  descends := by
    intro f next hf _
    obtain ⟨e, hreads⟩ := h.exists_readsBack hf
    obtain ⟨hext, hsound⟩ := (h.write (.field f)).2.writeAll next
    exact hsound.descends (hreads.mono hext)

end Writing

def afterQuestions (packet : DnsPacket) (questions : List DnsQuestion) : DnsPacketEncoder :=
  questions.foldl encodeQuestion ⟨headerBytes packet, fun _ => none⟩

/-- **The compression table is right after each name, question and record, and pointers lead backwards.** -/
theorem compression_table_settled (p : DnsPacket) :
    Writing.start.writeAll (packetOps p) = ⟨DnsPacketEncoder.encode ⟨[], fun _ => none⟩ p, []⟩ ∧
      (∀ qs, qs <+: p.questions → TableInvariant (afterQuestions p qs)) ∧
      (∀ rs, rs <+: p.records → TableInvariant (rs.foldl encodeRecord (afterQuestions p p.questions))) ∧
      ∀ done more, packetOps p = done ++ more → (Writing.start.writeAll done).Settled more := by
  have hheader : (⟨⟨headerBytes p, fun _ => none⟩, []⟩ : Writing).Sound :=
    Writing.Sound.start.append (headerBytes p)
  refine ⟨Writing.writeAll_packetOps p, fun qs _ => ?_, fun rs _ => ?_, fun done more heq => ?_⟩
  · have hsound := (hheader.writeAll (qs.flatMap questionOps)).2
    rw [Writing.writeAll_questions] at hsound
    exact hsound.tableInvariant
  · have hsound := (hheader.writeAll (p.questions.flatMap questionOps)).2
    rw [Writing.writeAll_questions] at hsound
    have hsound' := (hsound.writeAll (rs.flatMap recordOps)).2
    rw [Writing.writeAll_records] at hsound'
    exact hsound'.tableInvariant
  · have hmatched : Writing.Matched 0 (done ++ more) := heq ▸ Writing.matched_packetOps p
    exact (Writing.Sound.start.writeAll done).2.settled (Writing.Matched.writeAll (w := .start) hmatched)

end MiniDns.Dns
