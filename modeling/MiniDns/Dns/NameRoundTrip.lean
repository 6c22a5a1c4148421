import MiniDns.Dns.EncoderLayout
import MiniDns.Dns.PacketNames

/-! Which names are read back as they were written.
A name is read back from where the encoder put it exactly when each of its labels survives the
63-byte limit and the lossy decoding, and a reader needs at most 64 jumps. -/
namespace MiniDns.Dns
open Lib Lib.Outcome DnsPacketEncoder DnsPacket
set_option autoImplicit false

/-! ## Labels on the wire -/

def wireLabel (l : Text) : Bytes := (utf8 l).take 63

def GoodLabel (l : Text) : Prop := l ≠ [] ∧ fromUtf8Lossy (wireLabel l) = l

instance (l : Text) : Decidable (GoodLabel l) := inferInstanceAs (Decidable (_ ∧ _))

def GoodName (n : Text) : Prop := ∀ l ∈ nameLabels n, GoodLabel l

instance (n : Text) : Decidable (GoodName n) := inferInstanceAs (Decidable (∀ l ∈ nameLabels n, GoodLabel l))

/-- No label is empty. A label may be cut on the wire, but a reader finds the end of the name. -/
def WholeName (n : Text) : Prop := ∀ l ∈ nameLabels n, l ≠ []

instance (n : Text) : Decidable (WholeName n) := inferInstanceAs (Decidable (∀ l ∈ nameLabels n, l ≠ []))

theorem GoodName.whole {n : Text} (h : GoodName n) : WholeName n := fun l hl => (h l hl).1

theorem wireLabel_length_lt (l : Text) : (wireLabel l).length < 64 := by
  simp only [wireLabel, List.length_take]
  omega

theorem labelBytes_eq (l : Text) : labelBytes l = UInt8.ofNat (wireLabel l).length :: wireLabel l := by
  have hmin : min (utf8 l).length 63 = (wireLabel l).length := by
    simp only [wireLabel, List.length_take]
    omega
  have htake : (utf8 l).take (wireLabel l).length = wireLabel l := by
    simp [wireLabel]
  simp only [labelBytes, hmin, htake]

theorem length_labelBytes (l : Text) : (labelBytes l).length = 1 + (wireLabel l).length := by
  rw [labelBytes_eq, List.length_cons, Nat.add_comm]

theorem toNat_lengthByte (l : Text) : (UInt8.ofNat (wireLabel l).length).toNat = (wireLabel l).length := by
  have hlt := wireLabel_length_lt l
  exact byte_toNat _ (by omega)

theorem wireLabel_length_ne_zero {l : Text} (h : l ≠ []) : (wireLabel l).length ≠ 0 := by
  have hne : (utf8 l).length ≠ 0 := fun hz => h (utf8_eq_nil.mp (List.eq_nil_of_length_eq_zero hz))
  simp only [wireLabel, List.length_take]
  omega

theorem goodLabel_of_length_le {l : Text} (hne : l ≠ []) (h : (utf8 l).length ≤ 63) : GoodLabel l := by
  refine ⟨hne, ?_⟩
  rw [wireLabel, List.take_of_length_le h, fromUtf8Lossy_utf8]

theorem goodLabel_reread {l : Text} (hne : l ≠ []) : GoodLabel (fromUtf8Lossy (wireLabel l)) := by
  refine ⟨fun hnil => wireLabel_length_ne_zero hne ?_, fromUtf8Lossy_take_idem l 63⟩
  rw [fromUtf8Lossy_eq_nil.mp hnil, List.length_nil]

theorem dot_not_mem_wireLabel {l : Text} (h : '.' ∉ l) : '.' ∉ fromUtf8Lossy (wireLabel l) := by
  intro hmem
  have hbyte := mem_of_mem_fromUtf8Lossy (by decide) (by decide) hmem
  exact h (mem_of_mem_utf8 (by decide) (List.mem_of_mem_take hbyte))

theorem nameLabels_dotted {ws : List Bytes} (hne : ∀ w ∈ ws, w ≠ [])
    (hdot : ∀ w ∈ ws, '.' ∉ fromUtf8Lossy w) : nameLabels (dotted ws) = ws.map fromUtf8Lossy := by
  cases ws with
  | nil => rfl
  | cons w ws =>
    have hsplit : splitDots (dotted (w :: ws)) = (w :: ws).map fromUtf8Lossy := by
      apply splitDots_joinDots (by simp)
      intro l hl
      obtain ⟨v, hv, rfl⟩ := List.mem_map.mp hl
      exact hdot v hv
    have hroot : dotted (w :: ws) ≠ [] := by
      intro hnil
      rw [hnil, splitDots_nil] at hsplit
      exact hne w (by simp) (fromUtf8Lossy_eq_nil.mp (List.cons.inj hsplit).1.symm)
    rw [nameLabels, if_neg hroot, hsplit]

/-- The name that is read where `n` was written, with each label cut at 63 bytes. -/
def cutName (n : Text) : Text := dotted ((nameLabels n).map wireLabel)

theorem WholeName.goodName_cutName {n : Text} (h : WholeName n) : GoodName (cutName n) := by
  have hne : ∀ w ∈ (nameLabels n).map wireLabel, w ≠ [] := by
    intro w hw
    obtain ⟨l, hl, rfl⟩ := List.mem_map.mp hw
    exact fun hnil => wireLabel_length_ne_zero (h l hl) (by rw [hnil, List.length_nil])
  have hdot : ∀ w ∈ (nameLabels n).map wireLabel, '.' ∉ fromUtf8Lossy w := by
    intro w hw
    obtain ⟨l, hl, rfl⟩ := List.mem_map.mp hw
    exact dot_not_mem_wireLabel (dot_not_mem_of_mem_nameLabels hl)
  intro l hl
  rw [cutName, nameLabels_dotted hne hdot, List.map_map] at hl
  obtain ⟨m, hm, rfl⟩ := List.mem_map.mp hl
  exact goodLabel_reread (h m hm)

theorem GoodName.cutName_eq {n : Text} (h : GoodName n) : cutName n = n := by
  have hmap : (nameLabels n).map (fromUtf8Lossy ∘ wireLabel) = nameLabels n := by
    conv_rhs => rw [← List.map_id (nameLabels n)]
    exact List.map_congr_left fun l hl => (h l hl).2
  rw [cutName, dotted, List.map_map, hmap, joinDots_nameLabels]

theorem nameAt_label {buf more : Bytes} {l : Text} {ws : List Bytes} {j e : ℕ} (hne : l ≠ [])
    (hrest : NameAt (buf ++ labelBytes l ++ more) (buf.length + (labelBytes l).length) ws j e) :
    NameAt (buf ++ labelBytes l ++ more) buf.length (wireLabel l :: ws) j e := by
  have hlt := wireLabel_length_lt l
  have hlen := toNat_lengthByte l
  have hsize := length_labelBytes l
  have hbyte : (buf ++ labelBytes l ++ more)[buf.length]? = some (UInt8.ofNat (wireLabel l).length) := by
    rw [labelBytes_eq]
    simp
  have hwin : window (buf ++ labelBytes l ++ more) (buf.length + 1) (wireLabel l).length = wireLabel l := by
    have h := window_append (buf ++ [UInt8.ofNat (wireLabel l).length]) (wireLabel l) more
    rw [labelBytes_eq]
    simpa using h
  have h := NameAt.label hbyte (lengthByte_and hlt)
    (lengthByte_ne_zero hlt (wireLabel_length_ne_zero hne)) (by rw [hlen]; simp [hsize]; omega)
    (by rw [hlen, Nat.add_assoc, ← hsize]; exact hrest)
  rwa [hlen, hwin] at h

theorem nameAt_root (buf more : Bytes) : NameAt (buf ++ [0] ++ more) buf.length [] 0 (buf.length + 1) :=
  .root (by simp)

/-! ## Names -/

theorem Layout.of_names_remember {L : Layout} {suffix s : Text} {offset jumps o j : ℕ}
    (h : (L.remember suffix offset jumps).names s = some (o, j)) :
    (offset ≤ 0x3FFF ∧ s = suffix ∧ o = offset ∧ j = jumps) ∨ L.names s = some (o, j) := by
  unfold Layout.remember at h
  split at h
  · rename_i hle
    dsimp only at h
    by_cases hsame : s = suffix
    · subst hsame
      rw [Function.update_self] at h
      obtain ⟨rfl, rfl⟩ := Prod.mk.inj (Option.some.inj h)
      exact .inl ⟨hle, rfl, rfl, rfl⟩
    · rw [Function.update_of_ne hsame] at h
      exact .inr h
  · exact .inr h

/-- Every suffix that the layout remembers can be read from the buffer. -/
structure Readable (buf : Bytes) (L : Layout) : Prop where
  pos : buf.length = L.pos
  entry : ∀ s o j, L.names s = some (o, j) → o ≤ 0x3FFF ∧ ∃ ls e, joinDots ls = s ∧ ls ≠ [] ∧
    (∀ l ∈ ls, '.' ∉ l ∧ l ≠ []) ∧ NameAt buf o (ls.map wireLabel) j e

namespace Readable
variable {buf : Bytes} {L : Layout}

theorem append (h : Readable buf L) (more : Bytes) : Readable (buf ++ more) (L.advance more.length) where
  pos := by simp [h.pos]
  entry := by
    intro s o j hs
    obtain ⟨ho, ls, e, hjoin, hne, hwhole, hname⟩ := h.entry s o j hs
    exact ⟨ho, ls, e, hjoin, hne, hwhole, hname.append more⟩

theorem pointer (h : Readable buf L) {ls : List Text} {entry : ℕ × ℕ} (hdot : ∀ l ∈ ls, '.' ∉ l)
    (hne : ls ≠ []) (hentry : L.names (joinDots ls) = some entry) (more : Bytes) :
    (∀ l ∈ ls, l ≠ []) ∧
      NameAt (buf ++ bytes16 (0xC000 ||| UInt16.ofNat entry.1) ++ more) L.pos (ls.map wireLabel)
        (entry.2 + 1) (L.pos + 2) := by
  obtain ⟨ho, ls', e, hjoin, hne', hwhole, hname⟩ := h.entry _ _ _ hentry
  have hls : ls' = ls := by
    rw [← splitDots_joinDots hne' fun l hl => (hwhole l hl).1, hjoin, splitDots_joinDots hne hdot]
  subst hls
  refine ⟨fun l hl => (hwhole l hl).2, ?_⟩
  obtain ⟨hi, lo, hbytes, hmark, htarget⟩ := pointerBytes ho
  rw [hbytes]
  have hname' := (hname.append [hi, lo]).append more
  refine .pointer ?_ hmark ?_ (htarget ▸ hname')
  · simp [← h.pos]
  · simp [← h.pos]

theorem remember (h : Readable buf L) {ls : List Text} {o j e : ℕ} (hne : ls ≠ [])
    (hwhole : ∀ l ∈ ls, '.' ∉ l ∧ l ≠ []) (hname : NameAt buf o (ls.map wireLabel) j e) :
    Readable buf (L.remember (joinDots ls) o j) := by
  refine ⟨by rw [Layout.remember_pos, h.pos], fun s o' j' hs => ?_⟩
  obtain ⟨hle, rfl, rfl, rfl⟩ | hs := Layout.of_names_remember hs
  · exact ⟨hle, ls, e, rfl, hne, hwhole, hname⟩
  · exact h.entry s o' j' hs

theorem labels (h : Readable buf L) {ls : List Text} (hwhole : ∀ l ∈ ls, '.' ∉ l ∧ l ≠ [])
    (more : Bytes) :
    NameAt (buf ++ L.labelsBytes ls ++ more) L.pos (ls.map wireLabel) (L.labels ls).2 (L.labels ls).1.pos ∧
      Readable (buf ++ L.labelsBytes ls) (L.labels ls).1 := by
  induction ls generalizing buf L more with
  | nil =>
    refine ⟨?_, h.append [0]⟩
    simp only [Layout.labelsBytes, Layout.labels, Layout.advance_pos, ← h.pos]
    exact nameAt_root buf more
  | cons l ls ih =>
    simp only [Layout.labelsBytes, Layout.labels]
    cases hentry : L.names (joinDots (l :: ls)) with
    | some entry =>
      refine ⟨?_, h.append _⟩
      exact (h.pointer (fun m hm => (hwhole m hm).1) (by simp) hentry more).2
    | none =>
      have htail : ∀ m ∈ ls, '.' ∉ m ∧ m ≠ [] := fun m hm => hwhole m (by simp [hm])
      have hlabel : ∀ more, NameAt (buf ++ (labelBytes l ++
          (L.advance (labelBytes l).length).labelsBytes ls) ++ more) L.pos ((l :: ls).map wireLabel)
          ((L.advance (labelBytes l).length).labels ls).2
          ((L.advance (labelBytes l).length).labels ls).1.pos := by
        intro more
        obtain ⟨hname, _⟩ := ih (h.append (labelBytes l)) htail more
        rw [Layout.advance_pos, ← h.pos, List.append_assoc] at hname
        have := nameAt_label (hwhole l (by simp)).2 hname
        rw [← h.pos]
        simpa only [List.append_assoc, List.map_cons] using this
      obtain ⟨_, hread⟩ := ih (h.append (labelBytes l)) htail []
      refine ⟨by rw [Layout.remember_pos]; exact hlabel more, ?_⟩
      have hname := hlabel []
      rw [List.append_nil, ← List.append_assoc] at hname
      rw [← List.append_assoc]
      exact hread.remember (by simp) hwhole hname

/-- Whatever the labels are, a reader finds good labels without dots, and it finds those that were
written only if all of them are good. -/
theorem labels_read (h : Readable buf L) {ls : List Text} (hdot : ∀ l ∈ ls, '.' ∉ l) (more : Bytes) :
    ∃ ws j e, NameAt (buf ++ L.labelsBytes ls ++ more) L.pos ws j e ∧
      (∀ w ∈ ws, '.' ∉ fromUtf8Lossy w ∧ GoodLabel (fromUtf8Lossy w)) ∧
      (ws.map fromUtf8Lossy = ls → ∀ l ∈ ls, GoodLabel l) := by
  induction ls generalizing buf L more with
  | nil =>
    refine ⟨[], 0, buf.length + 1, ?_, by simp, by simp⟩
    rw [← h.pos]
    exact nameAt_root buf more
  | cons l ls ih =>
    simp only [Layout.labelsBytes]
    cases hentry : L.names (joinDots (l :: ls)) with
    | some entry =>
      obtain ⟨hwhole, hname⟩ := h.pointer hdot (by simp) hentry more
      refine ⟨_, _, _, hname, ?_, fun heq m hm => ⟨hwhole m hm, ?_⟩⟩
      · intro w hw
        obtain ⟨m, hm, rfl⟩ := List.mem_map.mp hw
        exact ⟨dot_not_mem_wireLabel (hdot m hm), goodLabel_reread (hwhole m hm)⟩
      · rw [List.map_map] at heq
        exact List.map_inj_left.mp (heq.trans (List.map_id _).symm) m hm
    | none =>
      by_cases hl : l = []
      · -- an empty label is the byte that ends a name
        subst hl
        refine ⟨[], 0, buf.length + 1, ?_, by simp, by simp⟩
        have := nameAt_root buf ((L.advance (labelBytes []).length).labelsBytes ls ++ more)
        rw [show ([0] : Bytes) = labelBytes [] from rfl] at this
        rw [← h.pos]
        simpa only [List.append_assoc] using this
      · obtain ⟨ws, j, e, hname, hws, heq⟩ :=
          ih (h.append (labelBytes l)) (fun m hm => hdot m (by simp [hm])) more
        rw [Layout.advance_pos, ← h.pos, List.append_assoc] at hname
        refine ⟨wireLabel l :: ws, j, e, ?_, ?_, ?_⟩
        · have := nameAt_label hl hname
          rw [← h.pos]
          simpa only [List.append_assoc] using this
        · intro w hw
          rcases List.mem_cons.mp hw with rfl | hw
          · exact ⟨dot_not_mem_wireLabel (hdot l (by simp)), goodLabel_reread hl⟩
          · exact hws w hw
        · intro hmap
          obtain ⟨hhead, htail⟩ := List.cons.inj hmap
          intro m hm
          rcases List.mem_cons.mp hm with rfl | hm
          · exact ⟨hl, hhead⟩
          · exact heq htail m hm

theorem nameAt_of_whole (h : Readable buf L) {n : Text} (hwhole : WholeName n) (more : Bytes) :
    NameAt (buf ++ L.nameBytes n ++ more) L.pos ((nameLabels n).map wireLabel) (L.nameJumps n) (L.name n).pos :=
  (h.labels (fun l hl => ⟨dot_not_mem_of_mem_nameLabels hl, hwhole l hl⟩) more).1

/-- What stands where a name was written is good, and is that name only if it is good itself. -/
theorem nameAt_nameBytes (h : Readable buf L) {n : Text} {more : Bytes} {ws : List Bytes} {j e : ℕ}
    (hname : NameAt (buf ++ L.nameBytes n ++ more) L.pos ws j e) :
    GoodName (dotted ws) ∧ (n = dotted ws → GoodName n) := by
  obtain ⟨ws', j', e', hname', hws, hgood⟩ :=
    h.labels_read (fun l hl => dot_not_mem_of_mem_nameLabels hl) more
  obtain ⟨rfl, rfl, rfl⟩ := hname.unique hname'
  have hlabels := nameLabels_dotted hname.label_ne_nil fun w hw => (hws w hw).1
  refine ⟨?_, fun heq => hgood (by rw [heq, hlabels])⟩
  intro l hl
  rw [hlabels] at hl
  obtain ⟨w, hw, rfl⟩ := List.mem_map.mp hl
  exact (hws w hw).2

/-- **A name is read back exactly when its labels are good and at most 64 jumps lead through it.** -/
theorem parseQname_nameBytes (h : Readable buf L) (n : Text) (more : Bytes) (e : ℕ) :
    parseQname (buf ++ L.nameBytes n ++ more) L.pos = ok (n, e) ↔
      GoodName n ∧ L.nameJumps n ≤ maxPointerJumps ∧ e = (L.name n).pos := by
  rw [parseQname_eq_ok]
  constructor
  · rintro ⟨ws, j, hname, hj, heq⟩
    have hgood := (h.nameAt_nameBytes hname).2 heq
    obtain ⟨_, rfl, rfl⟩ := hname.unique (h.nameAt_of_whole hgood.whole more)
    exact ⟨hgood, hj, rfl⟩
  · rintro ⟨hgood, hj, rfl⟩
    exact ⟨_, _, h.nameAt_of_whole hgood.whole more, hj, hgood.cutName_eq.symm⟩

theorem parseQname_of_good (h : Readable buf L) {n m : Text} (hgood : GoodName n) {more : Bytes} {e : ℕ}
    (hparse : parseQname (buf ++ L.nameBytes n ++ more) L.pos = ok (m, e)) : m = n := by
  obtain ⟨ws, j, hname, _, rfl⟩ := parseQname_eq_ok.mp hparse
  obtain ⟨rfl, _, _⟩ := hname.unique (h.nameAt_of_whole hgood.whole more)
  exact hgood.cutName_eq

theorem goodName_of_parseQname (h : Readable buf L) {n m : Text} {more : Bytes} {e : ℕ}
    (hparse : parseQname (buf ++ L.nameBytes n ++ more) L.pos = ok (m, e)) : GoodName m := by
  obtain ⟨ws, j, hname, _, rfl⟩ := parseQname_eq_ok.mp hparse
  exact (h.nameAt_nameBytes hname).1

theorem name (h : Readable buf L) {n : Text} (hwhole : WholeName n) :
    Readable (buf ++ L.nameBytes n) (L.name n) :=
  (h.labels (fun l hl => ⟨dot_not_mem_of_mem_nameLabels hl, hwhole l hl⟩) []).2

end Readable

/-! ## Names that are not compressed -/

theorem labelsBytes_of_no_names (pos : ℕ) (ls : List Text) :
    (⟨pos, fun _ => none⟩ : Layout).labelsBytes ls = ls.flatMap labelBytes ++ [0] := by
  induction ls generalizing pos with
  | nil => rfl
  | cons l ls ih =>
    simp only [Layout.labelsBytes, Layout.advance, List.flatMap_cons, List.append_assoc]
    rw [ih]

theorem labels_of_no_names (pos : ℕ) (ls : List Text) :
    ((⟨pos, fun _ => none⟩ : Layout).labels ls).2 = 0 ∧
      ((⟨pos, fun _ => none⟩ : Layout).labels ls).1.pos = pos + (ls.flatMap labelBytes ++ [0]).length := by
  induction ls generalizing pos with
  | nil => exact ⟨rfl, rfl⟩
  | cons l ls ih =>
    obtain ⟨hjumps, hpos⟩ := ih (pos + (labelBytes l).length)
    refine ⟨hjumps, ?_⟩
    simp only [Layout.labels, Layout.advance, Layout.remember_pos]
    rw [hpos]
    simp
    omega

/-- A name that is not compressed is read back exactly when its labels are good. -/
theorem parseQname_plainBytes (buf : Bytes) (n : Text) (more : Bytes) (e : ℕ) :
    parseQname (buf ++ Layout.plainBytes n ++ more) buf.length = ok (n, e) ↔
      GoodName n ∧ e = buf.length + (Layout.plainBytes n).length := by
  have hread : Readable buf ⟨buf.length, fun _ => none⟩ := ⟨rfl, by simp⟩
  have h := hread.parseQname_nameBytes n more e
  obtain ⟨hjumps, hpos⟩ := labels_of_no_names buf.length (nameLabels n)
  simp only [Layout.nameBytes, Layout.nameJumps, Layout.name, labelsBytes_of_no_names, hjumps, hpos] at h
  rw [Layout.plainBytes, h]
  simp

/-! ## The number of jumps -/

def Layout.Bounded (L : Layout) : Prop :=
  ∀ s o j, L.names s = some (o, j) → j < (splitDots s).length

theorem Layout.Bounded.remember {L : Layout} (h : L.Bounded) {suffix : Text} {offset jumps : ℕ}
    (hjumps : jumps < (splitDots suffix).length) : (L.remember suffix offset jumps).Bounded := by
  intro s o j hs
  obtain ⟨_, rfl, _, rfl⟩ | hs := Layout.of_names_remember hs
  · exact hjumps
  · exact h s o j hs

theorem Layout.Bounded.labels {L : Layout} (h : L.Bounded) {ls : List Text} (hdot : ∀ l ∈ ls, '.' ∉ l) :
    (L.labels ls).2 ≤ ls.length ∧ (L.labels ls).1.Bounded := by
  induction ls generalizing L with
  | nil => exact ⟨le_rfl, h⟩
  | cons l ls ih =>
    have hsplit : splitDots (joinDots (l :: ls)) = l :: ls := splitDots_joinDots (by simp) hdot
    simp only [Layout.labels]
    cases hentry : L.names (joinDots (l :: ls)) with
    | some entry =>
      have hlt := h _ _ _ hentry
      rw [hsplit] at hlt
      exact ⟨hlt, h⟩
    | none =>
      obtain ⟨hjumps, hrest⟩ := ih (L := L.advance (labelBytes l).length) h fun m hm => hdot m (by simp [hm])
      refine ⟨by simp only [List.length_cons]; omega, hrest.remember ?_⟩
      rw [hsplit, List.length_cons]
      omega

/-- A reader makes at most one jump for each label of a name. -/
theorem Layout.Bounded.name {L : Layout} (h : L.Bounded) (n : Text) :
    L.nameJumps n ≤ (nameLabels n).length ∧ (L.name n).Bounded :=
  h.labels fun _ hl => dot_not_mem_of_mem_nameLabels hl

end MiniDns.Dns
