import MiniDns.Dns.RoundTrip

/-! The two round trips of the message format: decoding undoes encoding on well-formed packets, and
what the decoder accepted is decoded again from its own encoding exactly when it survives. -/
namespace MiniDns.Dns
open Lib Lib.Outcome DnsRecord DnsPacket
set_option autoImplicit false

/-! ## Well-formed packets -/

/-- Empty, or at most 64 labels of 1 to 63 bytes without a dot, joined by dots. -/
def WellFormedName (n : Text) : Prop :=
  n = [] ∨ ∃ labels : List Text, n = joinDots labels ∧ labels.length ≤ 64 ∧
    ∀ l ∈ labels, '.' ∉ l ∧ 1 ≤ (utf8 l).length ∧ (utf8 l).length ≤ 63

theorem wellFormedName_iff {n : Text} : WellFormedName n ↔
    (nameLabels n).length ≤ 64 ∧ ∀ l ∈ nameLabels n, 1 ≤ (utf8 l).length ∧ (utf8 l).length ≤ 63 := by
  constructor
  · rintro (rfl | ⟨labels, rfl, hlen, hlabels⟩)
    · simp [nameLabels]
    · have hsame : nameLabels (joinDots labels) = labels := by
        cases labels with
        | nil => rfl
        | cons l ls =>
          have hsplit := splitDots_joinDots (by simp : l :: ls ≠ []) fun m hm => (hlabels m hm).1
          have hne : joinDots (l :: ls) ≠ [] := by
            intro hnil
            rw [hnil, splitDots_nil] at hsplit
            have := (hlabels l (by simp)).2.1
            rw [← (List.cons.inj hsplit).1] at this
            simp at this
          rw [nameLabels, if_neg hne, hsplit]
      rw [hsame]
      exact ⟨hlen, fun l hl => (hlabels l hl).2⟩
  · rintro ⟨hlen, hlabels⟩
    exact .inr ⟨nameLabels n, (joinDots_nameLabels n).symm, hlen,
      fun l hl => ⟨dot_not_mem_of_mem_nameLabels hl, hlabels l hl⟩⟩

instance (n : Text) : Decidable (WellFormedName n) := decidable_of_iff _ wellFormedName_iff.symm

def Field.name? : Field → Option Text
  | .raw _ => none
  | .name n => some n
  | .plain n => some n

def recordNames (r : DnsRecord) : List Text := r.domain :: (recordFields r).filterMap Field.name?

theorem forall_good_iff {fs : List Field} :
    (∀ f ∈ fs, f.Good) ↔ ∀ n ∈ fs.filterMap Field.name?, GoodName n := by
  constructor
  · intro h n hn
    obtain ⟨f, hf, hname⟩ := List.mem_filterMap.mp hn
    cases f <;> cases hname <;> exact h _ hf
  · intro h f hf
    cases f with
    | raw bytes => trivial
    | name n => exact h n (List.mem_filterMap.mpr ⟨.name n, hf, rfl⟩)
    | plain n => exact h n (List.mem_filterMap.mpr ⟨.plain n, hf, rfl⟩)

def WellFormedTexts : DnsRecord → Prop
  | .txt _ text _ => ∀ c ∈ text, c.toNat < 0x80
  | .caa _ _ tag _ _ => (utf8 tag).length ≤ 255
  | _ => True

instance (r : DnsRecord) : Decidable (WellFormedTexts r) :=
  match r with
  | .txt _ text _ => List.decidableBAll (fun c : Char => c.toNat < 0x80) text
  | .caa _ _ tag _ _ => inferInstanceAs (Decidable ((utf8 tag).length ≤ 255))
  | .a .. | .aaaa .. | .cname .. | .mx .. | .ns .. | .soa .. | .srv .. | .ptr .. | .opt .. | .dnskey ..
  | .rrsig .. | .ds .. | .nsec .. => isTrue trivial

/-- The packets that the format can carry. -/
structure DnsPacket.WellFormed (p : DnsPacket) : Prop where
  counted : p.Counted
  questionNames : ∀ q ∈ p.questions, WellFormedName q.qname
  recordNames : ∀ r ∈ p.records, ∀ n ∈ recordNames r, WellFormedName n
  texts : ∀ r ∈ p.records, WellFormedTexts r
  fits : p.Fits

theorem WellFormedName.goodName {n : Text} (h : WellFormedName n) : GoodName n := by
  intro l hl
  have hlen := (wellFormedName_iff.mp h).2 l hl
  refine goodLabel_of_length_le ?_ hlen.2
  rintro rfl
  simp at hlen

theorem WellFormedName.survives {n : Text} (h : WellFormedName n) {L : Layout} (hL : L.Bounded) :
    L.NameSurvives n :=
  ⟨h.goodName, (hL.name n).1.trans (wellFormedName_iff.mp h).1⟩

theorem rereadText_of_ascii {text : Text} (h : ∀ c ∈ text, c.toNat < 0x80) : rereadText text = text := by
  unfold rereadText
  suffices key : ∀ k (s : Text), s.length ≤ k → (∀ c ∈ s, c.toNat < 0x80) →
      (chunks 255 (utf8 s)).flatMap fromUtf8Lossy = s from key text.length text le_rfl h
  intro k
  induction k with
  | zero =>
    intro s hs _
    simp [List.eq_nil_of_length_eq_zero (Nat.le_zero.mp hs)]
  | succ k ih =>
    intro s hs hascii
    by_cases hnil : s = []
    · simp [hnil]
    have htake : (utf8 s).take 255 = utf8 (s.take 255) := by
      rw [utf8_ascii hascii, utf8_ascii fun c hc => hascii c (List.mem_of_mem_take hc), List.map_take]
    have hdrop : (utf8 s).drop 255 = utf8 (s.drop 255) := by
      rw [utf8_ascii hascii, utf8_ascii fun c hc => hascii c (List.mem_of_mem_drop hc), List.map_drop]
    have hpos : 0 < s.length := List.length_pos_of_ne_nil hnil
    rw [chunks_of_ne_nil (by omega) fun hz => hnil (utf8_eq_nil.mp hz), htake, hdrop, List.flatMap_cons,
      fromUtf8Lossy_utf8, ih (s.drop 255) (by simp; omega) fun c hc => hascii c (List.mem_of_mem_drop hc),
      List.take_append_drop]

theorem WellFormedTexts.survive {r : DnsRecord} (h : WellFormedTexts r) : TextSurvives r := by
  cases r with
  | txt d text t => exact rereadText_of_ascii h
  | caa d flags tag value t =>
    have hlen : (utf8 tag).length ≤ 255 := h
    simp only [TextSurvives]
    rw [List.take_of_length_le hlen, fromUtf8Lossy_utf8]
  | _ => trivial

namespace Layout.Bounded
variable {L : Layout}

theorem field (h : L.Bounded) (f : Field) : (L.field f).Bounded := by
  cases f with
  | raw bytes => exact h
  | name n => exact (h.name n).2
  | plain n => exact h

theorem fields (h : L.Bounded) {fs : List Field}
    (hfs : ∀ n ∈ fs.filterMap Field.name?, WellFormedName n) : L.FieldsSurvive fs ∧ (L.fields fs).Bounded := by
  induction fs generalizing L with
  | nil => exact ⟨trivial, h⟩
  | cons f fs ih =>
    cases f with
    | raw bytes =>
      obtain ⟨hrest, hbound⟩ := ih (h.field (.raw bytes)) hfs
      exact ⟨⟨trivial, hrest⟩, hbound⟩
    | name n =>
      obtain ⟨hrest, hbound⟩ := ih (h.field (.name n)) fun m hm => hfs m (List.mem_cons_of_mem _ hm)
      exact ⟨⟨(hfs n List.mem_cons_self).survives h, hrest⟩, hbound⟩
    | plain n =>
      obtain ⟨hrest, hbound⟩ := ih (h.field (.plain n)) fun m hm => hfs m (List.mem_cons_of_mem _ hm)
      exact ⟨⟨(hfs n List.mem_cons_self).goodName, hrest⟩, hbound⟩

theorem record (h : L.Bounded) {r : DnsRecord} (hnames : ∀ n ∈ recordNames r, WellFormedName n)
    (htexts : WellFormedTexts r) : L.RecordSurvives r ∧ (L.record r).Bounded := by
  have hrdata : (L.rdata r).Bounded := (h.name r.domain).2
  obtain ⟨hfields, hbound⟩ := hrdata.fields fun n hn => hnames n (List.mem_cons_of_mem _ hn)
  exact ⟨⟨(hnames r.domain List.mem_cons_self).survives h, hfields, htexts.survive⟩, hbound⟩

theorem records (h : L.Bounded) {rs : List DnsRecord}
    (hnames : ∀ r ∈ rs, ∀ n ∈ recordNames r, WellFormedName n) (htexts : ∀ r ∈ rs, WellFormedTexts r) :
    L.RecordsSurvive rs := by
  induction rs generalizing L with
  | nil => trivial
  | cons r rs ih =>
    obtain ⟨hr, hbound⟩ := h.record (hnames r List.mem_cons_self) (htexts r List.mem_cons_self)
    exact ⟨hr, ih hbound (fun s hs => hnames s (List.mem_cons_of_mem _ hs))
      fun s hs => htexts s (List.mem_cons_of_mem _ hs)⟩

theorem questions (h : L.Bounded) {qs : List DnsQuestion} (hqs : ∀ q ∈ qs, WellFormedName q.qname) :
    L.QuestionsSurvive qs ∧ (L.questions qs).Bounded := by
  induction qs generalizing L with
  | nil => exact ⟨trivial, h⟩
  | cons q qs ih =>
    have hnext : (L.question q).Bounded := (h.name q.qname).2
    obtain ⟨hrest, hbound⟩ := ih hnext fun s hs => hqs s (List.mem_cons_of_mem _ hs)
    exact ⟨⟨(hqs q List.mem_cons_self).survives h, hrest⟩, hbound⟩

end Layout.Bounded

theorem DnsPacket.WellFormed.survives {p : DnsPacket} (h : p.WellFormed) : p.Survives := by
  have hstart : Layout.start.Bounded := by simp [Layout.Bounded, Layout.start]
  obtain ⟨hquestions, hbound⟩ := hstart.questions h.questionNames
  exact ⟨hquestions, hbound.records h.recordNames h.texts⟩

/-! ## Decoding undoes encoding -/

/-- **Every well-formed packet is decoded from its own message**, with the same id, flags, questions
and records, and with the section lengths as counts. -/
theorem decode_encode (p : DnsPacket) (h : p.WellFormed) :
    ∃ q, fromBytes p.toBytes = ok q ∧ q.header.id = p.header.id ∧ q.header.flags = p.header.flags ∧
      q.questions = p.questions ∧ q.answers = p.answers ∧ q.authorities = p.authorities ∧
      q.additionals = p.additionals ∧ q.header.questions.toNat = p.questions.length ∧
      q.header.answers.toNat = p.answers.length ∧ q.header.authorities.toNat = p.authorities.length ∧
      q.header.additionals.toNat = p.additionals.length := by
  refine ⟨p.recounted, fromBytes_toBytes p h.counted h.fits h.survives, rfl, rfl, rfl, rfl, rfl, rfl, ?_⟩
  exact ⟨toNat_count h.counted.questions, toNat_count h.counted.answers,
    toNat_count h.counted.authorities, toNat_count h.counted.additionals⟩

def mailReply : DnsPacket where
  header := ⟨7, 0x8180, 1, 2, 1, 1⟩
  questions := [⟨['a', '.', 'b'], typeMx, 1⟩]
  answers := [.mx ['a', '.', 'b'] 10 ['m', '.', 'a', '.', 'b'] 60, .txt ['a', '.', 'b'] ['v', '=', '1'] 60]
  authorities := [.caa ['b'] 0 ['i', 's', 's', 'u', 'e'] ['c'] 60]
  additionals := [.opt 1232]

theorem decode_encode_mailReply : ∃ q, fromBytes mailReply.toBytes = ok q ∧
    q.answers = mailReply.answers ∧ q.additionals = mailReply.additionals := by
  have h : mailReply.WellFormed :=
    ⟨⟨by decide, by decide, by decide, by decide⟩, by decide, by decide, by decide, by decide⟩
  obtain ⟨q, hq, _, _, _, hanswers, _, hadditionals, _⟩ := decode_encode mailReply h
  exact ⟨q, hq, hanswers, hadditionals⟩

/-! ## Encoding is stable on what was decoded -/

theorem parseQuestions_length {buf : Bytes} {count offset next : ℕ} {qs : List DnsQuestion}
    (h : parseQuestions buf count offset = ok (qs, next)) : qs.length = count := by
  induction count generalizing offset next qs with
  | zero =>
    obtain ⟨rfl, _⟩ := Prod.mk.inj (Outcome.ok.inj h)
    rfl
  | succ count ih =>
    obtain ⟨q, rest, e, rfl, _, _, _, _, hrest⟩ := parseQuestions_succ.mp h
    rw [List.length_cons, ih hrest]

theorem fromBytes_ok {buf : Bytes} {p : DnsPacket} (h : fromBytes buf = ok p) :
    12 ≤ buf.length ∧ parseHeader buf = ok p.header ∧ ∃ o₀ o₁ o₂ o₃,
      parseQuestions buf p.header.questions.toNat 12 = ok (p.questions, o₀) ∧
      parseSection buf p.header.answers.toNat o₀ = ok (p.answers, o₁) ∧
      parseSection buf p.header.authorities.toNat o₁ = ok (p.authorities, o₂) ∧
      parseSection buf p.header.additionals.toNat o₂ = ok (p.additionals, o₃) := by
  unfold fromBytes at h
  split at h
  · cases h
  simp only [bind_eq_ok, Prod.exists, pure_eq_ok, Outcome.ok.injEq] at h
  obtain ⟨header, hheader, questions, o₀, h₀, answers, o₁, h₁, authorities, o₂, h₂, additionals, o₃, h₃, rfl⟩ := h
  exact ⟨by omega, hheader, o₀, o₁, o₂, o₃, h₀, h₁, h₂, h₃⟩

theorem counted_of_fromBytes {buf : Bytes} {p : DnsPacket} (h : fromBytes buf = ok p) : p.Counted := by
  obtain ⟨_, _, o₀, o₁, o₂, o₃, h₀, h₁, h₂, h₃⟩ := fromBytes_ok h
  have hle : ∀ n : UInt16, n.toNat ≤ 65535 := fun n => by have := n.toNat_lt; omega
  refine ⟨?_, (parseSection_length_le h₁).trans (hle _), (parseSection_length_le h₂).trans (hle _),
    (parseSection_length_le h₃).trans (hle _)⟩
  rw [parseQuestions_length h₀]
  exact hle _

/-- **A decoded packet whose rdata fit their length fields is decoded again from its own message
exactly when its names and texts survive.** -/
theorem stable_iff_survives (buf : Bytes) (p : DnsPacket) (h : fromBytes buf = ok p) (hfit : p.Fits) :
    p.Stable ↔ p.Survives :=
  ⟨survives_of_stable p (counted_of_fromBytes h) hfit,
    fun hs => ⟨p.recounted, fromBytes_toBytes p (counted_of_fromBytes h) hfit hs, rfl, rfl, rfl, rfl⟩⟩

/-- A query for the one label `a.b`, which is read as the name of two labels. -/
def dottedQuery : Bytes := [0, 7, 1, 0, 0, 1, 0, 0, 0, 0, 0, 0, 3, 97, 46, 98, 0, 0, 1, 0, 1]

theorem stable_iff_survives_dottedQuery : ∃ p, fromBytes dottedQuery = ok p ∧ p.Fits ∧
    (p.Stable ↔ p.Survives) :=
  ⟨⟨⟨7, 0x100, 1, 0, 0, 0⟩, [⟨['a', '.', 'b'], 1, 1⟩], [], [], []⟩, by decide, by decide,
    stable_iff_survives dottedQuery _ (by decide) (by decide)⟩

/-- A query for the one label `a.` is decoded, encoded and decoded to a query for `a` of type 0: the
empty label behind the dot ends the name early, and everything behind it moves by one byte. -/
theorem trailing_dot_unstable :
    fromBytes [0, 7, 1, 0, 0, 1, 0, 0, 0, 0, 0, 0, 2, 97, 46, 0, 0, 1, 0, 1] =
        ok ⟨⟨7, 0x100, 1, 0, 0, 0⟩, [⟨['a', '.'], 1, 1⟩], [], [], []⟩ ∧
      fromBytes (DnsPacket.toBytes ⟨⟨7, 0x100, 1, 0, 0, 0⟩, [⟨['a', '.'], 1, 1⟩], [], [], []⟩) =
        ok ⟨⟨7, 0x100, 1, 0, 0, 0⟩, [⟨['a'], 0, 0x100⟩], [], [], []⟩ := by
  decide

end MiniDns.Dns
