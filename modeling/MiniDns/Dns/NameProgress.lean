import Mathlib.Data.List.Chain
import Mathlib.Data.Prod.Lex
import Mathlib.Order.WellFounded
import MiniDns.Dns.Codec
import MiniDns.Dns.PacketSafety

/-! Progress of the decoder: every round of the loop of `parse_qname` uses up a pointer or goes on behind a
label, a name ends where its bytes in place say, and every item of a message lies behind the one before. -/
namespace MiniDns.Dns.DnsPacket
open Lib Lib.Outcome
set_option autoImplicit false

variable {buf : Bytes}

/-! ## Rounds -/

/-- The variables of the loop after one more round that does not return. -/
inductive NextRound (buf : Bytes) (s : NameScan) : NameScan → Prop
  | label (len : UInt8) : buf[s.current]? = some len → len &&& 0xC0 = 0 → len ≠ 0 →
      s.current + 1 + len.toNat ≤ buf.length → NextRound buf s (s.readLabel buf len)
  | pointer (hi lo : UInt8) : buf[s.current]? = some hi → hi &&& 0xC0 ≠ 0 → buf[s.current + 1]? = some lo →
      s.jumps + 1 ≤ maxPointerJumps → NextRound buf s (s.follow hi lo)

/-- The pointers that may still be followed, then the bytes that are left. -/
def NameScan.left (buf : Bytes) (s : NameScan) : ℕ ×ₗ ℕ :=
  toLex (maxPointerJumps - s.jumps, buf.length - s.current)

theorem NextRound.left_lt {s s' : NameScan} (h : NextRound buf s s') : s'.left buf < s.left buf := by
  rw [NameScan.left, NameScan.left, Prod.Lex.toLex_lt_toLex]
  cases h with
  | label len _ _ _ hle => exact .inr ⟨rfl, by simp only [NameScan.readLabel]; omega⟩
  | pointer hi lo _ _ _ hj => exact .inl (by simp only [NameScan.follow]; omega)

/-- A round goes on to the next one, whatever the rounds that are left, or it returns. -/
theorem parseQnameLoop_next_or_done (buf : Bytes) (s : NameScan) :
    (∃ s', NextRound buf s s' ∧ ∀ fuel, parseQnameLoop buf (fuel + 1) s = parseQnameLoop buf fuel s') ∨
      ∃ result, result ≠ panic ∧ ∀ fuel, parseQnameLoop buf (fuel + 1) s = result := by
  cases hlen : buf[s.current]? with
  | none =>
    refine .inr ⟨err (.truncated "qname label length"), by simp, fun fuel => ?_⟩
    rw [parseQnameLoop, if_pos (List.getElem?_eq_none_iff.mp hlen)]
  | some len =>
    have hlt := (List.getElem?_eq_some_iff.mp hlen).1
    have hread := byteAt_eq_ok (ε := DnsError).mpr hlen
    by_cases hp : len &&& 0xC0 = 0
    · by_cases hzero : len = 0
      · refine .inr ⟨ok { s with endOffset := s.endOf (s.current + 1) }, by simp, fun fuel => ?_⟩
        rw [parseQnameLoop, if_neg (by omega), hread, ok_bind, if_neg (not_not.mpr hp), if_pos hzero]
        rfl
      by_cases hle : s.current + 1 + len.toNat ≤ buf.length
      · exact .inl ⟨_, .label len hlen hp hzero hle, fun fuel => parseQnameLoop_label hlen hp hzero hle⟩
      · refine .inr ⟨err (.truncated "qname label"), by simp, fun fuel => ?_⟩
        rw [parseQnameLoop, if_neg (by omega), hread, ok_bind, if_neg (not_not.mpr hp), if_neg hzero,
          if_pos (by omega)]
    · cases hlo : buf[s.current + 1]? with
      | none =>
        have hend := List.getElem?_eq_none_iff.mp hlo
        refine .inr ⟨err (.truncated "compression pointer"), by simp, fun fuel => ?_⟩
        rw [parseQnameLoop, if_neg (by omega), hread, ok_bind, if_pos hp, if_pos hend]
      | some lo =>
        by_cases hj : s.jumps + 1 ≤ maxPointerJumps
        · refine .inl ⟨_, .pointer len lo hlen hp hlo hj, fun fuel => ?_⟩
          rw [parseQnameLoop_pointer hlen hp hlo, if_neg (by omega)]
        · refine .inr ⟨err .pointerLoop, by simp, fun fuel => ?_⟩
          rw [parseQnameLoop_pointer hlen hp hlo, if_pos (by omega)]

/-- The loop returns after some number of rounds, and more rounds would change nothing. -/
theorem parseQnameLoop_returns (buf : Bytes) (s : NameScan) :
    ∃ rounds result, result ≠ panic ∧ ∀ fuel, rounds ≤ fuel → parseQnameLoop buf fuel s = result := by
  -- by induction on what is left to be read
  induction hleft : s.left buf using WellFoundedLT.induction generalizing s with
  | ind left ih =>
    rcases parseQnameLoop_next_or_done buf s with ⟨s', hnext, hloop⟩ | ⟨result, hresult, hloop⟩
    · obtain ⟨rounds, result, hresult, hreturns⟩ := ih (s'.left buf) (hleft ▸ hnext.left_lt) s' rfl
      refine ⟨rounds + 1, result, hresult, fun fuel hfuel => ?_⟩
      obtain ⟨more, rfl⟩ : ∃ more, fuel = more + 1 := ⟨fuel - 1, by omega⟩
      rw [hloop, hreturns more (by omega)]
    · refine ⟨1, result, hresult, fun fuel hfuel => ?_⟩
      obtain ⟨more, rfl⟩ : ∃ more, fuel = more + 1 := ⟨fuel - 1, by omega⟩
      exact hloop more

theorem not_endless_rounds (buf : Bytes) (scans : ℕ → NameScan) :
    ¬ ∀ n, NextRound buf (scans n) (scans (n + 1)) := by
  intro h
  obtain ⟨n, hn⟩ := WellFounded.not_rel_apply_succ (r := (· < ·)) fun n => (scans n).left buf
  exact hn (h n).left_lt

/-! ## Ends -/

/-- A buffer with the same bytes up to the first pointer or the root label has the same end of the name. -/
theorem parseQname_end_congr {buf' : Bytes} {offset e e' : ℕ} {qname qname' : Text}
    (h : parseQname buf offset = ok (qname, e)) (h' : parseQname buf' offset = ok (qname', e'))
    (hsame : ∀ i, offset ≤ i → i < e → buf'[i]? = buf[i]?) : e' = e :=
  (endsAt_of_parseQname h').unique ((endsAt_of_parseQname h).congr hsame)

/-! ## Sections -/

/-- A question was read at the first offset and ends at the second. -/
def QuestionStep (buf : Bytes) (o o' : ℕ) : Prop := ∃ qname e, parseQname buf o = ok (qname, e) ∧ o' = e + 4

def RecordStep (buf : Bytes) (o o' : ℕ) : Prop := ∃ record, parseRecord buf o = ok (record, o')

def Advances (buf : Bytes) (o o' : ℕ) : Prop := o < o' ∧ o' ≤ buf.length

theorem RecordStep.advances {o o' : ℕ} (h : RecordStep buf o o') : Advances buf o o' := by
  obtain ⟨record, h⟩ := h
  obtain ⟨domain, e, rtype, cls, ttl, dataLen, head, rfl, _⟩ := parseRecord_ok h
  have hlt := (parseQname_end head.readOwner).1
  exact ⟨by omega, head.fits⟩

theorem questionSteps_of_parseQuestions {count o last : ℕ} {qs : List DnsQuestion}
    (h : parseQuestions buf count o = ok (qs, last)) :
    ∃ os : List ℕ, os.length = count ∧ os.getLastD o = last ∧
      (o :: os).IsChain fun a b => QuestionStep buf a b ∧ Advances buf a b := by
  induction count generalizing o qs with
  | zero =>
    obtain ⟨_, rfl⟩ := Prod.mk.inj (Outcome.ok.inj h)
    exact ⟨[], rfl, rfl, .singleton o⟩
  | succ count ih =>
    obtain ⟨q, rest, e, rfl, hname, hle, _, _, hrest⟩ := parseQuestions_succ.mp h
    obtain ⟨os, hlen, hlast, hchain⟩ := ih hrest
    have hlt := (parseQname_end hname).1
    exact ⟨(e + 4) :: os, by rw [List.length_cons, hlen], by rw [List.getLastD_cons, hlast],
      hchain.cons_cons ⟨⟨_, e, hname, rfl⟩, by omega, hle⟩⟩

theorem recordSteps_of_parseSection {count o last : ℕ} {rs : List DnsRecord}
    (h : parseSection buf count o = ok (rs, last)) :
    ∃ os : List ℕ, os.length = count ∧ os.getLastD o = last ∧
      (o :: os).IsChain fun a b => RecordStep buf a b ∧ Advances buf a b := by
  induction count generalizing o rs with
  | zero =>
    obtain ⟨_, rfl⟩ := Prod.mk.inj (Outcome.ok.inj h)
    exact ⟨[], rfl, rfl, .singleton o⟩
  | succ count ih =>
    obtain ⟨record, next, out, hrecord, hout, _⟩ := parseSection_succ.mp h
    obtain ⟨os, hlen, hlast, hchain⟩ := ih hout
    have hstep : RecordStep buf o next := ⟨record, hrecord⟩
    exact ⟨next :: os, by rw [List.length_cons, hlen], by rw [List.getLastD_cons, hlast],
      hchain.cons_cons ⟨hstep, hstep.advances⟩⟩

theorem isChain_join {R : ℕ → ℕ → Prop} {a : ℕ} {l m : List ℕ} (h : (a :: l).IsChain R)
    (h' : (l.getLastD a :: m).IsChain R) : (a :: (l ++ m)).IsChain R := by
  induction l generalizing a with
  | nil => exact h'
  | cons b l ih =>
    rw [List.isChain_cons_cons] at h
    rw [List.getLastD_cons] at h'
    exact (ih h.2 h').cons_cons h.1

/-- The offsets behind the questions and the records of a message, one after the other from byte 12 on. -/
structure SectionOffsets (buf : Bytes) (header : DnsHeader) (questions records : List ℕ) : Prop where
  questionCount : questions.length = header.questions.toNat
  recordCount : records.length = header.answers.toNat + header.authorities.toNat + header.additionals.toNat
  questionSteps : (12 :: questions).IsChain (QuestionStep buf)
  recordSteps : (questions.getLastD 12 :: records).IsChain (RecordStep buf)
  increasing : (12 :: (questions ++ records)).Pairwise (· < ·)
  inside : ∀ o ∈ 12 :: (questions ++ records), o ≤ buf.length

theorem sectionOffsets_of_fromBytes {p : DnsPacket} (h : fromBytes buf = ok p) :
    ∃ questions records, SectionOffsets buf p.header questions records := by
  obtain ⟨hlen, _, o₀, o₁, o₂, o₃, h₀, h₁, h₂, h₃⟩ := fromBytes_ok h
  have hrecords : parseSection buf (p.header.answers.toNat + p.header.authorities.toNat + p.header.additionals.toNat)
      o₀ = ok (p.answers ++ p.authorities ++ p.additionals, o₃) := by
    rw [parseSection_add, parseSection_add, h₁, ok_bind, h₂, ok_bind]
    dsimp only [pure_eq_ok, ok_bind]
    rw [h₃, ok_bind]
  obtain ⟨questions, hqlen, hqlast, hqsteps⟩ := questionSteps_of_parseQuestions h₀
  obtain ⟨records, hrlen, _, hrsteps⟩ := recordSteps_of_parseSection hrecords
  rw [← hqlast] at hrsteps
  have hchain : (12 :: (questions ++ records)).IsChain (Advances buf) :=
    isChain_join (hqsteps.imp fun _ _ step => step.2) (hrsteps.imp fun _ _ step => step.2)
  refine ⟨questions, records, hqlen, hrlen, hqsteps.imp fun _ _ step => step.1,
    hrsteps.imp fun _ _ step => step.1, List.isChain_iff_pairwise.mp (hchain.imp fun _ _ step => step.1), ?_⟩
  exact List.forall_mem_cons.mpr
    ⟨hlen, hchain.cons_induction (· ≤ buf.length) _ (fun _ _ step _ => step.2) hlen⟩

/-- **`parse_qname` returns on every input, what it reads on behind lies behind the offset and inside the
buffer and is settled by the bytes in place, and so the sections of a message go strictly forward.** -/
theorem parseQname_progress (buf : Bytes) (offset : ℕ) :
    ((∀ s s', NextRound buf s s' → s'.left buf < s.left buf) ∧
      (∀ scans : ℕ → NameScan, ¬ ∀ n, NextRound buf (scans n) (scans (n + 1))) ∧
      ∃ rounds result, result ≠ panic ∧
        ∀ fuel, rounds ≤ fuel → parseQnameLoop buf fuel ⟨[], offset, false, 0, 0⟩ = result) ∧
    (∀ qname e, parseQname buf offset = ok (qname, e) →
      offset < e ∧ e ≤ buf.length ∧
        ∀ buf' qname' e', (∀ i, offset ≤ i → i < e → buf'[i]? = buf[i]?) →
          parseQname buf' offset = ok (qname', e') → e' = e) ∧
    ∀ p, fromBytes buf = ok p → ∃ questions records, SectionOffsets buf p.header questions records := by
  refine ⟨⟨fun s s' h => h.left_lt, not_endless_rounds buf, parseQnameLoop_returns buf _⟩, ?_, ?_⟩
  · intro qname e h
    obtain ⟨hlt, hle⟩ := parseQname_end h
    exact ⟨hlt, hle, fun buf' qname' e' hsame h' => parseQname_end_congr h h' hsame⟩
  · intro p h
    exact sectionOffsets_of_fromBytes h

/-- A name in front of a pointer to itself: the loop gives up, and only the first two bytes were in place. -/
theorem self_pointer_progress :
    parseQname [0xC0, 0] 0 = err .pointerLoop ∧ parseQname [0xC0, 2, 0] 0 = ok ([], 2) ∧
      ∀ buf' qname' e', (∀ i, 0 ≤ i → i < 2 → buf'[i]? = ([0xC0, 2, 0] : Bytes)[i]?) →
        parseQname buf' 0 = ok (qname', e') → e' = 2 :=
  ⟨by decide +kernel, by decide +kernel, ((parseQname_progress [0xC0, 2, 0] 0).2.1 [] 2 (by decide +kernel)).2.2⟩

end MiniDns.Dns.DnsPacket
