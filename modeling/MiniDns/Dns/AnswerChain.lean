import MiniDns.Dns.Resolver

/-! The answers of `build_response`: the CNAME records of a chain of distinct names, followed by the
records of the asked type at its last name. One round of the loop is described once, and the chain is
put together from the rounds. -/
namespace MiniDns.Dns
open Lib DnsRecord
set_option autoImplicit false

/-! ## One round -/

def recordsAt (zones : ZoneSet) (name : Text) : Option (List DnsRecord) :=
  (zones.find name).bind fun zone => lookup zone.records name

def answersAt (zones : ZoneSet) (qtype : UInt16) (name : Text) : List DnsRecord :=
  match recordsAt zones name with
  | some records => (records.filter fun r => r.recordType == qtype).map fun r => r.withDomain name
  | none => []

theorem answersAt_of_records {zones : ZoneSet} {name : Text} {records : List DnsRecord} (qtype : UInt16)
    (h : recordsAt zones name = some records) : answersAt zones qtype name =
      (records.filter fun r => r.recordType == qtype).map fun r => r.withDomain name := by
  rw [answersAt, h]

/-- The records at a name have none of the asked type, and their first CNAME leads to the next name. -/
structure Follows (rt : Runtime) (zones : ZoneSet) (qtype : UInt16) (name : Text) (record : DnsRecord)
    (next : Text) : Prop where
  noDirect : ∃ records, recordsAt zones name = some records ∧ (∀ r ∈ records, r.recordType ≠ qtype) ∧
    (records.find? fun r => r.recordType == typeCname) = some record
  next : ∃ owner aliasName ttl, record = .cname owner aliasName ttl ∧ next = rt.toLowercase aliasName

namespace Chase

def visit (zones : ZoneSet) (s : Chase) : Chase :=
  { s with
    seen := s.name :: s.seen
    matchingZone := s.matchingZone.or (zones.find s.name) }

def deny (s : Chase) : Chase := { s with rcode := if s.answers.isEmpty then 3 else s.rcode }

def answer (s : Chase) (records : List DnsRecord) : Chase :=
  { s with
    authoritative := true
    answers := s.answers ++ records }

def goto (s : Chase) (name : Text) : Chase := { s with name := name }

end Chase

theorem cname_of_recordType {r : DnsRecord} (h : r.recordType = typeCname) :
    ∃ owner aliasName ttl, r = .cname owner aliasName ttl := by
  cases r with
  | cname owner aliasName ttl => exact ⟨owner, aliasName, ttl, rfl⟩
  | _ => exact absurd h (by simp [recordType, typeA, typeAaaa, typeCname, typeMx, typeTxt, typeNs, typeSoa,
      typeSrv, typePtr, typeCaa, typeOpt, typeDnskey, typeRrsig, typeDs, typeNsec])

section Round
variable {rt : Runtime} {zones : ZoneSet} {qtype : UInt16} {rounds : ℕ} {s : Chase}

theorem chase_of_none (hseen : s.name ∉ s.seen) (h : recordsAt zones s.name = none) :
    chase rt zones qtype (rounds + 1) s = (s.visit zones).deny := by
  rw [chase, if_neg hseen]
  dsimp only [Chase.visit, Chase.deny]
  cases hfind : zones.find s.name with
  | none =>
    dsimp only
    rw [Option.or_none]
    split <;> rfl
  | some zone =>
    rw [recordsAt, hfind, Option.bind_some] at h
    dsimp only
    rw [h]
    dsimp only
    split <;> rfl

theorem chase_of_records (rt : Runtime) (qtype : UInt16) (rounds : ℕ) {records : List DnsRecord}
    (hseen : s.name ∉ s.seen)
    (h : recordsAt zones s.name = some records) : chase rt zones qtype (rounds + 1) s =
      if (records.filter fun r => r.recordType == qtype).isEmpty then
        match records.find? fun r => r.recordType == typeCname with
        | some record =>
          match record with
          | .cname _ aliasName _ => chase rt zones qtype rounds
              (((s.visit zones).answer [record.withDomain s.name]).goto (rt.toLowercase aliasName))
          | _ => (s.visit zones).answer [record.withDomain s.name]
        | none => (s.visit zones).answer []
      else (s.visit zones).answer (answersAt zones qtype s.name) := by
  obtain ⟨zone, hfind, hlookup⟩ := Option.bind_eq_some_iff.mp h
  rw [answersAt, h, chase, if_neg hseen]
  dsimp only
  rw [hfind]
  dsimp only
  rw [hlookup]
  dsimp only [Chase.visit, Chase.answer, Chase.goto]
  rewrite [hfind, List.append_nil]
  rfl

/-- What a round can do: stop at a name seen before, deny a name without records, follow a CNAME, or
answer with the records of the asked type. -/
theorem chase_succ_cases (rt : Runtime) (zones : ZoneSet) (qtype : UInt16) (rounds : ℕ) (s : Chase) :
    (s.name ∈ s.seen ∧ chase rt zones qtype (rounds + 1) s = s) ∨
    (s.name ∉ s.seen ∧ recordsAt zones s.name = none ∧
      chase rt zones qtype (rounds + 1) s = (s.visit zones).deny) ∨
    (s.name ∉ s.seen ∧ ∃ record next, Follows rt zones qtype s.name record next ∧
      chase rt zones qtype (rounds + 1) s =
        chase rt zones qtype rounds (((s.visit zones).answer [record.withDomain s.name]).goto next)) ∨
    (s.name ∉ s.seen ∧ ∃ records, recordsAt zones s.name = some records ∧
      (answersAt zones qtype s.name = [] → ∀ r ∈ records, r.recordType ≠ typeCname) ∧
      chase rt zones qtype (rounds + 1) s = (s.visit zones).answer (answersAt zones qtype s.name)) := by
  by_cases hseen : s.name ∈ s.seen
  · exact .inl ⟨hseen, by rw [chase, if_pos hseen]⟩
  cases hrecords : recordsAt zones s.name with
  | none => exact .inr (.inl ⟨hseen, rfl, chase_of_none hseen hrecords⟩)
  | some records =>
    have hround := chase_of_records rt qtype rounds hseen hrecords
    have hanswers := answersAt_of_records qtype hrecords
    by_cases hdirect : (records.filter fun r => r.recordType == qtype) = []
    · rw [hdirect, if_pos List.isEmpty_nil] at hround
      have hnone : ∀ r ∈ records, r.recordType ≠ qtype := by
        intro r hr htype
        exact List.filter_eq_nil_iff.mp hdirect r hr (beq_iff_eq.mpr htype)
      cases hcname : records.find? fun r => r.recordType == typeCname with
      | none =>
        rw [hcname] at hround
        rw [hanswers, hdirect]
        refine .inr (.inr (.inr ⟨hseen, records, rfl, fun _ r hr htype => ?_, hround⟩))
        exact List.find?_eq_none.mp hcname r hr (beq_iff_eq.mpr htype)
      | some record =>
        rw [hcname] at hround
        have htype := List.find?_some (p := fun r : DnsRecord => r.recordType == typeCname) hcname
        obtain ⟨owner, aliasName, ttl, rfl⟩ := cname_of_recordType (beq_iff_eq.mp htype)
        refine .inr (.inr (.inl ⟨hseen, _, rt.toLowercase aliasName, ⟨?_, owner, aliasName, ttl, rfl, rfl⟩, hround⟩))
        exact ⟨records, hrecords, hnone, hcname⟩
    · rw [if_neg (mt List.isEmpty_iff.mp hdirect)] at hround
      refine .inr (.inr (.inr ⟨hseen, records, rfl, fun hnil => ?_, hround⟩))
      rw [hanswers, List.map_eq_nil_iff] at hnil
      exact absurd hnil hdirect

end Round

/-! ## The chain -/

/-- Names that lead to one another, each with the CNAME that is followed, and the name they lead to. -/
inductive Chain (rt : Runtime) (zones : ZoneSet) (qtype : UInt16) : Text → List (Text × DnsRecord) → Text → Prop
  | nil (name : Text) : Chain rt zones qtype name [] name
  | cons {name next last : Text} {record : DnsRecord} {links : List (Text × DnsRecord)}
    (follows : Follows rt zones qtype name record next) (rest : Chain rt zones qtype next links last) :
    Chain rt zones qtype name ((name, record) :: links) last

/-- There is a round left for the last name, and it has not been seen. -/
def Fresh (rounds : ℕ) (seen : List Text) (links : List (Text × DnsRecord)) (last : Text) : Prop :=
  links.length < rounds ∧ last ∉ seen ∧ last ∉ links.map Prod.fst

structure AnswerChain (rt : Runtime) (zones : ZoneSet) (qtype : UInt16) (rounds : ℕ) (seen : List Text) (name : Text)
    (links : List (Text × DnsRecord)) (last : Text) (tail : List DnsRecord) : Prop where
  chain : Chain rt zones qtype name links last
  length_le : links.length ≤ rounds
  nodup : (links.map Prod.fst).Nodup
  unseen : ∀ n ∈ links.map Prod.fst, n ∉ seen
  final : Fresh rounds seen links last → tail = answersAt zones qtype last
  cut : ¬ Fresh rounds seen links last → tail = []
  maximal : Fresh rounds seen links last → ∀ records, recordsAt zones last = some records → tail = [] →
    ∀ r ∈ records, r.recordType ≠ typeCname

theorem fresh_cons {rounds : ℕ} {seen : List Text} {links : List (Text × DnsRecord)} {name last : Text}
    {record : DnsRecord} :
    Fresh (rounds + 1) seen ((name, record) :: links) last ↔ Fresh rounds (name :: seen) links last := by
  unfold Fresh
  rw [List.length_cons, List.map_cons, List.mem_cons, List.mem_cons]
  constructor
  · rintro ⟨hlen, hseen, hnew⟩
    exact ⟨Nat.lt_of_succ_lt_succ hlen, not_or.mpr ⟨fun h => hnew (.inl h), hseen⟩, fun h => hnew (.inr h)⟩
  · rintro ⟨hlen, hseen, hnew⟩
    exact ⟨Nat.succ_lt_succ hlen, fun h => hseen (.inr h), not_or.mpr ⟨fun h => hseen (.inl h), hnew⟩⟩

section Chains
variable {rt : Runtime} {zones : ZoneSet} {qtype : UInt16}

theorem AnswerChain.cons {rounds : ℕ} {seen : List Text} {links : List (Text × DnsRecord)} {name next last : Text}
    {record : DnsRecord} {tail : List DnsRecord} (hseen : name ∉ seen)
    (hfollows : Follows rt zones qtype name record next)
    (h : AnswerChain rt zones qtype rounds (name :: seen) next links last tail) :
    AnswerChain rt zones qtype (rounds + 1) seen name ((name, record) :: links) last tail where
  chain := .cons hfollows h.chain
  length_le := Nat.succ_le_succ h.length_le
  nodup := List.nodup_cons.mpr ⟨fun hmem => h.unseen name hmem List.mem_cons_self, h.nodup⟩
  unseen n hn := by
    obtain rfl | hn := List.mem_cons.mp hn
    · exact hseen
    · exact fun hmem => h.unseen n hn (List.mem_cons_of_mem _ hmem)
  final hfresh := h.final (fresh_cons.mp hfresh)
  cut hnot := h.cut (mt fresh_cons.mpr hnot)
  maximal hfresh := h.maximal (fresh_cons.mp hfresh)

/-- A chain that ends at once, because no round is left for the name or it has been seen. -/
theorem AnswerChain.stop {rounds : ℕ} {seen : List Text} {name : Text} (h : ¬ Fresh rounds seen [] name) :
    AnswerChain rt zones qtype rounds seen name [] name [] where
  chain := .nil name
  length_le := Nat.zero_le _
  nodup := List.nodup_nil
  unseen _ hn := absurd hn List.not_mem_nil
  final hfresh := absurd hfresh h
  cut _ := rfl
  maximal hfresh := absurd hfresh h

theorem AnswerChain.last {rounds : ℕ} {seen : List Text} {name : Text} (hfresh : Fresh rounds seen [] name)
    (h : ∀ records, recordsAt zones name = some records → answersAt zones qtype name = [] →
      ∀ r ∈ records, r.recordType ≠ typeCname) :
    AnswerChain rt zones qtype rounds seen name [] name (answersAt zones qtype name) where
  chain := .nil name
  length_le := Nat.zero_le _
  nodup := List.nodup_nil
  unseen _ hn := absurd hn List.not_mem_nil
  final _ := rfl
  cut hnot := absurd hfresh hnot
  maximal _ := h

theorem chase_answerChain (rt : Runtime) (zones : ZoneSet) (qtype : UInt16) (rounds : ℕ) (s : Chase) :
    ∃ links last tail, AnswerChain rt zones qtype rounds s.seen s.name links last tail ∧
      (chase rt zones qtype rounds s).answers = s.answers ++ (links.map fun l => l.2.withDomain l.1) ++ tail := by
  -- the rounds that are left and the names already seen are parameters of the chain, as the loop has them
  induction rounds generalizing s with
  | zero => exact ⟨[], s.name, [], .stop fun h => Nat.not_lt_zero _ h.1, by simp [chase]⟩
  | succ rounds ih =>
    have hfresh : s.name ∉ s.seen → Fresh (rounds + 1) s.seen [] s.name := fun h =>
      ⟨Nat.succ_pos _, h, List.not_mem_nil⟩
    obtain ⟨hseen, hround⟩ | ⟨hseen, hnone, hround⟩ | ⟨hseen, record, next, hfollows, hround⟩ |
      ⟨hseen, records, hrecords, hcname, hround⟩ := chase_succ_cases rt zones qtype rounds s
    · exact ⟨[], s.name, [], .stop fun h => h.2.1 hseen, by simp [hround]⟩
    · have hnil : answersAt zones qtype s.name = [] := by rw [answersAt, hnone]
      refine ⟨[], s.name, _, .last (hfresh hseen) fun records h => ?_, by simp [hround, hnil, Chase.deny, Chase.visit]⟩
      rw [hnone] at h
      cases h
    · obtain ⟨links, last, tail, hchain, hanswers⟩ := ih (((s.visit zones).answer [record.withDomain s.name]).goto next)
      refine ⟨_, last, tail, hchain.cons hseen hfollows, ?_⟩
      rw [hround, hanswers]
      simp [Chase.goto, Chase.answer, Chase.visit]
    · refine ⟨[], s.name, _, .last (hfresh hseen) fun records' h => ?_, by simp [hround, Chase.answer, Chase.visit]⟩
      rw [hrecords] at h
      obtain rfl := Option.some.inj h
      exact hcname

/-! ## There is one chain -/

theorem Follows.unique {name : Text} {record record' : DnsRecord} {next next' : Text}
    (h : Follows rt zones qtype name record next) (h' : Follows rt zones qtype name record' next') :
    record = record' ∧ next = next' := by
  obtain ⟨⟨records, hrecords, _, hcname⟩, owner, aliasName, ttl, rfl, rfl⟩ := h
  obtain ⟨⟨records', hrecords', _, hcname'⟩, owner', aliasName', ttl', rfl, rfl⟩ := h'
  obtain rfl := Option.some.inj (hrecords.symm.trans hrecords')
  obtain heq := Option.some.inj (hcname.symm.trans hcname')
  injection heq with howner halias httl
  subst howner halias httl
  exact ⟨rfl, rfl⟩

theorem AnswerChain.of_cons {rounds : ℕ} {seen : List Text} {links : List (Text × DnsRecord)} {name name' last : Text}
    {record : DnsRecord} {tail : List DnsRecord}
    (h : AnswerChain rt zones qtype rounds seen name ((name', record) :: links) last tail) :
    name' = name ∧ name ∉ seen ∧ ∃ rounds' next, rounds = rounds' + 1 ∧ Follows rt zones qtype name record next ∧
      AnswerChain rt zones qtype rounds' (name :: seen) next links last tail := by
  obtain ⟨hchain, hlen, hnodup, hunseen, hfinal, hcut, hmaximal⟩ := h
  cases hchain with
  | @cons _ next _ _ _ hfollows hrest =>
    obtain ⟨hnot, hnodup⟩ := List.nodup_cons.mp hnodup
    refine ⟨rfl, hunseen name List.mem_cons_self, ?_⟩
    cases rounds with
    | zero => exact absurd hlen (Nat.not_succ_le_zero _)
    | succ rounds =>
      refine ⟨rounds, next, rfl, hfollows, hrest, Nat.le_of_succ_le_succ hlen, hnodup, fun n hn => ?_, ?_, ?_, ?_⟩
      · rw [List.mem_cons, not_or]
        refine ⟨?_, hunseen n (List.mem_cons_of_mem _ hn)⟩
        rintro rfl
        exact hnot hn
      · exact fun hfresh => hfinal (fresh_cons.mpr hfresh)
      · exact fun hnot => hcut (mt fresh_cons.mp hnot)
      · exact fun hfresh => hmaximal (fresh_cons.mpr hfresh)

/-- A chain does not stop where a CNAME can be followed. -/
theorem AnswerChain.not_follows {rounds : ℕ} {seen : List Text} {name last next : Text} {tail : List DnsRecord}
    {record : DnsRecord} (h : AnswerChain rt zones qtype (rounds + 1) seen name [] last tail) (hseen : name ∉ seen) :
    ¬ Follows rt zones qtype name record next := by
  rintro ⟨⟨records, hrecords, hnone, hcname⟩, _⟩
  obtain ⟨hchain, _, _, _, hfinal, _, hmaximal⟩ := h
  cases hchain
  have hfresh : Fresh (rounds + 1) seen [] name := ⟨Nat.succ_pos _, hseen, List.not_mem_nil⟩
  have hdirect : (records.filter fun r => r.recordType == qtype) = [] := by
    rw [List.filter_eq_nil_iff]
    exact fun r hr htype => hnone r hr (beq_iff_eq.mp htype)
  have hnil : tail = [] := by
    rw [hfinal hfresh, answersAt_of_records qtype hrecords, hdirect, List.map_nil]
  have htype := List.find?_some (p := fun r : DnsRecord => r.recordType == typeCname) hcname
  exact hmaximal hfresh records hrecords hnil record (List.mem_of_find?_eq_some hcname) (beq_iff_eq.mp htype)

theorem AnswerChain.unique {rounds : ℕ} {seen : List Text} {links links' : List (Text × DnsRecord)}
    {name last last' : Text} {tail tail' : List DnsRecord}
    (h : AnswerChain rt zones qtype rounds seen name links last tail)
    (h' : AnswerChain rt zones qtype rounds seen name links' last' tail') :
    links = links' ∧ last = last' ∧ tail = tail' := by
  -- the name where one chain ends has no alias to follow, so the other ends there as well
  induction links generalizing rounds seen name links' with
  | nil =>
    cases links' with
    | nil =>
      obtain ⟨hchain, _, _, _, hfinal, hcut, _⟩ := h
      obtain ⟨hchain', _, _, _, hfinal', hcut', _⟩ := h'
      cases hchain
      cases hchain'
      by_cases hfresh : Fresh rounds seen [] last
      · exact ⟨rfl, rfl, (hfinal hfresh).trans (hfinal' hfresh).symm⟩
      · exact ⟨rfl, rfl, (hcut hfresh).trans (hcut' hfresh).symm⟩
    | cons link' links' =>
      obtain ⟨_, hseen, rounds', next, rfl, hfollows, _⟩ := h'.of_cons
      exact absurd hfollows (h.not_follows hseen)
  | cons link links ih =>
    obtain ⟨name', record⟩ := link
    obtain ⟨rfl, hseen, rounds, next, rfl, hfollows, hrest⟩ := h.of_cons
    cases links' with
    | nil => exact absurd hfollows (h'.not_follows hseen)
    | cons link' links' =>
      obtain ⟨name'', record'⟩ := link'
      obtain ⟨rfl, _, rounds', next', hrounds, hfollows', hrest'⟩ := h'.of_cons
      obtain rfl := Nat.succ.inj hrounds
      obtain ⟨rfl, rfl⟩ := hfollows.unique hfollows'
      obtain ⟨rfl, rfl, rfl⟩ := ih hrest hrest'
      exact ⟨rfl, rfl, rfl⟩

/-! ## The records of a chain -/

theorem Chain.cname {name last : Text} {links : List (Text × DnsRecord)} (h : Chain rt zones qtype name links last) :
    ∀ l ∈ links, ∃ owner aliasName ttl, l.2 = .cname owner aliasName ttl := by
  induction h with
  | nil => exact fun l hl => absurd hl List.not_mem_nil
  | cons follows _ ih =>
    intro l hl
    obtain rfl | hl := List.mem_cons.mp hl
    · obtain ⟨owner, aliasName, ttl, hrecord, _⟩ := follows.next
      exact ⟨owner, aliasName, ttl, hrecord⟩
    · exact ih l hl

theorem recordType_withDomain (r : DnsRecord) (domain : Text) : (r.withDomain domain).recordType = r.recordType := by
  cases r <;> rfl

theorem AnswerChain.fresh {rounds : ℕ} {seen : List Text} {links : List (Text × DnsRecord)} {name last : Text}
    {tail : List DnsRecord} (h : AnswerChain rt zones qtype rounds seen name links last tail) (hne : tail ≠ []) :
    Fresh rounds seen links last := by
  by_contra hnot
  exact hne (h.cut hnot)

theorem AnswerChain.mem_tail {rounds : ℕ} {seen : List Text} {links : List (Text × DnsRecord)} {name last : Text}
    {tail : List DnsRecord} (h : AnswerChain rt zones qtype rounds seen name links last tail) {r : DnsRecord}
    (hr : r ∈ tail) : r.recordType = qtype ∧ ∃ r₀ : DnsRecord, r = r₀.withDomain last := by
  rw [h.final (h.fresh (List.ne_nil_of_mem hr)), answersAt] at hr
  split at hr
  · obtain ⟨r₀, hr₀, rfl⟩ := List.mem_map.mp hr
    obtain ⟨_, htype⟩ := List.mem_filter.mp hr₀
    exact ⟨(recordType_withDomain r₀ last).trans (beq_iff_eq.mp htype), r₀, rfl⟩
  · cases hr

/-- A record of the chain is a CNAME of one of its names, or has the asked type. -/
theorem AnswerChain.mem_cases {rounds : ℕ} {seen : List Text} {links : List (Text × DnsRecord)} {name last : Text}
    {tail : List DnsRecord} (h : AnswerChain rt zones qtype rounds seen name links last tail) {r : DnsRecord}
    (hr : r ∈ (links.map fun l => l.2.withDomain l.1) ++ tail) :
    (∃ l ∈ links, r.domain = l.1 ∧ r.recordType = typeCname) ∨ r ∈ tail ∧ r.recordType = qtype := by
  obtain hr | hr := List.mem_append.mp hr
  · obtain ⟨l, hl, rfl⟩ := List.mem_map.mp hr
    obtain ⟨owner, aliasName, ttl, hcname⟩ := h.chain.cname l hl
    rw [hcname]
    exact .inl ⟨l, hl, rfl, rfl⟩
  · exact .inr ⟨hr, (h.mem_tail hr).1⟩

theorem AnswerChain.domain_of_mem_tail {rounds : ℕ} {seen : List Text} {links : List (Text × DnsRecord)}
    {name last : Text} {tail : List DnsRecord} (h : AnswerChain rt zones qtype rounds seen name links last tail)
    {r : DnsRecord} (hr : r ∈ tail) : r.isOpt = true ∨ r.domain = last := by
  obtain ⟨_, r₀, rfl⟩ := h.mem_tail hr
  cases r₀ <;> first | exact .inr rfl | exact .inl rfl

end Chains

theorem built_along_chain (rt : Runtime) (zones : ZoneSet) {request : DnsPacket} {question : DnsQuestion} {qname : Text}
    {qtype : UInt16} (hq : request.questions.head? = some question) (hname : question.qname = qname)
    (htype : question.qtype = qtype) :
    ∃ links last tail, AnswerChain rt zones qtype 16 [] (rt.toLowercase qname) links last tail ∧
      (buildResponse rt request zones).answers = (links.map fun l => l.2.withDomain l.1) ++ tail := by
  rw [buildResponse, hq, ← hname, ← htype]
  exact chase_answerChain rt zones question.qtype maxCnameChain
    ⟨rt.toLowercase question.qname, [], [], false, 0, zones.find (rt.toLowercase question.qname)⟩

end MiniDns.Dns
