import MiniDns.Dns.Wire
import MiniDns.OwnQuestion

/-! For how long an upstream response is cached, and what the records that stand in it allow. The
lifetime is computed from the parsed packet, in which records of unmodelled types are missing. -/
namespace MiniDns
open Lib Lib.Outcome Dns DnsRecord DnsPacket
set_option autoImplicit false

/-! ## The lifetime of a response -/

/-- The lifetime with which a response is inserted, if it is. -/
def lifetime (response : Bytes) : Option UInt32 :=
  match fromBytes response with
  | ok parsed => (cacheTtl parsed).filter fun ttl => ttl ≠ 0
  | _ => none

theorem forwardAndCache_inserts {rt : Runtime} {st st' : ServerState} {answeredAt : Instant} {ctx : ForwardCtx}
    {response raw : Bytes} (h : st.forwardAndCache rt answeredAt ctx (some response) = ok (raw, st')) :
    raw = response ∧ st'.cache =
      match lifetime response with
      | some ttl => st.cache.insert rt answeredAt ctx.name ctx.qtype response ttl
      | none => st.cache := by
  unfold lifetime
  obtain ⟨hnone, _⟩ | ⟨hsome, hstored⟩ := ServerState.forwardAndCache_cases h
  · cases hnone
  obtain rfl := Option.some.inj hsome
  refine ⟨rfl, ?_⟩
  obtain ⟨parsed, ttl, hparsed, httl, rfl⟩ | ⟨hnone, rfl⟩ := hstored
  · rw [hparsed]
    dsimp only
    rw [httl]
    by_cases hzero : ttl = 0
    · rw [hzero]
      exact Cache.insert_of_nothing (.inr rfl)
    · rw [Option.filter_some, if_pos (by simpa using hzero)]
  · cases hparsed : fromBytes response with
    | ok parsed =>
      dsimp only
      rw [hnone parsed hparsed]
      rfl
    | _ => rfl

theorem foldl_min_ttl (rs : List DnsRecord) (ttl : UInt32) :
    let least := rs.foldl (fun ttl r => min ttl r.ttl) ttl
    least ≤ ttl ∧ (∀ r ∈ rs, least ≤ r.ttl) ∧ (least = ttl ∨ ∃ r ∈ rs, r.ttl = least) := by
  induction rs generalizing ttl with
  | nil => exact ⟨UInt32.le_refl _, nofun, .inl rfl⟩
  | cons r rs ih =>
    obtain ⟨hle, hall, hleast⟩ := ih (min ttl r.ttl)
    refine ⟨UInt32.le_trans hle Std.min_le_left, fun r' hr' => ?_, ?_⟩
    · obtain rfl | hr' := List.mem_cons.mp hr'
      · exact UInt32.le_trans hle Std.min_le_right
      · exact hall r' hr'
    · obtain heq | ⟨r', hr', heq⟩ := hleast
      · obtain hmin | hmin := Std.min_eq_or (a := ttl) (b := r.ttl)
        · exact .inl (heq.trans hmin)
        · exact .inr ⟨r, List.mem_cons_self, (heq.trans hmin).symm⟩
      · exact .inr ⟨r', List.mem_cons_of_mem _ hr', heq⟩

theorem minTtl_spec {rs : List DnsRecord} {ttl : UInt32} (h : minTtl rs = some ttl) :
    (∀ r ∈ rs, ttl ≤ r.ttl) ∧ ∃ r ∈ rs, r.ttl = ttl := by
  cases rs with
  | nil => cases h
  | cons r rs =>
    obtain rfl := Option.some.inj h
    obtain ⟨hle, hall, hleast⟩ := foldl_min_ttl rs r.ttl
    refine ⟨fun r' hr' => ?_, ?_⟩
    · obtain rfl | hr' := List.mem_cons.mp hr'
      · exact hle
      · exact hall r' hr'
    · obtain heq | ⟨r', hr', heq⟩ := hleast
      · exact ⟨r, List.mem_cons_self, heq.symm⟩
      · exact ⟨r', List.mem_cons_of_mem _ hr', heq⟩

/-! ## What the records allow -/

/-- The rcode of a positive or negative answer. -/
def AnswerRcode (p : DnsPacket) : Prop :=
  p.header.flags &&& 0x000F = 0 ∨ p.header.flags &&& 0x000F = rcodeNxdomain

def soaMinimum (p : DnsPacket) : Option UInt32 :=
  p.authorities.findSome? fun
    | .soa _ _ _ _ _ _ _ minimum _ => some minimum
    | _ => none

/-- A response with the sections `s` may be cached for `ttl` seconds. -/
structure Cacheable (p : DnsPacket) (s : WireSections) (ttl : UInt32) : Prop where
  rcode : AnswerRcode p
  answers : ∀ w ∈ s.answers, ttl ≤ w.ttl
  negative : s.answers = [] → ∀ minimum, soaMinimum p = some minimum → ttl ≤ minimum

/-- No record that the parser leaves out is the first to expire: where modelled answers are present, one
of them does not outlive it, and else the negative lifetime does not. An error is not cached for the sake
of its answers. -/
structure ShortestModelled (p : DnsPacket) (s : WireSections) : Prop where
  rcode : p.answers ≠ [] → AnswerRcode p
  positive : p.answers ≠ [] → ∀ w ∈ s.answers, w.Unmodelled → ∃ r ∈ p.answers, r.ttl ≤ w.ttl
  negative : p.answers = [] → ∀ w ∈ s.answers,
    match soaMinimum p with
    | some minimum => min minimum 3600 ≤ w.ttl
    | none => 30 ≤ w.ttl

theorem cacheTtl_negative {p : DnsPacket} {ttl : UInt32} (hnil : p.answers = []) (h : cacheTtl p = some ttl) :
    AnswerRcode p ∧ ttl = ((soaMinimum p).map fun minimum => min minimum negTtlMax).getD negTtlDefault := by
  unfold cacheTtl at h
  rw [hnil] at h
  dsimp only [minTtl] at h
  split at h
  · rename_i hrcode
    exact ⟨hrcode.symm, (Option.some.inj h).symm⟩
  · cases h

theorem cacheTtl_positive {p : DnsPacket} {ttl : UInt32} (hne : p.answers ≠ []) (h : cacheTtl p = some ttl) :
    minTtl p.answers = some ttl := by
  unfold cacheTtl at h
  cases hmin : minTtl p.answers with
  | none =>
    cases hanswers : p.answers with
    | nil => exact absurd hanswers hne
    | cons r rs =>
      rw [hanswers] at hmin
      cases hmin
  | some ttl' =>
    rw [hmin] at h
    exact h

theorem lifetime_eq_some {response : Bytes} {p : DnsPacket} {ttl : UInt32} (hp : fromBytes response = ok p)
    (h : lifetime response = some ttl) : cacheTtl p = some ttl ∧ ttl ≠ 0 := by
  rw [lifetime, hp, Option.filter_eq_some_iff] at h
  exact ⟨h.1, by simpa using h.2⟩

theorem cacheable_iff_of_positive {p : DnsPacket} {s : WireSections} {ttl : UInt32} (hne : p.answers ≠ [])
    (hkept : ∀ w ∈ s.answers, w.Unmodelled ∨ ∃ r ∈ p.answers, r.isOpt = true ∨ r.ttl = w.ttl)
    (hempty : s.answers = [] → p.answers = []) (hmin : minTtl p.answers = some ttl) (hzero : ttl ≠ 0) :
    Cacheable p s ttl ↔ ShortestModelled p s := by
  obtain ⟨hall, least, hleast, hattained⟩ := minTtl_spec hmin
  constructor
  · intro h
    refine ⟨fun _ => h.rcode, fun _ w hw _ => ⟨least, hleast, ?_⟩, fun hnil => absurd hnil hne⟩
    rw [hattained]
    exact h.answers w hw
  · intro h
    refine ⟨h.rcode hne, fun w hw => ?_, fun hnil => absurd (hempty hnil) hne⟩
    obtain hunmodelled | ⟨r, hr, hopt | httl⟩ := hkept w hw
    · obtain ⟨r, hr, hle⟩ := h.positive hne w hw hunmodelled
      exact UInt32.le_trans (hall r hr) hle
    · -- an OPT record among the answers makes the lifetime zero
      have hle := hall r hr
      cases r <;> cases hopt
      exact absurd (UInt32.le_zero_iff.mp hle) hzero
    · rw [← httl]
      exact hall r hr

theorem cacheable_iff_of_negative {p : DnsPacket} {s : WireSections} {ttl : UInt32} (hnil : p.answers = [])
    (httl : cacheTtl p = some ttl) : Cacheable p s ttl ↔ ShortestModelled p s := by
  obtain ⟨hrcode, rfl⟩ := cacheTtl_negative hnil httl
  have hsame : ∀ w : WireRecord,
      ((soaMinimum p).map fun minimum => min minimum negTtlMax).getD negTtlDefault ≤ w.ttl ↔
        match soaMinimum p with
        | some minimum => min minimum 3600 ≤ w.ttl
        | none => 30 ≤ w.ttl := by
    intro w
    cases soaMinimum p <;> exact Iff.rfl
  constructor
  · intro h
    exact ⟨fun hne => absurd hnil hne, fun hne => absurd hnil hne, fun _ w hw => (hsame w).mp (h.answers w hw)⟩
  · intro h
    refine ⟨hrcode, fun w hw => (hsame w).mpr (h.negative hnil w hw), fun _ minimum hminimum => ?_⟩
    rw [hminimum]
    exact Std.min_le_left

/-- **A response is cached no longer than its records allow exactly when no unmodelled answer is the first
to expire and no error is cached for its answers.** -/
theorem cached_iff_shortestModelled (rt : Runtime) (st st' : ServerState) (answeredAt : Instant)
    (ctx : ForwardCtx) (response raw : Bytes) (p : DnsPacket) (s : WireSections) (ttl : UInt32)
    (h : st.forwardAndCache rt answeredAt ctx (some response) = ok (raw, st'))
    (hp : fromBytes response = ok p) (hs : Carries response s) (hlifetime : lifetime response = some ttl) :
    st'.cache = st.cache.insert rt answeredAt ctx.name ctx.qtype response ttl ∧
      (Cacheable p s ttl ↔ ShortestModelled p s) := by
  obtain ⟨_, hcache⟩ := forwardAndCache_inserts h
  rw [hlifetime] at hcache
  refine ⟨hcache, ?_⟩
  obtain ⟨httl, hzero⟩ := lifetime_eq_some hp hlifetime
  by_cases hnil : p.answers = []
  · exact cacheable_iff_of_negative hnil httl
  · refine cacheable_iff_of_positive hnil (hs.ttl_kept hp) (fun hempty => ?_) (cacheTtl_positive hnil httl) hzero
    obtain ⟨s', hs', hread, _⟩ := carries_of_fromBytes hp
    obtain rfl := hs.unique hs'
    rw [hempty] at hread
    exact List.eq_nil_of_length_eq_zero (Nat.le_zero.mp hread.length_le)

def letterCtx : ForwardCtx :=
  ⟨⟨⟨1, 0x100, 1, 0, 0, 0⟩, [⟨['A'], 1, 1⟩], [], [], []⟩, letterQuery 1 65, ['a'], 1, ⟨.v4 ⟨9, 9, 9, 9⟩, 53, 0⟩, .udp⟩

/-- One answer of type A at the root, with a lifetime of 60 seconds and the given rcode. -/
def rootAnswer (rcode : UInt8) : Bytes :=
  [0, 1, 0x81, rcode, 0, 0, 0, 1, 0, 0, 0, 0, 0, 0, 1, 0, 1, 0, 0, 0, 60, 0, 4, 10, 0, 0, 1]

theorem cached_iff_shortestModelled_rootAnswer : ∃ raw st' p s,
    forwardingServer.forwardAndCache .ascii 0 letterCtx (some (rootAnswer 0)) = ok (raw, st') ∧
      (Cacheable p s 60 ↔ ShortestModelled p s) := by
  have hrun : (forwardingServer.forwardAndCache .ascii 0 letterCtx (some (rootAnswer 0)) >>= fun r => ok r.1) =
      ok (rootAnswer 0) := by
    decide
  obtain ⟨⟨raw, st'⟩, h, _⟩ := bind_eq_ok.mp hrun
  have hp : fromBytes (rootAnswer 0) = ok ⟨⟨1, 0x8100, 0, 1, 0, 0⟩, [], [.a [] ⟨10, 0, 0, 1⟩ 60], [], []⟩ := by
    decide
  obtain ⟨s, hs, _⟩ := carries_of_fromBytes hp
  exact ⟨raw, st', _, s, h, (cached_iff_shortestModelled _ _ _ _ _ _ _ _ s 60 h hp hs (by decide)).2⟩

/-- One answer of type 65 at the root, with a lifetime of one second. -/
def briefAnswer : Bytes :=
  [0, 1, 0x81, 0x80, 0, 0, 0, 1, 0, 0, 0, 0, 0, 0, 65, 0, 1, 0, 0, 0, 1, 0, 1, 7]

/-- A SERVFAIL with an answer is cached for the lifetime of the answer, and an answer of an unmodelled
type that expires after one second is cached for 30 seconds, as if there were none. -/
theorem cached_past_its_records :
    (∃ p, fromBytes (rootAnswer 2) = ok p ∧ lifetime (rootAnswer 2) = some 60 ∧ ∀ s, ¬ Cacheable p s 60) ∧
      ∃ p s, fromBytes briefAnswer = ok p ∧ Carries briefAnswer s ∧
        lifetime briefAnswer = some 30 ∧ ¬ Cacheable p s 30 := by
  refine ⟨⟨⟨⟨1, 0x8102, 0, 1, 0, 0⟩, [], [.a [] ⟨10, 0, 0, 1⟩ 60], [], []⟩, by decide, by decide,
    fun s h => ?_⟩, ?_⟩
  · have hrcode : ¬ AnswerRcode ⟨⟨1, 0x8102, 0, 1, 0, 0⟩, [], [.a [] ⟨10, 0, 0, 1⟩ 60], [], []⟩ := by
      rintro (h | h) <;> exact absurd h (by decide)
    exact hrcode h.rcode
  · have hrecord : RecordAt briefAnswer 12 ⟨[], 65, 1, 1, ⟨[], [7], 0⟩⟩ 24 :=
      ⟨0, 13, 1, .root (by decide), ⟨by decide, by decide, by decide, by decide, by decide⟩, rfl, rfl⟩
    refine ⟨⟨⟨1, 0x8180, 0, 1, 0, 0⟩, [], [], [], []⟩, ⟨[⟨[], 65, 1, 1, ⟨[], [7], 0⟩⟩], [], []⟩, by decide,
      ⟨_, 12, 24, 24, 24, rfl, rfl, rfl, ⟨24, hrecord, rfl⟩, rfl, rfl, rfl, rfl⟩, by decide, fun h => ?_⟩
    exact absurd (h.answers _ List.mem_cons_self) (by decide)

end MiniDns
