import MiniDns.Guards
import MiniDns.Selection

/-! Wildcard entries. Zone lookup and blocklist walk over the dots of a name in the same way; the walk
stops at the longest suffix with a wildcard, and does not ask which names exist on the way. -/
namespace MiniDns
open Lib Dns
set_option autoImplicit false

/-! ## What the walk over the dots finds -/

def wildcard (s : Text) : Text := '*' :: '.' :: s

theorem suffix_wildcard (s : Text) : ('.' :: s) <:+ wildcard s := List.suffix_cons _ _

/-- `get` knows the wildcard of `s`, and of no longer suffix behind a dot of the name. -/
structure WildcardHit {α : Type} (get : Text → Option α) (name s : Text) (r : α) : Prop where
  behind : ('.' :: s) <:+ name
  entry : get (wildcard s) = some r
  longest : ∀ s', ('.' :: s') <:+ name → get (wildcard s') ≠ none → s'.length ≤ s.length

section Walk
variable {α : Type} {get : Text → Option α} {name : Text}

theorem behind_cons {c : Char} {remainder s : Text} :
    ('.' :: s) <:+ c :: remainder ↔ c = '.' ∧ s = remainder ∨ ('.' :: s) <:+ remainder := by
  rw [List.suffix_cons_iff, List.cons.injEq, eq_comm]

theorem WildcardHit.cons {c : Char} {remainder s : Text} {r : α} (h : WildcardHit get remainder s r)
    (hc : c = '.' → get (wildcard remainder) = none) : WildcardHit get (c :: remainder) s r where
  behind := behind_cons.mpr (.inr h.behind)
  entry := h.entry
  longest s' hs' hne := by
    obtain ⟨hdot, rfl⟩ | hs' := behind_cons.mp hs'
    · exact absurd (hc hdot) hne
    · exact h.longest s' hs' hne

theorem wildcardMatch_cases (get : Text → Option α) (name : Text) :
    (∃ s r, WildcardHit get name s r ∧ wildcardMatch get name = some r) ∨
      wildcardMatch get name = none ∧ ∀ s, ('.' :: s) <:+ name → get (wildcard s) = none := by
  induction name with
  | nil => exact .inr ⟨rfl, by simp⟩
  | cons c remainder ih =>
    by_cases hfirst : c = '.' ∧ get (wildcard remainder) ≠ none
    · obtain ⟨rfl, hne⟩ := hfirst
      obtain ⟨r, hr⟩ := Option.ne_none_iff_exists'.mp hne
      refine .inl ⟨remainder, r, ⟨List.suffix_refl _, hr, fun s hs _ => Nat.le_of_succ_le_succ hs.length_le⟩, ?_⟩
      rw [wildcardMatch, if_pos rfl, show get ('*' :: '.' :: remainder) = some r from hr]
    · have hc : c = '.' → get (wildcard remainder) = none := fun hdot => by
        by_contra hne
        exact hfirst ⟨hdot, hne⟩
      have hstep : wildcardMatch get (c :: remainder) = wildcardMatch get remainder := by
        rw [wildcardMatch]
        split
        · rename_i hdot
          rw [show get ('*' :: '.' :: remainder) = none from hc hdot]
        · rfl
      rw [hstep]
      obtain ⟨s, r, hhit, hsome⟩ | ⟨hnone, hall⟩ := ih
      · exact .inl ⟨s, r, hhit.cons hc, hsome⟩
      · refine .inr ⟨hnone, fun s hs => ?_⟩
        obtain ⟨hdot, rfl⟩ | hs := behind_cons.mp hs
        · exact hc hdot
        · exact hall s hs

theorem wildcardMatch_eq_none :
    wildcardMatch get name = none ↔ ∀ s, ('.' :: s) <:+ name → get (wildcard s) = none := by
  obtain ⟨s, r, hhit, hsome⟩ | ⟨hnone, hall⟩ := wildcardMatch_cases get name
  · rw [hsome]
    refine ⟨nofun, fun h => ?_⟩
    rw [← h s hhit.behind, hhit.entry]
  · exact ⟨fun _ => hall, fun _ => hnone⟩

theorem WildcardHit.unique {s s' : Text} {r r' : α} (h : WildcardHit get name s r) (h' : WildcardHit get name s' r') :
    s = s' := by
  have hle := h.longest s' h'.behind (by rw [h'.entry]; exact Option.some_ne_none _)
  have hge := h'.longest s h.behind (by rw [h.entry]; exact Option.some_ne_none _)
  have hsuffix := List.suffix_of_suffix_length_le h.behind h'.behind (Nat.succ_le_succ hge)
  exact (List.cons.inj (hsuffix.eq_of_length (congrArg Nat.succ (le_antisymm hge hle)))).2

theorem wildcardMatch_eq_some {r : α} : wildcardMatch get name = some r ↔ ∃ s, WildcardHit get name s r := by
  obtain ⟨s, r', hhit, hsome⟩ | ⟨hnone, hall⟩ := wildcardMatch_cases get name
  · rw [hsome, Option.some.injEq]
    refine ⟨?_, ?_⟩
    · rintro rfl
      exact ⟨s, hhit⟩
    · rintro ⟨s', hhit'⟩
      obtain rfl := hhit.unique hhit'
      exact Option.some.inj (hhit.entry.symm.trans hhit'.entry)
  · rw [hnone]
    refine ⟨nofun, ?_⟩
    rintro ⟨s, hhit⟩
    rw [← hall s hhit.behind, hhit.entry]

end Walk

/-! ## Zone lookup and blocklist -/

section Lookup
variable {records : Zone} {name : Text}

theorem lookup_of_entry {r : List DnsRecord} (h : records.lookup name = some r) : Dns.lookup records name = some r := by
  rw [Dns.lookup, h]

theorem lookup_of_no_entry (h : records.lookup name = none) {r : List DnsRecord} :
    Dns.lookup records name = some r ↔ ∃ s, WildcardHit (fun key => records.lookup key) name s r := by
  rw [Dns.lookup, h, ← wildcardMatch_eq_some]

theorem lookup_eq_none : Dns.lookup records name = none ↔
    name ∉ records ∧ ∀ s, ('.' :: s) <:+ name → wildcard s ∉ records := by
  cases h : records.lookup name with
  | some r =>
    rw [lookup_of_entry h]
    exact ⟨nofun, fun hnot => absurd (mem_of_lookup h) hnot.1⟩
  | none =>
    rw [Dns.lookup, h]
    have hmem := AList.lookup_eq_none.mp h
    simp only [wildcardMatch_eq_none, AList.lookup_eq_none, hmem, not_false_eq_true, true_and]

theorem lookup_isSome : (Dns.lookup records name).isSome ↔
    name ∈ records ∨ ∃ s, ('.' :: s) <:+ name ∧ wildcard s ∈ records := by
  rw [← not_iff_not, Option.not_isSome_iff_eq_none, lookup_eq_none]
  push Not
  rfl

end Lookup

theorem Blocklist.isBlocked_iff {rt : Runtime} {b : Blocklist} {name : Text} : b.isBlocked rt name = true ↔
    rt.toLowercase name ∈ b.entries ∨ ∃ s, ('.' :: s) <:+ rt.toLowercase name ∧ wildcard s ∈ b.entries := by
  rw [isBlocked, Bool.or_eq_true, List.contains_iff_mem]
  refine or_congr_right ?_
  rw [← not_iff_not, Option.not_isSome_iff_eq_none, wildcardMatch_eq_none]
  simp

/-- **An exact entry comes first, then the wildcard of the longest suffix behind a dot; the blocklist finds
a name exactly when a zone with the same names does; and a wildcard covers what is below its suffix, and
not the suffix.** -/
theorem wildcard_most_specific_first (rt : Runtime) (records : Zone) (b : Blocklist) (name : Text) :
    (∀ r, records.lookup name = some r → Dns.lookup records name = some r) ∧
    (records.lookup name = none → ∀ r, Dns.lookup records name = some r ↔
      ∃ s, WildcardHit (fun key => records.lookup key) name s r) ∧
    (Dns.lookup records name = none ↔ name ∉ records ∧ ∀ s, ('.' :: s) <:+ name → wildcard s ∉ records) ∧
    ((∀ key, key ∈ records ↔ key ∈ b.entries) →
      (b.isBlocked rt name = true ↔ (Dns.lookup records (rt.toLowercase name)).isSome)) ∧
    (∀ s, wildcard s ∈ b.entries → ('.' :: s) <:+ rt.toLowercase name → b.isBlocked rt name = true) ∧
    (∀ s, Blocklist.isBlocked rt ⟨[wildcard s]⟩ name = true ↔ ('.' :: s) <:+ rt.toLowercase name) ∧
    (∀ s, rt.toLowercase name = s → Blocklist.isBlocked rt ⟨[wildcard s]⟩ name = false) := by
  have hsingle : ∀ s, Blocklist.isBlocked rt ⟨[wildcard s]⟩ name = true ↔ ('.' :: s) <:+ rt.toLowercase name := by
    intro s
    rw [Blocklist.isBlocked_iff]
    simp only [List.mem_singleton]
    constructor
    · rintro (h | ⟨s', hs', heq⟩)
      · rw [h]
        exact suffix_wildcard s
      · obtain rfl : s' = s := by simpa [wildcard] using heq
        exact hs'
    · exact fun h => .inr ⟨s, h, rfl⟩
  refine ⟨fun r => lookup_of_entry, fun h r => lookup_of_no_entry h, lookup_eq_none, fun hkeys => ?_,
    fun s hs hname => Blocklist.isBlocked_iff.mpr (.inr ⟨s, hname, hs⟩), hsingle, ?_⟩
  · simp only [Blocklist.isBlocked_iff, lookup_isSome, hkeys]
  · rintro s rfl
    rw [Bool.eq_false_iff, Ne, hsingle]
    exact fun h => absurd h.length_le (Nat.not_succ_le_self _)

/-! ## The closest encloser -/

/-- Some owner of the zone is the name or is below it. -/
def Present (records : Zone) (name : Text) : Prop := ∃ owner ∈ records, MatchesSuffix owner name

def AnsweredFrom (records : Zone) (name s : Text) : Prop :=
  records.lookup name = none ∧ ∃ r, Dns.lookup records name = some r ∧
    WildcardHit (fun key => records.lookup key) name s r

/-- A wildcard that answers the name has nothing present between its suffix and the name. -/
def RespectsEncloser (records : Zone) (name : Text) : Prop :=
  ∀ s, AnsweredFrom records name s → ∀ between, MatchesSuffix name between → ('.' :: s) <:+ between →
    ¬ Present records between

structure ClosestEncloser (records : Zone) (name e : Text) : Prop where
  above : MatchesSuffix name e
  present : Present records e
  closest : ∀ a, MatchesSuffix name a → Present records a → a.length ≤ e.length

/-- At the closest encloser there is a wildcard for the name, or there is none further up. -/
def WildcardAtEncloser (records : Zone) (name : Text) : Prop :=
  ∀ e, ClosestEncloser records name e →
    e ≠ name ∧ wildcard e ∈ records ∨ ∀ s, ('.' :: s) <:+ e → wildcard s ∉ records

section Encloser
variable {records : Zone} {name : Text}

theorem present_of_wildcard {s : Text} (h : wildcard s ∈ records) : Present records s :=
  ⟨wildcard s, h, .inr (suffix_wildcard s)⟩

theorem exists_closestEncloser {a : Text} (ha : MatchesSuffix name a) (hpresent : Present records a) :
    ∃ e, ClosestEncloser records name e ∧ a <:+ e := by
  classical
  let P : ℕ → Prop := fun n => ∃ e, MatchesSuffix name e ∧ Present records e ∧ e.length = n
  have hP : P a.length := ⟨a, ha, hpresent, rfl⟩
  have hbound : ∀ {e}, MatchesSuffix name e → e.length ≤ name.length := fun h => h.suffix.length_le
  obtain ⟨e, he, hpe, hlen⟩ := Nat.findGreatest_spec (hbound ha) hP
  have hclosest : ∀ b, MatchesSuffix name b → Present records b → b.length ≤ e.length := by
    intro b hb hpb
    rw [hlen]
    exact Nat.le_findGreatest (hbound hb) ⟨b, hb, hpb, rfl⟩
  exact ⟨e, ⟨he, hpe, hclosest⟩, List.suffix_of_suffix_length_le ha.suffix he.suffix (hclosest a ha hpresent)⟩

theorem answeredFrom_of_wildcard (hname : name ∉ records) {s : Text} (hs : ('.' :: s) <:+ name)
    (hmem : wildcard s ∈ records) : ∃ s', AnsweredFrom records name s' ∧ s.length ≤ s'.length := by
  have hnone := AList.lookup_eq_none.mpr hname
  obtain ⟨r, hr⟩ := Option.isSome_iff_exists.mp (lookup_isSome.mpr (.inr ⟨s, hs, hmem⟩))
  obtain ⟨s', hhit⟩ := (lookup_of_no_entry hnone).mp hr
  exact ⟨s', ⟨hnone, r, hr, hhit⟩, hhit.longest s hs (mt AList.lookup_eq_none.mp (not_not.mpr hmem))⟩

theorem AnsweredFrom.mem {s : Text} (h : AnsweredFrom records name s) : wildcard s ∈ records := by
  obtain ⟨_, _, _, hhit⟩ := h
  exact mem_of_lookup hhit.entry

theorem AnsweredFrom.behind {s : Text} (h : AnsweredFrom records name s) : ('.' :: s) <:+ name := by
  obtain ⟨_, _, _, hhit⟩ := h
  exact hhit.behind

theorem AnsweredFrom.longest {s s' : Text} (h : AnsweredFrom records name s) (hs' : ('.' :: s') <:+ name)
    (hmem : wildcard s' ∈ records) : s'.length ≤ s.length := by
  obtain ⟨_, _, _, hhit⟩ := h
  exact hhit.longest s' hs' (mt AList.lookup_eq_none.mp (not_not.mpr hmem))

/-- The suffix of the wildcard that answers is the closest encloser, where that encloser is respected. -/
theorem AnsweredFrom.eq_encloser {s e : Text} (h : AnsweredFrom records name s)
    (hrespects : RespectsEncloser records name) (he : ClosestEncloser records name e) : e = s := by
  have hle := he.closest s (.inr h.behind) (present_of_wildcard h.mem)
  have hnot : ¬ ('.' :: s) <:+ e := fun hbelow => hrespects s h e he.above hbelow he.present
  obtain hbelow | habove := List.suffix_or_suffix_of_suffix h.behind he.above.suffix
  · exact absurd hbelow hnot
  · obtain rfl | habove := List.suffix_cons_iff.mp habove
    · exact absurd (List.suffix_refl _) hnot
    · exact habove.eq_of_length_le hle

/-- **A wildcard answers past a name that exists, unless the name asked for is an owner, or its closest
encloser has a wildcard for it, or no ancestor of that encloser has one.** -/
theorem respectsEncloser_iff (records : Zone) (name : Text) :
    RespectsEncloser records name ↔ name ∈ records ∨ WildcardAtEncloser records name := by
  constructor
  · intro hrespects
    by_cases hname : name ∈ records
    · exact .inl hname
    refine .inr fun e he => ?_
    by_contra hcon
    push Not at hcon
    obtain ⟨hencloser, s, hs, hmem⟩ := hcon
    -- a wildcard above the encloser makes some wildcard answer, and that one must be at the encloser
    obtain ⟨s', hfrom, _⟩ := answeredFrom_of_wildcard hname (hs.trans he.above.suffix) hmem
    obtain rfl := hfrom.eq_encloser hrespects he
    refine hencloser ?_ hfrom.mem
    rintro rfl
    exact absurd hfrom.behind.length_le (Nat.not_succ_le_self _)
  · rintro (hname | hwildcard) s hfrom between hbetween hbelow hpresent
    · exact AList.lookup_eq_none.mp hfrom.1 hname
    · obtain ⟨e, he, hsuffix⟩ := exists_closestEncloser hbetween hpresent
      -- the encloser is at least as long as what stands between, so a wildcard there would have come first
      have hbelow' := hbelow.trans hsuffix
      obtain ⟨hne, hmem⟩ | hnone := hwildcard e he
      · have hlen := hfrom.longest (he.above.resolve_left hne) hmem
        exact absurd (hbelow'.length_le.trans hlen) (Nat.not_succ_le_self _)
      · exact hnone s hbelow' hfrom.mem

end Encloser

def wildcardAndHost : Zone :=
  (∅ : Zone).insert ['*', '.', 's'] [.a ['*', '.', 's'] ⟨10, 0, 0, 1⟩ 60] |>.insert ['b', '.', 's']
    [.a ['b', '.', 's'] ⟨10, 0, 0, 2⟩ 60]

/-- `a.b.s` is answered from `*.s`, although `b.s` exists. -/
theorem wildcard_passes_existing_host :
    Dns.lookup wildcardAndHost ['a', '.', 'b', '.', 's'] = some [.a ['*', '.', 's'] ⟨10, 0, 0, 1⟩ 60] ∧
      ¬ RespectsEncloser wildcardAndHost ['a', '.', 'b', '.', 's'] := by
  have hlookup : Dns.lookup wildcardAndHost ['a', '.', 'b', '.', 's'] = some [.a ['*', '.', 's'] ⟨10, 0, 0, 1⟩ 60] := by
    decide
  refine ⟨hlookup, fun hrespects => ?_⟩
  have hnone : wildcardAndHost.lookup ['a', '.', 'b', '.', 's'] = none := by decide
  obtain ⟨s, hhit⟩ := (lookup_of_no_entry hnone).mp hlookup
  have hsuffix : s = ['b', '.', 's'] ∨ s = ['s'] := by
    simpa [List.suffix_cons_iff] using hhit.behind
  obtain rfl | rfl := hsuffix
  · exact absurd (mem_of_lookup hhit.entry) (by decide)
  · exact hrespects ['s'] ⟨hnone, _, hlookup, hhit⟩ ['b', '.', 's'] (.inr ⟨['a'], rfl⟩) ⟨['b'], rfl⟩
      ⟨['b', '.', 's'], by decide, .inl rfl⟩

end MiniDns
