import MiniDns.Config
import MiniDns.Lib.FirstMatch

/-! The zone and the forwarding rule that a name selects: the longest suffix that matches at a label
boundary, whatever the order in which zones and rules are given. -/
namespace MiniDns
open Lib Dns
set_option autoImplicit false

/-! ## Suffixes of a name -/

def MatchesSuffix (name suffix : Text) : Prop := suffix = name ∨ ('.' :: suffix) <:+ name

def MatchesOrigin (name origin : Text) : Prop := origin = [] ∨ MatchesSuffix name origin

/-- `a` matches, and no match in the list has a longer key. -/
structure Longest {α : Type} (key : α → Text) (Matches : Text → Prop) (l : List α) (a : α) : Prop where
  mem : a ∈ l
  hit : Matches (key a)
  longest : ∀ b ∈ l, Matches (key b) → Longer key a b

theorem underSuffix_iff {name suffix : Text} : underSuffix name suffix = true ↔ MatchesSuffix name suffix := by
  rw [underSuffix, Bool.or_eq_true, beq_iff_eq, List.isSuffixOf_iff_suffix, MatchesSuffix, eq_comm]

theorem find_iff {name origin : Text} :
    (origin.isEmpty || underSuffix name origin) = true ↔ MatchesOrigin name origin := by
  rw [Bool.or_eq_true, List.isEmpty_iff, underSuffix_iff, MatchesOrigin]

theorem MatchesSuffix.suffix {name suffix : Text} (h : MatchesSuffix name suffix) : suffix <:+ name := by
  obtain rfl | h := h
  · exact List.suffix_refl _
  · exact (List.suffix_cons _ _).trans h

theorem MatchesOrigin.suffix {name origin : Text} (h : MatchesOrigin name origin) : origin <:+ name := by
  obtain rfl | h := h
  · exact List.nil_suffix
  · exact h.suffix

theorem eq_of_suffix_of_length {a b name : Text} (ha : a <:+ name) (hb : b <:+ name)
    (h : (utf8 a).length = (utf8 b).length) : a = b := by
  refine eq_of_suffix_of_weight (fun s => (utf8 s).length) ?_ ha hb h
  intro front s hfront
  have hpos := List.length_pos_iff.mpr (mt utf8_eq_nil.mp hfront)
  rw [utf8_append, List.length_append]
  omega

/-! ## The first match of the sorted list -/

section Sorted
variable {α : Type} {key : α → Text} {Matches : Text → Prop} {p : α → Bool} {l : List α}

theorem longest_of_find? (hp : ∀ a, p a = true ↔ Matches (key a)) {a : α}
    (h : (l.insertionSort (Longer key)).find? p = some a) : Longest key Matches l a where
  mem := (List.mem_insertionSort _).mp (List.mem_of_find?_eq_some h)
  hit := (hp a).mp (List.find?_some h)
  longest b hb hit :=
    weight_le_of_find? (List.pairwise_insertionSort (Longer key) l) h b ((List.mem_insertionSort _).mpr hb)
      ((hp b).mpr hit)

theorem find?_insertionSort_eq_none (hp : ∀ a, p a = true ↔ Matches (key a)) :
    (l.insertionSort (Longer key)).find? p = none ↔ ∀ a ∈ l, ¬ Matches (key a) := by
  rw [List.find?_eq_none]
  refine forall_congr' fun a => ?_
  rw [List.mem_insertionSort, hp]

theorem find?_insertionSort_of_perm (hp : ∀ a, p a = true ↔ Matches (key a)) {name : Text}
    (hsuffix : ∀ s, Matches s → s <:+ name) {l' : List α} (hperm : l.Perm l') (hkeys : (l.map key).Nodup) :
    (l'.insertionSort (Longer key)).find? p = (l.insertionSort (Longer key)).find? p := by
  have hsort := List.perm_insertionSort (Longer key) l
  symm
  refine find?_eq_of_perm (fun a => (utf8 (key a)).length) (List.pairwise_insertionSort (Longer key) l)
    (List.pairwise_insertionSort (Longer key) l')
    (hsort.trans (hperm.trans (List.perm_insertionSort (Longer key) l').symm)) ?_
  intro a ha b hb hpa hpb hlen
  have hsame := eq_of_suffix_of_length (hsuffix _ ((hp a).mp hpa)) (hsuffix _ ((hp b).mp hpb)) hlen
  exact List.inj_on_of_nodup_map hkeys (hsort.mem_iff.mp ha) (hsort.mem_iff.mp hb) hsame

end Sorted

/-! ## Zones and rules -/

theorem ZoneSet.find_longest {zones : List AuthZone} {name : Text} {z : AuthZone}
    (h : (ZoneSet.new zones).find name = some z) : Longest AuthZone.origin (MatchesOrigin name) zones z :=
  longest_of_find? (fun _ => find_iff) h

theorem ZoneSet.matches_of_find {zs : ZoneSet} {name : Text} {z : AuthZone} (h : zs.find name = some z) :
    z ∈ zs.zones ∧ MatchesOrigin name z.origin :=
  ⟨List.mem_of_find?_eq_some h,
    find_iff.mp (List.find?_some (p := fun z : AuthZone => z.origin.isEmpty || underSuffix name z.origin) h)⟩

theorem ZoneSet.find_eq_none {zones : List AuthZone} {name : Text} :
    (ZoneSet.new zones).find name = none ↔ ∀ z ∈ zones, ¬ MatchesOrigin name z.origin :=
  find?_insertionSort_eq_none fun _ => find_iff

theorem ForwardRules.matchName_of_none {rules : List ForwardRule} {name : Text} (default : Option SocketAddr)
    (h : ∀ r ∈ rules, ¬ MatchesSuffix name r.suffix) : (ForwardRules.new default rules).matchName name = default := by
  have hfind : (ForwardRules.new default rules).rules.find? (fun r => underSuffix name r.suffix) = Option.none :=
    (find?_insertionSort_eq_none fun _ => underSuffix_iff).mpr h
  rw [matchName, hfind]
  rfl

theorem ForwardRules.matchName_longest {rules : List ForwardRule} {name : Text} (default : Option SocketAddr)
    (h : ∃ r ∈ rules, MatchesSuffix name r.suffix) : ∃ r, Longest ForwardRule.suffix (MatchesSuffix name) rules r ∧
      (ForwardRules.new default rules).matchName name = some r.upstream := by
  cases hfind : (ForwardRules.new default rules).rules.find? (fun r => underSuffix name r.suffix) with
  | none =>
    obtain ⟨r, hr, hit⟩ := h
    exact absurd hit ((find?_insertionSort_eq_none fun _ => underSuffix_iff).mp hfind r hr)
  | some r =>
    refine ⟨r, longest_of_find? (fun _ => underSuffix_iff) hfind, ?_⟩
    rw [matchName, hfind]

theorem ForwardRules.rules_withDefault (r : ForwardRules) (default : SocketAddr) :
    (r.withDefault default).rules = r.rules := List.Pairwise.insertionSort_eq r.sorted

theorem ForwardRules.matchName_withDefault (r : ForwardRules) (default : SocketAddr) (name : Text) :
    ((∃ rule ∈ r.rules, MatchesSuffix name rule.suffix) →
      (r.withDefault default).matchName name = r.matchName name) ∧
    ((∀ rule ∈ r.rules, ¬ MatchesSuffix name rule.suffix) →
      (r.withDefault default).matchName name = some default) := by
  refine ⟨?_, matchName_of_none (some default)⟩
  rintro ⟨rule, hrule, hit⟩
  rw [matchName, matchName, rules_withDefault]
  cases hfind : r.rules.find? (fun rule => underSuffix name rule.suffix) with
  | none => exact absurd (underSuffix_iff.mpr hit) (List.find?_eq_none.mp hfind rule hrule)
  | some rule => rfl

/-- **A name selects the zone and the rule with the longest suffix that matches at a label boundary; the
order in which they are given does not matter if their suffixes are distinct, and a default upstream is
for the names that no rule matches.** -/
theorem longest_suffix_selected (zones : List AuthZone) (default : Option SocketAddr) (rules : List ForwardRule)
    (name : Text) :
    ((ZoneSet.new zones).find name = none ↔ ∀ z ∈ zones, ¬ MatchesOrigin name z.origin) ∧
    (∀ z, (ZoneSet.new zones).find name = some z → Longest AuthZone.origin (MatchesOrigin name) zones z) ∧
    ((∀ r ∈ rules, ¬ MatchesSuffix name r.suffix) → (ForwardRules.new default rules).matchName name = default) ∧
    ((∃ r ∈ rules, MatchesSuffix name r.suffix) →
      ∃ r, Longest ForwardRule.suffix (MatchesSuffix name) rules r ∧
        (ForwardRules.new default rules).matchName name = some r.upstream) ∧
    (∀ zones', zones.Perm zones' → (zones.map AuthZone.origin).Nodup →
      (ZoneSet.new zones').find name = (ZoneSet.new zones).find name) ∧
    (∀ rules', rules.Perm rules' → (rules.map ForwardRule.suffix).Nodup →
      (ForwardRules.new default rules').matchName name = (ForwardRules.new default rules).matchName name) ∧
    (∀ (r : ForwardRules) (fallback : SocketAddr),
      ((∃ rule ∈ r.rules, MatchesSuffix name rule.suffix) →
        (r.withDefault fallback).matchName name = r.matchName name) ∧
      ((∀ rule ∈ r.rules, ¬ MatchesSuffix name rule.suffix) →
        (r.withDefault fallback).matchName name = some fallback)) := by
  refine ⟨ZoneSet.find_eq_none, fun z => ZoneSet.find_longest, ForwardRules.matchName_of_none default,
    ForwardRules.matchName_longest default, ?_, ?_, fun r fallback => r.matchName_withDefault fallback name⟩
  · intro zones' hperm hkeys
    exact find?_insertionSort_of_perm (fun _ => find_iff) (fun _ h => MatchesOrigin.suffix h) hperm hkeys
  · intro rules' hperm hkeys
    have hfind : (ForwardRules.new default rules').rules.find? (fun r => underSuffix name r.suffix) =
        (ForwardRules.new default rules).rules.find? fun r => underSuffix name r.suffix :=
      find?_insertionSort_of_perm (fun _ => underSuffix_iff) (fun _ h => MatchesSuffix.suffix h) hperm hkeys
    rw [ForwardRules.matchName, ForwardRules.matchName, hfind]
    rfl

/-- The label boundary counts: `notco` is not under `co`, and `a.co` is. -/
example : (ZoneSet.new [⟨['c', 'o'], ∅⟩]).find ['n', 'o', 't', 'c', 'o'] = none ∧
    ((ZoneSet.new [⟨[], ∅⟩, ⟨['c', 'o'], ∅⟩]).find ['a', '.', 'c', 'o']).map AuthZone.origin = some ['c', 'o'] := by
  decide

end MiniDns
