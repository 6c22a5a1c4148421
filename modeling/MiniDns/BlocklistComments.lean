import MiniDns.Settings
import MiniDns.Wildcards
import Mathlib.Data.Set.Basic

/-! Comments in a blocklist file. A line that begins with `;` or `#` is a comment. A comment behind a domain is
taken for a part of it, and the line is dropped as invalid. -/
namespace MiniDns
open Lib
set_option autoImplicit false

/-! ## Lines and comments -/

def isMark (c : Char) : Bool := c == ';' || c == '#'

def Commented (line : Text) : Prop := ∃ c ∈ line, isMark c = true

/-- A line up to its first mark, without the blanks around it. -/
def uncomment (line : Text) : Text := trim (line.takeWhile fun c => !isMark c)

/-- The loop of `load_blocklist_file` over lines. -/
def loadBlocklistLines (rt : Runtime) (path : Text) (ls : List Text) : BlocklistLoad :=
  ls.zipIdx.foldl (loadBlocklistLine rt path) ⟨[], []⟩

/-- The line lists the domain: it is no comment, and its text in lower case is the domain, which is valid. -/
structure Lists (rt : Runtime) (line domain : Text) : Prop where
  text : trim line ≠ []
  unmarked : ∀ c ∈ (trim line).head?, isMark c = false
  lower : rt.toLowercase (trim line) = domain
  valid : isValidDomain domain = true

/-- A domain stands for itself, a wildcard for the names below it. -/
def Covers (domain name : Text) : Prop := name = domain ∨ ∃ s, domain = wildcard s ∧ ('.' :: s) <:+ name

/-- Lower-casing keeps the characters that begin a comment. -/
def Runtime.KeepsMarks (rt : Runtime) : Prop := ∀ s, ∀ c ∈ s, isMark c = true → c ∈ rt.toLowercase s

theorem keepsMarks_ascii : Runtime.ascii.KeepsMarks := by
  intro s c hc hmark
  refine List.mem_map.mpr ⟨c, hc, ?_⟩
  obtain rfl | rfl : c = ';' ∨ c = '#' := by simpa [isMark] using hmark
  · rfl
  · rfl

/-! ## What each line adds -/

section Lines
variable {rt : Runtime} {path line domain : Text} {ls : List Text} {load : BlocklistLoad}

theorem marked_iff {s : Text} : s.head? = some ';' ∨ s.head? = some '#' ↔ ∃ c ∈ s.head?, isMark c = true := by
  cases s with
  | nil => simp
  | cons c s => simp [isMark]

theorem ne_nil_of_isValidDomain (h : isValidDomain domain = true) : domain ≠ [] := by
  rintro rfl
  cases h

theorem mem_entries_loadBlocklistLine (n : ℕ) :
    domain ∈ (loadBlocklistLine rt path load (line, n)).entries ↔ Lists rt line domain ∨ domain ∈ load.entries := by
  unfold loadBlocklistLine
  dsimp only
  split
  · rename_i hskip
    refine ⟨.inr, fun h => h.resolve_left fun hlists => ?_⟩
    obtain hnil | hmark := hskip
    · exact hlists.text hnil
    · obtain ⟨c, hc, hmark⟩ := marked_iff.mp hmark
      rw [hlists.unmarked c hc] at hmark
      cases hmark
  · rename_i hskip
    obtain ⟨htext, hmark⟩ := not_or.mp hskip
    have hunmarked : ∀ c ∈ (trim line).head?, isMark c = false := by
      intro c hc
      by_contra hne
      exact hmark (marked_iff.mpr ⟨c, hc, by simpa using hne⟩)
    split
    · rename_i hnil
      refine ⟨.inr, fun h => h.resolve_left fun hlists => ?_⟩
      exact ne_nil_of_isValidDomain hlists.valid (hlists.lower.symm.trans hnil)
    · split
      · rename_i hvalid
        rw [List.mem_insert_iff]
        refine or_congr_left ⟨?_, fun hlists => hlists.lower.symm⟩
        rintro rfl
        exact ⟨htext, hunmarked, rfl, hvalid⟩
      · rename_i hvalid
        refine ⟨.inr, fun h => h.resolve_left fun hlists => hvalid ?_⟩
        rw [hlists.lower]
        exact hlists.valid

theorem mem_entries_foldl (ls : List Text) (n : ℕ) (load : BlocklistLoad) :
    domain ∈ ((ls.zipIdx n).foldl (loadBlocklistLine rt path) load).entries ↔
      (∃ line ∈ ls, Lists rt line domain) ∨ domain ∈ load.entries := by
  induction ls generalizing n load with
  | nil => simp
  | cons line ls ih =>
    rw [List.zipIdx_cons, List.foldl_cons, ih, mem_entries_loadBlocklistLine, List.exists_mem_cons_iff, or_assoc,
      or_left_comm]

theorem mem_entries_loadBlocklistLines :
    domain ∈ (loadBlocklistLines rt path ls).entries ↔ ∃ line ∈ ls, Lists rt line domain := by
  rw [loadBlocklistLines, mem_entries_foldl]
  simp

end Lines

/-! ## Lines without their comments -/

section Comments
variable {rt : Runtime} {path content line domain : Text}

theorem not_isMark_of_isValidDomain {c : Char} (h : isValidDomain domain = true) (hc : c ∈ domain) :
    isMark c = false := by
  have hdot : c ≠ '.' ∨ c = '.' := (em _).symm
  obtain hne | rfl := hdot
  · obtain ⟨l, hl, hcl⟩ := exists_mem_splitDots hc hne
    simp only [isValidDomain, Bool.and_eq_true, List.all_eq_true] at h
    have hall := (h.2 l hl).2
    -- a mark is no letter, digit, hyphen or star
    have hother : c = '*' ∨ c.isAlphanum = true ∨ c = '-' := by
      unfold readChar at hall
      split at hall
      · rename_i hstar
        obtain ⟨rest, rfl⟩ := List.head?_eq_some_iff.mp hstar
        obtain rfl | hcl := List.mem_cons.mp hcl
        · exact .inl rfl
        · exact .inr (by simpa using hall c hcl)
      · exact .inr (by simpa using hall c hcl)
    rw [Bool.eq_false_iff]
    intro hmark
    obtain rfl | rfl : c = ';' ∨ c = '#' := by simpa [isMark] using hmark
    · exact absurd hother (by decide)
    · exact absurd hother (by decide)
  · rfl

theorem not_isWhitespace_of_isMark {c : Char} (h : isMark c = true) : isWhitespace c = false := by
  obtain rfl | rfl : c = ';' ∨ c = '#' := by simpa [isMark] using h
  · rfl
  · rfl

/-- A line with a comment in it lists nothing. -/
theorem Lists.not_commented (hrt : rt.KeepsMarks) (h : Lists rt line domain) : ¬ Commented line := by
  rintro ⟨c, hc, hmark⟩
  have htrim : c ∈ trim line := mem_trimBy hc (not_isWhitespace_of_isMark hmark)
  have hlower := hrt _ c htrim hmark
  rw [h.lower] at hlower
  rw [not_isMark_of_isValidDomain h.valid hlower] at hmark
  cases hmark

theorem uncomment_of_not_commented (h : ¬ Commented line) : uncomment line = trim line := by
  have hall : line.takeWhile (fun c => !isMark c) = line := by
    rw [List.takeWhile_eq_self_iff]
    intro c hc
    rw [Bool.not_eq_true']
    exact Bool.eq_false_iff.mpr fun hmark => h ⟨c, hc, hmark⟩
  rw [uncomment, hall]

theorem lists_uncomment_iff (h : ¬ Commented line) : Lists rt (uncomment line) domain ↔ Lists rt line domain := by
  have htrim : trim (uncomment line) = trim line := by
    rw [uncomment_of_not_commented h]
    exact trimBy_trimBy _ _
  constructor
  · rintro ⟨htext, hunmarked, hlower, hvalid⟩
    rw [htrim] at htext hunmarked hlower
    exact ⟨htext, hunmarked, hlower, hvalid⟩
  · rintro ⟨htext, hunmarked, hlower, hvalid⟩
    rw [← htrim] at htext hunmarked hlower
    exact ⟨htext, hunmarked, hlower, hvalid⟩

def domainSet (rt : Runtime) (path : Text) (ls : List Text) : Set Text :=
  { domain | domain ∈ (loadBlocklistLines rt path ls).entries }

theorem mem_domainSet {ls : List Text} : domain ∈ domainSet rt path ls ↔ ∃ line ∈ ls, Lists rt line domain :=
  mem_entries_loadBlocklistLines

theorem mem_domainSet_uncomment {ls : List Text} :
    domain ∈ domainSet rt path (ls.map uncomment) ↔ ∃ line ∈ ls, Lists rt (uncomment line) domain := by
  rw [mem_domainSet]
  simp only [List.mem_map, exists_exists_and_eq_and]

/-- Comments never disarm the list: the file loads the set that it loads without its comments, what a line
lists in front of its comment is blocked, and each line adds its own domain whatever the others are. -/
structure CommentsHarmless (rt : Runtime) (path content : Text) : Prop where
  sameSet : { domain | domain ∈ (loadBlocklistFile rt path content).entries } =
    domainSet rt path ((lines content).map uncomment)
  blocks : ∀ line ∈ lines content, ∀ domain, Lists rt (uncomment line) domain → ∀ name,
    Covers domain (rt.toLowercase name) →
      (Blocklist.mk (loadBlocklistFile rt path content).entries).isBlocked rt name = true
  separate : ∀ front line back, lines content = front ++ line :: back →
    { domain | domain ∈ (loadBlocklistFile rt path content).entries } =
      domainSet rt path (front ++ back) ∪ { domain | Lists rt line domain }

/-- Each domain in front of a comment also stands on a line without one. -/
def CommentsRepeated (rt : Runtime) (content : Text) : Prop :=
  ∀ line ∈ lines content, Commented line → ∀ domain, Lists rt (uncomment line) domain →
    ∃ plain ∈ lines content, ¬ Commented plain ∧ Lists rt plain domain

theorem isBlocked_of_covers {entries : List Text} {name : Text} (hmem : domain ∈ entries)
    (hcovers : Covers domain (rt.toLowercase name)) : (Blocklist.mk entries).isBlocked rt name = true := by
  rw [Blocklist.isBlocked_iff]
  obtain rfl | ⟨s, rfl, hs⟩ := hcovers
  · exact .inl hmem
  · exact .inr ⟨s, hs, hmem⟩

theorem domainSet_separate (front : List Text) (line : Text) (back : List Text) :
    domainSet rt path (front ++ line :: back) =
      domainSet rt path (front ++ back) ∪ { domain | Lists rt line domain } := by
  ext domain
  rw [Set.mem_union, mem_domainSet, mem_domainSet, Set.mem_ofPred_eq]
  simp only [List.mem_append, List.mem_cons]
  constructor
  · rintro ⟨line', hmem | rfl | hmem, hlists⟩
    · exact .inl ⟨line', .inl hmem, hlists⟩
    · exact .inr hlists
    · exact .inl ⟨line', .inr hmem, hlists⟩
  · rintro (⟨line', hmem | hmem, hlists⟩ | hlists)
    · exact ⟨line', .inl hmem, hlists⟩
    · exact ⟨line', .inr (.inr hmem), hlists⟩
    · exact ⟨line, .inr (.inl rfl), hlists⟩

theorem sameSet_iff (hrt : rt.KeepsMarks) (path content : Text) :
    domainSet rt path (lines content) = domainSet rt path ((lines content).map uncomment) ↔
      CommentsRepeated rt content := by
  constructor
  · intro hsame line hline _ domain hlists
    have hmem : domain ∈ domainSet rt path ((lines content).map uncomment) :=
      mem_domainSet_uncomment.mpr ⟨line, hline, hlists⟩
    rw [← hsame] at hmem
    obtain ⟨plain, hplain, hlists⟩ := mem_domainSet.mp hmem
    exact ⟨plain, hplain, hlists.not_commented hrt, hlists⟩
  · intro hrepeated
    ext domain
    rw [mem_domainSet, mem_domainSet_uncomment]
    constructor
    · rintro ⟨line, hline, hlists⟩
      exact ⟨line, hline, (lists_uncomment_iff (hlists.not_commented hrt)).mpr hlists⟩
    · rintro ⟨line, hline, hlists⟩
      by_cases hcommented : Commented line
      · obtain ⟨plain, hplain, _, hlists⟩ := hrepeated line hline hcommented domain hlists
        exact ⟨plain, hplain, hlists⟩
      · exact ⟨line, hline, (lists_uncomment_iff hcommented).mp hlists⟩

end Comments

/-- **Comments leave a blocklist as it is exactly when each domain in front of a comment stands on another line
without one.** -/
theorem comments_harmless_iff (rt : Runtime) (hrt : rt.KeepsMarks) (path content : Text) :
    CommentsHarmless rt path content ↔ CommentsRepeated rt content := by
  rw [← sameSet_iff hrt path content]
  constructor
  · exact fun h => h.sameSet
  · intro hsame
    refine ⟨hsame, fun line hline domain hlists name hcovers => ?_, ?_⟩
    · have hmem : domain ∈ domainSet rt path ((lines content).map uncomment) :=
        mem_domainSet_uncomment.mpr ⟨line, hline, hlists⟩
      rw [← hsame] at hmem
      exact isBlocked_of_covers hmem hcovers
    · intro front line back hlines
      rw [← domainSet_separate, ← hlines]
      rfl

theorem comments_harmless_iff_repeated : CommentsRepeated .ascii "a # x\na".toList ∧
    CommentsHarmless .ascii [] "a # x\na".toList := by
  have hrepeated : CommentsRepeated .ascii "a # x\na".toList := by
    intro line hline hcommented domain hlists
    have hlines : lines "a # x\na".toList = ["a # x".toList, ['a']] := by decide
    have hplain : ¬ Commented ['a'] := by simp [Commented, isMark]
    rw [hlines] at hline ⊢
    obtain rfl | rfl : line = "a # x".toList ∨ line = ['a'] := by simpa using hline
    · obtain rfl : ['a'] = domain := hlists.lower
      exact ⟨['a'], by simp, hplain, by simp [trim, trimBy, isWhitespace], by simp [trim, trimBy, isWhitespace, isMark],
        by decide, by decide⟩
    · exact absurd hcommented hplain
  exact ⟨hrepeated, (comments_harmless_iff .ascii keepsMarks_ascii [] _).mpr hrepeated⟩

def documentedBlocklist : Text := "ads.example.net\n*.malware.example.org   # wildcard block".toList

/-- The documented wildcard is dropped for its comment, and nothing below it is blocked. -/
theorem documented_wildcard_dropped :
    (loadBlocklistFile .ascii [] documentedBlocklist).entries = ["ads.example.net".toList] ∧
      (Blocklist.mk (loadBlocklistFile .ascii [] documentedBlocklist).entries).isBlocked .ascii
        "x.malware.example.org".toList = false ∧
      "*.malware.example.org".toList ∈
        (loadBlocklistLines .ascii [] ((lines documentedBlocklist).map uncomment)).entries ∧
      ¬ CommentsHarmless .ascii [] documentedBlocklist := by
  have hloaded : (loadBlocklistFile .ascii [] documentedBlocklist).entries = ["ads.example.net".toList] := by
    decide +kernel
  have huncommented : "*.malware.example.org".toList ∈
      (loadBlocklistLines .ascii [] ((lines documentedBlocklist).map uncomment)).entries := by
    decide +kernel
  refine ⟨hloaded, by rw [hloaded]; decide, huncommented, fun h => ?_⟩
  have hmem : "*.malware.example.org".toList ∈
      { domain | domain ∈ (loadBlocklistFile .ascii [] documentedBlocklist).entries } :=
    h.sameSet ▸ huncommented
  rw [hloaded] at hmem
  exact absurd hmem (by decide)

end MiniDns
