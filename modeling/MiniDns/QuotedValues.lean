import MiniDns.ZoneFile

/-! Quoted values of a zone file. A line is cut at white space and its fields are joined again by single
blanks before the quotes are taken off, so a quoted value keeps single blanks only. -/
namespace MiniDns
open Lib Lib.Outcome Dns
set_option autoImplicit false

/-! ## Lines with a quoted value -/

/-- `owner ttl TXT "text"` -/
def txtLine (owner ttl text : Text) : Text :=
  owner ++ ' ' :: (ttl ++ ' ' :: (['T', 'X', 'T'] ++ ' ' :: '\x22' :: (text ++ ['\x22'])))

/-- `owner ttl CAA flags tag "value"` -/
def caaLine (owner ttl flags tag value : Text) : Text :=
  owner ++ ' ' :: (ttl ++ ' ' :: (['C', 'A', 'A'] ++ ' ' :: (flags ++ ' ' :: (tag ++ ' ' :: '\x22' ::
    (value ++ ['\x22'])))))

/-! ## What is loaded -/

section Line
variable {rt : Runtime} {path line owner ttl text : Text} {seconds : UInt32}

/-- A file of one line that is no comment and has nothing to trim. -/
theorem lookup_of_line {c : Char} {k : Text} {r : DnsRecord} (hfirst : line.head? = some c)
    (hc : isWhitespace c = false) (hsemi : c ≠ ';') (hlast : line.getLast? = some '\x22') (hunbroken : '\n' ∉ line)
    (hparse : parseLine rt line = .ok (some (k, r))) : (loadZoneFile rt path line).zone.lookup k = some [r] := by
  have hne : line ≠ [] := by
    rintro rfl
    cases hfirst
  have htrim : trim line = line := trimBy_of_ends (by simpa [hfirst] using hc) (by simp [hlast]; decide)
  have hrecord : lineRecord rt line = some (k, r) := by
    rw [lineRecord, htrim, if_neg (by simp [hne, hfirst, hsemi]), hparse]
    rfl
  have hfile : fileRecords rt line = [(k, r)] := by
    rw [fileRecords, lines_of_unbroken hne hunbroken, List.filterMap_cons, hrecord]
    rfl
  rw [lookup_loadZoneFile, hfile]
  simp [valuesOf]

/-- What becomes of a quoted value: its runs of white space are collapsed. -/
theorem trimMatches_joinSpaces_quoted (h : '\x22' ∉ text) :
    trimMatches '\x22' (joinSpaces (splitWhitespace ('\x22' :: (text ++ ['\x22'])))) = collapse false text := by
  have hquote : isWhitespace '\x22' = false := by decide
  rw [(joinSpaces_splitWhitespace hquote text).2 _ hquote, trimMatches_quoted]
  intro hmem
  rcases mem_collapse hmem with heq | hmem
  · cases heq
  · exact h hmem

theorem exists_splitWhitespace_quoted (text : Text) :
    ∃ first rest, splitWhitespace ('\x22' :: (text ++ ['\x22'])) = first :: rest := by
  have hquote : isWhitespace '\x22' = false := by decide
  refine List.exists_cons_of_ne_nil fun hnil => ?_
  have hjoin := (joinSpaces_splitWhitespace hquote text).2 _ hquote
  rw [hnil] at hjoin
  cases hjoin

theorem parseLine_of_fields {recordType first : Text} {rest : List Text} {kind : ZoneType} {r : DnsRecord}
    (hfields : splitWhitespace line = owner :: ttl :: recordType :: first :: rest)
    (hseconds : parseU32 ttl = some seconds)
    (hkind : ZoneType.ofText recordType = some kind)
    (hdata : parseData (stripTrailingDot (rt.toLowercase owner)) seconds (first :: rest) kind = .ok r) :
    parseLine rt line = .ok (some (stripTrailingDot (rt.toLowercase owner), r)) := by
  simp only [parseLine, hfields, ofOption, hseconds, hkind]
  exact bind_eq_ok.mpr ⟨seconds, rfl, bind_eq_ok.mpr ⟨r, hdata, rfl⟩⟩

theorem parseLine_txtLine (howner : IsField owner) (httl : IsField ttl) (hseconds : parseU32 ttl = some seconds)
    (htext : '\x22' ∉ text) :
    parseLine rt (txtLine owner ttl text) = .ok (some (stripTrailingDot (rt.toLowercase owner),
      .txt (stripTrailingDot (rt.toLowercase owner)) (collapse false text) seconds)) := by
  have hblank : isWhitespace ' ' = true := by decide
  obtain ⟨first, rest, hvalue⟩ := exists_splitWhitespace_quoted text
  have hfields : splitWhitespace (txtLine owner ttl text) = owner :: ttl :: ['T', 'X', 'T'] :: first :: rest := by
    rw [txtLine, splitWhitespace_field howner hblank, splitWhitespace_field httl hblank,
      splitWhitespace_field (by decide) hblank, hvalue]
  refine parseLine_of_fields hfields hseconds rfl ?_
  rw [← trimMatches_joinSpaces_quoted htext, hvalue]
  rfl

theorem parseLine_caaLine {flags tag : Text} {n : UInt8} (howner : IsField owner) (httl : IsField ttl)
    (hseconds : parseU32 ttl = some seconds) (hflags : IsField flags) (hn : parseU8 flags = some n) (htag : IsField tag)
    (htext : '\x22' ∉ text) :
    parseLine rt (caaLine owner ttl flags tag text) = .ok (some (stripTrailingDot (rt.toLowercase owner),
      .caa (stripTrailingDot (rt.toLowercase owner)) n tag (collapse false text) seconds)) := by
  have hblank : isWhitespace ' ' = true := by decide
  obtain ⟨first, rest, hvalue⟩ := exists_splitWhitespace_quoted text
  have hfields : splitWhitespace (caaLine owner ttl flags tag text) =
      owner :: ttl :: ['C', 'A', 'A'] :: flags :: tag :: first :: rest := by
    rw [caaLine, splitWhitespace_field howner hblank, splitWhitespace_field httl hblank,
      splitWhitespace_field (by decide) hblank, splitWhitespace_field hflags hblank, splitWhitespace_field htag hblank,
      hvalue]
  refine parseLine_of_fields hfields hseconds rfl ?_
  simp only [parseData, ofOption, hn]
  rw [← trimMatches_joinSpaces_quoted htext, hvalue]
  rfl

end Line

structure IsOwner (owner : Text) : Prop where
  field : IsField owner
  noComment : owner.head? ≠ some ';'

theorem newline_not_mem {t : Text} (h : IsField t) : '\n' ∉ t := fun hmem => by
  have hwhite := h.2 _ hmem
  exact absurd hwhite (by decide)

section Lines
variable {rt : Runtime} {path owner ttl flags tag text : Text} {seconds : UInt32} {n : UInt8}

/-- An owner has a first character, which is neither white space nor the start of a comment. -/
theorem IsOwner.exists_cons (h : IsOwner owner) :
    ∃ c cs, owner = c :: cs ∧ isWhitespace c = false ∧ c ≠ ';' := by
  obtain ⟨⟨hne, hfield⟩, hsemi⟩ := h
  obtain ⟨c, cs, rfl⟩ := List.exists_cons_of_ne_nil hne
  exact ⟨c, cs, rfl, hfield c List.mem_cons_self, fun heq => hsemi (congrArg some heq)⟩

theorem lookup_txtLine (howner : IsOwner owner) (httl : IsField ttl) (hseconds : parseU32 ttl = some seconds)
    (hquote : '\x22' ∉ text) (hbreak : '\n' ∉ text) :
    (loadZoneFile rt path (txtLine owner ttl text)).zone.lookup (stripTrailingDot (rt.toLowercase owner)) =
      some [.txt (stripTrailingDot (rt.toLowercase owner)) (collapse false text) seconds] := by
  have hline : parseLine rt (txtLine owner ttl text) = _ := parseLine_txtLine howner.field httl hseconds hquote
  have := newline_not_mem howner.field
  have := newline_not_mem httl
  obtain ⟨c, cs, rfl, hc, hsemi⟩ := howner.exists_cons
  refine lookup_of_line rfl hc hsemi ?_ ?_ hline
  · exact List.getLast?_eq_some_iff.mpr
      ⟨(c :: cs) ++ ' ' :: (ttl ++ ' ' :: (['T', 'X', 'T'] ++ ' ' :: '\x22' :: text)), by simp [txtLine]⟩
  · simp_all [txtLine]

theorem lookup_caaLine (howner : IsOwner owner) (httl : IsField ttl) (hseconds : parseU32 ttl = some seconds)
    (hflags : IsField flags) (hn : parseU8 flags = some n) (htag : IsField tag) (hquote : '\x22' ∉ text)
    (hbreak : '\n' ∉ text) :
    (loadZoneFile rt path (caaLine owner ttl flags tag text)).zone.lookup (stripTrailingDot (rt.toLowercase owner)) =
      some [.caa (stripTrailingDot (rt.toLowercase owner)) n tag (collapse false text) seconds] := by
  have hline : parseLine rt (caaLine owner ttl flags tag text) = _ :=
    parseLine_caaLine howner.field httl hseconds hflags hn htag hquote
  have := newline_not_mem howner.field
  have := newline_not_mem httl
  have := newline_not_mem hflags
  have := newline_not_mem htag
  obtain ⟨c, cs, rfl, hc, hsemi⟩ := howner.exists_cons
  refine lookup_of_line rfl hc hsemi ?_ ?_ hline
  · exact List.getLast?_eq_some_iff.mpr
      ⟨(c :: cs) ++ ' ' :: (ttl ++ ' ' :: (['C', 'A', 'A'] ++ ' ' :: (flags ++ ' ' :: (tag ++ ' ' :: '\x22' ::
        text)))), by simp [caaLine]⟩
  · simp_all [caaLine]

end Lines

/-- **A quoted value is loaded as it stands exactly when its white space is single blanks.** -/
theorem quoted_values_verbatim_iff (rt : Runtime) (path owner ttl flags tag text : Text) (seconds : UInt32) (n : UInt8)
    (howner : IsOwner owner) (httl : IsField ttl) (hseconds : parseU32 ttl = some seconds)
    (hflags : IsField flags) (hn : parseU8 flags = some n) (htag : IsField tag)
    (hquote : '\x22' ∉ text) (hbreak : '\n' ∉ text) :
    let domain := stripTrailingDot (rt.toLowercase owner)
    ((loadZoneFile rt path (txtLine owner ttl text)).zone.lookup domain = some [.txt domain text seconds] ↔
        SingleBlanks text) ∧
      ((loadZoneFile rt path (caaLine owner ttl flags tag text)).zone.lookup domain =
        some [.caa domain n tag text seconds] ↔ SingleBlanks text) := by
  intro domain
  -- both lines load with the collapsed text, so the text has to be its own collapse
  rw [lookup_txtLine howner httl hseconds hquote hbreak, lookup_caaLine howner httl hseconds hflags hn htag hquote hbreak,
    ← (collapse_eq_self text).1]
  simp [domain]

theorem quoted_values_verbatim_blanks :
    ((loadZoneFile .ascii ['z'] "a 60 TXT \x22 v b \x22".toList).zone.lookup ['a'] =
      some [.txt ['a'] " v b ".toList 60]) ∧
    (loadZoneFile .ascii ['z'] "a 60 CAA 0 issue \x22 v b \x22".toList).zone.lookup ['a'] =
      some [.caa ['a'] 0 "issue".toList " v b ".toList 60] := by
  have h := quoted_values_verbatim_iff .ascii ['z'] ['a'] ['6', '0'] ['0'] "issue".toList " v b ".toList 60 0
    ⟨by decide, by decide⟩ (by decide) (by decide) (by decide) (by decide) (by decide) (by decide) (by decide)
  have hblanks : SingleBlanks " v b ".toList := by
    refine ⟨by simp [isWhitespace], ?_⟩
    simp
    decide
  exact ⟨h.1.mpr hblanks, h.2.mpr hblanks⟩

/-- Two blanks in a quoted text are loaded as one, and so is a tab in a quoted value. -/
theorem quoted_blanks_collapsed :
    ((loadZoneFile .ascii ['z'] (txtLine ['a'] ['6', '0'] ['v', ' ', ' ', 'b'])).zone.lookup ['a'] =
      some [.txt ['a'] ['v', ' ', 'b'] 60]) ∧
    (loadZoneFile .ascii ['z'] (caaLine ['a'] ['6', '0'] ['0'] ['t'] ['v', '\t', 'b'])).zone.lookup ['a'] =
      some [.caa ['a'] 0 ['t'] ['v', ' ', 'b'] 60] := by
  decide

end MiniDns
