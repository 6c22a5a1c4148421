import Mathlib.Data.List.Chain
import Mathlib.Data.List.DropRight
import MiniDns.Lib.Utf8

/-! Reading text: lines, fields between white space, decimal numbers and network addresses, as the standard
library of the code reads them. -/
namespace MiniDns.Lib
set_option autoImplicit false

/-! ## Lines and fields -/

/-- The characters with the property White_Space. -/
def isWhitespace (c : Char) : Bool :=
  let n := c.toNat
  (9 ≤ n && n ≤ 13) || n == 0x20 || n == 0x85 || n == 0xA0 || n == 0x1680 || (0x2000 ≤ n && n ≤ 0x200A) ||
    n == 0x2028 || n == 0x2029 || n == 0x202F || n == 0x205F || n == 0x3000

/-- `s.strip_suffix(c).unwrap_or(s)` -/
def stripSuffix (c : Char) (s : Text) : Text := if s.getLast? = some c then s.dropLast else s

/-- `s.lines()`: the pieces that end in `\n` or `\r\n`, and what is left behind the last one. -/
def lines (s : Text) : List Text :=
  let pieces := s.splitOn '\n'
  pieces.dropLast.map (stripSuffix '\r') ++ pieces.getLast?.toList.filter (· ≠ [])

def trimBy (p : Char → Bool) (s : Text) : Text := ((s.dropWhile p).reverse.dropWhile p).reverse

/-- `s.trim()` -/
def trim (s : Text) : Text := trimBy isWhitespace s

/-- `s.trim_matches(c)` -/
def trimMatches (c : Char) (s : Text) : Text := trimBy (· == c) s

/-- `s.split_whitespace()` -/
def splitWhitespace (s : Text) : List Text := (s.splitOnP isWhitespace).filter (· ≠ [])

/-- `parts.join(" ")` -/
def joinSpaces (parts : List Text) : Text := [' '].intercalate parts

theorem joinSpaces_singleton (t : Text) : joinSpaces [t] = t := by simp [joinSpaces]

theorem joinSpaces_cons {t : Text} {ts : List Text} (h : ts ≠ []) :
    joinSpaces (t :: ts) = t ++ ' ' :: joinSpaces ts := by
  obtain ⟨u, us, rfl⟩ := List.exists_cons_of_ne_nil h
  rw [joinSpaces, List.intercalate_cons_cons, List.append_assoc]
  rfl

theorem joinSpaces_extend (c : Char) (t : Text) (ts : List Text) :
    joinSpaces ((c :: t) :: ts) = c :: joinSpaces (t :: ts) := by
  cases ts with
  | nil => rw [joinSpaces_singleton, joinSpaces_singleton]
  | cons u us => rw [joinSpaces_cons (List.cons_ne_nil u us), joinSpaces_cons (List.cons_ne_nil u us), List.cons_append]

/-! ## Fields that are joined again -/

/-- A text that `split_whitespace` yields whole. -/
def IsField (t : Text) : Prop := t ≠ [] ∧ ∀ c ∈ t, isWhitespace c = false

instance (t : Text) : Decidable (IsField t) :=
  have : Decidable (∀ c ∈ t, isWhitespace c = false) := List.decidableBAll (fun c => isWhitespace c = false) t
  inferInstanceAs (Decidable (_ ∧ _))

theorem splitWhitespace_white {c : Char} (hc : isWhitespace c = true) (s : Text) :
    splitWhitespace (c :: s) = splitWhitespace s := by
  rw [splitWhitespace, List.splitOnP_cons_eq_if_modifyHead, if_pos hc, List.filter_cons_of_neg (by simp)]
  rfl

theorem splitWhitespace_field {t : Text} (h : IsField t) {c : Char} (hc : isWhitespace c = true) (s : Text) :
    splitWhitespace (t ++ c :: s) = t :: splitWhitespace s := by
  rw [splitWhitespace, List.splitOnP_append_cons_of_forall_mem h.2 c hc, List.filter_cons_of_pos (by simp [h.1])]
  rfl

/-- A character in front of a field makes it longer. -/
theorem splitWhitespace_extend {c d : Char} (hc : isWhitespace c = false) (hd : isWhitespace d = false) (s : Text) :
    ∃ t ts, splitWhitespace (d :: s) = t :: ts ∧ splitWhitespace (c :: d :: s) = (c :: t) :: ts := by
  obtain ⟨p, ps, hp⟩ := List.exists_cons_of_ne_nil (List.splitOnP_ne_nil isWhitespace s)
  have hone : (d :: s).splitOnP isWhitespace = (d :: p) :: ps := by
    rw [List.splitOnP_cons_eq_if_modifyHead, if_neg (by simp [hd]), hp, List.modifyHead_cons]
  have htwo : (c :: d :: s).splitOnP isWhitespace = (c :: d :: p) :: ps := by
    rw [List.splitOnP_cons_eq_if_modifyHead, if_neg (by simp [hc]), hone, List.modifyHead_cons]
  refine ⟨d :: p, ps.filter (· ≠ []), ?_, ?_⟩
  · rw [splitWhitespace, hone, List.filter_cons_of_pos (by simp)]
  · rw [splitWhitespace, htwo, List.filter_cons_of_pos (by simp)]

/-- Each run of white space becomes one blank; the flag says that the blank of this run is written. -/
def collapse : Bool → Text → Text
  | _, [] => []
  | blank, c :: s =>
    if isWhitespace c then (if blank then collapse true s else ' ' :: collapse true s) else c :: collapse false s

/-- **Fields that are joined again are the text with its runs of white space collapsed**, if the text ends in a
character that is no white space; in front of a field the white space is gone. -/
theorem joinSpaces_splitWhitespace {q : Char} (hq : isWhitespace q = false) (s : Text) :
    joinSpaces (splitWhitespace (s ++ [q])) = collapse true s ++ [q] ∧
      ∀ c, isWhitespace c = false → joinSpaces (splitWhitespace (c :: (s ++ [q]))) = c :: (collapse false s ++ [q]) := by
  have hlast : splitWhitespace [q] = [[q]] := by
    rw [splitWhitespace, List.splitOnP_cons_eq_if_modifyHead, if_neg (by simp [hq])]
    rfl
  induction s with
  | nil =>
    refine ⟨by rw [List.nil_append, hlast]; exact joinSpaces_singleton _, fun c hc => ?_⟩
    obtain ⟨t, ts, hone, htwo⟩ := splitWhitespace_extend hc hq []
    rw [List.nil_append, htwo, joinSpaces_extend, ← hone, hlast, joinSpaces_singleton]
    rfl
  | cons d s ih =>
    by_cases hd : isWhitespace d = true
    · refine ⟨by rw [List.cons_append, splitWhitespace_white hd, ih.1, collapse, if_pos hd, if_pos rfl], fun c hc => ?_⟩
      have hne : splitWhitespace (s ++ [q]) ≠ [] := by
        intro hnil
        have hjoin := ih.1
        rw [hnil] at hjoin
        exact absurd hjoin.symm (by simp [joinSpaces])
      have hfield := splitWhitespace_field (t := [c]) ⟨by simp, by simpa using hc⟩ hd (s ++ [q])
      rw [List.cons_append, show c :: d :: (s ++ [q]) = [c] ++ d :: (s ++ [q]) from rfl, hfield, joinSpaces_cons hne,
        ih.1, collapse, if_pos hd, if_neg Bool.false_ne_true]
      rfl
    · have hd' : isWhitespace d = false := by simpa using hd
      refine ⟨by rw [List.cons_append, ih.2 d hd', collapse, if_neg hd]; rfl, fun c hc => ?_⟩
      obtain ⟨t, ts, hone, htwo⟩ := splitWhitespace_extend hc hd' (s ++ [q])
      rw [List.cons_append, htwo, joinSpaces_extend, ← hone, ih.2 d hd', collapse, if_neg hd]
      rfl

/-- White space is single blanks. -/
def SingleBlanks (s : Text) : Prop :=
  (∀ c ∈ s, isWhitespace c = true → c = ' ') ∧ s.IsChain fun c d => isWhitespace c = false ∨ isWhitespace d = false

theorem length_collapse_le (blank : Bool) (s : Text) : (collapse blank s).length ≤ s.length := by
  induction s generalizing blank with
  | nil => simp [collapse]
  | cons c s ih =>
    have htrue := ih true
    have hfalse := ih false
    unfold collapse
    split
    · split
      · rw [List.length_cons]
        omega
      · rw [List.length_cons, List.length_cons]
        omega
    · rw [List.length_cons, List.length_cons]
      omega

theorem mem_collapse {c : Char} {blank : Bool} {s : Text} (h : c ∈ collapse blank s) : c = ' ' ∨ c ∈ s := by
  induction s generalizing blank with
  | nil => simp [collapse] at h
  | cons d s ih =>
    unfold collapse at h
    split at h
    · split at h
      · exact (ih h).imp_right (List.mem_cons_of_mem d)
      · rcases List.mem_cons.mp h with h | h
        · exact .inl h
        · exact (ih h).imp_right (List.mem_cons_of_mem d)
    · rcases List.mem_cons.mp h with h | h
      · exact .inr (h ▸ List.mem_cons_self)
      · exact (ih h).imp_right (List.mem_cons_of_mem d)

/-- Nothing is lost exactly when there was nothing to collapse. -/
theorem collapse_eq_self (s : Text) :
    (collapse false s = s ↔ SingleBlanks s) ∧
      (collapse true s = s ↔ SingleBlanks s ∧ ∀ c ∈ s.head?, isWhitespace c = false) := by
  induction s with
  | nil => simp [collapse, SingleBlanks]
  | cons c s ih =>
    by_cases hc : isWhitespace c = true
    · have hblanks : SingleBlanks (c :: s) ↔ c = ' ' ∧ SingleBlanks s ∧ ∀ d ∈ s.head?, isWhitespace d = false := by
        simp only [SingleBlanks, List.forall_mem_cons, List.isChain_cons, hc, forall_const, Bool.true_eq_false, false_or]
        tauto
      constructor
      · rw [collapse, if_pos hc, if_neg Bool.false_ne_true, List.cons.injEq, ih.2, hblanks, eq_comm]
      · rw [collapse, if_pos hc, if_pos rfl]
        refine iff_of_false (fun heq => ?_) (fun h => ?_)
        · have hle := length_collapse_le true s
          rw [heq, List.length_cons] at hle
          omega
        · have := h.2 c rfl
          rw [hc] at this
          cases this
    · have hc' : isWhitespace c = false := by simpa using hc
      have hblanks : SingleBlanks (c :: s) ↔ SingleBlanks s := by
        simp [SingleBlanks, List.isChain_cons, hc']
      constructor
      · rw [collapse, if_neg hc, List.cons.injEq, ih.1, hblanks]
        exact and_iff_right rfl
      · rw [collapse, if_neg hc, List.cons.injEq, ih.1, hblanks]
        simp [hc']
/-! ## Lines and texts without ends to trim -/

theorem lines_of_unbroken {s : Text} (hne : s ≠ []) (h : '\n' ∉ s) : lines s = [s] := by
  rw [lines, List.splitOn_eq_singleton h]
  simp [hne]

theorem dropWhile_of_head {p : Char → Bool} {s : Text} (h : ∀ c ∈ s.head?, p c = false) : s.dropWhile p = s := by
  cases s with
  | nil => rfl
  | cons c s => exact List.dropWhile_cons_of_neg (by simpa using h c rfl)

theorem trimBy_of_ends {p : Char → Bool} {s : Text} (hfirst : ∀ c ∈ s.head?, p c = false)
    (hlast : ∀ c ∈ s.getLast?, p c = false) : trimBy p s = s := by
  rw [trimBy, dropWhile_of_head hfirst, dropWhile_of_head (by simpa using hlast), List.reverse_reverse]

theorem mem_dropWhile {p : Char → Bool} {s : Text} {c : Char} (hc : c ∈ s) (hp : p c = false) : c ∈ s.dropWhile p := by
  rw [← List.takeWhile_append_dropWhile (p := p) (l := s)] at hc
  obtain hc | hc := List.mem_append.mp hc
  · rw [List.mem_takeWhile_imp hc] at hp
    cases hp
  · exact hc

theorem mem_trimBy {p : Char → Bool} {s : Text} {c : Char} (hc : c ∈ s) (hp : p c = false) : c ∈ trimBy p s :=
  List.mem_reverse.mpr (mem_dropWhile (List.mem_reverse.mpr (mem_dropWhile hc hp)) hp)

theorem trimBy_trimBy (p : Char → Bool) (s : Text) : trimBy p (trimBy p s) = trimBy p s := by
  have hbegins : trimBy p s <+: s.dropWhile p := List.rdropWhile_prefix p _
  apply trimBy_of_ends
  · intro c hc
    obtain ⟨rest, hrest⟩ := List.head?_eq_some_iff.mp hc
    rw [hrest] at hbegins
    obtain ⟨more, hmore⟩ := hbegins
    have hfirst := List.head?_dropWhile_not p s
    rw [← hmore] at hfirst
    simpa using hfirst
  · intro c hc
    have hlast := List.head?_dropWhile_not p (s.dropWhile p).reverse
    rw [trimBy, List.getLast?_reverse] at hc
    rw [hc] at hlast
    simpa using hlast

theorem trimMatches_quoted {q : Char} {m : Text} (h : q ∉ m) : trimMatches q (q :: (m ++ [q])) = m := by
  have hfree : ∀ c ∈ m, (c == q) = false := by
    intro c hc
    rw [beq_eq_false_iff_ne]
    rintro rfl
    exact h hc
  cases m with
  | nil => simp [trimMatches, trimBy]
  | cons c m =>
    have hfirst : ((c :: m) ++ [q]).dropWhile (· == q) = (c :: m) ++ [q] :=
      dropWhile_of_head (by simpa using hfree c List.mem_cons_self)
    have hlast : (c :: m).reverse.dropWhile (· == q) = (c :: m).reverse :=
      dropWhile_of_head fun d hd => hfree d (List.mem_reverse.mp (List.mem_of_mem_head? hd))
    have hquote : (q == q) = true := beq_self_eq_true q
    rw [trimMatches, trimBy, List.dropWhile_cons, if_pos hquote, hfirst, List.reverse_append, List.reverse_singleton,
      List.singleton_append, List.dropWhile_cons, if_pos hquote, hlast, List.reverse_reverse]

/-! ## Numbers -/

/-- `c.to_digit(radix)` -/
def digitValue (radix : ℕ) (c : Char) : Option ℕ :=
  let n := c.toNat
  let d :=
    if 48 ≤ n ∧ n ≤ 57 then n - 48
    else if 97 ≤ n ∧ n ≤ 122 then n - 87
    else if 65 ≤ n ∧ n ≤ 90 then n - 55
    else radix
  if d < radix then some d else none

/-- The digits behind a number that has been read; it fails as soon as the number does not fit. -/
def parseDigits {bound : ℕ} (radix : ℕ) (n : Fin bound) : Text → Option (Fin bound)
  | [] => some n
  | c :: s =>
    match digitValue radix c with
    | none => none
    | some d => if h : n * radix + d < bound then parseDigits radix ⟨n * radix + d, h⟩ s else none

/-- `s.parse::<uN>()`: a sign `+` may stand in front. -/
def parseUnsigned {bound : ℕ} (hbound : 0 < bound) (s : Text) : Option (Fin bound) :=
  let digits := if s.head? = some '+' then s.tail else s
  if digits = [] then none else parseDigits 10 ⟨0, hbound⟩ digits

/-! ## Addresses -/

def readChar (c : Char) (s : Text) : Option Text := if s.head? = some c then some s.tail else none

/-- All digits at the front, if they are not too many; `zeroPrefix` allows leading zeros. -/
def readNumber (radix maxDigits : ℕ) (zeroPrefix : Bool) (bound : ℕ) [NeZero bound] (s : Text) :
    Option (Fin bound × Text) :=
  let digits := s.takeWhile fun c => (digitValue radix c).isSome
  if digits = [] ∨ maxDigits < digits.length then none
  else if !zeroPrefix ∧ digits.head? = some '0' ∧ 1 < digits.length then none
  else (parseDigits radix 0 digits).map fun n => (n, s.drop digits.length)

def readIpv4 (s : Text) : Option ((Fin 256 × Fin 256 × Fin 256 × Fin 256) × Text) := do
  let (a, s) ← readNumber 10 3 false 256 s
  let (b, s) ← readNumber 10 3 false 256 (← readChar '.' s)
  let (c, s) ← readNumber 10 3 false 256 (← readChar '.' s)
  let (d, s) ← readNumber 10 3 false 256 (← readChar '.' s)
  pure ((a, b, c, d), s)

/-- Up to `left` groups between colons, whether they end in an IPv4 address, and the rest of the text. -/
def readGroups : ℕ → Bool → Text → List (Fin 65536) × Bool × Text
  | 0, _, s => ([], false, s)
  | left + 1, first, s =>
    let group := if first then some s else readChar ':' s
    match if 0 < left then group.bind readIpv4 else none with
    | some ((a, b, c, d), rest) => ([Fin.ofNat _ (a * 256 + b), Fin.ofNat _ (c * 256 + d)], true, rest)
    | none =>
      match group.bind (readNumber 16 4 true 65536) with
      | none => ([], false, s)
      | some (g, rest) =>
        let (groups, ipv4, rest) := readGroups left false rest
        (g :: groups, ipv4, rest)

theorem length_readGroups_le (left : ℕ) (first : Bool) (s : Text) : (readGroups left first s).1.length ≤ left := by
  induction left generalizing first s with
  | zero => exact Nat.zero_le _
  | succ left ih =>
    unfold readGroups
    dsimp only
    split
    · rename_i hipv4
      split at hipv4
      · simp only [List.length_cons, List.length_nil]
        omega
      · cases hipv4
    · split
      · exact Nat.zero_le _
      · exact Nat.succ_le_succ (ih false _)

/-- The eight groups of an address; `::` stands for at least one group of zeros. -/
def readIpv6 (s : Text) : Option ({ groups : List (Fin 65536) // groups.length = 8 } × Text) :=
  let head := readGroups 8 true s
  if h : head.1.length = 8 then some (⟨head.1, h⟩, head.2.2)
  else if head.2.1 then none
  else do
    let rest ← readChar ':' head.2.2
    let rest ← readChar ':' rest
    let tail := readGroups (8 - (head.1.length + 1)) true rest
    have hlen : (head.1 ++ List.replicate (8 - head.1.length - tail.1.length) 0 ++ tail.1).length = 8 := by
      have hhead : head.1.length ≤ 8 := length_readGroups_le 8 true s
      have htail : tail.1.length ≤ 8 - (head.1.length + 1) := length_readGroups_le _ true rest
      simp only [List.length_append, List.length_replicate]
      omega
    pure (⟨_, hlen⟩, tail.2.2)

/-- `parse_with`: the whole text has to be read. -/
def parseAll {α : Type} (read : Text → Option (α × Text)) (s : Text) : Option α :=
  match read s with
  | some (a, []) => some a
  | _ => none

def parseIpv4 (s : Text) : Option (Fin 256 × Fin 256 × Fin 256 × Fin 256) :=
  if 15 < (utf8 s).length then none else parseAll readIpv4 s

def parseIpv6 (s : Text) : Option { groups : List (Fin 65536) // groups.length = 8 } := parseAll readIpv6 s

/-- The number behind a character, of any length. -/
def readAfter (c : Char) (bound : ℕ) [NeZero bound] (s : Text) : Option (Fin bound × Text) :=
  (readChar c s).bind fun rest => readNumber 10 rest.length true bound rest

def readSocketAddrV4 (s : Text) : Option (((Fin 256 × Fin 256 × Fin 256 × Fin 256) × Fin 65536) × Text) := do
  let (ip, s) ← readIpv4 s
  let (port, s) ← readAfter ':' 65536 s
  pure ((ip, port), s)

/-- The address in brackets, with a scope that is zero if it is left out, and the port. -/
def readSocketAddrV6 (s : Text) :
    Option (({ groups : List (Fin 65536) // groups.length = 8 } × Fin 4294967296 × Fin 65536) × Text) := do
  let (ip, s) ← readIpv6 (← readChar '[' s)
  let (scopeId, s) := (readAfter '%' 4294967296 s).getD (0, s)
  let (port, s) ← readAfter ':' 65536 (← readChar ']' s)
  pure ((ip, scopeId, port), s)

/-- `s.split_once(c)` -/
def splitOnce (c : Char) (s : Text) : Option (Text × Text) :=
  match s.dropWhile (· != c) with
  | [] => none
  | _ :: rest => some (s.takeWhile (· != c), rest)

theorem splitOnce_eq_some {c : Char} {s front rest : Text} :
    splitOnce c s = some (front, rest) ↔ s = front ++ c :: rest ∧ c ∉ front := by
  constructor
  · intro h
    unfold splitOnce at h
    split at h
    · cases h
    · rename_i d tail hdrop
      obtain ⟨rfl, rfl⟩ := Prod.mk.inj (Option.some.inj h)
      have hd : (d != c) = false := by
        have := List.head?_dropWhile_not (· != c) s
        rw [hdrop] at this
        simpa using this
      obtain rfl : d = c := by simpa using hd
      refine ⟨?_, fun hmem => ?_⟩
      · rw [← hdrop, List.takeWhile_append_dropWhile]
      · have := List.all_eq_true.mp List.all_takeWhile _ hmem
        simp at this
  · rintro ⟨rfl, hfree⟩
    have hall : ∀ d ∈ front, (d != c) = true := by
      intro d hd
      rw [bne_iff_ne]
      rintro rfl
      exact hfree hd
    rw [splitOnce, List.dropWhile_append_of_pos hall, List.takeWhile_append_of_pos hall,
      List.dropWhile_cons_of_neg (by simp),
      List.takeWhile_cons_of_neg (by simp), List.append_nil]

theorem splitOnce_eq_none {c : Char} {s : Text} : splitOnce c s = none ↔ c ∉ s := by
  constructor
  · intro h hmem
    obtain ⟨front, rest, hs⟩ := List.eq_append_cons_of_mem hmem
    rw [splitOnce_eq_some.mpr hs] at h
    cases h
  · intro hfree
    cases h : splitOnce c s with
    | none => rfl
    | some parts =>
      obtain ⟨rfl, _⟩ := splitOnce_eq_some.mp h
      exact absurd (List.mem_append_right _ List.mem_cons_self) hfree

/-- A text that starts with an IPv4 address is no IPv6 address: it makes two groups, and no more follow it. -/
theorem parseIpv6_of_readIpv4 {s rest : Text} {ip : Fin 256 × Fin 256 × Fin 256 × Fin 256}
    (h : readIpv4 s = some (ip, rest)) : parseIpv6 s = none := by
  have hgroups : ∃ g g', readGroups 8 true s = ([g, g'], true, rest) := by
    rw [readGroups]
    simp only [if_true, Nat.zero_lt_succ, Option.bind_some, h]
    exact ⟨_, _, rfl⟩
  obtain ⟨g, g', hgroups⟩ := hgroups
  have hread : readIpv6 s = none := by
    unfold readIpv6
    simp [hgroups]
  rw [parseIpv6, parseAll, hread]

example : parseIpv6 "2001:db8::1".toList =
    some ⟨[0x2001, 0xdb8, 0, 0, 0, 0, 0, 1], rfl⟩ := by decide

example : parseIpv6 "::ffff:192.0.2.1".toList =
    some ⟨[0, 0, 0, 0, 0, 0xffff, 0xc000, 0x201], rfl⟩ := by decide

example : parseAll readSocketAddrV6 "[fe80::1%3]:053".toList =
    some (⟨[0xfe80, 0, 0, 0, 0, 0, 0, 1], rfl⟩, 3, 53) := by decide

example : lines "a\r\nb\n\nc\r".toList = [['a'], ['b'], [], ['c', '\r']] := by decide

end MiniDns.Lib
