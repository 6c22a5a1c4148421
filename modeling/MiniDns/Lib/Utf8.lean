import MiniDns.Lib.Bytes

/-! UTF-8 text as a list of characters, and the lossy decoding of arbitrary bytes.
`fromUtf8Lossy` replaces every maximal ill-formed subpart by U+FFFD, one replacement for each
subpart, and is the identity on what `utf8` writes. -/
namespace MiniDns.Lib
set_option autoImplicit false

/-- A `str`: a sequence of Unicode scalar values. -/
abbrev Text := List Char

def utf8 (s : Text) : Bytes := s.flatMap String.utf8EncodeChar

@[simp] theorem utf8_nil : utf8 [] = [] := rfl

theorem utf8_cons (c : Char) (s : Text) : utf8 (c :: s) = String.utf8EncodeChar c ++ utf8 s := rfl

theorem utf8_append (s t : Text) : utf8 (s ++ t) = utf8 s ++ utf8 t := by
  simp [utf8, List.flatMap_append]

theorem utf8_eq_nil {s : Text} : utf8 s = [] ↔ s = [] := by
  cases s with
  | nil => simp
  | cons c s => simp [utf8_cons]

/-! ## One character -/

def replacement : Char := Char.ofNat 0xFFFD

/-- The length a leading byte announces; `0` for a byte that cannot lead. -/
def charWidth (b : UInt8) : ℕ :=
  if b.toNat < 0x80 then 1
  else if b.toNat < 0xC2 then 0
  else if b.toNat < 0xE0 then 2
  else if b.toNat < 0xF0 then 3
  else if b.toNat < 0xF5 then 4
  else 0

def continues (b : UInt8) : Bool := 0x80 ≤ b.toNat && b.toNat ≤ 0xBF

/-- The second bytes a leading byte of a three or four byte character admits: no overlong form,
no surrogate, nothing above U+10FFFF. -/
def secondFits (a b : UInt8) : Bool :=
  if a.toNat = 0xE0 then 0xA0 ≤ b.toNat && b.toNat ≤ 0xBF
  else if a.toNat = 0xED then 0x80 ≤ b.toNat && b.toNat ≤ 0x9F
  else if a.toNat = 0xF0 then 0x90 ≤ b.toNat && b.toNat ≤ 0xBF
  else if a.toNat = 0xF4 then 0x80 ≤ b.toNat && b.toNat ≤ 0x8F
  else continues b

/-- The first character of a byte string, with the number of bytes it takes. `none` stands for an
ill-formed subpart. A byte past the end reads as `0`, which continues nothing. -/
def scanChar (a : UInt8) (rest : Bytes) : Option Char × ℕ :=
  let b := rest.getD 0 0
  let c := rest.getD 1 0
  let d := rest.getD 2 0
  match charWidth a with
  | 1 => (some (Char.ofNat a.toNat), 1)
  | 2 => if continues b then (some (Char.ofNat (a.toNat % 32 * 64 + b.toNat % 64)), 2) else (none, 1)
  | 3 =>
    if secondFits a b then
      if continues c then
        (some (Char.ofNat ((a.toNat % 16 * 64 + b.toNat % 64) * 64 + c.toNat % 64)), 3)
      else (none, 2)
    else (none, 1)
  | 4 =>
    if secondFits a b then
      if continues c then
        if continues d then
          (some (Char.ofNat (((a.toNat % 8 * 64 + b.toNat % 64) * 64 + c.toNat % 64) * 64
            + d.toNat % 64)), 4)
        else (none, 3)
      else (none, 2)
    else (none, 1)
  | _ => (none, 1)

theorem byte_toNat (n : ℕ) (h : n < 256) : (UInt8.ofNat n).toNat = n := by
  simp only [UInt8.toNat_ofNat']
  omega

theorem toNat_continuation (n : ℕ) : (UInt8.ofNat (n % 64 + 0x80)).toNat = n % 64 + 0x80 :=
  byte_toNat _ (by omega)

theorem continues_continuation (n : ℕ) : continues (UInt8.ofNat (n % 64 + 0x80)) = true := by
  simp only [continues, toNat_continuation, Bool.and_eq_true, decide_eq_true_eq]
  omega

theorem scanChar_encode (c : Char) (rest : Bytes) :
    ∃ a more, String.utf8EncodeChar c = a :: more ∧
      scanChar a (more ++ rest) = (some c, more.length + 1) := by
  have hv : c.val.toNat < 0xD800 ∨ 0xDFFF < c.val.toNat ∧ c.val.toNat < 0x110000 := c.valid
  have hof : Char.ofNat c.val.toNat = c := Char.ofNat_toNat c
  unfold String.utf8EncodeChar
  generalize c.val.toNat = v at hv hof
  dsimp only
  split
  · refine ⟨_, _, rfl, ?_⟩
    have ha := byte_toNat v (by omega)
    simp only [scanChar, charWidth, ha, if_pos (show v < 0x80 by omega), hof, List.length_nil]
  split
  · refine ⟨_, _, rfl, ?_⟩
    have ha := byte_toNat (v / 64 % 32 + 0xC0) (by omega)
    have hb := toNat_continuation v
    have hw : charWidth (UInt8.ofNat (v / 64 % 32 + 0xC0)) = 2 := by
      unfold charWidth; rw [ha]; split_ifs <;> omega
    have hk := continues_continuation v
    have he : (v / 64 % 32 + 0xC0) % 32 * 64 + (v % 64 + 0x80) % 64 = v := by omega
    simp only [scanChar, hw, List.cons_append, List.getD_cons_zero, hk, if_true, ha, hb, he, hof]
    rfl
  split
  · refine ⟨_, _, rfl, ?_⟩
    have ha := byte_toNat (v / 4096 % 16 + 0xE0) (by omega)
    have hb := toNat_continuation (v / 64)
    have hc := toNat_continuation v
    have hw : charWidth (UInt8.ofNat (v / 4096 % 16 + 0xE0)) = 3 := by
      unfold charWidth; rw [ha]; split_ifs <;> omega
    have hs : secondFits (UInt8.ofNat (v / 4096 % 16 + 0xE0)) (UInt8.ofNat (v / 64 % 64 + 0x80)) = true := by
      simp only [secondFits, continues, ha, hb]
      split_ifs <;> simp only [Bool.and_eq_true, decide_eq_true_eq] <;> omega
    have hk := continues_continuation v
    have he : ((v / 4096 % 16 + 0xE0) % 16 * 64 + (v / 64 % 64 + 0x80) % 64) * 64
        + (v % 64 + 0x80) % 64 = v := by omega
    simp only [scanChar, hw, List.cons_append, List.getD_cons_zero, List.getD_cons_succ, hs, hk,
      if_true, ha, hb, hc, he, hof]
    rfl
  · refine ⟨_, _, rfl, ?_⟩
    have ha := byte_toNat (v / 262144 % 8 + 0xF0) (by omega)
    have hb := toNat_continuation (v / 4096)
    have hc := toNat_continuation (v / 64)
    have hd := toNat_continuation v
    have hw : charWidth (UInt8.ofNat (v / 262144 % 8 + 0xF0)) = 4 := by
      unfold charWidth; rw [ha]; split_ifs <;> omega
    have hs : secondFits (UInt8.ofNat (v / 262144 % 8 + 0xF0)) (UInt8.ofNat (v / 4096 % 64 + 0x80)) = true := by
      simp only [secondFits, continues, ha, hb]
      split_ifs <;> simp only [Bool.and_eq_true, decide_eq_true_eq] <;> omega
    have hk := continues_continuation (v / 64)
    have hl := continues_continuation v
    have he : (((v / 262144 % 8 + 0xF0) % 8 * 64 + (v / 4096 % 64 + 0x80) % 64) * 64
        + (v / 64 % 64 + 0x80) % 64) * 64 + (v % 64 + 0x80) % 64 = v := by omega
    simp only [scanChar, hw, List.cons_append, List.getD_cons_zero, List.getD_cons_succ, hs, hk, hl,
      if_true, ha, hb, hc, hd, he, hof]
    rfl

/-! ## Whole texts -/

/-- `fuel` bounds the number of characters; the number of bytes is always enough. -/
def lossyFrom : ℕ → Bytes → Text
  | 0, _ => []
  | _, [] => []
  | fuel + 1, a :: rest =>
    (scanChar a rest).1.getD replacement :: lossyFrom fuel (rest.drop ((scanChar a rest).2 - 1))

/-- `String::from_utf8_lossy`. -/
def fromUtf8Lossy (bs : Bytes) : Text := lossyFrom bs.length bs

theorem lossyFrom_eq (fuel : ℕ) (bs : Bytes) (h : bs.length ≤ fuel) :
    lossyFrom fuel bs = fromUtf8Lossy bs := by
  unfold fromUtf8Lossy
  suffices key : ∀ m n (bs : Bytes), bs.length ≤ m → bs.length ≤ n → lossyFrom m bs = lossyFrom n bs from
    key fuel bs.length bs h le_rfl
  intro m
  induction m with
  | zero =>
    intro n bs hm _
    have : bs = [] := List.eq_nil_of_length_eq_zero (by omega)
    subst this
    cases n <;> rfl
  | succ m ih =>
    intro n bs hm hn
    cases bs with
    | nil => cases n <;> rfl
    | cons a rest =>
      cases n with
      | zero => simp at hn
      | succ n =>
        simp only [List.length_cons] at hm hn
        simp only [lossyFrom]
        rw [ih n _ (by simp; omega) (by simp; omega)]

@[simp] theorem fromUtf8Lossy_nil : fromUtf8Lossy [] = [] := rfl

theorem fromUtf8Lossy_cons (a : UInt8) (rest : Bytes) :
    fromUtf8Lossy (a :: rest) = (scanChar a rest).1.getD replacement ::
      fromUtf8Lossy (rest.drop ((scanChar a rest).2 - 1)) := by
  rw [← lossyFrom_eq rest.length (rest.drop _) (by simp)]
  rfl

theorem fromUtf8Lossy_eq_nil {bs : Bytes} : fromUtf8Lossy bs = [] ↔ bs = [] := by
  cases bs with
  | nil => simp
  | cons a rest => simp [fromUtf8Lossy_cons]

theorem fromUtf8Lossy_utf8_append (s : Text) (rest : Bytes) :
    fromUtf8Lossy (utf8 s ++ rest) = s ++ fromUtf8Lossy rest := by
  induction s with
  | nil => rfl
  | cons c s ih =>
    obtain ⟨a, more, he, hs⟩ := scanChar_encode c (utf8 s ++ rest)
    rw [utf8_cons, he, List.append_assoc, List.cons_append, fromUtf8Lossy_cons, hs]
    simp [ih]

@[simp] theorem fromUtf8Lossy_utf8 (s : Text) : fromUtf8Lossy (utf8 s) = s := by
  have h := fromUtf8Lossy_utf8_append s []
  simpa using h

theorem utf8_inj {s t : Text} (h : utf8 s = utf8 t) : s = t := by
  rw [← fromUtf8Lossy_utf8 s, h, fromUtf8Lossy_utf8]

/-! ## Texts cut between bytes -/

theorem charWidth_cases (a : UInt8) :
    charWidth a = 0 ∨ charWidth a = 1 ∨ charWidth a = 2 ∨ charWidth a = 3 ∨ charWidth a = 4 := by
  unfold charWidth
  split_ifs <;> simp

theorem secondFits_zero (a : UInt8) : secondFits a 0 = false := by
  simp only [secondFits, continues]
  split_ifs <;> rfl

/-- A character whose last bytes are missing is one ill-formed subpart. -/
theorem scanChar_take {a : UInt8} {more : Bytes} {c : Char} (h : scanChar a more = (some c, more.length + 1))
    {k : ℕ} (hk : k < more.length) : scanChar a (more.take k) = (none, k + 1) := by
  have hcont : continues 0 = false := rfl
  have hsecond := secondFits_zero a
  obtain hw | hw | hw | hw | hw := charWidth_cases a <;> simp only [scanChar, hw] at h ⊢
  · simp at h
  · simp only [Prod.mk.injEq] at h
    omega
  · split at h
    · obtain ⟨b, rfl⟩ : ∃ b, more = [b] := List.length_eq_one_iff.mp (by simp at h; omega)
      obtain rfl : k = 0 := by simp at hk; omega
      simp [hcont]
    · simp at h
  · split at h
    · split at h
      · obtain ⟨b, d, rfl⟩ : ∃ b d, more = [b, d] := List.length_eq_two.mp (by simp at h; omega)
        obtain rfl | rfl : k = 0 ∨ k = 1 := by simp at hk; omega
        · simp [hsecond]
        · simp_all
      · simp at h
    · simp at h
  · split at h
    · split at h
      · split at h
        · obtain ⟨b, d, f, rfl⟩ : ∃ b d f, more = [b, d, f] := List.length_eq_three.mp (by simp at h; omega)
          obtain rfl | rfl | rfl : k = 0 ∨ k = 1 ∨ k = 2 := by simp at hk; omega
          · simp [hsecond]
          · simp_all
          · simp_all
        · simp at h
      · simp at h
    · simp at h

theorem fromUtf8Lossy_take_utf8EncodeChar (c : Char) {n : ℕ} (hpos : 0 < n)
    (hlt : n < (String.utf8EncodeChar c).length) :
    fromUtf8Lossy ((String.utf8EncodeChar c).take n) = [replacement] := by
  obtain ⟨a, more, hcode, hscan⟩ := scanChar_encode c []
  rw [List.append_nil] at hscan
  rw [hcode] at hlt ⊢
  obtain ⟨k, rfl⟩ : ∃ k, n = k + 1 := ⟨n - 1, by omega⟩
  rw [List.length_cons] at hlt
  rw [List.take_succ_cons, fromUtf8Lossy_cons, scanChar_take hscan (by omega)]
  simp

/-- A text that is cut somewhere is a shorter text, and perhaps a part of one more character. -/
theorem utf8_take (s : Text) (n : ℕ) :
    ∃ t rest, (utf8 s).take n = utf8 t ++ rest ∧
      (rest = [] ∨ fromUtf8Lossy rest = [replacement] ∧ (utf8 t).length < n) := by
  induction s generalizing n with
  | nil => exact ⟨[], [], by simp, .inl rfl⟩
  | cons c s ih =>
    rw [utf8_cons]
    by_cases hle : (String.utf8EncodeChar c).length ≤ n
    · obtain ⟨t, rest, htake, hrest⟩ := ih (n - (String.utf8EncodeChar c).length)
      refine ⟨c :: t, rest, ?_, hrest.imp_right fun h => ⟨h.1, ?_⟩⟩
      · rw [List.take_append, List.take_of_length_le hle, htake, utf8_cons, List.append_assoc]
      · rw [utf8_cons, List.length_append]
        omega
    · rw [List.take_append_of_le_length (by omega)]
      by_cases hn : n = 0
      · exact ⟨[], [], by simp [hn], .inl rfl⟩
      · refine ⟨[], (String.utf8EncodeChar c).take n, rfl, .inr ⟨?_, ?_⟩⟩
        · exact fromUtf8Lossy_take_utf8EncodeChar c (by omega) (by omega)
        · simp only [utf8_nil, List.length_nil]
          omega

theorem fromUtf8Lossy_take_replacement {n : ℕ} (hn : 0 < n) :
    fromUtf8Lossy ((utf8 [replacement]).take n) = [replacement] := by
  have hone : utf8 [replacement] = String.utf8EncodeChar replacement := by simp [utf8]
  by_cases hle : (utf8 [replacement]).length ≤ n
  · rw [List.take_of_length_le hle, fromUtf8Lossy_utf8]
  · rw [hone] at hle ⊢
    exact fromUtf8Lossy_take_utf8EncodeChar replacement hn (by omega)

theorem fromUtf8Lossy_take_idem (s : Text) (n : ℕ) :
    fromUtf8Lossy ((utf8 (fromUtf8Lossy ((utf8 s).take n))).take n) = fromUtf8Lossy ((utf8 s).take n) := by
  obtain ⟨t, rest, htake, hrest⟩ := utf8_take s n
  rw [htake, fromUtf8Lossy_utf8_append]
  obtain rfl | ⟨hlossy, hlt⟩ := hrest
  · have hlen := congrArg List.length htake
    rw [List.append_nil, List.length_take] at hlen
    rw [fromUtf8Lossy_nil, List.append_nil, List.take_of_length_le (by omega), fromUtf8Lossy_utf8]
  · rw [hlossy, utf8_append, List.take_append, List.take_of_length_le hlt.le, fromUtf8Lossy_utf8_append]
    exact congrArg (t ++ ·) (fromUtf8Lossy_take_replacement (by omega))

/-! ## Pieces of a text -/

theorem charWidth_of_continues {a : UInt8} (h : continues a = true) : charWidth a = 0 := by
  simp only [continues, Bool.and_eq_true, decide_eq_true_eq] at h
  unfold charWidth
  split_ifs <;> omega

theorem fromUtf8Lossy_continues_append {pre : Bytes} (h : ∀ b ∈ pre, continues b = true) (rest : Bytes) :
    fromUtf8Lossy (pre ++ rest) = List.replicate pre.length replacement ++ fromUtf8Lossy rest := by
  induction pre with
  | nil => rfl
  | cons b pre ih =>
    rw [List.forall_mem_cons] at h
    have hscan : scanChar b (pre ++ rest) = (none, 1) := by
      simp only [scanChar, charWidth_of_continues h.1]
    rw [List.cons_append, fromUtf8Lossy_cons, hscan]
    simp [ih h.2, List.replicate_succ]

theorem continues_ofNat {n : ℕ} (h : n < 64) : continues (UInt8.ofNat (n + 0x80)) = true := by
  simp only [continues, byte_toNat _ (show n + 0x80 < 256 by omega), Bool.and_eq_true, decide_eq_true_eq]
  omega

/-- The first byte of a character, and at most three bytes that continue it. -/
theorem utf8EncodeChar_cons (c : Char) : ∃ a more, String.utf8EncodeChar c = a :: more ∧ more.length ≤ 3 ∧
    ∀ b ∈ more, continues b = true := by
  unfold String.utf8EncodeChar
  generalize c.val.toNat = v
  dsimp only
  split
  · exact ⟨_, _, rfl, by simp, by simp⟩
  split
  · refine ⟨_, _, rfl, by simp, ?_⟩
    simp only [List.forall_mem_cons]
    exact ⟨continues_ofNat (by omega), by simp⟩
  split
  · refine ⟨_, _, rfl, by simp, ?_⟩
    simp only [List.forall_mem_cons]
    exact ⟨continues_ofNat (by omega), continues_ofNat (by omega), by simp⟩
  · refine ⟨_, _, rfl, by simp, ?_⟩
    simp only [List.forall_mem_cons]
    exact ⟨continues_ofNat (by omega), continues_ofNat (by omega), continues_ofNat (by omega), by simp⟩

/-- Behind a cut stand the rest of one character, perhaps, and a text. -/
theorem utf8_drop (s : Text) (n : ℕ) :
    ∃ pre t, (utf8 s).drop n = pre ++ utf8 t ∧ pre.length ≤ 3 ∧ ∀ b ∈ pre, continues b = true := by
  induction s generalizing n with
  | nil => exact ⟨[], [], by simp, by simp, by simp⟩
  | cons c s ih =>
    obtain ⟨a, more, hcode, hlen, hmore⟩ := utf8EncodeChar_cons c
    rw [utf8_cons, hcode]
    cases n with
    | zero => exact ⟨[], c :: s, by rw [utf8_cons, hcode]; rfl, by simp, by simp⟩
    | succ n =>
      rw [List.cons_append, List.drop_succ_cons]
      by_cases hle : n ≤ more.length
      · refine ⟨more.drop n, s, List.drop_append_of_le_length hle, ?_, fun b hb => hmore b (List.mem_of_mem_drop hb)⟩
        rw [List.length_drop]
        omega
      · obtain ⟨pre, t, hdrop, hpre⟩ := ih (n - more.length)
        refine ⟨pre, t, ?_, hpre⟩
        rw [List.drop_append, List.drop_eq_nil_of_le (by omega), List.nil_append, hdrop]

theorem length_utf8_replicate (n : ℕ) : (utf8 (List.replicate n replacement)).length = 3 * n := by
  induction n with
  | zero => rfl
  | succ n ih =>
    have hone : (String.utf8EncodeChar replacement).length = 3 := by decide
    rw [List.replicate_succ, utf8_cons, List.length_append, hone, ih]
    omega

/-- Decoding a piece of a text makes it longer by what its two broken ends are replaced by, at most. -/
theorem length_lossy_piece_le (s : Text) (n m : ℕ) :
    (utf8 (fromUtf8Lossy (((utf8 s).drop n).take m))).length ≤ (((utf8 s).drop n).take m).length + 8 := by
  obtain ⟨pre, t, hdrop, hlen, hpre⟩ := utf8_drop s n
  rw [hdrop, List.take_append]
  obtain ⟨t', rest, htake, hrest⟩ := utf8_take t (m - pre.length)
  rw [htake, fromUtf8Lossy_continues_append fun b hb => hpre b (List.mem_of_mem_take hb),
    fromUtf8Lossy_utf8_append, utf8_append, utf8_append]
  simp only [List.length_append, length_utf8_replicate]
  have hshort : (pre.take m).length ≤ 3 := by
    rw [List.length_take]
    omega
  obtain rfl | ⟨hlossy, _⟩ := hrest
  · simp only [fromUtf8Lossy_nil, utf8_nil, List.length_nil]
    omega
  · have hone : (utf8 [replacement]).length = 3 := by decide
    have hne : rest ≠ [] := by
      rintro rfl
      cases hlossy
    have hpos := List.length_pos_iff.mpr hne
    rw [hlossy, hone]
    omega

/-! ## Where a text is cut -/

/-- A cut at `n` bytes changes nothing for a lossy reader: the text is short enough, or it ends in a U+FFFD
that the cut breaks and the reader puts back. -/
def FitsCut (n : ℕ) (s : Text) : Prop :=
  (utf8 s).length ≤ n ∨ s.getLast? = some replacement ∧ (utf8 s.dropLast).length < n

theorem fromUtf8Lossy_take_eq_self (s : Text) (n : ℕ) : fromUtf8Lossy ((utf8 s).take n) = s ↔ FitsCut n s := by
  constructor
  · intro h
    obtain ⟨t, rest, htake, rfl | ⟨hlossy, hlt⟩⟩ := utf8_take s n
    · rw [htake, List.append_nil, fromUtf8Lossy_utf8] at h
      have hlen := congrArg List.length htake
      rw [h, List.append_nil, List.length_take] at hlen
      exact .inl (by omega)
    · rw [htake, fromUtf8Lossy_utf8_append, hlossy] at h
      subst h
      exact .inr ⟨by simp, by simpa using hlt⟩
  · rintro (hle | ⟨hlast, hlt⟩)
    · rw [List.take_of_length_le hle, fromUtf8Lossy_utf8]
    · obtain ⟨t, rfl⟩ : ∃ t, s = t ++ [replacement] := ⟨s.dropLast, (List.dropLast_append_getLast? _ hlast).symm⟩
      rw [List.dropLast_concat] at hlt
      rw [utf8_append, List.take_append, List.take_of_length_le hlt.le, fromUtf8Lossy_utf8_append]
      exact congrArg (t ++ ·) (fromUtf8Lossy_take_replacement (by omega))

/-- Every `n` bytes a character ends, as far as the text goes. -/
def CutsBetween (n : ℕ) (s : Text) : Prop := ∀ i b, (utf8 s)[n * i]? = some b → continues b = false

/-- The number of bytes that continue no character. -/
def leads (bs : Bytes) : ℕ := bs.countP fun b => !continues b

theorem leads_append (bs bs' : Bytes) : leads (bs ++ bs') = leads bs + leads bs' := List.countP_append

theorem leads_eq_zero {bs : Bytes} (h : ∀ b ∈ bs, continues b = true) : leads bs = 0 := by
  simpa [leads, List.countP_eq_zero] using h

theorem leads_utf8 (s : Text) : leads (utf8 s) = s.length := by
  induction s with
  | nil => rfl
  | cons c s ih =>
    obtain ⟨a, more, hcode, -, hmore⟩ := utf8EncodeChar_cons c
    obtain ⟨a', more', hcode', hscan⟩ := scanChar_encode c []
    obtain ⟨rfl, rfl⟩ := List.cons.inj (hcode.symm.trans hcode')
    have ha : continues a = false := by
      rw [Bool.eq_false_iff]
      intro hc
      simp [scanChar, charWidth_of_continues hc] at hscan
    rw [utf8_cons, hcode, leads_append, ih, List.length_cons]
    have hone : leads (a :: more) = leads more + 1 := by simp [leads, ha]
    rw [hone, leads_eq_zero hmore]
    omega

theorem continues_of_secondFits {a b : UInt8} (h : secondFits a b = true) : continues b = true := by
  unfold secondFits at h
  unfold continues at *
  split_ifs at h <;> simp only [Bool.and_eq_true, decide_eq_true_eq] at h ⊢ <;> omega

theorem forall_mem_take_succ {p : UInt8 → Prop} {bs : Bytes} {n : ℕ} (h : ∀ b ∈ bs.take n, p b)
    (hn : p (bs.getD n 0)) : ∀ b ∈ bs.take (n + 1), p b := by
  intro b hb
  rw [List.take_add_one, List.mem_append] at hb
  obtain hb | hb := hb
  · exact h b hb
  · rw [Option.mem_toList] at hb
    rwa [List.getD_eq_getElem?_getD, Option.mem_def.mp hb] at hn

/-- The bytes of a character, or of what is left of one, behind its first byte. -/
theorem continues_of_mem_scanChar (a : UInt8) (rest : Bytes) :
    ∀ b ∈ rest.take ((scanChar a rest).2 - 1), continues b = true := by
  have hnil : ∀ b ∈ rest.take 0, continues b = true := by simp
  obtain hw | hw | hw | hw | hw := charWidth_cases a <;> simp only [scanChar, hw]
  · exact hnil
  · exact hnil
  · split
    · exact forall_mem_take_succ hnil ‹_›
    · exact hnil
  · split
    · have hone := forall_mem_take_succ hnil (continues_of_secondFits ‹_›)
      split
      · exact forall_mem_take_succ hone ‹_›
      · exact hone
    · exact hnil
  · split
    · have hone := forall_mem_take_succ hnil (continues_of_secondFits ‹_›)
      split
      · have htwo := forall_mem_take_succ hone ‹_›
        split
        · exact forall_mem_take_succ htwo ‹_›
        · exact htwo
      · exact hone
    · exact hnil

/-- Decoding makes at least one character for each byte that continues none. -/
theorem leads_le_length_lossy (bs : Bytes) : leads bs ≤ (fromUtf8Lossy bs).length := by
  induction hlen : bs.length using Nat.strong_induction_on generalizing bs with
  | _ n ih =>
    cases bs with
    | nil => rfl
    | cons a rest =>
      have hsplit := List.take_append_drop ((scanChar a rest).2 - 1) rest
      have hshort : (rest.drop ((scanChar a rest).2 - 1)).length < n := by
        rw [← hlen, List.length_drop, List.length_cons]
        omega
      have hrest := ih _ hshort (rest.drop ((scanChar a rest).2 - 1)) rfl
      have hcount : leads (a :: rest) ≤ leads rest + 1 := by
        simp only [leads, List.countP_cons]
        split <;> omega
      rw [← hsplit, leads_append, leads_eq_zero (continues_of_mem_scanChar a rest), hsplit] at hcount
      rw [fromUtf8Lossy_cons, List.length_cons]
      omega

theorem leads_lt_length_lossy {a : UInt8} (ha : continues a = true) (rest : Bytes) :
    leads (a :: rest) < (fromUtf8Lossy (a :: rest)).length := by
  have hlossy : fromUtf8Lossy (a :: rest) = List.replicate 1 replacement ++ fromUtf8Lossy rest :=
    fromUtf8Lossy_continues_append (List.forall_mem_singleton.mpr ha) rest
  have hleads : leads (a :: rest) = leads rest := by simp [leads, ha]
  rw [hleads, hlossy, List.length_append, List.length_replicate]
  have := leads_le_length_lossy rest
  omega

/-- A cut is between two characters, or the byte behind it continues one. -/
theorem utf8_split (s : Text) (n : ℕ) :
    (∃ t t', s = t ++ t' ∧ (utf8 s).take n = utf8 t ∧ (utf8 s).drop n = utf8 t') ∨
      ∃ b rest, (utf8 s).drop n = b :: rest ∧ continues b = true := by
  induction s generalizing n with
  | nil => exact .inl ⟨[], [], by simp⟩
  | cons c s ih =>
    obtain ⟨a, more, hcode, -, hmore⟩ := utf8EncodeChar_cons c
    cases n with
    | zero => exact .inl ⟨[], c :: s, by simp⟩
    | succ n =>
      rw [utf8_cons, hcode, List.cons_append, List.drop_succ_cons, List.take_succ_cons]
      by_cases hlt : n < more.length
      · refine .inr ⟨more[n], more.drop (n + 1) ++ utf8 s, ?_, hmore _ (List.getElem_mem hlt)⟩
        rw [List.drop_append_of_le_length hlt.le, List.drop_eq_getElem_cons hlt, List.cons_append]
      · rw [List.drop_append, List.drop_eq_nil_of_le (by omega), List.nil_append, List.take_append,
          List.take_of_length_le (by omega)]
        obtain ⟨t, t', rfl, htake, hdrop⟩ | hright := ih (n - more.length)
        · exact .inl ⟨c :: t, t', rfl, by rw [htake, utf8_cons, hcode, List.cons_append], hdrop⟩
        · exact .inr hright

section Chunks
variable {n : ℕ} (hn : 0 < n)
include hn

theorem leads_le_length_chunks (bs : Bytes) : leads bs ≤ ((chunks n bs).flatMap fromUtf8Lossy).length := by
  induction bs using chunks_induction hn with
  | nil => exact Nat.le_refl 0
  | chunk bs hne ih =>
    rw [chunks_of_ne_nil hn hne, List.flatMap_cons, List.length_append]
    have hfirst := leads_le_length_lossy (bs.take n)
    have hsum := leads_append (bs.take n) (bs.drop n)
    rw [List.take_append_drop] at hsum
    omega

theorem leads_lt_length_chunks {bs : Bytes} {i : ℕ} {b : UInt8} (hb : bs[n * i]? = some b)
    (hcont : continues b = true) : leads bs < ((chunks n bs).flatMap fromUtf8Lossy).length := by
  induction i generalizing bs with
  | zero =>
    cases bs with
    | nil => cases hb
    | cons a rest =>
      obtain rfl : a = b := Option.some.inj hb
      obtain ⟨k, rfl⟩ : ∃ k, n = k + 1 := ⟨n - 1, by omega⟩
      have hfirst := leads_lt_length_lossy hcont (rest.take k)
      have hrest := leads_le_length_chunks hn (rest.drop k)
      have hsum : leads (a :: rest) = leads (a :: rest.take k) + leads (rest.drop k) := by
        rw [← leads_append, List.cons_append, List.take_append_drop]
      rw [chunks_of_ne_nil hn (List.cons_ne_nil _ _), List.flatMap_cons, List.length_append, List.take_succ_cons,
        List.drop_succ_cons]
      omega
  | succ i ih =>
    have hne : bs ≠ [] := by
      rintro rfl
      cases hb
    have hnext : (bs.drop n)[n * i]? = some b := by
      rw [List.getElem?_drop, ← hb, Nat.mul_succ, Nat.add_comm]
    have hrest := ih hnext
    have hfirst := leads_le_length_lossy (bs.take n)
    have hsum := leads_append (bs.take n) (bs.drop n)
    rw [List.take_append_drop] at hsum
    rw [chunks_of_ne_nil hn hne, List.flatMap_cons, List.length_append]
    omega

/-- **A text that is decoded in pieces is the same again if no piece begins within a character.** -/
theorem flatMap_lossy_chunks_eq_self (s : Text) :
    (chunks n (utf8 s)).flatMap fromUtf8Lossy = s ↔ CutsBetween n s := by
  constructor
  · intro h i b hb
    rw [Bool.eq_false_iff]
    intro hcont
    have hlt := leads_lt_length_chunks hn hb hcont
    rw [leads_utf8, h] at hlt
    exact Nat.lt_irrefl _ hlt
  · intro h
    generalize hbs : utf8 s = bs
    induction bs using chunks_induction hn generalizing s with
    | nil => rw [utf8_eq_nil.mp hbs]; rfl
    | chunk bs hne ih =>
      subst hbs
      obtain ⟨t, t', rfl, htake, hdrop⟩ | ⟨b, rest, hdrop, hcont⟩ := utf8_split s n
      · have ht' : CutsBetween n t' := by
          intro i b hb
          refine h (i + 1) b ?_
          rw [← hb, ← hdrop, List.getElem?_drop, Nat.mul_succ, Nat.add_comm]
        rw [chunks_of_ne_nil hn hne, List.flatMap_cons, htake, fromUtf8Lossy_utf8, ih t' ht' hdrop.symm]
      · have hb : (utf8 s)[n * 1]? = some b := by
          rw [Nat.mul_one, ← Nat.add_zero n, ← List.getElem?_drop, hdrop]
          rfl
        rw [h 1 b hb] at hcont
        cases hcont

end Chunks

/-! ## ASCII -/

theorem utf8EncodeChar_ascii {c : Char} (h : c.toNat < 0x80) :
    String.utf8EncodeChar c = [UInt8.ofNat c.toNat] := by
  have hv : c.val.toNat ≤ 127 := by
    have : c.val.toNat = c.toNat := rfl
    omega
  unfold String.utf8EncodeChar
  rw [if_pos hv]
  rfl

theorem utf8_ascii {s : Text} (h : ∀ c ∈ s, c.toNat < 0x80) :
    utf8 s = s.map fun c => UInt8.ofNat c.toNat := by
  induction s with
  | nil => rfl
  | cons c s ih =>
    rw [utf8_cons, utf8EncodeChar_ascii (h c (by simp)), ih fun d hd => h d (by simp [hd])]
    rfl

theorem le_toNat_of_mem_utf8EncodeChar {c : Char} (hc : 0x80 ≤ c.toNat) {k : UInt8}
    (h : k ∈ String.utf8EncodeChar c) : 0x80 ≤ k.toNat := by
  have hbyte : ∀ n m, n < m → m + n < 256 → 0x80 ≤ m → 0x80 ≤ (UInt8.ofNat (n + m)).toNat := by
    intro n m _ _ _
    rw [byte_toNat _ (by omega)]
    omega
  have hv : ¬ c.val.toNat ≤ 127 := by
    have : c.val.toNat = c.toNat := rfl
    omega
  unfold String.utf8EncodeChar at h
  dsimp only at h
  rw [if_neg hv] at h
  generalize c.val.toNat = v at h
  split at h
  · simp only [List.mem_cons, List.not_mem_nil, or_false] at h
    rcases h with rfl | rfl <;> exact hbyte _ _ (by omega) (by omega) (by omega)
  split at h
  · simp only [List.mem_cons, List.not_mem_nil, or_false] at h
    rcases h with rfl | rfl | rfl <;> exact hbyte _ _ (by omega) (by omega) (by omega)
  · simp only [List.mem_cons, List.not_mem_nil, or_false] at h
    rcases h with rfl | rfl | rfl | rfl <;> exact hbyte _ _ (by omega) (by omega) (by omega)

theorem mem_of_mem_utf8 {k : Char} (hk : k.toNat < 0x80) {s : Text}
    (h : UInt8.ofNat k.toNat ∈ utf8 s) : k ∈ s := by
  obtain ⟨c, hc, h⟩ := List.mem_flatMap.mp h
  by_cases hlt : c.toNat < 0x80
  · rw [utf8EncodeChar_ascii hlt, List.mem_singleton] at h
    have h' := congrArg UInt8.toNat h
    rw [byte_toNat _ (by omega), byte_toNat _ (by omega)] at h'
    have : k = c := by rw [← Char.ofNat_toNat k, h', Char.ofNat_toNat]
    exact this ▸ hc
  · have := le_toNat_of_mem_utf8EncodeChar (by omega) h
    rw [byte_toNat _ (by omega)] at this
    omega

theorem eq_toNat_of_ofNat_eq {n : ℕ} {k : Char} (h0 : 0 < k.toNat) (h : Char.ofNat n = k) :
    n = k.toNat := by
  by_cases hvalid : n.isValidChar
  · rw [Char.ofNat, dif_pos hvalid] at h
    rw [← h]
    rfl
  · rw [Char.ofNat, dif_neg hvalid] at h
    subst h
    exact absurd h0 (by decide)

theorem charWidth_two {a : UInt8} (h : charWidth a = 2) : 0xC2 ≤ a.toNat ∧ a.toNat < 0xE0 := by
  unfold charWidth at h
  split_ifs at h <;> omega

theorem charWidth_three {a : UInt8} (h : charWidth a = 3) : 0xE0 ≤ a.toNat ∧ a.toNat < 0xF0 := by
  unfold charWidth at h
  split_ifs at h <;> omega

theorem charWidth_four {a : UInt8} (h : charWidth a = 4) : 0xF0 ≤ a.toNat ∧ a.toNat < 0xF5 := by
  unfold charWidth at h
  split_ifs at h <;> omega

theorem secondFits_overlong {a b : UInt8} (h : secondFits a b = true) :
    (a.toNat = 0xE0 → 0x20 ≤ b.toNat % 64) ∧ (a.toNat = 0xF0 → 0x10 ≤ b.toNat % 64) := by
  unfold secondFits at h
  constructor <;> intro ha <;> rw [ha] at h <;>
    simp only [reduceIte, Nat.reduceEqDiff, Bool.and_eq_true, decide_eq_true_eq] at h <;> omega

theorem scanChar_ascii {a : UInt8} {rest : Bytes} {k : Char} (hk : k.toNat < 0x80) (h0 : 0 < k.toNat)
    (h : (scanChar a rest).1.getD replacement = k) : a.toNat = k.toNat := by
  have hr : replacement ≠ k := by
    rintro rfl
    exact absurd hk (by decide)
  unfold scanChar at h
  dsimp only at h
  split at h
  · exact eq_toNat_of_ofNat_eq h0 h
  · split at h
    · have hn := eq_toNat_of_ofNat_eq h0 h
      have hw := charWidth_two ‹_›
      omega
    · exact absurd h hr
  · split at h
    · split at h
      · have hn := eq_toNat_of_ofNat_eq h0 h
        have hw := charWidth_three ‹_›
        have hs := secondFits_overlong ‹_›
        omega
      · exact absurd h hr
    · exact absurd h hr
  · split at h
    · split at h
      · split at h
        · have hn := eq_toNat_of_ofNat_eq h0 h
          have hw := charWidth_four ‹_›
          have hs := secondFits_overlong ‹_›
          omega
        · exact absurd h hr
      · exact absurd h hr
    · exact absurd h hr
  · exact absurd h hr

theorem mem_of_mem_fromUtf8Lossy {k : Char} (hk : k.toNat < 0x80) (h0 : 0 < k.toNat) {bs : Bytes}
    (h : k ∈ fromUtf8Lossy bs) : UInt8.ofNat k.toNat ∈ bs := by
  suffices key : ∀ n (bs : Bytes), bs.length ≤ n → k ∈ fromUtf8Lossy bs → UInt8.ofNat k.toNat ∈ bs from
    key bs.length bs le_rfl h
  intro n
  induction n with
  | zero =>
    intro bs hn h
    rw [List.eq_nil_of_length_eq_zero (Nat.le_zero.mp hn)] at h
    simp at h
  | succ n ih =>
    intro bs hn h
    cases bs with
    | nil => simp at h
    | cons a rest =>
      rw [fromUtf8Lossy_cons, List.mem_cons] at h
      rcases h with h | h
      · have := scanChar_ascii hk h0 h.symm
        rw [← this, UInt8.ofNat_toNat]
        simp
      · have hmem := ih _ (by simp at hn ⊢; omega) h
        exact List.mem_cons_of_mem _ (List.mem_of_mem_drop hmem)

end MiniDns.Lib
