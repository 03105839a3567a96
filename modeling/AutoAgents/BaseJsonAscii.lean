import AutoAgents.BaseJsonRead

/-! The spelling of a document in which only ASCII characters stand. What reads a text reads its spelling in ASCII, to the same document. -/

namespace Base

def hexDigits (n : Nat) : List Char :=
  [hexDigit (n / 4096), hexDigit (n / 256 % 16), hexDigit (n / 16 % 16), hexDigit (n % 16)]

/-- A character where only ASCII may stand: itself, one escape, or a pair of them. -/
def asciiChar (c : Char) : List Char :=
  if c.toNat < 127 then [c]
  else if c.toNat < 0x10000 then '\\' :: 'u' :: hexDigits c.toNat
  else '\\' :: 'u' :: hexDigits (0xD800 + (c.toNat - 0x10000) / 0x400) ++
    '\\' :: 'u' :: hexDigits (0xDC00 + (c.toNat - 0x10000) % 0x400)

def ensureAscii (text : List Char) : List Char := text.flatMap asciiChar

/-! ### Characters -/

theorem hex4_hexDigits {n : Nat} (h : n < 65536) :
    hex4 (hexDigit (n / 4096)) (hexDigit (n / 256 % 16)) (hexDigit (n / 16 % 16)) (hexDigit (n % 16)) = some n := by
  have hfirst := hexValue_hexDigit (n / 4096) (by omega)
  have hsecond := hexValue_hexDigit (n / 256 % 16) (by omega)
  have hthird := hexValue_hexDigit (n / 16 % 16) (by omega)
  have hfourth := hexValue_hexDigit (n % 16) (by omega)
  simp only [hex4, hfirst, hsecond, hthird, hfourth, Option.bind_eq_bind, Option.bind_some, Option.pure_def, Option.some.injEq]
  omega

theorem asciiChar_of_lt {c : Char} (h : c.toNat < 127) : asciiChar c = [c] := if_pos h

theorem asciiChar_of_ge {c : Char} (h : 127 ≤ c.toNat) : ∃ rest, asciiChar c = '\\' :: rest := by
  unfold asciiChar
  rw [if_neg (by omega)]
  split
  · exact ⟨_, rfl⟩
  · exact ⟨_, rfl⟩

theorem ensureAscii_cons (c : Char) (text : List Char) : ensureAscii (c :: text) = asciiChar c ++ ensureAscii text := rfl

theorem ensureAscii_keep {c : Char} (h : c.toNat < 127) (text : List Char) : ensureAscii (c :: text) = c :: ensureAscii text := by
  rw [ensureAscii_cons, asciiChar_of_lt h, List.singleton_append]

theorem ensureAscii_append (text text' : List Char) : ensureAscii (text ++ text') = ensureAscii text ++ ensureAscii text' :=
  List.flatMap_append

/-- What a spelling begins with, the text begins with, but for a backslash. -/
theorem of_ensureAscii_cons {text rest : List Char} {c : Char} (h : ensureAscii text = c :: rest) (hc : c ≠ '\\') :
    ∃ text', text = c :: text' ∧ rest = ensureAscii text' := by
  cases text with
  | nil => cases h
  | cons d text' =>
      by_cases hd : d.toNat < 127
      · rw [ensureAscii_keep hd] at h
        obtain ⟨rfl, rfl⟩ := List.cons.inj h
        exact ⟨text', rfl, rfl⟩
      · obtain ⟨later, hlater⟩ := asciiChar_of_ge (Nat.le_of_not_lt hd)
        rw [ensureAscii_cons, hlater, List.cons_append] at h
        exact absurd (List.cons.inj h).1.symm hc

theorem char_range (c : Char) : c.toNat < 0xD800 ∨ 0xDFFF < c.toNat ∧ c.toNat < 0x110000 := c.valid

theorem scanString_pair {a b d f a' b' d' f' : Char} {code low : Nat} (hcode : hex4 a b d f = some code)
    (hlow : hex4 a' b' d' f' = some low) (hhigh : 0xD800 ≤ code ∧ code ≤ 0xDBFF) (hrange : 0xDC00 ≤ low ∧ low ≤ 0xDFFF)
    (rest : List Char) :
    scanString ('\\' :: 'u' :: a :: b :: d :: f :: '\\' :: 'u' :: a' :: b' :: d' :: f' :: rest) =
      (scanString rest).map fun (s, rest) => (Char.ofNat (0x10000 + (code - 0xD800) * 0x400 + (low - 0xDC00)) :: s, rest) := by
  rw [scanString.eq_def]
  simp [hcode, hlow, hhigh, hrange]

theorem scanString_code {a b d f : Char} {code : Nat} (hcode : hex4 a b d f = some code)
    (hhigh : ¬ (0xD800 ≤ code ∧ code ≤ 0xDBFF)) (hlow : ¬ (0xDC00 ≤ code ∧ code ≤ 0xDFFF)) (rest : List Char) :
    scanString ('\\' :: 'u' :: a :: b :: d :: f :: rest) =
      (scanString rest).map fun (s, rest) => (Char.ofNat code :: s, rest) := by
  rw [scanString.eq_def]
  simp [hcode, hhigh, hlow]

/-- An escape is read as the character it stands for. -/
theorem scanString_asciiChar {c : Char} (h : 127 ≤ c.toNat) (rest : List Char) :
    scanString (asciiChar c ++ rest) = (scanString rest).map fun (s, rest) => (c :: s, rest) := by
  have hrange := char_range c
  unfold asciiChar
  rw [if_neg (by omega)]
  split
  · next hsmall =>
      rw [hexDigits]
      simp only [List.cons_append, List.nil_append]
      rw [scanString_code (hex4_hexDigits hsmall) (by omega) (by omega), Char.ofNat_toNat]
  · next hlarge =>
      obtain ⟨code, hcode⟩ : ∃ code, code = 0xD800 + (c.toNat - 0x10000) / 0x400 := ⟨_, rfl⟩
      obtain ⟨low, hlow⟩ : ∃ low, low = 0xDC00 + (c.toNat - 0x10000) % 0x400 := ⟨_, rfl⟩
      have hback : 0x10000 + (code - 0xD800) * 0x400 + (low - 0xDC00) = c.toNat := by omega
      rw [← hcode, ← hlow, hexDigits, hexDigits]
      simp only [List.cons_append, List.nil_append]
      rw [scanString_pair (hex4_hexDigits (by omega)) (hex4_hexDigits (by omega)) (by omega) (by omega), hback, Char.ofNat_toNat]

theorem hexValue_lt {c : Char} {n : Nat} (h : hexValue c = some n) : c.toNat < 127 := by
  unfold hexValue at h
  by_contra hnot
  have h1 : ¬ (48 ≤ c.toNat ∧ c.toNat ≤ 57) := by omega
  have h2 : ¬ (97 ≤ c.toNat ∧ c.toNat ≤ 102) := by omega
  have h3 : ¬ (65 ≤ c.toNat ∧ c.toNat ≤ 70) := by omega
  simp [h1, h2, h3] at h

theorem hex4_lt {a b c d : Char} {n : Nat} (h : hex4 a b c d = some n) :
    a.toNat < 127 ∧ b.toNat < 127 ∧ c.toNat < 127 ∧ d.toNat < 127 := by
  simp only [hex4, Option.bind_eq_bind, Option.bind_eq_some_iff] at h
  obtain ⟨w, ha, x, hb, y, hc, z, hd, -⟩ := h
  exact ⟨hexValue_lt ha, hexValue_lt hb, hexValue_lt hc, hexValue_lt hd⟩

theorem simpleEscape_lt {c d : Char} (h : simpleEscape c = some d) : c.toNat < 127 := by
  unfold simpleEscape at h
  by_contra hnot
  repeat
    split at h
    · next heq =>
        rw [heq] at hnot
        exact hnot (by decide)
  cases h

/-! ### Parts of a text -/

section

variable {p : Char → Bool} (hkept : ∀ c, p c = true → c.toNat < 127) (hstop : p '\\' = false)

include hkept hstop

theorem takeWhile_ensureAscii (text : List Char) : (ensureAscii text).takeWhile p = text.takeWhile p := by
  induction text with
  | nil => rfl
  | cons c text ih =>
      by_cases hc : c.toNat < 127
      · rw [ensureAscii_keep hc, List.takeWhile_cons, List.takeWhile_cons, ih]
      · obtain ⟨later, hlater⟩ := asciiChar_of_ge (Nat.le_of_not_lt hc)
        have hpc : p c = false := by
          by_contra hp
          exact hc (hkept c (by simpa using hp))
        rw [ensureAscii_cons, hlater, List.cons_append, List.takeWhile_cons, List.takeWhile_cons, hstop, hpc]
        rfl

theorem dropWhile_ensureAscii (text : List Char) : (ensureAscii text).dropWhile p = ensureAscii (text.dropWhile p) := by
  induction text with
  | nil => rfl
  | cons c text ih =>
      by_cases hc : c.toNat < 127
      · rw [ensureAscii_keep hc, List.dropWhile_cons, List.dropWhile_cons, ih]
        split
        · rfl
        · rw [ensureAscii_keep hc]
      · obtain ⟨later, hlater⟩ := asciiChar_of_ge (Nat.le_of_not_lt hc)
        have hpc : p c = false := by
          by_contra hp
          exact hc (hkept c (by simpa using hp))
        have hsame : (c :: text).dropWhile p = c :: text := by rw [List.dropWhile_cons, hpc, if_neg (by decide)]
        rw [hsame, ensureAscii_cons, hlater, List.cons_append, List.dropWhile_cons, hstop, if_neg (by decide)]

end

theorem isNumberChar_lt (c : Char) (h : isNumberChar c = true) : c.toNat < 127 := by
  simp only [isNumberChar, Bool.or_eq_true, beq_iff_eq, Char.isDigit, Bool.and_eq_true, decide_eq_true_eq, ge_iff_le] at h
  rcases h with ((((h | h) | h) | h) | h) | h
  · have hle := UInt32.le_iff_toNat_le.mp h.2
    exact Nat.lt_of_le_of_lt hle (by decide)
  all_goals
    rw [h]
    decide

theorem skipSpace_ensureAscii (text : List Char) : skipSpace (ensureAscii text) = ensureAscii (skipSpace text) := by
  apply dropWhile_ensureAscii
  · intro c h
    simp only [Bool.or_eq_true, beq_iff_eq] at h
    rcases h with ((h | h) | h) | h <;> rw [h] <;> decide
  · decide

theorem isPrefixOf_ensureAscii {word : List Char} (hword : ∀ c ∈ word, c.toNat < 127 ∧ c ≠ '\\') (text : List Char) :
    word.isPrefixOf (ensureAscii text) = word.isPrefixOf text := by
  induction word generalizing text with
  | nil => simp
  | cons d word ih =>
      obtain ⟨⟨hd, hslash⟩, hrest⟩ := List.forall_mem_cons.mp hword
      cases text with
      | nil => rfl
      | cons c text =>
          by_cases hc : c.toNat < 127
          · rw [ensureAscii_keep hc, List.isPrefixOf_cons_cons, List.isPrefixOf_cons_cons, ih hrest]
          · obtain ⟨later, hlater⟩ := asciiChar_of_ge (Nat.le_of_not_lt hc)
            have hne : (d == '\\') = false := beq_eq_false_iff_ne.mpr hslash
            have hne' : (d == c) = false := by
              rw [beq_eq_false_iff_ne]
              rintro rfl
              exact hc hd
            rw [ensureAscii_cons, hlater, List.cons_append, List.isPrefixOf_cons_cons, List.isPrefixOf_cons_cons, hne, hne']
            rfl

theorem ensureAscii_plain {word : List Char} (hword : ∀ c ∈ word, c.toNat < 127 ∧ c ≠ '\\') : ensureAscii word = word := by
  induction word with
  | nil => rfl
  | cons c word ih =>
      obtain ⟨hc, hrest⟩ := List.forall_mem_cons.mp hword
      rw [ensureAscii_keep hc.1, ih hrest]

/-! ### Reading -/

/-- A string whose spelling in ASCII stands in its place is the same string. -/
theorem scanString_ensureAscii {text s rest : List Char} (h : scanString text = some (s, rest)) :
    scanString (ensureAscii text) = some (s, ensureAscii rest) := by
  fun_induction scanString text generalizing s rest with
  | case2 text =>
      cases h
      rw [ensureAscii_keep (by decide), scanString.eq_def]
      rfl
  | case6 a b d f code hcode hhigh x y a' b' d' f' text low hlow hpair char hquote =>
      next ih =>
        obtain ⟨rfl, rfl, hrange⟩ := hpair
        obtain ⟨ha, hb, hd, hf⟩ := hex4_lt hcode
        obtain ⟨ha', hb', hd', hf'⟩ := hex4_lt hlow
        obtain ⟨⟨s', rest'⟩, hscan, hmap⟩ := Option.map_eq_some_iff.mp h
        cases hmap
        rw [ensureAscii_keep (by decide), ensureAscii_keep (by decide), ensureAscii_keep ha, ensureAscii_keep hb, ensureAscii_keep hd,
          ensureAscii_keep hf, ensureAscii_keep (by decide), ensureAscii_keep (by decide), ensureAscii_keep ha', ensureAscii_keep hb',
          ensureAscii_keep hd', ensureAscii_keep hf', scanString_pair hcode hlow hhigh hrange, ih hscan]
        rfl
  | case10 a b d f text code hcode hhigh hlow hquote ih =>
      obtain ⟨ha, hb, hd, hf⟩ := hex4_lt hcode
      obtain ⟨⟨s', rest'⟩, hscan, hmap⟩ := Option.map_eq_some_iff.mp h
      cases hmap
      rw [ensureAscii_keep (by decide), ensureAscii_keep (by decide), ensureAscii_keep ha, ensureAscii_keep hb, ensureAscii_keep hd,
        ensureAscii_keep hf, scanString_code hcode hhigh hlow, ih hscan]
      rfl
  | case13 e text hu char hchar hquote ih =>
      obtain ⟨⟨s', rest'⟩, hscan, hmap⟩ := Option.map_eq_some_iff.mp h
      cases hmap
      rw [ensureAscii_keep (by decide), ensureAscii_keep (simpleEscape_lt hchar), scanString.eq_def]
      simp [hu, hchar, ih hscan]
  | case15 c text hquote hslash hcontrol ih =>
      obtain ⟨⟨s', rest'⟩, hscan, hmap⟩ := Option.map_eq_some_iff.mp h
      cases hmap
      by_cases hc : c.toNat < 127
      · rw [ensureAscii_keep hc, scanString.eq_def]
        simp [hquote, hslash, hcontrol, ih hscan]
      · rw [ensureAscii_cons, scanString_asciiChar (Nat.le_of_not_lt hc), ih hscan]
        rfl
  | _ => cases h

variable {φ : Type} [FloatText φ]

omit [FloatText φ] in
theorem words_plain : ∀ word ∈ (words : List (List Char × Json φ)), ∀ c ∈ word.1, c.toNat < 127 ∧ c ≠ '\\' := by
  have htexts : ∀ text ∈ [['n', 'u', 'l', 'l'], ['t', 'r', 'u', 'e'], ['f', 'a', 'l', 's', 'e'], NonFinite.nan.text, NonFinite.infinity.text,
      NonFinite.negInfinity.text], (text.all fun c => decide (c.toNat < 127) && c != '\\') = true := by decide
  intro word hword
  have hplain : ∀ text ∈ [['n', 'u', 'l', 'l'], ['t', 'r', 'u', 'e'], ['f', 'a', 'l', 's', 'e'], NonFinite.nan.text, NonFinite.infinity.text,
      NonFinite.negInfinity.text], ∀ c ∈ text, c.toNat < 127 ∧ c ≠ '\\' := by
    intro text htext c hc
    simpa using List.all_eq_true.mp (htexts text htext) c hc
  apply hplain
  simp only [words, List.mem_cons, List.not_mem_nil, or_false] at hword
  rcases hword with rfl | rfl | rfl | rfl | rfl | rfl <;> simp

theorem parseAtom_ensureAscii {text rest : List Char} {v : Json φ} (h : parseAtom text = some (v, rest)) :
    parseAtom (ensureAscii text) = some (v, ensureAscii rest) := by
  have hfind : (words : List (List Char × Json φ)).find? (fun word => word.1.isPrefixOf (ensureAscii text)) =
      words.find? fun word => word.1.isPrefixOf text := by
    apply List.find?_congr
    intro word hword
    exact isPrefixOf_ensureAscii (words_plain word hword) text
  unfold parseAtom at h ⊢
  rw [hfind, takeWhile_ensureAscii isNumberChar_lt (by decide), dropWhile_ensureAscii isNumberChar_lt (by decide)]
  split at h
  · next word v' hword =>
      have hprefix : word.isPrefixOf text = true := List.find?_some (p := fun word : List Char × Json φ => word.1.isPrefixOf text) hword
      obtain ⟨text', rfl⟩ := List.isPrefixOf_iff_prefix.mp hprefix
      have hplain := words_plain _ (List.mem_of_find?_eq_some hword)
      simp only [List.drop_left] at h
      cases h
      simp only [ensureAscii_append, ensureAscii_plain hplain, List.drop_left]
  · next hnone =>
      obtain ⟨v', hnumber, hmap⟩ := Option.map_eq_some_iff.mp h
      cases hmap
      simp [hnumber]

mutual
/-- What is read from a text is read from its spelling. -/
theorem parseValue_ensureAscii : ∀ (n : Nat) {text rest : List Char} {v : Json φ}, parseValue n text = some (v, rest) →
    parseValue n (ensureAscii text) = some (v, ensureAscii rest)
  | 0, _, _, _, h => nomatch h
  | n + 1, [], _, _, h => nomatch h
  | n + 1, c :: text, rest, v, h => by
      rw [parseValue.eq_def] at h
      simp only at h
      split at h
      · next hquote =>
          obtain ⟨⟨s, rest'⟩, hscan, hmap⟩ := Option.map_eq_some_iff.mp h
          cases hmap
          rw [hquote, ensureAscii_keep (by decide), parseValue, if_pos rfl, scanString_ensureAscii hscan]
          rfl
      split at h
      · next hquote hbracket =>
          rw [hbracket, ensureAscii_keep (by decide), parseValue, if_neg (by decide), if_pos rfl, skipSpace_ensureAscii]
          split at h
          · next text' heq =>
              cases h
              rw [heq, ensureAscii_keep (by decide)]
              rfl
          · next hother =>
              obtain ⟨⟨items, rest'⟩, hitems, hmap⟩ := Option.map_eq_some_iff.mp h
              cases hmap
              split
              · next later heq =>
                  obtain ⟨text', htext, -⟩ := of_ensureAscii_cons heq (by decide)
                  exact absurd htext (hother text')
              · rw [parseItems_ensureAscii n hitems]
                rfl
      split at h
      · next hquote hbracket hbrace =>
          rw [hbrace, ensureAscii_keep (by decide), parseValue, if_neg (by decide), if_neg (by decide), if_pos rfl, skipSpace_ensureAscii]
          split at h
          · next text' heq =>
              cases h
              rw [heq, ensureAscii_keep (by decide)]
              rfl
          · next hother =>
              obtain ⟨⟨pairs, rest'⟩, hpairs, hmap⟩ := Option.map_eq_some_iff.mp h
              cases hmap
              split
              · next later heq =>
                  obtain ⟨text', htext, -⟩ := of_ensureAscii_cons heq (by decide)
                  exact absurd htext (hother text')
              · rw [parseFields_ensureAscii n hpairs]
                rfl
      · next hquote hbracket hbrace =>
          have hatom := parseAtom_ensureAscii h
          by_cases hc : c.toNat < 127
          · rw [ensureAscii_keep hc] at hatom ⊢
            rw [parseValue, if_neg hquote, if_neg hbracket, if_neg hbrace, hatom]
          · obtain ⟨later, hlater⟩ := asciiChar_of_ge (Nat.le_of_not_lt hc)
            rw [ensureAscii_cons, hlater, List.cons_append] at hatom ⊢
            rw [parseValue, if_neg (by decide), if_neg (by decide), if_neg (by decide), hatom]

theorem parseItems_ensureAscii : ∀ (n : Nat) {text rest : List Char} {items : List (Json φ)},
    parseItems n text = some (items, rest) → parseItems n (ensureAscii text) = some (items, ensureAscii rest)
  | 0, _, _, _, h => nomatch h
  | n + 1, text, rest, items, h => by
      rw [parseItems] at h
      split at h
      · cases h
      next v later hvalue =>
      rw [parseItems, parseValue_ensureAscii n hvalue]
      simp only [skipSpace_ensureAscii]
      split at h
      · next heq =>
          cases h
          rw [heq, ensureAscii_keep (by decide)]
          rfl
      · next text' heq =>
          obtain ⟨⟨more, rest'⟩, hmore, hmap⟩ := Option.map_eq_some_iff.mp h
          cases hmap
          rw [heq, ensureAscii_keep (by decide)]
          simp only [skipSpace_ensureAscii, parseItems_ensureAscii n hmore]
          rfl
      · cases h

theorem parseFields_ensureAscii : ∀ (n : Nat) {text rest : List Char} {fields : List (String × Json φ)},
    parseFields n text = some (fields, rest) → parseFields n (ensureAscii text) = some (fields, ensureAscii rest)
  | 0, _, _, _, h => nomatch h
  | n + 1, text, rest, fields, h => by
      rw [parseFields.eq_def] at h
      simp only at h
      split at h
      · next text' =>
          split at h
          · cases h
          next key later hkey =>
          rw [ensureAscii_keep (by decide), parseFields, scanString_ensureAscii hkey]
          simp only [skipSpace_ensureAscii]
          split at h
          · next text' heq =>
              split at h
              · cases h
              next v later' hvalue =>
              rw [heq, ensureAscii_keep (by decide)]
              simp only [skipSpace_ensureAscii, parseValue_ensureAscii n hvalue]
              split at h
              · next hend =>
                  cases h
                  rw [hend, ensureAscii_keep (by decide)]
                  rfl
              · next text'' hcomma =>
                  obtain ⟨⟨more, rest'⟩, hmore, hmap⟩ := Option.map_eq_some_iff.mp h
                  cases hmap
                  rw [hcomma, ensureAscii_keep (by decide)]
                  simp only [skipSpace_ensureAscii, parseFields_ensureAscii n hmore]
                  rfl
              · cases h
          · cases h
      · cases h
end

theorem length_ensureAscii (text : List Char) : text.length ≤ (ensureAscii text).length := by
  induction text with
  | nil => exact Nat.le_refl 0
  | cons c text ih =>
      rw [ensureAscii_cons, List.length_cons, List.length_append]
      have hpos : 0 < (asciiChar c).length := by
        by_cases hc : c.toNat < 127
        · simp [asciiChar_of_lt hc]
        · obtain ⟨later, hlater⟩ := asciiChar_of_ge (Nat.le_of_not_lt hc)
          simp [hlater]
      omega

/-- Decoding the ASCII spelling of a document gives it back. -/
theorem decode_ensureAscii {v : Json φ} (hv : v.Distinct) : decode (ensureAscii v.encode) = some v := by
  have hlength := length_ensureAscii v.encode
  have hvalue := parseValue_encode v hv ((ensureAscii v.encode).length + 1) [] (by omega) ends_nil
  have hskip := skipSpace_encode v []
  rw [List.append_nil] at hvalue hskip
  rw [decode, skipSpace_ensureAscii, hskip, parseValue_ensureAscii _ hvalue]
  rfl

/-- A document without repeated fields is told by its ASCII spelling. -/
theorem ensureAscii_injective {v w : Json φ} (hv : v.Distinct) (hw : w.Distinct) (h : ensureAscii v.encode = ensureAscii w.encode) :
    v = w := by
  have hdecode := decode_ensureAscii hv
  rw [h, decode_ensureAscii hw] at hdecode
  exact (Option.some.inj hdecode).symm

end Base
