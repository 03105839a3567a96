import AutoAgents.BaseJson

/-! Decoding an encoded document gives it back. Every text that the encoder writes is followed by what cannot
continue it, so the decoder takes it whole. -/

namespace Base

/-! ### Strings -/

theorem hexValue_hexDigit : ∀ n < 16, hexValue (hexDigit n) = some n := by decide

theorem scanString_escapeChar (c : Char) (rest : List Char) :
    scanString (escapeChar c ++ rest) = (scanString rest).map fun (s, rest) => (c :: s, rest) := by
  unfold escapeChar
  split
  · next h => subst h; rw [scanString.eq_def]; simp [simpleEscape]
  split
  · next h => subst h; rw [scanString.eq_def]; simp [simpleEscape]
  split
  · next h => subst h; rw [scanString.eq_def]; simp [simpleEscape]
  split
  · next h => subst h; rw [scanString.eq_def]; simp [simpleEscape]
  split
  · next h => subst h; rw [scanString.eq_def]; simp [simpleEscape]
  split
  · next h => subst h; rw [scanString.eq_def]; simp [simpleEscape]
  split
  · next h => subst h; rw [scanString.eq_def]; simp [simpleEscape]
  split
  · next hcontrol =>
      have hhigh := hexValue_hexDigit (c.toNat / 16) (by omega)
      have hlow := hexValue_hexDigit (c.toNat % 16) (by omega)
      have hzero : hexValue '0' = some 0 := by decide
      have hcode : hex4 '0' '0' (hexDigit (c.toNat / 16)) (hexDigit (c.toNat % 16)) = some c.toNat := by
        simp only [hex4, hhigh, hlow, hzero, Option.bind_eq_bind, Option.bind_some, Option.pure_def,
          Option.some.injEq]
        omega
      rw [scanString.eq_def]
      have hsurrogate : ¬ (0xD800 ≤ c.toNat ∧ c.toNat ≤ 0xDBFF) := by omega
      have hlowSurrogate : ¬ (0xDC00 ≤ c.toNat ∧ c.toNat ≤ 0xDFFF) := by omega
      simp [hcode, hsurrogate, hlowSurrogate]
  · next hquote hbackslash _ _ _ _ _ hcontrol =>
      rw [List.singleton_append, scanString.eq_def]
      simp [hquote, hbackslash, hcontrol]

/-- A string is read up to its closing quote. -/
theorem scanString_encoded (s rest : List Char) : scanString (s.flatMap escapeChar ++ '\x22' :: rest) = some (s, rest) := by
  induction s with
  | nil => rw [List.flatMap_nil, List.nil_append, scanString.eq_def]; simp
  | cons c s ih =>
      rw [List.flatMap_cons, List.append_assoc, scanString_escapeChar, ih]
      rfl

/-- A string that is cut off has no end. -/
theorem scanString_cut (s : List Char) : scanString (s.flatMap escapeChar) = none := by
  induction s with
  | nil => rfl
  | cons c s ih => rw [List.flatMap_cons, scanString_escapeChar, ih]; rfl

/-! ### Numbers -/

/-- What follows cannot belong to a number. -/
def Ends (rest : List Char) : Prop := ∀ c ∈ rest.head?, isNumberChar c = false

theorem takeWhile_ends {token rest : List Char} (htoken : token.all isNumberChar = true) (hrest : Ends rest) :
    (token ++ rest).takeWhile isNumberChar = token ∧ (token ++ rest).dropWhile isNumberChar = rest := by
  have hall : ∀ c ∈ token, isNumberChar c = true := by simpa using htoken
  rw [List.takeWhile_append_of_pos hall, List.dropWhile_append_of_pos hall]
  cases rest with
  | nil => simp
  | cons c rest =>
      have hc : isNumberChar c = false := hrest c rfl
      simp [hc]

theorem toDigits_all (n : Nat) : (Nat.toDigits 10 n).all Char.isDigit = true := by
  rw [List.all_eq_true]
  exact fun c hc => Nat.isDigit_of_mem_toDigits (by decide) (by decide) hc

/-- Only zero is written with a leading zero. -/
theorem toDigits_head {n : Nat} (h : 0 < n) : (Nat.toDigits 10 n).head? ≠ some '0' := by
  induction n using Nat.strongRecOn with
  | _ n ih =>
      by_cases hsmall : n < 10
      · rw [Nat.toDigits_of_lt_base hsmall, List.head?_cons]
        simp
        omega
      · rw [Nat.toDigits_of_base_le (by decide) (by omega), List.head?_append_of_ne_nil _ Nat.toDigits_ne_nil]
        exact ih (n / 10) (by omega) (by omega)

theorem wholeLiteral_toDigits (n : Nat) : wholeLiteral (Nat.toDigits 10 n) = true := by
  unfold wholeLiteral
  rw [toDigits_all]
  by_cases hzero : n = 0
  · subst hzero
    decide
  · have hhead := toDigits_head (Nat.pos_of_ne_zero hzero)
    simp [Nat.toDigits_ne_nil, hhead]

theorem wholeLiteral_head {digits : List Char} (h : wholeLiteral digits = true) :
    ∃ c rest, digits = c :: rest ∧ c.isDigit = true := by
  cases digits with
  | nil => cases h
  | cons c rest =>
      simp only [wholeLiteral, List.all_cons, Bool.and_eq_true] at h
      exact ⟨c, rest, rfl, h.1.2.1⟩

theorem isNumberChar_of_isDigit {c : Char} (h : c.isDigit = true) : isNumberChar c = true := by
  simp [isNumberChar, h]

theorem toDigits_unsigned (n : Nat) : unsigned (Nat.toDigits 10 n) = Nat.toDigits 10 n := by
  obtain ⟨c, rest, heq, hdigit⟩ := wholeLiteral_head (wholeLiteral_toDigits n)
  rw [heq]
  unfold unsigned
  split
  · next h =>
      obtain ⟨rfl, rfl⟩ := List.cons.inj h
      cases hdigit
  · rfl

theorem encodeInt_literal (n : Int) : intLiteral (encodeInt n) = true := by
  unfold encodeInt intLiteral
  split
  · exact wholeLiteral_toDigits _
  · rw [toDigits_unsigned]
    exact wholeLiteral_toDigits _

theorem encodeInt_chars (n : Int) : (encodeInt n).all isNumberChar = true := by
  have hdigits : (Nat.toDigits 10 n.natAbs).all isNumberChar = true := by
    rw [List.all_eq_true]
    intro c hc
    exact isNumberChar_of_isDigit (List.all_eq_true.mp (toDigits_all _) c hc)
  unfold encodeInt
  split
  · rw [List.all_cons, hdigits]
    decide
  · exact hdigits

theorem intOf_encodeInt (n : Int) : intOf (encodeInt n) = n := by
  have hdigits : Nat.ofDigitChars 10 (Nat.toDigits 10 n.natAbs) 0 = n.natAbs :=
    Nat.ofDigitChars_toDigits (by decide) (by decide)
  unfold encodeInt
  split
  · simp only [intOf, hdigits]
    omega
  · have hunsigned := toDigits_unsigned n.natAbs
    unfold intOf
    split
    · next digits heq =>
        rw [heq] at hunsigned
        exact absurd hunsigned (by simp [unsigned])
    · rw [hdigits]
      omega

/-- No number is both an integer and a float. -/
theorem intLiteral_of_floatLiteral {token : List Char} (h : floatLiteral token = true) : intLiteral token = false := by
  unfold floatLiteral at h
  cases hint : intLiteral token with
  | false => rfl
  | true =>
      unfold intLiteral wholeLiteral at hint
      simp only [Bool.and_eq_true] at hint
      have hdrop : (unsigned token).dropWhile Char.isDigit = [] := by
        rw [List.dropWhile_eq_nil_iff]
        exact List.all_eq_true.mp hint.1.2
      rw [hdrop] at h
      cases h

/-- A number starts with a digit, or with a sign and a digit. -/
theorem number_head {token : List Char} (h : intLiteral token = true ∨ floatLiteral token = true) :
    ∃ c rest, unsigned token = c :: rest ∧ c.isDigit = true := by
  rcases h with hint | hfloat
  · exact wholeLiteral_head hint
  · have hwhole : wholeLiteral ((unsigned token).takeWhile Char.isDigit) = true := by
      unfold floatLiteral at hfloat
      simp only at hfloat
      split at hfloat
      · cases hfloat
      · simp only [Bool.and_eq_true] at hfloat
        exact hfloat.1.1
      · simp only [Bool.and_eq_true] at hfloat
        exact hfloat.1
    obtain ⟨c, rest, heq, hdigit⟩ := wholeLiteral_head hwhole
    cases hunsigned : unsigned token with
    | nil => rw [hunsigned] at heq; cases heq
    | cons d text =>
        rw [hunsigned, List.takeWhile_cons] at heq
        split at heq
        · next hd => exact ⟨d, text, rfl, hd⟩
        · cases heq

variable {φ : Type}

mutual
/-- No object has a field twice. -/
def Json.Distinct : Json φ → Prop
  | .arr items => DistinctItems items
  | .obj fields => (fields.map Prod.fst).Nodup ∧ DistinctFields fields
  | _ => True

def DistinctItems : List (Json φ) → Prop
  | [] => True
  | v :: rest => v.Distinct ∧ DistinctItems rest

def DistinctFields : List (String × Json φ) → Prop
  | [] => True
  | (_, v) :: rest => v.Distinct ∧ DistinctFields rest
end

theorem distinctItems_iff {items : List (Json φ)} : DistinctItems items ↔ ∀ v ∈ items, v.Distinct := by
  induction items with
  | nil => simp [DistinctItems]
  | cons v rest ih => simp [DistinctItems, ih]

theorem distinctFields_iff {fields : List (String × Json φ)} :
    DistinctFields fields ↔ ∀ field ∈ fields, field.2.Distinct := by
  induction fields with
  | nil => simp [DistinctFields]
  | cons field rest ih => simp [DistinctFields, ih]

theorem words_find?_number {token rest : List Char} (h : intLiteral token = true ∨ floatLiteral token = true) :
    (words : List (List Char × Json φ)).find? (fun word => word.1.isPrefixOf (token ++ rest)) = none := by
  obtain ⟨c, text, hunsigned, hdigit⟩ := number_head h
  have hne : ∀ d : Char, d.isDigit = false → ¬ d = c := by
    rintro d hd rfl
    rw [hd] at hdigit
    cases hdigit
  have hn := hne 'n' (by decide)
  have ht := hne 't' (by decide)
  have hf := hne 'f' (by decide)
  have hN := hne 'N' (by decide)
  have hI := hne 'I' (by decide)
  have hminus := hne '-' (by decide)
  unfold unsigned at hunsigned
  split at hunsigned
  · subst hunsigned
    simp [words, NonFinite.text, hI]
  · subst hunsigned
    simp [words, NonFinite.text, hn, ht, hf, hN, hI, hminus]

variable [FloatText φ]

theorem parseAtom_number {token rest : List Char} {v : Json φ} (h : intLiteral token = true ∨ floatLiteral token = true)
    (hchars : token.all isNumberChar = true) (hv : numberOf token = some v) (hrest : Ends rest) :
    parseAtom (token ++ rest) = some (v, rest) := by
  obtain ⟨htake, hdrop⟩ := takeWhile_ends hchars hrest
  unfold parseAtom
  rw [words_find?_number h, htake, hdrop, hv]
  rfl

theorem parseAtom_word {word : List Char} {v : Json φ} (rest : List Char) (h : (word, v) ∈ (words : List (List Char × Json φ))) :
    parseAtom (word ++ rest) = some (v, rest) := by
  simp only [words, List.mem_cons, List.not_mem_nil, or_false, Prod.mk.injEq] at h
  rcases h with ⟨rfl, rfl⟩ | ⟨rfl, rfl⟩ | ⟨rfl, rfl⟩ | ⟨rfl, rfl⟩ | ⟨rfl, rfl⟩ | ⟨rfl, rfl⟩ <;>
    simp [parseAtom, words, NonFinite.text]

/-! ### Documents -/

theorem setField_new {α : Type} {fields : List (String × α)} {key : String} {value : α}
    (h : key ∉ fields.map Prod.fst) : setField fields key value = fields ++ [(key, value)] := by
  unfold setField
  rw [if_neg]
  simpa [List.any_eq_true] using h

/-- An object whose fields are distinct is made of them as they come. -/
theorem objectOf_eq {α : Type} {pairs : List (String × α)} (h : (pairs.map Prod.fst).Nodup) : objectOf pairs = pairs := by
  have hall : ∀ before : List (String × α), ((before ++ pairs).map Prod.fst).Nodup →
      pairs.foldl (fun fields pair => setField fields pair.1 pair.2) before = before ++ pairs := by
    clear h
    induction pairs with
    | nil => intro before _; rw [List.append_nil]; rfl
    | cons pair rest ih =>
        intro before hnodup
        have hnew : pair.1 ∉ before.map Prod.fst := by
          intro hmem
          rw [List.map_append, List.nodup_append] at hnodup
          exact hnodup.2.2 _ hmem _ (List.mem_map_of_mem List.mem_cons_self) rfl
        rw [List.foldl_cons, setField_new hnew, ih, List.append_assoc]
        · rfl
        · rwa [List.append_assoc, List.singleton_append]
  exact hall [] (by simpa using h)

/-- The first character of a document is none of these. -/
theorem encode_head (v : Json φ) : ∃ c rest, v.encode = c :: rest ∧ c ≠ ']' ∧ c ≠ '\x7d' ∧
    (c == ' ' || c == '\t' || c == '\n' || c == '\r') = false := by
  have hnumber : ∀ token : List Char, intLiteral token = true ∨ floatLiteral token = true →
      ∃ c rest, token = c :: rest ∧ c ≠ ']' ∧ c ≠ '\x7d' ∧
        (c == ' ' || c == '\t' || c == '\n' || c == '\r') = false := by
    intro token h
    obtain ⟨c, text, hunsigned, hdigit⟩ := number_head h
    unfold unsigned at hunsigned
    split at hunsigned
    · exact ⟨_, _, rfl, by decide, by decide, by decide⟩
    · refine ⟨c, text, hunsigned, ?_, ?_, ?_⟩
      · rintro rfl
        cases hdigit
      · rintro rfl
        cases hdigit
      · simp only [Bool.or_eq_false_iff, beq_eq_false_iff_ne]
        refine ⟨⟨⟨?_, ?_⟩, ?_⟩, ?_⟩ <;> rintro rfl <;> cases hdigit
  cases v with
  | int n => exact hnumber _ (Or.inl (encodeInt_literal n))
  | float x => exact hnumber _ (Or.inr (FloatText.repr_literal x))
  | bool b => cases b <;> exact ⟨_, _, rfl, by decide, by decide, by decide⟩
  | nonFinite x => cases x <;> exact ⟨_, _, rfl, by decide, by decide, by decide⟩
  | _ => exact ⟨_, _, rfl, by decide, by decide, by decide⟩

theorem skipSpace_encode (v : Json φ) (rest : List Char) : skipSpace (v.encode ++ rest) = v.encode ++ rest := by
  obtain ⟨c, text, heq, -, -, hspace⟩ := encode_head v
  rw [heq]
  simp [skipSpace, hspace]

theorem encodeItems_head {items : List (Json φ)} (h : items ≠ []) : ∃ v rest, encodeItems items = v.encode ++ rest ∧ v ∈ items := by
  match items, h with
  | [v], _ => exact ⟨v, [], (List.append_nil _).symm, List.mem_cons_self⟩
  | v :: w :: rest, _ => exact ⟨v, _, rfl, List.mem_cons_self⟩

theorem encodeFields_head {fields : List (String × Json φ)} (h : fields ≠ []) :
    ∃ rest, encodeFields fields = '\x22' :: rest := by
  match fields, h with
  | [(k, v)], _ => exact ⟨k.toList.flatMap escapeChar ++ ['\x22'] ++ ':' :: v.encode, by simp [encodeFields, encodeString]⟩
  | (k, v) :: field :: rest, _ =>
      refine ⟨k.toList.flatMap escapeChar ++ ['\x22'] ++ ':' :: v.encode ++ ',' :: encodeFields (field :: rest), ?_⟩
      simp [encodeFields, encodeString]

theorem ends_cons {c : Char} (rest : List Char) (h : isNumberChar c = false) : Ends (c :: rest) := by
  intro d hd
  obtain rfl : c = d := by simpa using hd
  exact h

theorem ends_nil : Ends [] := fun _ h => nomatch h

theorem skipSpace_stop {c : Char} {rest : List Char} (h : (c == ' ' || c == '\t' || c == '\n' || c == '\r') = false) :
    skipSpace (c :: rest) = c :: rest := by
  simp [skipSpace, h]

theorem skipSpace_encodeItems {items : List (Json φ)} (h : items ≠ []) (rest : List Char) :
    skipSpace (encodeItems items ++ rest) = encodeItems items ++ rest := by
  obtain ⟨v, text, htext, -⟩ := encodeItems_head h
  rw [htext, List.append_assoc, skipSpace_encode]

theorem skipSpace_encodeFields {fields : List (String × Json φ)} (h : fields ≠ []) (rest : List Char) :
    skipSpace (encodeFields fields ++ rest) = encodeFields fields ++ rest := by
  obtain ⟨text, htext⟩ := encodeFields_head h
  rw [htext, List.cons_append, skipSpace_stop (by decide)]

mutual
/-- A document is read back, whatever stands behind it that cannot continue it. -/
theorem parseValue_encode (v : Json φ) (hv : v.Distinct) (n : Nat) (rest : List Char) (hn : v.encode.length ≤ n)
    (hrest : Ends rest) : parseValue n (v.encode ++ rest) = some (v, rest) := by
  obtain ⟨c, text, hhead, -, -, -⟩ := encode_head v
  obtain ⟨m, rfl⟩ : ∃ m, n = m + 1 := by
    rw [hhead, List.length_cons] at hn
    exact ⟨n - 1, by omega⟩
  have hatom : c ≠ '\x22' → c ≠ '[' → c ≠ '\x7b' →
      parseValue (m + 1) (v.encode ++ rest) = (parseAtom (v.encode ++ rest) : Option (Json φ × List Char)) := by
    intro hquote hbracket hbrace
    rw [hhead, List.cons_append, parseValue]
    simp [hquote, hbracket, hbrace]
  have hnumber : ∀ token, v.encode = token → intLiteral token = true ∨ floatLiteral token = true →
      token.all isNumberChar = true → numberOf token = some v → parseValue (m + 1) (v.encode ++ rest) = some (v, rest) := by
    rintro token rfl hliteral hchars hof
    have hc : isNumberChar c = true := by
      rw [hhead, List.all_cons, Bool.and_eq_true] at hchars
      exact hchars.1
    rw [hatom, parseAtom_number hliteral hchars hof hrest] <;> rintro rfl <;> cases hc
  have hword : ∀ word, v.encode = word → (word, v) ∈ (words : List (List Char × Json φ)) → c ≠ '\x22' → c ≠ '[' → c ≠ '\x7b' →
      parseValue (m + 1) (v.encode ++ rest) = some (v, rest) := by
    rintro word rfl hmem hquote hbracket hbrace
    rw [hatom hquote hbracket hbrace, parseAtom_word rest hmem]
  match v with
  | .null => cases hhead; exact hword _ rfl (by simp [words, Json.encode]) (by decide) (by decide) (by decide)
  | .bool true => cases hhead; exact hword _ rfl (by simp [words, Json.encode]) (by decide) (by decide) (by decide)
  | .bool false => cases hhead; exact hword _ rfl (by simp [words, Json.encode]) (by decide) (by decide) (by decide)
  | .nonFinite .nan => cases hhead; exact hword _ rfl (by simp [words, Json.encode]) (by decide) (by decide) (by decide)
  | .nonFinite .infinity => cases hhead; exact hword _ rfl (by simp [words, Json.encode]) (by decide) (by decide) (by decide)
  | .nonFinite .negInfinity => cases hhead; exact hword _ rfl (by simp [words, Json.encode]) (by decide) (by decide) (by decide)
  | .int i =>
      refine hnumber _ rfl (Or.inl (encodeInt_literal i)) (encodeInt_chars i) ?_
      rw [Json.encode, numberOf, if_pos (encodeInt_literal i), intOf_encodeInt]
  | .float x =>
      have hliteral := FloatText.repr_literal x
      refine hnumber _ rfl (Or.inr hliteral) (FloatText.repr_chars x) ?_
      rw [Json.encode, numberOf, if_neg (by simp [intLiteral_of_floatLiteral hliteral]), if_pos hliteral,
        FloatText.ofText_repr]
  | .str s =>
      rw [Json.encode, encodeString, List.cons_append, List.cons_append, List.append_assoc, List.singleton_append,
        parseValue]
      simp [scanString_encoded]
  | .arr [] =>
      rw [Json.encode, encodeItems, parseValue.eq_def]
      simp [skipSpace]
  | .arr (w :: items) =>
      obtain ⟨u, later, hlater, -⟩ := encodeItems_head (List.cons_ne_nil w items)
      obtain ⟨d, text', hd, hbracket, -, -⟩ := encode_head u
      have hlen : (encodeItems (w :: items)).length + 1 ≤ m := by
        rw [Json.encode, List.length_append, List.length_cons, List.length_singleton] at hn
        omega
      have hitems := parseItems_encode (w :: items) hv (List.cons_ne_nil w items) m rest hlen
      have hskip := skipSpace_encodeItems (List.cons_ne_nil w items) (']' :: rest)
      rw [Json.encode, List.cons_append, List.cons_append, List.append_assoc, List.singleton_append, parseValue]
      simp only [if_neg (show ¬ '[' = '\x22' by decide), if_true, hskip]
      rw [hlater, hd, List.append_assoc, List.cons_append] at hitems ⊢
      split
      · next heq => exact absurd (List.cons.inj heq).1 hbracket
      · rw [hitems]
        rfl
  | .obj [] =>
      rw [Json.encode, encodeFields, parseValue.eq_def]
      simp [skipSpace]
  | .obj (field :: fields) =>
      obtain ⟨later, hlater⟩ := encodeFields_head (List.cons_ne_nil field fields)
      have hlen : (encodeFields (field :: fields)).length + 1 ≤ m := by
        rw [Json.encode, List.length_append, List.length_cons, List.length_singleton] at hn
        omega
      have hfields := parseFields_encode (field :: fields) hv.2 (List.cons_ne_nil field fields) m rest hlen
      have hskip := skipSpace_encodeFields (List.cons_ne_nil field fields) ('\x7d' :: rest)
      rw [Json.encode, List.cons_append, List.cons_append, List.append_assoc, List.singleton_append, parseValue]
      simp only [if_neg (show ¬ '\x7b' = '\x22' by decide), if_neg (show ¬ '\x7b' = '[' by decide), if_true, hskip]
      rw [hlater, List.cons_append] at hfields ⊢
      split
      · next heq => exact absurd (List.cons.inj heq).1 (by decide)
      · rw [hfields, Option.map_some, objectOf_eq hv.1]

theorem parseItems_encode (items : List (Json φ)) (hitems : DistinctItems items) (hne : items ≠ []) (n : Nat)
    (rest : List Char) (hn : (encodeItems items).length + 1 ≤ n) :
    parseItems n (encodeItems items ++ ']' :: rest) = some (items, rest) := by
  obtain ⟨m, rfl⟩ : ∃ m, n = m + 1 := ⟨n - 1, by omega⟩
  match items, hitems with
  | [], _ => exact absurd rfl hne
  | [v], hv =>
      have hlen : v.encode.length ≤ m := by simpa [encodeItems] using hn
      rw [encodeItems, parseItems, parseValue_encode v hv.1 m (']' :: rest) hlen (ends_cons rest (by decide))]
      rfl
  | v :: w :: later, hv =>
      rw [encodeItems, List.length_append, List.length_cons] at hn
      have hlater := parseItems_encode (w :: later) hv.2 (List.cons_ne_nil w later) m rest (by omega)
      have hfirst := parseValue_encode v hv.1 m (',' :: (encodeItems (w :: later) ++ ']' :: rest))
        (by omega) (ends_cons _ (by decide))
      rw [encodeItems, List.append_assoc, List.cons_append, parseItems, hfirst]
      simp only
      rw [skipSpace_stop (by decide)]
      simp only
      rw [skipSpace_encodeItems (List.cons_ne_nil w later), hlater]
      rfl

theorem parseFields_encode (fields : List (String × Json φ)) (hfields : DistinctFields fields) (hne : fields ≠ [])
    (n : Nat) (rest : List Char) (hn : (encodeFields fields).length + 1 ≤ n) :
    parseFields n (encodeFields fields ++ '\x7d' :: rest) = some (fields, rest) := by
  obtain ⟨m, rfl⟩ : ∃ m, n = m + 1 := ⟨n - 1, by omega⟩
  match fields, hfields with
  | [], _ => exact absurd rfl hne
  | [(k, v)], hv =>
      have hlen : v.encode.length ≤ m := by
        simp only [encodeFields, encodeString, List.length_append, List.length_cons] at hn
        omega
      have hfirst := parseValue_encode v hv.1 m ('\x7d' :: rest) hlen (ends_cons rest (by decide))
      simp only [encodeFields, encodeString, List.append_assoc, List.cons_append, List.nil_append]
      rw [parseFields, scanString_encoded]
      simp only
      rw [skipSpace_stop (by decide)]
      simp only
      rw [skipSpace_encode, hfirst]
      simp only
      rw [skipSpace_stop (by decide)]
      simp
  | (k, v) :: field :: later, hv =>
      have hlen : v.encode.length ≤ m ∧ (encodeFields (field :: later)).length + 1 ≤ m := by
        simp only [encodeFields, encodeString, List.length_append, List.length_cons] at hn
        omega
      have hlater := parseFields_encode (field :: later) hv.2 (List.cons_ne_nil field later) m rest hlen.2
      have hfirst := parseValue_encode v hv.1 m (',' :: (encodeFields (field :: later) ++ '\x7d' :: rest))
        hlen.1 (ends_cons _ (by decide))
      simp only [encodeFields, encodeString, List.append_assoc, List.cons_append, List.nil_append]
      rw [parseFields, scanString_encoded]
      simp only
      rw [skipSpace_stop (by decide)]
      simp only
      rw [skipSpace_encode, hfirst]
      simp only
      rw [skipSpace_stop (by decide)]
      simp only
      rw [skipSpace_encodeFields (List.cons_ne_nil field later), hlater]
      simp
end

/-- Decoding an encoded document gives it back. -/
theorem decode_encode {v : Json φ} (hv : v.Distinct) : decode v.encode = some v := by
  have hvalue := parseValue_encode v hv (v.encode.length + 1) [] (by omega) ends_nil
  have hskip := skipSpace_encode v []
  rw [List.append_nil] at hvalue hskip
  rw [decode, hskip, hvalue]
  rfl

/-- Two documents without repeated fields have one text only if they are one. -/
theorem encode_injective {v w : Json φ} (hv : v.Distinct) (hw : w.Distinct) (h : v.encode = w.encode) : v = w := by
  have hdecode := decode_encode hv
  rw [h, decode_encode hw] at hdecode
  exact (Option.some.inj hdecode).symm

end Base
