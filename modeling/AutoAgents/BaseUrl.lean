import AutoAgents.BaseJsonSort

/-! Query strings. Names and values are written as their UTF-8 bytes with escapes, joined by `=` and `&`; read back, they are the
same but for the pairs whose value is blank, which reading leaves out. -/

namespace Base

/-! ### Escapes -/

/-- The bytes of a text. -/
def utf8 (text : String) : List UInt8 := text.toByteArray.data.toList

/-- The text that some bytes are. -/
def readUtf8 (bytes : List UInt8) : Option String := String.fromUTF8? ⟨bytes.toArray⟩

/-- The text of some bytes, where `replace` reads those that are not one. -/
def fromUtf8 (replace : List UInt8 → String) (bytes : List UInt8) : String := (readUtf8 bytes).getD (replace bytes)

def upperHex (n : Nat) : Char := if n < 10 then Char.ofNat (48 + n) else Char.ofNat (55 + n)

/-- A byte that is written as the character it is: a letter, a digit or one of `_.-~`. -/
def plainByte (b : UInt8) : Bool :=
  (Char.ofUInt8 b).isAlphanum || ['_', '.', '-', '~'].contains (Char.ofUInt8 b)

/-- One byte, as `quote_plus` writes it. -/
def quoteByte (b : UInt8) : List Char :=
  if b = 32 then ['+']
  else if plainByte b = true then [Char.ofUInt8 b]
  else ['%', upperHex (b.toNat / 16), upperHex (b.toNat % 16)]

def quotePlus (text : String) : List Char := (utf8 text).flatMap quoteByte

/-- `unquote_to_bytes`. A percent sign without two digits stands for itself. -/
def unquoteBytes : List Char → List UInt8
  | [] => []
  | '%' :: a :: b :: rest =>
      match hexValue a, hexValue b with
      | some x, some y => UInt8.ofNat (16 * x + y) :: unquoteBytes rest
      | _, _ => 37 :: unquoteBytes (a :: b :: rest)
  | c :: rest => utf8 (String.singleton c) ++ unquoteBytes rest

/-- `unquote(text.replace("+", " "))` -/
def unquotePlus (replace : List UInt8 → String) (text : List Char) : String :=
  fromUtf8 replace (unquoteBytes (text.map fun c => if c = '+' then ' ' else c))

/-- The characters that escapes are made of. -/
def isQuoted (c : Char) : Bool := c.isAlphanum || ['_', '.', '-', '~', '+', '%'].contains c

theorem readUtf8_utf8 (text : String) : readUtf8 (utf8 text) = some text := dif_pos text.isValidUTF8

theorem fromUtf8_utf8 (replace : List UInt8 → String) (text : String) : fromUtf8 replace (utf8 text) = text := by
  rw [fromUtf8, readUtf8_utf8, Option.getD_some]

theorem hexValue_upperHex : ∀ n < 16, hexValue (upperHex n) = some n := by decide

/-- The character that a plus sign stands for. -/
def unplus (c : Char) : Char := if c = '+' then ' ' else c

/-- What holds of each byte, by going through all of them. -/
theorem bytes_quoted : ∀ n < 256, (quoteByte (UInt8.ofNat n)).all isQuoted = true ∧ (plainByte (UInt8.ofNat n) = true →
    utf8 (String.singleton (Char.ofUInt8 (UInt8.ofNat n))) = [UInt8.ofNat n] ∧
      unplus (Char.ofUInt8 (UInt8.ofNat n)) = Char.ofUInt8 (UInt8.ofNat n) ∧ Char.ofUInt8 (UInt8.ofNat n) ≠ '%') := by
  decide +kernel

theorem byte_quoted (b : UInt8) : (quoteByte b).all isQuoted = true ∧ (plainByte b = true →
    utf8 (String.singleton (Char.ofUInt8 b)) = [b] ∧ unplus (Char.ofUInt8 b) = Char.ofUInt8 b ∧ Char.ofUInt8 b ≠ '%') := by
  have hb := bytes_quoted b.toNat b.toNat_lt
  rwa [UInt8.ofNat_toNat] at hb

theorem quoteByte_quoted (b : UInt8) : (quoteByte b).all isQuoted = true := (byte_quoted b).1

theorem quotePlus_quoted (text : String) : ∀ c ∈ quotePlus text, isQuoted c = true := by
  intro c hc
  obtain ⟨b, _, hb⟩ := List.mem_flatMap.mp hc
  exact List.all_eq_true.mp (quoteByte_quoted b) c hb

/-- A byte that is not escaped is an ASCII character. -/
theorem utf8_plain (b : UInt8) (h : plainByte b = true) : utf8 (String.singleton (Char.ofUInt8 b)) = [b] :=
  ((byte_quoted b).2 h).1

theorem unquoteBytes_plain {c : Char} (h : c ≠ '%') (rest : List Char) :
    unquoteBytes (c :: rest) = utf8 (String.singleton c) ++ unquoteBytes rest := by
  rw [unquoteBytes]
  rintro a b rest' heq
  exact absurd heq h

theorem plain_kept (b : UInt8) (h : plainByte b = true) : unplus (Char.ofUInt8 b) = Char.ofUInt8 b ∧ Char.ofUInt8 b ≠ '%' :=
  ((byte_quoted b).2 h).2

theorem upperHex_kept : ∀ n < 16, unplus (upperHex n) = upperHex n := by decide

/-- Reading undoes writing, byte by byte. -/
theorem unquoteBytes_quoteByte (b : UInt8) (rest : List Char) :
    unquoteBytes ((quoteByte b).map unplus ++ rest) = b :: unquoteBytes rest := by
  unfold quoteByte
  split
  · next hspace =>
      rw [hspace]
      exact unquoteBytes_plain (by decide) rest
  · split
    · next hplain =>
        obtain ⟨hkept, hpercent⟩ := plain_kept b hplain
        rw [List.map_singleton, hkept, List.singleton_append, unquoteBytes_plain hpercent, utf8_plain b hplain]
        rfl
    · have hlt := b.toNat_lt
      have hhigh : b.toNat / 16 < 16 := by omega
      have hlow : b.toNat % 16 < 16 := by omega
      have hpercent : unplus '%' = '%' := by decide
      simp only [List.map_cons, List.map_nil, hpercent, upperHex_kept _ hhigh, upperHex_kept _ hlow, List.cons_append, List.nil_append,
        unquoteBytes, hexValue_upperHex _ hhigh, hexValue_upperHex _ hlow]
      rw [Nat.div_add_mod, UInt8.ofNat_toNat]

theorem unquoteBytes_quote (bytes : List UInt8) : unquoteBytes ((bytes.flatMap quoteByte).map unplus) = bytes := by
  induction bytes with
  | nil => rfl
  | cons b rest ih => rw [List.flatMap_cons, List.map_append, unquoteBytes_quoteByte, ih]

theorem unquotePlus_quotePlus (replace : List UInt8 → String) (text : String) : unquotePlus replace (quotePlus text) = text := by
  have hbytes : unquoteBytes ((quotePlus text).map unplus) = utf8 text := unquoteBytes_quote (utf8 text)
  unfold unquotePlus
  rw [show (fun c => if c = '+' then ' ' else c) = unplus from rfl, hbytes, fromUtf8_utf8]

/-! ### Pairs -/

/-- `urlencode` -/
def urlencode (pairs : List (String × String)) : List Char :=
  ['&'].intercalate (pairs.map fun pair => quotePlus pair.1 ++ '=' :: quotePlus pair.2)

/-- One part of a query: nothing, if it has no value. -/
def parsePart (replace : List UInt8 → String) (part : List Char) : Option (String × String) :=
  match part.dropWhile (· != '=') with
  | _ :: c :: rest => some (unquotePlus replace (part.takeWhile (· != '=')), unquotePlus replace (c :: rest))
  | _ => none

/-- `parse_qsl` -/
def parseQsl (replace : List UInt8 → String) (query : List Char) : List (String × String) :=
  (query.splitOn '&').filterMap (parsePart replace)

/-- `parse_qs(query).get(key, [""])[0]` -/
def queryValue (replace : List UInt8 → String) (query : List Char) (key : String) : String :=
  ((parseQsl replace query).lookup key).getD ""

theorem quotePlus_eq_nil {text : String} : quotePlus text = [] ↔ text = "" := by
  constructor
  · intro h
    have hback := unquotePlus_quotePlus (fun _ => "") text
    rw [h] at hback
    rw [← hback]
    rfl
  · rintro rfl
    rfl

theorem parsePart_pair (replace : List UInt8 → String) (key value : String) :
    parsePart replace (quotePlus key ++ '=' :: quotePlus value) = if value = "" then none else some (key, value) := by
  have hkey : ∀ c ∈ quotePlus key, (c != '=') = true := by
    intro c hc
    have hquoted := quotePlus_quoted key c hc
    rw [bne_iff_ne]
    rintro rfl
    cases hquoted
  have hdrop : (quotePlus key ++ '=' :: quotePlus value).dropWhile (· != '=') = '=' :: quotePlus value := by
    rw [List.dropWhile_append_of_pos hkey]
    rfl
  have htake : (quotePlus key ++ '=' :: quotePlus value).takeWhile (· != '=') = quotePlus key := by
    rw [List.takeWhile_append_of_pos hkey]
    simp
  unfold parsePart
  rw [hdrop, htake, unquotePlus_quotePlus]
  cases hvalue : quotePlus value with
  | nil => rw [if_pos (quotePlus_eq_nil.mp hvalue)]
  | cons c rest =>
      have hne : value ≠ "" := by
        intro hempty
        rw [quotePlus_eq_nil.mpr hempty] at hvalue
        cases hvalue
      show some (key, unquotePlus replace (c :: rest)) = _
      rw [if_neg hne, ← hvalue, unquotePlus_quotePlus]

theorem urlencode_parts {pairs : List (String × String)} {part : List Char}
    (h : part ∈ pairs.map fun pair => quotePlus pair.1 ++ '=' :: quotePlus pair.2) : '&' ∉ part := by
  obtain ⟨pair, _, rfl⟩ := List.mem_map.mp h
  intro hmem
  rcases List.mem_append.mp hmem with hkey | hvalue
  · cases quotePlus_quoted _ _ hkey
  · rcases List.mem_cons.mp hvalue with heq | hvalue
    · exact absurd heq (by decide)
    · cases quotePlus_quoted _ _ hvalue

/-- What a query is made of. -/
theorem urlencode_chars {pairs : List (String × String)} {c : Char} (h : c ∈ urlencode pairs) :
    isQuoted c = true ∨ c = '=' ∨ c = '&' := by
  have hpart : ∀ part ∈ pairs.map (fun pair => quotePlus pair.1 ++ '=' :: quotePlus pair.2), ∀ c ∈ part, isQuoted c = true ∨ c = '=' := by
    intro part hpart c hc
    obtain ⟨pair, _, rfl⟩ := List.mem_map.mp hpart
    rcases List.mem_append.mp hc with hkey | hvalue
    · exact Or.inl (quotePlus_quoted _ c hkey)
    · rcases List.mem_cons.mp hvalue with heq | hvalue
      · exact Or.inr heq
      · exact Or.inl (quotePlus_quoted _ c hvalue)
  unfold urlencode at h
  generalize pairs.map (fun pair => quotePlus pair.1 ++ '=' :: quotePlus pair.2) = parts at h hpart
  induction parts with
  | nil => cases h
  | cons part rest ih =>
      obtain ⟨hfirst, hrest⟩ := List.forall_mem_cons.mp hpart
      cases rest with
      | nil =>
          rw [List.intercalate_singleton] at h
          exact (hfirst c h).imp_right Or.inl
      | cons next rest =>
          rw [List.intercalate_cons_cons, List.append_assoc, List.mem_append, List.mem_append, List.mem_singleton] at h
          rcases h with hc | hc | hc
          · exact (hfirst c hc).imp_right Or.inl
          · exact Or.inr (Or.inr hc)
          · exact ih hc hrest

/-- What is written is read back, but for blank values. -/
theorem parseQsl_urlencode (replace : List UInt8 → String) (pairs : List (String × String)) :
    parseQsl replace (urlencode pairs) = pairs.filter fun pair => pair.2 ≠ "" := by
  cases pairs with
  | nil => rfl
  | cons first rest =>
      have hsplit : (urlencode (first :: rest)).splitOn '&' = (first :: rest).map fun pair => quotePlus pair.1 ++ '=' :: quotePlus pair.2 :=
        List.splitOn_intercalate '&' (fun part hpart => urlencode_parts hpart) (by simp)
      rw [parseQsl, hsplit, List.filterMap_map, ← List.filterMap_eq_filter]
      apply List.filterMap_congr
      intro pair _
      rw [Function.comp_apply, parsePart_pair]
      by_cases hvalue : pair.2 = "" <;> simp [Option.guard, hvalue]

/-- A value that is blank or missing is read as the empty text. -/
theorem queryValue_urlencode (replace : List UInt8 → String) {pairs : List (String × String)} (hkeys : (pairs.map Prod.fst).Nodup)
    {key value : String} (hpair : (key, value) ∈ pairs) : queryValue replace (urlencode pairs) key = value := by
  rw [queryValue, parseQsl_urlencode]
  by_cases hblank : value = ""
  · have hnone : (pairs.filter fun pair => pair.2 ≠ "").lookup key = none := by
      rw [List.lookup_eq_none_iff]
      intro other hother
      obtain ⟨hother, hvalue⟩ := List.mem_filter.mp hother
      rw [bne_iff_ne]
      intro hkey
      have hsame := List.inj_on_of_nodup_map hkeys hpair hother hkey
      simp [← hsame, hblank] at hvalue
    rw [hnone, hblank, Option.getD_none]
  · have hsome : (pairs.filter fun pair => pair.2 ≠ "").lookup key = some value := by
      apply lookup_of_mem (hkeys.sublist (List.filter_sublist.map Prod.fst))
      exact List.mem_filter.mpr ⟨hpair, by simpa using hblank⟩
    rw [hsome, Option.getD_some]

end Base
