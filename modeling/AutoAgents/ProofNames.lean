import AutoAgents.ProofObservation

/-! The names of the inputs in a manifest. A name says by its first characters what was observed of a place. It is read back as it was made,
unless the name of the place has a character in it that the reading takes for its own. -/

namespace AutoAgents.Proofs

open Operator (isSpace strip)

/-! ### Names -/

theorem isName_iff {part : String} : isName part = true ↔ part ≠ "" ∧ part ≠ "." ∧ part ≠ ".." ∧ '/' ∉ part.toList := by
  simp [isName, and_assoc]

theorem slashParts_joined {parts : Path} (hnames : ∀ part ∈ parts, isName part = true) (hne : parts ≠ []) :
    slashParts (joined parts) = parts := by
  rw [slashParts, joined, String.toList_ofList, List.splitOn_intercalate '/' ?_ (by simpa using hne)]
  · simp
  · intro part hpart
    obtain ⟨name, hname, rfl⟩ := List.mem_map.mp hpart
    exact (isName_iff.mp (hnames name hname)).2.2.2

theorem pathParts_joined {parts : Path} (hnames : ∀ part ∈ parts, isName part = true) : pathParts (joined parts) = parts := by
  by_cases hne : parts = []
  · subst hne
    decide
  · rw [pathParts, slashParts_joined hnames hne, List.filter_eq_self]
    intro part hpart
    have hname := isName_iff.mp (hnames part hpart)
    simp [hname.1, hname.2.1]

theorem pathParts_slash {start : List Char} (text : List Char) (hstart : '/' ∉ start) :
    pathParts (String.ofList (start ++ '/' :: text)) =
      (if start = [] ∨ start = ['.'] then [] else [String.ofList start]) ++ pathParts (String.ofList text) := by
  have hfree : ∀ c ∈ start, (c == '/') = false := fun c hc => beq_eq_false_iff_ne.mpr fun heq => hstart (heq ▸ hc)
  have hsplit : slashParts (String.ofList (start ++ '/' :: text)) = String.ofList start :: slashParts (String.ofList text) := by
    rw [slashParts, slashParts, String.toList_ofList, String.toList_ofList, List.splitOn, List.splitOn,
      List.splitOnP_append_cons_of_forall_mem hfree '/' (by simp), List.map_cons]
  rw [pathParts, hsplit, List.filter_cons, pathParts]
  by_cases hempty : start = [] ∨ start = ['.']
  · rw [if_pos hempty]
    rcases hempty with rfl | rfl <;> rfl
  · rw [if_neg hempty, if_pos]
    · rfl
    · rw [not_or] at hempty
      have hnil : String.ofList start ≠ "" := fun heq => hempty.1 (by simpa using congrArg String.toList heq)
      have hdot : String.ofList start ≠ "." := fun heq => hempty.2 (by simpa using congrArg String.toList heq)
      simp [hnil, hdot]

theorem strip_self {text : List Char} (hhead : text.head?.any isSpace = false) (hlast : text.getLast?.any isSpace = false) :
    strip text = text := by
  have hdrop : ∀ l : List Char, l.head?.any isSpace = false → l.dropWhile isSpace = l := by
    intro l hl
    cases l with
    | nil => rfl
    | cons c rest =>
        have hc : isSpace c = false := hl
        rw [List.dropWhile_cons_of_neg (by simp [hc])]
  rw [strip, hdrop text hhead, hdrop, List.reverse_reverse]
  rwa [List.head?_reverse]

/-! ### Names that are read back -/

namespace Input

def place : Input → Path
  | .denied place _ => place
  | .link place _ => place
  | .missing place => place
  | .seen place _ => place

/-- The first character of a name in the manifest that is not for the place itself. -/
def mark : Input → List Char
  | .denied _ _ => ['?']
  | .missing _ => ['!']
  | .link _ _ | .seen _ _ => []

/-- The characters that the reading takes for its own at the start of the name. -/
def marks : Input → Char → Bool
  | .denied _ _, c => c == '!'
  | .missing _, _ => false
  | .link _ _, c | .seen _ _, c => c == '?' || c == '!' || c == '\x00' || isSpace c

/-- The name of the place has no backslash and no blank at its end, and it does not start with a mark, nor with the mark of a place
outside of the checkout if it is inside. -/
def isPlain (c : Checkout) (input : Input) : Bool :=
  let text := (c.nameOf input.place).toList
  !text.contains '\\' && !text.getLast?.any isSpace && !text.head?.any input.marks &&
    !(c.sandbox.isPrefixOf input.place && ['@', '/'].isPrefixOf text)

theorem key_toList (c : Checkout) (input : Input) : (input.key c).toList = input.mark ++ (c.nameOf input.place).toList := by
  cases input <;> simp [key, mark, place, String.toList_append]

end Input

section

variable {c : Checkout} {place : Path}

theorem joined_head {parts : Path} (hnames : ∀ part ∈ parts, isName part = true) (hne : parts ≠ []) :
    ∃ first rest, (joined parts).toList = first :: rest ∧ first ≠ '/' := by
  cases parts with
  | nil => exact absurd rfl hne
  | cons part parts =>
      obtain ⟨hempty, _, _, hslash⟩ := isName_iff.mp (hnames part List.mem_cons_self)
      cases hpart : part.toList with
      | nil => exact absurd (String.ext hpart : part = "") hempty
      | cons first rest =>
          refine ⟨first, ?_⟩
          have hfirst : first ≠ '/' := by
            rintro rfl
            exact hslash (by simp [hpart])
          cases parts with
          | nil => exact ⟨rest, by simp [joined, hpart], hfirst⟩
          | cons other parts => exact ⟨_, by rw [joined, String.toList_ofList, List.map_cons, List.map_cons, List.intercalate_cons_cons,
              hpart, List.cons_append, List.cons_append], hfirst⟩

/-- The name of a place inside of the checkout. -/
theorem nameOf_inside (hnames : ∀ part ∈ place, isName part = true) (hinside : c.sandbox.isPrefixOf place = true) :
    pathParts (c.nameOf place) = place.drop c.sandbox.length ∧ ∃ first rest, (c.nameOf place).toList = first :: rest ∧ first ≠ '/' := by
  have hrest : ∀ part ∈ place.drop c.sandbox.length, isName part = true := fun part hpart => hnames part (List.mem_of_mem_drop hpart)
  rw [Checkout.nameOf, if_pos hinside]
  by_cases hroot : place.drop c.sandbox.length = []
  · rw [if_pos hroot, hroot]
    exact ⟨by decide, '.', [], rfl, by decide⟩
  · rw [if_neg hroot]
    exact ⟨pathParts_joined hrest, joined_head hrest hroot⟩

theorem nameOf_outside (hinside : c.sandbox.isPrefixOf place = false) :
    (c.nameOf place).toList = '@' :: '/' :: (joined place).toList := by
  simp [Checkout.nameOf, hinside, String.toList_append]

/-- The place at which a tree with another root has what stands at the place. -/
def Checkout.moved (c : Checkout) (root place : Path) : Path :=
  if c.sandbox.isPrefixOf place = true then root ++ place.drop c.sandbox.length else place

theorem moved_self (c : Checkout) (place : Path) : c.moved c.sandbox place = place := by
  unfold Checkout.moved
  split
  · next hinside =>
      obtain ⟨below, rfl⟩ := List.isPrefixOf_iff_prefix.mp hinside
      rw [List.drop_left]
  · rfl

/-- What the reading of a manifest makes of the name of a place, where the mark is gone. -/
theorem path_of_name (root : Path) (hnames : ∀ part ∈ place, isName part = true)
    (hat : (c.sandbox.isPrefixOf place && ['@', '/'].isPrefixOf (c.nameOf place).toList) = false) :
    let text := (c.nameOf place).toList
    ¬ (text = [] ∨ ['/'].isPrefixOf text = true ∨ ".." ∈ pathParts (String.ofList text)) ∧
      (if ['@', '/'].isPrefixOf text = true then pathParts (String.ofList (text.drop 1)) else root ++ pathParts (String.ofList text)) =
        c.moved root place := by
  have hparent : ".." ∉ place := fun hmem => (isName_iff.mp (hnames _ hmem)).2.2.1 rfl
  cases hinside : c.sandbox.isPrefixOf place with
  | true =>
      obtain ⟨hparts, first, rest, htext, hfirst⟩ := nameOf_inside hnames hinside
      rw [hinside, Bool.true_and] at hat
      obtain ⟨below, rfl⟩ := List.isPrefixOf_iff_prefix.mp hinside
      rw [List.drop_left] at hparts
      simp only [hat, Bool.false_eq_true, if_false, String.ofList_toList, hparts, Checkout.moved, hinside, if_true, List.drop_left, and_true]
      rw [htext]
      rintro (hnil | hslash | hdots)
      · cases hnil
      · simp [List.isPrefixOf] at hslash
        exact hfirst hslash.symm
      · exact hparent (List.mem_append_right _ hdots)
  | false =>
      rw [nameOf_outside hinside]
      have hroot : pathParts (String.ofList ('/' :: (joined place).toList)) = place := by
        have hslash := @pathParts_slash [] (joined place).toList (by simp)
        rw [List.nil_append] at hslash
        rw [hslash, if_pos (.inl rfl), List.nil_append, String.ofList_toList, pathParts_joined hnames]
      have hall : pathParts (String.ofList ('@' :: '/' :: (joined place).toList)) = "@" :: place := by
        have hslash := @pathParts_slash ['@'] (joined place).toList (by simp)
        rw [List.singleton_append] at hslash
        rw [hslash, if_neg (by simp), String.ofList_toList, pathParts_joined hnames]
        rfl
      refine ⟨?_, by simpa [Checkout.moved, hinside] using hroot⟩
      rintro (hnil | hslash | hdots)
      · cases hnil
      · simp [List.isPrefixOf] at hslash
      · rw [hall] at hdots
        rcases List.mem_cons.mp hdots with hat | hmem
        · exact absurd hat (by decide)
        · exact hparent hmem

namespace Input

variable {input : Input}

theorem isPlain_iff : input.isPlain c = true ↔
    '\\' ∉ (c.nameOf input.place).toList ∧ (c.nameOf input.place).toList.getLast?.any isSpace = false ∧
      (c.nameOf input.place).toList.head?.any input.marks = false ∧
        (c.sandbox.isPrefixOf input.place && ['@', '/'].isPrefixOf (c.nameOf input.place).toList) = false := by
  simp only [isPlain, Bool.and_eq_true, Bool.not_eq_eq_eq_not, Bool.not_true, List.contains_eq_mem, decide_eq_false_iff_not, and_assoc]

theorem manifestPath_key (hplain : input.isPlain c = true) (hnames : ∀ part ∈ input.place, isName part = true) :
    manifestPath (input.key c) = input.mark ++ (c.nameOf input.place).toList := by
  obtain ⟨hslash, hlast, hhead, hat⟩ := isPlain_iff.mp hplain
  have hne : (c.nameOf input.place).toList ≠ [] := fun hnil => (path_of_name [] hnames hat).1 (.inl hnil)
  have hmark : '\\' ∉ input.mark := by cases input <;> simp [mark]
  have hkey : '\\' ∉ (input.key c).toList := by
    rw [key_toList, List.mem_append, not_or]
    exact ⟨hmark, hslash⟩
  have hmap : (input.key c).toList.map (fun d => if d = '\\' then '/' else d) = (input.key c).toList := by
    have hsame : ∀ d ∈ (input.key c).toList, (if d = '\\' then '/' else d) = id d := by
      rintro d hd
      rw [if_neg]
      · rfl
      · rintro rfl
        exact hkey hd
    rw [List.map_congr_left hsame, List.map_id]
  rw [manifestPath, hmap, key_toList, strip_self]
  · cases input with
    | denied | missing => simp only [mark, List.singleton_append, List.head?_cons, Option.any_some]; decide
    | link | seen =>
        simp only [mark, List.nil_append]
        cases htext : (c.nameOf _).toList with
        | nil => rfl
        | cons first rest =>
            rw [htext] at hhead
            simp only [List.head?_cons, Option.any_some, marks, Bool.or_eq_false_iff] at hhead ⊢
            exact hhead.2
  · rw [List.getLast?_append_of_ne_nil _ hne]
    exact hlast

/-- How an input is replayed whose name is read back. -/
theorem inputMatches_plain (reader : Reader) (root : Path) (m : Machine) (expected : String) (hplain : input.isPlain c = true)
    (hnames : ∀ part ∈ input.place, isName part = true) : inputMatches reader root m (input.key c) expected =
      match input with
      | .denied place _ =>
          match m.stat (c.moved root place) with
          | .error (.denied errno) => .ok (toString errno == expected)
          | _ => .ok false
      | .missing place => (m.exists? (c.moved root place)).map (!·)
      | .link place _ | .seen place _ => .ok (pathDigest reader m (c.moved root place) == some expected) := by
  obtain ⟨_, _, hhead, hat⟩ := isPlain_iff.mp hplain
  obtain ⟨hfree, hpath⟩ := path_of_name root hnames hat
  -- the test of the place is decided in more than one way below
  have hpath : ∀ test : Decidable (['@', '/'].isPrefixOf (c.nameOf input.place).toList = true),
      @ite _ _ test (pathParts (String.ofList ((c.nameOf input.place).toList.drop 1)))
        (root ++ pathParts (String.ofList (c.nameOf input.place).toList)) = c.moved root input.place := by
    intro test
    refine Eq.trans ?_ hpath
    congr
  have hmarked : ∀ d, input.marks d = true → [d].isPrefixOf (c.nameOf input.place).toList = false := by
    intro d hd
    cases htext : (c.nameOf input.place).toList with
    | nil => rfl
    | cons first rest =>
        rw [htext, List.head?_cons, Option.any_some] at hhead
        rw [List.isPrefixOf_cons_cons, Bool.and_eq_false_iff]
        left
        rw [beq_eq_false_iff_ne]
        rintro rfl
        rw [hd] at hhead
        cases hhead
  have hprobe : probePrefix.isPrefixOf (input.key c).toList = false := by
    rw [key_toList]
    cases input with
    | denied | missing => rfl
    | link | seen =>
        have hzero := hmarked '\x00' (by simp [marks])
        rw [mark, List.nil_append]
        cases htext : (c.nameOf _).toList with
        | nil => rfl
        | cons first rest =>
            rw [htext, List.isPrefixOf_cons_cons, List.isPrefixOf_nil_left, Bool.and_true] at hzero
            rw [probePrefix, List.isPrefixOf_cons_cons, hzero, Bool.false_and]
  unfold inputMatches
  rw [hprobe, if_neg Bool.false_ne_true, manifestPath_key hplain hnames]
  have hsame : ∀ d : Char, [d].isPrefixOf (d :: (c.nameOf input.place).toList) = true := fun d => by simp
  have hother : ['!'].isPrefixOf ('?' :: (c.nameOf input.place).toList) = false := rfl
  have hcross : ['?'].isPrefixOf ('!' :: (c.nameOf input.place).toList) = false := rfl
  cases input with
  | denied place errno =>
      have hmissing := hmarked '!' rfl
      simp only [mark, List.singleton_append, Input.place, List.drop_succ_cons, List.drop_zero] at hmissing hfree hpath hsame ⊢
      simp only [hsame, hmissing, hfree, if_true, if_false, Bool.false_eq_true]
      rw [hpath] <;> rfl
  | missing place =>
      simp only [mark, List.singleton_append, Input.place] at hfree hpath hsame hcross ⊢
      simp only [hsame, hcross, if_true, if_false, Bool.false_eq_true, List.drop_succ_cons, List.drop_zero, hfree]
      rw [hpath]
  | link place target | seen place target =>
      have hdenied := hmarked '?' rfl
      have hmissing := hmarked '!' rfl
      simp only [mark, List.nil_append, Input.place] at hdenied hmissing hfree hpath ⊢
      simp only [hdenied, hmissing, hfree, Bool.false_eq_true, if_false]
      rw [hpath]

end Input

end

end AutoAgents.Proofs
