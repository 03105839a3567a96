import AutoAgents.ProofNames

/-! Replaying a manifest. What the walk of an observed path says of the files is so, and with it every input of a trace; a tree on which the
manifest matches has what the paths of the trace led to. -/

namespace AutoAgents.Proofs


/-! ### Places that were walked to -/

theorem slash_free {part : String} {text : String} (hpart : part ∈ slashParts text) : '/' ∉ part.toList := by
  obtain ⟨chars, hchars, rfl⟩ := List.mem_map.mp hpart
  clear hpart
  rw [String.toList_ofList]
  generalize text.toList = letters at hchars
  induction letters generalizing chars with
  | nil => simp_all [List.splitOn_nil]
  | cons d rest ih =>
      rw [List.splitOn_cons_eq_if_modifyHead] at hchars
      split at hchars
      · rcases List.mem_cons.mp hchars with rfl | hlater
        · exact List.not_mem_nil
        · exact ih _ hlater
      · next hd =>
          cases hsplit : rest.splitOn '/' with
          | nil => exact absurd hsplit (List.splitOn_ne_nil _ _)
          | cons first later =>
              rw [hsplit, List.modifyHead_cons] at hchars
              rw [hsplit] at ih
              rcases List.mem_cons.mp hchars with rfl | hlater
              · have hfirst := ih first List.mem_cons_self
                intro hmem
                rcases List.mem_cons.mp hmem with rfl | hmem
                · exact hd (beq_self_eq_true _)
                · exact hfirst hmem
              · exact ih _ (List.mem_cons_of_mem _ hlater)

/-- A part of a path is a name, or leads to the parent. -/
def isPart (part : String) : Prop := part = ".." ∨ isName part = true

theorem isPart_of_mem {part : String} {text : String} (h : part ∈ pathParts text) : isPart part := by
  unfold pathParts at h
  rw [List.mem_filter, Bool.and_eq_true, bne_iff_ne, bne_iff_ne] at h
  by_cases hparent : part = ".."
  · exact .inl hparent
  · exact .inr (isName_iff.mpr ⟨h.2.1, h.2.2, hparent, slash_free h.1⟩)

section

variable {m : Machine}

/-- All places on the way are directories themselves. -/
structure Machine.Real (m : Machine) (place : Path) : Prop where
  names : ∀ part ∈ place, isName part = true
  directory : ∀ before after, place = before ++ after → m.node before = some .directory

theorem Machine.Real.root : m.Real [] where
  names _ h := nomatch h
  directory before after h := by
    obtain ⟨rfl, -⟩ := List.append_eq_nil_iff.mp h.symm
    rfl

theorem Machine.Real.dropLast {place : Path} (h : m.Real place) : m.Real place.dropLast where
  names part hpart := h.names part (List.dropLast_subset _ hpart)
  directory before after hsplit := by
    obtain ⟨last, hlast⟩ : place.dropLast <+: place := List.dropLast_prefix place
    exact h.directory before (after ++ last) (by rw [← List.append_assoc, ← hsplit, hlast])

theorem Machine.Real.snoc {place : Path} {part : String} (h : m.Real place) (hpart : isName part = true)
    (hnode : m.node (place ++ [part]) = some .directory) : m.Real (place ++ [part]) where
  names other hother := by
    rcases List.mem_append.mp hother with hother | hother
    · exact h.names other hother
    · rwa [List.mem_singleton.mp hother]
  directory before after hsplit := by
    rcases List.eq_nil_or_concat after with rfl | ⟨after, last, rfl⟩
    · rw [← hnode, hsplit, List.append_nil]
    · rw [List.concat_eq_append, ← List.append_assoc] at hsplit
      exact h.directory before after (List.append_inj_left' hsplit rfl)

/-- A walk passes the directories on the way. -/
theorem walkFrom_real {follow : Bool} {restart : Path → List String → Except Fault Path} {before after : Path} (h : m.Real (before ++ after))
    (rest : List String) : m.walkFrom follow restart before (after ++ rest) = m.walkFrom follow restart (before ++ after) rest := by
  induction after generalizing before with
  | nil => simp
  | cons part after ih =>
      have hname := isName_iff.mp (h.names part (by simp))
      have hnode : m.node (before ++ [part]) = some .directory := h.directory _ after (by simp)
      have hall : m.Real (before ++ [part] ++ after) := by simpa using h
      rw [List.cons_append, Machine.walkFrom, if_neg (by simp [hname.1, hname.2.1]), if_neg hname.2.2.1]
      simp only [hnode]
      rw [ih hall]
      simp

theorem resolve_real {follow : Bool} {place : Path} (h : m.Real place) (rest : List String) :
    m.resolve follow (place ++ rest) = m.walkFrom follow (m.walk follow 40) place rest :=
  @walkFrom_real _ _ _ [] _ h rest

theorem look_directory {follow : Bool} {place : Path} (h : m.Real place) : m.look follow place = .ok .directory := by
  have hresolve := @resolve_real _ follow _ h []
  rw [List.append_nil] at hresolve
  have hnode : m.node place = some .directory := h.directory place [] (by simp)
  unfold Machine.look
  rw [hresolve]
  simp [Machine.walkFrom, bind, Except.bind, hnode, pure, Except.pure]

/-- What a look at a name in a directory finds. -/
theorem lstat_real {place : Path} {part : String} (h : m.Real place) (hpart : isName part = true) :
    m.lstat (place ++ [part]) =
      match m.node (place ++ [part]) with
      | none => .error .missing
      | some (.denied errno) => .error (.denied errno)
      | some node => .ok node := by
  have hname := isName_iff.mp hpart
  unfold Machine.lstat Machine.look
  rw [resolve_real h, Machine.walkFrom, if_neg (by simp [hname.1, hname.2.1]), if_neg hname.2.2.1]
  cases hnode : m.node (place ++ [part]) with
  | none => simp [bind, Except.bind]
  | some node => cases node <;> simp [Machine.walkFrom, bind, Except.bind, hnode, pure, Except.pure]

/-- Nothing is below a place that is not there. -/
theorem look_missing {follow : Bool} {place : Path} {part : String} (h : m.Real place) (hpart : isName part = true)
    (hnode : m.node (place ++ [part]) = none) (rest : List String) : m.look follow (place ++ [part] ++ rest) = .error .missing := by
  have hname := isName_iff.mp hpart
  unfold Machine.look
  rw [List.append_assoc, resolve_real h, List.singleton_append, Machine.walkFrom, if_neg (by simp [hname.1, hname.2.1]), if_neg hname.2.2.1]
  simp [hnode, bind, Except.bind]

theorem exists_missing {place : Path} {part : String} (h : m.Real place) (hpart : isName part = true)
    (hnode : m.node (place ++ [part]) = none) (rest : List String) : m.exists? (place ++ [part] ++ rest) = .ok false := by
  unfold Machine.exists? Machine.stat
  rw [look_missing h hpart hnode]

/-! ### The walk of an observed path -/

/-- What the walk says of the files is so. -/
structure Found.Sound (m : Machine) (found : Found) : Prop where
  links : ∀ link ∈ found.links, (∀ part ∈ link.1, isName part = true) ∧ m.lstat link.1 = .ok (.symlink link.2)
  names : ∀ part ∈ found.place, isName part = true
  last : ∀ target, m.lstat found.place ≠ .ok (.symlink target)
  missing : ∀ candidate, found.missing = some candidate → (∀ part ∈ candidate, isName part = true) ∧ m.exists? candidate = .ok false

theorem follow_sound {c : Checkout} {restart : List (Path × String) → Path → List String → Option Found}
    (hrestart : ∀ links current parts found,
      (∀ link ∈ links, (∀ part ∈ link.1, isName part = true) ∧ m.lstat link.1 = .ok (.symlink link.2)) → m.Real current →
        (∀ part ∈ parts, isPart part) → restart links current parts = some found → found.Sound m)
    {links : List (Path × String)} {current : Path} {parts : List String} {found : Found}
    (hlinks : ∀ link ∈ links, (∀ part ∈ link.1, isName part = true) ∧ m.lstat link.1 = .ok (.symlink link.2)) (hreal : m.Real current)
    (hparts : ∀ part ∈ parts, isPart part) (hfound : follow c m restart links current parts = some found) : found.Sound m := by
  induction parts generalizing current with
  | nil =>
      obtain rfl := Option.some.inj hfound
      have hhere : m.lstat current = .ok .directory := look_directory hreal
      refine ⟨hlinks, hreal.names, fun target h => ?_, fun candidate h => nomatch h⟩
      rw [hhere] at h
      cases h
  | cons part pending ih =>
      have hlater : ∀ part ∈ pending, isPart part := fun part hpart => hparts part (List.mem_cons_of_mem _ hpart)
      unfold follow at hfound
      split at hfound
      · exact ih hreal.dropLast hlater hfound
      next hparent =>
      have hname : isName part = true := (hparts part List.mem_cons_self).resolve_left hparent
      have hcandidate : ∀ other ∈ current ++ [part], isName other = true := by
        intro other hother
        rcases List.mem_append.mp hother with hother | hother
        · exact hreal.names other hother
        · rwa [List.mem_singleton.mp hother]
      have hlstat := lstat_real hreal hname
      have hstays : ∀ node, m.lstat (current ++ [part]) = node → (∀ target, node ≠ .ok (.symlink target)) →
          some (⟨current ++ [part], links, none⟩ : Found) = some found → found.Sound m := by
        rintro node hnode hother hfound
        obtain rfl := Option.some.inj hfound
        refine ⟨hlinks, hcandidate, fun target h => ?_, fun candidate h => nomatch h⟩
        rw [hnode] at h
        exact hother target h
      simp only at hfound
      rw [hlstat] at hfound
      cases hnode : m.node (current ++ [part]) with
      | none =>
          simp only [hnode] at hfound
          split at hfound
          · cases hfound
          next hup =>
          obtain rfl := Option.some.inj hfound
          refine ⟨hlinks, ?_, fun target h => ?_, ?_⟩
          · intro other hother
            rcases List.mem_append.mp hother with hother | hother
            · exact hcandidate other hother
            · exact (hlater other hother).resolve_left fun heq => hup (heq ▸ hother)
          · have hmissing : m.lstat (current ++ [part] ++ pending) = .error .missing := look_missing hreal hname hnode pending
            rw [hmissing] at h
            cases h
          · rintro candidate heq
            obtain rfl := Option.some.inj heq
            have hmissing := exists_missing hreal hname hnode []
            rw [List.append_nil] at hmissing
            exact ⟨hcandidate, hmissing⟩
      | some node =>
          rw [hnode] at hlstat
          cases node with
          | denied errno =>
              simp only [hnode] at hfound
              split at hfound
              · exact hstays _ hlstat (fun _ h => nomatch h) hfound
              · cases hfound
          | directory =>
              simp only [hnode] at hfound
              exact ih (hreal.snoc hname hnode) hlater hfound
          | file data mode =>
              simp only [hnode] at hfound
              split at hfound
              · exact hstays _ hlstat (fun _ h => nomatch h) hfound
              · cases hfound
          | symlink target =>
              simp only [hnode] at hfound
              split at hfound
              · apply hrestart _ _ _ _ ?_ ?_ ?_ hfound
                · intro link hlink
                  rcases List.mem_append.mp hlink with hlink | hlink
                  · exact hlinks link hlink
                  · obtain rfl := List.mem_singleton.mp hlink
                    exact ⟨hcandidate, hlstat⟩
                · split
                  · exact .root
                  · exact hreal
                · intro other hother
                  rcases List.mem_append.mp hother with hother | hother
                  · exact isPart_of_mem hother
                  · exact hlater other hother
              · cases hfound

theorem resolveObserved_sound {c : Checkout} (bound : Nat) {links : List (Path × String)} {current : Path} {parts : List String} {found : Found}
    (hlinks : ∀ link ∈ links, (∀ part ∈ link.1, isName part = true) ∧ m.lstat link.1 = .ok (.symlink link.2)) (hreal : m.Real current)
    (hparts : ∀ part ∈ parts, isPart part) (hfound : resolveObserved c m bound links current parts = some found) : found.Sound m := by
  induction bound generalizing links current parts found with
  | zero => cases hfound
  | succ bound ih => exact follow_sound (fun _ _ _ _ => ih) hlinks hreal hparts hfound

theorem classify_sound {c : Checkout} {raw : String} {found : Found} {excluded : Bool}
    (h : classify c m raw = some (found, excluded)) : found.Sound m := by
  unfold classify at h
  split at h
  · cases h
  next resolved hresolved =>
  have hsame : resolved = found := by
    split at h
    · split at h
      · exact (Prod.mk.inj (Option.some.inj h)).1
      · cases h
    · exact (Prod.mk.inj (Option.some.inj h)).1
  subst hsame
  split at hresolved
  · cases hresolved
  · refine resolveObserved_sound 41 (List.forall_mem_nil _) .root ?_ hresolved
    intro part hpart
    split at hpart
    · exact isPart_of_mem hpart
    · rcases List.mem_append.mp hpart with hpart | hpart
      · exact .inr (c.names part hpart)
      · exact isPart_of_mem hpart

end

/-! ### Contents -/

/-- What there is to see of a place. -/
inductive Glimpse
  | link (target : String)
  | directory (names : List String)
  | file (data : String)
  deriving DecidableEq

def Glimpse.digest (reader : Reader) : Glimpse → String
  | .link target => "link:" ++ target
  | .directory names => "dir:" ++ reader.sha256 (dumpsList names)
  | .file data => "file:" ++ reader.sha256 data

/-- What a look behind the links sees. -/
def Machine.glimpseBehind (m : Machine) (path : Path) : Option Glimpse :=
  match m.stat path with
  | .ok .directory =>
      match m.resolve true path with
      | .ok place => some (.directory ((m.names place).insertionSort (· ≤ ·)))
      | .error _ => none
  | .ok (.file data _) => some (.file data)
  | _ => none

/-- What a look at a place sees. -/
def Machine.glimpse (m : Machine) (path : Path) : Option Glimpse :=
  match m.lstat path with
  | .ok (.symlink target) => some (.link target)
  | _ => m.glimpseBehind path

theorem pathDigest_eq (reader : Reader) (m : Machine) (path : Path) : pathDigest reader m path = (m.glimpse path).map (·.digest reader) := by
  unfold pathDigest Machine.glimpse Machine.glimpseBehind
  generalize m.lstat path = first
  generalize m.stat path = behind
  cases first with
  | error fault => rcases behind with _ | ⟨_ | _ | _ | _⟩ <;> first | rfl | (cases m.resolve true path <;> rfl)
  | ok node =>
      cases node with
      | symlink target => rfl
      | _ => rcases behind with _ | ⟨_ | _ | _ | _⟩ <;> first | rfl | (cases m.resolve true path <;> rfl)

/-- The texts behind the first one. -/
def dumpsTail (texts : List String) : List Char := texts.flatMap (fun text => ',' :: ' ' :: Base.encodeString text.toList) ++ [']']

theorem dumpsList_cons (text : String) (texts : List String) :
    (dumpsList (text :: texts)).toList = '[' :: Base.encodeString text.toList ++ dumpsTail texts := by
  unfold dumpsList dumpsTail
  rw [String.toList_ofList]
  induction texts generalizing text with
  | nil => simp
  | cons other texts ih =>
      have hother := ih other
      simp only [List.map_cons, List.intercalate_cons_cons, List.flatMap_cons, List.append_assoc, List.cons_append, List.nil_append,
        List.cons.injEq, true_and] at hother ⊢
      rw [hother]

theorem encodeString_append_inj {text text' rest rest' : List Char} (h : Base.encodeString text ++ rest = Base.encodeString text' ++ rest') :
    text = text' ∧ rest = rest' := by
  simp only [Base.encodeString, List.cons_append, List.append_assoc, List.nil_append, List.cons.injEq, true_and] at h
  have hscan := congrArg Base.scanString h
  rw [Base.scanString_encoded, Base.scanString_encoded] at hscan
  exact Prod.mk.inj (Option.some.inj hscan)

theorem dumpsTail_injective : Function.Injective dumpsTail := by
  intro texts
  induction texts with
  | nil =>
      rintro (_ | ⟨text, texts⟩) h
      · rfl
      · simp [dumpsTail] at h
  | cons text texts ih =>
      rintro (_ | ⟨text', texts'⟩) h
      · simp [dumpsTail] at h
      · have hparts : Base.encodeString text.toList ++ dumpsTail texts = Base.encodeString text'.toList ++ dumpsTail texts' := by
          simpa [dumpsTail] using h
        obtain ⟨hsame, hrest⟩ := encodeString_append_inj hparts
        rw [String.ext hsame, ih hrest]

theorem dumpsList_injective : Function.Injective dumpsList := by
  intro texts texts' h
  have hlist := congrArg String.toList h
  have hnil : (dumpsList []).toList = ['[', ']'] := by decide
  cases texts with
  | nil =>
      cases texts' with
      | nil => rfl
      | cons text texts =>
          rw [hnil, dumpsList_cons] at hlist
          simp [Base.encodeString] at hlist
  | cons text texts =>
      cases texts' with
      | nil =>
          rw [hnil, dumpsList_cons] at hlist
          simp [Base.encodeString] at hlist
      | cons text' texts' =>
          rw [dumpsList_cons, dumpsList_cons] at hlist
          obtain ⟨hsame, hrest⟩ := encodeString_append_inj (List.cons.inj hlist).2
          rw [String.ext hsame, dumpsTail_injective hrest]

theorem digest_injective {reader : Reader} (hsha : Function.Injective reader.sha256) : Function.Injective (Glimpse.digest reader) := by
  intro glimpse glimpse' h
  have hlist := congrArg String.toList h
  cases glimpse <;> cases glimpse' <;> simp [Glimpse.digest, String.toList_append] at hlist h ⊢
  · exact h
  · exact dumpsList_injective (hsha h)
  · exact hsha h

/-! ### Inputs that hold -/

/-- The same of a tree with another root. -/
def Input.moved (c : Checkout) (root : Path) : Input → Input
  | .denied place errno => .denied (c.moved root place) errno
  | .link place target => .link (c.moved root place) target
  | .missing place => .missing (c.moved root place)
  | .seen place digest => .seen (c.moved root place) digest

theorem Input.moved_self (c : Checkout) (input : Input) : input.moved c c.sandbox = input := by
  cases input <;> simp only [Input.moved, Proofs.moved_self]

/-- What the input says of the files is so. -/
def Input.Holds (reader : Reader) (m : Machine) : Input → Prop
  | .denied place errno => m.stat place = .error (.denied errno)
  | .link place target => m.lstat place = .ok (.symlink target)
  | .missing place => m.exists? place = .ok false
  | .seen place digest => pathDigest reader m place = some digest

section

variable {reader : Reader} {c : Checkout} {m : Machine}

theorem pathDigest_link {place : Path} {target : String} :
    pathDigest reader m place = some ("link:" ++ target) ↔ m.lstat place = .ok (.symlink target) := by
  rw [pathDigest_eq]
  unfold Machine.glimpse Machine.glimpseBehind
  generalize m.lstat place = first
  generalize m.stat place = behind
  cases first with
  | error fault =>
      rcases behind with _ | ⟨_ | _ | _ | _⟩ <;> cases m.resolve true place <;> simp [Glimpse.digest, String.ext_iff, String.toList_append]
  | ok node =>
      cases node with
      | symlink other => simp [Glimpse.digest, String.ext_iff, String.toList_append]
      | _ => rcases behind with _ | ⟨_ | _ | _ | _⟩ <;> cases m.resolve true place <;> simp [Glimpse.digest, String.ext_iff, String.toList_append]

theorem errno_inj {errno errno' : Nat} : errno.repr = errno'.repr ↔ errno = errno' := by
  refine ⟨fun h => ?_, fun h => h ▸ rfl⟩
  have hlist : Nat.toDigits 10 errno = Nat.toDigits 10 errno' := by
    rw [← Nat.toList_repr, ← Nat.toList_repr]
    exact congrArg String.toList h
  rw [← Nat.ofDigitChars_ten_toDigits (n := errno), hlist, Nat.ofDigitChars_ten_toDigits]

theorem inputMatches_holds (root : Path) {input : Input} (hplain : input.isPlain c = true)
    (hnames : ∀ part ∈ input.place, isName part = true) :
    inputMatches reader root m (input.key c) input.value = .ok true ↔ (input.moved c root).Holds reader m := by
  rw [Input.inputMatches_plain reader root m _ hplain hnames]
  cases input with
  | denied place errno =>
      simp only [Input.value, Input.moved, Input.Holds]
      cases m.stat (c.moved root place) with
      | ok node => simp
      | error fault =>
          cases fault with
          | denied other =>
              simp only [Except.ok.injEq, beq_iff_eq, Except.error.injEq, Fault.denied.injEq]
              exact errno_inj
          | missing | notDirectory | loop => simp
  | link place target => simp [Input.value, Input.moved, Input.Holds, pathDigest_link]
  | missing place =>
      simp only [Input.moved, Input.Holds]
      cases m.exists? (c.moved root place) with
      | error fault => simp [Except.map]
      | ok there => simp [Except.map]
  | seen place digest => simp [Input.value, Input.moved, Input.Holds]

/-- Only one value is matched under the name of an input, unless the input is that nothing is there. -/
theorem value_unique {input : Input} {value value' : String} (hplain : input.isPlain c = true) (hnames : ∀ part ∈ input.place, isName part = true)
    (hthere : ∀ place, input ≠ .missing place) (hmatch : inputMatches reader c.sandbox m (input.key c) value = .ok true)
    (hmatch' : inputMatches reader c.sandbox m (input.key c) value' = .ok true) : value = value' := by
  rw [Input.inputMatches_plain reader c.sandbox m _ hplain hnames] at hmatch hmatch'
  cases input with
  | missing place => exact absurd rfl (hthere place)
  | denied place errno =>
      simp only at hmatch hmatch'
      split at hmatch
      · next hstat =>
          simp only [hstat, Except.ok.injEq, beq_iff_eq] at hmatch hmatch'
          rw [← hmatch, ← hmatch']
      · cases hmatch
  | link | seen =>
      simp only [Except.ok.injEq, beq_iff_eq] at hmatch hmatch'
      rw [hmatch] at hmatch'
      exact Option.some.inj hmatch'

theorem value_eq {input other : Input} (hplain : input.isPlain c = true) (hplain' : other.isPlain c = true)
    (hnames : ∀ part ∈ input.place, isName part = true) (hnames' : ∀ part ∈ other.place, isName part = true) (hkey : input.key c = other.key c)
    (hholds : input.Holds reader m) (hholds' : other.Holds reader m) : input.value = other.value := by
  have hmatch := (inputMatches_holds c.sandbox hplain hnames).mpr ((input.moved_self c).symm ▸ hholds)
  have hmatch' := (inputMatches_holds c.sandbox hplain' hnames').mpr ((other.moved_self c).symm ▸ hholds')
  by_cases hthere : ∀ place, input ≠ .missing place
  · rw [← hkey] at hmatch'
    exact value_unique hplain hnames hthere hmatch hmatch'
  by_cases hthere' : ∀ place, other ≠ .missing place
  · rw [hkey] at hmatch
    exact value_unique hplain' hnames' hthere' hmatch hmatch'
  · push Not at hthere hthere'
    obtain ⟨place, rfl⟩ := hthere
    obtain ⟨place', rfl⟩ := hthere'
    rfl

end

/-! ### The manifest of inputs -/

theorem objectOf_covers {pairs : List (String × String)} {pair : String × String} (h : pair ∈ pairs) :
    ∃ value, (pair.1, value) ∈ Base.objectOf pairs := by
  suffices hlookup : ((Base.objectOf pairs).lookup pair.1).isSome = true by
    obtain ⟨value, hvalue⟩ := Option.isSome_iff_exists.mp hlookup
    exact ⟨value, Base.mem_of_lookup hvalue⟩
  induction pairs using List.reverseRec with
  | nil => cases h
  | append_singleton pairs last ih =>
      have hset : Base.objectOf (pairs ++ [last]) = Base.setField (Base.objectOf pairs) last.1 last.2 := by simp [Base.objectOf]
      rw [hset]
      by_cases hsame : pair.1 = last.1
      · rw [hsame, Base.lookup_setField_self]
        rfl
      · rw [Base.lookup_setField_ne _ hsame]
        rcases List.mem_append.mp h with hbefore | hlast
        · exact ih hbefore
        · rw [List.mem_singleton.mp hlast] at hsame
          exact absurd rfl hsame

section

variable {reader : Reader} {c : Checkout} {m : Machine} {inputs : List Input}

/-- The inputs are so, and their names are read back. -/
structure Attested (reader : Reader) (c : Checkout) (m : Machine) (inputs : List Input) : Prop where
  plain : ∀ input ∈ inputs, input.isPlain c = true
  names : ∀ input ∈ inputs, ∀ part ∈ input.place, isName part = true
  holds : ∀ input ∈ inputs, input.Holds reader m

/-- Inputs with one name have one value. -/
theorem Attested.mem_manifest (h : Attested reader c m inputs) {input : Input} (hinput : input ∈ inputs) :
    (input.key c, input.value) ∈ manifestOf c inputs := by
  obtain ⟨value, hvalue⟩ := objectOf_covers (List.mem_map_of_mem (f := fun input : Input => (input.key c, input.value)) hinput)
  obtain ⟨other, hother, heq⟩ := List.mem_map.mp (Base.mem_objectOf hvalue)
  obtain ⟨hkey, rfl⟩ := Prod.mk.inj heq
  rw [value_eq (h.plain _ hinput) (h.plain _ hother) (h.names _ hinput) (h.names _ hother) hkey.symm (h.holds _ hinput) (h.holds _ hother)]
  exact hvalue

theorem Attested.matches (h : Attested reader c m inputs) (hne : manifestOf c inputs ≠ []) :
    manifestMatches reader c.sandbox m (manifestOf c inputs) = .ok true := by
  refine manifestMatches_ok.mpr ⟨hne, fun field hfield => ?_⟩
  obtain ⟨input, hinput, rfl⟩ := List.mem_map.mp (Base.mem_objectOf hfield)
  exact (inputMatches_holds c.sandbox (h.plain _ hinput) (h.names _ hinput)).mpr ((input.moved_self c).symm ▸ h.holds _ hinput)

/-- Where the manifest matches, every input is so. -/
theorem Attested.replayed (h : Attested reader c m inputs) {root : Path} {m' : Machine}
    (hmatch : manifestMatches reader root m' (manifestOf c inputs) = .ok true) {input : Input} (hinput : input ∈ inputs) :
    (input.moved c root).Holds reader m' :=
  (inputMatches_holds root (h.plain _ hinput) (h.names _ hinput)).mp ((manifestMatches_ok.mp hmatch).2 _ (h.mem_manifest hinput))

end

/-! ### What a trace gives -/

section

variable {reader : Reader} {c : Checkout} {m : Machine}

/-- The input comes from a path that was denied. -/
def FromDenied (c : Checkout) (m : Machine) (denied : List (Option String × Nat)) (input : Input) : Prop :=
  ∃ raw errno found excluded, (some raw, errno) ∈ denied ∧ classify c m raw = some (found, excluded) ∧
    (input ∈ found.linkInputs ∨ excluded = false ∧ input = .denied found.place errno)

theorem deniedInputs_spec {denied : List (Option String × Nat)} {inputs links : List Input}
    (h : deniedInputs c m denied = some (inputs, links)) :
    (∀ raw errno, (some raw, errno) ∈ denied → ∃ found excluded, classify c m raw = some (found, excluded) ∧
      found.linkInputs ⊆ inputs ++ links ∧ (excluded = false → .denied found.place errno ∈ inputs ++ links)) ∧
      ∀ input ∈ inputs ++ links, FromDenied c m denied input := by
  induction denied generalizing inputs links with
  | nil =>
      obtain ⟨rfl, rfl⟩ := Prod.mk.inj (Option.some.inj h)
      simp
  | cons first rest ih =>
      obtain ⟨text, errno⟩ := first
      cases text with
      | none => cases h
      | some raw =>
          simp only [deniedInputs, Option.bind_eq_bind, Option.bind_eq_some_iff, Option.pure_def, Option.some.injEq, Prod.exists,
            Prod.mk.injEq] at h
          obtain ⟨found, excluded, hclassify, later, laterLinks, hlater, hinputs, rfl⟩ := h
          obtain ⟨hcovers, hfrom⟩ := ih hlater
          have hsub : ∀ input ∈ later ++ laterLinks, input ∈ inputs ++ (found.linkInputs ++ laterLinks) := by
            intro input hinput
            rw [← hinputs]
            split <;> simp only [List.mem_append, List.mem_cons] at hinput ⊢ <;> tauto
          refine ⟨fun other errno' hother => ?_, fun input hinput => ?_⟩
          · rcases List.mem_cons.mp hother with heq | hother
            · obtain ⟨htext, rfl⟩ := Prod.mk.inj heq
              obtain rfl := Option.some.inj htext
              refine ⟨found, excluded, hclassify, fun input hinput => by simp [hinput], fun hincluded => ?_⟩
              rw [← hinputs, hincluded]
              simp
            · obtain ⟨found', excluded', hclassify', hlinks', hdenied'⟩ := hcovers other errno' hother
              exact ⟨found', excluded', hclassify', fun input hinput => hsub input (hlinks' hinput), fun h => hsub _ (hdenied' h)⟩
          · have hstep : input ∈ later ++ laterLinks ∨ input ∈ found.linkInputs ∨ excluded = false ∧ input = .denied found.place errno := by
              rw [← hinputs] at hinput
              split at hinput <;> simp only [List.mem_append, List.mem_cons] at hinput ⊢
              · tauto
              · next hincluded =>
                  have hincluded : excluded = false := by simpa using hincluded
                  tauto
            rcases hstep with hinput | hown
            · obtain ⟨raw', errno', found', excluded', hraw', hrest⟩ := hfrom input hinput
              exact ⟨raw', errno', found', excluded', List.mem_cons_of_mem _ hraw', hrest⟩
            · exact ⟨raw, errno, found, excluded, List.mem_cons_self, hclassify, hown⟩

/-- The input comes from another path. -/
def FromPath (reader : Reader) (c : Checkout) (m : Machine) (enriched : Bool) (paths : List String) (input : Input) : Prop :=
  ∃ raw ∈ paths, isSkipped raw = false ∧ ∃ found excluded, classify c m raw = some (found, excluded) ∧
    (input ∈ found.linkInputs ∨
      c.leavesOut enriched found excluded = false ∧ ∃ own, pathInputs reader c m found = .ok (some own) ∧ input ∈ own)

theorem observedInputs_spec {enriched : Bool} {links inputs : List Input} {paths : List String}
    (h : observedInputs reader c m enriched links paths = .ok (some inputs)) :
    (∀ raw ∈ paths, isSkipped raw = false → ∃ found excluded, classify c m raw = some (found, excluded) ∧ found.linkInputs ⊆ inputs ∧
      (c.leavesOut enriched found excluded = false → ∃ own, pathInputs reader c m found = .ok (some own) ∧ own ⊆ inputs)) ∧
      ∀ input ∈ inputs, input ∈ links ∨ FromPath reader c m enriched paths input := by
  induction paths generalizing links inputs with
  | nil =>
      obtain rfl := Option.some.inj (Except.ok.inj h)
      simp
  | cons raw rest ih =>
      have hmore : ∀ input, FromPath reader c m enriched rest input → FromPath reader c m enriched (raw :: rest) input := by
        rintro input ⟨other, hother, hfrom⟩
        exact ⟨other, List.mem_cons_of_mem _ hother, hfrom⟩
      unfold observedInputs at h
      split at h
      · next hskip =>
          obtain ⟨hcovers, hfrom⟩ := ih h
          refine ⟨fun other hother hnot => ?_, fun input hinput => (hfrom input hinput).imp_right (hmore input)⟩
          rcases List.mem_cons.mp hother with rfl | hother
          · rw [hskip] at hnot
            cases hnot
          · exact hcovers other hother hnot
      next hskip =>
      split at h
      · cases h
      next found excluded hclassify =>
      obtain ⟨own, hown, h⟩ := Base.bind_ok.mp h
      obtain ⟨later, hlater, h⟩ := Base.bind_ok.mp h
      cases own with
      | none => cases h
      | some own =>
          cases later with
          | none => cases h
          | some later =>
              obtain rfl := Option.some.inj (Except.ok.inj h)
              obtain ⟨hcovers, hfrom⟩ := ih hlater
              have hinputs : c.leavesOut enriched found excluded = false → pathInputs reader c m found = .ok (some own) := by
                intro hin
                rwa [ownInputs, hin, if_neg Bool.false_ne_true] at hown
              have hnone : c.leavesOut enriched found excluded = true → own = [] := by
                intro hout
                rw [ownInputs, hout, if_pos rfl] at hown
                exact (Option.some.inj (Except.ok.inj hown)).symm
              have hskip : isSkipped raw = false := by simpa using hskip
              have hlinks : ∀ input ∈ found.linkInputs, FromPath reader c m enriched (raw :: rest) input := fun input hinput =>
                ⟨raw, List.mem_cons_self, hskip, found, excluded, hclassify, .inl hinput⟩
              refine ⟨fun other hother hnot => ?_, fun input hinput => ?_⟩
              · rcases List.mem_cons.mp hother with rfl | hother
                · refine ⟨found, excluded, hclassify, fun input hinput => by simp [hinput], fun hin => ⟨own, hinputs hin, ?_⟩⟩
                  intro input hinput
                  simp [hinput]
                · obtain ⟨found', excluded', hclassify', hlinks', hown'⟩ := hcovers other hother hnot
                  refine ⟨found', excluded', hclassify', fun input hinput => by simp [hlinks' hinput], fun hin => ?_⟩
                  obtain ⟨own', hpath', hsub⟩ := hown' hin
                  exact ⟨own', hpath', fun input hinput => by simp [hsub hinput]⟩
              · simp only [List.mem_append] at hinput
                rcases hinput with ((hinput | hinput) | hinput) | hinput
                · exact .inl hinput
                · exact .inr (hlinks input hinput)
                · cases hout : c.leavesOut enriched found excluded with
                  | true =>
                      rw [hnone hout] at hinput
                      cases hinput
                  | false => exact .inr ⟨raw, List.mem_cons_self, hskip, found, excluded, hclassify, .inr ⟨hout, own, hinputs hout, hinput⟩⟩
                · rcases hfrom input hinput with hinput | hpath
                  · rcases List.mem_append.mp hinput with hinput | hinput
                    · exact .inl hinput
                    · exact .inr (hlinks input hinput)
                  · exact .inr (hmore input hpath)

/-- The inputs of a path: its content if it is there, and otherwise that it is not, with the names in the folder in which it gets lost. -/
theorem pathInputs_spec {found : Found} {own : List Input} (h : pathInputs reader c m found = .ok (some own)) :
    (m.exists? found.place = .ok true ∧ ∃ digest, pathDigest reader m found.place = some digest ∧ own = [.seen found.place digest]) ∨
      m.exists? found.place = .ok false ∧ .missing found.place ∈ own ∧ ∀ input ∈ own, input = .missing found.place ∨
        (∃ candidate, found.missing = some candidate ∧ input = .missing candidate) ∨
          (c.covers found.parent = true ∧ m.exists? found.parent = .ok true) ∧
            ∃ digest, pathDigest reader m found.parent = some digest ∧ input = .seen found.parent digest := by
  have hlost : ∀ input ∈ Input.missing found.place :: (found.missing.map Input.missing).toList, input = .missing found.place ∨
      ∃ candidate, found.missing = some candidate ∧ input = .missing candidate := by
    intro input hinput
    rcases List.mem_cons.mp hinput with rfl | hinput
    · exact .inl rfl
    · obtain ⟨candidate, hcandidate, rfl⟩ := Option.map_eq_some_iff.mp (Option.mem_toList.mp hinput)
      exact .inr ⟨candidate, hcandidate, rfl⟩
  unfold pathInputs at h
  obtain ⟨there, hthere, h⟩ := Base.bind_ok.mp h
  split at h
  · next heq =>
      subst heq
      obtain ⟨digest, hdigest, rfl⟩ := Option.map_eq_some_iff.mp (Except.ok.inj h)
      exact .inl ⟨hthere, digest, hdigest, rfl⟩
  next heq =>
  obtain rfl : there = false := by simpa using heq
  right
  refine ⟨hthere, ?_⟩
  simp only at h
  split at h
  · obtain rfl := Option.some.inj (Except.ok.inj h)
    exact ⟨List.mem_cons_self, fun input hinput => (hlost input hinput).imp_right .inl⟩
  next hcovers =>
  obtain ⟨there, hparent, h⟩ := Base.bind_ok.mp h
  split at h
  · next hboth =>
      obtain ⟨digest, hdigest, rfl⟩ := Option.map_eq_some_iff.mp (Except.ok.inj h)
      refine ⟨by simp, fun input hinput => ?_⟩
      rcases List.mem_append.mp hinput with hinput | hinput
      · exact (hlost input hinput).imp_right .inl
      · rw [List.mem_singleton.mp hinput]
        exact .inr (.inr ⟨⟨by simpa using hcovers, hboth.1 ▸ hparent⟩, digest, hdigest, rfl⟩)
  · obtain rfl := Option.some.inj (Except.ok.inj h)
    exact ⟨List.mem_cons_self, fun input hinput => (hlost input hinput).imp_right .inl⟩

/-! ### Names that can be read back -/

/-- The names of the links on the way are read back. -/
def Found.linksLegible (c : Checkout) (found : Found) : Bool := found.linkInputs.all (·.isPlain c)

/-- The names under which the place is recorded are read back. -/
def Found.legible (c : Checkout) (m : Machine) (found : Found) : Bool :=
  match m.exists? found.place with
  | .ok true => (Input.seen found.place "").isPlain c
  | .ok false =>
      (Input.missing found.place).isPlain c && found.missing.all (fun candidate => (Input.missing candidate).isPlain c) &&
        (!c.covers found.parent || (Input.seen found.parent "").isPlain c)
  | .error _ => true

/-- What is recorded of a trace can be read back: the names of the links and places can, what was denied cannot be looked at, and the trace
says what was read outside of the checkout. -/
structure Legible (c : Checkout) (m : Machine) (traced : Traced) : Prop where
  links : ∀ raw found excluded, (raw ∈ traced.paths ∧ isSkipped raw = false ∨ ∃ errno, (some raw, errno) ∈ traced.denied) →
    classify c m raw = some (found, excluded) → found.linksLegible c = true
  places : ∀ raw ∈ traced.paths, isSkipped raw = false → ∀ found, classify c m raw = some (found, false) →
    isIgnored (c.nameOf found.place) = false → (traced.enriched = true ∨ c.sandbox.isPrefixOf found.place = true) ∧ found.legible c m = true
  denied : ∀ raw errno, (some raw, errno) ∈ traced.denied → ∀ found, classify c m raw = some (found, false) →
    (Input.denied found.place errno).isPlain c = true ∧ m.stat found.place = .error (.denied errno)

theorem names_dropLast {place : Path} (h : ∀ part ∈ place, isName part = true) : ∀ part ∈ place.dropLast, isName part = true :=
  fun part hpart => h part (List.dropLast_subset _ hpart)

theorem Found.Sound.parent {found : Found} (h : found.Sound m) : ∀ part ∈ found.parent, isName part = true := by
  unfold Found.parent
  apply names_dropLast
  cases hmissing : found.missing with
  | none => exact h.names
  | some candidate => exact (h.missing candidate hmissing).1

theorem Found.Sound.link {found : Found} (h : found.Sound m) {input : Input} (hinput : input ∈ found.linkInputs) :
    (∀ part ∈ input.place, isName part = true) ∧ input.Holds reader m := by
  obtain ⟨link, hlink, rfl⟩ := List.mem_map.mp hinput
  exact h.links link hlink

theorem own_recorded {found : Found} {own : List Input} (hsound : found.Sound m) (hlegible : found.legible c m = true)
    (hown : pathInputs reader c m found = .ok (some own)) : Attested reader c m own := by
  unfold Found.legible at hlegible
  rcases pathInputs_spec hown with ⟨hthere, digest, hdigest, rfl⟩ | ⟨hthere, -, hall⟩
  · rw [hthere] at hlegible
    have hplain : (Input.seen found.place digest).isPlain c = true := hlegible
    constructor
    · exact List.forall_mem_singleton.mpr hplain
    · exact List.forall_mem_singleton.mpr hsound.names
    · exact List.forall_mem_singleton.mpr hdigest
  · rw [hthere] at hlegible
    simp only [Bool.and_eq_true, Bool.or_eq_true, Bool.not_eq_eq_eq_not, Bool.not_true] at hlegible
    obtain ⟨⟨hplace, hmissing⟩, hparent⟩ := hlegible
    have heach : ∀ input ∈ own, input.isPlain c = true ∧ (∀ part ∈ input.place, isName part = true) ∧ input.Holds reader m := by
      intro input hinput
      rcases hall input hinput with rfl | ⟨candidate, hcandidate, rfl⟩ | ⟨⟨hcovers, -⟩, digest, hdigest, rfl⟩
      · exact ⟨hplace, hsound.names, hthere⟩
      · rw [hcandidate] at hmissing
        exact ⟨hmissing, hsound.missing candidate hcandidate⟩
      · rw [hcovers] at hparent
        exact ⟨hparent.resolve_left (by simp), hsound.parent, hdigest⟩
    exact ⟨fun input hinput => (heach input hinput).1, fun input hinput => (heach input hinput).2.1,
      fun input hinput => (heach input hinput).2.2⟩

variable {traced : Traced} {inputs : List Input}

theorem leavesOut_iff {enriched : Bool} {found : Found} {excluded : Bool} : c.leavesOut enriched found excluded = false ↔
    excluded = false ∧ (enriched = true ∨ c.sandbox.isPrefixOf found.place = true) ∧ isIgnored (c.nameOf found.place) = false := by
  unfold Checkout.leavesOut
  cases excluded <;> cases enriched <;> simp

/-- All inputs of the trace are so, and their names are read back. -/
theorem tracedInputs_recorded (hlegible : Legible c m traced) (h : tracedInputs reader c m traced = .ok (some inputs)) :
    Attested reader c m inputs := by
  unfold tracedInputs at h
  split at h
  · cases h
  next denied links hdenied =>
  obtain ⟨observed, hobserved, h⟩ := Base.bind_ok.mp h
  obtain ⟨observed, rfl, rfl⟩ := Option.map_eq_some_iff.mp (Except.ok.inj h)
  have hplainLink : ∀ raw found excluded, (raw ∈ traced.paths ∧ isSkipped raw = false ∨ ∃ errno, (some raw, errno) ∈ traced.denied) →
      classify c m raw = some (found, excluded) → ∀ input ∈ found.linkInputs,
        input.isPlain c = true ∧ (∀ part ∈ input.place, isName part = true) ∧ input.Holds reader m := by
    intro raw found excluded hraw hclassify input hinput
    exact ⟨List.all_eq_true.mp (hlegible.links raw found excluded hraw hclassify) input hinput, (classify_sound hclassify).link hinput⟩
  have hfirst : ∀ input ∈ denied ++ links, input.isPlain c = true ∧ (∀ part ∈ input.place, isName part = true) ∧ input.Holds reader m := by
    intro input hinput
    obtain ⟨raw, errno, found, excluded, hraw, hclassify, hlink | ⟨rfl, rfl⟩⟩ := (deniedInputs_spec hdenied).2 input hinput
    · exact hplainLink raw found excluded (.inr ⟨errno, hraw⟩) hclassify input hlink
    · obtain ⟨hplain, hstat⟩ := hlegible.denied raw errno hraw found hclassify
      exact ⟨hplain, (classify_sound hclassify).names, hstat⟩
  have heach : ∀ input ∈ denied ++ links ++ observed,
      input.isPlain c = true ∧ (∀ part ∈ input.place, isName part = true) ∧ input.Holds reader m := by
    intro input hinput
    rcases List.mem_append.mp hinput with hinput | hinput
    · exact hfirst input hinput
    rcases (observedInputs_spec hobserved).2 input hinput with hinput | ⟨raw, hraw, hskip, found, excluded, hclassify, hlink | ⟨hin, own, hown, hmem⟩⟩
    · exact hfirst input (List.mem_append_right _ hinput)
    · exact hplainLink raw found excluded (.inl ⟨hraw, hskip⟩) hclassify input hlink
    · obtain ⟨rfl, -, hignored⟩ := leavesOut_iff.mp hin
      obtain ⟨-, hplace⟩ := hlegible.places raw hraw hskip found hclassify hignored
      have hrecorded := own_recorded (classify_sound hclassify) hplace hown
      exact ⟨hrecorded.plain input hmem, hrecorded.names input hmem, hrecorded.holds input hmem⟩
  exact ⟨fun input hinput => (heach input hinput).1, fun input hinput => (heach input hinput).2.1, fun input hinput => (heach input hinput).2.2⟩

/-! ### Trees on which the manifest matches -/

/-- The other tree has what the path led to: the links on the way lead where they did, the place is there if it was, and its kind and content
are those that it had. -/
structure Found.Same (c : Checkout) (m : Machine) (found : Found) (root : Path) (m' : Machine) : Prop where
  links : ∀ link ∈ found.links, m.lstat link.1 = .ok (.symlink link.2) ∧ m'.lstat (c.moved root link.1) = .ok (.symlink link.2)
  place : ∃ there, m.exists? found.place = .ok there ∧ m'.exists? (c.moved root found.place) = .ok there ∧
    (there = true → ∃ content, m.glimpse found.place = some content ∧ m'.glimpse (c.moved root found.place) = some content)

/-- The manifest replays what the trace says: it matches the files it is of, and wherever it matches, each path leads to what it led to, and is
denied if it was. -/
def Replays (reader : Reader) (c : Checkout) (m : Machine) (traced : Traced) (manifest : Manifest) : Prop :=
  manifestMatches reader c.sandbox m manifest = .ok true ∧
    ∀ root m', manifestMatches reader root m' manifest = .ok true →
      (∀ raw ∈ traced.paths, isSkipped raw = false → ∀ found, classify c m raw = some (found, false) →
        isIgnored (c.nameOf found.place) = false → found.Same c m root m') ∧
        ∀ raw errno, (some raw, errno) ∈ traced.denied → ∀ found, classify c m raw = some (found, false) →
          m.stat found.place = .error (.denied errno) ∧ m'.stat (c.moved root found.place) = .error (.denied errno)

theorem glimpse_there {place : Path} {content : Glimpse} (h : m.glimpse place = some content) (hlink : ∀ target, content ≠ .link target) :
    m.exists? place = .ok true := by
  unfold Machine.glimpse Machine.glimpseBehind at h
  unfold Machine.exists?
  cases hlstat : m.lstat place with
  | error fault =>
      cases hstat : m.stat place with
      | ok node => rfl
      | error fault => simp [hlstat, hstat] at h
  | ok node =>
      cases node with
      | symlink target =>
          simp only [hlstat, Option.some.injEq] at h
          exact absurd h.symm (hlink target)
      | _ =>
          cases hstat : m.stat place with
          | ok node => rfl
          | error fault => simp [hlstat, hstat] at h

theorem glimpse_last {place : Path} {content : Glimpse} (h : m.glimpse place = some content)
    (hlast : ∀ target, m.lstat place ≠ .ok (.symlink target)) (target : String) : content ≠ .link target := by
  rintro rfl
  have hdigest : pathDigest ⟨id, fun _ _ _ _ => false⟩ m place = some ("link:" ++ target) := by
    rw [pathDigest_eq, h]
    rfl
  exact hlast target (pathDigest_link.mp hdigest)

/-- What the inputs of a path say of another tree. -/
theorem same_of_inputs (hsha : Function.Injective reader.sha256) {found : Found} {own : List Input} {root : Path} {m' : Machine}
    (hsound : found.Sound m) (hown : pathInputs reader c m found = .ok (some own))
    (hlinks : ∀ input ∈ found.linkInputs, (input.moved c root).Holds reader m')
    (hholds : ∀ input ∈ own, (input.moved c root).Holds reader m') : found.Same c m root m' where
  links link hlink := ⟨(hsound.links link hlink).2, hlinks _ (List.mem_map_of_mem hlink)⟩
  place := by
    rcases pathInputs_spec hown with ⟨hthere, digest, hdigest, rfl⟩ | ⟨hthere, hmem, -⟩
    · have hdigest' : pathDigest reader m' (c.moved root found.place) = some digest := hholds _ List.mem_cons_self
      rw [pathDigest_eq] at hdigest hdigest'
      obtain ⟨content, hcontent, rfl⟩ := Option.map_eq_some_iff.mp hdigest
      obtain ⟨content', hcontent', heq⟩ := Option.map_eq_some_iff.mp hdigest'
      obtain rfl := digest_injective hsha heq
      exact ⟨true, hthere, glimpse_there hcontent' (glimpse_last hcontent hsound.last), fun _ => ⟨content', hcontent, hcontent'⟩⟩
    · exact ⟨false, hthere, hholds _ hmem, fun h => nomatch h⟩

/-- Where the names can be read back, the manifest of a trace replays it. -/
theorem manifest_replays (h : TraceHost) (reader : Reader) (c : Checkout) (m : Machine) {text : List Char} {traced : Traced}
    {manifest : Manifest} {network : Bool} (hsha : Function.Injective reader.sha256) (htraced : (readTraced h c.sandbox text).1 = some traced)
    (hmanifest : observedInputManifest h reader c m (some text) = .ok (manifest, network)) (hne : manifest ≠ [])
    (hlegible : Legible c m traced) : Replays reader c m traced manifest := by
  unfold observedInputManifest at hmanifest
  simp only at hmanifest
  obtain ⟨inputs, hinputs, rfl⟩ : ∃ inputs, tracedInputs reader c m traced = .ok (some inputs) ∧ manifest = manifestOf c inputs := by
    rcases hread : readTraced h c.sandbox text with ⟨_ | traced', network'⟩
    · rw [hread] at htraced
      cases htraced
    · rw [hread] at htraced hmanifest
      obtain rfl := Option.some.inj htraced
      obtain ⟨inputs, hinputs, heq⟩ := Base.bind_ok.mp hmanifest
      obtain ⟨rfl, -⟩ := Prod.mk.inj (Except.ok.inj heq)
      cases inputs with
      | none => exact absurd rfl hne
      | some inputs => exact ⟨inputs, hinputs, rfl⟩
  have hrecorded := tracedInputs_recorded hlegible hinputs
  refine ⟨hrecorded.matches hne, fun root m' hmatch => ?_⟩
  have hreplayed : ∀ input ∈ inputs, (input.moved c root).Holds reader m' := fun input hinput => hrecorded.replayed hmatch hinput
  unfold tracedInputs at hinputs
  split at hinputs
  · cases hinputs
  next denied links hdenied =>
  obtain ⟨observed, hobserved, hinputs⟩ := Base.bind_ok.mp hinputs
  obtain ⟨observed, rfl, rfl⟩ := Option.map_eq_some_iff.mp (Except.ok.inj hinputs)
  refine ⟨fun raw hraw hskip found hclassify hignored => ?_, fun raw errno hraw found hclassify => ?_⟩
  · obtain ⟨henriched, -⟩ := hlegible.places raw hraw hskip found hclassify hignored
    obtain ⟨found', excluded, hclassify', hlinks, hown⟩ := (observedInputs_spec hobserved).1 raw hraw hskip
    rw [hclassify] at hclassify'
    obtain ⟨rfl, rfl⟩ := Prod.mk.inj (Option.some.inj hclassify')
    obtain ⟨own, hpath, hsub⟩ := hown (leavesOut_iff.mpr ⟨rfl, henriched, hignored⟩)
    exact same_of_inputs hsha (classify_sound hclassify) hpath (fun input hinput => hreplayed input (List.mem_append_right _ (hlinks hinput)))
      fun input hinput => hreplayed input (List.mem_append_right _ (hsub hinput))
  · obtain ⟨found', excluded, hclassify', -, hmem⟩ := (deniedInputs_spec hdenied).1 raw errno hraw
    rw [hclassify] at hclassify'
    obtain ⟨rfl, rfl⟩ := Prod.mk.inj (Option.some.inj hclassify')
    exact ⟨(hlegible.denied raw errno hraw found hclassify).2, hreplayed _ (List.mem_append_left _ (hmem rfl))⟩

end

def plainHost : TraceHost where
  resolvedTrace := some
  resolveFileTrace _ text := some text
  digit := Char.isDigit
  word c := c.isAlphanum || c == '_'

def identityReader : Reader where
  sha256 := id
  probe _ _ _ _ := false

def workCheckout : Checkout where
  sandbox := ["work"]
  names := by decide
  dependencyLinks := []
  runtimeRoots := []
  bookkeeping := []
  identity _ _ := []

/-- The checkout has one file. -/
def workTree (name data : String) : Machine := ⟨[(["work"], .directory), (["work", name], .file data 0o644)]⟩

def openedTrace : List Char :=
  "openat(AT_FDCWD, \x22a\x22, O_RDONLY) = 3\nopenat(AT_FDCWD, \x22b\x22, O_RDONLY) = -1 ENOENT\n".toList

def markedTrace : List Char := "openat(AT_FDCWD, \x22!x\x22, O_RDONLY) = 3\n".toList

example : (readTraced plainHost workCheckout.sandbox openedTrace).1 = some ⟨false, [], ["a", "b"]⟩ := by decide +kernel

theorem openedTrace_replays :
    Replays identityReader workCheckout (workTree "a" "1") ⟨false, [], ["a", "b"]⟩ [("a", "file:1"), ("!b", "missing")] := by
  have ha : classify workCheckout (workTree "a" "1") "a" = some (⟨["work", "a"], [], none⟩, false) := by decide +kernel
  have hb : classify workCheckout (workTree "a" "1") "b" = some (⟨["work", "b"], [], some ["work", "b"]⟩, false) := by decide +kernel
  refine @manifest_replays plainHost identityReader workCheckout (workTree "a" "1") openedTrace _ _ false
    Function.injective_id (by decide +kernel) (by decide +kernel) (by decide) ⟨?_, ?_, fun _ _ h => nomatch h⟩
  · rintro raw found excluded (⟨hraw, -⟩ | ⟨_, hraw⟩) hclassify
    · simp only [List.mem_cons, List.not_mem_nil, or_false] at hraw
      rcases hraw with rfl | rfl
      · rw [ha] at hclassify
        obtain ⟨rfl, rfl⟩ := Prod.mk.inj (Option.some.inj hclassify)
        rfl
      · rw [hb] at hclassify
        obtain ⟨rfl, rfl⟩ := Prod.mk.inj (Option.some.inj hclassify)
        rfl
    · cases hraw
  · intro raw hraw _ found hclassify _
    simp only [List.mem_cons, List.not_mem_nil, or_false] at hraw
    rcases hraw with rfl | rfl
    · rw [ha] at hclassify
      obtain ⟨rfl, -⟩ := Prod.mk.inj (Option.some.inj hclassify)
      exact ⟨.inr (by decide), by decide +kernel⟩
    · rw [hb] at hclassify
      obtain ⟨rfl, -⟩ := Prod.mk.inj (Option.some.inj hclassify)
      exact ⟨.inr (by decide), by decide +kernel⟩

/-- The name of a file starts with the mark of what is missing: the manifest says that another file is not there, and matches whatever the
content of the file has become. -/
theorem markedTrace_stale : (readTraced plainHost workCheckout.sandbox markedTrace).1 = some ⟨false, [], ["!x"]⟩ ∧
    observedInputManifest plainHost identityReader workCheckout (workTree "!x" "1") (some markedTrace) = .ok ([("!x", "file:1")], false) ∧
      ¬ Replays identityReader workCheckout (workTree "!x" "1") ⟨false, [], ["!x"]⟩ [("!x", "file:1")] := by
  refine ⟨by decide +kernel, by decide +kernel, fun ⟨_, hlater⟩ => ?_⟩
  have hclassify : classify workCheckout (workTree "!x" "1") "!x" = some (⟨["work", "!x"], [], none⟩, false) := by decide +kernel
  obtain ⟨hpaths, -⟩ := hlater ["work"] (workTree "!x" "2") (by decide +kernel)
  obtain ⟨there, hthere, -, hcontent⟩ := (hpaths "!x" (by decide) (by decide +kernel) _ hclassify (by decide +kernel)).place
  have hhere : (workTree "!x" "1").exists? ["work", "!x"] = .ok true := by decide +kernel
  rw [hhere] at hthere
  obtain ⟨content, hbefore, hafter⟩ := hcontent (Except.ok.inj hthere).symm
  have hfirst : (workTree "!x" "1").glimpse ["work", "!x"] = some (.file "1") := by decide +kernel
  have hsecond : (workTree "!x" "2").glimpse (workCheckout.moved ["work"] ["work", "!x"]) = some (.file "2") := by decide +kernel
  rw [hfirst] at hbefore
  rw [hsecond] at hafter
  rw [← hafter] at hbefore
  exact absurd hbefore (by decide)

end AutoAgents.Proofs
