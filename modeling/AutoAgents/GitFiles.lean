import AutoAgents.GitObjects

/-! Names, indexes and working files. A name covers what lies below it, as in a pathspec; a sorted
listing of names never has a directory after what lies below it; a working tree has one node at each
name, and git sees of it the files and the links. -/

namespace Git

/-! ### Names -/

/-- The directories a name lies in. -/
def ancestors (p : Path) : List Path := p.inits.filter fun q => q != [] && q != p

theorem mem_ancestors {p q : Path} : q ∈ ancestors p ↔ q <+: p ∧ q ≠ [] ∧ q ≠ p := by
  simp only [ancestors, List.mem_filter, List.mem_inits, Bool.and_eq_true, bne_iff_ne, ne_eq]

theorem ancestors_trans {p q r : Path} (hq : q ∈ ancestors p) (hr : r ∈ ancestors q) :
    r ∈ ancestors p := by
  obtain ⟨hqp, -, -⟩ := mem_ancestors.mp hq
  obtain ⟨hrq, hne, hlt⟩ := mem_ancestors.mp hr
  refine mem_ancestors.mpr ⟨hrq.trans hqp, hne, ?_⟩
  rintro rfl
  exact hlt (hrq.eq_of_length (Nat.le_antisymm hrq.length_le hqp.length_le))

theorem not_mem_ancestors_self (p : Path) : p ∉ ancestors p := fun h => (mem_ancestors.mp h).2.2 rfl

/-- The names a list of pathspecs matches: those it lists and what lies below them. -/
def covers (names : List Path) (p : Path) : Bool := names.any fun name => name.isPrefixOf p

theorem covers_iff {names : List Path} {p : Path} : covers names p = true ↔ ∃ q ∈ names, q <+: p := by
  simp only [covers, List.any_eq_true, List.isPrefixOf_iff_prefix]

theorem covers_of_mem {names : List Path} {p : Path} (h : p ∈ names) : covers names p = true :=
  covers_iff.mpr ⟨p, h, List.prefix_rfl⟩

/-- The characters of a name. -/
def spelled : Path → List Nat
  | [] => []
  | [part] => part.toList.map Char.toNat
  | part :: rest => part.toList.map Char.toNat ++ '/'.toNat :: spelled rest

theorem spelled_append {p q : Path} (hp : p ≠ []) (hq : q ≠ []) :
    spelled (p ++ q) = spelled p ++ '/'.toNat :: spelled q := by
  induction p with
  | nil => exact absurd rfl hp
  | cons part rest ih =>
      cases rest with
      | nil =>
          obtain ⟨x, q, rfl⟩ := List.exists_cons_of_ne_nil hq
          rfl
      | cons next rest =>
          have h := ih (List.cons_ne_nil _ _)
          simp only [List.cons_append, spelled, List.append_assoc] at h ⊢
          rw [h]

theorem lt_append_cons (l : List Nat) (n : Nat) (r : List Nat) : l < l ++ n :: r := by
  induction l with
  | nil => exact List.Lex.nil
  | cons m l ih => exact List.Lex.cons ih

/-- A directory is listed before what lies below it. -/
theorem spelled_lt {p q : Path} (h : q ∈ ancestors p) : spelled q < spelled p := by
  obtain ⟨⟨r, rfl⟩, hq, hne⟩ := mem_ancestors.mp h
  have hr : r ≠ [] := by
    rintro rfl
    exact hne (List.append_nil q).symm
  rw [spelled_append hq hr]
  exact lt_append_cons _ _ _

/-- `sorted(set(names))`. -/
def sortNames (names : List Path) : List Path :=
  names.dedup.insertionSort fun p q => spelled p ≤ spelled q

theorem mem_sortNames {names : List Path} {p : Path} : p ∈ sortNames names ↔ p ∈ names := by
  rw [sortNames, List.mem_insertionSort, List.mem_dedup]

/-- A sorted listing: no name comes twice, and none after a name that lies below it. -/
def Listed (names : List Path) : Prop := names.Pairwise fun p q => ¬ q <+: p

theorem sortNames_listed {names : List Path} (h : ∀ p ∈ names, p ≠ []) : Listed (sortNames names) := by
  have hsorted : (sortNames names).Pairwise fun p q => spelled p ≤ spelled q :=
    List.pairwise_insertionSort _ _
  have hnodup : (sortNames names).Nodup :=
    ((List.perm_insertionSort _ _).nodup_iff).mpr (List.nodup_dedup names)
  refine (hsorted.and hnodup).imp_of_mem ?_
  rintro p q - hq ⟨hle, hne⟩ hbelow
  have hmem : q ∈ ancestors p :=
    mem_ancestors.mpr ⟨hbelow, h q (mem_sortNames.mp hq), fun heq => hne heq.symm⟩
  exact absurd (spelled_lt hmem) (not_lt.mpr hle)

/-! ### Listings -/

/-- What git compares: at each name a blob with its mode, or nothing. -/
abbrev View := Path → Option Entry

/-- The version of a name in a commit. -/
def Commit.at (c : Commit) : View := fun p => c.tree.lookup p

/-- The name is a directory of the tree. -/
def Commit.directory (c : Commit) (p : Path) : Bool := c.tree.keys.any fun q => p ∈ ancestors q

/-- The tree that has, at each of the names, the version of a listing. -/
def treeOf (view : View) : List Path → Tree
  | [] => ∅
  | p :: names =>
      match view p with
      | some entry => (treeOf view names).insert p entry
      | none => (treeOf view names).erase p

theorem lookup_treeOf (view : View) (names : List Path) (p : Path) :
    (treeOf view names).lookup p = if p ∈ names then view p else none := by
  induction names with
  | nil => rfl
  | cons q names ih =>
      rw [treeOf]
      by_cases hp : p = q
      · subst hp
        rw [if_pos List.mem_cons_self]
        split
        · next entry hentry => rw [AList.lookup_insert, hentry]
        · next hnone => rw [AList.lookup_erase, hnone]
      · have hmem : p ∈ q :: names ↔ p ∈ names :=
          ⟨fun h => (List.mem_cons.mp h).resolve_left hp, List.mem_cons_of_mem q⟩
        rw [if_congr hmem rfl rfl, ← ih]
        split
        · rw [AList.lookup_insert_ne hp]
        · rw [AList.lookup_erase_ne hp]

/-- What stands at a name of a working tree. -/
inductive Node
  | file (data : Bytes) (executable : Bool)
  | directory
  | symlink (target : Bytes)
  deriving DecidableEq, Repr

/-- A working tree. -/
abbrev Files := Path → Option Node

/-- The entry git makes of a node. -/
def Node.entry : Node → Option Entry
  | file data executable => some ⟨if executable then .executable else .regular, data⟩
  | directory => none
  | symlink target => some ⟨.symlink, target⟩

def Files.view (files : Files) : View := fun p => (files p).bind Node.entry

end Git
