import AutoAgents.VerificationSteps

/-! The functions of a Python module, and the symbols that a change of the module touches: those whose bodies alone
have changed. A syntax tree has no positions, so that two trees are equal where `ast.dump` writes the same. -/

namespace AutoAgents.Verification.Symbols

open Base

/-! ### Syntax trees -/

mutual

/-- A statement. What is not a statement of a block stands in its head: a signature, decorators, bases, expressions. -/
inductive Stmt (H : Type)
  | functionDef (isAsync : Bool) (name : String) (head : H) (body : Block H)
  | classDef (name : String) (head : H) (body : Block H)
  | other (head : H) (blocks : Blocks H)
  deriving DecidableEq

inductive Block (H : Type)
  | nil
  | cons (node : Stmt H) (rest : Block H)
  deriving DecidableEq

/-- The blocks of a statement such as `if` or `try`. -/
inductive Blocks (H : Type)
  | nil
  | cons (block : Block H) (rest : Blocks H)
  deriving DecidableEq

end

/-- A `FunctionDef` or an `AsyncFunctionDef`. -/
structure Function (H : Type) where
  isAsync : Bool
  name : String
  head : H
  body : Block H
  deriving DecidableEq

def Function.withBody {H : Type} (node : Function H) (change : Block H → Block H) : Function H :=
  { node with body := change node.body }

/-- Where a node is: the place of each statement that it is in. -/
abbrev Path := List Nat

variable {H : Type}

/-- `visit`: the functions that are not in another function and not in another statement than a class, with their
dotted names. -/
def visit (start : String) (path : Path) : Nat → Block H → List (String × Path × Function H)
  | _, .nil => []
  | i, .cons (.functionDef isAsync name head body) rest =>
      (start ++ name, path ++ [i], ⟨isAsync, name, head, body⟩) :: visit start path (i + 1) rest
  | i, .cons (.classDef name _ body) rest =>
      visit (start ++ name ++ ".") (path ++ [i]) 0 body ++ visit start path (i + 1) rest
  | i, .cons (.other _ _) rest => visit start path (i + 1) rest

/-- `_functions`: the last of each name. -/
def functions (tree : Block H) : List (String × Path × Function H) := objectOf (visit "" [] 0 tree)

/-- The tree with the bodies of the functions that are visited changed, each by its place. -/
def edit (change : Path → Block H → Block H) (path : Path) : Nat → Block H → Block H
  | _, .nil => .nil
  | i, .cons (.functionDef isAsync name head body) rest =>
      .cons (.functionDef isAsync name head (change (path ++ [i]) body)) (edit change path (i + 1) rest)
  | i, .cons (.classDef name head body) rest =>
      .cons (.classDef name head (edit change (path ++ [i]) 0 body)) (edit change path (i + 1) rest)
  | i, .cons (.other head blocks) rest => .cons (.other head blocks) (edit change path (i + 1) rest)

/-! ### Changes -/

variable [DecidableEq H] (pass : H)

/-- `[ast.Pass()]` -/
def passBody : Block H := .cons (.other pass .nil) .nil

/-- The places of the nodes that `_functions` has. -/
def places (tree : Block H) : List Path := (functions tree).map fun entry => entry.2.1

/-- The tree with `node.body = [ast.Pass()]` for every `node in _functions(tree).values()`. -/
def skeleton (tree : Block H) : Block H :=
  edit (fun place body => if place ∈ places tree then passBody pass else body) [] 0 tree

def function (tree : Block H) (name : String) : Option (Function H) := ((functions tree).lookup name).map Prod.snd

/-- What is left of `changed_symbols` when both texts are read. -/
def changedBodies (old new : Block H) : Option (List String) :=
  let names := (functions old).map Prod.fst
  let others := (functions new).map Prod.fst
  if names ⊆ others ∧ others ⊆ names then
    let changed := names.filter fun name => function old name ≠ function new name
    if skeleton pass old ≠ skeleton pass new then none else some changed
  else none

/-- `changed_symbols`, for what `ast.parse` makes of the file at the baseline and of the file as it is. -/
def changedSymbols (path : String) (before after : Option (Block H)) : Option (List String) :=
  if ".py".toList.isSuffixOf path.toList = true then
    match before, after with
    | some old, some new => changedBodies pass old new
    | _, _ => none
  else none

/-! ### Edits -/

section Edits

omit [DecidableEq H]

variable {start : String} {path place : Path} {i : Nat} {tree : Block H} {change other : Path → Block H → Block H}

theorem visit_edit (change : Path → Block H → Block H) (start : String) (path : Path) (i : Nat) (tree : Block H) :
    visit start path i (edit change path i tree) =
      (visit start path i tree).map fun entry => (entry.1, entry.2.1, entry.2.2.withBody (change entry.2.1)) := by
  fun_induction visit start path i tree with
  | case1 => rfl
  | case2 start path i isAsync name head body rest ih => simp [edit, visit, Function.withBody, ih]
  | case3 start path i name head body rest ihbody ih => simp [edit, visit, ihbody, ih]
  | case4 start path i head blocks rest ih => simp [edit, visit, ih]

theorem edit_edit (change other : Path → Block H → Block H) (path : Path) (i : Nat) (tree : Block H) :
    edit change path i (edit other path i tree) = edit (fun place body => change place (other place body)) path i tree := by
  fun_induction edit other path i tree with
  | case1 => rfl
  | case2 path i isAsync name head body rest ih => simp [edit, ih]
  | case3 path i name head body rest ihbody ih => simp [edit, ihbody, ih]
  | case4 path i head blocks rest ih => simp [edit, ih]

/-- An edit is what it does to the functions that are visited. -/
theorem edit_congr (start : String)
    (h : ∀ entry ∈ visit start path i tree, change entry.2.1 entry.2.2.body = other entry.2.1 entry.2.2.body) :
    edit change path i tree = edit other path i tree := by
  fun_induction visit start path i tree with
  | case1 => rfl
  | case2 start path i isAsync name head body rest ih =>
      have hfirst := h _ List.mem_cons_self
      simp only at hfirst
      simp only [edit, hfirst, ih fun entry hentry => h entry (List.mem_cons_of_mem _ hentry)]
  | case3 start path i name head body rest ihbody ih =>
      simp only [edit, ihbody fun entry hentry => h entry (List.mem_append_left _ hentry),
        ih fun entry hentry => h entry (List.mem_append_right _ hentry)]
  | case4 start path i head blocks rest ih => simp only [edit, ih h]

theorem edit_same (path : Path) (i : Nat) (tree : Block H) : edit (fun _ body => body) path i tree = tree := by
  fun_induction edit (fun _ body => body) path i tree with
  | case1 => rfl
  | case2 path i isAsync name head body rest ih => simp [ih]
  | case3 path i name head body rest ihbody ih => simp [ihbody, ih]
  | case4 path i head blocks rest ih => simp [ih]

/-- What is visited from one statement on is behind it. -/
theorem visit_behind {entry : String × Path × Function H} (h : entry ∈ visit start path i tree) :
    ∃ j more, i ≤ j ∧ entry.2.1 = path ++ j :: more := by
  fun_induction visit start path i tree with
  | case1 => cases h
  | case2 start path i isAsync name head body rest ih =>
      rcases List.mem_cons.mp h with rfl | hrest
      · exact ⟨i, [], le_refl i, rfl⟩
      · obtain ⟨j, more, hj, heq⟩ := ih hrest
        exact ⟨j, more, by omega, heq⟩
  | case3 start path i name head body rest ihbody ih =>
      rcases List.mem_append.mp h with hbody | hrest
      · obtain ⟨j, more, _, heq⟩ := ihbody hbody
        exact ⟨i, j :: more, le_refl i, by simp [heq]⟩
      · obtain ⟨j, more, hj, heq⟩ := ih hrest
        exact ⟨j, more, by omega, heq⟩
  | case4 start path i head blocks rest ih =>
      obtain ⟨j, more, hj, heq⟩ := ih h
      exact ⟨j, more, by omega, heq⟩

/-- No two functions are in one place. -/
theorem visit_places (start : String) (path : Path) (i : Nat) (tree : Block H) :
    ((visit start path i tree).map fun entry => entry.2.1).Nodup := by
  fun_induction visit start path i tree with
  | case1 => exact List.nodup_nil
  | case2 start path i isAsync name head body rest ih =>
      rw [List.map_cons, List.nodup_cons]
      refine ⟨?_, ih⟩
      rw [List.mem_map]
      rintro ⟨entry, hentry, heq⟩
      obtain ⟨j, more, hj, hplace⟩ := visit_behind hentry
      rw [heq] at hplace
      have hij : i = j := (List.cons.inj (List.append_cancel_left hplace)).1
      omega
  | case3 start path i name head body rest ihbody ih =>
      rw [List.map_append]
      refine List.Nodup.append ihbody ih ?_
      intro place hbody hrest
      obtain ⟨entry, hentry, rfl⟩ := List.mem_map.mp hbody
      obtain ⟨later, hlater, heq⟩ := List.mem_map.mp hrest
      obtain ⟨j, more, _, hplace⟩ := visit_behind hentry
      obtain ⟨k, others, hk, hbehind⟩ := visit_behind hlater
      rw [heq, hplace, List.append_assoc] at hbehind
      have hik : i = k := (List.cons.inj (List.append_cancel_left hbehind)).1
      omega
  | case4 start path i head blocks rest ih => exact ih

/-- What is visited in one place is one function. -/
theorem visited_once {entry later : String × Path × Function H} (hentry : entry ∈ visit start path i tree)
    (hlater : later ∈ visit start path i tree) (h : entry.2.1 = later.2.1) : entry = later :=
  List.inj_on_of_nodup_map (visit_places start path i tree) hentry hlater h

end Edits

/-! ### Names and places -/

section Names

omit [DecidableEq H]

variable {old new tree : Block H} {name : String} {place : Path} {node : Function H}

theorem setField_map {α β : Type} (f : α → β) (fields : List (String × α)) (key : String) (value : α) :
    setField (fields.map fun field => (field.1, f field.2)) key (f value) =
      (setField fields key value).map fun field => (field.1, f field.2) := by
  unfold setField
  simp only [List.any_map, Function.comp_def]
  split
  · simp only [List.map_map, Function.comp_def]
    apply List.map_congr_left
    intro field _
    by_cases h : field.1 = key
    · simp [h]
    · simp [h]
  · simp

theorem objectOf_map {α β : Type} (f : α → β) (pairs : List (String × α)) :
    objectOf (pairs.map fun pair => (pair.1, f pair.2)) = (objectOf pairs).map fun field => (field.1, f field.2) := by
  have hfold : ∀ fields : List (String × α),
      (pairs.map fun pair => (pair.1, f pair.2)).foldl (fun fields pair => setField fields pair.1 pair.2)
          (fields.map fun field => (field.1, f field.2)) =
        (pairs.foldl (fun fields pair => setField fields pair.1 pair.2) fields).map fun field => (field.1, f field.2) := by
    induction pairs with
    | nil => exact fun _ => rfl
    | cons pair pairs ih =>
        intro fields
        simp only [List.map_cons, List.foldl_cons, setField_map]
        exact ih (setField fields pair.1 pair.2)
  exact hfold []

/-- An edit leaves the names and the places, and changes the body of each node. -/
theorem functions_edit (change : Path → Block H → Block H) (tree : Block H) :
    functions (edit change [] 0 tree) =
      (functions tree).map fun entry => (entry.1, entry.2.1, entry.2.2.withBody (change entry.2.1)) := by
  unfold functions
  rw [visit_edit]
  exact objectOf_map (fun found : Path × Function H => (found.1, found.2.withBody (change found.1))) _

theorem places_edit (change : Path → Block H → Block H) (tree : Block H) : places (edit change [] 0 tree) = places tree := by
  simp [places, functions_edit]

theorem functions_visited {entry : String × Path × Function H} (h : entry ∈ functions tree) : entry ∈ visit "" [] 0 tree :=
  mem_objectOf h

theorem lookup_functions : (functions tree).lookup name = some (place, node) ↔ (name, place, node) ∈ functions tree :=
  ⟨mem_of_lookup, lookup_of_mem (objectOf_nodup _)⟩

theorem function_some (h : (name, place, node) ∈ functions tree) : function tree name = some node := by
  simp [function, lookup_functions.mpr h]

theorem function_iff : function tree name = some node ↔ ∃ place, (name, place, node) ∈ functions tree := by
  simp only [function, Option.map_eq_some_iff, Prod.exists, exists_eq_right, lookup_functions]

/-- The name whose last definition is in the place. -/
def nameAt (tree : Block H) (place : Path) : Option String :=
  ((functions tree).find? fun entry => entry.2.1 == place).map Prod.fst

theorem nameAt_some (h : nameAt tree place = some name) : ∃ node, (name, place, node) ∈ functions tree := by
  obtain ⟨⟨found, there, node⟩, hfind, rfl⟩ := Option.map_eq_some_iff.mp h
  have hplace : there = place := by simpa using List.find?_some hfind
  exact ⟨node, hplace ▸ List.mem_of_find?_eq_some hfind⟩

theorem nameAt_of_mem (h : (name, place, node) ∈ functions tree) : nameAt tree place = some name := by
  cases hname : nameAt tree place with
  | none =>
      have hnone := List.find?_eq_none.mp (Option.map_eq_none_iff.mp hname) _ h
      simp at hnone
  | some other =>
      obtain ⟨node', hmem⟩ := nameAt_some hname
      have hsame := visited_once (functions_visited h) (functions_visited hmem) rfl
      rw [(Prod.mk.inj hsame).1]

theorem mem_places : place ∈ places tree ↔ ∃ name, nameAt tree place = some name := by
  constructor
  · intro h
    obtain ⟨⟨name, there, node⟩, hmem, rfl⟩ := List.mem_map.mp h
    exact ⟨name, nameAt_of_mem hmem⟩
  · rintro ⟨name, hname⟩
    obtain ⟨node, hmem⟩ := nameAt_some hname
    exact List.mem_map.mpr ⟨_, hmem, rfl⟩

/-- The names and places of the nodes decide what name is at a place. -/
theorem nameAt_congr (h : (functions old).map (fun entry => (entry.1, entry.2.1)) =
    (functions new).map fun entry => (entry.1, entry.2.1)) (place : Path) : nameAt old place = nameAt new place := by
  have hpairs : ∀ tree : Block H, nameAt tree place =
      (((functions tree).map fun entry => (entry.1, entry.2.1)).find? fun pair => pair.2 == place).map Prod.fst := by
    intro tree
    simp [nameAt, List.find?_map, Function.comp_def]
  rw [hpairs, hpairs, h]

/-- The tree with the body of the last definition of each of the names replaced. -/
def replaceBodies (tree : Block H) (names : List String) (bodies : String → Block H) : Block H :=
  edit (fun place body =>
    match nameAt tree place with
    | some name => if name ∈ names then bodies name else body
    | none => body) [] 0 tree

/-- The new tree is the old one but for the bodies of the last definitions of the names, each of which differs. -/
def Replaced (old new : Block H) (names : List String) : Prop :=
  ∃ bodies : String → Block H, new = replaceBodies old names bodies ∧
    ∀ name ∈ names, ∃ node, function old name = some node ∧ node.body ≠ bodies name

/-- The definitions of a name, in their order. -/
def definitions (tree : Block H) (name : String) : List (Function H) :=
  ((visit "" [] 0 tree).filter fun entry => entry.1 = name).map fun entry => entry.2.2

end Names

section Exact

variable {pass} {old new : Block H} {names : List String} {bodies : String → Block H} {name : String} {place : Path}
  {node : Function H}

omit [DecidableEq H] in
/-- Where the skeletons are equal, so are names, places and all of the nodes but their bodies. -/
theorem skeleton_nodes (h : skeleton pass old = skeleton pass new) (hmem : (name, place, node) ∈ functions old) :
    ∃ other, (name, place, other) ∈ functions new ∧ node.withBody (fun _ => .nil) = other.withBody fun _ => .nil := by
  have hfunctions := congrArg functions h
  unfold skeleton at hfunctions
  rw [functions_edit, functions_edit] at hfunctions
  have hthere := List.mem_map_of_mem (f := fun entry : String × Path × Function H =>
    (entry.1, entry.2.1, entry.2.2.withBody ((fun place body => if place ∈ places old then passBody pass else body) entry.2.1))) hmem
  rw [hfunctions] at hthere
  obtain ⟨⟨name', place', other⟩, hother, heq⟩ := List.mem_map.mp hthere
  simp only [Prod.mk.injEq] at heq
  obtain ⟨rfl, rfl, hbody⟩ := heq
  refine ⟨other, hother, ?_⟩
  simpa [Function.withBody] using congrArg (Function.withBody · fun _ => .nil) hbody.symm

omit [DecidableEq H] in
theorem skeleton_names (h : skeleton pass old = skeleton pass new) :
    (functions old).map (fun entry => (entry.1, entry.2.1)) = (functions new).map fun entry => (entry.1, entry.2.1) := by
  have hfunctions := congrArg (fun tree => (functions tree).map fun entry => (entry.1, entry.2.1)) h
  simpa [skeleton, functions_edit, Function.comp_def] using hfunctions

omit [DecidableEq H] in
/-- Blanked bodies may be replaced as the others. -/
theorem edit_skeleton {change : Path → Block H → Block H}
    (h : ∀ place ∈ places old, ∀ body, change place body = change place (passBody pass)) :
    edit change [] 0 (skeleton pass old) = edit change [] 0 old := by
  unfold skeleton
  rw [edit_edit]
  apply edit_congr ""
  intro entry _
  split
  · rename_i hplace
    exact (h _ hplace _).symm
  · rfl

theorem changedBodies_some (h : changedBodies pass old new = some names) :
    skeleton pass old = skeleton pass new ∧ ∀ name, name ∈ names ↔
      (∃ place node, (name, place, node) ∈ functions old) ∧ function old name ≠ function new name := by
  unfold changedBodies at h
  simp only at h
  split at h
  · split at h
    · cases h
    · rename_i hskeleton
      cases h
      refine ⟨not_not.mp hskeleton, fun name => ?_⟩
      simp [List.mem_filter]
  · cases h

/-- What is answered are the names whose bodies were replaced. -/
theorem replaced_of_changed (h : changedBodies pass old new = some names) : Replaced old new names := by
  obtain ⟨hskeleton, hnames⟩ := changedBodies_some h
  have hat : ∀ place, nameAt old place = nameAt new place := nameAt_congr (skeleton_names hskeleton)
  let bodies : String → Block H := fun name => ((function new name).map (·.body)).getD .nil
  have hbodies : ∀ {name place node}, (name, place, node) ∈ functions new → bodies name = node.body := by
    intro name place node hmem
    simp [bodies, function_some hmem]
  -- every body of a last definition is put in its place, whether it differs or not
  let change : Path → Block H → Block H := fun place body =>
    match nameAt old place with
    | some name => bodies name
    | none => body
  have hnew : edit change [] 0 new = new := by
    refine Eq.trans (edit_congr "" ?_) (edit_same [] 0 new)
    rintro ⟨name, place, node⟩ hvisited
    show change place node.body = node.body
    simp only [change, hat]
    split
    · rename_i last hlast
      obtain ⟨other, hother⟩ := nameAt_some hlast
      have hsame := visited_once hvisited (functions_visited hother) rfl
      rw [hbodies hother, (Prod.mk.inj (Prod.mk.inj hsame).2).2]
    · rfl
  have hchange : ∀ tree : Block H, (∀ place, nameAt tree place = nameAt old place) →
      edit change [] 0 (skeleton pass tree) = edit change [] 0 tree := by
    intro tree htree
    apply edit_skeleton
    intro place hplace body
    obtain ⟨name, hname⟩ := mem_places.mp hplace
    rw [htree] at hname
    simp [change, hname]
  have hold : edit change [] 0 old = new := by
    rw [← hchange old fun _ => rfl, hskeleton, hchange new fun place => (hat place).symm, hnew]
  refine ⟨bodies, ?_, ?_⟩
  · rw [← hold]
    apply edit_congr ""
    rintro ⟨name, place, node⟩ hvisited
    show change place node.body = _
    simp only [change]
    split
    · rename_i last hlast
      split
      · rfl
      · rename_i hunchanged
        obtain ⟨first, hfirst⟩ := nameAt_some hlast
        have hsame := visited_once hvisited (functions_visited hfirst) rfl
        have heq : function old last = function new last := by
          by_contra hne
          exact hunchanged ((hnames last).mpr ⟨⟨place, first, hfirst⟩, hne⟩)
        rw [function_some hfirst] at heq
        simp only [bodies, ← heq, Option.map_some, Option.getD_some]
        rw [(Prod.mk.inj (Prod.mk.inj hsame).2).2]
    · rfl
  · intro name hname
    obtain ⟨⟨place, node, hmem⟩, hne⟩ := (hnames name).mp hname
    refine ⟨node, function_some hmem, fun heq => hne ?_⟩
    obtain ⟨other, hother, hrest⟩ := skeleton_nodes hskeleton hmem
    rw [function_some hmem, function_some hother, Option.some.injEq]
    rw [hbodies hother] at heq
    obtain ⟨isAsync, name', head, body⟩ := node
    obtain ⟨isAsync', name'', head', body'⟩ := other
    simp_all [Function.withBody]

/-- Where bodies of last definitions are replaced, their names are answered. -/
theorem changed_of_replaced (h : Replaced old new names) :
    ∃ changed, changedBodies pass old new = some changed ∧ ∀ name, name ∈ changed ↔ name ∈ names := by
  obtain ⟨bodies, rfl, hdiffer⟩ := h
  have hfunctions := functions_edit (fun place body =>
    match nameAt old place with
    | some name => if name ∈ names then bodies name else body
    | none => body) old
  have hkeys : (functions (replaceBodies old names bodies)).map Prod.fst = (functions old).map Prod.fst := by
    simp only [replaceBodies, hfunctions, List.map_map, Function.comp_def]
  have hfunction : ∀ {name place node}, (name, place, node) ∈ functions old →
      function (replaceBodies old names bodies) name =
        some (node.withBody fun body => if name ∈ names then bodies name else body) := by
    intro name place node hmem
    have hthere : (name, place, node.withBody fun body => if name ∈ names then bodies name else body) ∈
        functions (replaceBodies old names bodies) := by
      unfold replaceBodies
      rw [hfunctions]
      refine List.mem_map.mpr ⟨_, hmem, ?_⟩
      simp [nameAt_of_mem hmem]
    exact function_some hthere
  have hskeleton : skeleton pass old = skeleton pass (replaceBodies old names bodies) := by
    have hplaces : places (replaceBodies old names bodies) = places old := places_edit _ old
    unfold skeleton
    rw [hplaces, replaceBodies, edit_edit]
    apply edit_congr ""
    rintro ⟨name, place, node⟩ _
    dsimp only
    split
    · rfl
    · rename_i hplace
      cases hname : nameAt old place with
      | none => rfl
      | some last => exact absurd (mem_places.mpr ⟨last, hname⟩) hplace
  unfold changedBodies
  simp only [hkeys, List.Subset.refl, and_self, if_true, ← hskeleton, ne_eq, not_true_eq_false, if_false]
  refine ⟨_, rfl, fun name => ?_⟩
  rw [List.mem_filter]
  constructor
  · rintro ⟨hkey, hne⟩
    obtain ⟨⟨_, place, node⟩, hmem, rfl⟩ := List.mem_map.mp hkey
    by_contra hunchanged
    refine of_decide_eq_true hne ?_
    rw [function_some hmem, hfunction hmem]
    simp [hunchanged, Function.withBody]
  · intro hname
    obtain ⟨node, hnode, hbody⟩ := hdiffer name hname
    obtain ⟨place, hmem⟩ := function_iff.mp hnode
    refine ⟨List.mem_map.mpr ⟨_, hmem, rfl⟩, decide_eq_true fun heq => hbody ?_⟩
    rw [hnode, hfunction hmem, Option.some.injEq] at heq
    simpa [Function.withBody, hname] using congrArg Function.body heq

omit [DecidableEq H] in
/-- Only the names that were replaced have other definitions. -/
theorem definitions_of_replaced (h : Replaced old new names) (hname : definitions old name ≠ definitions new name) :
    name ∈ names := by
  by_contra hunchanged
  obtain ⟨bodies, rfl, -⟩ := h
  refine hname ?_
  unfold definitions replaceBodies
  rw [visit_edit, List.filter_map, List.map_map]
  apply List.map_congr_left
  rintro ⟨other, place, node⟩ hmem
  obtain ⟨hvisited, hother⟩ := List.mem_filter.mp hmem
  have hothername : other = name := by simpa using hother
  simp only [Function.comp_def]
  cases hlast : nameAt old place with
  | none => rfl
  | some last =>
      obtain ⟨found, hfound⟩ := nameAt_some hlast
      have hsame := visited_once hvisited (functions_visited hfound) rfl
      have hlastname : last = name := (Prod.mk.inj hsame).1.symm.trans hothername
      simp [hlastname, hunchanged, Function.withBody]

end Exact

/-- A set of symbols is answered if and only if the new tree is the old one but for the bodies of the last definitions
of these names, each of which differs; and no proof that is skipped declares a pattern for one of them. -/
theorem symbols_exact (path : String) (before after : Option (Block H)) :
    (∀ names, changedSymbols pass path before after = some names →
      ∃ old new, before = some old ∧ after = some new ∧ Replaced old new names) ∧
    (∀ old new names, ".py".toList <:+ path.toList → before = some old → after = some new → Replaced old new names →
      ∃ changed, changedSymbols pass path before after = some changed ∧ ∀ name, name ∈ changed ↔ name ∈ names) ∧
    ∀ step : VerificationStep, symbolImpact step path (changedSymbols pass path before after) = some false →
      ∃ old new, before = some old ∧ after = some new ∧
        ∀ entry ∈ step.impactSymbols, String.ofList (beforeColons entry.toList) = path →
          ∀ pattern, afterColons entry.toList = some pattern →
            ∀ name, definitions old name ≠ definitions new name → fnmatchcase name (String.ofList pattern) = false := by
  have hanswer : ∀ names, changedSymbols pass path before after = some names →
      ∃ old new, before = some old ∧ after = some new ∧ Replaced old new names := by
    intro names h
    unfold changedSymbols at h
    split at h
    · split at h
      · exact ⟨_, _, rfl, rfl, replaced_of_changed h⟩
      · cases h
    · cases h
  refine ⟨hanswer, ?_, ?_⟩
  · rintro old new names hpath rfl rfl hreplaced
    unfold changedSymbols
    rw [if_pos (List.isSuffixOf_iff_suffix.mpr hpath)]
    exact changed_of_replaced hreplaced
  · intro step hskipped
    cases hchanged : changedSymbols pass path before after with
    | none => simp [symbolImpact, hchanged] at hskipped
    | some names =>
        obtain ⟨old, new, hold, hnew, hreplaced⟩ := hanswer names hchanged
        refine ⟨old, new, hold, hnew, ?_⟩
        intro entry hentry hpath pattern hpattern name hdiffer
        have hname : name ∈ names := definitions_of_replaced hreplaced hdiffer
        have hdeclared : String.ofList pattern ∈ step.impactSymbols.filterMap fun entry =>
            if String.ofList (beforeColons entry.toList) = path then (afterColons entry.toList).map String.ofList else none :=
          List.mem_filterMap.mpr ⟨entry, hentry, by simp [hpath, hpattern]⟩
        simp only [symbolImpact, hchanged] at hskipped
        split at hskipped
        · cases hskipped
        · have hnone := Option.some.inj hskipped
          rw [List.any_eq_false] at hnone
          have hpatterns := hnone name hname
          rw [Bool.not_eq_true, List.any_eq_false] at hpatterns
          exact Bool.eq_false_iff.mpr (hpatterns _ hdeclared)

end AutoAgents.Verification.Symbols
