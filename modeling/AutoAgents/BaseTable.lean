import Mathlib

/-! Tables with a primary key, as a relational store keeps them. A table carries the proof that no two
of its rows share a key, so an insertion is a partial operation and a lookup names one row. The totals
over a table (a sum, a count) change by the one row that was touched. -/

namespace Base

variable {ρ κ : Type}

/-- The rows of a table, oldest first, no two with the same key. -/
structure Table (key : ρ → κ) where
  rows : List ρ
  nodup : (rows.map key).Nodup

namespace Table

variable {key : ρ → κ}

def empty : Table key := ⟨[], List.nodup_nil⟩

/-- `UPDATE` of every row, by a function that keeps the key. -/
def map (t : Table key) (f : ρ → ρ) (hf : ∀ r, key (f r) = key r) : Table key where
  rows := t.rows.map f
  nodup := by
    have hkeys : (t.rows.map f).map key = t.rows.map key := by
      simp only [List.map_map, Function.comp_def, hf]
    rw [hkeys]
    exact t.nodup

/-- `DELETE` of the rows that do not satisfy a test. -/
def filter (t : Table key) (p : ρ → Bool) : Table key where
  rows := t.rows.filter p
  nodup := t.nodup.sublist (List.filter_sublist.map key)

theorem mem_filter {t : Table key} {p : ρ → Bool} {r : ρ} :
    r ∈ (t.filter p).rows ↔ r ∈ t.rows ∧ p r = true := List.mem_filter

@[simp] theorem rows_map {t : Table key} {f : ρ → ρ} {hf : ∀ r, key (f r) = key r} :
    (t.map f hf).rows = t.rows.map f := rfl

theorem ext_rows {t t' : Table key} (h : t.rows = t'.rows) : t = t' := by
  cases t
  cases t'
  cases h
  rfl

theorem eq_of_key_eq {t : Table key} {r s : ρ} (hr : r ∈ t.rows) (hs : s ∈ t.rows)
    (h : key r = key s) : r = s :=
  List.inj_on_of_nodup_map t.nodup hr hs h

/-- The sum of a quantity over the rows. -/
def total (t : Table key) (g : ρ → Nat) : Nat := (t.rows.map g).sum

/-! ### Growth

A transaction changes the rows that are there, each in a way `M` allows, and appends rows of kind `N`. -/

/-- Every old row has moved by `M`, and every other row is new and satisfies `N`. -/
def Grown (N : ρ → Prop) (M : ρ → ρ → Prop) (t t' : Table key) : Prop :=
  ∃ f news, t'.rows = t.rows.map f ++ news ∧ (∀ r ∈ t.rows, M r (f r) ∧ key (f r) = key r) ∧
    ∀ r ∈ news, N r

variable {N : ρ → Prop} {M : ρ → ρ → Prop} {t t' t'' : Table key}

theorem Grown.refl (hM : ∀ r, M r r) (t : Table key) : Grown N M t t :=
  ⟨id, [], by simp, fun r _ => ⟨hM r, rfl⟩, fun _ h => absurd h List.not_mem_nil⟩

theorem Grown.comp {M' M'' : ρ → ρ → Prop} (hM : ∀ a b c, M a b → M' b c → M'' a c)
    (hN : ∀ a b, N a → M' a b → N b) (h : Grown N M t t') (h' : Grown N M' t' t'') :
    Grown N M'' t t'' := by
  obtain ⟨f, news, hrows, hf, hnews⟩ := h
  obtain ⟨f', news', hrows', hf', hnews'⟩ := h'
  refine ⟨f' ∘ f, news.map f' ++ news', ?_, ?_, ?_⟩
  · rw [hrows', hrows, List.map_append, List.map_map, List.append_assoc]
  · intro r hr
    have hmem : f r ∈ t'.rows := by
      rw [hrows]
      exact List.mem_append_left _ (List.mem_map_of_mem hr)
    obtain ⟨hmove, hkey⟩ := hf r hr
    obtain ⟨hmove', hkey'⟩ := hf' (f r) hmem
    exact ⟨hM _ _ _ hmove hmove', hkey'.trans hkey⟩
  · intro r hr
    rcases List.mem_append.mp hr with hold | hnew
    · obtain ⟨s, hs, rfl⟩ := List.mem_map.mp hold
      have hmem : s ∈ t'.rows := by
        rw [hrows]
        exact List.mem_append_right _ hs
      exact hN _ _ (hnews s hs) (hf' s hmem).1
    · exact hnews' r hnew

theorem Grown.trans (hM : ∀ a b c, M a b → M b c → M a c) (hN : ∀ a b, N a → M a b → N b)
    (h : Grown N M t t') (h' : Grown N M t' t'') : Grown N M t t'' := Grown.comp hM hN h h'

theorem Grown.mono_of_mem {N' : ρ → Prop} {M' : ρ → ρ → Prop} (hN : ∀ r, N r → N' r)
    (hM : ∀ r ∈ t.rows, ∀ s, M r s → M' r s) (h : Grown N M t t') : Grown N' M' t t' := by
  obtain ⟨f, news, hrows, hf, hnews⟩ := h
  exact ⟨f, news, hrows, fun r hr => ⟨hM r hr _ (hf r hr).1, (hf r hr).2⟩, fun r hr => hN r (hnews r hr)⟩

theorem Grown.mono {N' : ρ → Prop} {M' : ρ → ρ → Prop} (hN : ∀ r, N r → N' r)
    (hM : ∀ r s, M r s → M' r s) (h : Grown N M t t') : Grown N' M' t t' :=
  h.mono_of_mem hN fun r _ => hM r

theorem Grown.map {f : ρ → ρ} (hf : ∀ r, key (f r) = key r) (h : ∀ r ∈ t.rows, M r (f r)) :
    Grown N M t (t.map f hf) :=
  ⟨f, [], by simp, fun r hr => ⟨h r hr, hf r⟩, fun _ hr => absurd hr List.not_mem_nil⟩

theorem Grown.mem {r' : ρ} (h : Grown N M t t') (hr' : r' ∈ t'.rows) :
    (∃ r ∈ t.rows, key r = key r' ∧ M r r') ∨ N r' := by
  obtain ⟨f, news, hrows, hf, hnews⟩ := h
  rw [hrows] at hr'
  rcases List.mem_append.mp hr' with hold | hnew
  · obtain ⟨r, hr, rfl⟩ := List.mem_map.mp hold
    exact Or.inl ⟨r, hr, (hf r hr).2.symm, (hf r hr).1⟩
  · exact Or.inr (hnews r' hnew)

/-- A quantity that no old row loses has no smaller total. -/
theorem Grown.total_le {g : ρ → Nat} (h : Grown N M t t') (hM : ∀ r ∈ t.rows, ∀ s, M r s → g r ≤ g s) :
    t.total g ≤ t'.total g := by
  obtain ⟨f, news, hrows, hf, -⟩ := h
  have hold : (t.rows.map g).sum ≤ ((t.rows.map f).map g).sum := by
    rw [List.map_map]
    exact List.sum_le_sum fun r hr => hM r hr (f r) (hf r hr).1
  simp only [total, hrows, List.map_append, List.sum_append]
  omega

/-- A quantity that no old row changes and that is zero on new rows keeps its total. -/
theorem Grown.total {g : ρ → Nat} (h : Grown N M t t') (hM : ∀ r s, M r s → g s = g r)
    (hN : ∀ r, N r → g r = 0) : t'.total g = t.total g := by
  obtain ⟨f, news, hrows, hf, hnews⟩ := h
  have hold : (t.rows.map f).map g = t.rows.map g := by
    rw [List.map_map]
    exact List.map_congr_left fun r hr => hM _ _ (hf r hr).1
  have hnew : (news.map g).sum = 0 := by
    refine List.sum_eq_zero fun x hx => ?_
    obtain ⟨r, hr, rfl⟩ := List.mem_map.mp hx
    exact hN r (hnews r hr)
  simp only [Table.total, hrows, List.map_append, List.sum_append, hold, hnew, Nat.add_zero]

/-! ### Lookup and insertion -/

variable [DecidableEq κ]

/-- The row with this key. -/
def find (t : Table key) (k : κ) : Option ρ := t.rows.find? fun r => key r = k

/-- Add a row whose key is not taken. -/
def insert (t : Table key) (r : ρ) (h : t.find (key r) = none) : Table key where
  rows := t.rows ++ [r]
  nodup := by
    rw [List.map_append, List.nodup_append]
    refine ⟨t.nodup, List.nodup_singleton _, ?_⟩
    rintro a ha b hb rfl
    obtain ⟨r', hr', hkey⟩ := List.mem_map.mp ha
    have hb : a = key r := List.mem_singleton.mp hb
    have hnone := List.find?_eq_none.mp h r' hr'
    simp only [hkey, hb, decide_true, not_true_eq_false] at hnone

/-- `INSERT`: fails on a key that is already there. -/
def insert? (t : Table key) (r : ρ) : Option (Table key) :=
  if h : t.find (key r) = none then some (t.insert r h) else none

/-- `INSERT OR IGNORE`. -/
def insertOrIgnore (t : Table key) (r : ρ) : Table key :=
  if h : t.find (key r) = none then t.insert r h else t

/-- `UPDATE .. WHERE key = k`. -/
def modify (t : Table key) (k : κ) (f : ρ → ρ) (hf : ∀ r, key (f r) = key r) : Table key :=
  t.map (fun r => if key r = k then f r else r) fun r => by split <;> simp only [hf]

/-- `INSERT OR REPLACE`. -/
def insertOrReplace (t : Table key) (r : ρ) : Table key :=
  (t.map (fun s => if key s = key r then r else s) fun s => by
    split
    · next h => exact h.symm
    · rfl).insertOrIgnore r

theorem find_some {t : Table key} {k : κ} {r : ρ} (h : t.find k = some r) :
    r ∈ t.rows ∧ key r = k :=
  ⟨List.mem_of_find?_eq_some h, of_decide_eq_true (List.find?_some (p := fun r => key r = k) h)⟩

theorem find_key {t : Table key} {k : κ} {r : ρ} (h : t.find k = some r) : key r = k :=
  (find_some h).2

theorem find_eq_none {t : Table key} {k : κ} : t.find k = none ↔ ∀ r ∈ t.rows, key r ≠ k := by
  simp only [find, List.find?_eq_none, decide_eq_true_eq, ne_eq]

theorem find_of_mem {t : Table key} {r : ρ} (h : r ∈ t.rows) : t.find (key r) = some r := by
  cases hfind : t.find (key r) with
  | none => exact absurd rfl (find_eq_none.mp hfind r h)
  | some s =>
      obtain ⟨hs, hkey⟩ := find_some hfind
      rw [eq_of_key_eq hs h hkey]

theorem find_eq_some {t : Table key} {k : κ} {r : ρ} :
    t.find k = some r ↔ r ∈ t.rows ∧ key r = k := by
  constructor
  · exact find_some
  · rintro ⟨hr, rfl⟩
    exact find_of_mem hr

@[simp] theorem rows_insert {t : Table key} {r : ρ} {h : t.find (key r) = none} :
    (t.insert r h).rows = t.rows ++ [r] := rfl

theorem rows_modify {t : Table key} {k : κ} {f : ρ → ρ} {hf : ∀ r, key (f r) = key r} :
    (t.modify k f hf).rows = t.rows.map fun r => if key r = k then f r else r := rfl

theorem find_insert (t : Table key) (r : ρ) (h : t.find (key r) = none) (k : κ) :
    (t.insert r h).find k = if key r = k then some r else t.find k := by
  split
  · next heq => exact find_eq_some.mpr ⟨by simp, heq⟩
  · next hne =>
      simp only [find, rows_insert, List.find?_append, List.find?_cons, hne, decide_false,
        List.find?_nil, Option.or_none]

theorem modify_insert (t : Table key) (r : ρ) (h : t.find (key r) = none) (f : ρ → ρ)
    (hf : ∀ r, key (f r) = key r) :
    (t.insert r h).modify (key r) f hf = t.insert (f r) ((hf r).symm ▸ h) := by
  have hold : t.rows.map (fun s => if key s = key r then f s else s) = t.rows := by
    conv_rhs => rw [← List.map_id t.rows]
    refine List.map_congr_left fun s hs => ?_
    exact if_neg (List.find?_eq_none.mp h s hs ∘ decide_eq_true)
  have hrows : ((t.insert r h).modify (key r) f hf).rows = t.rows ++ [f r] := by
    rw [rows_modify, rows_insert, List.map_append, hold, List.map_singleton, if_pos rfl]
  exact ext_rows hrows

theorem find_insert_self (t : Table key) (r : ρ) (h : t.find (key r) = none) :
    (t.insert r h).find (key r) = some r := by
  rw [find_insert, if_pos rfl]

theorem find_insertOrIgnore (t : Table key) (r : ρ) (k : κ) :
    (t.insertOrIgnore r).find k =
      if key r = k then some ((t.find k).getD r) else t.find k := by
  unfold insertOrIgnore
  split
  · next h =>
      rw [find_insert]
      split
      · next heq => rw [← heq, h, Option.getD_none]
      · rfl
  · next h =>
      obtain ⟨s, hs⟩ := Option.ne_none_iff_exists'.mp h
      split
      · next heq => rw [← heq, hs, Option.getD_some]
      · rfl

theorem find_map (t : Table key) (f : ρ → ρ) (hf : ∀ r, key (f r) = key r) (k : κ) :
    (t.map f hf).find k = (t.find k).map f := by
  simp only [find, rows_map, List.find?_map, Function.comp_def, hf]

theorem find_modify (t : Table key) (k : κ) (f : ρ → ρ) (hf : ∀ r, key (f r) = key r) (k' : κ) :
    (t.modify k f hf).find k' = if k' = k then (t.find k').map f else t.find k' := by
  rw [modify, find_map]
  cases hfind : t.find k' with
  | none => simp only [Option.map_none, ite_self]
  | some r =>
      have hkey := find_key hfind
      simp only [Option.map_some, hkey]
      split <;> rfl

theorem find_modify_self (t : Table key) (k : κ) (f : ρ → ρ) (hf : ∀ r, key (f r) = key r) :
    (t.modify k f hf).find k = (t.find k).map f := by
  rw [find_modify, if_pos rfl]

theorem find_modify_ne (t : Table key) {k k' : κ} (f : ρ → ρ) (hf : ∀ r, key (f r) = key r)
    (h : k' ≠ k) : (t.modify k f hf).find k' = t.find k' := by
  rw [find_modify, if_neg h]

theorem find_filter_some {t : Table key} {p : ρ → Bool} {k : κ} {r : ρ} (h : (t.filter p).find k = some r) :
    t.find k = some r ∧ p r = true := by
  obtain ⟨hmem, hkey⟩ := find_some h
  obtain ⟨hr, hp⟩ := mem_filter.mp hmem
  exact ⟨find_eq_some.mpr ⟨hr, hkey⟩, hp⟩

theorem mem_rows_modify {t : Table key} {k : κ} {f : ρ → ρ} (hf : ∀ r, key (f r) = key r) {s : ρ} :
    s ∈ (t.modify k f hf).rows ↔
      (∃ r, t.find k = some r ∧ s = f r) ∨ (s ∈ t.rows ∧ key s ≠ k) := by
  rw [rows_modify, List.mem_map]
  constructor
  · rintro ⟨r, hr, rfl⟩
    by_cases hk : key r = k
    · exact Or.inl ⟨r, find_eq_some.mpr ⟨hr, hk⟩, if_pos hk⟩
    · exact Or.inr ⟨by rw [if_neg hk]; exact hr, by rw [if_neg hk]; exact hk⟩
  · rintro (⟨r, hr, rfl⟩ | ⟨hs, hk⟩)
    · exact ⟨r, (find_some hr).1, if_pos (find_some hr).2⟩
    · exact ⟨s, hs, if_neg hk⟩

theorem insert?_eq_some {t t' : Table key} {r : ρ} :
    t.insert? r = some t' ↔ ∃ h : t.find (key r) = none, t' = t.insert r h := by
  unfold insert?
  split
  · next h => exact ⟨fun heq => ⟨h, (Option.some.inj heq).symm⟩, fun ⟨_, heq⟩ => by rw [heq]⟩
  · next h => exact ⟨fun heq => absurd heq (by simp), fun ⟨h', _⟩ => absurd h' h⟩

theorem mem_insertOrIgnore {t : Table key} {r s : ρ} :
    s ∈ (t.insertOrIgnore r).rows ↔ s ∈ t.rows ∨ (s = r ∧ t.find (key r) = none) := by
  unfold insertOrIgnore
  split
  · next h => simp only [rows_insert, List.mem_append, List.mem_singleton, h, and_true]
  · next h => simp only [h, and_false, or_false]

theorem mem_insertOrReplace {t : Table key} {r s : ρ} :
    s ∈ (t.insertOrReplace r).rows ↔ s = r ∨ (s ∈ t.rows ∧ key s ≠ key r) := by
  rw [insertOrReplace, mem_insertOrIgnore, rows_map, List.mem_map]
  constructor
  · rintro (⟨old, hold, rfl⟩ | ⟨rfl, -⟩)
    · by_cases hk : key old = key r
      · rw [if_pos hk]
        exact Or.inl rfl
      · rw [if_neg hk]
        exact Or.inr ⟨hold, hk⟩
    · exact Or.inl rfl
  · rintro (rfl | ⟨hs, hk⟩)
    · cases hfind : t.find (key s) with
      | none =>
          refine Or.inr ⟨rfl, ?_⟩
          rw [find_map, hfind, Option.map_none]
      | some old =>
          obtain ⟨hold, hk⟩ := find_some hfind
          exact Or.inl ⟨old, hold, if_pos hk⟩
    · exact Or.inl ⟨s, hs, if_neg hk⟩

/-! ### Totals -/

theorem total_insert (t : Table key) (r : ρ) (h : t.find (key r) = none) (g : ρ → Nat) :
    (t.insert r h).total g = t.total g + g r := by
  simp only [total, rows_insert, List.map_append, List.sum_append, List.map_cons, List.map_nil,
    List.sum_cons, List.sum_nil, Nat.add_zero]

private theorem sum_modify {rows : List ρ} {k : κ} {f : ρ → ρ} {g : ρ → Nat} {r : ρ}
    (hnodup : (rows.map key).Nodup) (hr : r ∈ rows) (hkey : key r = k) :
    (rows.map fun s => g (if key s = k then f s else s)).sum + g r = (rows.map g).sum + g (f r) := by
  induction rows with
  | nil => cases hr
  | cons s rows ih =>
      simp only [List.map_cons, List.sum_cons]
      obtain ⟨hs, hrest⟩ := List.nodup_cons.mp hnodup
      rcases List.mem_cons.mp hr with rfl | hmem
      · have hothers : (rows.map fun s => g (if key s = k then f s else s)) = rows.map g := by
          refine List.map_congr_left fun x hx => ?_
          rw [if_neg]
          intro hx'
          exact hs (List.mem_map.mpr ⟨x, hx, hx'.trans hkey.symm⟩)
        rw [hothers, if_pos hkey]
        omega
      · have hne : key s ≠ k := by
          intro hs'
          exact hs (List.mem_map.mpr ⟨r, hmem, hkey.trans hs'.symm⟩)
        have := ih hrest hmem
        rw [if_neg hne]
        omega

/-- An update of one row changes a total by that row alone. -/
theorem total_modify (t : Table key) {k : κ} (f : ρ → ρ) (hf : ∀ r, key (f r) = key r)
    (g : ρ → Nat) {r : ρ} (h : t.find k = some r) :
    (t.modify k f hf).total g + g r = t.total g + g (f r) := by
  obtain ⟨hr, hkey⟩ := find_some h
  simp only [total, rows_modify, List.map_map, Function.comp_def]
  exact sum_modify t.nodup hr hkey

theorem Grown.insert (N : ρ → Prop) {r : ρ} (hM : ∀ r, M r r) (hr : N r) (h : t.find (key r) = none) :
    Grown N M t (t.insert r h) :=
  ⟨id, [r], by simp, fun s _ => ⟨hM s, rfl⟩, fun s hs => List.mem_singleton.mp hs ▸ hr⟩

theorem Grown.insertOrIgnore (N : ρ → Prop) {r : ρ} (hM : ∀ r, M r r) (hr : N r) :
    Grown N M t (t.insertOrIgnore r) := by
  unfold Table.insertOrIgnore
  split
  · next h => exact Grown.insert N hM hr h
  · exact Grown.refl hM t

theorem Grown.modify (k : κ) {f : ρ → ρ} (hf : ∀ r, key (f r) = key r) (hM : ∀ r, M r r)
    (h : ∀ r, t.find k = some r → M r (f r)) : Grown N M t (t.modify k f hf) := by
  refine Grown.map _ fun r hr => ?_
  split
  · next hk => exact h r (find_eq_some.mpr ⟨hr, hk⟩)
  · exact hM r

/-- A row is added, and another one that was there is updated. -/
theorem Grown.insert_modify {k : κ} {r s : ρ} {f : ρ → ρ} (hf : ∀ r, key (f r) = key r) (hM : ∀ r, M r r)
    (hr : N r) (h : t.find (key r) = none) (hs : t.find k = some s) (hmove : M s (f s)) :
    Grown N M t ((t.insert r h).modify k f hf) := by
  have hne : key r ≠ k := by
    rintro rfl
    rw [h] at hs
    cases hs
  refine ⟨fun s => if key s = k then f s else s, [r], ?_, fun s' hs' => ?_, fun s' hs' => ?_⟩
  · rw [rows_modify, rows_insert, List.map_append, List.map_singleton, if_neg hne]
  · by_cases hk : key s' = k
    · obtain rfl := Option.some.inj (hs.symm.trans (find_eq_some.mpr ⟨hs', hk⟩))
      simp only [if_pos hk]
      exact ⟨hmove, hf s⟩
    · simp only [if_neg hk]
      exact ⟨hM s', trivial⟩
  · rw [List.mem_singleton.mp hs']
    exact hr

theorem Grown.find {k : κ} {r : ρ} (h : Grown N M t t') (hr : t.find k = some r) :
    ∃ r', t'.find k = some r' ∧ M r r' := by
  obtain ⟨f, news, hrows, hf, -⟩ := h
  obtain ⟨hmem, hk⟩ := find_some hr
  refine ⟨f r, find_eq_some.mpr ⟨?_, (hf r hmem).2.trans hk⟩, (hf r hmem).1⟩
  rw [hrows]
  exact List.mem_append_left _ (List.mem_map_of_mem hmem)

/-- Every row is an old one that moved, or new under a key that was free. -/
theorem Grown.mem_fresh {r' : ρ} (h : Grown N M t t') (hr' : r' ∈ t'.rows) :
    (∃ r ∈ t.rows, key r = key r' ∧ M r r') ∨ (N r' ∧ t.find (key r') = none) := by
  cases hfind : t.find (key r') with
  | none =>
      rcases h.mem hr' with ⟨r, hr, hkey, -⟩ | hN
      · exact absurd hkey (find_eq_none.mp hfind r hr)
      · exact Or.inr ⟨hN, rfl⟩
  | some r =>
      obtain ⟨s, hs, hM⟩ := h.find hfind
      obtain ⟨hr, hkey⟩ := find_some hfind
      obtain rfl := eq_of_key_eq (find_some hs).1 hr' (find_some hs).2
      exact Or.inl ⟨r, hr, hkey, hM⟩

end Table
end Base
