import AutoAgents.BaseJsonSort

/-! Equality of documents: as values, where it is decided along the structure, and as a dynamic language compares them,
where numbers are compared by their values and objects without the order of their fields. -/

namespace Base

variable {φ : Type}

/-! ### Equality of values -/

section Same

variable [DecidableEq φ]

mutual
def Json.same : Json φ → Json φ → Bool
  | .null, .null => true
  | .bool a, .bool b => a == b
  | .int a, .int b => a == b
  | .float a, .float b => a == b
  | .nonFinite a, .nonFinite b => a == b
  | .str a, .str b => a == b
  | .arr a, .arr b => sameItems a b
  | .obj a, .obj b => sameFields a b
  | _, _ => false

def sameItems : List (Json φ) → List (Json φ) → Bool
  | [], [] => true
  | v :: vs, w :: ws => v.same w && sameItems vs ws
  | _, _ => false

def sameFields : List (String × Json φ) → List (String × Json φ) → Bool
  | [], [] => true
  | (k, v) :: vs, (l, w) :: ws => k == l && v.same w && sameFields vs ws
  | _, _ => false
end

mutual
theorem Json.same_iff : ∀ v w : Json φ, v.same w = true ↔ v = w
  | .null, w => by cases w <;> simp [Json.same]
  | .bool _, w => by cases w <;> simp [Json.same]
  | .int _, w => by cases w <;> simp [Json.same]
  | .float _, w => by cases w <;> simp [Json.same]
  | .nonFinite _, w => by cases w <;> simp [Json.same]
  | .str _, w => by cases w <;> simp [Json.same]
  | .arr vs, w => by cases w <;> simp [Json.same, sameItems_iff vs]
  | .obj vs, w => by cases w <;> simp [Json.same, sameFields_iff vs]

theorem sameItems_iff : ∀ vs ws : List (Json φ), sameItems vs ws = true ↔ vs = ws
  | [], ws => by cases ws <;> simp [sameItems]
  | v :: vs, ws => by cases ws <;> simp [sameItems, Json.same_iff v, sameItems_iff vs]

theorem sameFields_iff : ∀ vs ws : List (String × Json φ), sameFields vs ws = true ↔ vs = ws
  | [], ws => by cases ws <;> simp [sameFields]
  | (k, v) :: vs, ws => by cases ws <;> simp [sameFields, Json.same_iff v, sameFields_iff vs, Prod.ext_iff]
end

instance : DecidableEq (Json φ) := fun v w => decidable_of_iff (v.same w = true) (v.same_iff w)

end Same

/-! ### Equality of meanings -/

variable (value : φ → ℚ)

mutual
/-- The document with every number, and every truth value, as the rational number that it is, and with the fields of
every object in the order of their names. -/
def Json.meaning : Json φ → Json ℚ
  | .null => .null
  | .bool b => .float (if b = true then 1 else 0)
  | .int n => .float n
  | .float x => .float (value x)
  | .nonFinite x => .nonFinite x
  | .str s => .str s
  | .arr items => .arr (meaningItems items)
  | .obj fields => .obj ((meaningFields fields).insertionSort byKey)

def meaningItems : List (Json φ) → List (Json ℚ)
  | [] => []
  | v :: rest => v.meaning :: meaningItems rest

def meaningFields : List (String × Json φ) → List (String × Json ℚ)
  | [] => []
  | (k, v) :: rest => (k, v.meaning) :: meaningFields rest
end

/-- The documents compare as equal, or are both the one that is not equal to itself. -/
def Json.Equal (v w : Json φ) : Prop := v.meaning value = w.meaning value

instance (v w : Json φ) : Decidable (v.Equal value w) := inferInstanceAs (Decidable (v.meaning value = w.meaning value))

variable {value}

theorem Json.Equal.refl (v : Json φ) : v.Equal value v := Eq.refl _

theorem Json.Equal.symm {v w : Json φ} (h : v.Equal value w) : w.Equal value v := Eq.symm h

theorem Json.Equal.trans {u v w : Json φ} (h : u.Equal value v) (h' : v.Equal value w) : u.Equal value w := Eq.trans h h'

end Base
