import AutoAgents.BaseJsonAscii
import AutoAgents.VerificationSteps

/-! Shards of test files by a hash of their names, the verification steps that the shards make, and when another
test file leaves the other shards as they are. -/

namespace AutoAgents.Verification.Sharding

open Base

/-! ### Buckets -/

section Buckets

variable {α : Type} (index : α → Nat)

/-- Every item is appended to the bucket of its index. -/
def distribute (items : List α) (buckets : List (List α)) : List (List α) :=
  items.foldl (fun buckets item => buckets.modify (index item) (· ++ [item])) buckets

theorem distribute_eq (items : List α) (buckets : List (List α)) :
    distribute index items buckets = buckets.mapIdx fun i bucket => bucket ++ items.filter fun item => index item = i := by
  induction items generalizing buckets with
  | nil =>
      apply List.ext_getElem <;> simp [distribute]
  | cons item items ih =>
      show distribute index items (buckets.modify (index item) (· ++ [item])) = _
      rw [ih]
      apply List.ext_getElem
      · simp
      · intro i hi hi'
        simp only [List.getElem_mapIdx, List.getElem_modify, List.filter_cons]
        by_cases h : index item = i
        · simp [h]
        · simp [h]

theorem distribute_replicate (items : List α) (count : Nat) :
    distribute index items (List.replicate count []) =
      (List.range count).map fun i => items.filter fun item => index item = i := by
  rw [distribute_eq]
  apply List.ext_getElem
  · simp
  · intro i hi hi'
    simp

end Buckets

/-! ### Shards -/

variable (sha256 : List Char → List (Fin 256))

/-- `int.from_bytes(digest, "big")` -/
def fromBytes (digest : List (Fin 256)) : Nat := digest.foldl (fun n byte => 256 * n + byte.val) 0

/-- `int.from_bytes(hashlib.sha256(target.encode("utf-8")).digest()[:8], "big")` -/
def hashed (target : String) : Nat := fromBytes ((sha256 target.toList).take 8)

/-- `sorted(set(targets))` -/
def uniqueTargets (targets : List String) : List String := targets.dedup.insertionSort (· ≤ ·)

/-- `min(len(unique_targets), max(1, int(max_shards)))` -/
def shardCount (files : Nat) (maxShards : Int) : Nat := min files (max 1 maxShards).toNat

/-- `_stable_target_shards` -/
def stableTargetShards (targets : List String) (maxShards : Int) : List (List String) :=
  let unique := uniqueTargets targets
  let count := shardCount unique.length maxShards
  let shards := distribute (fun target => hashed sha256 target % count) unique (List.replicate count [])
  (shards.filter (· ≠ [])).map fun shard => shard.insertionSort (· ≤ ·)

/-! ### Steps -/

def hexdigest (digest : List (Fin 256)) : List Char :=
  digest.flatMap fun byte => [hexDigit (byte.val / 16), hexDigit (byte.val % 16)]

/-- `json.dumps(texts)` -/
def dumpsTexts (texts : List String) : List Char :=
  '[' :: [',', ' '].intercalate (texts.map fun text => ensureAscii (encodeString text.toList)) ++ [']']

/-- `json.dumps({"targets": sorted(targets), "args": list(args)}, sort_keys=True)` -/
def dumpsShard (targets args : List String) : List Char :=
  "\x7b\"args\": ".toList ++ dumpsTexts args ++ ", \"targets\": ".toList ++
    dumpsTexts (targets.insertionSort (· ≤ ·)) ++ ['\x7d']

def suffix (targets args : List String) : List Char := (hexdigest (sha256 (dumpsShard targets args))).take 10

/-- `_expanded_proof_step` -/
def expandedProofStep (step : VerificationStep) (targets args : List String) : VerificationStep :=
  { step with
    proofId :=
      if step.proofId ≠ "" ∧ (targets ≠ step.targets ∨ args ≠ step.args) then
        step.proofId ++ ".shard-" ++ String.ofList (suffix sha256 targets args)
      else step.proofId
    targets, args }

/-! ### What the shards are -/

section Shards

variable {sha256} {targets others : List String} {maxShards : Int} {shard : List String} {a b : String}

theorem mem_uniqueTargets : a ∈ uniqueTargets targets ↔ a ∈ targets := by simp [uniqueTargets]

theorem length_uniqueTargets : (uniqueTargets targets).length = targets.dedup.length := by
  simp [uniqueTargets, List.length_insertionSort]

theorem uniqueTargets_nodup : (uniqueTargets targets).Nodup :=
  (List.perm_insertionSort (· ≤ ·) targets.dedup).nodup_iff.mpr targets.nodup_dedup

theorem uniqueTargets_sorted : (uniqueTargets targets).Pairwise (· ≤ ·) := List.pairwise_insertionSort (· ≤ ·) targets.dedup

/-- Selections of the same targets are the same list. -/
theorem filter_uniqueTargets {p q : String → Bool} (h : ∀ t, (t ∈ targets ∧ p t = true) ↔ (t ∈ others ∧ q t = true)) :
    (uniqueTargets targets).filter p = (uniqueTargets others).filter q := by
  have hperm : ((uniqueTargets targets).filter p).Perm ((uniqueTargets others).filter q) := by
    apply (List.perm_ext_iff_of_nodup (uniqueTargets_nodup.filter p) (uniqueTargets_nodup.filter q)).mpr
    intro t
    simp only [List.mem_filter, mem_uniqueTargets]
    exact h t
  exact hperm.eq_of_pairwise (fun x y _ _ => le_antisymm) (uniqueTargets_sorted.filter p) (uniqueTargets_sorted.filter q)

/-- Two targets are hashed to one of so many shards. -/
def Together (sha256 : List Char → List (Fin 256)) (count : Nat) (a b : String) : Prop :=
  hashed sha256 a % count = hashed sha256 b % count

instance (count : Nat) (a b : String) : Decidable (Together sha256 count a b) :=
  inferInstanceAs (Decidable (_ = _))

/-- The targets that are hashed to the shard of one of them. -/
def shardOf (sha256 : List Char → List (Fin 256)) (targets : List String) (count : Nat) (a : String) : List String :=
  (uniqueTargets targets).filter fun t => Together sha256 count t a

theorem mem_shardOf {count : Nat} : b ∈ shardOf sha256 targets count a ↔ b ∈ targets ∧ Together sha256 count b a := by
  simp [shardOf, mem_uniqueTargets]

theorem shardCount_pos (h : a ∈ targets) : 0 < shardCount targets.dedup.length maxShards := by
  have hpos : 0 < targets.dedup.length := List.length_pos_of_mem (List.mem_dedup.mpr h)
  unfold shardCount
  omega

theorem mem_stableTargetShards :
    shard ∈ stableTargetShards sha256 targets maxShards ↔
      ∃ a ∈ targets, shard = shardOf sha256 targets (shardCount targets.dedup.length maxShards) a := by
  have hsorted : ∀ p : String → Bool,
      ((uniqueTargets targets).filter p).insertionSort (· ≤ ·) = (uniqueTargets targets).filter p := fun p =>
    (uniqueTargets_sorted.filter p).insertionSort_eq
  simp only [stableTargetShards, length_uniqueTargets, distribute_replicate, List.mem_map, List.mem_filter,
    List.mem_range]
  constructor
  · rintro ⟨_, ⟨⟨i, hi, rfl⟩, hne⟩, rfl⟩
    obtain ⟨a, ha⟩ := List.exists_mem_of_ne_nil _ (of_decide_eq_true hne)
    obtain ⟨hmem, hindex⟩ := List.mem_filter.mp ha
    refine ⟨a, mem_uniqueTargets.mp hmem, ?_⟩
    rw [hsorted]
    apply List.filter_congr
    intro t _
    simp only [Together, of_decide_eq_true hindex]
  · rintro ⟨a, ha, rfl⟩
    have hself : a ∈ shardOf sha256 targets (shardCount targets.dedup.length maxShards) a := mem_shardOf.mpr ⟨ha, rfl⟩
    refine ⟨_, ⟨⟨hashed sha256 a % shardCount targets.dedup.length maxShards, Nat.mod_lt _ (shardCount_pos ha), rfl⟩, ?_⟩,
      hsorted _⟩
    exact decide_eq_true (List.ne_nil_of_mem hself)

/-- One shard has both. -/
def Share (shards : List (List String)) (a b : String) : Prop := ∃ shard ∈ shards, a ∈ shard ∧ b ∈ shard

theorem share_iff : Share (stableTargetShards sha256 targets maxShards) a b ↔
    a ∈ targets ∧ b ∈ targets ∧ Together sha256 (shardCount targets.dedup.length maxShards) a b := by
  constructor
  · rintro ⟨shard, hshard, ha, hb⟩
    obtain ⟨c, _, rfl⟩ := mem_stableTargetShards.mp hshard
    obtain ⟨hta, hca⟩ := mem_shardOf.mp ha
    obtain ⟨htb, hcb⟩ := mem_shardOf.mp hb
    exact ⟨hta, htb, hca.trans hcb.symm⟩
  · rintro ⟨ha, hb, htogether⟩
    exact ⟨_, mem_stableTargetShards.mpr ⟨a, ha, rfl⟩, mem_shardOf.mpr ⟨ha, rfl⟩, mem_shardOf.mpr ⟨hb, htogether.symm⟩⟩

end Shards

/-! ### Another test file -/

/-- With another file: files that share a shard still do, a shard of the others is made as it is and makes the step that
it made, and a shard is as it was or has the file as well. -/
structure Stable (files : List String) (file : String) (maxShards : Int) : Prop where
  shared : ∀ a b, Share (stableTargetShards sha256 files maxShards) a b →
    Share (stableTargetShards sha256 (file :: files) maxShards) a b
  others : ∀ shard ∈ stableTargetShards sha256 (file :: files) maxShards, file ∉ shard →
    shard ∈ stableTargetShards sha256 files maxShards
  steps : ∀ (step : VerificationStep) (args : List String),
    ∀ shard ∈ stableTargetShards sha256 (file :: files) maxShards, file ∉ shard →
      expandedProofStep sha256 step shard args ∈
        (stableTargetShards sha256 files maxShards).map fun shard => expandedProofStep sha256 step shard args
  kept : ∀ shard ∈ stableTargetShards sha256 files maxShards,
    shard ∈ stableTargetShards sha256 (file :: files) maxShards ∨
      ∃ larger ∈ stableTargetShards sha256 (file :: files) maxShards, ∀ t, t ∈ larger ↔ t = file ∨ t ∈ shard

section Stable

variable {sha256} {files : List String} {file : String} {maxShards : Int}

/-- It is stable where the files that are hashed together are the same for both numbers of shards. -/
theorem stable_iff (hnew : file ∉ files) : Stable sha256 files file maxShards ↔
    ∀ a ∈ files, ∀ b ∈ files, (Together sha256 (shardCount files.dedup.length maxShards) a b ↔
      Together sha256 (shardCount (file :: files).dedup.length maxShards) a b) := by
  constructor
  · intro h a ha b hb
    constructor
    · intro htogether
      exact (share_iff.mp (h.shared a b (share_iff.mpr ⟨ha, hb, htogether⟩))).2.2
    · intro htogether
      -- the shard that `a` was in is one of the shards, or one but for the file
      have hself : a ∈ shardOf sha256 files (shardCount files.dedup.length maxShards) a := mem_shardOf.mpr ⟨ha, rfl⟩
      have hb' : b ∈ shardOf sha256 files (shardCount files.dedup.length maxShards) a := by
        rcases h.kept _ (mem_stableTargetShards.mpr ⟨a, ha, rfl⟩) with hshard | ⟨larger, hlarger, hmem⟩
        · obtain ⟨c, _, hc⟩ := mem_stableTargetShards.mp hshard
          rw [hc] at hself ⊢
          exact mem_shardOf.mpr ⟨List.mem_cons_of_mem _ hb, htogether.symm.trans (mem_shardOf.mp hself).2⟩
        · obtain ⟨c, _, rfl⟩ := mem_stableTargetShards.mp hlarger
          have hac := (mem_shardOf.mp ((hmem a).mpr (.inr hself))).2
          have hbc := (hmem b).mp (mem_shardOf.mpr ⟨List.mem_cons_of_mem _ hb, htogether.symm.trans hac⟩)
          exact hbc.resolve_left fun heq => hnew (heq ▸ hb)
      exact (mem_shardOf.mp hb').2.symm
  · intro h
    have hothers : ∀ shard ∈ stableTargetShards sha256 (file :: files) maxShards, file ∉ shard →
        shard ∈ stableTargetShards sha256 files maxShards := by
      intro shard hshard hfile
      obtain ⟨c, hc, rfl⟩ := mem_stableTargetShards.mp hshard
      have hcfile : c ≠ file := by
        rintro rfl
        exact hfile (mem_shardOf.mpr ⟨hc, rfl⟩)
      have hcfiles : c ∈ files := (List.mem_cons.mp hc).resolve_left hcfile
      refine mem_stableTargetShards.mpr ⟨c, hcfiles, ?_⟩
      apply filter_uniqueTargets
      intro t
      simp only [decide_eq_true_eq, List.mem_cons]
      constructor
      · rintro ⟨rfl | ht, htogether⟩
        · exact absurd (mem_shardOf.mpr ⟨List.mem_cons_self, htogether⟩) hfile
        · exact ⟨ht, (h t ht c hcfiles).mpr htogether⟩
      · rintro ⟨ht, htogether⟩
        exact ⟨.inr ht, (h t ht c hcfiles).mp htogether⟩
    refine ⟨?_, hothers, ?_, ?_⟩
    · intro a b hshare
      obtain ⟨ha, hb, htogether⟩ := share_iff.mp hshare
      exact share_iff.mpr ⟨List.mem_cons_of_mem _ ha, List.mem_cons_of_mem _ hb, (h a ha b hb).mp htogether⟩
    · intro step args shard hshard hfile
      exact List.mem_map_of_mem (hothers shard hshard hfile)
    · intro shard hshard
      obtain ⟨c, hc, rfl⟩ := mem_stableTargetShards.mp hshard
      have hnow : shardOf sha256 (file :: files) (shardCount (file :: files).dedup.length maxShards) c ∈
          stableTargetShards sha256 (file :: files) maxShards :=
        mem_stableTargetShards.mpr ⟨c, List.mem_cons_of_mem _ hc, rfl⟩
      by_cases hfile : Together sha256 (shardCount (file :: files).dedup.length maxShards) file c
      · refine .inr ⟨_, hnow, fun t => ?_⟩
        simp only [mem_shardOf, List.mem_cons]
        constructor
        · rintro ⟨rfl | ht, htogether⟩
          · exact .inl rfl
          · exact .inr ⟨ht, (h t ht c hc).mpr htogether⟩
        · rintro (rfl | ⟨ht, htogether⟩)
          · exact ⟨.inl rfl, hfile⟩
          · exact ⟨.inr ht, (h t ht c hc).mp htogether⟩
      · refine .inl ?_
        suffices hsame : shardOf sha256 files (shardCount files.dedup.length maxShards) c =
            shardOf sha256 (file :: files) (shardCount (file :: files).dedup.length maxShards) c by
          rw [hsame]
          exact hnow
        apply filter_uniqueTargets
        intro t
        simp only [decide_eq_true_eq, List.mem_cons]
        constructor
        · rintro ⟨ht, htogether⟩
          exact ⟨.inr ht, (h t ht c hc).mp htogether⟩
        · rintro ⟨rfl | ht, htogether⟩
          · exact absurd htogether hfile
          · exact ⟨ht, (h t ht c hc).mpr htogether⟩

theorem length_dedup_cons (hnew : file ∉ files) : (file :: files).dedup.length = files.dedup.length + 1 := by
  simp [List.dedup_cons_of_notMem hnew]

end Stable

/-- Another file leaves the other shards as they are if and only if the limit on the shards is reached already, or
the files that are hashed together modulo their number are those that are hashed together modulo the number after it. -/
theorem shards_stable (files : List String) (file : String) (maxShards : Int) (hnew : file ∉ files) :
    Stable sha256 files file maxShards ↔
      max 1 maxShards ≤ files.dedup.length ∨
        ∀ a ∈ files, ∀ b ∈ files, (hashed sha256 a % files.dedup.length = hashed sha256 b % files.dedup.length ↔
          hashed sha256 a % (files.dedup.length + 1) = hashed sha256 b % (files.dedup.length + 1)) := by
  rw [stable_iff hnew, length_dedup_cons hnew]
  by_cases hlimit : max 1 maxShards ≤ files.dedup.length
  · have hcount : shardCount (files.dedup.length + 1) maxShards = shardCount files.dedup.length maxShards := by
      unfold shardCount
      omega
    simp [hlimit, hcount]
  · have hbefore : shardCount files.dedup.length maxShards = files.dedup.length := by
      unfold shardCount
      omega
    have hafter : shardCount (files.dedup.length + 1) maxShards = files.dedup.length + 1 := by
      unfold shardCount
      omega
    simp only [hlimit, false_or, hbefore, hafter]
    exact Iff.rfl

/-! ### Three files -/

/-- The digests of three names. -/
def recorded (text : List Char) : List (Fin 256) :=
  if text = "tests/test_a.py".toList then
    [79, 206, 205, 145, 52, 13, 140, 52, 188, 255, 59, 118, 106, 80, 250, 153, 207, 17, 243, 105, 10, 72, 6, 28,
     201, 232, 63, 197, 40, 66, 166, 123]
  else if text = "tests/test_b.py".toList then
    [235, 102, 247, 140, 93, 90, 97, 42, 239, 254, 135, 81, 107, 227, 65, 236, 101, 49, 172, 103, 162, 85, 35, 24,
     29, 37, 188, 74, 186, 67, 71, 213]
  else
    [87, 209, 22, 232, 44, 12, 135, 98, 143, 19, 148, 231, 181, 200, 85, 21, 193, 18, 49, 27, 141, 130, 40, 93,
     106, 91, 67, 204, 219, 120, 217, 235]

/-- With at most two shards, a third file moves no other. -/
theorem shards_stable_full : Stable recorded ["tests/test_a.py", "tests/test_b.py"] "tests/test_c.py" 2 :=
  (shards_stable recorded ["tests/test_a.py", "tests/test_b.py"] "tests/test_c.py" 2 (by decide)).mpr (.inl (by decide))

/-- With at most eight shards, two files are in one of two; with a third file they are in two of three. -/
theorem shard_split :
    Share (stableTargetShards recorded ["tests/test_a.py", "tests/test_b.py"] 8) "tests/test_a.py" "tests/test_b.py" ∧
      ¬ Share (stableTargetShards recorded ["tests/test_c.py", "tests/test_a.py", "tests/test_b.py"] 8)
        "tests/test_a.py" "tests/test_b.py" := by
  rw [share_iff, share_iff]
  decide +kernel

end AutoAgents.Verification.Sharding
