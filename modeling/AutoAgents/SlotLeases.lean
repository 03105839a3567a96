import AutoAgents.BaseRun

/-! The slots of a worker. A lease takes the allocation lock, looks which slots are free, and if it is its turn takes as
many slot locks as it requires, or gives back those it took; a snapshot of the slots takes each free lock for a moment.
While a lease has the allocation lock no other lease takes slots, and only snapshots can be in its way. -/

namespace AutoAgents.Slots

open Base (System)

/-! ### Whose turn it is -/

/-- What a lease writes into the queue. -/
structure Ticket where
  created : ℚ
  required : Nat
  memoryMb : Int
  memoryReserveMb : Int
  memoryGuard : String
  priority : Int
  project : String

/-- The slots of the worker, and the lease of each party. -/
structure Config (ι : Type) where
  slots : Nat
  ticket : ι → Ticket
  id : ι → String

variable {ι : Type} (c : Config ι)

/-- What `_queue_turn` reads beside the queue; `reserved` is the memory of the leases that hold slots. -/
structure Reading where
  now : ℚ
  served : String → ℚ
  memory : Int
  reserved : Int

variable (r : Reading)

def Config.effectivePriority (p : ι) : Int := (c.ticket p).priority - ⌊max 0 (r.now - (c.ticket p).created) / 60⌋

/-- The key by which the queue is sorted. -/
def Config.key (p : ι) : ℤ ×ₗ ℚ ×ₗ ℚ ×ₗ String :=
  toLex (c.effectivePriority r p, toLex (r.served (c.ticket p).project, toLex ((c.ticket p).created, c.id p)))

def Config.fits (available : Nat) (p : ι) : Bool :=
  (c.ticket p).required ≤ available &&
    ((c.ticket p).memoryGuard != "required" || r.memory ≤ 0 ||
      r.reserved + ((c.ticket p).memoryMb + (c.ticket p).memoryReserveMb) * 1024 ^ 2 ≤ r.memory)

/-- `_queue_turn`, once the queue and the slots are read. -/
def Config.queueTurn [DecidableEq ι] (queue : List ι) (available : Nat) (p : ι) : Bool :=
  match queue.mergeSort (fun p q => c.key r p ≤ c.key r q) with
  | [] => true
  | first :: rest =>
      if c.fits r available first = false ∧ 60 ≤ r.now - (c.ticket first).created then false
      else (first :: rest).find? (c.fits r available) = some p

section Queue

variable (queue : List ι) {available : Nat} {p : ι}

theorem Config.pairwise_sorted : (queue.mergeSort fun p q => c.key r p ≤ c.key r q).Pairwise (c.key r · ≤ c.key r ·) := by
  have h : (queue.mergeSort fun p q => c.key r p ≤ c.key r q).Pairwise fun p q => decide (c.key r p ≤ c.key r q) = true :=
    List.pairwise_mergeSort
      (fun x y z hxy hyz => decide_eq_true ((of_decide_eq_true hxy).trans (of_decide_eq_true hyz)))
      (fun x y => by simpa using le_total (c.key r x) (c.key r y)) queue
  exact h.imp of_decide_eq_true

theorem Config.mem_sorted : p ∈ queue.mergeSort (fun p q => c.key r p ≤ c.key r q) ↔ p ∈ queue :=
  (List.mergeSort_perm queue _).mem_iff

variable {c r queue}

theorem Config.key_injective (hid : Function.Injective c.id) : Function.Injective (c.key r) := by
  intro p q h
  have h := congrArg (fun k => (ofLex (ofLex (ofLex k).2).2).2) h
  exact hid h

/-- In a sorted list the first that fits comes before all others that fit. -/
theorem key_le_of_find? {fits : ι → Bool} {l : List ι} (hsorted : l.Pairwise (c.key r · ≤ c.key r ·))
    (h : l.find? fits = some p) : fits p = true ∧ ∀ q ∈ l, fits q = true → c.key r p ≤ c.key r q := by
  obtain ⟨hfits, before, after, rfl, hbefore⟩ := List.find?_eq_some_iff_append.mp h
  refine ⟨hfits, fun q hq hqfits => ?_⟩
  rcases List.mem_append.mp hq with hearly | hlate
  · have := hbefore q hearly
    simp [hqfits] at this
  · rcases List.mem_cons.mp hlate with rfl | hlater
    · exact le_rfl
    · exact List.rel_of_pairwise_cons (List.pairwise_append.mp hsorted).2.1 hlater

variable [DecidableEq ι]

/-- The lease that is given its turn is the first of the queue that fits; as long as the first of all does not fit and
has waited for a minute, none is. -/
theorem queueTurn_iff (hid : Function.Injective c.id) (hmem : p ∈ queue) :
    c.queueTurn r queue available p = true ↔
      c.fits r available p = true ∧ (∀ q ∈ queue, c.fits r available q = true → c.key r p ≤ c.key r q) ∧
      ∀ first ∈ queue, (∀ q ∈ queue, c.key r first ≤ c.key r q) →
        c.fits r available first = true ∨ r.now - (c.ticket first).created < 60 := by
  have hsorted := c.pairwise_sorted r queue
  have hmem' := fun q => c.mem_sorted r queue (p := q)
  unfold Config.queueTurn
  split
  · next hnil =>
      rw [hnil] at hmem'
      exact absurd ((hmem' p).mpr hmem) List.not_mem_nil
  · next first rest hcons =>
      rw [hcons] at hsorted hmem'
      have hleast : ∀ q ∈ queue, c.key r first ≤ c.key r q := by
        intro q hq
        rcases List.mem_cons.mp ((hmem' q).mpr hq) with rfl | hrest
        · exact le_rfl
        · exact List.rel_of_pairwise_cons hsorted hrest
      have hfirst : first ∈ queue := (hmem' first).mp List.mem_cons_self
      constructor
      · intro h
        split at h
        · cases h
        · next hdrain =>
            obtain ⟨hfits, hbefore⟩ := key_le_of_find? hsorted (of_decide_eq_true h)
            refine ⟨hfits, fun q hq => hbefore q ((hmem' q).mpr hq), fun other hother hmin => ?_⟩
            obtain rfl : first = other :=
              Config.key_injective hid (le_antisymm (hleast other hother) (hmin first hfirst))
            by_cases hold : c.fits r available first = true
            · exact Or.inl hold
            · exact Or.inr (not_le.mp fun haged => hdrain ⟨Bool.eq_false_iff.mpr hold, haged⟩)
      · rintro ⟨hfits, hbefore, hdrain⟩
        rw [if_neg]
        · obtain ⟨q, hq⟩ := Option.isSome_iff_exists.mp (List.find?_isSome.mpr ⟨p, (hmem' p).mpr hmem, hfits⟩)
          obtain ⟨hqfits, hqbefore⟩ := key_le_of_find? hsorted hq
          have hqmem : q ∈ queue := (hmem' q).mp (List.mem_of_find?_eq_some hq)
          have heq : p = q :=
            Config.key_injective hid (le_antisymm (hbefore q hqmem hqfits) (hqbefore p ((hmem' p).mpr hmem) hfits))
          rw [heq]
          exact decide_eq_true hq
        · rintro ⟨hblocked, haged⟩
          rcases hdrain first hfirst hleast with hfit | hyoung
          · rw [hfit] at hblocked
            cases hblocked
          · exact absurd haged (not_le.mpr hyoung)

/-- Two leases of one slot each, at a worker that has one. -/
def pair : Config (Fin 2) where
  slots := 1
  ticket _ := { created := 0, required := 1, memoryMb := 0, memoryReserveMb := 0, memoryGuard := "off", priority := 1,
                project := "" }
  id p := if p = 0 then "a" else "b"

theorem queueTurn_iff_pair : pair.queueTurn ⟨1, fun _ => 0, 0, 0⟩ [1, 0] 1 0 = true := by
  refine (queueTurn_iff (fun p q h => ?_) (by simp)).mpr ⟨by decide, fun q hq _ => ?_, fun first _ _ => Or.inl ?_⟩
  · fin_cases p <;> fin_cases q <;> simp_all [pair]
  · fin_cases q
    · exact le_rfl
    · refine Prod.Lex.toLex_le_toLex.mpr (Or.inr ⟨rfl, Prod.Lex.toLex_le_toLex.mpr (Or.inr ⟨rfl, ?_⟩)⟩)
      exact Prod.Lex.toLex_le_toLex.mpr (Or.inr ⟨rfl, by decide⟩)
  · fin_cases first <;> decide

theorem required_le_of_queueTurn (hmem : p ∈ queue) (h : c.queueTurn r queue available p = true) :
    (c.ticket p).required ≤ available := by
  have hfits : c.fits r available p = true := by
    unfold Config.queueTurn at h
    split at h
    · next hnil => exact absurd (hnil ▸ (c.mem_sorted r queue).mpr hmem) List.not_mem_nil
    · split at h
      · cases h
      · exact List.find?_some (of_decide_eq_true h)
  unfold Config.fits at hfits
  exact of_decide_eq_true (Bool.and_eq_true_iff.mp hfits).1

end Queue

/-! ### The locks -/

inductive Lock
  | allocation
  | slot (i : Nat)
  deriving DecidableEq

/-- Where a party is. A snapshot carries the slots it found free, and so does the loop that takes slots after it. -/
inductive Phase
  | idle
  | looking (turn : Bool) (i : Nat) (free : List Nat) (locked : Bool)
  | taking (i : Nat) (free taken : List Nat)
  | granted (taken : List Nat)
  | releasing (again : Bool) (taken : List Nat)
  | left

/-- The locks of a party in this phase. -/
@[simp] def Phase.held : Phase → List Lock
  | .looking turn i _ locked => (if turn then [.allocation] else []) ++ if locked then [.slot i] else []
  | .taking _ _ taken => .allocation :: taken.map .slot
  | .granted taken => taken.map .slot
  | .releasing again taken => (if again then [.allocation] else []) ++ taken.map .slot
  | .idle | .left => []

/-- The holder of each lock, and the parties. -/
structure State (ι : Type) where
  holder : Lock → Option ι
  phase : ι → Phase

inductive Act
  | attempt
  | observe
  | probe
  | unlock
  | report
  | turn
  | take
  | finish
  | leave
  | drop
  | settle
  | giveUp
  | crash

variable [DecidableEq ι]

@[simp] def State.enter (s : State ι) (p : ι) (phase : Phase) : State ι := { s with phase := Function.update s.phase p phase }

@[simp] def State.lock (s : State ι) (p : ι) (l : Lock) : State ι := { s with holder := Function.update s.holder l (some p) }

@[simp] def State.unlock (s : State ι) (l : Lock) : State ι := { s with holder := Function.update s.holder l none }

/-- The kernel closes the files of a party that is gone. -/
@[simp] def State.lose (s : State ι) (p : ι) : State ι :=
  { s with holder := fun l => if s.holder l = some p then none else s.holder l }

/-- One step of one party. -/
inductive Move : State ι → ι × Act → State ι → Prop
  | blocked {s p} : s.phase p = .idle → s.holder .allocation ≠ none → Move s (p, .attempt) s
  | allocates {s p} : s.phase p = .idle → s.holder .allocation = none → (c.ticket p).required ≤ c.slots →
      Move s (p, .attempt) ((s.lock p .allocation).enter p (.looking true 0 [] false))
  | observes {s p} : s.phase p = .idle → Move s (p, .observe) (s.enter p (.looking false 0 [] false))
  | busy {s p turn i free} : s.phase p = .looking turn i free false → i < c.slots → s.holder (.slot i) ≠ none →
      Move s (p, .probe) (s.enter p (.looking turn (i + 1) free false))
  | free {s p turn i free} : s.phase p = .looking turn i free false → i < c.slots → s.holder (.slot i) = none →
      Move s (p, .probe) ((s.lock p (.slot i)).enter p (.looking turn i free true))
  | unlocks {s p turn i free} : s.phase p = .looking turn i free true →
      Move s (p, .unlock) ((s.unlock (.slot i)).enter p (.looking turn (i + 1) (free ++ [i]) false))
  | reports {s p i free} : s.phase p = .looking false i free false → c.slots ≤ i → Move s (p, .report) (s.enter p .idle)
  | waits {s p i free queue r} : s.phase p = .looking true i free false → c.slots ≤ i → p ∈ queue →
      c.queueTurn r queue free.length p = false → Move s (p, .turn) ((s.unlock .allocation).enter p .idle)
  | begins {s p i free queue r} : s.phase p = .looking true i free false → c.slots ≤ i → p ∈ queue →
      c.queueTurn r queue free.length p = true → Move s (p, .turn) (s.enter p (.taking 0 free []))
  | skips {s p i free taken} : s.phase p = .taking i free taken → taken.length < (c.ticket p).required →
      i < c.slots → s.holder (.slot i) ≠ none → Move s (p, .take) (s.enter p (.taking (i + 1) free taken))
  | takes {s p i free taken} : s.phase p = .taking i free taken → taken.length < (c.ticket p).required →
      i < c.slots → s.holder (.slot i) = none →
      Move s (p, .take) ((s.lock p (.slot i)).enter p (.taking (i + 1) free (taken ++ [i])))
  | grants {s p i free taken} : s.phase p = .taking i free taken → (c.ticket p).required ≤ taken.length →
      Move s (p, .finish) ((s.unlock .allocation).enter p (.granted taken))
  | withdraws {s p i free taken} : s.phase p = .taking i free taken → taken.length < (c.ticket p).required →
      c.slots ≤ i → Move s (p, .finish) (s.enter p (.releasing true taken))
  | leaves {s p taken} : s.phase p = .granted taken → Move s (p, .leave) (s.enter p (.releasing false taken))
  | drops {s p again i taken} : s.phase p = .releasing again (i :: taken) →
      Move s (p, .drop) ((s.unlock (.slot i)).enter p (.releasing again taken))
  | retries {s p} : s.phase p = .releasing true [] → Move s (p, .settle) ((s.unlock .allocation).enter p .idle)
  | ends {s p} : s.phase p = .releasing false [] → Move s (p, .settle) (s.enter p .left)
  | givesUp {s p} : s.phase p = .idle → Move s (p, .giveUp) (s.enter p .left)
  | crashes {s p} : Move s (p, .crash) ((s.lose p).enter p .left)

/-- The leases and observers of one worker, all of them yet to begin. -/
def system : System (State ι) (ι × Act) where
  start s := (∀ l, s.holder l = none) ∧ ∀ p, s.phase p = .idle
  step := Move c

/-! ### What every run keeps -/

/-- The slots of a phase exist, and none is there twice; a lease has as many as it requires. -/
@[simp] def Phase.Shaped (slots required : Nat) : Phase → Prop
  | .looking _ i _ locked => locked = true → i < slots
  | .taking i _ taken => taken.Nodup ∧ (∀ j ∈ taken, j < slots ∧ j < i) ∧ taken.length ≤ required
  | .granted taken => taken.Nodup ∧ (∀ j ∈ taken, j < slots) ∧ taken.length = required
  | .releasing _ taken => taken.Nodup ∧ ∀ j ∈ taken, j < slots
  | .idle | .left => True

/-- The locks are those of the phases. -/
structure Kept (s : State ι) : Prop where
  holds : ∀ l p, s.holder l = some p ↔ l ∈ (s.phase p).held
  shaped : ∀ p, (s.phase p).Shaped c.slots (c.ticket p).required

variable {c} {s t : State ι} {a : ι × Act}

theorem kept_start (h : (system c).start s) : Kept c s :=
  ⟨fun l p => by simp [h.1, h.2], fun p => by simp [h.2]⟩

omit [DecidableEq ι] in
theorem Kept.shape (h : Kept c s) {p : ι} {phase : Phase} (hp : s.phase p = phase) :
    phase.Shaped c.slots (c.ticket p).required := hp ▸ h.shaped p

omit [DecidableEq ι] in
theorem Kept.unique (h : Kept c s) {p q : ι} {l : Lock} (hp : l ∈ (s.phase p).held) (hq : l ∈ (s.phase q).held) : p = q :=
  Option.some.inj (((h.holds l p).mpr hp).symm.trans ((h.holds l q).mpr hq))

/-- A party moves to a phase whose locks it has then; those of all others are as they were. -/
theorem Kept.next (h : Kept c s) {p : ι} {phase : Phase} (hphase : t.phase = Function.update s.phase p phase)
    (hself : ∀ l, t.holder l = some p ↔ l ∈ phase.held)
    (hother : ∀ l q, q ≠ p → (t.holder l = some q ↔ s.holder l = some q))
    (hshaped : phase.Shaped c.slots (c.ticket p).required) : Kept c t := by
  refine ⟨fun l q => ?_, fun q => ?_⟩ <;> rw [hphase] <;> by_cases hq : q = p
  · subst hq
    rw [Function.update_self]
    exact hself l
  · rw [Function.update_of_ne hq, hother l q hq]
    exact h.holds l q
  · subst hq
    rw [Function.update_self]
    exact hshaped
  · rw [Function.update_of_ne hq]
    exact h.shaped q

/-- A party moves on with the locks it has. -/
theorem Kept.enter (h : Kept c s) {p : ι} {phase : Phase} (hheld : phase.held = (s.phase p).held)
    (hshaped : phase.Shaped c.slots (c.ticket p).required) : Kept c (s.enter p phase) :=
  h.next rfl (fun l => hheld ▸ h.holds l p) (fun _ _ _ => Iff.rfl) hshaped

/-- A party takes a free lock. -/
theorem Kept.lock (h : Kept c s) {p : ι} {phase : Phase} {l : Lock} (hfree : s.holder l = none)
    (hheld : ∀ k, k ∈ phase.held ↔ k ∈ (s.phase p).held ∨ k = l) (hshaped : phase.Shaped c.slots (c.ticket p).required) :
    Kept c ((s.lock p l).enter p phase) := by
  refine h.next rfl (fun k => ?_) (fun k q hq => ?_) hshaped
  all_goals
    simp only [State.enter, State.lock, Function.update_apply]
    split
  · next hk => exact iff_of_true rfl ((hheld k).mpr (Or.inr hk))
  · next hk => rw [hheld, or_iff_left hk, h.holds]
  · next hk => simp [hk, hfree, Ne.symm hq]
  · rfl

/-- A party gives a lock of its own back. -/
theorem Kept.unlock (h : Kept c s) {p : ι} {phase : Phase} {l : Lock} (hown : l ∈ (s.phase p).held)
    (hheld : ∀ k, k ∈ phase.held ↔ k ∈ (s.phase p).held ∧ k ≠ l) (hshaped : phase.Shaped c.slots (c.ticket p).required) :
    Kept c ((s.unlock l).enter p phase) := by
  have hholder : s.holder l = some p := (h.holds l p).mpr hown
  refine h.next rfl (fun k => ?_) (fun k q hq => ?_) hshaped
  all_goals
    simp only [State.enter, State.unlock, Function.update_apply]
    split
  · next hk => exact iff_of_false (by simp) fun hmem => ((hheld k).mp hmem).2 hk
  · next hk => rw [hheld, and_iff_left hk, h.holds]
  · next hk => simp [hk, hholder, Ne.symm hq]
  · rfl

/-- What a party that is gone held is free. -/
theorem Kept.lose (h : Kept c s) (p : ι) : Kept c ((s.lose p).enter p .left) := by
  refine h.next rfl (fun l => ?_) (fun l q hq => ?_) trivial
  all_goals
    simp only [State.enter, State.lose]
    split
  · simp
  · next hne => simp [hne]
  · next hown => simp [hown, Ne.symm hq]
  · rfl

theorem Kept.move (h : Kept c s) (hmove : Move c s a t) : Kept c t := by
  cases hmove with
  | blocked => exact h
  | allocates hp hfree => exact h.lock hfree (by simp [hp]) (by simp)
  | observes hp | busy hp => exact h.enter (by simp [hp]) (by simp)
  | free hp hi hfree => exact h.lock hfree (by simp [hp]) fun _ => hi
  | @unlocks p turn i free hp =>
      refine h.unlock (by simp [hp]) (fun k => ?_) (by simp)
      cases turn <;> cases k <;> simp [hp]
  | reports hp | ends hp | givesUp hp => exact h.enter (by simp [hp]) trivial
  | waits hp | retries hp => exact h.unlock (by simp [hp]) (by simp [hp]) trivial
  | begins hp => exact h.enter (by simp [hp]) ⟨List.nodup_nil, by simp, Nat.zero_le _⟩
  | skips hp =>
      obtain ⟨hnodup, hbelow, hlength⟩ := h.shape hp
      exact h.enter (by simp [hp])
        ⟨hnodup, fun j hj => ⟨(hbelow j hj).1, Nat.lt_succ_of_lt (hbelow j hj).2⟩, hlength⟩
  | @takes p i free taken hp hless hi hfree =>
      obtain ⟨hnodup, hbelow, -⟩ := h.shape hp
      refine h.lock hfree (by simp [hp, or_assoc, eq_comm]) ⟨?_, fun j hj => ?_, by simpa using hless⟩
      · refine List.nodup_append.mpr ⟨hnodup, List.nodup_singleton i, fun j hj k hk => ?_⟩
        rw [List.mem_singleton.mp hk]
        exact Nat.ne_of_lt (hbelow j hj).2
      · rcases List.mem_append.mp hj with hold | hnew
        · exact ⟨(hbelow j hold).1, Nat.lt_succ_of_lt (hbelow j hold).2⟩
        · rw [List.mem_singleton.mp hnew]
          exact ⟨hi, Nat.lt_succ_self i⟩
  | grants hp henough =>
      obtain ⟨hnodup, hbelow, hlength⟩ := h.shape hp
      exact h.unlock (by simp [hp]) (fun k => by cases k <;> simp [hp])
        ⟨hnodup, fun j hj => (hbelow j hj).1, le_antisymm hlength henough⟩
  | withdraws hp =>
      obtain ⟨hnodup, hbelow, -⟩ := h.shape hp
      exact h.enter (by simp [hp]) ⟨hnodup, fun j hj => (hbelow j hj).1⟩
  | leaves hp =>
      obtain ⟨hnodup, hbelow, -⟩ := h.shape hp
      exact h.enter (by simp [hp]) ⟨hnodup, hbelow⟩
  | @drops p again i taken hp =>
      obtain ⟨hnodup, hbelow⟩ := h.shape hp
      obtain ⟨hnotin, hrest⟩ := List.nodup_cons.mp hnodup
      refine h.unlock (by simp [hp]) (fun k => ?_) ⟨hrest, fun j hj => hbelow j (List.mem_cons_of_mem _ hj)⟩
      cases k with
      | allocation => simp [hp]
      | slot j =>
          have hne : j ∈ taken → j ≠ i := fun hj heq => hnotin (heq ▸ hj)
          cases again <;> simp [hp] <;> tauto
  | crashes => exact h.lose _

theorem kept_of_reachable (h : (system c).Reachable s) : Kept c s :=
  h.invariant (fun _ => kept_start) fun _ _ _ hkept hstep => hkept.move hstep

omit [DecidableEq ι] in
/-- The slots of some granted leases are as many as these leases require, and there are no more than the worker has. -/
theorem Kept.required_le (h : Kept c s) {leases : Finset ι} (hgranted : ∀ p ∈ leases, ∃ taken, s.phase p = .granted taken) :
    ∑ p ∈ leases, (c.ticket p).required ≤ c.slots := by
  choose! taken htaken using hgranted
  have hshape := fun p (hp : p ∈ leases) => h.shape (htaken p hp)
  have hdisjoint : (leases : Set ι).PairwiseDisjoint fun p => (taken p).toFinset := by
    intro p hp q hq hne
    refine Finset.disjoint_left.mpr fun i hi hj => hne (h.unique (l := .slot i) ?_ ?_)
    · simpa [htaken p hp, Phase.held] using hi
    · simpa [htaken q hq, Phase.held] using hj
  calc ∑ p ∈ leases, (c.ticket p).required
      = ∑ p ∈ leases, (taken p).toFinset.card :=
        Finset.sum_congr rfl fun p hp => by rw [List.toFinset_card_of_nodup (hshape p hp).1, (hshape p hp).2.2]
    _ = (leases.biUnion fun p => (taken p).toFinset).card := (Finset.card_biUnion hdisjoint).symm
    _ ≤ (Finset.range c.slots).card := by
      refine Finset.card_le_card fun i hi => ?_
      obtain ⟨p, hp, hi⟩ := Finset.mem_biUnion.mp hi
      exact Finset.mem_range.mpr ((hshape p hp).2.1 i (List.mem_toFinset.mp hi))
    _ = c.slots := Finset.card_range _

/-- In every state of every run a granted lease has the locks of as many slots of the worker as it requires and no other
lock, a party that waits or has left has none, no lock has two holders, and the granted leases never require more slots
together than the worker has. -/
theorem leases_within_slots (h : (system c).Reachable s) :
    (∀ p taken, s.phase p = .granted taken → taken.Nodup ∧ taken.length = (c.ticket p).required ∧
      ∀ l, s.holder l = some p ↔ ∃ i < c.slots, i ∈ taken ∧ l = .slot i) ∧
    (∀ p, s.phase p = .idle ∨ s.phase p = .left → ∀ l, s.holder l ≠ some p) ∧
    (∀ p q l, l ∈ (s.phase p).held → l ∈ (s.phase q).held → p = q) ∧
    ∀ leases : Finset ι, (∀ p ∈ leases, ∃ taken, s.phase p = .granted taken) →
      ∑ p ∈ leases, (c.ticket p).required ≤ c.slots := by
  have hkept := kept_of_reachable h
  refine ⟨fun p taken hp => ?_, fun p hp l hl => ?_, fun p q l => hkept.unique, fun leases => hkept.required_le⟩
  · obtain ⟨hnodup, hbelow, hlength⟩ := hkept.shape hp
    refine ⟨hnodup, hlength, fun l => ?_⟩
    rw [hkept.holds, hp, Phase.held, List.mem_map]
    constructor
    · rintro ⟨i, hi, rfl⟩
      exact ⟨i, hbelow i hi, hi, rfl⟩
    · rintro ⟨i, -, hi, rfl⟩
      exact ⟨i, hi, rfl⟩
  · rw [hkept.holds] at hl
    rcases hp with hp | hp <;> rw [hp] at hl <;> cases hl

/-- The first of the two leases is granted the slot. -/
theorem pair_granted : ∃ trace s, (system pair).Run trace s ∧ s.phase 0 = .granted [0] ∧
    ∀ e ∈ trace, e.before.phase 1 = .idle := by
  have hturn : pair.queueTurn ⟨1, fun _ => 0, 0, 0⟩ [0] 1 0 = true := by
    simp [Config.queueTurn, Config.fits, pair]
  exact ⟨_, _, ((((((System.Run.start (S := system pair) (s := ⟨fun _ => none, fun _ => .idle⟩)
    ⟨fun _ => rfl, fun _ => rfl⟩).step (Move.allocates (p := 0) rfl rfl le_rfl)).step
    (Move.free (p := 0) (i := 0) rfl Nat.one_pos rfl)).step
    (Move.unlocks (p := 0) (i := 0) rfl)).step
    (Move.begins (p := 0) (i := 1) rfl le_rfl (List.mem_singleton.mpr rfl) hturn)).step
    (Move.takes (p := 0) (i := 0) rfl Nat.one_pos Nat.one_pos rfl)).step
    (Move.grants (p := 0) (i := 1) rfl le_rfl), rfl, by simp⟩

theorem leases_within_slots_pair : ∃ s : State (Fin 2), s.phase 0 = .granted [0] ∧
    ∀ l, s.holder l = some 0 ↔ ∃ i < 1, i ∈ [0] ∧ l = .slot i := by
  obtain ⟨trace, s, hrun, hphase, -⟩ := pair_granted
  exact ⟨s, hphase, ((leases_within_slots hrun.reachable).1 0 [0] hphase).2.2⟩

/-! ### The slots that were found free -/

/-- The party takes a snapshot without the allocation lock. -/
@[simp] def Phase.observing : Phase → Bool
  | .looking turn _ _ _ => !turn
  | _ => false

/-- A slot is free, or the lease has it, or a snapshot is trying it. -/
def Open (s : State ι) (p : ι) (i : Nat) : Prop := ∀ q, s.holder (.slot i) = some q → q = p ∨ (s.phase q).observing = true

variable {p : ι}

/-- A party that moves changes its own phase only. -/
theorem Move.phase_other (h : Move c s a t) {q : ι} (hq : q ≠ a.1) : t.phase q = s.phase q := by
  cases h
  case blocked => rfl
  all_goals exact Function.update_of_ne hq _ _

omit [DecidableEq ι] in
theorem State.holder_of_lock {q : ι} {l k : Lock} (h : (s.lock p k).holder l = some q) :
    l = k ∧ p = q ∨ s.holder l = some q := by
  simp only [State.lock, Function.update_apply] at h
  split at h
  · exact Or.inl ⟨‹_›, Option.some.inj h⟩
  · exact Or.inr h

/-- A lock that a party has after a step it had before, or a snapshot tries it, or the allocating lease takes it. -/
theorem Move.holder_of (hmove : Move c s a t) {q : ι} {l : Lock} (h : t.holder l = some q) :
    s.holder l = some q ∨ (t.phase q).observing = true ∨ .allocation ∈ (s.phase q).held ∨ l = .allocation := by
  cases hmove with
  | @free m turn i free hp =>
      rcases State.holder_of_lock h with ⟨-, rfl⟩ | hold
      · cases turn <;> simp [hp]
      · exact Or.inl hold
  | takes hp =>
      rcases State.holder_of_lock h with ⟨-, rfl⟩ | hold
      · simp [hp]
      · exact Or.inl hold
  | allocates => exact (State.holder_of_lock h).elim (fun hl => Or.inr (Or.inr (Or.inr hl.1))) Or.inl
  | unlocks | drops | waits | grants | retries =>
      simp only [State.enter, State.unlock, Function.update_apply] at h
      split at h
      · cases h
      · exact Or.inl h
  | crashes =>
      simp only [State.enter, State.lose] at h
      split at h
      · cases h
      · exact Or.inl h
  | blocked | observes | busy | reports | begins | skips | withdraws | leaves | ends | givesUp => exact Or.inl h

/-- A snapshot that has a slot lock goes on. -/
theorem Move.observing_of (hmove : Move c s a t) (hkept : Kept c s) {q : ι} {i : Nat} (hslot : s.holder (.slot i) = some q)
    (hafter : t.holder (.slot i) = some q) (h : (s.phase q).observing = true) : (t.phase q).observing = true := by
  by_cases hq : q = a.1
  · have hheld := (hkept.holds (.slot i) q).mp hslot
    obtain rfl := hq
    cases hmove with
    | blocked => exact h
    | crashes => simp_all
    | busy hp | free hp | unlocks hp => simp_all
    | allocates hp | observes hp | reports hp | waits hp | begins hp | skips hp | takes hp | grants hp | withdraws hp
    | leaves hp | drops hp | retries hp | ends hp | givesUp hp => simp [hp] at h hheld
  · rw [hmove.phase_other hq]
    exact h

theorem Open.move {i : Nat} (h : Open s p i) (hkept : Kept c s) (hmine : .allocation ∈ (s.phase p).held)
    (hmove : Move c s a t) : Open t p i := by
  intro q hq
  rcases hmove.holder_of hq with hold | hobserving | hallocating | hl
  · exact (h q hold).imp_right (hmove.observing_of hkept hold hq)
  · exact Or.inr hobserving
  · exact Or.inl (hkept.unique hallocating hmine)
  · cases hl

/-- The slots that the snapshot of a lease found free. -/
@[simp] def Phase.found : Phase → List Nat
  | .looking true _ free _ | .taking _ free _ => free
  | _ => []

theorem Phase.allocation_of_found {phase : Phase} {i : Nat} (h : i ∈ phase.found) : .allocation ∈ phase.held := by
  unfold Phase.found at h
  split at h
  · simp
  · simp
  · cases h

@[simp] def Phase.Ready (slots required : Nat) : Phase → Prop
  | .looking true i free _ => free.Nodup ∧ ∀ j ∈ free, j < i ∧ j < slots
  | .taking i free taken => (free.Nodup ∧ required ≤ free.length) ∧ ∀ j ∈ free, (j < i → j ∈ taken) ∧ j < slots
  | _ => True

/-- What a lease knows of the slots it found free. -/
def Prepared (c : Config ι) (s : State ι) (p : ι) : Prop :=
  (s.phase p).Ready c.slots (c.ticket p).required ∧ ∀ j ∈ (s.phase p).found, Open s p j

/-- No snapshot is trying the slot that the lease comes to take. -/
def Undisturbed (p : ι) (s : State ι) (a : ι × Act) (_ : State ι) : Prop :=
  a = (p, .take) → ∀ i free taken q, s.phase p = .taking i free taken → s.holder (.slot i) = some q →
    (s.phase q).observing = false

/-- One step of the lease itself. -/
theorem Prepared.own (h : Prepared c s p) (hkept : Kept c s) (hafter : ∀ j ∈ (s.phase p).found, Open t p j)
    (hcalm : Undisturbed p s a t) (hmove : Move c s a t) (hp : a.1 = p) : Prepared c t p := by
  obtain ⟨hready, hopen⟩ := h
  obtain rfl := hp
  have hphase {phase : Phase} (hnext : t.phase = Function.update s.phase a.1 phase)
      (hready : phase.Ready c.slots (c.ticket a.1).required) (hfound : ∀ j ∈ phase.found, Open t a.1 j) :
      Prepared c t a.1 := by
    rw [Prepared, hnext, Function.update_self]
    exact ⟨hready, hfound⟩
  cases hmove with
  | blocked => exact ⟨hready, hafter⟩
  | allocates => exact hphase rfl ⟨List.nodup_nil, by simp⟩ (by simp)
  | @busy p turn i free hp | @free p turn i free hp =>
      simp only [hp] at hready hafter
      refine hphase rfl ?_ (by cases turn <;> exact hafter)
      cases turn with
      | false => trivial
      | true => exact ⟨hready.1, fun j hj => by have := hready.2 j hj; omega⟩
  | @unlocks p turn i free hp =>
      simp only [hp] at hready hafter
      cases turn with
      | false => exact hphase rfl trivial (by simp)
      | true =>
          refine hphase rfl ⟨List.nodup_append.mpr ⟨hready.1, List.nodup_singleton i, fun j hj k hk => ?_⟩,
            fun j hj => ?_⟩ fun j hj => ?_
          · rw [List.mem_singleton.mp hk]
            exact Nat.ne_of_lt (hready.2 j hj).1
          · rcases List.mem_append.mp hj with hold | hnew
            · have := hready.2 j hold
              omega
            · rw [List.mem_singleton.mp hnew]
              exact ⟨Nat.lt_succ_self i, hkept.shape hp rfl⟩
          · rcases List.mem_append.mp hj with hold | hnew
            · exact hafter j hold
            · rw [List.mem_singleton.mp hnew]
              exact fun q hq => by simp at hq
  | @begins p i free queue r hp hend hmem hturn =>
      simp only [hp] at hready hafter
      exact hphase rfl ⟨⟨hready.1, required_le_of_queueTurn hmem hturn⟩, fun j hj => ⟨by simp, (hready.2 j hj).2⟩⟩ hafter
  | @skips p i free taken hp hless hi hbusy =>
      simp only [hp] at hready hopen hafter
      refine hphase rfl ⟨hready.1, fun j hj => ⟨fun hlt => ?_, (hready.2 j hj).2⟩⟩ hafter
      rcases Nat.lt_succ_iff_lt_or_eq.mp hlt with hbefore | rfl
      · exact (hready.2 j hj).1 hbefore
      -- A slot that was found free is there no more only if a snapshot is trying it.
      · obtain ⟨q, hq⟩ := Option.ne_none_iff_exists'.mp hbusy
        rcases hopen j hj q hq with rfl | hobserving
        · have hheld := (hkept.holds (.slot j) q).mp hq
          simpa [hp, Phase.held] using hheld
        · rw [hcalm rfl j free taken q hp hq] at hobserving
          cases hobserving
  | @takes p i free taken hp =>
      simp only [hp] at hready hafter
      refine hphase rfl ⟨hready.1, fun j hj => ⟨fun hlt => ?_, (hready.2 j hj).2⟩⟩ hafter
      rcases Nat.lt_succ_iff_lt_or_eq.mp hlt with hbefore | rfl
      · exact List.mem_append_left _ ((hready.2 j hj).1 hbefore)
      · exact List.mem_append_right _ (List.mem_singleton.mpr rfl)
  | observes | reports | waits | grants | withdraws | leaves | drops | retries | ends | givesUp | crashes =>
      exact hphase rfl trivial (by simp)

theorem Prepared.move (h : Prepared c s p) (hkept : Kept c s) (hcalm : Undisturbed p s a t) (hmove : Move c s a t) :
    Prepared c t p := by
  have hafter : ∀ j ∈ (s.phase p).found, Open t p j := fun j hj =>
    (h.2 j hj).move hkept (Phase.allocation_of_found hj) hmove
  by_cases hp : a.1 = p
  · exact h.own hkept hafter hcalm hmove hp
  · have hsame := hmove.phase_other (Ne.symm hp)
    exact ⟨hsame ▸ h.1, hsame ▸ hafter⟩

/-- In every run in which no snapshot without the allocation lock tries a slot at the moment the lease comes to take it,
each pass of the lease that was given its turn ends with the lease granted: it never gives slots back to try again. -/
theorem turn_grants {trace : List (Base.Taken (State ι) (ι × Act))} (h : (system c).Run trace s)
    (hcalm : System.Meets (Undisturbed p) trace) :
    ∀ e ∈ trace, e.label = (p, .finish) → ∃ taken, e.after.phase p = .granted taken := by
  intro e he hlabel
  obtain ⟨⟨-, hready, -⟩, hmove⟩ := h.before_of_meets (I := fun s => Kept c s ∧ Prepared c s p)
    (fun s hs => ⟨kept_start hs, by simp [Prepared, hs.2 p]⟩)
    (fun s a t hinv hstep hmove => ⟨hinv.1.move hmove, hinv.2.move hinv.1 hstep hmove⟩) hcalm he
  rcases e with ⟨s', a', t'⟩
  obtain rfl : a' = (p, .finish) := hlabel
  have hmove : Move c s' (p, .finish) t' := hmove
  cases hmove with
  | @grants _ i free taken hp henough => exact ⟨taken, Function.update_self _ _ _⟩
  | @withdraws _ i free taken hp hless hend =>
      rw [hp] at hready
      obtain ⟨⟨hnodup, hlength⟩, hfree⟩ := hready
      have hsub : free ⊆ taken := fun j hj => (hfree j hj).1 (lt_of_lt_of_le (hfree j hj).2 hend)
      have hle : free.length ≤ taken.length := (hnodup.subperm hsub).length_le
      omega

theorem turn_grants_pair : ∃ trace s, (system pair).Run trace s ∧
    ∀ e ∈ trace, e.label = (0, .finish) → ∃ taken, e.after.phase 0 = .granted taken := by
  obtain ⟨trace, s, hrun, -, hidle⟩ := pair_granted
  refine ⟨trace, s, hrun, turn_grants hrun fun e he _ i free taken q hp _ => ?_⟩
  fin_cases q
  · exact congrArg Phase.observing hp
  · exact congrArg Phase.observing (hidle e he)

end AutoAgents.Slots
