import AutoAgents.BaseExcept
import AutoAgents.BaseRun

/-! Programs that share one store. A program reads the store and sends calls to it, one transaction at a time; between
two of its steps other programs may change the store. A law says what holds of every store and how a later store stands
to an earlier one. A program is safe when each of its calls keeps the law, whatever the others have done under the same
law; where all are safe, the law holds throughout every interleaving. -/

namespace Base

/-- A program over stores `σ`, with calls `κ` and errors `ε`. -/
inductive Prog (σ κ ε α : Type) where
  | pure (a : α)
  | fail (e : ε)
  | read (next : σ → Prog σ κ ε α)
  | send (call : κ) (rest : Prog σ κ ε α)

/-- What all programs rely on, and guarantee to the others. -/
structure Law (σ : Type) where
  holds : σ → Prop
  since : σ → σ → Prop
  refl : ∀ s, since s s
  trans : ∀ {a b c}, since a b → since b c → since a c

namespace Prog

variable {σ κ ε α β γ : Type}

def bind : Prog σ κ ε α → (α → Prog σ κ ε β) → Prog σ κ ε β
  | pure a, f => f a
  | fail e, _ => fail e
  | read next, f => read fun s => (next s).bind f
  | send call rest, f => send call (rest.bind f)

instance : Monad (Prog σ κ ε) where
  pure := pure
  bind := bind

theorem bind_def (p : Prog σ κ ε α) (f : α → Prog σ κ ε β) : p >>= f = p.bind f := rfl

theorem pure_def (a : α) : (Pure.pure a : Prog σ κ ε α) = pure a := rfl

/-- A fallible computation that needs no store. -/
def ofExcept : Except ε α → Prog σ κ ε α
  | .ok a => pure a
  | .error e => fail e

/-- One step of a program: a read, or one transaction, whose error the program fails with. -/
def turn (exec : κ → σ → Except ε σ) (s : σ) : Prog σ κ ε α → σ × Prog σ κ ε α
  | pure a => (s, pure a)
  | fail e => (s, fail e)
  | read next => (s, next s)
  | send call rest =>
      match exec call s with
      | .ok s' => (s', rest)
      | .error e => (s, fail e)

end Prog

/-! ### Safe programs -/

/-- The calls that programs may send under a law: each keeps it, and is allowed from then on. -/
structure Guard {σ κ ε : Type} (exec : κ → σ → Except ε σ) (L : Law σ) where
  allows : σ → κ → Prop
  later : ∀ {s s' call}, L.since s s' → allows s call → allows s' call
  keeps : ∀ {s s' call}, L.holds s → allows s call → exec call s = .ok s' → L.holds s' ∧ L.since s s'

section Safe

variable {σ κ ε α β : Type} (exec : κ → σ → Except ε σ) (L : Law σ)

/-- Whenever the call is sent from now on, it keeps the law. -/
def Law.Allows (s : σ) (call : κ) : Prop :=
  ∀ s', L.since s s' → L.holds s' → ∀ s'', exec call s' = .ok s'' → L.holds s'' ∧ L.since s' s''

/-- Every call that keeps the law. -/
def Law.guard : Guard exec L where
  allows := L.Allows exec
  later hs h t ht := h t (L.trans hs ht)
  keeps hs h hexec := h _ (L.refl _) hs _ hexec

variable {exec L}

/-- Every call the program sends is allowed, and its result meets `Q`. -/
def Prog.Safe (G : Guard exec L) : σ → Prog σ κ ε α → (σ → α → Prop) → Prop
  | s, .pure a, Q => Q s a
  | _, .fail _, _ => True
  | s, .read next, Q => ∀ s', L.since s s' → L.holds s' → (next s').Safe G s' Q
  | s, .send call rest, Q =>
      G.allows s call ∧
        ∀ s' s'', L.since s s' → L.holds s' → exec call s' = .ok s'' → rest.Safe G s'' Q

variable {G : Guard exec L} {s s' : σ} {p : Prog σ κ ε α} {Q Q' : σ → α → Prop}

namespace Prog

theorem Safe.mono (h : p.Safe G s Q) (hQ : ∀ t a, L.since s t → Q t a → Q' t a) : p.Safe G s Q' := by
  induction p generalizing s with
  | pure a => exact hQ s a (L.refl s) h
  | fail e => trivial
  | read next ih =>
      intro t hst ht
      exact ih t (h t hst ht) fun u a htu => hQ u a (L.trans hst htu)
  | send call rest ih =>
      refine ⟨h.1, fun t u hst ht hexec => ih (h.2 t u hst ht hexec) fun v a huv => hQ v a ?_⟩
      have htu := (G.keeps ht (G.later hst h.1) hexec).2
      exact L.trans hst (L.trans htu huv)

/-- A program stays safe while others act, where its postcondition does. -/
theorem Safe.later (h : p.Safe G s Q) (hs : L.since s s')
    (hQ : ∀ a, p = .pure a → Q s a → Q s' a) : p.Safe G s' Q := by
  cases p with
  | pure a => exact hQ a rfl h
  | fail e => trivial
  | read next => exact fun t ht => h t (L.trans hs ht)
  | send call rest => exact ⟨G.later hs h.1, fun t u ht => h.2 t u (L.trans hs ht)⟩

theorem Safe.bind {f : α → Prog σ κ ε β} {Q : σ → β → Prop}
    (h : p.Safe G s fun t a => (f a).Safe G t Q) : (p >>= f).Safe G s Q := by
  rw [bind_def]
  induction p generalizing s with
  | pure a => exact h
  | fail e => trivial
  | read next ih => exact fun t hst ht => ih t (h t hst ht)
  | send call rest ih => exact ⟨h.1, fun t u hst ht hexec => ih (h.2 t u hst ht hexec)⟩

theorem safe_ofExcept {x : Except ε α} (h : ∀ a, x = .ok a → Q s a) :
    (ofExcept x : Prog σ κ ε α).Safe G s Q := by
  cases x with
  | ok a => exact h a rfl
  | error e => trivial

/-- A loop whose every round is safe and keeps what holds between rounds. -/
theorem safe_forM {ι : Type} {items : List ι} {body : ι → Prog σ κ ε Unit} {P : σ → Prop}
    (hs : P s) (h : ∀ item ∈ items, ∀ t, L.since s t → P t → (body item).Safe G t fun u _ => P u) :
    (items.forM body).Safe G s fun t _ => P t := by
  induction items generalizing s with
  | nil => exact hs
  | cons item items ih =>
      change (body item >>= fun _ => items.forM body).Safe G s _
      have hitem := h item List.mem_cons_self s (L.refl s) hs
      refine Safe.bind (hitem.mono fun t _ hst ht => ih ht fun item' hmem u htu => ?_)
      exact h item' (List.mem_cons_of_mem _ hmem) u (L.trans hst htu)

/-- One step of a safe program keeps the law and leaves a safe program. -/
theorem Safe.turn (h : p.Safe G s Q) (hs : L.holds s) :
    L.holds (p.turn exec s).1 ∧ L.since s (p.turn exec s).1 ∧
      (p.turn exec s).2.Safe G (p.turn exec s).1 Q := by
  cases p with
  | pure a => exact ⟨hs, L.refl s, h⟩
  | fail e => exact ⟨hs, L.refl s, trivial⟩
  | read next => exact ⟨hs, L.refl s, h s (L.refl s) hs⟩
  | send call rest =>
      cases hexec : exec call s with
      | error e =>
          simp only [Prog.turn, hexec]
          exact ⟨hs, L.refl s, trivial⟩
      | ok t =>
          have hkept := G.keeps hs h.1 hexec
          simp only [Prog.turn, hexec]
          exact ⟨hkept.1, hkept.2, h.2 s t (L.refl s) hs hexec⟩

end Prog
end Safe

/-! ### Threads -/

/-- A program under way, with what its owner remembers of it. -/
structure Thread (σ κ ε τ : Type) where
  tag : τ
  program : Prog σ κ ε Unit

/-- A store and the threads that act on it. -/
structure Pool (σ κ ε τ : Type) where
  now : σ
  threads : Nat → Option (Thread σ κ ε τ)

/-- A thread is given a new program, takes a step, or is gone. -/
inductive Turn (μ : Type) where
  | begin (thread : Nat) (move : μ)
  | go (thread : Nat)
  | drop (thread : Nat)

namespace Pool

variable {σ κ ε τ μ : Type} (exec : κ → σ → Except ε σ)
  (start : μ → σ → Option (Thread σ κ ε τ) → Option (Thread σ κ ε τ))

def after (s : Pool σ κ ε τ) : Turn μ → Pool σ κ ε τ
  | .begin i move => { s with threads := Function.update s.threads i (start move s.now (s.threads i)) }
  | .go i =>
      match s.threads i with
      | none => s
      | some thread =>
          let (now, program) := thread.program.turn exec s.now
          { now, threads := Function.update s.threads i (some { thread with program }) }
  | .drop i => { s with threads := Function.update s.threads i none }

/-- All interleavings of the threads, from a store on which none is running. -/
def system (origin : σ) : System (Pool σ κ ε τ) (Turn μ) where
  start s := s = ⟨origin, fun _ => none⟩
  step s turn t := t = s.after exec start turn

/-- The transitions of a sequence of turns. -/
def taken (s : Pool σ κ ε τ) : List (Turn μ) → List (Taken (Pool σ κ ε τ) (Turn μ))
  | [] => []
  | turn :: turns => ⟨s, turn, s.after exec start turn⟩ :: (s.after exec start turn).taken turns

theorem mem_taken {s : Pool σ κ ε τ} {turns : List (Turn μ)} {e : Taken (Pool σ κ ε τ) (Turn μ)}
    (h : e ∈ s.taken exec start turns) : e.label ∈ turns := by
  induction turns generalizing s with
  | nil => cases h
  | cons turn turns ih =>
      rcases List.mem_cons.mp h with rfl | hrest
      · exact List.mem_cons_self
      · exact List.mem_cons_of_mem _ (ih hrest)

/-- The pool after a sequence of turns. -/
def replay (s : Pool σ κ ε τ) (turns : List (Turn μ)) : Pool σ κ ε τ := turns.foldl (after exec start) s

theorem run_replay {origin : σ} {trace : List (Taken (Pool σ κ ε τ) (Turn μ))} {s : Pool σ κ ε τ}
    (h : (system exec start origin).Run trace s) (turns : List (Turn μ)) :
    (system exec start origin).Run (trace ++ s.taken exec start turns) (s.replay exec start turns) := by
  induction turns generalizing trace s with
  | nil => rwa [taken, List.append_nil]
  | cons turn turns ih =>
      have hrest := ih (h.step (l := turn) (t := s.after exec start turn) rfl)
      rwa [List.append_assoc, List.singleton_append] at hrest

/-- Every sequence of turns is a run. -/
theorem run_turns (origin : σ) (turns : List (Turn μ)) :
    (system exec start origin).Run (taken exec start ⟨origin, fun _ => none⟩ turns)
      (replay exec start ⟨origin, fun _ => none⟩ turns) :=
  run_replay exec start (System.Run.start rfl) turns

variable {exec start} {L : Law σ} {G : Guard exec L} {T : σ → τ → Prop}

/-- A thread whose program is safe, with what is known of its tag. -/
def Tame (G : Guard exec L) (T : σ → τ → Prop) (s : σ) (thread : Thread σ κ ε τ) : Prop :=
  T s thread.tag ∧ thread.program.Safe G s fun _ _ => True

/-- A step of a pool moves its store by one call of a thread, or leaves it alone. -/
theorem after_now (s : Pool σ κ ε τ) (turn : Turn μ) :
    (s.after exec start turn).now = s.now ∨ ∃ i thread call rest, turn = .go i ∧ s.threads i = some thread ∧
      thread.program = .send call rest ∧ exec call s.now = .ok (s.after exec start turn).now := by
  cases turn with
  | begin | drop => exact Or.inl rfl
  | go i =>
      cases hi : s.threads i with
      | none => exact Or.inl (by simp only [after, hi])
      | some thread =>
          cases hprogram : thread.program with
          | pure | fail | read => exact Or.inl (by simp only [after, hi, hprogram, Prog.turn])
          | send call rest =>
              cases hexec : exec call s.now with
              | error e => exact Or.inl (by simp only [after, hi, hprogram, Prog.turn, hexec])
              | ok now =>
                  refine Or.inr ⟨i, thread, call, rest, rfl, hi, hprogram, ?_⟩
                  simp only [after, hi, hprogram, Prog.turn, hexec]

/-- The law holds, and the programs of all threads are safe. -/
def Orderly (G : Guard exec L) (T : σ → τ → Prop) (s : Pool σ κ ε τ) : Prop :=
  L.holds s.now ∧ ∀ i, ∀ thread ∈ s.threads i, Tame G T s.now thread

/-- The store of an orderly pool moves by allowed calls. -/
theorem Orderly.after_now {s : Pool σ κ ε τ} (h : Orderly G T s) (turn : Turn μ) :
    (s.after exec start turn).now = s.now ∨
      ∃ call, G.allows s.now call ∧ exec call s.now = .ok (s.after exec start turn).now := by
  have hturn := @Pool.after_now _ _ _ _ _ exec start s turn
  rcases hturn with hsame | ⟨i, thread, call, rest, -, hthread, hprogram, hexec⟩
  · exact Or.inl hsame
  · have hsafe := (h.2 i thread hthread).2
    rw [hprogram] at hsafe
    exact Or.inr ⟨call, hsafe.1, hexec⟩

/-- One turn keeps an orderly pool, where the program it begins is safe. -/
theorem Orderly.after {s : Pool σ κ ε τ} (h : Orderly G T s)
    (hlater : ∀ s t tag, L.since s t → T s tag → T t tag) (turn : Turn μ)
    (hbegin : ∀ i move, turn = .begin i move →
      ∀ new ∈ start move s.now (s.threads i), Tame G T s.now new) :
    Orderly G T (s.after exec start turn) ∧ L.since s.now (s.after exec start turn).now := by
  obtain ⟨hnow, htame⟩ := h
  cases turn with
  | begin i move =>
      refine ⟨⟨hnow, fun j thread hthread => ?_⟩, L.refl _⟩
      by_cases hj : j = i
      · subst hj
        simp only [Pool.after, Function.update_self] at hthread
        exact hbegin j move rfl thread hthread
      · simp only [Pool.after, Function.update_of_ne hj] at hthread
        exact htame j thread hthread
  | go i =>
      cases hi : s.threads i with
      | none =>
          simp only [Pool.after, hi]
          exact ⟨⟨hnow, htame⟩, L.refl _⟩
      | some old =>
          have hold := htame i old hi
          obtain ⟨hkept, hstep, hrest⟩ := hold.2.turn hnow
          simp only [Pool.after, hi]
          refine ⟨⟨hkept, fun j thread hthread => ?_⟩, hstep⟩
          by_cases hj : j = i
          · subst hj
            simp only [Function.update_self, Option.mem_some_iff] at hthread
            subst hthread
            exact ⟨hlater _ _ _ hstep hold.1, hrest⟩
          · simp only [Function.update_of_ne hj] at hthread
            have hother := htame j thread hthread
            exact ⟨hlater _ _ _ hstep hother.1, hother.2.later hstep fun _ _ _ => trivial⟩
  | drop i =>
      refine ⟨⟨hnow, fun j thread hthread => ?_⟩, L.refl _⟩
      by_cases hj : j = i
      · subst hj
        simp only [Pool.after, Function.update_self] at hthread
        cases hthread
      · simp only [Pool.after, Function.update_of_ne hj] at hthread
        exact htame j thread hthread

/-- A pool on which no thread is at work. -/
theorem orderly_origin {origin : σ} (h : L.holds origin) :
    Orderly G T (⟨origin, fun _ => none⟩ : Pool σ κ ε τ) :=
  ⟨h, fun _ _ hthread => absurd hthread (by simp)⟩

/-- Where every program that is begun is safe, the law holds in every run. -/
theorem keeps {origin : σ} {C : Pool σ κ ε τ → Turn μ → Pool σ κ ε τ → Prop}
    (horigin : L.holds origin) (hlater : ∀ s t tag, L.since s t → T s tag → T t tag)
    (hstart : ∀ s i move t, C s (.begin i move) t → L.holds s.now → L.since origin s.now →
      (∀ old ∈ s.threads i, Tame G T s.now old) →
      ∀ new ∈ start move s.now (s.threads i), Tame G T s.now new)
    {trace : List (Taken (Pool σ κ ε τ) (Turn μ))} {s : Pool σ κ ε τ}
    (h : (system exec start origin).Run trace s) (hC : System.Meets C trace) :
    L.holds s.now ∧ L.since origin s.now := by
  have hall : Orderly G T s ∧ L.since origin s.now := by
    refine h.invariant_of_meets (I := fun s => Orderly G T s ∧ L.since origin s.now) ?_ ?_ hC
    · rintro _ rfl
      exact ⟨orderly_origin horigin, L.refl origin⟩
    · rintro s turn _ ⟨horderly, hsince⟩ hturn rfl
      obtain ⟨hkept, hstep⟩ := horderly.after hlater turn fun i move hmove => by
        subst hmove
        exact hstart s i move _ hturn horderly.1 hsince (horderly.2 i)
      exact ⟨hkept, L.trans hsince hstep⟩
  exact ⟨hall.1.1, hall.2⟩

end Pool
end Base
