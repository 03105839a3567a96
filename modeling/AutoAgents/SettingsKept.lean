import AutoAgents.SettingsCalls

/-! What the calls leave behind: when the settings file is again what it was, and when each CLI found the
model of its own call in it. -/

namespace AutoAgents.Antigravity

open Base (Json FloatText FloatLiteral System setField decode hexValue lookup_setField_self)

variable {φ : Type} [FloatText φ] {ι : Type} {calls : ι → Call} {initial : Option Bytes}

/-! ### What the file shows -/

variable (φ) in
/-- The text of an object with this model. -/
def Names (file : Option Bytes) (model : String) : Prop :=
  ∃ fields : List (String × Json φ), file = some (utf8 (dumps φ fields)) ∧ fields.lookup "model" = some (.str model)

theorem names_updated (fields : List (String × Json φ)) (model : String) :
    Names φ (some (utf8 (updated fields model))) model :=
  ⟨setField fields "model" (.str model), rfl, lookup_setField_self fields⟩

variable (φ) in
/-- The file of the beginning, or settings with the model of a call. -/
def Shows (calls : ι → Call) (initial file : Option Bytes) : Option ι → Prop
  | none => file = initial
  | some j => Names φ file (calls j).model

/-- No call is between its beginning and its end. -/
def Quiet (s : State ι) : Prop := ∀ i, (s.phase i).underway = false

/-- What is read of a readable file is kept, and what a call writes has its model. -/
theorem prepared_utf8 {text : Text} (hplain : '\r' ∉ text) (model : String) :
    (prepared φ model (some (utf8 text))).underway = true ∧ (prepared φ model (some (utf8 text))).original = some text ∧
      ∀ original next, prepared φ model (some (utf8 text)) = .writing original next → Names φ (some (utf8 next)) model := by
  simp only [prepared, readText_utf8 hplain]
  split
  · refine ⟨rfl, rfl, fun original next h => ?_⟩
    obtain ⟨-, rfl⟩ := Phase.writing.inj h
    exact names_updated [] model
  · next fields _ =>
      refine ⟨rfl, rfl, fun original next h => ?_⟩
      obtain ⟨-, rfl⟩ := Phase.writing.inj h
      exact names_updated fields model
  · exact ⟨rfl, rfl, fun _ _ h => by cases h⟩

/-! ### The condition -/

/-- An escape for half of a pair of surrogates. -/
def surrogateEscape : Text → Bool
  | '\\' :: 'u' :: c :: d :: rest =>
      ((c = 'd' || c = 'D') && (hexValue d).any (8 ≤ ·)) || surrogateEscape (c :: d :: rest)
  | _ :: rest => surrogateEscape rest
  | [] => false

variable (φ) in
/-- The file is UTF-8 without a return. A text that is refused for half of a pair of surrogates is left out:
what it is could not be written as UTF-8. -/
def Readable (file : Option Bytes) : Prop :=
  ∃ text, file = some (utf8 text) ∧ '\r' ∉ text ∧
    ((decode text : Option (Json φ)).isNone = true → surrogateEscape text = false)

variable (φ) in
/-- A call reads a readable file; its CLI is started before the settings with its model are gone, unless there never
were any; and the last call to end had read the file of the beginning. -/
def Careful (calls : ι → Call) (initial : Option Bytes) (s : State ι) : Act ι → State ι → Prop
  | .reads _, _ => Readable φ s.file
  | .starts i, _ => otherJson φ initial = true ∨ ∃ j, s.shown = some j ∧ (calls j).model = (calls i).model
  | .restores i, _ => (∀ j ≠ i, (s.phase j).underway = false) → s.origin i = none
  | .writes _, _ | .ends _, _ => True

/-! ### What is kept -/

variable (φ) in
/-- The file shows what it is said to show; each call keeps what its reading showed; and every CLI found its model. -/
structure Kept (calls : ι → Call) (initial : Option Bytes) (s : State ι) : Prop where
  shows : Shows φ calls initial s.file s.shown
  held : ∀ i, (s.phase i).underway = true →
    ∃ text, (s.phase i).original = some text ∧ Shows φ calls initial (some (utf8 text)) (s.origin i)
  next : ∀ i original text, s.phase i = .writing original text → Names φ (some (utf8 text)) (calls i).model
  found : otherJson φ initial = false → ∀ e ∈ s.seen, Names φ e.2 (calls e.1).model
  quiet : Quiet s → s.file = initial

theorem kept_begun : Kept φ calls initial (begun initial) where
  shows := rfl
  held _ h := by simp [begun, Phase.underway] at h
  next _ _ _ h := by cases h
  found _ _ h := absurd h List.not_mem_nil
  quiet _ := rfl

variable [DecidableEq ι]

theorem enter_self (s : State ι) (i : ι) (p : Phase) : (s.enter i p).phase i = p := by
  simp [State.enter]

theorem enter_of_ne (s : State ι) {i j : ι} (h : j ≠ i) (p : Phase) : (s.enter i p).phase j = s.phase j := by
  simp [State.enter, h]

/-- A call that goes on keeps what it has read. -/
theorem Kept.held_enter {s : State ι} (hs : Kept φ calls initial s) {i : ι} {p : Phase} (hi : (s.phase i).underway = true)
    (horiginal : p.original = (s.phase i).original) (j : ι) (hj : ((s.enter i p).phase j).underway = true) :
    ∃ text, ((s.enter i p).phase j).original = some text ∧ Shows φ calls initial (some (utf8 text)) (s.origin j) := by
  by_cases hji : j = i
  · rw [hji, enter_self, horiginal]
    exact hs.held i hi
  · rw [enter_of_ne s hji] at hj ⊢
    exact hs.held j hj

theorem Kept.next_enter {s : State ι} (hs : Kept φ calls initial s) {i : ι} {p : Phase}
    (hp : ∀ original text, p = .writing original text → Names φ (some (utf8 text)) (calls i).model) (j : ι)
    (original : Option Text) (text : Text) (hj : (s.enter i p).phase j = .writing original text) :
    Names φ (some (utf8 text)) (calls j).model := by
  by_cases hji : j = i
  · rw [hji, enter_self] at hj
    rw [hji]
    exact hp original text hj
  · rw [enter_of_ne s hji] at hj
    exact hs.next j original text hj

theorem kept_reads {s : State ι} {i : ι} (hs : Kept φ calls initial s) (hreadable : Readable φ s.file) :
    Kept φ calls initial
      { s.enter i (prepared φ (calls i).model s.file) with origin := Function.update s.origin i s.shown } := by
  obtain ⟨text, hfile, hplain, -⟩ := hreadable
  obtain ⟨hunderway, horiginal, hnext⟩ := prepared_utf8 (φ := φ) hplain (calls i).model
  rw [← hfile] at hunderway horiginal hnext
  refine ⟨hs.shows, fun j hj => ?_, hs.next_enter hnext, hs.found, fun hquiet => ?_⟩
  · by_cases hji : j = i
    · subst hji
      refine ⟨text, (congrArg Phase.original (enter_self s j _)).trans horiginal, ?_⟩
      have hshows := hs.shows
      rw [hfile] at hshows
      simpa using hshows
    · have hphase := enter_of_ne s hji (prepared φ (calls i).model s.file)
      have horigin : Function.update s.origin i s.shown j = s.origin j := Function.update_of_ne hji _ _
      simp only [hphase, horigin] at hj ⊢
      exact hs.held j hj
  · have hi := hquiet i
    simp only [enter_self, hunderway] at hi
    cases hi

theorem kept_writes {s : State ι} {i : ι} {original : Option Text} {text : Text} (hs : Kept φ calls initial s)
    (hphase : s.phase i = .writing original text) :
    Kept φ calls initial { s.enter i (.ready original) with file := some (utf8 text), shown := some i } := by
  have hi : (s.phase i).underway = true := by rw [hphase]; rfl
  have horiginal : (Phase.ready original).original = (s.phase i).original := by rw [hphase]; rfl
  refine ⟨hs.next i original text hphase, hs.held_enter hi horiginal, hs.next_enter (fun _ _ h => by cases h), hs.found, ?_⟩
  intro hquiet
  have hready := hquiet i
  simp only [enter_self] at hready
  cases hready

theorem kept_starts {s : State ι} {i : ι} {original : Option Text} (hs : Kept φ calls initial s)
    (hphase : s.phase i = .ready original)
    (hshown : otherJson φ initial = true ∨ ∃ j, s.shown = some j ∧ (calls j).model = (calls i).model) :
    Kept φ calls initial { s.enter i (.running original) with seen := (i, s.file) :: s.seen } := by
  have hi : (s.phase i).underway = true := by rw [hphase]; rfl
  have horiginal : (Phase.running original).original = (s.phase i).original := by rw [hphase]; rfl
  refine ⟨hs.shows, hs.held_enter hi horiginal, hs.next_enter (fun _ _ h => by cases h), fun hobject e he => ?_, ?_⟩
  · rcases List.mem_cons.mp he with rfl | hold
    · obtain hother | ⟨j, hj, hmodel⟩ := hshown
      · rw [hobject] at hother
        cases hother
      · have hshows := hs.shows
        rw [hj] at hshows
        simpa only [hmodel] using (show Names φ s.file (calls j).model from hshows)
    · exact hs.found hobject e hold
  · intro hquiet
    have hrunning := hquiet i
    simp only [enter_self] at hrunning
    cases hrunning

theorem kept_ends {s : State ι} {i : ι} {original : Option Text} (hs : Kept φ calls initial s)
    (hphase : s.phase i = .running original) : Kept φ calls initial (s.enter i (.restoring original)) := by
  have hi : (s.phase i).underway = true := by rw [hphase]; rfl
  have horiginal : (Phase.restoring original).original = (s.phase i).original := by rw [hphase]; rfl
  refine ⟨hs.shows, hs.held_enter hi horiginal, hs.next_enter (fun _ _ h => by cases h), hs.found, ?_⟩
  intro hquiet
  have hrestoring := hquiet i
  simp only [enter_self] at hrestoring
  cases hrestoring

theorem kept_restores {s : State ι} {i : ι} {text : Text} (hs : Kept φ calls initial s)
    (hphase : s.phase i = .restoring (some text))
    (hlast : (∀ j ≠ i, (s.phase j).underway = false) → s.origin i = none) :
    Kept φ calls initial { s.enter i .ended with file := some (utf8 text), shown := s.origin i } := by
  have hi : (s.phase i).underway = true := by rw [hphase]; rfl
  obtain ⟨kept, hkept, hshows⟩ := hs.held i hi
  obtain rfl : text = kept := by
    rw [hphase] at hkept
    exact Option.some.inj hkept
  refine ⟨hshows, fun j hj => ?_, hs.next_enter (fun _ _ h => by cases h), hs.found, fun hquiet => ?_⟩
  · by_cases hji : j = i
    · subst hji
      simp only [enter_self] at hj
      cases hj
    · have hother := enter_of_ne s hji .ended
      simp only [hother] at hj ⊢
      exact hs.held j hj
  · have hfirst : s.origin i = none := by
      apply hlast
      intro j hji
      have hj := hquiet j
      simpa only [enter_of_ne s hji] using hj
    rw [hfirst] at hshows
    exact hshows

theorem kept_step {s t : State ι} {a : Act ι} (hs : Kept φ calls initial s) (hcareful : Careful φ calls initial s a t)
    (h : step φ calls s a = some t) : Kept φ calls initial t := by
  obtain ⟨i, rfl, -, rfl⟩ | ⟨i, original, text, rfl, hphase, rfl⟩ | ⟨i, original, rfl, hphase, rfl⟩ |
    ⟨i, original, rfl, hphase, rfl⟩ | ⟨i, rfl, hphase, rfl⟩ | ⟨i, text, rfl, hphase, rfl⟩ := step_cases h
  · exact kept_reads hs hcareful
  · exact kept_writes hs hphase
  · exact kept_starts hs hphase hcareful
  · exact kept_ends hs hphase
  · -- a call that is underway has read a text
    obtain ⟨text, htext, -⟩ := hs.held i (by rw [hphase]; rfl)
    rw [hphase] at htext
    cases htext
  · exact kept_restores hs hphase hcareful

theorem update_unit (f : Unit → Phase) (i : Unit) (p : Phase) : Function.update f i p = fun _ => p := by
  funext j
  exact Function.update_self i p f

/-- A call from its reading to its end. -/
theorem alone_run (call : Call) {original : Option Text} {text : Text} {file : Option Bytes}
    (hprepared : prepared φ call.model initial = .writing original text)
    (hfile : file = some (utf8 (original.getD text))) :
    ∃ trace s, System.Run (overlapping φ (fun _ : Unit => call) initial) trace s ∧ (∀ i, s.phase i = .ended) ∧
      s.file = file ∧ s.seen = [((), some (utf8 text))] ∧
      (Readable φ initial → System.Meets (Careful φ (fun _ : Unit => call) initial) trace) := by
  have hread : step φ (fun _ : Unit => call) (begun initial) (.reads ()) =
      some ⟨initial, fun _ => .writing original text, [], none, fun _ => none⟩ := by
    simp [step, begun, State.enter, hprepared, update_unit]
  have hwrite : step φ (fun _ : Unit => call) ⟨initial, fun _ => .writing original text, [], none, fun _ => none⟩
      (.writes ()) = some ⟨some (utf8 text), fun _ => .ready original, [], some (), fun _ => none⟩ := by
    simp [step, State.enter, update_unit]
  have hstart : step φ (fun _ : Unit => call) ⟨some (utf8 text), fun _ => .ready original, [], some (), fun _ => none⟩
      (.starts ()) = some ⟨some (utf8 text), fun _ => .running original, [((), some (utf8 text))], some (), fun _ => none⟩ := by
    simp [step, State.enter, update_unit]
  have hend : step φ (fun _ : Unit => call)
      ⟨some (utf8 text), fun _ => .running original, [((), some (utf8 text))], some (), fun _ => none⟩ (.ends ()) =
      some ⟨some (utf8 text), fun _ => .restoring original, [((), some (utf8 text))], some (), fun _ => none⟩ := by
    simp [step, State.enter, update_unit]
  have hrestore : ∃ shown, step φ (fun _ : Unit => call)
      ⟨some (utf8 text), fun _ => .restoring original, [((), some (utf8 text))], some (), fun _ => none⟩ (.restores ()) =
      some ⟨file, fun _ => .ended, [((), some (utf8 text))], shown, fun _ => none⟩ := by
    cases original with
    | none => exact ⟨some (), by simp [step, State.enter, update_unit, hfile]⟩
    | some kept => exact ⟨none, by simp [step, State.enter, update_unit, hfile]⟩
  obtain ⟨shown, hrestore⟩ := hrestore
  have hrun := (((((System.Run.start rfl : System.Run (overlapping φ (fun _ : Unit => call) initial) [] (begun initial)).step
    hread).step hwrite).step hstart).step hend).step hrestore
  refine ⟨_, _, hrun, fun _ => rfl, rfl, rfl, fun hreadable e he => ?_⟩
  simp only [List.nil_append, List.cons_append, List.mem_cons, List.not_mem_nil, or_false] at he
  obtain rfl | rfl | rfl | rfl | rfl := he
  · exact hreadable
  · trivial
  · exact Or.inr ⟨(), rfl, rfl⟩
  · trivial
  · exact fun _ => rfl

/-- A call of an effort that the profiles give a model. -/
def deepCall : Call where
  provider := ⟨[], [("deep", "Gemini 3.5 Flash (High)")], []⟩
  effort := "deep"
  model := "Gemini 3.5 Flash (High)"
  selected := rfl
  named := by decide
  noFlag := rfl

theorem prepared_braces (model : String) : prepared FloatLiteral model (some (utf8 ['\x7b', '\x7d'])) =
    .writing (some ['\x7b', '\x7d']) (updated ([] : List (String × Json FloatLiteral)) model) := by
  have hdecode : (decode ['\x7b', '\x7d'] : Option (Json FloatLiteral)) = some (.obj []) := rfl
  simp only [prepared, readText_utf8 (show '\r' ∉ ['\x7b', '\x7d'] by decide), hdecode]

end AutoAgents.Antigravity
