import AutoAgents.VitestCache

/-! Rewriting simple commands in place: longer pieces are found again where the shorter ones stood. -/

namespace AutoAgents.Commands

open Base.Shell
open Operator (isSpace)

/-! ### The first simple command -/

def Cut.front (a : List Char) (cut : Cut) : Cut := { cut with piece := a ++ cut.piece }

theorem Cut.front_cons (c : Char) (a : List Char) (cut : Cut) : (cut.front a).cons c = cut.front (c :: a) := rfl

/-- A text is its first simple command, the separator and the rest. -/
theorem firstSpan_text {before : Option Char} {s : Quoting} {text : List Char} {cut : Cut}
    (h : firstSpan before s text = some cut) : text = cut.piece ++ (cut.separator ++ cut.rest.getD []) := by
  have hcons : ∀ {before s c rest cut}, (firstSpan before s rest).map (Cut.cons c) = some cut →
      (∀ {cut}, firstSpan before s rest = some cut → rest = cut.piece ++ (cut.separator ++ cut.rest.getD [])) →
      c :: rest = cut.piece ++ (cut.separator ++ cut.rest.getD []) := by
    intro before s c rest cut hmap hrest
    obtain ⟨later, hlater, rfl⟩ := Option.map_eq_some_iff.mp hmap
    exact congrArg (c :: ·) (hrest hlater)
  induction text generalizing before s cut with
  | nil =>
    rw [firstSpan.eq_def] at h
    dsimp only at h
    split at h
    · cases h
      rfl
    · cases h
  | cons c rest ih =>
    rw [firstSpan.eq_def] at h
    cases s with
    | plain =>
      dsimp only at h
      split at h
      · cases h
      · split at h
        · cases h
          unfold cutComment
          split
          · simp
          · next newline later hdrop =>
            have hparts := List.takeWhile_append_dropWhile (p := (· != '\n')) (l := c :: rest)
            rw [hdrop] at hparts
            simpa using hparts.symm
        · split at h
          · cases h
            have hparts := List.takeWhile_append_dropWhile (p := (· == c)) (l := rest)
            simp [cutSeparator, hparts]
          · exact hcons h ih
    | quoted q =>
      dsimp only at h
      split at h
      · cases h
      · exact hcons h ih
    | escaped back => exact hcons h ih

/-- One character more in front of a piece. -/
theorem front_cons {b x sep : List Char} {r : Option (List Char)} {before : Option Char} {c : Char} {a : List Char}
    {s : Quoting}
    (h : firstSpan (a.getLast?.or (some c)) .plain b = some ⟨x, sep, r⟩ ∧
      ∀ b', firstSpan (some c) s (a ++ b') = (firstSpan (a.getLast?.or (some c)) .plain b').map (Cut.front a)) :
    firstSpan ((c :: a).getLast?.or before) .plain b = some ⟨x, sep, r⟩ ∧
      ∀ b', (firstSpan (some c) s (a ++ b')).map (Cut.cons c) =
        (firstSpan ((c :: a).getLast?.or before) .plain b').map (Cut.front (c :: a)) := by
  have hlast : (c :: a).getLast?.or before = a.getLast?.or (some c) := by
    cases a with
    | nil => rfl
    | cons d a => rw [List.getLast?_cons_cons, List.getLast?_eq_some_getLast (List.cons_ne_nil d a), Option.some_or, Option.some_or]
  rw [hlast]
  refine ⟨h.1, fun b' => ?_⟩
  rw [h.2, Option.map_map]
  rfl

/-- A front that ends outside quotes stays in the piece, whatever follows. -/
theorem firstSpan_front {a b x sep : List Char} {r : Option (List Char)} {before : Option Char} {s : Quoting}
    (hstate : s.run a = .plain) (h : firstSpan before s (a ++ b) = some ⟨a ++ x, sep, r⟩) :
    firstSpan (a.getLast?.or before) .plain b = some ⟨x, sep, r⟩ ∧
      ∀ b', firstSpan before s (a ++ b') = (firstSpan (a.getLast?.or before) .plain b').map (Cut.front a) := by
  have hinner : ∀ {c : Char} {a : List Char} {s : Quoting}, (firstSpan (some c) s (a ++ b)).map (Cut.cons c) =
      some ⟨c :: a ++ x, sep, r⟩ → firstSpan (some c) s (a ++ b) = some ⟨a ++ x, sep, r⟩ := by
    intro c a s hmap
    obtain ⟨⟨piece, separator, rest⟩, hlater, heq⟩ := Option.map_eq_some_iff.mp hmap
    simp only [Cut.cons, Cut.mk.injEq, List.cons_append, List.cons.injEq, true_and] at heq
    obtain ⟨rfl, rfl, rfl⟩ := heq
    exact hlater
  induction a generalizing before s with
  | nil =>
    change s = .plain at hstate
    subst hstate
    refine ⟨h, fun b' => ?_⟩
    have hid : ∀ o : Option Cut, o.map (Cut.front []) = o := by
      intro o
      cases o <;> rfl
    rw [hid]
    rfl
  | cons c a ih =>
    have hrun : (s.step c).run a = .plain := hstate
    rw [List.cons_append, firstSpan.eq_def] at h
    cases s with
    | plain =>
      dsimp only at h
      split at h
      · cases h
      · next hnested =>
        split at h
        · unfold cutComment at h
          split at h <;> cases h
        · next hcomment =>
          split at h
          · cases h
          · next hseparates =>
            obtain ⟨hhere, hall⟩ := front_cons (ih hrun (hinner h))
            refine ⟨hhere, fun b' => ?_⟩
            rw [List.cons_append, firstSpan.eq_def]
            dsimp only
            rw [if_neg hnested, if_neg hcomment, if_neg hseparates]
            exact hall b'
    | quoted q =>
      dsimp only at h
      split at h
      · cases h
      · next hnested =>
        obtain ⟨hhere, hall⟩ := front_cons (ih hrun (hinner h))
        refine ⟨hhere, fun b' => ?_⟩
        rw [List.cons_append, firstSpan.eq_def]
        dsimp only
        have hnested' : ¬ (q = '"' ∧ (c = '\x60' ∨ c = '$' ∧ (a ++ b').head? = some '(')) := by
          rintro ⟨hq, hc | ⟨hc, hhead⟩⟩
          · exact hnested ⟨hq, .inl hc⟩
          · cases a with
            | nil =>
              subst hc hq
              cases hrun
            | cons d a => exact hnested ⟨hq, .inr ⟨hc, hhead⟩⟩
        rw [if_neg hnested']
        exact hall b'
    | escaped back =>
      obtain ⟨hhere, hall⟩ := front_cons (ih hrun (hinner h))
      refine ⟨hhere, fun b' => ?_⟩
      rw [List.cons_append, firstSpan.eq_def]
      exact hall b'

theorem takeWhile_front {p : Char → Bool} {w rest : List Char} (h : ∀ c ∈ w, p c = true) (hrest : rest.head?.all (!p ·) = true) :
    (w ++ rest).takeWhile p = w ∧ (w ++ rest).dropWhile p = rest := by
  have hstop : rest.takeWhile p = [] ∧ rest.dropWhile p = rest := by
    cases rest with
    | nil => exact ⟨rfl, rfl⟩
    | cons c rest =>
      have hc : p c = false := by simpa using hrest
      rw [List.takeWhile_cons_of_neg (by simp [hc]), List.dropWhile_cons_of_neg (by simp [hc])]
      exact ⟨rfl, rfl⟩
  rw [List.takeWhile_append_of_pos h, List.dropWhile_append_of_pos h, hstop.1, hstop.2, List.append_nil]
  exact ⟨rfl, rfl⟩

theorem cutComment_rest {text sep rest rest' : List Char} (h : cutComment text = ⟨[], sep, some rest⟩) :
    sep ≠ [] ∧ cutComment (sep ++ rest') = ⟨[], sep, some rest'⟩ := by
  unfold cutComment at h
  split at h
  · cases h
  · next newline later hdrop =>
    cases h
    have hnewline : (newline != '\n') = false := by
      have hhead := List.head?_dropWhile_not (· != '\n') text
      rw [hdrop] at hhead
      simpa using hhead
    have hwhile : ∀ c ∈ text.takeWhile (· != '\n'), (c != '\n') = true := fun c hc => List.mem_takeWhile_imp (p := (· != '\n')) hc
    obtain ⟨htake, hrest⟩ := @takeWhile_front (· != '\n') _ (newline :: rest') hwhile (by simpa using hnewline)
    refine ⟨by simp, ?_⟩
    rw [List.append_assoc, List.singleton_append, cutComment, hrest]
    simp only [htake]

theorem cutSeparator_rest {c : Char} {text sep rest rest' : List Char} (h : cutSeparator c text = ⟨[], sep, some rest⟩)
    (hhead : rest'.head? = rest.head?) :
    ∃ run, sep = c :: run ∧ cutSeparator c (run ++ rest') = ⟨[], sep, some rest'⟩ := by
  cases h
  refine ⟨_, rfl, ?_⟩
  have hwhile : ∀ d ∈ text.takeWhile (· == c), (d == c) = true := fun d hd => List.mem_takeWhile_imp (p := (· == c)) hd
  have hstop : rest'.head?.all (fun d => !(d == c)) = true := by
    rw [hhead]
    have hnot := List.head?_dropWhile_not (· == c) text
    cases hdrop : (text.dropWhile (· == c)).head? with
    | none => rfl
    | some d =>
      rw [hdrop] at hnot
      simpa using hnot
  obtain ⟨htake, hdrop⟩ := takeWhile_front hwhile hstop
  rw [cutSeparator, htake, hdrop]

/-- What follows a separator does not matter to the piece, but for its first character. -/
theorem firstSpan_rest {p sep rest rest' : List Char} {before : Option Char} {s : Quoting}
    (h : firstSpan before s (p ++ (sep ++ rest)) = some ⟨p, sep, some rest⟩) (hhead : rest'.head? = rest.head?) :
    sep ≠ [] ∧ firstSpan before s (p ++ (sep ++ rest')) = some ⟨p, sep, some rest'⟩ := by
  have hnever : ∀ {c : Char} {o : Option Cut}, o.map (Cut.cons c) ≠ some ⟨[], sep, some rest⟩ := by
    intro c o hmap
    obtain ⟨later, -, heq⟩ := Option.map_eq_some_iff.mp hmap
    cases heq
  induction p generalizing before s with
  | nil =>
    rw [List.nil_append] at h ⊢
    have htext := firstSpan_text h
    cases hparts : sep ++ rest with
    | nil =>
      rw [hparts, firstSpan.eq_def] at h
      dsimp only at h
      split at h <;> cases h
    | cons c later =>
      rw [hparts, firstSpan.eq_def] at h
      cases s with
      | plain =>
        dsimp only at h
        split at h
        · cases h
        · next hnested =>
          split at h
          · next hcomment =>
            obtain ⟨hne, hcut⟩ := @cutComment_rest (c :: later) sep rest rest' (Option.some.inj h)
            refine ⟨hne, ?_⟩
            cases sep with
            | nil => exact absurd rfl hne
            | cons d sep =>
              obtain rfl : d = c := by simpa using congrArg List.head? hparts
              rw [List.cons_append, firstSpan.eq_def]
              dsimp only
              rw [if_neg hnested, if_pos hcomment]
              exact congrArg some hcut
          · next hcomment =>
            split at h
            · next hseparates =>
              obtain ⟨run, rfl, hcut⟩ := cutSeparator_rest (Option.some.inj h) hhead
              refine ⟨List.cons_ne_nil c run, ?_⟩
              rw [List.cons_append, firstSpan.eq_def]
              dsimp only
              rw [if_neg hnested, if_neg hcomment, if_pos hseparates]
              exact congrArg some hcut
            · exact absurd h hnever
      | quoted q =>
        dsimp only at h
        split at h
        · cases h
        · exact absurd h hnever
      | escaped back => exact absurd h hnever
  | cons c p ih =>
    have hinner : ∀ {s : Quoting}, (firstSpan (some c) s (p ++ (sep ++ rest))).map (Cut.cons c) = some ⟨c :: p, sep, some rest⟩ →
        firstSpan (some c) s (p ++ (sep ++ rest)) = some ⟨p, sep, some rest⟩ := by
      intro s hmap
      obtain ⟨⟨piece, separator, after⟩, hlater, heq⟩ := Option.map_eq_some_iff.mp hmap
      simp only [Cut.cons, Cut.mk.injEq, List.cons.injEq, true_and] at heq
      obtain ⟨rfl, rfl, rfl⟩ := heq
      exact hlater
    rw [List.cons_append, firstSpan.eq_def] at h
    rw [List.cons_append, firstSpan.eq_def]
    cases s with
    | plain =>
      dsimp only at h ⊢
      split at h
      · cases h
      · next hnested =>
        rw [if_neg hnested]
        split at h
        · unfold cutComment at h
          split at h <;> cases h
        · next hcomment =>
          rw [if_neg hcomment]
          split at h
          · cases h
          · next hseparates =>
            rw [if_neg hseparates]
            obtain ⟨hne, hspan⟩ := ih (hinner h)
            rw [hspan]
            exact ⟨hne, rfl⟩
    | quoted q =>
      dsimp only at h ⊢
      split at h
      · cases h
      · next hnested =>
        obtain ⟨hne, hspan⟩ := ih (hinner h)
        have hsame : (p ++ (sep ++ rest')).head? = (p ++ (sep ++ rest)).head? := by
          cases p with
          | nil =>
            cases sep with
            | nil => exact absurd rfl hne
            | cons d sep => rfl
          | cons d p => rfl
        rw [hsame, if_neg hnested, hspan]
        exact ⟨hne, rfl⟩
    | escaped back =>
      dsimp only at h ⊢
      obtain ⟨hne, hspan⟩ := ih (hinner h)
      rw [hspan]
      exact ⟨hne, rfl⟩

/-! ### Characters without meaning -/

/-- Characters that neither end a simple command nor change the quoting. -/
def inert (c : Char) : Bool :=
  !(['(', ')', '\x60', '#', ';', '|', '&', '\n', '\\', '"', '\''].contains c)

theorem firstSpan_cons {c : Char} (h : inert c = true) (before : Option Char) (b : List Char) :
    firstSpan before .plain (c :: b) = (firstSpan (some c) .plain b).map (Cut.cons c) := by
  simp only [inert, List.contains_cons, List.contains_nil, Bool.or_false, Bool.not_or, Bool.and_eq_true, Bool.not_eq_true',
    beq_eq_false_iff_ne, ne_eq] at h
  obtain ⟨hopen, hclose, htick, hcomment, hsemicolon, hbar, hand, hnewline, hescape, hdouble, hsingle⟩ := h
  have hstep : Quoting.plain.step c = .plain := by simp [Quoting.step, isQuote, hescape, hdouble, hsingle]
  have hstays : opensComment before c = false := by simp [opensComment, hcomment]
  have hin : separates before c = false := by simp [separates, hsemicolon, hbar, hand, hnewline]
  rw [firstSpan.eq_def]
  dsimp only
  rw [if_neg (by simp [hopen, hclose, htick]), hstays, hin, hstep]
  rfl

theorem firstSpan_inert {w : List Char} (h : ∀ c ∈ w, inert c = true) (before : Option Char) (b : List Char) :
    firstSpan before .plain (w ++ b) = (firstSpan (w.getLast?.or before) .plain b).map (Cut.front w) := by
  induction w generalizing before with
  | nil =>
    have hid : ∀ o : Option Cut, o.map (Cut.front []) = o := by
      intro o
      cases o <;> rfl
    rw [hid]
    rfl
  | cons c w ih =>
    have hlast : (c :: w).getLast?.or before = w.getLast?.or (some c) := by
      cases w with
      | nil => rfl
      | cons d w => rw [List.getLast?_cons_cons, List.getLast?_eq_some_getLast (List.cons_ne_nil d w), Option.some_or, Option.some_or]
    rw [List.cons_append, firstSpan_cons (h c List.mem_cons_self), ih fun d hd => h d (List.mem_cons_of_mem c hd), hlast,
      Option.map_map]
    rfl

/-! ### A longer piece -/

theorem inert_of_space {c : Char} (hspace : isSpace c = true) (hnewline : c ≠ '\n') : inert c = true := by
  have hnot : ∀ d, isSpace d = false → c ≠ d := by
    rintro d hd rfl
    rw [hspace] at hd
    cases hd
  have hopen := hnot '(' rfl
  have hclose := hnot ')' rfl
  have htick := hnot '\x60' rfl
  have hcomment := hnot '#' rfl
  have hsemicolon := hnot ';' rfl
  have hbar := hnot '|' rfl
  have hand := hnot '&' rfl
  have hescape := hnot '\\' rfl
  have hdouble := hnot '"' rfl
  have hsingle := hnot '\'' rfl
  simp [inert, hopen, hclose, htick, hcomment, hsemicolon, hbar, hand, hescape, hdouble, hsingle, hnewline]

/-- White space within a simple command contains no end of a line. -/
theorem spaces_inert {ws t x sep : List Char} {r : Option (List Char)} {before : Option Char}
    (hspace : ∀ c ∈ ws, isSpace c = true) (h : firstSpan before .plain (ws ++ t) = some ⟨ws ++ x, sep, r⟩) :
    ∀ c ∈ ws, inert c = true := by
  induction ws generalizing before with
  | nil => nofun
  | cons c ws ih =>
    have hnewline : c ≠ '\n' := by
      rintro rfl
      rw [List.cons_append, firstSpan.eq_def] at h
      have hcomment : opensComment before '\n' = false := rfl
      have hseparates : separates before '\n' = true := rfl
      simp only [hcomment, hseparates, Char.reduceEq, or_self, if_false, Bool.false_eq_true, if_true] at h
      cases h
    have hinert := inert_of_space (hspace c List.mem_cons_self) hnewline
    rw [List.cons_append, firstSpan_cons hinert] at h
    obtain ⟨⟨piece, separator, rest⟩, hlater, heq⟩ := Option.map_eq_some_iff.mp h
    simp only [Cut.cons, Cut.mk.injEq, List.cons_append, List.cons.injEq, true_and] at heq
    obtain ⟨rfl, rfl, rfl⟩ := heq
    rintro d (_ | ⟨_, hd⟩)
    · exact hinert
    · exact ih (fun d hd => hspace d (List.mem_cons_of_mem c hd)) hlater d hd

/-- Behind a character that is no white space, a piece ends where it ended behind another one. -/
theorem firstSpan_behind {ws t sep : List Char} {r : Option (List Char)} {d e : Char} (hspace : ∀ c ∈ ws, isSpace c = true)
    (hd : isSpace d = false) (he : isSpace e = false ∧ e ≠ '<' ∧ e ≠ '>')
    (h : firstSpan (some d) .plain (ws ++ t) = some ⟨ws, sep, r⟩) :
    firstSpan (some e) .plain (ws ++ t) = some ⟨ws, sep, r⟩ := by
  have hinert : ∀ c ∈ ws, inert c = true := by
    refine @spaces_inert ws t [] sep r (some d) hspace ?_
    rw [List.append_nil]
    exact h
  cases ws with
  | cons w ws =>
    rw [firstSpan_inert hinert] at h ⊢
    have hlast : ∀ before : Option Char, (w :: ws).getLast?.or before = (w :: ws).getLast? := by
      intro before
      rw [List.getLast?_eq_some_getLast (List.cons_ne_nil w ws), Option.some_or]
    rw [hlast] at h ⊢
    exact h
  | nil =>
    rw [List.nil_append] at h ⊢
    cases t with
    | nil => exact h
    | cons c t =>
      rw [firstSpan.eq_def] at h ⊢
      dsimp only at h ⊢
      have hcomment : ∀ {x : Char}, isSpace x = false → opensComment (some x) c = false := by
        intro x hx
        simp [opensComment, hx]
      rw [hcomment hd] at h
      rw [hcomment he.1]
      split at h
      · cases h
      · next hnested =>
        rw [if_neg hnested]
        simp only [Bool.false_eq_true, if_false] at h ⊢
        split at h
        · next hseparates =>
          have hstill : separates (some e) c = true := by
            simp only [separates, Bool.and_eq_true] at hseparates
            simp [separates, hseparates.1, he.2.1, he.2.2]
          rw [if_pos hstill]
          exact h
        · obtain ⟨later, -, heq⟩ := Option.map_eq_some_iff.mp h
          cases heq

/-- The option, with the blank before it. -/
def option : List Char := ' ' :: noCache

theorem option_inert : ∀ c ∈ option, inert c = true := by
  intro c hc
  have hmem : c ∈ [' ', '-', '-', 'n', 'o', '-', 'c', 'a', 'c', 'h', 'e'] := hc
  simp only [List.mem_cons, List.not_mem_nil, or_false] at hmem
  rcases hmem with rfl | rfl | rfl | rfl | rfl | rfl | rfl | rfl | rfl | rfl | rfl <;> rfl

/-- A piece with the option before its trailing white space. -/
structure Longer (p p' : List Char) : Prop where
  text : ∃ a ws, p = a ++ ws ∧ p' = a ++ (option ++ ws) ∧ a ≠ [] ∧ Quoting.plain.run a = .plain ∧
    (∀ c, a.getLast? = some c → isSpace c = false) ∧ ∀ c ∈ ws, isSpace c = true

theorem firstSpan_longer {p p' t sep : List Char} {r : Option (List Char)} {before : Option Char} (hlonger : Longer p p')
    (h : firstSpan before .plain (p ++ t) = some ⟨p, sep, r⟩) :
    firstSpan before .plain (p' ++ t) = some ⟨p', sep, r⟩ := by
  obtain ⟨a, ws, rfl, rfl, hne, hstate, hlast, hspace⟩ := hlonger.text
  rw [List.append_assoc] at h
  obtain ⟨hhere, hall⟩ := firstSpan_front hstate h
  have hend : a.getLast?.or before = some (a.getLast hne) := by
    rw [List.getLast?_eq_some_getLast hne, Option.some_or]
  rw [hend] at hhere hall
  have hbehind := @firstSpan_behind ws t sep r (a.getLast hne) 'e' hspace
    (hlast _ (List.getLast?_eq_some_getLast hne)) ⟨rfl, by decide, by decide⟩ hhere
  rw [List.append_assoc, List.append_assoc, hall, firstSpan_inert option_inert]
  have hoption : option.getLast?.or (some (a.getLast hne)) = some 'e' := rfl
  rw [hoption, hbehind]
  rfl

/-! ### All simple commands -/

/-- The simple commands of a text, without a bound on their number. -/
inductive Spans : Option Char → List Char → List (List Char × List Char) → Prop
  | last {before : Option Char} {text p sep : List Char} :
      firstSpan before .plain text = some ⟨p, sep, none⟩ → Spans before text [(p, sep)]
  | next {before : Option Char} {text p sep rest : List Char} {spans : List (List Char × List Char)} :
      firstSpan before .plain text = some ⟨p, sep, some rest⟩ → Spans sep.getLast? rest spans →
      Spans before text ((p, sep) :: spans)

theorem spans_of_spansFrom {fuel : Nat} {before : Option Char} {text : List Char} {spans : List (List Char × List Char)}
    (h : spansFrom fuel before text = some spans) : Spans before text spans := by
  induction fuel generalizing before text spans with
  | zero => cases h
  | succ fuel ih =>
    rw [spansFrom] at h
    split at h
    · cases h
    · next hspan =>
      cases h
      exact .last hspan
    · next hspan =>
      obtain ⟨later, hlater, rfl⟩ := Option.map_eq_some_iff.mp h
      exact .next hspan (ih hlater)

theorem Spans.spansFrom {fuel : Nat} {before : Option Char} {text : List Char} {spans : List (List Char × List Char)}
    (h : Spans before text spans) (hfuel : spans.length ≤ fuel) : spansFrom fuel before text = some spans := by
  induction h generalizing fuel with
  | last hspan =>
    cases fuel with
    | zero => cases hfuel
    | succ fuel => rw [Commands.spansFrom, hspan]
  | next hspan _ ih =>
    cases fuel with
    | zero => cases hfuel
    | succ fuel =>
      rw [Commands.spansFrom, hspan]
      dsimp only
      rw [ih (by simpa using hfuel)]
      rfl

theorem Spans.length_le {before : Option Char} {text : List Char} {spans : List (List Char × List Char)}
    (h : Spans before text spans) : spans.length ≤ text.length + 1 := by
  induction h with
  | last _ => simp
  | next hspan _ ih =>
    have htext := firstSpan_text hspan
    have hne := (firstSpan_rest (htext ▸ hspan) rfl).1
    have hpos := List.length_pos_of_ne_nil hne
    rw [htext]
    dsimp only at hpos
    simp only [List.length_cons, List.length_append, Option.getD_some]
    omega

theorem commandSpans_iff {command : List Char} {spans : List (List Char × List Char)} :
    commandSpans command = some spans ↔ Spans none command spans :=
  ⟨spans_of_spansFrom, fun h => h.spansFrom h.length_le⟩

/-- Longer pieces are found where the shorter ones stood. -/
theorem Spans.longer {before : Option Char} {text : List Char} {spans : List (List Char × List Char)}
    (h : Spans before text spans) {f : List Char → List Char} (hf : ∀ span ∈ spans, f span.1 = span.1 ∨ Longer span.1 (f span.1)) :
    Spans before (spans.flatMap fun span => f span.1 ++ span.2) (spans.map fun span => (f span.1, span.2)) ∧
      (spans.flatMap fun span => f span.1 ++ span.2).head? = text.head? := by
  have hpiece : ∀ {before : Option Char} {p t sep : List Char} {r : Option (List Char)}, f p = p ∨ Longer p (f p) →
      firstSpan before .plain (p ++ t) = some ⟨p, sep, r⟩ → firstSpan before .plain (f p ++ t) = some ⟨f p, sep, r⟩ := by
    intro before p t sep r hp hspan
    rcases hp with hsame | hlonger
    · rw [hsame]
      exact hspan
    · exact firstSpan_longer hlonger hspan
  have hheads : ∀ {p t t' : List Char}, f p = p ∨ Longer p (f p) → t'.head? = t.head? → (f p ++ t').head? = (p ++ t).head? := by
    intro p t t' hp ht
    rcases hp with hsame | hlonger
    · rw [hsame, List.head?_append, List.head?_append, ht]
    · obtain ⟨a, ws, hp, hp', hne, -⟩ := hlonger.text
      rw [hp', hp]
      cases a with
      | nil => exact absurd rfl hne
      | cons c a => rfl
  induction h with
  | @last before text p sep hspan =>
    have htext := firstSpan_text hspan
    simp only [Option.getD_none, List.append_nil] at htext
    have hp := hf (p, sep) List.mem_cons_self
    rw [htext] at hspan ⊢
    simp only [List.flatMap_cons, List.flatMap_nil, List.append_nil, List.map_cons, List.map_nil]
    exact ⟨.last (hpiece hp hspan), hheads hp rfl⟩
  | @next before text p sep rest spans hspan _ ih =>
    have htext := firstSpan_text hspan
    have hp := hf (p, sep) List.mem_cons_self
    obtain ⟨hlater, hhead⟩ := ih fun span hmem => hf span (List.mem_cons_of_mem _ hmem)
    rw [htext] at hspan ⊢
    obtain ⟨hne, hrest⟩ := firstSpan_rest hspan hhead
    simp only [List.flatMap_cons, List.map_cons, List.append_assoc]
    refine ⟨.next (hpiece hp hrest) hlater, hheads hp ?_⟩
    cases sep with
    | nil => exact absurd rfl hne
    | cons c sep => rfl

end AutoAgents.Commands
