import AutoAgents.BaseBounded
import AutoAgents.DiagnosticRedaction

/-! The capture of a command's output. Whole lines are redacted as they are completed and written to a file that is kept to
a size; what the file holds depends on how the lines were grouped, and on nothing else of how the text was read. -/

namespace AutoAgents.Diagnostic

open Base

/-! ### Protected values -/

/-- `sorted(set(values), key=len, reverse=True)` -/
def longestFirst (values : List Text) : List Text := values.dedup.insertionSort fun a b => b.length ≤ a.length

theorem longestFirst_ordered (values : List Text) : (longestFirst values).Pairwise fun a b => b.length ≤ a.length :=
  List.pairwise_insertionSort _ _

/-- Values that are not empty, among those protected already. -/
def Protected.add (secrets : Protected) (values : List Text) (h : ∀ value ∈ values, value ≠ []) : Protected where
  values := longestFirst (secrets.values ++ values)
  nonempty := fun value hvalue => by
    rw [longestFirst, List.mem_insertionSort, List.mem_dedup, List.mem_append] at hvalue
    exact hvalue.elim (secrets.nonempty value) (h value)
  ordered := longestFirst_ordered _

/-- `OutputCapture.protect` -/
def Protected.protect (secrets : Protected) (values : List Text) : Protected :=
  secrets.add (values.filter fun value => value != []) fun value hvalue => by simpa using (List.mem_filter.mp hvalue).2

/-! ### The file -/

def encode (text : Text) : List UInt8 := text.flatMap String.utf8EncodeChar

/-- `TRUNCATED_CAPTURE` -/
def truncatedCapture : List UInt8 := encode "[earlier diagnostic output omitted to limit disk usage]\n".toList

/-- `MAX_CAPTURE_BYTES` -/
def maxCaptureBytes : Nat := 8 * 1024 * 1024

/-- The bound of a captured file. Decoding without errors skips what is left of a character that was cut. -/
def captureBound : Bound UInt8 where
  limit := maxCaptureBytes
  mark := truncatedCapture
  skips := fun byte => !decide byte.IsUTF8FirstByte
  fits := by decide +kernel

theorem encode_append (a b : Text) : encode (a ++ b) = encode a ++ encode b := List.flatMap_append

/-- An encoded text begins with a whole character. -/
theorem encode_head (text : Text) : ∀ byte ∈ (encode text).head?, captureBound.skips byte = false := by
  intro byte hbyte
  cases text with
  | nil => cases hbyte
  | cons c text =>
      have hne := String.utf8EncodeChar_ne_nil (c := c)
      have hhead : (String.utf8EncodeChar c).head? = some byte := by
        rw [encode, List.flatMap_cons, List.head?_append_of_ne_nil _ hne] at hbyte
        exact hbyte
      have hfirst : byte.IsUTF8FirstByte := by
        rw [List.head?_eq_some_head hne, Option.some.injEq, List.head_eq_getElem] at hhead
        rw [← hhead]
        exact UInt8.isUTF8FirstByte_getElem_zero_utf8EncodeChar
      simp [captureBound, hfirst]

/-! ### Captures -/

/-- `OutputCapture`, by what is read and written of a stream: its unfinished line and its file. -/
structure Capture where
  secrets : Protected
  pending : String → Text
  files : String → List UInt8
  truncated : List String
  finished : Bool

def captureStreams : List String := ["stdout", "stderr"]

/-- The text up to its last line end. -/
def wholeLines (text : Text) : Text := (text.reverse.dropWhile (· != '\n')).reverse

/-- The text after its last line end. -/
def partLine (text : Text) : Text := (text.reverse.takeWhile (· != '\n')).reverse

namespace Capture

def new (secrets : Protected) : Capture where
  secrets
  pending _ := []
  files _ := []
  truncated := []
  finished := false

/-- The file of a stream with a text appended, before its size is looked at. -/
def grown (φ : Unicode) (c : Capture) (stream : String) (text : Text) : List UInt8 :=
  c.files stream ++ encode (redact φ c.secrets text)

/-- `_write` -/
def write (φ : Unicode) (c : Capture) (stream : String) (text : Text) : Capture :=
  if text = [] then c
  else
    { c with
      files := Function.update c.files stream (captureBound.keep (c.grown φ stream text))
      truncated :=
        if (c.grown φ stream text).length ≤ maxCaptureBytes ∨ stream ∈ c.truncated then c.truncated
        else c.truncated ++ [stream] }

/-- `__call__` -/
def call (φ : Unicode) (c : Capture) (stream : String) (chunk : Text) : Capture :=
  if stream ∉ captureStreams ∨ c.finished = true then c
  else
    { c.write φ stream (wholeLines (c.pending stream ++ chunk)) with
      pending := Function.update c.pending stream (partLine (c.pending stream ++ chunk)) }

/-- `finish` -/
def finish (φ : Unicode) (c : Capture) : Capture :=
  if c.finished = true then c
  else
    { captureStreams.foldl (fun c stream => c.write φ stream (c.pending stream)) c with
      pending := fun _ => []
      finished := true }

/-- The state after some reads of the streams. -/
def reads (φ : Unicode) (c : Capture) (calls : List (String × Text)) : Capture :=
  calls.foldl (fun c read => c.call φ read.1 read.2) c

end Capture

/-- The text of a stream in some reads. -/
def textOf (stream : String) (calls : List (String × Text)) : Text :=
  (calls.filter fun read => read.1 == stream).flatMap Prod.snd

/-- The file of a stream after some reads and the end of the capture. -/
def captured (φ : Unicode) (secrets : Protected) (stream : String) (calls : List (String × Text)) : List UInt8 :=
  (((Capture.new secrets).reads φ calls).finish φ).files stream

/-! ### Lines -/

theorem wholeLines_append_partLine (text : Text) : wholeLines text ++ partLine text = text := by
  rw [wholeLines, partLine, ← List.reverse_append, List.takeWhile_append_dropWhile, List.reverse_reverse]

theorem partLine_unbroken (text : Text) : '\n' ∉ partLine text := by
  intro hmem
  have hkept := List.mem_takeWhile_imp (List.mem_reverse.mp hmem)
  exact absurd hkept (by decide)

theorem wholeLines_last {text : Text} (h : wholeLines text ≠ []) : (wholeLines text).getLast? = some '\n' := by
  have hne : text.reverse.dropWhile (· != '\n') ≠ [] := fun hnil => h (by rw [wholeLines, hnil, List.reverse_nil])
  have hhead := List.head_dropWhile_not (· != '\n') hne
  rw [wholeLines, List.getLast?_reverse, List.head?_eq_some_head hne]
  simpa using hhead

theorem wholeLines_of_last {text : Text} (h : text.getLast? = some '\n') : wholeLines text = text ∧ partLine text = [] := by
  obtain ⟨front, rfl⟩ : ∃ front, text = front ++ ['\n'] := by
    rw [List.getLast?_eq_some_iff] at h
    exact h
  simp [wholeLines, partLine]

theorem wholeLines_unbroken {text : Text} (h : '\n' ∉ text) : wholeLines text = [] ∧ partLine text = text := by
  have hall : ∀ c ∈ text.reverse, (c != '\n') = true := fun c hc => by
    rw [bne_iff_ne]
    rintro rfl
    exact h (List.mem_reverse.mp hc)
  have htake : text.reverse.takeWhile (· != '\n') = text.reverse := List.takeWhile_eq_self_iff.mpr hall
  have hdrop : text.reverse.dropWhile (· != '\n') = [] := List.dropWhile_eq_nil_iff.mpr hall
  rw [wholeLines, partLine, htake, hdrop, List.reverse_nil, List.reverse_reverse]
  exact ⟨rfl, rfl⟩

/-! ### What is written -/

variable {φ : Unicode} {secrets : Protected} {c : Capture} {stream other : String} {text chunk rest : Text} {groups pieces : List Text}

theorem redact_nil (φ : Unicode) (secrets : Protected) : redact φ secrets [] = [] := by
  have hnil : secrets.values.foldl (fun text value => replace value redacted text) [] = [] := by
    generalize secrets.values = values
    induction values with
    | nil => rfl
    | cons value values ih => exact ih
  rw [redact, hnil]
  rfl

/-- The file of a text that was written in pieces. -/
def archived (φ : Unicode) (secrets : Protected) (pieces : List Text) : List UInt8 :=
  captureBound.keep (encode (pieces.flatMap (redact φ secrets)))

theorem archived_nil (φ : Unicode) (secrets : Protected) (pieces : List Text) :
    archived φ secrets (pieces ++ [[]]) = archived φ secrets pieces := by
  rw [archived, archived, List.flatMap_append, List.flatMap_singleton, redact_nil, List.append_nil]

theorem write_file (h : c.files stream = archived φ c.secrets pieces) (text : Text) :
    (c.write φ stream text).files stream = archived φ c.secrets (pieces ++ [text]) := by
  unfold Capture.write
  split
  · next hnil => rw [h, hnil, archived_nil]
  · show Function.update c.files stream _ stream = _
    rw [Function.update_self, Capture.grown, h, archived, archived, List.flatMap_append, List.flatMap_singleton, encode_append]
    exact Bound.append_keep (encode_head _)

theorem write_other (h : other ≠ stream) (text : Text) : (c.write φ stream text).files other = c.files other := by
  unfold Capture.write
  split
  · rfl
  · exact Function.update_of_ne h _ _

theorem write_rest (φ : Unicode) (c : Capture) (stream : String) (text : Text) : (c.write φ stream text).secrets = c.secrets ∧
    (c.write φ stream text).pending = c.pending ∧ (c.write φ stream text).finished = c.finished := by
  unfold Capture.write
  split <;> exact ⟨rfl, rfl, rfl⟩

/-- Of a stream that is read, these groups of lines are written to its file, and the line after them is not. -/
structure Tracks (φ : Unicode) (secrets : Protected) (stream : String) (c : Capture) (groups : List Text) : Prop where
  running : c.finished = false
  protects : c.secrets = secrets
  lines : ∀ group ∈ groups, group.getLast? = some '\n'
  part : '\n' ∉ c.pending stream
  file : c.files stream = archived φ secrets groups

theorem tracks_new (φ : Unicode) (secrets : Protected) (stream : String) : Tracks φ secrets stream (Capture.new secrets) [] where
  running := rfl
  protects := rfl
  lines := by simp
  part := by simp [Capture.new]
  file := rfl

theorem call_file (h : Tracks φ secrets stream c groups) (hstream : stream ∈ captureStreams) (chunk : Text) :
    (c.call φ stream chunk).files stream = archived φ secrets (groups ++ [wholeLines (c.pending stream ++ chunk)]) ∧
      (c.call φ stream chunk).pending stream = partLine (c.pending stream ++ chunk) := by
  have hgo : ¬ (stream ∉ captureStreams ∨ c.finished = true) := by simp [hstream, h.running]
  have hfile := h.file
  rw [← h.protects] at hfile ⊢
  rw [Capture.call, if_neg hgo]
  exact ⟨write_file hfile _, Function.update_self _ _ _⟩

theorem call_rest (φ : Unicode) (c : Capture) (stream : String) (chunk : Text) :
    (c.call φ stream chunk).secrets = c.secrets ∧ (c.call φ stream chunk).finished = c.finished := by
  unfold Capture.call
  split
  · exact ⟨rfl, rfl⟩
  · exact ⟨(write_rest ..).1, (write_rest ..).2.2⟩

/-- A read that completes some lines adds them as one group. -/
theorem call_line (h : Tracks φ secrets stream c groups) (hstream : stream ∈ captureStreams)
    (hlast : (wholeLines (c.pending stream ++ chunk)).getLast? = some '\n') :
    Tracks φ secrets stream (c.call φ stream chunk) (groups ++ [wholeLines (c.pending stream ++ chunk)]) := by
  obtain ⟨hfile, hpending⟩ := call_file h hstream chunk
  obtain ⟨hsecrets, hfinished⟩ := call_rest φ c stream chunk
  refine ⟨hfinished.trans h.running, hsecrets.trans h.protects, fun group hgroup => ?_, hpending ▸ partLine_unbroken _, hfile⟩
  rcases List.mem_append.mp hgroup with hgroup | hgroup
  · exact h.lines group hgroup
  · rwa [List.mem_singleton.mp hgroup]

/-- A read that completes no line is only kept. -/
theorem call_part (h : Tracks φ secrets stream c groups) (hstream : stream ∈ captureStreams)
    (hnil : wholeLines (c.pending stream ++ chunk) = []) : Tracks φ secrets stream (c.call φ stream chunk) groups := by
  obtain ⟨hfile, hpending⟩ := call_file h hstream chunk
  obtain ⟨hsecrets, hfinished⟩ := call_rest φ c stream chunk
  rw [hnil, archived_nil] at hfile
  exact ⟨hfinished.trans h.running, hsecrets.trans h.protects, h.lines, hpending ▸ partLine_unbroken _, hfile⟩

theorem call_tracks (h : Tracks φ secrets stream c groups) (hstream : stream ∈ captureStreams) (chunk : Text) :
    ∃ groups', Tracks φ secrets stream (c.call φ stream chunk) groups' ∧
      groups'.flatten ++ (c.call φ stream chunk).pending stream = groups.flatten ++ c.pending stream ++ chunk := by
  obtain ⟨-, hpending⟩ := call_file h hstream chunk
  have hcombined := wholeLines_append_partLine (c.pending stream ++ chunk)
  by_cases hnil : wholeLines (c.pending stream ++ chunk) = []
  · refine ⟨groups, call_part h hstream hnil, ?_⟩
    rw [hnil, List.nil_append] at hcombined
    rw [hpending, hcombined, List.append_assoc]
  · refine ⟨_, call_line h hstream (wholeLines_last hnil), ?_⟩
    rw [hpending, List.flatten_append, List.flatten_singleton, List.append_assoc, hcombined, List.append_assoc]

theorem call_other (h : Tracks φ secrets stream c groups) (hne : stream ≠ other) (chunk : Text) :
    Tracks φ secrets stream (c.call φ other chunk) groups ∧ (c.call φ other chunk).pending stream = c.pending stream := by
  unfold Capture.call
  split
  · exact ⟨h, rfl⟩
  · obtain ⟨hsecrets, hpending, hfinished⟩ := write_rest φ c other (wholeLines (c.pending other ++ chunk))
    have hsame : Function.update c.pending other (partLine (c.pending other ++ chunk)) stream = c.pending stream :=
      Function.update_of_ne hne _ _
    refine ⟨⟨hfinished.trans h.running, hsecrets.trans h.protects, h.lines, ?_, (write_other hne _).trans h.file⟩, hsame⟩
    show '\n' ∉ Function.update c.pending other _ stream
    rw [hsame]
    exact h.part

/-- After some reads, whole lines are in the file, by the groups in which they were completed, and the rest is pending. -/
theorem reads_tracks (h : Tracks φ secrets stream c groups) (hstream : stream ∈ captureStreams) (calls : List (String × Text)) :
    ∃ groups', Tracks φ secrets stream (c.reads φ calls) groups' ∧
      groups'.flatten ++ (c.reads φ calls).pending stream = groups.flatten ++ c.pending stream ++ textOf stream calls := by
  induction calls generalizing c groups with
  | nil => exact ⟨groups, h, by simp [textOf, Capture.reads]⟩
  | cons read calls ih =>
      obtain ⟨other, chunk⟩ := read
      rw [Capture.reads, List.foldl_cons, ← Capture.reads]
      by_cases hother : other = stream
      · subst hother
        obtain ⟨groups', htracks, htext⟩ := call_tracks h hstream chunk
        obtain ⟨final, hfinal, hall⟩ := ih htracks
        refine ⟨final, hfinal, ?_⟩
        rw [hall, htext]
        simp [textOf]
      · obtain ⟨htracks, hpending⟩ := call_other h (fun heq => hother heq.symm) chunk
        obtain ⟨final, hfinal, hall⟩ := ih htracks
        refine ⟨final, hfinal, ?_⟩
        rw [hall, hpending]
        simp [textOf, hother]

theorem finish_file (h : Tracks φ secrets stream c groups) (hstream : stream ∈ captureStreams) :
    (c.finish φ).files stream = archived φ secrets (groups ++ [c.pending stream]) := by
  have hfile := h.file
  rw [← h.protects] at hfile ⊢
  rw [Capture.finish, if_neg (by simp [h.running])]
  simp only [captureStreams, List.foldl_cons, List.foldl_nil]
  rcases List.mem_pair.mp hstream with rfl | rfl
  · rw [write_other (by decide), write_file hfile]
  · obtain ⟨hsecrets, hpending, -⟩ := write_rest φ c "stdout" (c.pending "stdout")
    have hbefore : (c.write φ "stdout" (c.pending "stdout")).files "stderr" =
        archived φ (c.write φ "stdout" (c.pending "stdout")).secrets groups := by
      rw [write_other (by decide), hsecrets, hfile]
    rw [write_file hbefore, hsecrets, hpending]

/-! ### Cuts -/

/-- A text, cut into groups of whole lines and the line that is not finished. -/
structure Cut (text : Text) (groups : List Text) (rest : Text) : Prop where
  whole : text = groups.flatten ++ rest
  lines : ∀ group ∈ groups, group.getLast? = some '\n'
  part : '\n' ∉ rest

/-- What is captured of a text is its file by some cut. -/
theorem captured_cut (φ : Unicode) (secrets : Protected) (hstream : stream ∈ captureStreams) (calls : List (String × Text)) :
    ∃ groups rest, Cut (textOf stream calls) groups rest ∧
      captured φ secrets stream calls = archived φ secrets (groups ++ [rest]) := by
  obtain ⟨groups, htracks, htext⟩ := reads_tracks (tracks_new φ secrets stream) hstream calls
  refine ⟨groups, _, ⟨?_, htracks.lines, htracks.part⟩, finish_file htracks hstream⟩
  rw [htext]
  rfl

/-- Reading a stream one group of lines at a time writes these groups. -/
theorem reads_groups (h : Tracks φ secrets stream c groups) (hpending : c.pending stream = []) (hstream : stream ∈ captureStreams)
    (hpieces : ∀ piece ∈ pieces, piece.getLast? = some '\n') :
    Tracks φ secrets stream (c.reads φ (pieces.map (stream, ·))) (groups ++ pieces) ∧
      (c.reads φ (pieces.map (stream, ·))).pending stream = [] := by
  induction pieces generalizing c groups with
  | nil => simpa [Capture.reads] using ⟨h, hpending⟩
  | cons piece pieces ih =>
      have hwhole := wholeLines_of_last (hpieces piece List.mem_cons_self)
      have hcombined : c.pending stream ++ piece = piece := by rw [hpending, List.nil_append]
      obtain ⟨-, hpart⟩ := call_file h hstream piece
      have htracks := call_line h hstream (by rw [hcombined, hwhole.1]; exact hpieces piece List.mem_cons_self)
      rw [hcombined, hwhole.1] at htracks
      rw [hcombined, hwhole.2] at hpart
      have hall := ih htracks hpart fun other hother => hpieces other (List.mem_cons_of_mem _ hother)
      rwa [List.append_assoc, List.singleton_append] at hall

/-- Every cut of a text is how some reads of it capture it. -/
theorem cut_captured (φ : Unicode) (secrets : Protected) (hstream : stream ∈ captureStreams) (hcut : Cut text groups rest) :
    ∃ calls, textOf stream calls = text ∧ captured φ secrets stream calls = archived φ secrets (groups ++ [rest]) := by
  obtain ⟨htracks, hpending⟩ := reads_groups (tracks_new φ secrets stream) rfl hstream hcut.lines
  refine ⟨groups.map (stream, ·) ++ [(stream, rest)], ?_, ?_⟩
  · rw [hcut.whole]
    simp [textOf, List.filter_map, Function.comp_def, List.flatMap_map, List.flatMap_id']
  · have hrest := wholeLines_unbroken hcut.part
    have hcombined : ((Capture.new secrets).reads φ (groups.map (stream, ·))).pending stream ++ rest = rest := by
      rw [hpending, List.nil_append]
    obtain ⟨-, hpart⟩ := call_file htracks hstream rest
    have hfinal := finish_file (call_part htracks hstream (by rw [hcombined, hrest.1])) hstream
    rw [hpart, hcombined, hrest.2] at hfinal
    rw [captured, Capture.reads, List.foldl_append, ← Capture.reads]
    exact hfinal

/-! ### Sizes -/

def Within (c : Capture) : Prop := ∀ stream, (c.files stream).length ≤ maxCaptureBytes

theorem write_within (h : Within c) (stream : String) (text : Text) : Within (c.write φ stream text) := by
  intro other
  by_cases hother : other = stream
  · subst hother
    unfold Capture.write
    split
    · exact h other
    · show (Function.update c.files other _ other).length ≤ _
      rw [Function.update_self]
      exact Bound.length_keep_le
  · rw [write_other hother]
    exact h other

theorem reads_within (h : Within c) (calls : List (String × Text)) : Within (c.reads φ calls) := by
  induction calls generalizing c with
  | nil => exact h
  | cons read calls ih =>
      refine ih ?_
      show Within (c.call φ read.1 read.2)
      unfold Capture.call
      split
      · exact h
      · exact write_within h _ _

theorem finish_within (h : Within c) : Within (c.finish φ) := by
  unfold Capture.finish
  split
  · exact h
  · exact write_within (write_within h _ _) _ _

/-! ### Captured output -/

section

variable (φ : Unicode) (secrets : Protected) (text : Text)

/-- The file is the redaction of the text, or the mark and an end of it once it exceeds the limit. -/
def Redaction (file : List UInt8) : Prop :=
  file = encode (redact φ secrets text) ∨
    maxCaptureBytes < (encode (redact φ secrets text)).length ∧
      ∃ tail, tail <:+ encode (redact φ secrets text) ∧ file = truncatedCapture ++ tail

/-- No protected value that occurs in the text can be read in the file. -/
def Hides (file : List UInt8) : Prop := ∀ value ∈ secrets.values, value <:+: text → ¬ encode value <:+: file

/-- However the text comes to a stream, its file is the same: the redaction of the whole, in which no protected value can be
read. The file is never larger than the limit. -/
structure Faithful : Prop where
  same : ∀ stream ∈ captureStreams, ∀ calls calls', textOf stream calls = text → textOf stream calls' = text →
    captured φ secrets stream calls = captured φ secrets stream calls'
  redaction : ∀ stream ∈ captureStreams, ∀ calls, textOf stream calls = text →
    Redaction φ secrets text (captured φ secrets stream calls)
  hidden : ∀ stream ∈ captureStreams, ∀ calls, textOf stream calls = text → Hides secrets text (captured φ secrets stream calls)
  bounded : ∀ stream ∈ captureStreams, ∀ calls, textOf stream calls = text →
    (((Capture.new secrets).reads φ calls).files stream).length ≤ maxCaptureBytes ∧
      (captured φ secrets stream calls).length ≤ maxCaptureBytes

/-- All cuts of the text at line ends, each piece redacted on its own, give one file, which is the redaction of the whole and
shows no protected value. -/
def LineLocal : Prop :=
  ∃ file, (∀ groups rest, Cut text groups rest → archived φ secrets (groups ++ [rest]) = file) ∧
    Redaction φ secrets text file ∧ Hides secrets text file

end

/-- One value of two lines is protected. -/
def twoLines : Protected := (Protected.mk [] (by simp) .nil).protect ["pass\nphrase".toList]

end AutoAgents.Diagnostic
