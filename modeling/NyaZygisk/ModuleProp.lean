import NyaZygisk.AppMonitor
import NyaZygisk.Lib.CStrings
import NyaZygisk.Lib.Lines
import NyaZygisk.Lib.NormalForms

/-!
# The installed module.prop

`prepare_environment` takes `module.prop` apart into what stands before its description and what
stands from there on, and `update_status` puts it together again with the status of the monitor in
front of the description. The next monitor that starts reads what the last one has written.

A text is the list of its characters, one for each byte.
-/

namespace NyaZygisk

open CStrings Lines List NormalForms Runs

namespace ModuleProp

/-! ## Lines -/

def nul : Char := '\x00'

/-- What `file_readline` gives to its callback, which gets each line as a `char *`. The line feed at
the end, which both callbacks drop, is left out. -/
def fileReadline (file : List Char) : List (List Char) := (split '\n' file).map (cString nul)

def isLineEnd (c : Char) : Bool := c = '\r' || c = '\n'

def withoutLineEnd (line : List Char) : List Char := line.rdropWhile isLineEnd

def isBlank (line : List Char) : Bool := line.all fun c => c = ' ' || c = '\t'

def generatedKeys : List (List Char) :=
  ["monitor_status=".toList, "monitor_stop_reason=".toList, "zygote_".toList, "daemon_".toList]

def isGeneratedKey (line : List Char) : Bool := generatedKeys.any (·.isPrefixOf line)

def descriptionKey : List Char := "description=".toList

def isDescription (line : List Char) : Bool := descriptionKey.isPrefixOf line

def versionCodeKey : List Char := "versionCode=".toList

/-! ## Version codes -/

def isSpace (c : Char) : Bool :=
  c = ' ' || c = '\t' || c = '\n' || c = '\x0b' || c = '\x0c' || c = '\r'

def longMax (lp64 : Bool) : Int := if lp64 then 2 ^ 63 - 1 else 2 ^ 31 - 1

/-- Whether a minus sign stands before a number, and its digits. -/
def signedDigits (text : List Char) : Bool × List Char :=
  match text.dropWhile isSpace with
  | [] => (false, [])
  | c :: rest =>
    if c = '-' then (true, rest.takeWhile Char.isDigit)
    else if c = '+' then (false, rest.takeWhile Char.isDigit)
    else (false, (c :: rest).takeWhile Char.isDigit)

/-- `strtol` in base 10, or nothing if there is no number. -/
def strtol (lp64 : Bool) (text : List Char) : Option Int :=
  let (negative, digits) := signedDigits text
  let value : Int := digits.foldl (fun n c => 10 * n + (c.toNat - '0'.toNat)) 0
  if digits = [] then none
  else if negative then some (max (-value) (-longMax lp64 - 1))
  else some (min value (longMax lp64))

/-- A line of the file on disk has a larger version code than the one that was read at the start. -/
def externallyUpdated (lp64 : Bool) (initialVersionCode : Int) (file : List Char) : Bool :=
  0 ≤ initialVersionCode && (fileReadline file).any fun line =>
    versionCodeKey.isPrefixOf line &&
      match strtol lp64 ((line.drop 12).rdropWhile fun c => isLineEnd c || c = ' ' || c = '\t') with
      | some diskCode => initialVersionCode < diskCode
      | none => false

/-! ## Reading -/

def monitorKey : List Char := "[Monitor:".toList

def isSeparator (c : Char) : Bool := c = '=' || c = ' ' || c = '\t'

/-- A description without the status at its front. -/
def withoutStatus (d : List Char) : List Char :=
  if monitorKey.isPrefixOf d && d.contains ']' then (d.dropWhile (· ≠ ']')).tail else d

def cleanPass (d : List Char) : List Char := (withoutStatus d).dropWhile isSeparator

/-- The loop goes on as long as a round removes something; a text has at most as many rounds as
characters. -/
def cleanDescription (d : List Char) : List Char := exhaust cleanPass d.length d

structure Sections where
  preSection : List Char
  postSection : List Char
  initialVersionCode : Int
  post : Bool
deriving DecidableEq

/-- The callback of `prepare_environment`. -/
def readLine (lp64 : Bool) (s : Sections) (lineView : List Char) : Sections :=
  let line := withoutLineEnd lineView
  if isBlank line || isGeneratedKey line then s
  else
    let code := if versionCodeKey.isPrefixOf line then
      (strtol lp64 (line.drop 12)).getD s.initialVersionCode else s.initialVersionCode
    let s := { s with initialVersionCode := code }
    if isDescription line then
      if s.post then s
      else
        { s with post := true, postSection := s.postSection ++ cleanDescription (line.drop 12) }
    else if s.post then { s with postSection := addLine '\n' s.postSection line }
    else { s with preSection := addLine '\n' s.preSection line }

def readProp (lp64 : Bool) (file : List Char) : Sections :=
  (fileReadline file).foldl (readLine lp64) ⟨[], [], -1, false⟩

/-! ## Writing -/

def okNo (ok : Bool) : List Char := if ok then "OK".toList else "NO".toList

def abiName (lp64 : Bool) : List Char := if lp64 then "64".toList else "32".toList

def statusText (lp64 monitorOk abiOk : Bool) : List Char :=
  "[Monitor: ".toList ++ okNo monitorOk ++ ", NyaZygisk ".toList ++ abiName lp64 ++ "-bit: ".toList ++
    okNo abiOk ++ "] ".toList

/-- The text that `update_status` writes to the installed file. -/
def written (s : Sections) (status : List Char) : List Char :=
  let pre :=
    if s.preSection ≠ [] ∧ s.preSection.getLast? ≠ some '\n' then s.preSection ++ ['\n']
    else s.preSection
  let post :=
    if s.postSection ≠ [] ∧ s.postSection.getLast? ≠ some '\n' then s.postSection ++ ['\n']
    else if s.postSection = [] then ['\n']
    else s.postSection
  pre ++ (descriptionKey ++ status ++ post)

/-- The monitor, once it has read `module.prop`. -/
structure Session where
  lp64 : Bool
  sections : Sections
  lastWrittenStatus : List Char

def runtimeStatus (s : Session) (m : AppMonitor) : List Char :=
  written s.sections (statusText s.lp64 (m.tracingState = .tracing)
    (m.status.supported && m.status.daemonRunning && m.status.zygoteInjected))

def byteText (bytes : List UInt8) : List Char := bytes.map fun b => Char.ofNat b.toNat

/-- `write_abi_status_section`. -/
def abiStatusSection (lp64 : Bool) (m : AppMonitor) : List Char :=
  if m.status.supported then
    "zygote_".toList ++ abiName lp64 ++ "_status=".toList ++
      (if m.tracingState ≠ .tracing then "unknown".toList
        else if m.status.zygoteInjected then "injected".toList else "not_injected".toList) ++
      "\ndaemon_".toList ++ abiName lp64 ++ "_status=".toList ++
      if m.status.daemonRunning then
        "running".toList ++ if m.daemonInfo = [] then [] else '\n' :: byteText m.daemonInfo
      else
        "crashed".toList ++
          if m.daemonErrorInfo = [] then []
          else
            "\ndaemon_".toList ++ abiName lp64 ++ "_error=".toList ++ byteText m.daemonErrorInfo
  else []

def installedStatus (s : Session) (m : AppMonitor) : List Char :=
  runtimeStatus s m ++ "monitor_status=".toList ++
    (match m.tracingState with
      | .tracing => "tracing".toList
      | .stopping | .stopped => "stopped".toList
      | .exiting => "exited".toList) ++
    (if m.tracingState ≠ .tracing ∧ m.stopReason ≠ "" then
      "\nmonitor_stop_reason=".toList ++ m.stopReason.toList else []) ++
    ['\n'] ++ abiStatusSection s.lp64 m ++ ['\n']

/-- The two files, and the monitor that runs. -/
structure Props where
  installed : List Char
  runtime : List Char
  session : Option Session

/-- `update_status`, where `m` is what the monitor knows by then. -/
def updateStatus (w : Props) (s : Session) (m : AppMonitor) : Props :=
  if installedStatus s m = s.lastWrittenStatus then w
  else
    { installed :=
        if externallyUpdated s.lp64 s.sections.initialVersionCode w.installed then w.installed
        else runtimeStatus s m
      runtime := installedStatus s m
      session := some { s with lastWrittenStatus := installedStatus s m } }

/-- `prepare_environment` of a new monitor. -/
def prepareEnvironment (w : Props) (lp64 : Bool) (m : AppMonitor) : Props :=
  let s : Session := ⟨lp64, readProp lp64 w.installed, []⟩
  updateStatus { w with runtime := [], session := some s } s m

inductive Event
  | start (lp64 : Bool) (m : AppMonitor)
  | update (m : AppMonitor)

def next (w : Props) : Event → Props
  | .start lp64 m => prepareEnvironment w lp64 m
  | .update m => match w.session with
    | some s => updateStatus w s m
    | none => w

def fresh (file : List Char) : Props := ⟨file, [], none⟩

/-! ## The lines of a file -/

def isKept (line : List Char) : Bool := !isBlank line && !isGeneratedKey line && !isDescription line

/-- The lines to be kept that stand before the first description. -/
def before (ls : List (List Char)) : List (List Char) :=
  (ls.takeWhile fun l => !isDescription l).filter isKept

def after (ls : List (List Char)) : List (List Char) :=
  (ls.dropWhile fun l => !isDescription l).filter isKept

def descriptions (ls : List (List Char)) : List (List Char) :=
  (ls.filter isDescription).map (·.drop 12)

def original (ls : List (List Char)) : List Char := (descriptions ls).headD []

def versionCode (lp64 : Bool) (line : List Char) : Option Int :=
  if versionCodeKey.isPrefixOf line then strtol lp64 (line.drop 12) else none

def versionCodes (lp64 : Bool) (file : List Char) : List Int :=
  (fileReadline file).filterMap (versionCode lp64)

/-! ## What may be removed from a description -/

/-- A separator, or an earlier status, is taken off the front. -/
def Strips (d d' : List Char) : Prop :=
  (∃ c, isSeparator c = true ∧ d = c :: d') ∨
    ∃ inner, ']' ∉ inner ∧ nul ∉ inner ∧ d = monitorKey ++ (inner ++ ']' :: d')

namespace ModulePropLemmas

variable {d d' : List Char}

/-! ## Cleaning -/

theorem dropWhile_bracket {inner : List Char} (h : ']' ∉ inner) (rest : List Char) :
    (inner ++ ']' :: rest).dropWhile (· ≠ ']') = ']' :: rest := by
  rw [dropWhile_append_of_pos, dropWhile_cons_of_neg (by decide)]
  intro c hc
  exact decide_eq_true fun heq => h (heq ▸ hc)

theorem strips_rightUnique : Relator.RightUnique Strips := by
  rintro d a b (⟨c, hc, rfl⟩ | ⟨inner, hinner, _, rfl⟩) (⟨c', hc', hb⟩ | ⟨inner', hinner', _, hb⟩)
  · exact (List.cons.inj hb).2
  · obtain ⟨rfl, _⟩ := List.cons.inj hb
    exact absurd hc (by decide)
  · obtain ⟨rfl, _⟩ := List.cons.inj hb
    exact absurd hc' (by decide)
  · have heq := append_cancel_left hb
    have hdrop := congrArg (List.dropWhile (· ≠ ']')) heq
    rw [dropWhile_bracket hinner, dropWhile_bracket hinner'] at hdrop
    exact (List.cons.inj hdrop).2

theorem nul_strips (h : Strips d d') : nul ∈ d ↔ nul ∈ d' := by
  rcases h with ⟨c, hc, rfl⟩ | ⟨inner, _, hnul, rfl⟩
  · rw [mem_cons, or_iff_right]
    rintro rfl
    exact absurd hc (by decide)
  · rw [mem_append, mem_append, mem_cons, or_iff_right (by decide),
      or_iff_right hnul, or_iff_right (by decide)]

theorem withoutStatus_suffix (d : List Char) : withoutStatus d <:+ d := by
  rw [withoutStatus]
  split
  · exact (tail_suffix _).trans (dropWhile_suffix _)
  · exact suffix_rfl

theorem cleanPass_suffix (d : List Char) : cleanPass d <:+ d :=
  (dropWhile_suffix _).trans (withoutStatus_suffix d)

theorem length_cleanPass (d : List Char) (h : cleanPass d ≠ d) :
    (cleanPass d).length < d.length :=
  lt_of_le_of_ne (cleanPass_suffix d).length_le fun hlen => h ((cleanPass_suffix d).eq_of_length hlen)

theorem withoutStatus_status {inner : List Char} (h : ']' ∉ inner) (rest : List Char) :
    withoutStatus (monitorKey ++ (inner ++ ']' :: rest)) = rest := by
  have hkey : monitorKey.isPrefixOf (monitorKey ++ (inner ++ ']' :: rest)) = true :=
    isPrefixOf_iff_prefix.mpr (prefix_append ..)
  have hclosed : (monitorKey ++ (inner ++ ']' :: rest)).contains ']' = true := by simp
  have hinner : ']' ∉ monitorKey ++ inner := fun hmem =>
    (mem_append.mp hmem).elim (by decide) h
  rw [withoutStatus, hkey, hclosed, Bool.and_self, if_pos rfl, ← append_assoc,
    dropWhile_bracket hinner, tail_cons]

theorem withoutStatus_leads (h : nul ∉ d) : Relation.ReflTransGen Strips d (withoutStatus d) := by
  by_cases hstatus : (monitorKey.isPrefixOf d && d.contains ']') = true
  · obtain ⟨hkey, hclosed⟩ := Bool.and_eq_true_iff.mp hstatus
    obtain ⟨text, rfl⟩ := isPrefixOf_iff_prefix.mp hkey
    have hmem : ']' ∈ text :=
      (mem_append.mp (contains_iff_mem.mp hclosed)).resolve_left (by decide)
    obtain ⟨inner, rest, rfl, hinner⟩ := eq_append_cons_of_mem hmem
    have hnul : nul ∉ inner := fun hmem =>
      h (mem_append_right _ (mem_append_left _ hmem))
    rw [withoutStatus_status hinner]
    exact .single (.inr ⟨inner, hinner, hnul, rfl⟩)
  · rw [withoutStatus, if_neg hstatus]

theorem dropSeparators_leads (d : List Char) :
    Relation.ReflTransGen Strips d (d.dropWhile isSeparator) := by
  induction d with
  | nil => exact .refl
  | cons c rest ih =>
    cases hc : isSeparator c with
    | false => rw [dropWhile_cons_of_neg (by simp [hc])]
    | true =>
      rw [dropWhile_cons_of_pos hc]
      exact .head (.inl ⟨c, hc, rfl⟩) ih

theorem cleanPass_leads (h : nul ∉ d) : Relation.ReflTransGen Strips d (cleanPass d) :=
  (withoutStatus_leads h).trans (dropSeparators_leads _)

theorem normal_of_cleanPass (h : cleanPass d = d) : ∀ d', ¬ Strips d d' := by
  rintro d' (⟨c, hc, rfl⟩ | ⟨inner, hinner, _, rfl⟩)
  · have hkey : withoutStatus (c :: d') = c :: d' := by
      refine if_neg fun hstatus => ?_
      obtain ⟨_, heq⟩ := isPrefixOf_iff_prefix.mp (Bool.and_eq_true_iff.mp hstatus).1
      obtain ⟨rfl, _⟩ := List.cons.inj heq
      exact absurd hc (by decide)
    rw [cleanPass, hkey, dropWhile_cons_of_pos hc] at h
    have hlen := (dropWhile_suffix isSeparator (l := d')).length_le
    rw [h, length_cons] at hlen
    exact absurd hlen (Nat.not_succ_le_self _)
  · rw [cleanPass, withoutStatus_status hinner] at h
    have hlen := (dropWhile_suffix isSeparator (l := d')).length_le
    rw [h] at hlen
    simp only [length_append, length_cons] at hlen
    omega

theorem cleanDescription_suffix (d : List Char) : cleanDescription d <:+ d :=
  exhaust_rel (r := fun a b => b <:+ a) (P := fun _ => True) (fun _ => suffix_rfl)
    (fun hab hbc => hbc.trans hab) (fun a _ => cleanPass_suffix a) (fun _ _ => trivial) trivial

/-- Nothing is left that could be removed, and only such has been. -/
theorem cleanDescription_spec (h : nul ∉ d) : Ends Strips d (cleanDescription d) where
  leads := exhaust_rel (r := Relation.ReflTransGen Strips) (P := fun d => nul ∉ d) (fun _ => .refl)
    .trans (fun _ => cleanPass_leads) (fun a ha hmem => ha ((cleanPass_suffix a).mem hmem)) h
  normal := normal_of_cleanPass (exhaust_fixed length_cleanPass le_rfl)

theorem cleanDescription_eq {text : List Char} (h : nul ∉ d) (hends : Ends Strips d text) :
    cleanDescription d = text :=
  (cleanDescription_spec h).unique strips_rightUnique hends

/-! ## Statuses -/

theorem statusText_eq (lp64 monitorOk abiOk : Bool) :
    ∃ inner, ']' ∉ inner ∧ nul ∉ inner ∧ '\n' ∉ inner ∧
      statusText lp64 monitorOk abiOk = monitorKey ++ (inner ++ [']', ' ']) := by
  refine ⟨' ' :: okNo monitorOk ++ ", NyaZygisk ".toList ++ abiName lp64 ++ "-bit: ".toList ++
    okNo abiOk, ?_⟩
  cases lp64 <;> cases monitorOk <;> cases abiOk <;> decide

theorem length_statusText (lp64 monitorOk abiOk : Bool) :
    (statusText lp64 monitorOk abiOk).length = 36 := by
  cases lp64 <;> cases monitorOk <;> cases abiOk <;> decide

/-- A status in front of a text from which nothing can be removed is what can be. -/
theorem ends_status (lp64 monitorOk abiOk : Bool) {text : List Char}
    (h : ∀ text', ¬ Strips text text') :
    Ends Strips (statusText lp64 monitorOk abiOk ++ text) text := by
  obtain ⟨inner, hbracket, hnul, _, heq⟩ := statusText_eq lp64 monitorOk abiOk
  refine .head (.inr ⟨inner, hbracket, hnul, ?_⟩) (.head (.inl ⟨' ', by decide, rfl⟩) (.refl h))
  rw [heq, append_assoc, append_assoc]
  rfl

/-! ## The sections, by the lines of the file -/

def addText (t : List Char × List Char × Bool) (line : List Char) : List Char × List Char × Bool :=
  if isKept line then
    if t.2.2 then (t.1, addLine '\n' t.2.1 line, true) else (addLine '\n' t.1 line, t.2.1, false)
  else if isDescription line && !t.2.2 then
    (t.1, t.2.1 ++ cleanDescription (line.drop 12), true)
  else t

def text (s : Sections) : List Char × List Char × Bool := (s.preSection, s.postSection, s.post)

/-- The keys that are looked for are different from those that are skipped. -/
theorem not_skipped_of_key {key line : List Char}
    (hkey : key = descriptionKey ∨ key = versionCodeKey) (h : key.isPrefixOf line = true) :
    isBlank line = false ∧ isGeneratedKey line = false := by
  obtain ⟨rest, rfl⟩ := isPrefixOf_iff_prefix.mp h
  rw [isBlank, all_append, Bool.and_eq_false_iff]
  rcases hkey with rfl | rfl <;> exact ⟨.inl (by decide), rfl⟩

theorem not_skipped_of_description {line : List Char} (h : isDescription line = true) :
    isBlank line = false ∧ isGeneratedKey line = false := not_skipped_of_key (.inl rfl) h

theorem text_readLine (lp64 : Bool) (s : Sections) (lineView : List Char) :
    text (readLine lp64 s lineView) = addText (text s) (withoutLineEnd lineView) := by
  simp only [readLine]
  generalize withoutLineEnd lineView = line
  cases hdescription : isDescription line with
  | true =>
    obtain ⟨hblank, hgenerated⟩ := not_skipped_of_description hdescription
    simp only [addText, isKept, hblank, hgenerated, hdescription]
    cases hpost : s.post <;> simp [text, hpost]
  | false =>
    simp only [addText, isKept, hdescription, Bool.not_false, Bool.and_true, ← Bool.not_or]
    cases isBlank line || isGeneratedKey line <;> cases hpost : s.post <;> simp [text, hpost]

theorem not_kept_of_description {line : List Char} (h : isDescription line = true) :
    isKept line = false := by
  rw [isKept, h, Bool.not_true, Bool.and_false]

theorem before_cons (l : List Char) (ls : List (List Char)) :
    before (l :: ls) =
      if isDescription l then [] else if isKept l then l :: before ls else before ls := by
  rw [before, takeWhile_cons]
  cases isDescription l
  · exact filter_cons
  · rfl

theorem after_cons (l : List Char) (ls : List (List Char)) :
    after (l :: ls) = if isDescription l then ls.filter isKept else after ls := by
  rw [after, dropWhile_cons]
  cases hdescription : isDescription l with
  | false => rfl
  | true => exact filter_cons_of_neg (by simp [not_kept_of_description hdescription])

theorem original_cons (l : List Char) (ls : List (List Char)) :
    original (l :: ls) = if isDescription l then l.drop 12 else original ls := by
  rw [original, descriptions, filter_cons]
  cases isDescription l <;> rfl

theorem foldl_addText_post (pre post : List Char) (ls : List (List Char)) :
    ls.foldl addText (pre, post, true) =
      (pre, (ls.filter isKept).foldl (addLine '\n') post, true) := by
  induction ls generalizing post with
  | nil => rfl
  | cons l ls ih =>
    cases hkept : isKept l <;> simp [addText, hkept, ih]

theorem foldl_addText (pre : List Char) (ls : List (List Char)) :
    ls.foldl addText (pre, [], false) =
      ((before ls).foldl (addLine '\n') pre,
        (after ls).foldl (addLine '\n') (cleanDescription (original ls)), ls.any isDescription) := by
  induction ls generalizing pre with
  | nil => rfl
  | cons l ls ih =>
    rw [foldl_cons, before_cons, after_cons, original_cons, any_cons]
    cases hdescription : isDescription l with
    | true =>
      have hkept := not_kept_of_description hdescription
      simp [addText, hkept, hdescription, foldl_addText_post]
    | false =>
      cases hkept : isKept l <;> simp [addText, hkept, hdescription, ih]

def codeLines (file : List Char) : List (List Char) := (fileReadline file).map withoutLineEnd

/-- The two sections are those of the lines that are kept, and of the description. -/
theorem text_readProp (lp64 : Bool) (file : List Char) :
    text (readProp lp64 file) =
      ((before (codeLines file)).foldl (addLine '\n') [],
        (after (codeLines file)).foldl (addLine '\n')
          (cleanDescription (original (codeLines file))),
        (codeLines file).any isDescription) := by
  have hfold : ∀ (ls : List (List Char)) (s : Sections),
      text (ls.foldl (readLine lp64) s) = (ls.map withoutLineEnd).foldl addText (text s) := by
    intro ls
    induction ls with
    | nil => exact fun _ => rfl
    | cons l ls ih =>
      intro s
      rw [foldl_cons, ih, text_readLine, map_cons, foldl_cons]
  rw [readProp, hfold]
  exact foldl_addText [] (codeLines file)

/-! ## The version codes of a file -/

theorem not_digit_of_space {c : Char} (h : isSpace c = true) : c.isDigit = false := by
  simp only [isSpace, Bool.or_eq_true, decide_eq_true_eq] at h
  rcases h with ((((rfl | rfl) | rfl) | rfl) | rfl) | rfl <;> rfl

theorem isSpace_of_isLineEnd {c : Char} (h : isLineEnd c = true) : isSpace c = true := by
  simp only [isLineEnd, Bool.or_eq_true, decide_eq_true_eq] at h
  rcases h with rfl | rfl <;> rfl

section Spaces

variable {spaces : List Char} (h : ∀ c ∈ spaces, isSpace c = true)

include h

theorem takeDigits_append (text : List Char) :
    (text ++ spaces).takeWhile Char.isDigit = text.takeWhile Char.isDigit := by
  have hnone : spaces.takeWhile Char.isDigit = [] := by
    cases spaces with
    | nil => rfl
    | cons c rest =>
      have hc := not_digit_of_space (h c mem_cons_self)
      exact takeWhile_cons_of_neg (by rw [hc]; exact Bool.false_ne_true)
  rw [takeWhile_append, hnone, append_nil]
  split
  · next hall => exact ((List.takeWhile_prefix _).eq_of_length hall).symm
  · rfl

/-- White space at the end of a number does not matter. -/
theorem signedDigits_append (text : List Char) : signedDigits (text ++ spaces) = signedDigits text := by
  have hnone : spaces.dropWhile isSpace = [] := dropWhile_eq_nil_iff.mpr h
  rw [signedDigits, signedDigits, dropWhile_append, hnone]
  cases text.dropWhile isSpace with
  | nil => rfl
  | cons c rest =>
    have hrest := takeDigits_append h rest
    have hall := takeDigits_append h (c :: rest)
    simp only [isEmpty_cons, Bool.false_eq_true, if_false, cons_append] at hall ⊢
    rw [hrest, hall]

theorem strtol_append (lp64 : Bool) (text : List Char) :
    strtol lp64 (text ++ spaces) = strtol lp64 text := by
  rw [strtol, signedDigits_append h, strtol]

end Spaces

theorem strtol_rdropWhile {p : Char → Bool} (hp : ∀ c, p c = true → isSpace c = true) (lp64 : Bool)
    (text : List Char) : strtol lp64 (text.rdropWhile p) = strtol lp64 text := by
  have hspaces : ∀ c ∈ text.rtakeWhile p, isSpace c = true := fun c hc =>
    hp c (mem_rtakeWhile_imp hc)
  have happend := strtol_append hspaces lp64 (text.rdropWhile p)
  rwa [rdropWhile_append_rtakeWhile, eq_comm] at happend

theorem key_withoutLineEnd {key line : List Char} (hkey : withoutLineEnd key = key)
    (h : key <+: line) : key <+: withoutLineEnd line := by
  obtain ⟨rest, rfl⟩ := h
  induction rest using List.reverseRecOn with
  | nil => rw [append_nil, hkey]
  | append_singleton rest c ih =>
    rw [← append_assoc, withoutLineEnd, rdropWhile_concat]
    split
    · exact ih
    · rw [append_assoc]
      exact prefix_append ..

/-- The end of a line does not matter to the version code it gives. -/
theorem versionCode_withoutLineEnd (lp64 : Bool) (line : List Char) :
    versionCode lp64 (withoutLineEnd line) = versionCode lp64 line := by
  rw [versionCode, versionCode]
  cases hkey : versionCodeKey.isPrefixOf line with
  | false =>
    have hnot : versionCodeKey.isPrefixOf (withoutLineEnd line) = false := by
      rw [Bool.eq_false_iff] at hkey ⊢
      intro h
      exact hkey (List.isPrefixOf_iff_prefix.mpr
        ((List.isPrefixOf_iff_prefix.mp h).trans (List.rdropWhile_prefix _ _)))
    rw [hnot]
    rfl
  | true =>
    have hkept := key_withoutLineEnd (by decide) (List.isPrefixOf_iff_prefix.mp hkey)
    have hspaces : ∀ c ∈ line.rtakeWhile isLineEnd, isSpace c = true := fun c hc =>
      isSpace_of_isLineEnd (mem_rtakeWhile_imp hc)
    have hline : line.drop 12 = (withoutLineEnd line).drop 12 ++ line.rtakeWhile isLineEnd := by
      rw [← drop_append_of_le_length (i := 12) hkept.length_le]
      exact congrArg (List.drop 12) rdropWhile_append_rtakeWhile.symm
    rw [List.isPrefixOf_iff_prefix.mpr hkept, if_pos rfl, if_pos rfl, hline, strtol_append hspaces]

theorem initialVersionCode_readLine (lp64 : Bool) (s : Sections) (line : List Char) :
    (readLine lp64 s line).initialVersionCode =
      (versionCode lp64 line).getD s.initialVersionCode := by
  rw [← versionCode_withoutLineEnd]
  simp only [readLine, versionCode]
  generalize withoutLineEnd line = line
  cases hkey : versionCodeKey.isPrefixOf line with
  | true =>
    obtain ⟨hblank, hgenerated⟩ := not_skipped_of_key (.inr rfl) hkey
    rw [hblank, hgenerated]
    cases isDescription line <;> cases s.post <;> rfl
  | false =>
    cases isBlank line || isGeneratedKey line <;> cases isDescription line <;> cases s.post <;> rfl

/-- The version code of a file is the last one in it. -/
theorem initialVersionCode_readProp (lp64 : Bool) (file : List Char) :
    (readProp lp64 file).initialVersionCode = (versionCodes lp64 file).getLastD (-1) := by
  have hfold : ∀ (ls : List (List Char)) (s : Sections),
      (ls.foldl (readLine lp64) s).initialVersionCode =
        (ls.filterMap (versionCode lp64)).getLastD s.initialVersionCode := by
    intro ls
    induction ls with
    | nil => exact fun _ => rfl
    | cons l ls ih =>
      intro s
      rw [foldl_cons, ih, initialVersionCode_readLine, filterMap_cons]
      cases versionCode lp64 l with
      | none => rfl
      | some code => exact (getLastD_cons ..).symm
  exact hfold (fileReadline file) ⟨[], [], -1, false⟩

theorem externallyUpdated_iff {lp64 : Bool} {code : Int} {file : List Char} :
    externallyUpdated lp64 code file = true ↔
      0 ≤ code ∧ ∃ diskCode ∈ versionCodes lp64 file, code < diskCode := by
  have hspace : ∀ c, (isLineEnd c || c = ' ' || c = '\t') = true → isSpace c = true := by
    intro c hc
    simp only [Bool.or_eq_true, decide_eq_true_eq] at hc
    rcases hc with (hc | rfl) | rfl
    · exact isSpace_of_isLineEnd hc
    all_goals rfl
  simp only [externallyUpdated, strtol_rdropWhile hspace, Bool.and_eq_true, decide_eq_true_eq,
    any_eq_true, versionCodes, mem_filterMap, versionCode, Option.ite_none_right_eq_some]
  refine and_congr_right fun _ => ⟨?_, ?_⟩
  · rintro ⟨line, hline, hkey, hlt⟩
    cases hcode : strtol lp64 (line.drop 12) with
    | none =>
      rw [hcode] at hlt
      cases hlt
    | some diskCode =>
      rw [hcode] at hlt
      exact ⟨diskCode, ⟨line, hline, hkey, hcode⟩, of_decide_eq_true hlt⟩
  · rintro ⟨diskCode, ⟨line, hline, hkey, hcode⟩, hlt⟩
    refine ⟨line, hline, hkey, ?_⟩
    rw [hcode]
    exact decide_eq_true hlt

end ModulePropLemmas

end ModuleProp

end NyaZygisk
