import NyaZygisk.Exclude
import NyaZygisk.Lib.CStrings
import NyaZygisk.Lib.Lines

/-!
# One file, three programs

`config.prop` is written by `setConfigValue` of the WebUI, a shell command that replaces one line,
and read by `parse_config` of the daemon and by `config_line_present` of the injector, which reads
it through a buffer of 128 characters. All that is written is ASCII, so a character is a byte.
-/

namespace NyaZygisk

open CStrings Exclude List Text

/-! ## The WebUI -/

inductive ConfigKey
  | excludeApps
  | excludeUnmount
  | customLinker
  | anonymousMemory
deriving DecidableEq

def ConfigKey.name : ConfigKey → List Char
  | .excludeApps => "exclude_apps".toList
  | .excludeUnmount => "exclude_unmount".toList
  | .customLinker => "custom_linker".toList
  | .anonymousMemory => "anonymous_memory".toList

/-- A character of `[A-Za-z0-9_.,]`. -/
def isValueChar (c : Char) : Bool := c.isAlphanum || c == '_' || c == '.' || c == ','

/-- `grep -v '^key='`: the lines that do not start so, each ended by a line feed. -/
def grepV (key : ConfigKey) (text : List Char) : List Char :=
  Lines.render '\n' ((Lines.split '\n' text).filter fun line =>
    (stripPrefix (key.name ++ ['=']) line).isNone)

/-- `printf 'key=value\n'`, of texts without `%` and `\`. -/
def printfLine (key : ConfigKey) (value : List Char) : List Char := key.name ++ '=' :: value ++ ['\n']

/-- `setConfigValue`: the content of the file after it, if the value was accepted. -/
def setConfigValue (file : Option (List Char)) (key : ConfigKey) (value : List Char) :
    Option (List Char) :=
  if value.all isValueChar then
    some ((match file with
      | some text => grepV key text
      | none => []) ++ printfLine key value)
  else none

/-- The file after these writes, of which those with a value that is not accepted do nothing. -/
def applyWrites (writes : List (ConfigKey × List Char)) : Option (List Char) :=
  writes.foldl (fun file write => (setConfigValue file write.1 write.2).or file) none

/-! ## The injector -/

/-- The characters that `config_line_present` removes at the end of a line. -/
def isLineEnd (c : Char) : Bool := c == '\n' || c == '\r' || c == ' ' || c == '\t'

def stripEnd (line : List Char) : List Char := (line.reverse.dropWhile isLineEnd).reverse

/-- `config_line_present`: the needle has room for 63 characters, and `fgets` for 127. -/
def configLinePresent (file : Option (List Char)) (key value : List Char) : Bool :=
  match file with
  | none => false
  | some text =>
    let needle := (key ++ '=' :: value).take 63
    (Lines.pieces '\n' 127 text).any fun line => stripEnd (cString '\x00' line) = needle

def isAnonymousMemoryEnabled (file : Option (List Char)) : Bool :=
  configLinePresent file "anonymous_memory".toList ['1']

def isCustomLinkerEnabled (file : Option (List Char)) : Bool :=
  configLinePresent file "custom_linker".toList ['1']

/-! ## What was written -/

def lastValue (key : ConfigKey) (writes : List (ConfigKey × List Char)) : Option (List Char) :=
  (writes.reverse.find? fun write => write.1 = key).map Prod.snd

/-- The non-empty items of a list with commas. -/
def commaItems (value : List Char) : List String :=
  ((split ',' value).filter fun item => !item.isEmpty).map String.ofList

def configLine (entry : ConfigKey × List Char) : List Char := entry.1.name ++ '=' :: entry.2

/-- One write more, with one entry per key. -/
def putEntry (entries : List (ConfigKey × List Char)) (write : ConfigKey × List Char) :
    List (ConfigKey × List Char) :=
  entries.filter (fun entry => entry.1 ≠ write.1) ++ [write]

def entriesOf (writes : List (ConfigKey × List Char)) : List (ConfigKey × List Char) :=
  writes.foldl putEntry []

def configState (file : Option (List Char)) (mtime : Option Nat) : FileState :=
  ⟨mtime, file.map String.ofList⟩

namespace ConfigFileLemmas

/-! ### Characters -/

/-- The characters of keys and values, and the equals sign, lie here; white space, line ends and NUL
do not. -/
def LineChar (c : Char) : Prop := 0x2C ≤ c.toNat ∧ c.toNat ≤ 0x7A

variable {c : Char} {entry : ConfigKey × List Char} {entries writes : List (ConfigKey × List Char)}
    {line value : List Char}

theorem lineChar_of_value (h : isValueChar c = true) : LineChar c ∧ c ≠ '=' := by
  simp only [isValueChar, Char.isAlphanum, Char.isAlpha, Char.isUpper, Char.isLower, Char.isDigit,
    Bool.or_eq_true, Bool.and_eq_true, decide_eq_true_eq, beq_iff_eq, UInt32.le_iff_toNat_le,
    ge_iff_le] at h
  change (((((65 ≤ c.toNat ∧ c.toNat ≤ 90) ∨ (97 ≤ c.toNat ∧ c.toNat ≤ 122)) ∨
    (48 ≤ c.toNat ∧ c.toNat ≤ 57)) ∨ c = '_') ∨ c = '.') ∨ c = ',' at h
  have heq : c = '=' → c.toNat = 61 := fun h => h ▸ rfl
  rcases h with ((((h | h) | h) | rfl) | rfl) | rfl
  · exact ⟨⟨by omega, by omega⟩, fun hc => by have := heq hc; omega⟩
  · exact ⟨⟨by omega, by omega⟩, fun hc => by have := heq hc; omega⟩
  · exact ⟨⟨by omega, by omega⟩, fun hc => by have := heq hc; omega⟩
  · exact ⟨⟨by decide, by decide⟩, by decide⟩
  · exact ⟨⟨by decide, by decide⟩, by decide⟩
  · exact ⟨⟨by decide, by decide⟩, by decide⟩

theorem LineChar.isWhitespace (h : LineChar c) : isWhitespace c = false := by
  obtain ⟨hlow, hhigh⟩ := h
  simp only [Text.isWhitespace, Bool.or_eq_false_iff, Bool.and_eq_false_iff, beq_eq_false_iff_ne,
    decide_eq_false_iff_not]
  omega

theorem LineChar.ne {d : Char} (h : LineChar c) (hd : d.toNat < 0x2C) : c ≠ d := by
  rintro rfl
  exact absurd h.1 (Nat.not_le.mpr hd)

theorem LineChar.isLineEnd (h : LineChar c) : isLineEnd c = false := by
  simp [NyaZygisk.isLineEnd, h.ne (d := '\n') (by decide), h.ne (d := '\r') (by decide),
    h.ne (d := ' ') (by decide), h.ne (d := '\t') (by decide)]

theorem lineChar_name (key : ConfigKey) : ∀ c ∈ key.name, LineChar c := by
  have hall : key.name.all (fun c => decide (0x2C ≤ c.toNat ∧ c.toNat ≤ 0x7A)) = true := by
    cases key <;> rfl
  intro c hc
  have hrange := all_eq_true.mp hall c hc
  rwa [decide_eq_true_eq] at hrange

/-! ### Lines -/

def Accepted (entry : ConfigKey × List Char) : Prop := entry.2.all isValueChar = true

theorem lineChar_configLine (h : Accepted entry) :
    ∀ c ∈ configLine entry, LineChar c := by
  intro c hc
  rw [configLine, mem_append, mem_cons] at hc
  rcases hc with hc | rfl | hc
  · exact lineChar_name entry.1 c hc
  · exact ⟨by decide, by decide⟩
  · exact (lineChar_of_value (all_eq_true.mp h c hc)).1

theorem not_mem_configLine (h : Accepted entry) {d : Char}
    (hd : d.toNat < 0x2C) : d ∉ configLine entry := fun hmem =>
  (lineChar_configLine h d hmem).ne hd rfl

theorem not_mem_lines (h : ∀ e ∈ entries, Accepted e) :
    ∀ l ∈ entries.map configLine, '\n' ∉ l := by
  intro l hl
  obtain ⟨entry, hentry, rfl⟩ := mem_map.mp hl
  exact not_mem_configLine (h entry hentry) (by decide)

/-- A line starts with the key that it has, and with no other. -/
theorem stripPrefix_configLine (key : ConfigKey) (entry : ConfigKey × List Char) :
    stripPrefix (key.name ++ ['=']) (configLine entry) =
      if entry.1 = key then some entry.2 else none := by
  obtain ⟨key', value⟩ := entry
  cases key <;> cases key' <;> rfl

theorem configLine_injective : Function.Injective configLine := by
  intro a b h
  have hstrip := congrArg (stripPrefix (b.1.name ++ ['='])) h
  rw [stripPrefix_configLine, stripPrefix_configLine, if_pos rfl] at hstrip
  obtain ⟨hkey, hvalue⟩ := Option.ite_none_right_eq_some.mp hstrip
  exact Prod.ext hkey (Option.some.inj hvalue)

/-! ### The writer -/

theorem grepV_render (h : ∀ e ∈ entries, Accepted e)
    (key : ConfigKey) :
    grepV key (Lines.render '\n' (entries.map configLine)) =
      Lines.render '\n' ((entries.filter fun e => e.1 ≠ key).map configLine) := by
  have hfilter : ((fun line => (stripPrefix (key.name ++ ['=']) line).isNone) ∘ configLine) =
      fun e : ConfigKey × List Char => decide (e.1 ≠ key) := by
    funext entry
    rw [Function.comp_apply, stripPrefix_configLine]
    split
    · next heq => simp [heq]
    · next hne => simp [hne]
  rw [grepV, Lines.split_render (not_mem_lines h), filter_map, hfilter]

theorem printfLine_eq (key : ConfigKey) (value : List Char) :
    printfLine key value = Lines.render '\n' [configLine (key, value)] := by
  simp [printfLine, configLine]

theorem accepted_entriesOf
    (h : ∀ write ∈ writes, Accepted write) : ∀ e ∈ entriesOf writes, Accepted e := by
  induction writes using List.reverseRecOn with
  | nil => nofun
  | append_singleton writes write ih =>
    intro e he
    rw [entriesOf, foldl_append, foldl_cons, foldl_nil, putEntry, mem_append,
      mem_filter, mem_singleton] at he
    rcases he with ⟨he, _⟩ | rfl
    · exact ih (fun w hw => h w (mem_append_left _ hw)) e he
    · exact h e (mem_append_right _ mem_cons_self)

/-- The file after the writes: the entries, in the order in which they were last written. -/
theorem applyWrites_eq
    (h : ∀ write ∈ writes, Accepted write) :
    applyWrites writes =
      if writes = [] then none
      else some (Lines.render '\n' ((entriesOf writes).map configLine)) := by
  induction writes using List.reverseRecOn with
  | nil => rfl
  | append_singleton writes write ih =>
    have hpre : ∀ w ∈ writes, Accepted w := fun w hw => h w (mem_append_left _ hw)
    have hwrite : write.2.all isValueChar = true :=
      h write (mem_append_right _ mem_cons_self)
    have hne : writes ++ [write] ≠ [] := by simp
    have hstep : applyWrites (writes ++ [write]) =
        (setConfigValue (applyWrites writes) write.1 write.2).or (applyWrites writes) := by
      simp [applyWrites]
    have hentries : entriesOf (writes ++ [write]) = putEntry (entriesOf writes) write := by
      simp [entriesOf]
    rw [hstep, ih hpre, if_neg hne, hentries, putEntry, map_append, Lines.render_append]
    rcases eq_or_ne writes [] with rfl | hwrites
    · rw [if_pos rfl, setConfigValue, if_pos hwrite, printfLine_eq]
      rfl
    · rw [if_neg hwrites, setConfigValue, if_pos hwrite, printfLine_eq, Option.some_or]
      rw [grepV_render (accepted_entriesOf hpre)]
      rfl

/-! ### The last value -/

theorem lastValue_concat (key : ConfigKey) (entries : List (ConfigKey × List Char))
    (entry : ConfigKey × List Char) :
    lastValue key (entries ++ [entry]) =
      if entry.1 = key then some entry.2 else lastValue key entries := by
  rw [lastValue, reverse_append, reverse_singleton, singleton_append, find?_cons]
  split
  · next h => rw [if_pos (of_decide_eq_true h)]; rfl
  · next h => rw [if_neg (of_decide_eq_false h)]; rfl

theorem lastValue_filter {key key' : ConfigKey} (hne : key ≠ key')
    (entries : List (ConfigKey × List Char)) :
    lastValue key (entries.filter fun e => e.1 ≠ key') = lastValue key entries := by
  rw [lastValue, lastValue, ← filter_reverse, find?_filter]
  congr 2
  funext entry
  by_cases heq : entry.1 = key
  · simp [heq, hne]
  · simp [heq]

theorem lastValue_entriesOf (key : ConfigKey) (writes : List (ConfigKey × List Char)) :
    lastValue key (entriesOf writes) = lastValue key writes := by
  induction writes using List.reverseRecOn with
  | nil => rfl
  | append_singleton writes write ih =>
    rw [entriesOf, foldl_append, foldl_cons, foldl_nil, putEntry, lastValue_concat,
      lastValue_concat]
    split
    · rfl
    · next hne => rw [lastValue_filter (Ne.symm hne)]; exact ih

theorem mem_entriesOf (writes : List (ConfigKey × List Char)) (entry : ConfigKey × List Char) :
    entry ∈ entriesOf writes ↔ lastValue entry.1 writes = some entry.2 := by
  induction writes using List.reverseRecOn with
  | nil => simp [entriesOf, lastValue]
  | append_singleton writes write ih =>
    rw [entriesOf, foldl_append, foldl_cons, foldl_nil, putEntry, lastValue_concat,
      mem_append, mem_filter, mem_singleton]
    by_cases hkey : write.1 = entry.1
    · simp only [hkey, if_true, Option.some.injEq, ne_eq, not_true_eq_false, decide_false,
        Bool.false_eq_true, and_false, false_or]
      exact ⟨fun h => h ▸ rfl, fun h => Prod.ext hkey.symm h.symm⟩
    · rw [if_neg hkey, ← ih]
      constructor
      · rintro (⟨h, _⟩ | rfl)
        · exact h
        · exact absurd rfl hkey
      · exact fun h => .inl ⟨h, decide_eq_true (Ne.symm hkey)⟩

theorem nodup_entriesOf (writes : List (ConfigKey × List Char)) :
    ((entriesOf writes).map Prod.fst).Nodup := by
  induction writes using List.reverseRecOn with
  | nil => exact nodup_nil
  | append_singleton writes write ih =>
    rw [entriesOf, foldl_append, foldl_cons, foldl_nil, putEntry, map_append,
      map_singleton, nodup_append]
    refine ⟨ih.sublist (filter_sublist.map _), nodup_singleton _, ?_⟩
    intro key hkey key' hkey' heq
    obtain ⟨entry, hentry, rfl⟩ := mem_map.mp hkey
    rw [mem_singleton.mp hkey'] at heq
    exact of_decide_eq_true (mem_filter.mp hentry).2 heq

/-! ### The daemon -/

theorem trim_eq (h : ∀ c ∈ line, LineChar c) : trim line = line := by
  have hdrop : ∀ l : List Char, (∀ c ∈ l, LineChar c) → l.dropWhile Text.isWhitespace = l := by
    intro l hl
    cases l with
    | nil => rfl
    | cons c l => rw [dropWhile_cons, (hl c mem_cons_self).isWhitespace]; rfl
  have hrev : ∀ c ∈ line.reverse, LineChar c := fun c hc => h c (mem_reverse.mp hc)
  rw [trim, trimStart, hdrop line h, trimEnd, hdrop line.reverse hrev, reverse_reverse]

theorem linesFrom_line {l : List Char} (hn : '\n' ∉ l) (hr : '\r' ∉ l) {acc : List Char}
    (hacc : '\r' ∉ acc) (text : List Char) :
    linesFrom acc (l ++ '\n' :: text) = (acc.reverse ++ l) :: lines text := by
  have hne : ∀ rest, acc = '\r' :: rest → False := fun rest h => hacc (h ▸ mem_cons_self)
  induction l generalizing acc with
  | nil => rw [nil_append, linesFrom.eq_3 _ _ _ hne, if_pos rfl, append_nil, lines]
  | cons c l ih =>
    obtain ⟨hcn, hn⟩ := not_or.mp (mt mem_cons.mpr hn)
    obtain ⟨hcr, hr⟩ := not_or.mp (mt mem_cons.mpr hr)
    have hacc' : '\r' ∉ c :: acc := fun hmem => (mem_cons.mp hmem).elim hcr hacc
    rw [cons_append, linesFrom.eq_3 _ _ _ hne, if_neg (Ne.symm hcn),
      ih hn hr hacc' fun rest h => hacc' (h ▸ mem_cons_self), reverse_cons,
      append_assoc, singleton_append]

theorem lines_render (h : ∀ e ∈ entries, Accepted e) :
    lines (Lines.render '\n' (entries.map configLine)) = entries.map configLine := by
  induction entries with
  | nil => rfl
  | cons entry entries ih =>
    have hentry := h entry mem_cons_self
    rw [map_cons, Lines.render_cons, lines, linesFrom_line (not_mem_configLine hentry (by decide))
      (not_mem_configLine hentry (by decide)) not_mem_nil,
      ih fun e he => h e (mem_cons_of_mem _ he)]
    rfl

theorem mem_of_mem_split {item : List Char} (hitem : item ∈ split ',' value)
    (hc : c ∈ item) : c ∈ value := by
  rw [split] at hitem
  induction value generalizing item with
  | nil =>
    rw [splitOn_nil, mem_singleton] at hitem
    exact hitem ▸ hc
  | cons x value ih =>
    rw [splitOn_cons_eq_if_modifyHead] at hitem
    split at hitem
    · rcases mem_cons.mp hitem with rfl | hitem
      · cases hc
      · exact mem_cons_of_mem _ (ih hitem hc)
    · cases hsplit : value.splitOn ',' with
      | nil => exact absurd hsplit (splitOn_ne_nil _ _)
      | cons first rest =>
        rw [hsplit] at hitem ih
        rcases mem_cons.mp hitem with rfl | hitem
        · rcases mem_cons.mp hc with rfl | hc
          · exact mem_cons_self
          · exact mem_cons_of_mem _ (ih mem_cons_self hc)
        · exact mem_cons_of_mem _ (ih (mem_cons_of_mem _ hitem) hc)

theorem map_trim_split (h : ∀ c ∈ value, LineChar c) :
    (split ',' value).map trim = split ',' value := by
  refine (map_congr_left fun item hitem => ?_).trans (map_id _)
  exact trim_eq fun c hc => h c (mem_of_mem_split hitem hc)

theorem parseConfigLine_configLine (h : Accepted entry)
    (acc : List String × Bool) :
    parseConfigLine acc (configLine entry) =
      match entry.1 with
      | .excludeApps => (commaItems entry.2, acc.2)
      | .excludeUnmount => (acc.1, entry.2 ≠ ['0'])
      | .customLinker | .anonymousMemory => acc := by
  have hvalue : ∀ c ∈ entry.2, LineChar c := fun c hc =>
    (lineChar_of_value (all_eq_true.mp h c hc)).1
  have happs : stripPrefix "exclude_apps=".toList (configLine entry) = _ :=
    stripPrefix_configLine .excludeApps entry
  have hunmount : stripPrefix "exclude_unmount=".toList (configLine entry) = _ :=
    stripPrefix_configLine .excludeUnmount entry
  obtain ⟨key, value⟩ := entry
  simp only [parseConfigLine, trim_eq (lineChar_configLine h), happs, hunmount]
  cases key with
  | excludeApps => simp only [if_true, map_trim_split hvalue, commaItems]
  | excludeUnmount =>
    change (acc.1, decide (trim value ≠ "0".toList)) = _
    rw [trim_eq hvalue]
    rfl
  | customLinker | anonymousMemory => rfl

theorem foldl_parseConfigLine
    (h : ∀ e ∈ entries, Accepted e) :
    (entries.map configLine).foldl parseConfigLine ([], true) =
      (commaItems ((lastValue .excludeApps entries).getD []),
        decide (lastValue .excludeUnmount entries ≠ some ['0'])) := by
  induction entries using List.reverseRecOn with
  | nil => rfl
  | append_singleton entries entry ih =>
    have hentry := h entry (mem_append_right _ mem_cons_self)
    rw [map_append, foldl_append, ih fun e he => h e (mem_append_left _ he),
      map_singleton, foldl_cons, foldl_nil, parseConfigLine_configLine hentry,
      lastValue_concat, lastValue_concat]
    obtain ⟨key, value⟩ := entry
    cases key with
    | excludeApps | customLinker | anonymousMemory => rfl
    | excludeUnmount => simp

theorem readConfig_writes
    (h : ∀ write ∈ writes, Accepted write) (mtime : Option Nat) :
    readConfig (configState (applyWrites writes) mtime) =
      (commaItems ((lastValue .excludeApps writes).getD []),
        decide (lastValue .excludeUnmount writes ≠ some ['0'])) := by
  rw [applyWrites_eq h]
  split
  · next hnil => rw [hnil]; rfl
  · simp only [readConfig, configState, Option.map_some, parseConfig, String.toList_ofList,
      lines_render (accepted_entriesOf h), foldl_parseConfigLine (accepted_entriesOf h),
      lastValue_entriesOf]

/-- What precedes a line feed is one line, whatever it is. -/
theorem exists_linesFrom {l : List Char} (hn : '\n' ∉ l) (acc text : List Char) :
    ∃ line, linesFrom acc (l ++ '\n' :: text) = line :: lines text := by
  induction l generalizing acc with
  | nil =>
    rw [nil_append, linesFrom.eq_def]
    exact ⟨_, if_pos rfl⟩
  | cons c l ih =>
    obtain ⟨hc, hn⟩ := not_or.mp (mt mem_cons.mpr hn)
    rw [cons_append, linesFrom.eq_def]
    simp only [if_neg (Ne.symm hc)]
    exact ih hn (c :: acc)

theorem exists_lines_render (ls : List (List Char)) (hn : ∀ l ∈ ls, '\n' ∉ l) (text : List Char) :
    ∃ ls', lines (Lines.render '\n' ls ++ text) = ls' ++ lines text := by
  induction ls with
  | nil => exact ⟨[], rfl⟩
  | cons l ls ih =>
    obtain ⟨ls', hls⟩ := ih fun l hl => hn l (mem_cons_of_mem _ hl)
    obtain ⟨line, hline⟩ := exists_linesFrom (hn l mem_cons_self) [] (Lines.render '\n' ls ++ text)
    refine ⟨line :: ls', ?_⟩
    rw [Lines.render_cons, append_assoc, cons_append, lines, hline, hls]
    rfl

/-- After a list is written to a file, whatever that holds, the daemon reads the list. -/
theorem readConfig_setConfigValue (h : value.all isValueChar = true)
    (file : Option (List Char)) (mtime : Option Nat) :
    (readConfig (configState (setConfigValue file .excludeApps value) mtime)).1 = commaItems value := by
  have hentry : Accepted (.excludeApps, value) := h
  obtain ⟨ls, hls⟩ : ∃ ls, lines ((match file with
      | some text => grepV .excludeApps text
      | none => []) ++ printfLine .excludeApps value) = ls ++ [configLine (.excludeApps, value)] := by
    have hline : lines (Lines.render '\n' [configLine (.excludeApps, value)]) =
      [configLine (.excludeApps, value)] :=
      lines_render fun e he => mem_singleton.mp he ▸ hentry
    rw [printfLine_eq]
    cases file with
    | none => exact ⟨[], hline⟩
    | some text =>
      obtain ⟨ls, hls⟩ := exists_lines_render _
        (fun l hl => Lines.not_mem_of_mem_split (mem_filter.mp hl).1)
        (Lines.render '\n' [configLine (.excludeApps, value)])
      exact ⟨ls, hls.trans (congrArg (ls ++ ·) hline)⟩
  have hset : setConfigValue file .excludeApps value = some _ := if_pos h
  rw [hset, configState, readConfig]
  simp only [Option.map_some, parseConfig, String.toList_ofList, hls, foldl_append, foldl_cons,
    foldl_nil, parseConfigLine_configLine hentry]

/-! ### The injector -/

theorem stripEnd_eq (h : ∀ c ∈ line, LineChar c) : stripEnd line = line := by
  rw [stripEnd]
  cases hrev : line.reverse with
  | nil => rw [← reverse_reverse line, hrev]; rfl
  | cons c rest =>
    have hc : LineChar c := h c (mem_reverse.mp (hrev ▸ mem_cons_self))
    rw [dropWhile_cons, hc.isLineEnd, if_neg Bool.false_ne_true, ← hrev, reverse_reverse]

theorem stripEnd_concat (h : ∀ c ∈ line, LineChar c) :
    stripEnd (line ++ ['\n']) = line := by
  rw [stripEnd, reverse_append, reverse_singleton, singleton_append,
    dropWhile_cons, if_pos (by decide)]
  exact stripEnd_eq h

theorem mem_of_mem_stripEnd (h : c ∈ stripEnd (cString '\x00' line)) :
    c ∈ line := by
  have hdrop := (dropWhile_sublist _).mem (mem_reverse.mp h)
  exact (takeWhile_sublist _).mem (mem_reverse.mp hdrop)

theorem name_length (key : ConfigKey) : key.name.length < 17 := by
  cases key <;> decide

theorem needle_eq (key : ConfigKey) : (key.name ++ '=' :: ['1']).take 63 = configLine (key, ['1']) := by
  cases key <;> rfl

theorem eq_not_mem_drop (h : Accepted entry) :
    '=' ∉ (configLine entry).drop 127 := by
  have hname : (entry.1.name ++ ['=']).length ≤ 127 := by
    rw [length_append, length_singleton]
    exact Nat.le_trans (name_length entry.1) (by decide)
  have hline : configLine entry = (entry.1.name ++ ['=']) ++ entry.2 := by
    rw [configLine, append_assoc, singleton_append]
  rw [hline, drop_append, drop_eq_nil_of_le hname, nil_append]
  intro hmem
  exact (lineChar_of_value (all_eq_true.mp h _ (mem_of_mem_drop hmem))).2 rfl

theorem pieces_short (h : Accepted entry)
    (hshort : (configLine entry).length < 127) :
    Lines.pieces '\n' 127 (configLine entry ++ ['\n']) = [configLine entry ++ ['\n']] := by
  refine Lines.piecesFrom_short (not_mem_configLine h (by decide)) ?_
  rwa [length_nil, Nat.zero_add]

theorem pieces_long (h : Accepted entry)
    (hlong : 127 ≤ (configLine entry).length) :
    Lines.pieces '\n' 127 (configLine entry ++ ['\n']) =
      (configLine entry).take 127 :: Lines.pieces '\n' 127 ((configLine entry).drop 127 ++ ['\n']) :=
  Lines.piecesFrom_long (not_mem_configLine h (by decide)) (by decide)
    (by rwa [length_nil, Nat.zero_add])

theorem length_needle_lt (key : ConfigKey) : (configLine (key, ['1'])).length < 127 := by
  cases key <;> decide

/-- The first piece of a long line is longer than what is looked for, and the others have no equals
sign. -/
theorem not_piece_of_long (key : ConfigKey) (h : Accepted entry)
    (hlong : 127 ≤ (configLine entry).length) {piece : List Char}
    (hpiece : piece ∈ Lines.pieces '\n' 127 (configLine entry ++ ['\n'])) :
    stripEnd (cString '\x00' piece) ≠ configLine (key, ['1']) := by
  intro hstrip
  rw [pieces_long h hlong] at hpiece
  rcases mem_cons.mp hpiece with rfl | hpiece
  · have hnul : '\x00' ∉ (configLine entry).take 127 := fun hmem =>
      not_mem_configLine h (by decide) (mem_of_mem_take hmem)
    have htake : ∀ c ∈ (configLine entry).take 127, LineChar c := fun c hc =>
      lineChar_configLine h c (mem_of_mem_take hc)
    rw [cString_eq_self hnul, stripEnd_eq htake] at hstrip
    have hlen := length_needle_lt key
    rw [← hstrip, length_take, Nat.min_eq_left hlong] at hlen
    exact Nat.lt_irrefl 127 hlen
  · have heq : '=' ∈ stripEnd (cString '\x00' piece) := by
      rw [hstrip, configLine]
      exact mem_append_right _ mem_cons_self
    have hmem := Lines.mem_of_mem_pieces hpiece (mem_of_mem_stripEnd heq)
    rcases mem_append.mp hmem with hmem | hmem
    · exact eq_not_mem_drop h hmem
    · exact absurd (mem_singleton.mp hmem) (by decide)

/-- Among the pieces of a line, none but the whole line is taken for a line with the value 1. -/
theorem exists_piece_iff (key : ConfigKey) (h : Accepted entry) :
    (∃ piece, piece ∈ Lines.pieces '\n' 127 (configLine entry ++ ['\n']) ∧
      stripEnd (cString '\x00' piece) = configLine (key, ['1'])) ↔ entry = (key, ['1']) := by
  rcases Nat.lt_or_ge (configLine entry).length 127 with hshort | hlong
  · have hnul : '\x00' ∉ configLine entry := not_mem_configLine h (by decide)
    have hcString : cString '\x00' (configLine entry ++ ['\n']) = configLine entry ++ ['\n'] :=
      cString_eq_self (by simpa using hnul)
    simp only [pieces_short h hshort, mem_singleton, exists_eq_left, hcString,
      stripEnd_concat (lineChar_configLine h)]
    exact configLine_injective.eq_iff
  · refine iff_of_false ?_ ?_
    · rintro ⟨piece, hpiece, hstrip⟩
      exact not_piece_of_long key h hlong hpiece hstrip
    · rintro rfl
      exact Nat.not_le_of_lt (length_needle_lt key) hlong

theorem configLinePresent_writes
    (h : ∀ write ∈ writes, Accepted write) (key : ConfigKey) :
    configLinePresent (applyWrites writes) key.name ['1'] = true ↔
      lastValue key writes = some ['1'] := by
  rw [applyWrites_eq h]
  split
  · next hnil =>
    rw [hnil]
    exact iff_of_false nofun nofun
  · have hentry := accepted_entriesOf h
    rw [← mem_entriesOf writes (key, ['1'])]
    simp only [configLinePresent, needle_eq, Lines.pieces_render (not_mem_lines hentry), any_eq_true,
      mem_flatMap, mem_map, decide_eq_true_eq]
    constructor
    · rintro ⟨piece, ⟨line, ⟨entry, hmem, rfl⟩, hpiece⟩, hstrip⟩
      rwa [← (exists_piece_iff key (hentry entry hmem)).mp ⟨piece, hpiece, hstrip⟩]
    · intro hmem
      obtain ⟨piece, hpiece, hstrip⟩ := (exists_piece_iff key (hentry _ hmem)).mpr rfl
      exact ⟨piece, ⟨_, ⟨_, hmem, rfl⟩, hpiece⟩, hstrip⟩

end ConfigFileLemmas

open ConfigFileLemmas

/-- After any sequence of writes that were accepted, the file has one line for every key that was
written, with its last value; the daemon takes the items of the last list and the last setting
from it; and the injector finds a setting switched on exactly if its last value is 1. -/
theorem config_readers_agree {writes : List (ConfigKey × List Char)}
    (haccepted : ∀ write ∈ writes, write.2.all isValueChar = true) (mtime : Option Nat) :
    (∃ entries : List (ConfigKey × List Char),
      (applyWrites writes).elim [] (Lines.split '\n') = entries.map configLine ∧
      (entries.map Prod.fst).Nodup ∧
      ∀ key value, (key, value) ∈ entries ↔ lastValue key writes = some value) ∧
    readConfig (configState (applyWrites writes) mtime) =
      (commaItems ((lastValue .excludeApps writes).getD []),
        decide (lastValue .excludeUnmount writes ≠ some ['0'])) ∧
    ∀ key : ConfigKey, configLinePresent (applyWrites writes) key.name ['1'] = true ↔
      lastValue key writes = some ['1'] := by
  refine ⟨⟨entriesOf writes, ?_, nodup_entriesOf writes, fun key value => mem_entriesOf writes (key, value)⟩,
    readConfig_writes haccepted mtime, configLinePresent_writes haccepted⟩
  rw [applyWrites_eq haccepted]
  split
  · next hnil => rw [hnil]; rfl
  · exact Lines.split_render (not_mem_lines (accepted_entriesOf haccepted))

/-- A list of 140 characters whose second piece begins like the value of another line. -/
def longWrites : List (ConfigKey × List Char) :=
  [(.customLinker, ['0']), (.excludeApps, List.replicate 140 'a'), (.customLinker, ['1']),
    (.excludeApps, List.replicate 140 'b')]

theorem config_readers_agree_long :
    (∀ write ∈ longWrites, write.2.all isValueChar = true) ∧
      isCustomLinkerEnabled (applyWrites longWrites) = true ∧
      isAnonymousMemoryEnabled (applyWrites longWrites) = false := by
  have haccepted : ∀ write ∈ longWrites, write.2.all isValueChar = true := by decide +kernel
  have hagree := (config_readers_agree haccepted none).2.2
  refine ⟨haccepted, (hagree .customLinker).mpr rfl, ?_⟩
  exact Bool.eq_false_iff.mpr fun h => absurd ((hagree .anonymousMemory).mp h) (by decide)

end NyaZygisk
