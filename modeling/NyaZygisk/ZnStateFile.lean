import NyaZygisk.Lib.Lines
import NyaZygisk.DaemonWire

/-!
# The file of ZN states

`zn_states` counts for each library how often it was injected and how often it failed, and
`write_zn_state_file` shows the counts in a file, which it replaces through a staging file. A
`ReportZnModule` is handled by a thread of its own, that writes the file with the lock held; a
`ZygoteRestart` is handled in the main loop, which clears the map under the lock and then writes
the file without it.
-/

namespace NyaZygisk.ZnStateFile

open List Runs Wire

abbrev States : Type := List ZnState

def stateBytes (states : States) : List UInt8 := utf8 (znStateText states)

/-! ## Files -/

/-- The files that were made, and which of them the two names stand for. -/
structure Disk where
  files : List (List UInt8)
  /-- `zn_modules_state.tmp`. -/
  staging : Option Nat
  /-- `zn_modules_state`. -/
  target : Option Nat
  staging_lt : ∀ i ∈ staging, i < files.length
  target_lt : ∀ i ∈ target, i < files.length
  apart : ∀ i ∈ staging, i ∉ target
deriving DecidableEq

namespace Disk

variable (d : Disk)

/-- The file that the staging file is when it is opened for writing. -/
def stagingFile : Nat := d.staging.getD d.files.length

/-- The staging file opened for writing: made if there is none, and emptied otherwise. -/
def openStaging : Disk where
  files := if d.staging = none then d.files ++ [[]] else d.files.set d.stagingFile []
  staging := some d.stagingFile
  target := d.target
  staging_lt := by
    rintro _ ⟨⟩
    cases h : d.staging with
    | none => simp [stagingFile, h]
    | some i => simpa [stagingFile, h] using d.staging_lt i h
  target_lt i hi := by
    have hlt := d.target_lt i hi
    split
    · rw [length_append]
      exact Nat.lt_add_right _ hlt
    · rwa [length_set]
  apart := by
    rintro _ ⟨⟩ htarget
    cases h : d.staging with
    | none =>
      rw [stagingFile, h] at htarget
      exact absurd (d.target_lt _ htarget) (Nat.lt_irrefl _)
    | some i =>
      rw [stagingFile, h] at htarget
      exact d.apart i h htarget

/-- Bytes written to an open file, from its start. -/
def write (i : Nat) (bytes : List UInt8) : Disk where
  files := d.files.modify i fun old => bytes ++ old.drop bytes.length
  staging := d.staging
  target := d.target
  staging_lt j hj := by simpa using d.staging_lt j hj
  target_lt j hj := by simpa using d.target_lt j hj
  apart := d.apart

/-- The staging file takes the place of the other. -/
def rename : Disk where
  files := d.files
  staging := none
  target := d.staging.or d.target
  staging_lt := nofun
  target_lt i hi := by
    rcases Option.or_eq_some_iff.mp hi with h | ⟨_, h⟩
    · exact d.staging_lt i h
    · exact d.target_lt i h
  apart := nofun

/-- What the file holds. -/
def content : Option (List UInt8) := d.target.bind (d.files[·]?)

end Disk

/-- Where `write_zn_state_file` is. -/
inductive Writer
  | opening (bytes : List UInt8)
  | writing (file : Nat) (bytes : List UInt8)
  | replacing
deriving DecidableEq

/-- One step of `write_zn_state_file`; after the last there is none left. -/
def Writer.step : Writer → Disk → Option Writer × Disk
  | .opening bytes, d => (some (.writing d.stagingFile bytes), d.openStaging)
  | .writing file bytes, d => (some .replacing, d.write file bytes)
  | .replacing, d => (none, d.rename)

/-! ## Threads -/

/-- Where the handler is that has the lock. -/
inductive Holder
  | writing (writer : Writer)
  | unlocking
deriving DecidableEq

/-- Where the main loop is. -/
inductive MainLoop
  | accepting
  /-- A `ZygoteRestart` was read. -/
  | clearing
  | writing (writer : Writer)
deriving DecidableEq

structure System where
  states : States
  /-- What was counted since the last restart. -/
  reports : List (String × Bool)
  disk : Disk
  /-- The handlers that have not taken the lock. -/
  waiting : List (String × Bool)
  holder : Option Holder
  mainLoop : MainLoop
deriving DecidableEq

inductive Event
  /-- A connection with `ReportZnModule` is accepted. -/
  | report (libPath : String) (injected : Bool)
  /-- One with `ZygoteRestart` is. -/
  | restart
  | clear
  /-- The main loop goes on with the file. -/
  | mainWrite
  /-- A handler ends for a path that is not tracked, or takes the lock and counts its report. The
  modules directory is what `canonicalize` answers. -/
  | count (handler : Nat) (modulesDir : Option PathBuf)
  /-- The handler that has the lock goes on with the file. -/
  | handlerWrite
  | unlock
deriving DecidableEq

namespace System

variable (s : System)

/-- The handler drops out of those that wait. -/
def leave (handler : Nat) : System := { s with waiting := s.waiting.eraseIdx handler }

/-- `handle_report_zn_module` up to the file. -/
def count (libPath : String) (injected : Bool) : System :=
  { s with states := countReport s.states libPath injected
           reports := s.reports ++ [(libPath, injected)]
           holder := some (.writing (.opening (stateBytes (countReport s.states libPath injected)))) }

/-- The handler at this place goes on, with its paths in this directory. -/
def countAt (handler : Nat) (modulesDir : Option PathBuf) : Option System :=
  match s.waiting[handler]?, modulesDir with
  | none, _ => none
  | some _, none => some (s.leave handler)
  | some (libPath, injected), some dir =>
    if (PathBuf.ofString libPath).startsWith dir then
      if s.holder = none then some ((s.leave handler).count libPath injected) else none
    else some (s.leave handler)

def step : Event → Option System
  | .report libPath injected =>
    if s.mainLoop = .accepting then some { s with waiting := s.waiting ++ [(libPath, injected)] } else none
  | .restart => if s.mainLoop = .accepting then some { s with mainLoop := .clearing } else none
  | .clear =>
    if s.mainLoop = .clearing ∧ s.holder = none then
      some { s with states := [], reports := [], mainLoop := .writing (.opening (stateBytes [])) }
    else none
  | .mainWrite =>
    match s.mainLoop with
    | .writing writer =>
      some { s with mainLoop := (writer.step s.disk).1.elim .accepting .writing
                    disk := (writer.step s.disk).2 }
    | _ => none
  | .count handler modulesDir => s.countAt handler modulesDir
  | .handlerWrite =>
    match s.holder with
    | some (.writing writer) =>
      some { s with holder := some ((writer.step s.disk).1.elim .unlocking .writing)
                    disk := (writer.step s.disk).2 }
    | _ => none
  | .unlock => if s.holder = some .unlocking then some { s with holder := none } else none

/-- No handler is in progress. -/
def Quiet : Prop := s.waiting = [] ∧ s.holder = none ∧ s.mainLoop = .accepting

end System

def Step (s : System) (e : Event) (t : System) : Prop := s.step e = some t

/-! ## What the file says -/

/-- The lines of the file that are not empty. -/
def lines (content : Option (List UInt8)) : List (List UInt8) :=
  (content.elim [] (Lines.split 10)).filter (· ≠ [])

/-- What the file has to say of a library. -/
def saying (reports : List (String × Bool)) (state : ZnState) : String :=
  (if ∃ r ∈ reports, PathBuf.ofString r.1 = state.key ∧ r.2 = false then "failed" else "injected") ++
    " " ++ state.written

/-- The file has one line for each library of the map. -/
structure Mirrors (s : System) : Prop where
  keys : (s.states.map ZnState.key).Nodup
  lines : (lines s.disk.content).Perm (s.states.map fun state => utf8 (saying s.reports state))

/-- A daemon that has just started, where no file says anything. -/
structure Fresh (s : System) : Prop where
  states : s.states = []
  reports : s.reports = []
  blank : lines s.disk.content = []
  waiting : s.waiting = []
  holder : s.holder = none
  mainLoop : s.mainLoop = .accepting

/-- The step is not one in which a report is counted while the main loop writes the file. -/
def Calm (s : System) (e : Event) : Prop :=
  ∀ handler modulesDir, e = .count handler modulesDir → ∀ writer, s.mainLoop ≠ .writing writer

/-! ## A writer alone with the files -/

namespace ZnStateFileLemmas

/-- The writer is about to put these bytes into the file. -/
def Ready (d : Disk) (bytes : List UInt8) : Writer → Prop
  | .opening b => b = bytes
  | .writing i b => b = bytes ∧ d.staging = some i ∧ d.files[i]? = some []
  | .replacing => ∃ i, d.staging = some i ∧ d.files[i]? = some bytes

theorem openStaging_empty (d : Disk) : d.openStaging.files[d.stagingFile]? = some [] := by
  show (ite _ _ _ : List (List UInt8))[_]? = _
  split
  · next h => simp [Disk.stagingFile, h]
  · next h =>
    obtain ⟨i, hi⟩ := Option.ne_none_iff_exists'.mp h
    rw [Disk.stagingFile, hi]
    exact getElem?_set_self (d.staging_lt i hi)

variable {s : System} {w : Writer}

/-- A writer that nobody disturbs ends with its bytes in the file. -/
theorem step_ready {d : Disk} {bytes : List UInt8} (h : Ready d bytes w) :
    (∀ w', (w.step d).1 = some w' → Ready (w.step d).2 bytes w') ∧
      ((w.step d).1 = none → (w.step d).2.content = some bytes) := by
  cases w with
  | opening b =>
    refine ⟨fun w' hw => ?_, nofun⟩
    cases hw
    exact ⟨h, rfl, openStaging_empty d⟩
  | writing i b =>
    obtain ⟨rfl, hstaging, hempty⟩ := h
    refine ⟨fun w' hw => ?_, nofun⟩
    cases hw
    refine ⟨i, hstaging, ?_⟩
    simp [Writer.step, Disk.write, hempty]
  | replacing =>
    obtain ⟨i, hstaging, hfile⟩ := h
    refine ⟨nofun, fun _ => ?_⟩
    show (d.staging.or d.target).bind (d.files[·]?) = some bytes
    rw [hstaging]
    exact hfile

/-! ## The map -/

/-- The map after these reports. -/
def counted (reports : List (String × Bool)) : States :=
  reports.foldl (fun states r => countReport states r.1 r.2) []

theorem counted_snoc (reports : List (String × Bool)) (libPath : String) (injected : Bool) :
    counted (reports ++ [(libPath, injected)]) = countReport (counted reports) libPath injected := by
  rw [counted, foldl_append]
  rfl

/-- How often this was reported of the library. -/
def tally (reports : List (String × Bool)) (key : PathBuf) (injected : Bool) : Nat :=
  (reports.map fun r => (PathBuf.ofString r.1, r.2)).count (key, injected)

theorem tally_snoc (reports : List (String × Bool)) (r : String × Bool) (key : PathBuf) (injected : Bool) :
    tally (reports ++ [r]) key injected =
      tally reports key injected + if (PathBuf.ofString r.1, r.2) = (key, injected) then 1 else 0 := by
  rw [tally, map_append, count_append, map_singleton, count_singleton]
  simp only [beq_iff_eq]
  rfl

/-- An entry of the map was first written in one of the reports, and counts them. -/
structure Tallied (reports : List (String × Bool)) (state : ZnState) : Prop where
  written : ∃ injected, (state.written, injected) ∈ reports ∧ PathBuf.ofString state.written = state.key
  injected : state.injected = UInt32.ofNat (tally reports state.key true)
  failed : state.failed = UInt32.ofNat (tally reports state.key false)

/-- The map has each library that was reported, once. -/
structure Counts (reports : List (String × Bool)) (states : States) : Prop where
  keys : (states.map ZnState.key).Nodup
  tallied : ∀ state ∈ states, Tallied reports state
  complete : ∀ r ∈ reports, PathBuf.ofString r.1 ∈ states.map ZnState.key

theorem tally_eq_zero {reports : List (String × Bool)} {states : States} (h : Counts reports states)
    {key : PathBuf} (hkey : key ∉ states.map ZnState.key) (injected : Bool) :
      tally reports key injected = 0 := by
  refine count_eq_zero.mpr fun hmem => hkey ?_
  obtain ⟨r, hr, heq⟩ := mem_map.mp hmem
  cases heq
  exact h.complete r hr

/-- The entry that a report is counted in. -/
theorem tallied_entry {reports : List (String × Bool)} {states : States} (h : Counts reports states)
    (libPath : String) (injected : Bool) {state : ZnState}
    (hstate : (states.find? fun state => state.key = PathBuf.ofString libPath).getD
      ⟨PathBuf.ofString libPath, libPath, 0, 0⟩ = state) :
    state.key = PathBuf.ofString libPath ∧
      (∃ b, (state.written, b) ∈ reports ++ [(libPath, injected)] ∧
        PathBuf.ofString state.written = state.key) ∧
      state.injected = UInt32.ofNat (tally reports state.key true) ∧
      state.failed = UInt32.ofNat (tally reports state.key false) := by
  cases hfind : states.find? fun state => state.key = PathBuf.ofString libPath with
  | none =>
    rw [hfind] at hstate
    subst hstate
    have hnew : PathBuf.ofString libPath ∉ states.map ZnState.key := by simpa using hfind
    refine ⟨rfl, ⟨injected, mem_append_right _ (mem_singleton_self _), rfl⟩, ?_, ?_⟩
    · exact congrArg UInt32.ofNat (tally_eq_zero h hnew true).symm
    · exact congrArg UInt32.ofNat (tally_eq_zero h hnew false).symm
  | some found =>
    rw [hfind] at hstate
    subst hstate
    obtain ⟨⟨b, hmem, hkey⟩, hinjected, hfailed⟩ := h.tallied found (mem_of_find?_eq_some hfind)
    have hsame : found.key = PathBuf.ofString libPath := by simpa using find?_some hfind
    exact ⟨hsame, ⟨b, mem_append_left _ hmem, hkey⟩, hinjected, hfailed⟩

theorem Counts.snoc {reports : List (String × Bool)} {states : States} (h : Counts reports states)
    (libPath : String) (injected : Bool) :
    Counts (reports ++ [(libPath, injected)]) (countReport states libPath injected) := by
  generalize hstate : (states.find? fun state => state.key = PathBuf.ofString libPath).getD
    ⟨PathBuf.ofString libPath, libPath, 0, 0⟩ = state
  obtain ⟨hkey, hwritten, hinjected, hfailed⟩ := tallied_entry h libPath injected hstate
  simp only [countReport, hstate]
  generalize hcounted : (if injected then { state with injected := state.injected + 1 }
    else { state with failed := state.failed + 1 }) = counted
  have hcountedKey : counted.key = PathBuf.ofString libPath := by
    rw [← hcounted, ← hkey]
    split <;> rfl
  refine ⟨nodup_cons.mpr ⟨?_, h.keys.sublist (filter_sublist.map _)⟩,
    forall_mem_cons.mpr ⟨?_, fun other hother => ?_⟩, fun r hr => ?_⟩
  · simp [hcountedKey]
  · rw [← hcounted]
    cases injected with
    | true => exact ⟨hwritten, by simp [tally_snoc, hinjected, hkey, UInt32.ofNat_add],
        by simp [tally_snoc, hfailed, hkey]⟩
    | false => exact ⟨hwritten, by simp [tally_snoc, hinjected, hkey],
        by simp [tally_snoc, hfailed, hkey, UInt32.ofNat_add]⟩
  · obtain ⟨hmem, hne⟩ := mem_filter.mp hother
    have hne : PathBuf.ofString libPath ≠ other.key := fun heq => of_decide_eq_true hne heq.symm
    obtain ⟨⟨b, hreport, hwritten⟩, hinjected, hfailed⟩ := h.tallied other hmem
    refine ⟨⟨b, mem_append_left _ hreport, hwritten⟩, ?_, ?_⟩
    · simpa [tally_snoc, hne] using hinjected
    · simpa [tally_snoc, hne] using hfailed
  · rw [map_cons, mem_cons, hcountedKey]
    by_cases hsame : PathBuf.ofString r.1 = PathBuf.ofString libPath
    · exact .inl hsame
    · have hold : r ∈ reports := by
        refine (mem_append.mp hr).resolve_right fun hlast => hsame ?_
        rw [mem_singleton.mp hlast]
      obtain ⟨other, hmem, heq⟩ := mem_map.mp (h.complete r hold)
      refine .inr (mem_map.mpr ⟨other, mem_filter.mpr ⟨hmem, ?_⟩, heq⟩)
      exact decide_eq_true (heq ▸ hsame)

theorem counts_counted (reports : List (String × Bool)) : Counts reports (counted reports) := by
  induction reports using List.reverseRecOn with
  | nil => exact ⟨nodup_nil, nofun, nofun⟩
  | append_singleton reports r ih =>
    rw [counted_snoc]
    exact ih.snoc r.1 r.2

/-- The line for an entry of the map. -/
def line (state : ZnState) : String :=
  (if 0 < state.failed then "failed" else if 0 < state.injected then "injected" else "unknown") ++
    " " ++ state.written

theorem ofNat_pos_iff {n : Nat} (h : n < 2 ^ 32) : 0 < UInt32.ofNat n ↔ 0 < n := by
  rw [UInt32.lt_iff_toNat_lt, UInt32.toNat_ofNat_of_lt' h]
  rfl

/-- The line says what was reported, as long as the counters have not wrapped. -/
theorem line_eq {reports : List (String × Bool)} (hlen : reports.length < 2 ^ 32) {state : ZnState}
    (h : Tallied reports state) : line state = saying reports state := by
  have hlt : ∀ injected, tally reports state.key injected < 2 ^ 32 := fun injected =>
    count_le_length.trans_lt (by rwa [length_map])
  have hpos : ∀ injected, 0 < tally reports state.key injected ↔
      ∃ r ∈ reports, PathBuf.ofString r.1 = state.key ∧ r.2 = injected := by
    simp [tally, count_pos_iff]
  rw [line, saying, h.failed, h.injected]
  simp only [ofNat_pos_iff (hlt _), hpos]
  split
  · rfl
  · next hfailed =>
    obtain ⟨injected, hreport, hkey⟩ := h.written
    cases injected with
    | false => exact absurd ⟨_, hreport, hkey, rfl⟩ hfailed
    | true => rw [if_pos ⟨_, hreport, hkey, rfl⟩]

/-! ## The lines of the text -/

theorem utf8_append (a b : String) : utf8 (a ++ b) = utf8 a ++ utf8 b := by
  simp [utf8]

/-- A byte that starts or continues a longer encoding is not 10. -/
theorem ten_ne_marked (x : Nat) {size mark : Nat} (hsize : 0 < size) (hmark : 10 < mark)
    (hfits : size + mark ≤ 256) : 10 ≠ UInt8.ofNat (x % size + mark) := by
  intro h
  have hlt : x % size + mark < 256 := (Nat.add_lt_add_right (Nat.mod_lt x hsize) mark).trans_le hfits
  have hnat := congrArg UInt8.toNat h
  rw [UInt8.toNat_ofNat_of_lt' hlt] at hnat
  exact absurd hnat (Nat.ne_of_lt (hmark.trans_le (Nat.le_add_left mark _)))

/-- Only a newline is encoded with the byte 10. -/
theorem newline_of_mem_encode {c : Char} (h : 10 ∈ String.utf8EncodeChar c) : c = '\n' := by
  unfold String.utf8EncodeChar at h
  simp only at h
  split at h
  · next hle =>
    rw [mem_singleton] at h
    have hnat := congrArg UInt8.toNat h
    rw [UInt8.toNat_ofNat_of_lt' (Nat.lt_of_le_of_lt hle (by decide))] at hnat
    exact Char.ext (UInt32.toNat_inj.mp hnat.symm)
  · have hnext : ∀ x, 10 ≠ UInt8.ofNat (x % 64 + 128) := fun x =>
      ten_ne_marked x (by decide) (by decide) (by decide)
    exfalso
    split at h
    · simp only [mem_cons, not_mem_nil, or_false, hnext] at h
      exact ten_ne_marked _ (by decide) (by decide) (by decide) h
    · split at h
      · simp only [mem_cons, not_mem_nil, or_false, hnext] at h
        exact ten_ne_marked _ (by decide) (by decide) (by decide) h
      · simp only [mem_cons, not_mem_nil, or_false, hnext] at h
        exact ten_ne_marked _ (by decide) (by decide) (by decide) h

theorem newline_not_mem_utf8 {text : String} (h : '\n' ∉ text.toList) : 10 ∉ utf8 text := by
  intro hmem
  rw [utf8, String.toUTF8_eq_toByteArray, ← String.utf8Encode_toList] at hmem
  simp only [List.utf8Encode, toList_data_toByteArray, mem_flatMap] at hmem
  obtain ⟨c, hc, hten⟩ := hmem
  rw [newline_of_mem_encode hten] at hc
  exact h hc

theorem utf8_newline : utf8 "\n" = [10] := by decide +kernel

theorem utf8_intercalate (l : String) (ls : List String) :
    utf8 ("\n".intercalate (l :: ls) ++ "\n") = Lines.render 10 ((l :: ls).map utf8) := by
  induction ls generalizing l with
  | nil =>
    rw [String.intercalate_singleton, utf8_append, utf8_newline]
    simp
  | cons l' ls ih =>
    rw [String.intercalate_cons_cons, String.append_assoc, String.append_assoc, utf8_append, utf8_append, ih,
      utf8_newline]
    simp

/-- The lines of the map, in the order of the file. -/
def sorted (states : States) : List String := (states.map line).mergeSort fun a b => decide (a ≤ b)

theorem znStateText_eq (states : States) :
    znStateText states = "\n".intercalate (sorted states) ++ "\n" := rfl

theorem newline_not_mem_line {state : ZnState} (h : '\n' ∉ state.written.toList) :
    '\n' ∉ (line state).toList := by
  unfold line
  simp only [String.toList_append, mem_append, not_or]
  refine ⟨⟨?_, by decide⟩, h⟩
  split
  · decide
  · split <;> decide

theorem utf8_line_ne_nil (state : ZnState) : utf8 (line state) ≠ [] := by
  have hspace : utf8 " " = [32] := by decide +kernel
  rw [line, utf8_append, utf8_append, hspace]
  simp

/-- Reading the text gives back the lines. -/
theorem lines_stateBytes {states : States} (h : ∀ state ∈ states, '\n' ∉ state.written.toList) :
    lines (some (stateBytes states)) = (sorted states).map utf8 := by
  have hmem : ∀ l ∈ sorted states, 10 ∉ utf8 l ∧ utf8 l ≠ [] := by
    intro l hl
    obtain ⟨state, hstate, rfl⟩ := mem_map.mp (mem_mergeSort.mp hl)
    exact ⟨newline_not_mem_utf8 (newline_not_mem_line (h state hstate)), utf8_line_ne_nil state⟩
  rw [lines, Option.elim_some, stateBytes, znStateText_eq]
  cases hsorted : sorted states with
  | nil =>
    rw [String.intercalate_nil, String.empty_append, utf8_newline]
    rfl
  | cons l ls =>
    rw [hsorted] at hmem
    have hlines : ∀ bs ∈ (l :: ls).map utf8, 10 ∉ bs ∧ bs ≠ [] := forall_mem_map.mpr hmem
    rw [utf8_intercalate, Lines.split_render fun bs hbs => (hlines bs hbs).1, filter_eq_self]
    exact fun bs hbs => decide_eq_true (hlines bs hbs).2

/-! ## Runs -/

/-- The file holds the text of the map, or nothing while the map is empty. -/
def Shown (s : System) : Prop :=
  s.disk.content = some (stateBytes s.states) ∨ (s.states = [] ∧ lines s.disk.content = [])

/-- The map has what was reported, and there is at most one writer, with the text of the map. -/
structure Inv (s : System) : Prop where
  states : s.states = counted s.reports
  shown : (∀ w, s.holder ≠ some (.writing w)) → (∀ w, s.mainLoop ≠ .writing w) → Shown s
  handler : ∀ w, s.holder = some (.writing w) → Ready s.disk (stateBytes s.states) w
  restart : ∀ w, s.mainLoop = .writing w → Ready s.disk (stateBytes s.states) w ∧ s.holder = none

theorem Inv.start (h : Fresh s) : Inv s where
  states := by rw [h.states, h.reports]; rfl
  shown _ _ := .inr ⟨h.states, h.blank⟩
  handler w hw := by rw [h.holder] at hw; cases hw
  restart w hw := by rw [h.mainLoop] at hw; cases hw

theorem Inv.leave (h : Inv s) (handler : Nat) : Inv (s.leave handler) :=
  ⟨h.states, h.shown, h.handler, h.restart⟩

theorem Inv.count (h : Inv s) (hmain : ∀ w, s.mainLoop ≠ .writing w) (libPath : String)
    (injected : Bool) : Inv (s.count libPath injected) where
  states := by
    show countReport s.states libPath injected = counted (s.reports ++ [(libPath, injected)])
    rw [counted_snoc, h.states]
  shown hholder := absurd rfl (hholder _)
  handler w hw := by
    cases hw
    rfl
  restart w hw := absurd hw (hmain w)

theorem elim_accepting {o : Option Writer} :
    o.elim MainLoop.accepting MainLoop.writing = .writing w ↔ o = some w := by
  cases o <;> simp

theorem elim_unlocking {o : Option Writer} :
    some (o.elim Holder.unlocking Holder.writing) = some (.writing w) ↔ o = some w := by
  cases o <;> simp

theorem Inv.mainWrite (h : Inv s) (hmain : s.mainLoop = .writing w) :
    Inv { s with mainLoop := (w.step s.disk).1.elim .accepting .writing, disk := (w.step s.disk).2 } := by
  obtain ⟨hready, hfree⟩ := h.restart w hmain
  obtain ⟨hnext, hlast⟩ := step_ready hready
  refine ⟨h.states, fun _ hdone => .inl (hlast ?_), fun w' hw => ?_, fun w' hw => ⟨?_, hfree⟩⟩
  · exact Option.eq_none_iff_forall_ne_some.mpr fun w' hw => hdone w' (elim_accepting.mpr hw)
  · exact nomatch hfree.symm.trans hw
  · exact hnext w' (elim_accepting.mp hw)

theorem Inv.handlerWrite (h : Inv s) (hholder : s.holder = some (.writing w)) :
    Inv { s with
      holder := some ((w.step s.disk).1.elim .unlocking .writing), disk := (w.step s.disk).2 } := by
  obtain ⟨hnext, hlast⟩ := step_ready (h.handler w hholder)
  have hmain : ∀ w', s.mainLoop ≠ .writing w' := fun w' hw =>
    nomatch hholder.symm.trans (h.restart w' hw).2
  refine ⟨h.states, fun hdone _ => .inl (hlast ?_), fun w' hw => ?_, fun w' hw => absurd hw (hmain w')⟩
  · exact Option.eq_none_iff_forall_ne_some.mpr fun w' hw => hdone w' (elim_unlocking.mpr hw)
  · exact hnext w' (elim_unlocking.mp hw)

theorem Inv.countAt {t : System} {handler : Nat} {modulesDir : Option PathBuf} (h : Inv s)
    (hmain : ∀ w, s.mainLoop ≠ .writing w) (hstep : s.countAt handler modulesDir = some t) : Inv t := by
  unfold System.countAt at hstep
  split at hstep
  · cases hstep
  · cases hstep
    exact h.leave handler
  · next libPath injected dir _ =>
    split at hstep
    · obtain ⟨-, ht⟩ := Option.ite_none_right_eq_some.mp hstep
      cases ht
      exact (h.leave handler).count hmain libPath injected
    · cases hstep
      exact h.leave handler

theorem Inv.step {t : System} {e : Event} (h : Inv s) (hcalm : Calm s e) (hstep : Step s e t) : Inv t := by
  cases e with
  | report libPath injected =>
    obtain ⟨-, ht⟩ := Option.ite_none_right_eq_some.mp hstep
    cases ht
    exact ⟨h.states, h.shown, h.handler, h.restart⟩
  | restart =>
    obtain ⟨hmain, ht⟩ := Option.ite_none_right_eq_some.mp hstep
    cases ht
    exact ⟨h.states, fun hholder _ => h.shown hholder (by rw [hmain]; exact nofun), h.handler, nofun⟩
  | clear =>
    obtain ⟨⟨-, hfree⟩, ht⟩ := Option.ite_none_right_eq_some.mp hstep
    cases ht
    refine ⟨rfl, fun _ hmain => absurd rfl (hmain _), fun w hw => ?_, fun w hw => ⟨?_, hfree⟩⟩
    · exact nomatch hfree.symm.trans hw
    · cases hw
      rfl
  | mainWrite =>
    cases hmain : s.mainLoop with
    | accepting | clearing => simp [Step, System.step, hmain] at hstep
    | writing w =>
      simp only [Step, System.step, hmain, Option.some.injEq] at hstep
      subst hstep
      exact h.mainWrite hmain
  | count handler modulesDir => exact h.countAt (hcalm handler modulesDir rfl) hstep
  | handlerWrite =>
    cases hholder : s.holder with
    | none => simp [Step, System.step, hholder] at hstep
    | some holder =>
      cases holder with
      | unlocking => simp [Step, System.step, hholder] at hstep
      | writing w =>
        simp only [Step, System.step, hholder, Option.some.injEq] at hstep
        subst hstep
        exact h.handlerWrite hholder
  | unlock =>
    obtain ⟨hholder, ht⟩ := Option.ite_none_right_eq_some.mp hstep
    cases ht
    exact ⟨h.states, fun _ => h.shown (by rw [hholder]; exact nofun), nofun,
      fun w hw => ⟨(h.restart w hw).1, rfl⟩⟩

theorem mirrors_of_shown (hstates : s.states = counted s.reports) (hshown : Shown s)
    (hpaths : ∀ r ∈ s.reports, '\n' ∉ r.1.toList) (hcount : s.reports.length < 2 ^ 32) :
    Mirrors s := by
  have hcounts : Counts s.reports s.states := hstates ▸ counts_counted s.reports
  refine ⟨hcounts.keys, ?_⟩
  rcases hshown with hcontent | ⟨hempty, hblank⟩
  · have hclean : ∀ state ∈ s.states, '\n' ∉ state.written.toList := by
      intro state hstate
      obtain ⟨injected, hreport, -⟩ := (hcounts.tallied state hstate).written
      exact hpaths _ hreport
    have hlines : s.states.map (fun state => utf8 (saying s.reports state)) =
        (s.states.map line).map utf8 := by
      rw [map_map]
      refine map_congr_left fun state hstate => ?_
      rw [Function.comp_apply, line_eq hcount (hcounts.tallied state hstate)]
    rw [hcontent, lines_stateBytes hclean, hlines]
    exact (mergeSort_perm _ _).map utf8
  · rw [hempty, hblank]
    exact List.Perm.nil

end ZnStateFileLemmas

open ZnStateFileLemmas

/-! ## Handlers that are not interrupted -/

/-- The state of the daemon in `Daemon`. -/
structure Matches (s : System) (d : Daemon) : Prop where
  states : s.states = d.znStates
  file : s.disk.content = d.znStateFile.map utf8
  quiet : s.Quiet

/-- The files after `write_zn_state_file`. -/
def Disk.replaced (d : Disk) (bytes : List UInt8) : Disk := (d.openStaging.write d.stagingFile bytes).rename

theorem content_replaced (d : Disk) (bytes : List UInt8) : (d.replaced bytes).content = some bytes := by
  have hopened : Ready d.openStaging bytes (.writing d.stagingFile bytes) := ⟨rfl, rfl, openStaging_empty d⟩
  exact (step_ready ((step_ready hopened).1 _ rfl)).2 rfl

theorem reaches_counted (states : States) (reports : List (String × Bool)) (disk : Disk)
    {libPath : String} {dir : PathBuf} (injected : Bool)
    (hdir : (PathBuf.ofString libPath).startsWith dir = true) :
    Reaches Step ⟨states, reports, disk, [(libPath, injected)], none, .accepting⟩
      ⟨countReport states libPath injected, reports ++ [(libPath, injected)],
        disk.replaced (stateBytes (countReport states libPath injected)), [], none, .accepting⟩ := by
  let waiting : System := ⟨states, reports, disk, [(libPath, injected)], none, .accepting⟩
  have hcount : Step waiting (.count 0 (some dir)) ((waiting.leave 0).count libPath injected) := if_pos hdir
  refine .head hcount (.head (i := .handlerWrite) rfl (.head (i := .handlerWrite) rfl ?_))
  exact .head (i := .handlerWrite) rfl (.single (i := .unlock) rfl)

/-- A report that is handled alone is handled as in `Daemon`. -/
theorem report_alone {s : System} {d : Daemon} (h : Matches s d) (os : Os) (hos : os.writeStateFile = true)
    (libPath : String) (injected : UInt8) :
    ∃ t, Reaches Step s t ∧ Matches t (handleReportZnModule os d libPath injected).2 := by
  obtain ⟨hstates, hfile, hquiet⟩ := h
  rcases s with ⟨states, reports, disk, waiting, holder, mainLoop⟩
  obtain ⟨rfl, rfl, rfl⟩ := hquiet
  have haccept : Step ⟨states, reports, disk, [], none, .accepting⟩
      (.report libPath (injected ≠ 0))
      ⟨states, reports, disk, [(libPath, decide (injected ≠ 0))], none, .accepting⟩ := rfl
  unfold handleReportZnModule
  cases hdir : os.canonicalize pathModulesDir.toString with
  | none => exact ⟨_, .head haccept (.single (i := .count 0 none) rfl), hstates, hfile, rfl, rfl, rfl⟩
  | some dir =>
    show ∃ t, _ ∧ Matches t (ite _ _ _)
    split
    · next htracked =>
      refine ⟨_, .head haccept (reaches_counted states reports disk _ htracked), ?_⟩
      rw [Daemon.writeZnStateFile, if_pos hos]
      have hcounted := congrArg (countReport · libPath (injected ≠ 0)) hstates
      refine ⟨hcounted, (content_replaced _ _).trans ?_, rfl, rfl, rfl⟩
      exact congrArg (fun m => some (stateBytes m)) hcounted
    · next htracked =>
      exact ⟨_, .head haccept (.single (i := .count 0 (some dir)) (if_neg htracked)), hstates, hfile, rfl,
        rfl, rfl⟩

theorem refreshModules_zn (d : Daemon) (os : Os) :
    (d.refreshModules os).2.znStates = d.znStates ∧ (d.refreshModules os).2.znStateFile = d.znStateFile := by
  unfold Daemon.refreshModules
  split
  · exact ⟨rfl, rfl⟩
  · exact ⟨rfl, rfl⟩

/-- And so is a restart. -/
theorem restart_alone {s : System} {d : Daemon} (h : Matches s d) (os : Os) (hos : os.writeStateFile = true) :
    ∃ t, Reaches Step s t ∧ Matches t (handleZygoteRestart os d).2 := by
  obtain ⟨hstates, hfile, hquiet⟩ := h
  rcases s with ⟨states, reports, disk, waiting, holder, mainLoop⟩
  obtain ⟨rfl, rfl, rfl⟩ := hquiet
  have hreaches : Reaches Step ⟨states, reports, disk, [], none, .accepting⟩
      ⟨[], [], disk.replaced (stateBytes []), [], none, .accepting⟩ := by
    refine .head (i := .restart) rfl (.head (i := .clear) rfl (.head (i := .mainWrite) rfl ?_))
    exact .head (i := .mainWrite) rfl (.single (i := .mainWrite) rfl)
  obtain ⟨hmap, htext⟩ := refreshModules_zn (d.dropCompanions.writeZnStateFile os) os
  rw [Daemon.writeZnStateFile, if_pos hos] at hmap htext
  refine ⟨_, hreaches, ?_, ?_, rfl, rfl, rfl⟩
  · rw [handleZygoteRestart, Daemon.writeZnStateFile, if_pos hos, hmap]
    rfl
  · rw [handleZygoteRestart, Daemon.writeZnStateFile, if_pos hos, htext, content_replaced]
    rfl

/-- Whenever no handler is in progress, the file mirrors the map, if no report was counted while
the main loop was writing the file. -/
theorem mirrors_map {start s : System} {tr : List (System × Event)} (hstart : Fresh start)
    (hrun : Run Step start tr s) (hcalm : ∀ p ∈ tr, Calm p.1 p.2) (hquiet : s.Quiet)
    (hpaths : ∀ r ∈ s.reports, '\n' ∉ r.1.toList) (hcount : s.reports.length < 2 ^ 32) :
    Mirrors s := by
  have hinv := ((hrun.restrict Calm hcalm).invariant Inv (fun _ _ _ h ⟨hok, hstep⟩ =>
    h.step hok hstep) (.start hstart)).1
  obtain ⟨-, hfree, hidle⟩ := hquiet
  exact mirrors_of_shown hinv.states (hinv.shown (by rw [hfree]; exact nofun) (by rw [hidle]; exact nofun))
    hpaths hcount

/-- A library that failed to load, and its line. -/
def failingLibrary : String := "/data/adb/modules/nya/lib/nya.so"

def started : System := ⟨[], [], ⟨[], none, none, nofun, nofun, nofun⟩, [], none, .accepting⟩

/-- The daemon after a report, or after a restart, whose file can be written. -/
def serve (d : Daemon) : Os × Option (String × UInt8) → Daemon
  | (os, some (libPath, injected)) =>
      (handleReportZnModule { os with writeStateFile := true } d libPath injected).2
  | (os, none) => (handleZygoteRestart { os with writeStateFile := true } d).2

/-- What requests one after the other make of the map and the file in `Daemon`, the threads make of
them as well. -/
theorem serial_history (d : Daemon) (requests : List (Os × Option (String × UInt8))) :
    ∃ t, Reaches Step started t ∧
      Matches t (requests.foldl serve { d with znStates := [], znStateFile := none }) := by
  induction requests using List.reverseRecOn with
  | nil => exact ⟨started, ⟨[], .refl⟩, rfl, rfl, rfl, rfl, rfl⟩
  | append_singleton requests r ih =>
    obtain ⟨s, hs, hmatches⟩ := ih
    rw [foldl_concat]
    obtain ⟨t, ht, hmatches'⟩ : ∃ t, Reaches Step s t ∧ Matches t (serve _ r) :=
      match r with
      | (os, some (libPath, injected)) => report_alone hmatches _ rfl libPath injected
      | (os, none) => restart_alone hmatches _ rfl
    exact ⟨t, hs.trans ht, hmatches'⟩

theorem fresh_started : Fresh started := ⟨rfl, rfl, rfl, rfl, rfl, rfl⟩

def failedReport : List Event :=
  [.report failingLibrary false, .count 0 (some pathModulesDir), .handlerWrite, .handlerWrite, .handlerWrite,
    .unlock]

theorem mirrors_map_failed :
    ∃ tr s, Run Step started tr s ∧ tr.map Prod.snd = failedReport ∧ s.Quiet ∧
      s.states = [⟨PathBuf.ofString failingLibrary, failingLibrary, 0, 1⟩] ∧ Mirrors s := by
  obtain ⟨hrun, hlabels⟩ := run_exec_get (show (exec System.step started failedReport).isSome = true from rfl)
  refine ⟨_, _, hrun, hlabels, ⟨rfl, rfl, rfl⟩, rfl, ?_⟩
  refine mirrors_map fresh_started hrun (fun p hp _ _ _ w hw => ?_) ⟨rfl, rfl, rfl⟩
    (forall_mem_singleton.mpr (by decide +kernel)) (Nat.one_lt_two_pow (by decide))
  have hall : List.all _ (fun p : System × Event => decide (p.1.mainLoop = .accepting)) = true :=
    show List.all ((exec System.step started failedReport).get rfl).1 _ = true from rfl
  have hidle := of_decide_eq_true (all_eq_true.mp hall p hp)
  exact nomatch hidle.symm.trans hw

/-! ## A report that is lost -/

/-- A report is accepted, and then a restart; its handler takes the lock between the clearing of
the map and the writing of the file. -/
def lateReport : List Event :=
  [.report failingLibrary false, .restart, .clear, .count 0 (some pathModulesDir), .handlerWrite,
    .handlerWrite, .handlerWrite, .unlock, .mainWrite, .mainWrite, .mainWrite]

theorem stateBytes_nil : stateBytes [] = [10] := by
  rw [stateBytes, znStateText_eq, sorted, map_nil, mergeSort_nil, String.intercalate_nil,
    String.empty_append, utf8_newline]

/-- The map has the library, and the file has no line. -/
theorem report_lost :
    Fresh started ∧ ∃ tr s, Run Step started tr s ∧ tr.map Prod.snd = lateReport ∧ s.Quiet ∧
      s.states = [⟨PathBuf.ofString failingLibrary, failingLibrary, 0, 1⟩] ∧ lines s.disk.content =
        [] ∧ ¬ Mirrors s := by
  obtain ⟨hrun, hlabels⟩ := run_exec_get (show (exec System.step started lateReport).isSome = true from rfl)
  have hblank : lines (some (stateBytes [] ++ List.drop (stateBytes []).length [])) = [] := by
    rw [stateBytes_nil]
    rfl
  refine ⟨fresh_started, _, _, hrun, hlabels, ⟨rfl, rfl, rfl⟩, rfl, hblank, fun h => ?_⟩
  have hlines := h.lines.length_eq
  rw [length_map] at hlines
  exact absurd (hlines.symm.trans (congrArg List.length hblank)) (by decide)

end NyaZygisk.ZnStateFile
