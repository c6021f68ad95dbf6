import NyaZygisk.ModuleProp

/-!
# Rewriting module.prop

Every monitor reads the `module.prop` that the ones before it have written, and every change of its
status is written to it.
-/

namespace NyaZygisk

open CStrings Lines List NormalForms Runs

namespace ModuleProp

/-! ## Specification -/

/-- The lines of a file, without what ends them. -/
def propLines (file : List Char) : List (List Char) := (split '\n' file).map withoutLineEnd

/-- There is one description: a status, and the text. -/
def IsDescribed (file text : List Char) : Prop :=
  ∃ lp64 monitorOk abiOk,
    descriptions (propLines file) = [statusText lp64 monitorOk abiOk ++ text]

structure Preserved (file installed : List Char) : Prop where
  kept : (propLines installed).filter isKept = (propLines file).filter isKept
  described : ∃ text, Ends Strips (original (propLines file)) text ∧ IsDescribed installed text
  preSection : ∀ lp64, (readProp lp64 installed).preSection = (readProp lp64 file).preSection
  postSection : ∀ lp64, (readProp lp64 installed).postSection = (readProp lp64 file).postSection

/-- No line that counts has a NUL in it, and no line is kept behind a description of which nothing
is left. -/
structure Intact (file : List Char) : Prop where
  kept : ∀ l ∈ (propLines file).filter isKept, nul ∉ l
  description : nul ∉ original (propLines file)
  behind : after (propLines file) = [] ∨ ¬ Ends Strips (original (propLines file)) []

/-- The last version code of a file is a number that another one in it is larger than. A monitor of
this build takes the file for that of a newer version, and leaves it alone. -/
def LeftAlone (lp64 : Bool) (file : List Char) : Prop :=
  ∃ last, last ∈ (versionCodes lp64 file).getLast? ∧ 0 ≤ last ∧
    ∃ code, code ∈ versionCodes lp64 file ∧ last < code

/-- What is written is put together without loss; what is left alone has one description already,
with a status. -/
def Rewritable (file : List Char) : Prop :=
  ∀ lp64, (LeftAlone lp64 file →
      ∃ text, Ends Strips (original (propLines file)) text ∧ IsDescribed file text) ∧
    (¬ LeftAlone lp64 file → Intact file)

namespace PropRewritingLemmas

open ModulePropLemmas

variable {file l : List Char}

/-! ## Plain lines -/

structure Plain (l : List Char) : Prop where
  feed : '\n' ∉ l
  nul : nul ∉ l
  last : ∀ c ∈ l.getLast?, isLineEnd c = false

theorem Plain.suffix {l' : List Char} (h : Plain l) (hsuffix : l' <:+ l) : Plain l' where
  feed hmem := h.feed (hsuffix.mem hmem)
  nul hmem := h.nul (hsuffix.mem hmem)
  last := by
    intro c hc
    obtain ⟨front, rfl⟩ := hsuffix
    refine h.last c ?_
    have hne : l' ≠ [] := by
      rintro rfl
      cases hc
    rwa [getLast?_append_of_ne_nil _ hne]

theorem Plain.withoutLineEnd (h : Plain l) : withoutLineEnd l = l := by
  refine rdropWhile_eq_self_iff.mpr fun hne => ?_
  rw [h.last _ (getLast?_eq_some_getLast hne)]
  exact Bool.false_ne_true

theorem plain_read {v : List Char} (hfeed : '\n' ∉ v) :
    Plain (ModuleProp.withoutLineEnd (cString nul v)) where
  feed hmem := hfeed ((List.takeWhile_prefix _).mem ((List.rdropWhile_prefix _ _).mem hmem))
  nul hmem := by
    have hc := mem_takeWhile_imp ((List.rdropWhile_prefix _ _).mem hmem)
    exact absurd rfl (of_decide_eq_true hc)
  last := by
    intro c hc
    obtain ⟨hne, rfl⟩ := mem_getLast?_eq_getLast hc
    exact Bool.eq_false_iff.mpr (rdropWhile_last_not _ _ hne)

theorem plain_codeLines (h : l ∈ codeLines file) : Plain l := by
  simp only [codeLines, fileReadline, mem_map] at h
  obtain ⟨_, ⟨v, hv, rfl⟩, rfl⟩ := h
  exact plain_read (not_mem_of_mem_split hv)

theorem ne_nil_of_kept (h : isKept l = true) : l ≠ [] := by
  rintro rfl
  exact absurd h (by decide)

/-! ## What is written -/

/-- The description and the lines behind it as they come to stand in the file: with nothing left of
the description, the first line takes its place. -/
def joined : List Char → List (List Char) → List Char × List (List Char)
  | [], l :: ls => (l, ls)
  | text, ls => (text, ls)

variable {lp64 : Bool} {ls pre : List (List Char)} {installed text : List Char} {w : Props}

theorem joined_eq (h : ls = [] ∨ text ≠ []) : joined text ls = (text, ls) := by
  cases text <;> cases ls <;> first | rfl | simp at h

/-- A line is lost to a text that is empty. -/
theorem joined_snd_eq (h : (joined text ls).2 = ls) : ls = [] ∨ text ≠ [] := by
  cases text <;> cases ls <;> simp_all [joined]

theorem foldl_addLine_joined (text : List Char) (ls : List (List Char))
    (hne : ∀ l ∈ ls, l ≠ []) :
    ls.foldl (addLine '\n') text ++ ['\n'] =
      render '\n' ((joined text ls).1 :: (joined text ls).2) := by
  cases text with
  | cons c rest => exact foldl_addLine (cons_ne_nil c rest) ls
  | nil =>
    cases ls with
    | nil => rfl
    | cons l ls =>
      rw [foldl_cons, addLine_nil]
      exact foldl_addLine (hne l mem_cons_self) ls

section

variable {text : List Char} {ls : List (List Char)} (htext : Plain text)
  (hls : ∀ l ∈ ls, Plain l ∧ isKept l = true)

include htext hls

theorem last_foldl_addLine : (ls.foldl (addLine '\n') text).getLast? ≠ some '\n' := by
  intro heq
  have hlast : isLineEnd '\n' = false :=
    getLast?_foldl_addLine (P := fun c => isLineEnd c = false) htext.last
      (fun l hl => ne_nil_of_kept (hls l hl).2) (fun l hl => (hls l hl).1.last) '\n' heq
  exact absurd hlast (by decide)

theorem joined_plain :
    Plain (joined text ls).1 ∧ ∀ l ∈ (joined text ls).2, Plain l ∧ isKept l = true := by
  rcases text, ls with ⟨_ | _, _ | _⟩
  case nil.cons l ls => exact ⟨(hls l mem_cons_self).1, fun l' hl' => hls l' (mem_cons_of_mem _ hl')⟩
  all_goals exact ⟨htext, hls⟩

end

def describing (status text : List Char) : List Char := descriptionKey ++ status ++ text

theorem plain_nil : Plain [] := ⟨not_mem_nil, not_mem_nil, fun _ h => by cases h⟩

/-- The first section, with a line feed at its end. -/
theorem preSection_eq_render
    (hpre : ∀ l ∈ pre, Plain l ∧ isKept l = true) :
    (if pre.foldl (addLine '\n') [] ≠ [] ∧ (pre.foldl (addLine '\n') []).getLast? ≠ some '\n' then
      pre.foldl (addLine '\n') [] ++ ['\n'] else pre.foldl (addLine '\n') []) = render '\n' pre := by
  have hlast := last_foldl_addLine plain_nil hpre
  cases pre with
  | nil => rfl
  | cons l ls =>
    have hne := ne_nil_of_kept (hpre l mem_cons_self).2
    rw [foldl_cons, addLine_nil] at hlast ⊢
    rw [if_pos ⟨foldl_addLine_ne_nil hne ls, hlast⟩, foldl_addLine hne]

theorem written_eq_render {s : Sections} {post : List (List Char)}
    (hpreSection : s.preSection = pre.foldl (addLine '\n') [])
    (hpostSection : s.postSection = post.foldl (addLine '\n') text)
    (htext : Plain text) (hpre : ∀ l ∈ pre, Plain l ∧ isKept l = true)
    (hpost : ∀ l ∈ post, Plain l ∧ isKept l = true) (status : List Char) :
    written s status =
      render '\n' (pre ++ describing status (joined text post).1 :: (joined text post).2) := by
  have hlast := last_foldl_addLine htext hpost
  have hend : (if s.postSection ≠ [] ∧ s.postSection.getLast? ≠ some '\n' then
      s.postSection ++ ['\n'] else if s.postSection = [] then ['\n'] else s.postSection) =
        s.postSection ++ ['\n'] := by
    rw [← hpostSection] at hlast
    cases hsection : s.postSection with
    | nil => rfl
    | cons c rest => exact if_pos ⟨cons_ne_nil c rest, hsection ▸ hlast⟩
  have hjoined := foldl_addLine_joined text post fun l hl => ne_nil_of_kept (hpost l hl).2
  rw [render_cons] at hjoined
  simp only [written]
  rw [hend, hpreSection, preSection_eq_render hpre, hpostSection, hjoined, render_append, render_cons,
    describing]
  simp only [append_assoc]

/-! ## The lines of what is written -/

theorem Plain.append {l' : List Char} (h : Plain l) (h' : Plain l') : Plain (l ++ l') where
  feed hmem := (mem_append.mp hmem).elim h.feed h'.feed
  nul hmem := (mem_append.mp hmem).elim h.nul h'.nul
  last := by
    intro c hc
    rw [getLast?_append, Option.mem_def, Option.or_eq_some_iff] at hc
    rcases hc with hc | ⟨_, hc⟩
    · exact h'.last c hc
    · exact h.last c hc

theorem plain_describing (lp64 monitorOk abiOk : Bool) (h : Plain text) :
    Plain (describing (statusText lp64 monitorOk abiOk) text) := by
  have hlast : (descriptionKey ++ statusText lp64 monitorOk abiOk).getLast? = some ' ' := by
    cases lp64 <;> cases monitorOk <;> cases abiOk <;> decide
  refine Plain.append ⟨?_, ?_, ?_⟩ h
  · cases lp64 <;> cases monitorOk <;> cases abiOk <;> decide
  · cases lp64 <;> cases monitorOk <;> cases abiOk <;> decide
  · intro c hc
    cases hlast.symm.trans hc
    rfl

theorem propLines_render (h : ∀ l ∈ ls, Plain l) :
    propLines (render '\n' ls) = ls := by
  rw [propLines, split_render fun l hl => (h l hl).feed]
  exact (map_congr_left fun l hl => (h l hl).withoutLineEnd).trans (map_id ls)

theorem codeLines_render (h : ∀ l ∈ ls, Plain l) :
    codeLines (render '\n' ls) = ls := by
  rw [codeLines, fileReadline, split_render fun l hl => (h l hl).feed, map_map]
  refine (map_congr_left fun l hl => ?_).trans (map_id ls)
  rw [Function.comp_apply, cString_eq_self (h l hl).nul, (h l hl).withoutLineEnd, id]

theorem not_description_of_kept (h : isKept l = true) : isDescription l = false := by
  rw [isKept, Bool.and_eq_true, Bool.not_eq_true'] at h
  exact h.2

/-- A file with one description between lines that are kept. -/
theorem lines_around {post : List (List Char)} {d : List Char}
    (hpre : ∀ l ∈ pre, isKept l = true) (hd : isDescription d = true)
    (hpost : ∀ l ∈ post, isKept l = true) :
    before (pre ++ d :: post) = pre ∧ after (pre ++ d :: post) = post ∧
      descriptions (pre ++ d :: post) = [d.drop 12] := by
  have hkept := not_kept_of_description hd
  have hbefore : ∀ l ∈ pre, (!isDescription l) = true := fun l hl => by
    rw [not_description_of_kept (hpre l hl), Bool.not_false]
  refine ⟨?_, ?_, ?_⟩
  · rw [before, takeWhile_append_of_pos hbefore, takeWhile_cons_of_neg (by simp [hd]),
      append_nil]
    exact filter_eq_self.mpr hpre
  · rw [after, dropWhile_append_of_pos hbefore, dropWhile_cons_of_neg (by simp [hd]),
      filter_cons_of_neg (by simp [hkept])]
    exact filter_eq_self.mpr hpost
  · have hnone : ∀ ls : List (List Char), (∀ l ∈ ls, isKept l = true) →
        ls.filter isDescription = [] := by
      intro ls hls
      refine filter_eq_nil_iff.mpr fun l hl => ?_
      rw [not_description_of_kept (hls l hl)]
      exact Bool.false_ne_true
    rw [descriptions, filter_append, hnone pre hpre, nil_append, filter_cons_of_pos hd,
      hnone post hpost, map_singleton]

theorem before_append_after (ls : List (List Char)) :
    before ls ++ after ls = ls.filter isKept := by
  rw [before, after, ← filter_append, takeWhile_append_dropWhile]

/-! ## What a monitor has read -/

/-- The description as it is read and cleaned. -/
def readText (file : List Char) : List Char := cleanDescription (original (codeLines file))

theorem preSection_readProp (lp64 : Bool) (file : List Char) :
    (readProp lp64 file).preSection = (before (codeLines file)).foldl (addLine '\n') [] :=
  congrArg Prod.fst (text_readProp lp64 file)

theorem postSection_readProp (lp64 : Bool) (file : List Char) :
    (readProp lp64 file).postSection =
      (after (codeLines file)).foldl (addLine '\n') (readText file) :=
  congrArg (fun t => t.2.1) (text_readProp lp64 file)

theorem before_codeLines (h : l ∈ before (codeLines file)) : Plain l ∧ isKept l = true := by
  obtain ⟨hmem, hkept⟩ := mem_filter.mp h
  exact ⟨plain_codeLines ((List.takeWhile_prefix _).mem hmem), hkept⟩

theorem after_codeLines (h : l ∈ after (codeLines file)) : Plain l ∧ isKept l = true := by
  obtain ⟨hmem, hkept⟩ := mem_filter.mp h
  exact ⟨plain_codeLines ((dropWhile_suffix _).mem hmem), hkept⟩

theorem plain_original (h : ∀ l ∈ ls, Plain l) : Plain (original ls) := by
  rw [original, descriptions]
  cases hfilter : ls.filter isDescription with
  | nil => exact plain_nil
  | cons l rest =>
    have hmem : l ∈ ls := mem_of_mem_filter (hfilter ▸ mem_cons_self)
    exact (h l hmem).suffix (drop_suffix 12 l)

theorem plain_readText (file : List Char) : Plain (readText file) := by
  have hplain : Plain (original (codeLines file)) := plain_original fun l hl => plain_codeLines hl
  exact hplain.suffix (cleanDescription_suffix _)

theorem joined_read (file : List Char) :
    Plain (joined (readText file) (after (codeLines file))).1 ∧
      ∀ l ∈ (joined (readText file) (after (codeLines file))).2, Plain l ∧ isKept l = true :=
  joined_plain (plain_readText file) fun _ => after_codeLines

theorem written_readProp (lp64 : Bool) (file status : List Char) :
    written (readProp lp64 file) status =
      render '\n' (before (codeLines file) ++
        describing status (joined (readText file) (after (codeLines file))).1 ::
          (joined (readText file) (after (codeLines file))).2) :=
  written_eq_render (preSection_readProp lp64 file) (postSection_readProp lp64 file)
    (plain_readText file) (fun _ => before_codeLines) (fun _ => after_codeLines) status

theorem lines_written (build lp64 monitorOk abiOk : Bool) (file : List Char)
    {behind : List (List Char)}
    (hinstalled : installed = written (readProp build file) (statusText lp64 monitorOk abiOk))
    (hjoined : joined (readText file) (after (codeLines file)) = (text, behind)) :
    propLines installed = codeLines installed ∧
      before (codeLines installed) = before (codeLines file) ∧
      after (codeLines installed) = behind ∧
      descriptions (codeLines installed) = [statusText lp64 monitorOk abiOk ++ text] := by
  obtain ⟨htext, hbehind⟩ := joined_read file
  rw [written_readProp, hjoined] at hinstalled
  rw [hjoined] at htext hbehind
  have hplain : ∀ l ∈ before (codeLines file) ++
      describing (statusText lp64 monitorOk abiOk) text :: behind, Plain l := by
    intro l hl
    rcases mem_append.mp hl with hl | hl
    · exact (before_codeLines hl).1
    · rcases mem_cons.mp hl with rfl | hl
      · exact plain_describing lp64 monitorOk abiOk htext
      · exact (hbehind l hl).1
  have hdescription : isDescription (describing (statusText lp64 monitorOk abiOk) text) = true :=
    isPrefixOf_iff_prefix.mpr (by
      rw [describing, append_assoc]
      exact prefix_append ..)
  obtain ⟨hbefore, hafter, hdescriptions⟩ := lines_around (fun l hl => (before_codeLines hl).2)
    hdescription fun l hl => (hbehind l hl).2
  rw [hinstalled, propLines_render hplain, codeLines_render hplain]
  refine ⟨rfl, hbefore, hafter, hdescriptions.trans ?_⟩
  rw [describing, append_assoc]
  rfl

/-! ## Lines with and without NULs -/

section

variable {v : List Char}

theorem read_of_nul_free (h : nul ∉ withoutLineEnd v) :
    withoutLineEnd (cString nul v) = withoutLineEnd v := by
  have hv : nul ∉ v := by
    rw [← rdropWhile_append_rtakeWhile (p := isLineEnd) (l := v)]
    intro hmem
    rcases mem_append.mp hmem with hmem | hmem
    · exact h hmem
    · exact absurd (mem_rtakeWhile_imp hmem) (by decide)
  rw [cString_eq_self hv]

theorem key_read {key : List Char} (hkey : Plain key)
    (h : key.isPrefixOf (withoutLineEnd v) = true) :
    key.isPrefixOf (withoutLineEnd (cString nul v)) = true := by
  refine isPrefixOf_iff_prefix.mpr (key_withoutLineEnd hkey.withoutLineEnd ?_)
  obtain ⟨rest, hrest⟩ :=
    (List.isPrefixOf_iff_prefix.mp h).trans (List.rdropWhile_prefix isLineEnd v)
  rw [← hrest, cString, takeWhile_append_of_pos]
  · exact prefix_append ..
  · exact fun c hc => decide_eq_true fun heq => hkey.nul (heq ▸ hc)

theorem plain_key {key : List Char} (h : key ∈ descriptionKey :: generatedKeys) : Plain key := by
  have hkeys : ∀ key ∈ descriptionKey :: generatedKeys, '\n' ∉ key ∧ nul ∉ key ∧
      (key.getLast? = some '=' ∨ key.getLast? = some '_') := by decide
  obtain ⟨hfeed, hnul, hlast⟩ := hkeys key h
  refine ⟨hfeed, hnul, fun c hc => ?_⟩
  rcases hlast with hlast | hlast <;> cases hlast.symm.trans hc <;> rfl

theorem description_read (h : isDescription (withoutLineEnd v) = true) :
    isDescription (withoutLineEnd (cString nul v)) = true :=
  key_read (plain_key mem_cons_self) h

theorem generated_read (h : isGeneratedKey (withoutLineEnd v) = true) :
    isGeneratedKey (withoutLineEnd (cString nul v)) = true := by
  obtain ⟨key, hmem, hkey⟩ := any_eq_true.mp h
  exact any_eq_true.mpr
    ⟨key, hmem, key_read (plain_key (mem_cons_of_mem _ hmem)) hkey⟩

/-- A line is read for what it is. -/
structure Agrees (v : List Char) : Prop where
  kept : isKept (withoutLineEnd (cString nul v)) = isKept (withoutLineEnd v)
  description : isDescription (withoutLineEnd (cString nul v)) = isDescription (withoutLineEnd v)
  same : isKept (withoutLineEnd v) = true → withoutLineEnd (cString nul v) = withoutLineEnd v

theorem agrees_of_same (h : withoutLineEnd (cString nul v) = withoutLineEnd v) : Agrees v :=
  ⟨by rw [h], by rw [h], fun _ => h⟩

/-- Unless it is to be kept and has a NUL in it. -/
theorem agrees (h : isKept (withoutLineEnd v) = true → nul ∉ withoutLineEnd v) : Agrees v := by
  cases hdescription : isDescription (withoutLineEnd v) with
  | true =>
    have hread := description_read hdescription
    have hkept := not_kept_of_description hdescription
    exact ⟨by rw [hkept, not_kept_of_description hread], by rw [hread, hdescription],
      fun hkept' => absurd (hkept.symm.trans hkept') Bool.false_ne_true⟩
  | false =>
    cases hgenerated : isGeneratedKey (withoutLineEnd v) with
    | true =>
      have hread := generated_read hgenerated
      have hother : isDescription (withoutLineEnd (cString nul v)) = false := by
        by_contra hd
        rw [(not_skipped_of_description (Bool.not_eq_false _ ▸ hd)).2] at hread
        cases hread
      exact ⟨by simp [isKept, hread, hgenerated], by rw [hother, hdescription],
        fun hkept => by simp [isKept, hgenerated] at hkept⟩
    | false =>
      cases hblank : isBlank (withoutLineEnd v) with
      | true =>
        refine agrees_of_same (read_of_nul_free fun hmem => ?_)
        exact absurd (all_eq_true.mp hblank nul hmem) (by decide)
      | false =>
        refine agrees_of_same (read_of_nul_free (h ?_))
        rw [isKept, hblank, hgenerated, hdescription]
        rfl

end

section

variable {vs : List (List Char)} (h : ∀ v ∈ vs, Agrees v)

include h

theorem kept_agree :
    let read := vs.map fun v => withoutLineEnd (cString nul v)
    read.filter isKept = (vs.map withoutLineEnd).filter isKept ∧
      before read = before (vs.map withoutLineEnd) ∧ after read = after (vs.map withoutLineEnd) := by
  induction vs with
  | nil => exact ⟨rfl, rfl, rfl⟩
  | cons v vs ih =>
    have hv := h v mem_cons_self
    obtain ⟨hfilter, hbefore, hafter⟩ := ih fun v' hv' => h v' (mem_cons_of_mem _ hv')
    cases hkept : isKept (withoutLineEnd v) <;>
      simp [before_cons, after_cons, hv.kept, hv.description, hv.same, hkept, hfilter,
        hbefore, hafter]

theorem original_agrees (hnul : nul ∉ original (vs.map withoutLineEnd)) :
    original (vs.map fun v => withoutLineEnd (cString nul v)) = original (vs.map withoutLineEnd) := by
  induction vs with
  | nil => rfl
  | cons v vs ih =>
    have hvs : ∀ v' ∈ vs, Agrees v' := fun v' hv' => h v' (mem_cons_of_mem _ hv')
    rw [map_cons, original_cons] at hnul
    rw [map_cons, map_cons, original_cons, original_cons,
      (h v mem_cons_self).description]
    cases hdescription : isDescription (withoutLineEnd v) with
    | false =>
      rw [hdescription] at hnul
      exact ih hvs hnul
    | true =>
      rw [hdescription, if_pos rfl] at hnul
      obtain ⟨rest, hrest⟩ := isPrefixOf_iff_prefix.mp hdescription
      have hline : nul ∉ withoutLineEnd v := by
        rw [← hrest] at hnul ⊢
        exact fun hmem => (mem_append.mp hmem).elim (by decide) hnul
      rw [if_pos rfl, if_pos rfl, read_of_nul_free hline]

end

theorem codeLines_eq (file : List Char) :
    codeLines file = (split '\n' file).map fun v => withoutLineEnd (cString nul v) := by
  rw [codeLines, fileReadline, map_map]
  rfl

theorem agrees_lines (h : ∀ l ∈ (propLines file).filter isKept, nul ∉ l) :
    before (codeLines file) = before (propLines file) ∧
      after (codeLines file) = after (propLines file) ∧
      (nul ∉ original (propLines file) →
        original (codeLines file) = original (propLines file)) := by
  have hagrees : ∀ v ∈ split '\n' file, Agrees v := fun v hv =>
    agrees fun hkept => h _ (mem_filter.mpr ⟨mem_map_of_mem hv, hkept⟩)
  obtain ⟨-, hbefore, hafter⟩ := kept_agree hagrees
  rw [codeLines_eq]
  exact ⟨hbefore, hafter, original_agrees hagrees⟩

/-! ## One rewriting -/

def IsWritten (file installed : List Char) : Prop :=
  ∃ build lp64 monitorOk abiOk,
    installed = written (readProp build file) (statusText lp64 monitorOk abiOk)

theorem kept_eq_of_propLines (h : propLines file = codeLines file) :
    (propLines file).filter isKept = before (codeLines file) ++ after (codeLines file) := by
  rw [h, before_append_after]

theorem preserved_of_intact (h : Intact file)
    (hwritten : IsWritten file installed) : Preserved file installed := by
  obtain ⟨build, lp64, monitorOk, abiOk, hinstalled⟩ := hwritten
  obtain ⟨hbefore, hafter, horiginal⟩ := agrees_lines h.kept
  have hread : Ends Strips (original (propLines file)) (readText file) := by
    rw [readText, horiginal h.description]
    exact cleanDescription_spec h.description
  have hjoined : joined (readText file) (after (codeLines file)) =
      (readText file, after (codeLines file)) := by
    refine joined_eq (h.behind.imp (fun hnil => hafter.trans hnil) fun hleft hnil => ?_)
    exact hleft (hnil ▸ hread)
  obtain ⟨hlines, hbefore', hafter', hdescriptions⟩ :=
    lines_written build lp64 monitorOk abiOk file hinstalled hjoined
  have horiginal' : original (codeLines installed) =
      statusText lp64 monitorOk abiOk ++ readText file := by
    rw [original, hdescriptions, headD_cons]
  have htext : readText installed = readText file := by
    have hnul : nul ∉ original (codeLines installed) :=
      (plain_original fun l hl => plain_codeLines hl).nul
    exact cleanDescription_eq hnul (horiginal' ▸ ends_status lp64 monitorOk abiOk hread.normal)
  exact
    { kept := by
        rw [kept_eq_of_propLines hlines, hbefore', hafter', hbefore, hafter, before_append_after]
      described := ⟨readText file, hread, lp64, monitorOk, abiOk, hlines ▸ hdescriptions⟩
      preSection := fun build => by
        rw [preSection_readProp, preSection_readProp, hbefore']
      postSection := fun build => by
        rw [postSection_readProp, postSection_readProp, hafter', htext] }

/-- The status line has one length, so the text behind it can be told. -/
theorem eq_text_of_isDescribed {text' : List Char} {monitorOk abiOk : Bool}
    (h : IsDescribed installed text')
    (hdescriptions : descriptions (propLines installed) = [statusText lp64 monitorOk abiOk ++ text]) :
    text = text' := by
  obtain ⟨lp64', monitorOk', abiOk', hdescribed⟩ := h
  rw [hdescriptions, singleton_inj] at hdescribed
  have hlength := (length_statusText lp64 monitorOk abiOk).trans
    (length_statusText lp64' monitorOk' abiOk').symm
  exact (append_inj hdescribed hlength).2

theorem intact_of_preserved (hwritten : IsWritten file installed)
    (h : Preserved file installed) : Intact file := by
  obtain ⟨build, lp64, monitorOk, abiOk, hinstalled⟩ := hwritten
  obtain ⟨text, behind, hjoined⟩ : ∃ text behind,
      joined (readText file) (after (codeLines file)) = (text, behind) := ⟨_, _, rfl⟩
  obtain ⟨hlines, hbefore', hafter', hdescriptions⟩ :=
    lines_written build lp64 monitorOk abiOk file hinstalled hjoined
  have hkept : ∀ l ∈ (propLines file).filter isKept, nul ∉ l := by
    intro l hl
    rw [← h.kept, hlines] at hl
    exact (plain_codeLines (mem_of_mem_filter hl)).nul
  have hends : Ends Strips (original (propLines file)) text := by
    obtain ⟨text', hends, hdescribed⟩ := h.described
    rw [← hlines] at hdescriptions
    rwa [eq_text_of_isDescribed hdescribed hdescriptions]
  have hdescription : nul ∉ original (propLines file) := by
    rw [hends.preserves (P := fun d => nul ∈ d) fun _ _ => nul_strips]
    have hplain := (joined_read file).1.nul
    rwa [hjoined] at hplain
  obtain ⟨hbefore, hafter, horiginal⟩ := agrees_lines hkept
  have hbehind : behind = after (codeLines file) := by
    have hall := h.kept
    rw [kept_eq_of_propLines hlines, hbefore', hafter', ← before_append_after, ← hbefore,
      ← hafter] at hall
    exact append_cancel_left hall
  refine ⟨hkept, hdescription, ?_⟩
  rw [← hafter]
  have hsnd : (joined (readText file) (after (codeLines file))).2 = after (codeLines file) := by
    rw [hjoined, hbehind]
  rcases joined_snd_eq hsnd with hnone | hread
  · exact .inl hnone
  · refine .inr fun hnothing => hread ?_
    rw [readText, horiginal hdescription]
    exact cleanDescription_eq hdescription hnothing

/-! ## Runs -/

theorem leftAlone_iff :
    LeftAlone lp64 file ↔
      externallyUpdated lp64 (readProp lp64 file).initialVersionCode file = true := by
  rw [externallyUpdated_iff, initialVersionCode_readProp, getLastD_eq_getLast?, LeftAlone]
  cases (versionCodes lp64 file).getLast? with
  | none | some last => simp

theorem installedStatus_ne_nil (s : Session) (m : AppMonitor) : installedStatus s m ≠ [] :=
  append_ne_nil_of_right_ne_nil _ (cons_ne_nil '\n' [])

theorem isWritten_runtimeStatus {s : Session} {m : AppMonitor} {build : Bool}
    (hpre : s.sections.preSection = (readProp build file).preSection)
    (hpost : s.sections.postSection = (readProp build file).postSection) :
    IsWritten file (runtimeStatus s m) := by
  refine ⟨build, s.lp64, m.tracingState = .tracing,
    m.status.supported && m.status.daemonRunning && m.status.zygoteInjected, ?_⟩
  rw [runtimeStatus, written, written, hpre, hpost]

/-- The file is as it was and the monitor leaves it alone, or it has been written. -/
def Standing (file : List Char) (s : Session) (installed : List Char) : Prop :=
  (installed = file ∧ LeftAlone s.lp64 file ∧
      s.sections.initialVersionCode = (readProp s.lp64 file).initialVersionCode) ∨
    (Intact file ∧ IsWritten file installed)

inductive Inv (file : List Char) : Props → Prop
  | fresh {runtime : List Char} : Inv file ⟨file, runtime, none⟩
  | running {installed runtime : List Char} {s : Session}
      (hpre : s.sections.preSection = (readProp s.lp64 file).preSection)
      (hpost : s.sections.postSection = (readProp s.lp64 file).postSection)
      (hstanding : Standing file s installed) : Inv file ⟨installed, runtime, some s⟩

theorem inv_updateStatus {runtime : List Char} {s : Session} (m : AppMonitor)
    (hpre : s.sections.preSection = (readProp s.lp64 file).preSection)
    (hpost : s.sections.postSection = (readProp s.lp64 file).postSection)
    (hstanding : Standing file s installed) :
    Inv file (updateStatus ⟨installed, runtime, some s⟩ s m) := by
  unfold updateStatus
  split
  · exact .running hpre hpost hstanding
  · refine .running hpre hpost ?_
    dsimp only
    split
    · exact hstanding
    · next hcode =>
      rcases hstanding with ⟨rfl, hleft, hversion⟩ | ⟨hintact, _⟩
      · exact absurd (hversion ▸ leftAlone_iff.mp hleft) hcode
      · exact .inr ⟨hintact, isWritten_runtimeStatus hpre hpost⟩

def started (lp64 : Bool) (file : List Char) : Session := ⟨lp64, readProp lp64 file, []⟩

/-- A new monitor writes the file unless it leaves it alone. -/
theorem prepareEnvironment_eq (w : Props) (lp64 : Bool) (m : AppMonitor) :
    ∃ status, (LeftAlone lp64 w.installed → prepareEnvironment w lp64 m =
        ⟨w.installed, status, some { started lp64 w.installed with lastWrittenStatus := status }⟩) ∧
      (¬ LeftAlone lp64 w.installed → prepareEnvironment w lp64 m =
        ⟨runtimeStatus (started lp64 w.installed) m, status,
          some { started lp64 w.installed with lastWrittenStatus := status }⟩) := by
  have hnew : prepareEnvironment w lp64 m = _ := if_neg (installedStatus_ne_nil (started lp64 w.installed) m)
  rw [hnew]
  refine ⟨installedStatus (started lp64 w.installed) m, fun h => ?_, fun h => ?_⟩
  · exact congrArg (fun f => Props.mk f _ _) (if_pos (leftAlone_iff.mp h))
  · exact congrArg (fun f => Props.mk f _ _) (if_neg (mt leftAlone_iff.mpr h))

/-- A monitor starts with the file as it was at first. -/
theorem inv_start {runtime : List Char} {session : Option Session} (h : Rewritable file)
    (lp64 : Bool) (m : AppMonitor) : Inv file (prepareEnvironment ⟨file, runtime, session⟩ lp64 m) := by
  obtain ⟨_, hleaves, hwrites⟩ := prepareEnvironment_eq ⟨file, runtime, session⟩ lp64 m
  by_cases hleft : LeftAlone lp64 file
  · rw [hleaves hleft]
    exact .running rfl rfl (.inl ⟨rfl, hleft, rfl⟩)
  · rw [hwrites hleft]
    exact .running rfl rfl (.inr ⟨(h lp64).2 hleft, isWritten_runtimeStatus rfl rfl⟩)

theorem inv_next (h : Rewritable file) (hw : Inv file w)
    (event : Event) : Inv file (next w event) := by
  cases hw with
  | fresh =>
    cases event with
    | start lp64 m => exact inv_start h lp64 m
    | update m => exact .fresh
  | running hpre hpost hstanding =>
    cases event with
    | update m => exact inv_updateStatus m hpre hpost hstanding
    | start lp64 m =>
      rcases hstanding with ⟨rfl, _⟩ | ⟨hintact, hwritten⟩
      · exact inv_start h lp64 m
      · have hpreserved := preserved_of_intact hintact hwritten
        exact inv_updateStatus m (hpreserved.preSection lp64) (hpreserved.postSection lp64)
          (.inr ⟨hintact, hwritten⟩)

theorem preserved_of_inv (h : Rewritable file) (hw : Inv file w)
    (hsession : w.session.isSome = true) : Preserved file w.installed := by
  cases hw with
  | fresh => cases hsession
  | running hpre hpost hstanding =>
    rcases hstanding with ⟨rfl, hleft, _⟩ | ⟨hintact, hwritten⟩
    · exact ⟨rfl, (h _).1 hleft, fun _ => rfl, fun _ => rfl⟩
    · exact preserved_of_intact hintact hwritten

end PropRewritingLemmas

open PropRewritingLemmas

/-- Over every sequence of starts and updates, with any state of the monitor at each of them: once a
monitor has started, the installed file has the lines and the description of the original one, and
would be taken apart in the same way, exactly when the original can be rewritten. -/
theorem module_prop_preserved_iff (file : List Char) :
    (∀ events : List Event, (events.foldl next (fresh file)).session.isSome = true →
      Preserved file (events.foldl next (fresh file)).installed) ↔ Rewritable file := by
  constructor
  · intro h lp64
    have hstart := h [.start lp64 AppMonitor.idle]
    rw [foldl_cons, foldl_nil, next] at hstart
    obtain ⟨_, hleaves, hwrites⟩ := prepareEnvironment_eq (fresh file) lp64 AppMonitor.idle
    constructor
    · intro hleft
      rw [hleaves hleft] at hstart
      exact (hstart rfl).described
    · intro hleft
      rw [hwrites hleft] at hstart
      exact intact_of_preserved (isWritten_runtimeStatus rfl rfl) (hstart rfl)
  · intro h events
    exact preserved_of_inv h
      ((run_path next (fresh file) events).invariant (Inv file)
        (fun w event _ hw hnext => hnext ▸ inv_next h hw event) .fresh).1

/-- A description with nothing in it, and a line behind it. -/
def emptyDescription : List Char := "id=x\ndescription=\nauthor=me\n".toList

/-- The line comes to stand in the description. -/
theorem line_joins_description :
    (next (fresh emptyDescription) (.start true AppMonitor.idle)).installed =
        "id=x\ndescription=[Monitor: OK, NyaZygisk 64-bit: NO] author=me\n".toList ∧
      ¬ Preserved emptyDescription
        (next (fresh emptyDescription) (.start true AppMonitor.idle)).installed := by
  have hinstalled : (next (fresh emptyDescription) (.start true AppMonitor.idle)).installed =
      "id=x\ndescription=[Monitor: OK, NyaZygisk 64-bit: NO] author=me\n".toList := by
    decide +kernel
  refine ⟨hinstalled, fun h => ?_⟩
  have hkept := h.kept
  rw [hinstalled] at hkept
  exact absurd hkept (by decide +kernel)

end ModuleProp

end NyaZygisk
