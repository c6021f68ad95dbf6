import NyaZygisk.Relocate

/-!
# The words that relocations touch

Which words `Image::Relocate` reads as addends or writes. Only the lambda `apply` looks at the
range of the mapping, and only at the start of a word: a RELR table does not go through it, and a
table without addends is read before it.
-/

namespace NyaZygisk

open List Words

variable {w : Nat}

/-! ## The tables -/

section Tables

variable (env : RelocEnv w) (img : RelocImage w) (mem : Memory w)

/-- The word at `a` lies in the mapping with all its bytes. -/
def RelocImage.HasWord (a : BitVec w) : Prop :=
  img.mapStart.toNat ≤ a.toNat ∧ a.toNat + w / 8 ≤ img.mapStart.toNat + img.mapSize.toNat

instance (a : BitVec w) : Decidable (img.HasWord a) := inferInstanceAs (Decidable (_ ∧ _))

def RelocImage.entryTarget (e : RelocEntry w) : BitVec w := img.loadBias + e.offset

/-- The start of the target is outside of the mapping, or the relocation is none that is known. -/
def RelocImage.refuses (e : RelocEntry w) : Bool :=
  !decide (img.Inside (img.entryTarget e)) || !(img.relocValue env mem e.info 0).isOk

def RelocImage.stores (e : RelocEntry w) : Bool :=
  (img.relocValue env mem e.info 0).toOption.any Option.isSome

/-- What is read and written for an entry that the loop comes to. -/
def RelocImage.touches (e : RelocEntry w) : List (BitVec w) :=
  (if e.addend = none then [img.entryTarget e] else []) ++
    if !img.refuses env mem e && img.stores env mem e then [img.entryTarget e] else []

/-- The entries up to the first that is refused. -/
def RelocImage.reached : List (RelocEntry w) → List (RelocEntry w)
  | [] => []
  | e :: es => e :: if img.refuses env mem e then [] else RelocImage.reached es

def Decoded.entries (d : Decoded w) : List (RelocEntry w) := d.emitted.map (Reloc.entryOf true)

/-- The packed entries all count, the plain ones only after these. -/
def RelocImage.reachedEntries (d : Decoded w) : List (RelocEntry w) :=
  d.entries ++
    if d.ok && d.entries.all (!img.refuses env mem ·) then img.reached env mem (img.plainEntries mem)
    else []

def RelocImage.entries (d : Decoded w) : List (RelocEntry w) := d.entries ++ img.plainEntries mem

def RelocImage.relrSlots : List (BitVec w) := forEachRelr img.loadBias 0 (img.relrTable mem)

def RelocImage.targets (d : Decoded w) : List (BitVec w) :=
  img.relrSlots mem ++ (img.entries mem d).map img.entryTarget

structure RelocImage.TargetsRight (d : Decoded w) : Prop where
  /-- No RELR address is looked at before it is used. -/
  relr : ∀ a ∈ img.relrSlots mem, img.HasWord a
  /-- Nor is a target from which an addend is read. -/
  implicit : ∀ e ∈ img.reachedEntries env mem d, e.addend = none → img.HasWord (img.entryTarget e)
  /-- Of a target to which is written, the start is looked at. -/
  stored : ∀ e ∈ img.reachedEntries env mem d, img.refuses env mem e = false →
    img.stores env mem e = true → img.HasWord (img.entryTarget e)
  /-- And so it is for a relocation that does nothing. -/
  accepted : d.ok = true → (∀ e ∈ img.entries mem d, img.refuses env mem e = false) →
    ∀ e ∈ img.entries mem d, img.HasWord (img.entryTarget e)

end Tables

namespace RelocTargetsLemmas

variable (env : RelocEnv w) (img : RelocImage w) (mem : Memory w)

/-- What `apply` does for an entry. -/
theorem apply_spec (e : RelocEntry w) (addend : BitVec 64) (s : RelocState w) :
    (img.apply env mem e.offset e.info addend s).ok = (s.ok && !img.refuses env mem e) ∧
      (img.apply env mem e.offset e.info addend s).words =
        s.words ++ if !img.refuses env mem e && img.stores env mem e then [img.entryTarget e] else [] := by
  have hshape := RelocateLemmas.relocValue_shape env img mem e.info addend 0
  rw [RelocImage.apply, RelocImage.refuses, RelocImage.stores, ← RelocImage.entryTarget]
  by_cases hin : img.Inside (img.entryTarget e)
  · rw [if_pos hin, decide_eq_true hin]
    generalize img.relocValue env mem e.info addend = value at hshape ⊢
    generalize img.relocValue env mem e.info 0 = value' at hshape ⊢
    rcases value with err | _ | value <;> rcases value' with err' | _ | value' <;>
      simp_all [Except.map, Except.isOk, Except.toBool, Except.toOption, RelocState.fail]
  · rw [if_neg hin, decide_eq_false hin]
    simp [RelocState.fail]

theorem applyEntry_spec (e : RelocEntry w) (s : RelocState w) :
    (img.applyEntry env mem e s).ok = (s.ok && !img.refuses env mem e) ∧
      (img.applyEntry env mem e s).words = s.words ++ img.touches env mem e := by
  rw [RelocImage.applyEntry, RelocImage.touches]
  split
  · next addend haddend =>
    rw [haddend, if_neg (Option.some_ne_none _), nil_append]
    exact apply_spec env img mem e addend s
  · next haddend =>
    rw [haddend, if_pos rfl, ← append_assoc]
    exact apply_spec env img mem e _ { s with words := s.words ++ [img.entryTarget e] }

theorem applyEntries_spec (l : List (RelocEntry w)) {s : RelocState w} (hok : s.ok = true) :
    (img.applyEntries env mem l s).ok = l.all (!img.refuses env mem ·) ∧
      (img.applyEntries env mem l s).words =
        s.words ++ (img.reached env mem l).flatMap (img.touches env mem) := by
  induction l generalizing s with
  | nil => exact ⟨hok, (append_nil _).symm⟩
  | cons e l ih =>
    obtain ⟨hok', hwords⟩ := applyEntry_spec env img mem e s
    rw [RelocImage.applyEntries, if_pos hok, all_cons, RelocImage.reached, flatMap_cons]
    rw [hok, Bool.true_and] at hok'
    cases hrefuses : img.refuses env mem e with
    | true =>
      rw [hrefuses] at hok'
      rw [RelocateLemmas.applyEntries_stop l hok', if_pos rfl, flatMap_nil, append_nil]
      exact ⟨hok', hwords⟩
    | false =>
      rw [hrefuses] at hok'
      obtain ⟨hrest, hrest'⟩ := ih hok'
      rw [if_neg Bool.false_ne_true, ← append_assoc, ← hwords]
      exact ⟨hrest, hrest'⟩

theorem foldl_apply_spec (l : List (Reloc w)) (s : RelocState w) :
    (l.foldl (fun s r => img.apply env mem r.offset r.info r.addend s) s).ok =
        (s.ok && (l.map (Reloc.entryOf true)).all (!img.refuses env mem ·)) ∧
      (l.foldl (fun s r => img.apply env mem r.offset r.info r.addend s) s).words =
        s.words ++ (l.map (Reloc.entryOf true)).flatMap (img.touches env mem) := by
  induction l generalizing s with
  | nil => exact ⟨(Bool.and_true _).symm, (append_nil _).symm⟩
  | cons r l ih =>
    obtain ⟨hok, hwords⟩ := apply_spec env img mem (r.entryOf true) r.addend s
    obtain ⟨hrest, hrest'⟩ := ih (img.apply env mem r.offset r.info r.addend s)
    rw [foldl_cons, map_cons, all_cons, flatMap_cons, ← Bool.and_assoc,
      ← append_assoc]
    exact ⟨hrest.trans (congrArg (· && _) hok), hrest'.trans (congrArg (· ++ _) hwords)⟩

theorem relocateLists_spec (d : Decoded w) (err : LoadError) :
    (img.relocateLists env mem d err).words =
        img.relrSlots mem ++ (img.reachedEntries env mem d).flatMap (img.touches env mem) ∧
      (img.relocateLists env mem d err).ok = (d.ok && (img.entries mem d).all (!img.refuses env mem ·)) := by
  rw [RelocImage.relocateLists, RelocateLemmas.foldl_addBias, nil_append, ← RelocImage.relrSlots]
  obtain ⟨hok, hwords⟩ := foldl_apply_spec env img mem d.emitted
    ⟨(img.relrSlots mem).foldl (updateWord id fun _ word => word + img.loadBias) mem, true, err,
      img.relrSlots mem⟩
  rw [RelocImage.applyDecoded, RelocImage.reachedEntries, RelocImage.entries, all_append,
    flatMap_append, Decoded.entries]
  rw [Bool.true_and] at hok
  dsimp only
  generalize d.emitted.foldl _ _ = s at hok hwords ⊢
  cases hdok : d.ok with
  | false =>
    simp only [Bool.false_eq_true, if_false, Bool.false_and]
    rw [RelocateLemmas.applyEntries_stop _ rfl, flatMap_nil, append_nil]
    exact ⟨hwords, rfl⟩
  | true =>
    simp only [if_true, Bool.true_and]
    cases hall : (d.emitted.map (Reloc.entryOf true)).all (!img.refuses env mem ·) with
    | false =>
      rw [hall] at hok
      rw [RelocateLemmas.applyEntries_stop _ hok, if_neg Bool.false_ne_true, flatMap_nil, append_nil]
      exact ⟨hwords, hok⟩
    | true =>
      rw [hall] at hok
      obtain ⟨hok', hwords'⟩ := applyEntries_spec env img mem (img.plainEntries mem) hok
      rw [if_pos rfl, ← append_assoc, ← hwords]
      exact ⟨hwords', hok'⟩

theorem forall_touches {P : BitVec w → Prop} (e : RelocEntry w) :
    (∀ a ∈ img.touches env mem e, P a) ↔
      (e.addend = none → P (img.entryTarget e)) ∧
        (img.refuses env mem e = false → img.stores env mem e = true → P (img.entryTarget e)) := by
  rw [RelocImage.touches, forall_mem_append]
  refine and_congr ?_ ?_
  · split <;> simp_all
  · cases img.refuses env mem e <;> cases img.stores env mem e <;> simp

end RelocTargetsLemmas

open RelocTargetsLemmas

end NyaZygisk
