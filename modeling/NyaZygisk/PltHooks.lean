import Mathlib.Data.List.Basic
import Mathlib.Data.List.Induction
import Mathlib.Logic.Function.Basic

/-!
# Hooks of imported functions

`hook_plt`, `hook_unloader` and `restore_plt_hook` of `hook.cpp`, and the unhooking in
`new_property_get`. A replacement has one variable for the function that it replaces, whatever the
number of libraries in which it does.
-/

namespace NyaZygisk.PltHooks

open List

/-! ## Slots -/

inductive Symbol
  | fork | unshare | strdup | propertyGet
  | openFn | openatFn | closeFn | readFn
  | pthreadAttrSetstacksize
deriving DecidableEq

structure Library where
  dev : Nat
  inode : Nat
deriving DecidableEq

/-- Where a library has the address of a function that it imports. -/
abbrev Slot : Type := Library × Symbol

/-- One of the replacements or other code, with 0 for null. -/
inductive Target
  | replacement (s : Symbol)
  | code (address : Nat)
deriving DecidableEq

structure MapInfo where
  dev : Nat
  inode : Nat
  offset : Nat
  isPrivate : Bool
  isReadable : Bool
  path : List Char
deriving DecidableEq

def MapInfo.library (map : MapInfo) : Library := ⟨map.dev, map.inode⟩

def MapInfo.endsWith (map : MapInfo) (suffix : String) : Bool := suffix.toList.isSuffixOf map.path

structure HookContext where
  /-- `none` if the library does not import the function. -/
  slots : Slot → Option Target
  /-- The variables `old_fork`, `old_open` and so on. -/
  old : Symbol → Target
  pltBackup : List Slot

/-! ## `lsplt` -/

/-- What is registered: the backup is the variable of the symbol, or null. -/
structure Registration where
  slot : Slot
  newFunc : Target
  backup : Bool
deriving DecidableEq

/-- The slot gets the new value, and the backup the one before. -/
def HookContext.swap (ctx : HookContext) (r : Registration) : HookContext :=
  match ctx.slots r.slot with
  | none => ctx
  | some previous =>
    { ctx with
      slots := Function.update ctx.slots r.slot (some r.newFunc)
      old := if r.backup then Function.update ctx.old r.slot.2 previous else ctx.old }

def HookContext.commitHook (ctx : HookContext) (registered : List Registration) : HookContext :=
  registered.foldl HookContext.swap ctx

/-! ## `HookContext` -/

section Hooks

-- the libraries for which `lsplt` takes a registration
variable (accepts : Library → Bool)

/-- The library of the first map with that path. -/
def firstLibrary (maps : List MapInfo) (suffix : String) : Library :=
  ((maps.find? (·.endsWith suffix)).map MapInfo.library).getD ⟨0, 0⟩

def runtimeSymbols : List Symbol := [.fork, .unshare, .strdup, .propertyGet]

def trackingSymbols : List Symbol := [.openFn, .openatFn, .closeFn, .readFn]

def tracksIn (map : MapInfo) : Bool :=
  map.offset = 0 && map.isPrivate && map.isReadable &&
    !(map.endsWith "/libzygisk.so" || map.endsWith "/libc.so") &&
    (map.endsWith "/libandroid_runtime.so" || map.endsWith "/libart.so" || map.endsWith "/libjavacore.so" ||
      map.endsWith "/libopenjdk.so" || map.endsWith "/libbase.so")

def hookedSlots (maps : List MapInfo) : List Slot :=
  runtimeSymbols.map (firstLibrary maps "/libandroid_runtime.so", ·) ++
    (maps.filter tracksIn).flatMap fun map => trackingSymbols.map (map.library, ·)

def registeredSlots (maps : List MapInfo) : List Slot := (hookedSlots maps).filter (accepts ·.1)

def hooksOf (slots : List Slot) : List Registration := slots.map fun slot => ⟨slot, .replacement slot.2, true⟩

def HookContext.hookPlt (maps : List MapInfo) (ctx : HookContext) : HookContext :=
  let registered := registeredSlots accepts maps
  let ctx := { ctx with pltBackup := ctx.pltBackup ++ registered }
  let ctx := ctx.commitHook (hooksOf registered)
  { ctx with pltBackup := ctx.pltBackup.filter fun slot => ctx.old slot.2 ≠ .code 0 }

def HookContext.hookUnloader (maps : List MapInfo) (ctx : HookContext) : HookContext :=
  let slot : Slot := (firstLibrary maps "/libart.so", .pthreadAttrSetstacksize)
  if accepts slot.1 then
    { ctx with pltBackup := ctx.pltBackup ++ [slot] }.commitHook (hooksOf [slot])
  else ctx

/-- The loop in `new_property_get`: the last backup with the value of `old_property_get`. -/
def HookContext.unhookPropertyGet (ctx : HookContext) : HookContext :=
  match ctx.pltBackup.reverse.find? fun slot => ctx.old slot.2 = ctx.old .propertyGet with
  | none => ctx
  | some slot =>
    if accepts slot.1 then
      { ctx.commitHook [⟨slot, ctx.old slot.2, false⟩] with
        pltBackup := (ctx.pltBackup.reverse.erase slot).reverse }
    else ctx

def HookContext.restorePltHook (ctx : HookContext) : HookContext :=
  ctx.commitHook ((ctx.pltBackup.filter (accepts ·.1)).map fun slot => ⟨slot, ctx.old slot.2, false⟩)

end Hooks

/-! ## What is to hold -/

def HookContext.start (original : Slot → Option Nat) : HookContext where
  slots := fun slot => (original slot).map .code
  old := fun _ => .code 0
  pltBackup := []

/-- Where a replacement goes on: `new_open` and the like have the function itself at hand. -/
def HookContext.forwardsTo (direct : Symbol → Nat) (ctx : HookContext) (s : Symbol) : Target :=
  if s ∈ trackingSymbols ∧ ctx.old s = .code 0 then .code (direct s) else ctx.old s

section Statement

variable (accepts : Library → Bool) (direct : Symbol → Nat) (maps maps' : List MapInfo)
  (original : Slot → Option Nat)

def hooked : HookContext := (HookContext.start original).hookPlt accepts maps

def unloading : HookContext := (hooked accepts maps original).hookUnloader accepts maps'

def triggered : HookContext := (unloading accepts maps maps' original).unhookPropertyGet accepts

/-- The states from `hook_plt` on, where `trigger` tells whether `property_get` was called. -/
def hookedStates (trigger : Bool) : List HookContext :=
  hooked accepts maps original ::
    if trigger then [unloading accepts maps maps' original, triggered accepts maps maps' original] else []

def finished (trigger : Bool) : HookContext :=
  (if trigger then triggered accepts maps maps' original else hooked accepts maps
    original).restorePltHook accepts

/-- Every slot has its own function again, and every call was forwarded to that function. -/
structure Undone (trigger : Bool) : Prop where
  restored : ∀ slot, (finished accepts maps maps' original trigger).slots slot = (original slot).map .code
  forwarded : ∀ ctx ∈ hookedStates accepts maps maps' original trigger, ∀ slot : Slot,
    ctx.slots slot = some (.replacement slot.2) →
      (original slot).map .code = some (ctx.forwardsTo direct slot.2)

/-- For each symbol, the last library that is registered and imports it is registered once, its
function is not null, and the others have the same one. -/
def OriginalsAgree : Prop :=
  ∀ before slot after address, registeredSlots accepts maps = before ++ slot :: after →
    original slot = some address → (∀ other ∈ after, other.2 = slot.2 → original other = none) →
      slot ∉ before ∧ address ≠ 0 ∧
        ∀ other ∈ before, other.2 = slot.2 → original other = none ∨ original other = some address

end Statement

/-- What the variables are to be: those of the slots in the list have the functions of these. -/
structure Sound (accepts : Library → Bool) (original : Slot → Option Nat) (ctx : HookContext) : Prop where
  absent : ∀ slot, original slot = none → ctx.slots slot = none
  present : ∀ slot address, original slot = some address → ctx.slots slot = some (.code address) ∨
    (ctx.slots slot = some (.replacement slot.2) ∧ slot ∈ ctx.pltBackup)
  saved : ∀ slot address, slot ∈ ctx.pltBackup → original slot = some address →
    ctx.old slot.2 = .code address ∧ (slot.2 ∈ trackingSymbols → address ≠ 0)
  accepted : ∀ slot ∈ ctx.pltBackup, accepts slot.1 = true

namespace PltLemmas

variable {accepts : Library → Bool} {original : Slot → Option Nat} {ctx : HookContext}

/-! ### Swaps -/

theorem swap_slot (ctx : HookContext) (r : Registration) (slot : Slot) :
    (ctx.swap r).slots slot =
      if slot = r.slot then (ctx.slots slot).map fun _ => r.newFunc else ctx.slots slot := by
  rw [HookContext.swap]
  by_cases hslot : slot = r.slot
  · rw [if_pos hslot, hslot]
    cases hprev : ctx.slots r.slot with
    | none => exact hprev
    | some previous => exact Function.update_self _ _ _
  · rw [if_neg hslot]
    cases ctx.slots r.slot with
    | none => rfl
    | some previous => exact Function.update_of_ne hslot _ _

theorem swap_old_of_some {slot : Slot} {newFunc previous : Target}
    (h : ctx.slots slot = some previous) :
    (ctx.swap ⟨slot, newFunc, true⟩).old = Function.update ctx.old slot.2 previous := by
  simp only [HookContext.swap, h, if_true]

theorem swap_old_of_none {r : Registration} (h : ctx.slots r.slot = none) :
    ctx.swap r = ctx := by
  rw [HookContext.swap, h]

theorem swap_old_of_ne (ctx : HookContext) (r : Registration) {s : Symbol} (h : s ≠ r.slot.2) :
    (ctx.swap r).old s = ctx.old s := by
  rw [HookContext.swap]
  split
  · rfl
  · dsimp only
    split
    · exact Function.update_of_ne h _ _
    · rfl

theorem swap_old_restoring (ctx : HookContext) (slot : Slot) (newFunc : Target) :
    (ctx.swap ⟨slot, newFunc, false⟩).old = ctx.old := by
  rw [HookContext.swap]
  split <;> rfl

theorem swap_pltBackup (ctx : HookContext) (r : Registration) : (ctx.swap r).pltBackup = ctx.pltBackup := by
  rw [HookContext.swap]
  split <;> rfl

theorem commit_pltBackup (ctx : HookContext) (l : List Registration) :
    (ctx.commitHook l).pltBackup = ctx.pltBackup := by
  induction l generalizing ctx with
  | nil => rfl
  | cons r l ih => exact (ih _).trans (swap_pltBackup ctx r)

/-! ### Hooking -/

/-- The value of the variable of `s`, from the slots that were hooked, last one first. -/
def savedBy (original : Slot → Option Nat) (s : Symbol) : List Slot → Target
  | [] => .code 0
  | slot :: earlier =>
    match original slot with
    | none => savedBy original s earlier
    | some address =>
      if slot.2 = s then if slot ∈ earlier then .replacement s else .code address
      else savedBy original s earlier

theorem commit_hooks (ctx : HookContext) (hslots : ctx.slots = fun slot => (original slot).map .code)
    (hold : ctx.old = fun _ => .code 0) (l : List Slot) :
    (∀ slot, (ctx.commitHook (hooksOf l)).slots slot =
      if slot ∈ l then (original slot).map fun _ => .replacement slot.2 else (original slot).map .code) ∧
    (∀ s, (ctx.commitHook (hooksOf l)).old s = savedBy original s l.reverse) := by
  induction l using List.reverseRecOn with
  | nil => exact ⟨fun slot => by rw [if_neg not_mem_nil]; exact congrFun hslots slot, congrFun hold⟩
  | append_singleton l hook ih =>
    obtain ⟨ihslots, ihold⟩ := ih
    have hstep : ctx.commitHook (hooksOf (l ++ [hook])) =
        (ctx.commitHook (hooksOf l)).swap ⟨hook, .replacement hook.2, true⟩ := by
      rw [HookContext.commitHook, hooksOf, map_append, foldl_append]
      rfl
    rw [hstep]
    constructor
    · intro slot
      rw [swap_slot, ihslots]
      by_cases hslot : slot = hook
      · have hin : slot ∈ l ++ [hook] := mem_append_right _ (mem_singleton.mpr hslot)
        rw [if_pos hslot, if_pos hin, hslot]
        split <;> rw [Option.map_map] <;> rfl
      · rw [if_neg hslot]
        simp [hslot]
    · intro s
      rw [reverse_concat, savedBy]
      have hprev := ihslots hook
      cases horig : original hook with
      | none =>
        rw [horig, Option.map_none, Option.map_none, ite_self] at hprev
        rw [swap_old_of_none hprev, ihold]
      | some address =>
        rw [horig, Option.map_some, Option.map_some] at hprev
        rw [← apply_ite some] at hprev
        rw [swap_old_of_some hprev]
        dsimp only
        by_cases hs : hook.2 = s
        · rw [if_pos hs, ← hs, Function.update_self]
          simp only [mem_reverse]
        · rw [if_neg hs, Function.update_of_ne (Ne.symm hs), ihold]

/-- The variable holds what the last hook found. -/
theorem savedBy_of_last {before after : List Slot} {slot : Slot} {address : Nat}
    (horig : original slot = some address)
    (hafter : ∀ other ∈ after, other.2 = slot.2 → original other = none) :
    savedBy original slot.2 (before ++ slot :: after).reverse =
      if slot ∈ before then .replacement slot.2 else .code address := by
  induction after using List.reverseRecOn with
  | nil =>
    rw [reverse_concat, savedBy, horig]
    simp only [if_true, mem_reverse]
  | append_singleton after other ih =>
    rw [← cons_append, ← append_assoc, reverse_concat, savedBy]
    have hrest := ih fun other' hmem => hafter other' (mem_append_left _ hmem)
    cases hother : original other with
    | none => exact hrest
    | some address' =>
      dsimp only
      rw [if_neg, hrest]
      intro hs
      rw [hafter other (mem_append_right _ (mem_singleton_self _)) hs] at hother
      exact absurd hother (by simp)

theorem exists_last {l : List Slot} {slot : Slot} {address : Nat} (hmem : slot ∈ l)
    (horig : original slot = some address) :
    ∃ before last after address', l = before ++ last :: after ∧ last.2 = slot.2 ∧
      original last = some address' ∧ ∀ other ∈ after, other.2 = last.2 → original other = none := by
  induction l using List.reverseRecOn with
  | nil => exact absurd hmem not_mem_nil
  | append_singleton l end' ih =>
    by_cases hend : end'.2 = slot.2 ∧ ∃ address', original end' = some address'
    · obtain ⟨hs, address', hend⟩ := hend
      exact ⟨l, end', [], address', rfl, hs, hend, fun _ h => absurd h not_mem_nil⟩
    · have hmem' : slot ∈ l := by
        refine (mem_append.mp hmem).resolve_right fun h => hend ?_
        rw [← mem_singleton.mp h]
        exact ⟨rfl, address, horig⟩
      obtain ⟨before, last, after, address', rfl, hlast, horig', hafter⟩ := ih hmem'
      refine ⟨before, last, after ++ [end'], address', by simp, hlast, horig', fun other hother hsame => ?_⟩
      rcases mem_append.mp hother with h | h
      · exact hafter other h hsame
      · rw [mem_singleton.mp h] at hsame ⊢
        exact Option.eq_none_iff_forall_ne_some.mpr fun a ha => hend ⟨hsame.trans hlast, a, ha⟩

/-! ### Restoring -/

theorem commit_restoring (ctx : HookContext) (l : List Slot) (value : Symbol → Target) :
    (∀ slot, (ctx.commitHook (l.map fun slot => ⟨slot, value slot.2, false⟩)).slots slot =
      if slot ∈ l then (ctx.slots slot).map fun _ => value slot.2 else ctx.slots slot) ∧
    (ctx.commitHook (l.map fun slot => ⟨slot, value slot.2, false⟩)).old = ctx.old := by
  induction l generalizing ctx with
  | nil => exact ⟨fun slot => (if_neg not_mem_nil).symm, rfl⟩
  | cons first l ih =>
    obtain ⟨ihslots, ihold⟩ := ih (ctx.swap ⟨first, value first.2, false⟩)
    refine ⟨fun slot => (ihslots slot).trans ?_, ihold.trans (swap_old_restoring ctx first _)⟩
    rw [swap_slot]
    by_cases hfirst : slot = first
    · rw [if_pos hfirst, if_pos (mem_cons.mpr (.inl hfirst)), hfirst]
      split
      · rw [Option.map_map]
        rfl
      · rfl
    · rw [if_neg hfirst]
      simp [hfirst]

/-! ### One more hook -/

def hookOne (ctx : HookContext) (slot : Slot) : HookContext :=
  HookContext.swap { ctx with pltBackup := ctx.pltBackup ++ [slot] } ⟨slot, .replacement slot.2, true⟩

theorem hookOne_slots (ctx : HookContext) (art slot : Slot) : (hookOne ctx art).slots slot =
    if slot = art then (ctx.slots slot).map fun _ => .replacement art.2 else ctx.slots slot :=
  swap_slot _ _ slot

theorem hookOne_old_of_ne (ctx : HookContext) {art : Slot} {s : Symbol} (h : s ≠ art.2) :
    (hookOne ctx art).old s = ctx.old s := swap_old_of_ne _ ⟨art, _, _⟩ h

theorem hookOne_old_self {art : Slot} {value : Target} (h : ctx.slots art = some value) :
    (hookOne ctx art).old art.2 = value := by
  have hold : (hookOne ctx art).old = Function.update ctx.old art.2 value := swap_old_of_some h
  rw [hold, Function.update_self]

theorem hookOne_pltBackup (ctx : HookContext) (art : Slot) :
    (hookOne ctx art).pltBackup = ctx.pltBackup ++ [art] := swap_pltBackup _ _

theorem unloader_not_tracking : Symbol.pthreadAttrSetstacksize ∉ trackingSymbols := by decide

end PltLemmas

open PltLemmas

namespace Sound

variable {accepts : Library → Bool} {original : Slot → Option Nat} {ctx : HookContext}
  (hsound : Sound accepts original ctx)

include hsound

/-- Restoring gives every library its own functions. -/
theorem restored (slot : Slot) : (ctx.restorePltHook accepts).slots slot = (original slot).map .code := by
  rw [HookContext.restorePltHook, (commit_restoring ctx _ ctx.old).1]
  have hall : ctx.pltBackup.filter (accepts ·.1) = ctx.pltBackup :=
    filter_eq_self.mpr hsound.accepted
  rw [hall]
  cases horig : original slot with
  | none => rw [hsound.absent slot horig, Option.map_none, Option.map_none, ite_self]
  | some address =>
    by_cases hmem : slot ∈ ctx.pltBackup
    · rw [if_pos hmem, (hsound.saved slot address hmem horig).1]
      rcases hsound.present slot address horig with h | ⟨h, -⟩ <;> rw [h] <;> rfl
    · rw [if_neg hmem]
      exact (hsound.present slot address horig).resolve_right fun h => hmem h.2

theorem forwards (direct : Symbol → Nat) {slot : Slot}
    (hhooked : ctx.slots slot = some (.replacement slot.2)) :
    (original slot).map .code = some (ctx.forwardsTo direct slot.2) := by
  cases horig : original slot with
  | none => rw [hsound.absent slot horig] at hhooked; exact absurd hhooked (by simp)
  | some address =>
    rcases hsound.present slot address horig with h | ⟨-, hmem⟩
    · rw [h] at hhooked
      exact absurd hhooked (by simp)
    · obtain ⟨hold, hne⟩ := hsound.saved slot address hmem horig
      have hset : ¬ (slot.2 ∈ trackingSymbols ∧ ctx.old slot.2 = .code 0) := by
        rintro ⟨hs, hzero⟩
        rw [hold] at hzero
        exact hne hs (Target.code.inj hzero)
      rw [HookContext.forwardsTo, if_neg hset, hold, Option.map_some]

theorem unhookPropertyGet : Sound accepts original (ctx.unhookPropertyGet accepts) := by
  rw [HookContext.unhookPropertyGet]
  split
  case h_1 => exact hsound
  case h_2 entry hfind =>
    have hentry : entry ∈ ctx.pltBackup := mem_reverse.mp (mem_of_find?_eq_some hfind)
    rw [if_pos (hsound.accepted entry hentry)]
    have hkeep : ∀ slot ∈ (ctx.pltBackup.reverse.erase entry).reverse, slot ∈ ctx.pltBackup :=
      fun slot h => mem_reverse.mp (mem_of_mem_erase (mem_reverse.mp h))
    obtain ⟨hslots, hold⟩ := commit_restoring ctx [entry] ctx.old
    rw [map_singleton] at hslots hold
    refine ⟨fun slot horig => ?_, fun slot address horig => ?_, fun slot address hmem horig => ?_,
      fun slot hmem => hsound.accepted slot (hkeep slot hmem)⟩
    · refine (hslots slot).trans ?_
      rw [hsound.absent slot horig, Option.map_none, ite_self]
    · by_cases hslot : slot = entry
      · left
        refine (hslots slot).trans ?_
        rw [if_pos (mem_singleton.mpr hslot), (hsound.saved slot address (hslot ▸ hentry) horig).1]
        rcases hsound.present slot address horig with h | ⟨h, -⟩ <;> rw [h] <;> rfl
      · have hsame : (ctx.commitHook [⟨entry, ctx.old entry.2, false⟩]).slots slot = ctx.slots slot :=
          (hslots slot).trans (if_neg fun h => hslot (mem_singleton.mp h))
        refine (hsound.present slot address horig).imp hsame.trans fun h => ⟨hsame.trans h.1, ?_⟩
        exact mem_reverse.mpr ((mem_erase_of_ne hslot).mpr (mem_reverse.mpr h.2))
    · rw [show (ctx.commitHook [⟨entry, ctx.old entry.2, false⟩]).old = ctx.old from hold]
      exact hsound.saved slot address (hkeep slot hmem) horig

theorem hookOne {art : Slot} (haccepts : accepts art.1 = true) (hsymbol : art.2 ∉ trackingSymbols)
    (hfresh : ∀ slot ∈ ctx.pltBackup, slot.2 ≠ art.2) : Sound accepts original (hookOne ctx art) := by
  -- before, the library still has its own function in the slot
  have hown : ∀ address, original art = some address → ctx.slots art = some (.code address) :=
    fun address h =>
    (hsound.present art address h).resolve_right fun h => hfresh art h.2 rfl
  refine ⟨fun slot horig => ?_, fun slot address horig => ?_, fun slot address hmem horig => ?_,
    fun slot hmem => ?_⟩
  · rw [hookOne_slots, hsound.absent slot horig, Option.map_none, ite_self]
  · rw [hookOne_slots, hookOne_pltBackup]
    by_cases hslot : slot = art
    · right
      rw [if_pos hslot, hslot, hown address (hslot ▸ horig)]
      exact ⟨rfl, mem_append_right _ (mem_singleton_self _)⟩
    · rw [if_neg hslot]
      exact (hsound.present slot address horig).imp_right fun h => ⟨h.1, mem_append_left _ h.2⟩
  · rw [hookOne_pltBackup] at hmem
    rcases mem_append.mp hmem with hmem | hmem
    · rw [hookOne_old_of_ne ctx (hfresh slot hmem)]
      exact hsound.saved slot address hmem horig
    · rw [mem_singleton.mp hmem] at horig ⊢
      exact ⟨hookOne_old_self (hown address horig), fun h => absurd h hsymbol⟩
  · rw [hookOne_pltBackup] at hmem
    rcases mem_append.mp hmem with hmem | hmem
    · exact hsound.accepted slot hmem
    · rw [mem_singleton.mp hmem]
      exact haccepts

theorem hookUnloader (maps : List MapInfo)
    (hfresh : ∀ slot ∈ ctx.pltBackup, slot.2 ≠ .pthreadAttrSetstacksize) :
    Sound accepts original (ctx.hookUnloader accepts maps) := by
  simp only [HookContext.hookUnloader]
  split
  case isTrue haccepts => exact hsound.hookOne haccepts unloader_not_tracking hfresh
  case isFalse => exact hsound

end Sound

namespace PltLemmas

variable {accepts : Library → Bool} {maps maps' : List MapInfo} {original : Slot → Option Nat}

/-! ### `hook_plt` -/

theorem hooked_slots (slot : Slot) : (hooked accepts maps original).slots slot =
    if slot ∈ registeredSlots accepts maps then (original slot).map fun _ => .replacement slot.2
    else (original slot).map .code :=
  (commit_hooks { HookContext.start original with
    pltBackup := [] ++ registeredSlots accepts maps } rfl rfl _).1 slot

theorem hooked_old (s : Symbol) : (hooked accepts maps original).old s =
    savedBy original s (registeredSlots accepts maps).reverse :=
  (commit_hooks { HookContext.start original with
    pltBackup := [] ++ registeredSlots accepts maps } rfl rfl _).2 s

variable {slot : Slot}

theorem mem_hooked_backup : slot ∈ (hooked accepts maps original).pltBackup ↔
    slot ∈ registeredSlots accepts maps ∧ (hooked accepts maps original).old slot.2 ≠ .code 0 := by
  simp only [hooked, HookContext.hookPlt, commit_pltBackup, mem_filter, decide_eq_true_eq]
  rfl

theorem symbol_of_registered (h : slot ∈ registeredSlots accepts maps) :
    slot.2 ≠ .pthreadAttrSetstacksize := by
  have hmem := (mem_filter.mp h).1
  rcases mem_append.mp hmem with hmem | hmem
  · obtain ⟨s, hs, rfl⟩ := mem_map.mp hmem
    rintro (rfl : s = _)
    exact absurd hs (by decide)
  · obtain ⟨map, -, hmem⟩ := mem_flatMap.mp hmem
    obtain ⟨s, hs, rfl⟩ := mem_map.mp hmem
    rintro (rfl : s = _)
    exact absurd hs unloader_not_tracking

/-- If the originals agree, the variable of a slot has its function. -/
theorem saved_of_agree (hagree : OriginalsAgree accepts maps original) {address : Nat}
    (hmem : slot ∈ registeredSlots accepts maps) (horig : original slot = some address) :
    (hooked accepts maps original).old slot.2 = .code address ∧ address ≠ 0 := by
  obtain ⟨before, last, after, address', hsplit, hsymbol, hlast, hafter⟩ := exists_last hmem horig
  obtain ⟨honce, hne, hsame⟩ := hagree before last after address' hsplit hlast hafter
  have haddress : address = address' := by
    rw [hsplit] at hmem
    rcases mem_append.mp hmem with h | h
    · rcases hsame slot h hsymbol.symm with h | h
      · rw [h] at horig
        exact absurd horig (by simp)
      · exact Option.some.inj (horig.symm.trans h)
    · rcases mem_cons.mp h with rfl | h
      · exact Option.some.inj (horig.symm.trans hlast)
      · rw [hafter slot h hsymbol.symm] at horig
        exact absurd horig (by simp)
  rw [haddress, hooked_old, hsplit, ← hsymbol, savedBy_of_last hlast hafter, if_neg honce]
  exact ⟨rfl, hne⟩

theorem sound_hooked (hagree : OriginalsAgree accepts maps original) :
    Sound accepts original (hooked accepts maps original) := by
  refine ⟨fun slot horig => ?_, fun slot address horig => ?_, fun slot address hmem horig => ?_,
    fun slot hmem => ?_⟩
  · rw [hooked_slots, horig, Option.map_none, Option.map_none, ite_self]
  · rw [hooked_slots]
    by_cases hmem : slot ∈ registeredSlots accepts maps
    · obtain ⟨hold, hne⟩ := saved_of_agree hagree hmem horig
      rw [if_pos hmem, horig]
      refine .inr ⟨rfl, mem_hooked_backup.mpr ⟨hmem, ?_⟩⟩
      rw [hold]
      exact fun h => hne (Target.code.inj h)
    · rw [if_neg hmem, horig]
      exact .inl rfl
  · obtain ⟨hold, hne⟩ := saved_of_agree hagree (mem_hooked_backup.mp hmem).1 horig
    exact ⟨hold, fun _ => hne⟩
  · exact (mem_filter.mp (mem_hooked_backup.mp hmem).1).2

theorem sound_unloading (maps' : List MapInfo) (hagree : OriginalsAgree accepts maps original) :
    Sound accepts original (unloading accepts maps maps' original) :=
  (sound_hooked hagree).hookUnloader maps' fun _ hmem => symbol_of_registered (mem_hooked_backup.mp hmem).1

theorem undone_of_agree (direct : Symbol → Nat) (trigger : Bool)
    (hagree : OriginalsAgree accepts maps original) :
    Undone accepts direct maps maps' original trigger := by
  have hhooked := sound_hooked hagree
  have hunloading := sound_unloading maps' hagree
  refine ⟨fun slot => ?_, fun ctx hctx slot => ?_⟩
  · rw [finished]
    cases trigger with
    | false => exact hhooked.restored slot
    | true => exact hunloading.unhookPropertyGet.restored slot
  · have hctx : Sound accepts original ctx := by
      rcases mem_cons.mp hctx with rfl | hctx
      · exact hhooked
      · cases trigger with
        | false => exact absurd hctx not_mem_nil
        | true =>
          rcases mem_cons.mp hctx with rfl | hctx
          · exact hunloading
          · rw [mem_singleton.mp hctx]
            exact hunloading.unhookPropertyGet
    exact hctx.forwards direct

/-! ### Slots without a backup -/

section NoBackup

variable {ctx : HookContext} {slot : Slot} (hno : slot ∉ ctx.pltBackup)

include hno

theorem restore_of_not_mem : (ctx.restorePltHook accepts).slots slot = ctx.slots slot := by
  rw [HookContext.restorePltHook, (commit_restoring ctx _ ctx.old).1]
  exact if_neg fun h => hno (mem_filter.mp h).1

theorem unhook_of_not_mem (accepts : Library → Bool) : slot ∉ (ctx.unhookPropertyGet accepts).pltBackup ∧
    (ctx.unhookPropertyGet accepts).slots slot = ctx.slots slot := by
  rw [HookContext.unhookPropertyGet]
  split
  case h_1 => exact ⟨hno, rfl⟩
  case h_2 entry hfind =>
    have hentry : entry ∈ ctx.pltBackup := mem_reverse.mp (mem_of_find?_eq_some hfind)
    split
    case isTrue =>
      refine ⟨fun h => hno ?_, ((commit_restoring ctx [entry] ctx.old).1 slot).trans (if_neg fun h => hno ?_)⟩
      · exact mem_reverse.mp (mem_of_mem_erase (mem_reverse.mp h))
      · rwa [mem_singleton.mp h]
    case isFalse => exact ⟨hno, rfl⟩

theorem unloader_of_not_mem (accepts : Library → Bool) (hsymbol : slot.2 ≠ .pthreadAttrSetstacksize)
    (maps : List MapInfo) :
    slot ∉ (ctx.hookUnloader accepts maps).pltBackup ∧
      (ctx.hookUnloader accepts maps).slots slot = ctx.slots slot := by
  simp only [HookContext.hookUnloader]
  split
  case isTrue =>
    have hne : slot ≠ (firstLibrary maps "/libart.so", .pthreadAttrSetstacksize) := fun h =>
      hsymbol (by rw [h])
    refine ⟨fun h => ?_, (hookOne_slots ctx _ slot).trans (if_neg hne)⟩
    rcases mem_append.mp ((hookOne_pltBackup ctx _) ▸ h) with h | h
    · exact hno h
    · exact hne (mem_singleton.mp h)
  case isFalse => exact ⟨hno, rfl⟩

end NoBackup

/-- A slot without a backup stays hooked. -/
theorem finished_of_not_mem (hno : slot ∉ (hooked accepts maps original).pltBackup)
    (hsymbol : slot.2 ≠ .pthreadAttrSetstacksize) (trigger : Bool) :
    (finished accepts maps maps' original trigger).slots slot = (hooked accepts maps original).slots
      slot := by
  rw [finished]
  cases trigger with
  | false => exact restore_of_not_mem hno
  | true =>
    obtain ⟨hno', hunloading⟩ := unloader_of_not_mem hno accepts hsymbol maps'
    obtain ⟨hno'', htriggered⟩ := unhook_of_not_mem hno' accepts
    exact (restore_of_not_mem hno'').trans (htriggered.trans hunloading)

/-- Where a replacement with a variable that is set goes on. -/
theorem forwardsTo_of_ne {ctx : HookContext} {s : Symbol} (h : ctx.old s ≠ .code 0) (direct : Symbol → Nat) :
    ctx.forwardsTo direct s = ctx.old s := if_neg fun hzero => h hzero.2

theorem agree_of_undone {direct : Symbol → Nat} {trigger : Bool}
    (h : Undone accepts direct maps maps' original trigger) : OriginalsAgree accepts maps original := by
  intro before slot after address hsplit horig hafter
  have hold : (hooked accepts maps original).old slot.2 =
      if slot ∈ before then .replacement slot.2 else .code address := by
    rw [hooked_old, hsplit, savedBy_of_last horig hafter]
  have hforwarded := h.forwarded _ mem_cons_self
  have hhooked : ∀ other address', other ∈ registeredSlots accepts maps → original other = some address' →
      (hooked accepts maps original).slots other = some (.replacement other.2) := by
    intro other address' hother horig'
    rw [hooked_slots, if_pos hother, horig', Option.map_some]
  have hmem : slot ∈ registeredSlots accepts maps := by
    rw [hsplit]
    exact mem_append_right _ mem_cons_self
  have honce : slot ∉ before := by
    intro hin
    rw [if_pos hin] at hold
    have hcall := hforwarded slot (hhooked slot address hmem horig)
    rw [horig, forwardsTo_of_ne (by rw [hold]; exact Target.noConfusion), hold] at hcall
    exact absurd hcall (by simp)
  rw [if_neg honce] at hold
  have hne : address ≠ 0 := by
    rintro rfl
    have hno : slot ∉ (hooked accepts maps original).pltBackup := fun h => (mem_hooked_backup.mp h).2 hold
    have hfinal := h.restored slot
    rw [finished_of_not_mem hno (symbol_of_registered hmem), hhooked slot 0 hmem horig, horig] at hfinal
    exact absurd hfinal (by simp)
  refine ⟨honce, hne, fun other hother hsame => ?_⟩
  cases horig' : original other with
  | none => exact .inl rfl
  | some address' =>
    have hother' : other ∈ registeredSlots accepts maps := by
      rw [hsplit]
      exact mem_append_left _ hother
    have hcall := hforwarded other (hhooked other address' hother' horig')
    rw [hsame, horig', forwardsTo_of_ne (by rw [hold]; exact fun h => hne (Target.code.inj h)), hold] at hcall
    exact .inr (congrArg some (Target.code.inj (Option.some.inj hcall)))

end PltLemmas

/-- The hooks are undone, and forward in the meantime, exactly if for every symbol the libraries with
an import of it have one and the same function. -/
theorem undone_iff (accepts : Library → Bool) (direct : Symbol → Nat) (maps maps' : List MapInfo)
    (original : Slot → Option Nat) (trigger : Bool) :
    Undone accepts direct maps maps' original trigger ↔ OriginalsAgree accepts maps original :=
  ⟨agree_of_undone, undone_of_agree direct trigger⟩

/-- Two libraries that were bound to different functions. -/
def twoOriginals : Slot → Option Nat
  | (⟨1, 10⟩, .openFn) => some 0x7100
  | (⟨1, 20⟩, .openFn) => some 0x7200
  | _ => none

def twoMaps : List MapInfo :=
  [⟨1, 10, 0, true, true, "/system/lib64/libandroid_runtime.so".toList⟩,
    ⟨1, 20, 0, true, true, "/apex/com.android.art/lib64/libart.so".toList⟩]

/-- The first of them gets the function of the second. -/
theorem wrong_function_restored :
    ¬ Undone (fun _ => true) (fun _ => 0) twoMaps twoMaps twoOriginals true := by
  intro h
  exact absurd (h.restored (⟨1, 10⟩, .openFn)) (by decide)

end NyaZygisk.PltHooks
