import Mathlib.Data.BitVec
import Mathlib.Data.List.Nodup
import Mathlib.Logic.Function.Basic

/-!
# Hooks of Java methods

`HookContext::hook_jni_methods` of `hook.cpp`. It exchanges the implementations in an array of
methods with those that a class has. A second call with the same array takes the hooks out.
-/

namespace NyaZygisk.JniHooks

open List

variable {w : Nat}

/-! ## Classes -/

structure MethodKey where
  name : String
  signature : String
deriving DecidableEq

/-- A method of a class, with the data pointer of its `ArtMethod`. -/
structure JavaMethod (w : Nat) where
  isStatic : Bool
  isNative : Bool
  data : BitVec w
deriving DecidableEq

/-- No class has two methods of one name and signature. -/
abbrev ClassTable (w : Nat) : Type := MethodKey → Option (JavaMethod w)

structure JNINativeMethod (w : Nat) where
  key : MethodKey
  fnPtr : BitVec w
deriving DecidableEq

def getMethodID (t : ClassTable w) (key : MethodKey) : Option (JavaMethod w) :=
  (t key).filter fun m => !m.isStatic

def getStaticMethodID (t : ClassTable w) (key : MethodKey) : Option (JavaMethod w) :=
  (t key).filter fun m => m.isStatic

/-- `RegisterNatives` of the runtime: it stops at a method that is missing or not native. -/
def registerNatives (t : ClassTable w) : List (JNINativeMethod w) → ClassTable w
  | [] => t
  | hook :: hooks =>
    match t hook.key with
    | none => t
    | some m =>
      if m.isNative then
        registerNatives (Function.update t hook.key (some { m with data := hook.fnPtr })) hooks
      else t

/-! ## `hook_jni_methods` -/

/-- One round of the loop: the entry of the array, and the hook if there is one. -/
def hookRound (t : ClassTable w) (entry : JNINativeMethod w) : JNINativeMethod w × List (JNINativeMethod w) :=
  if entry.fnPtr = 0 then (entry, [])
  else
    match (getMethodID t entry.key).or (getStaticMethodID t entry.key) with
    | none => ({ entry with fnPtr := 0 }, [])
    | some m =>
      if m.isNative then ({ entry with fnPtr := m.data }, [entry]) else ({ entry with fnPtr := 0 }, [])

def hookLoop (t : ClassTable w) :
    List (JNINativeMethod w) → List (JNINativeMethod w) × List (JNINativeMethod w)
  | [] => ([], [])
  | entry :: methods =>
    let round := hookRound t entry
    let rest := hookLoop t methods
    (round.1 :: rest.1, round.2 ++ rest.2)

/-- The class, if it is found, and the array afterwards. -/
def hookJniMethods (clazz : Option (ClassTable w)) (methods : List (JNINativeMethod w)) :
    Option (ClassTable w) × List (JNINativeMethod w) :=
  match clazz with
  | none => (none, methods.map fun entry => { entry with fnPtr := 0 })
  | some t =>
    let r := hookLoop t methods
    if r.2 = [] then (some t, r.1) else (some (registerNatives t r.2), r.1)

/-! ## What it does -/

def implementation (clazz : Option (ClassTable w)) (key : MethodKey) : Option (BitVec w) :=
  ((clazz.bind (· key)).filter fun m => m.isNative).map fun m => m.data

def hooks (t : ClassTable w) (entry : JNINativeMethod w) : Bool :=
  entry.fnPtr ≠ 0 ∧ (implementation (some t) entry.key).isSome

/-- What the array is to hold for an entry: the implementation that its hook replaces. -/
def replaced (clazz : Option (ClassTable w)) (entry : JNINativeMethod w) : JNINativeMethod w :=
  { entry with fnPtr := if entry.fnPtr = 0 then 0 else (implementation clazz entry.key).getD 0 }

namespace JniLemmas

theorem methodID_eq (t : ClassTable w) (key : MethodKey) :
    (getMethodID t key).or (getStaticMethodID t key) = t key := by
  rw [getMethodID, getStaticMethodID]
  cases t key with
  | none => rfl
  | some m => cases hstatic : m.isStatic <;> simp [Option.filter, hstatic]

variable {t : ClassTable w} {entry : JNINativeMethod w} {methods : List (JNINativeMethod w)} {key : MethodKey}

theorem implementation_of_none (h : t key = none) :
    implementation (some t) key = none := by
  rw [implementation, Option.bind_some, h, Option.filter_none, Option.map_none]

theorem implementation_of_some {m : JavaMethod w} (h : t key = some m) :
    implementation (some t) key = if m.isNative then some m.data else none := by
  rw [implementation, Option.bind_some, h, Option.filter_some]
  split <;> rfl

theorem replaced_of_null (h : entry.fnPtr = 0) (clazz : Option (ClassTable w)) :
    replaced clazz entry = entry := by
  rw [replaced, if_pos h, ← h]

theorem replaced_of_ne (h : entry.fnPtr ≠ 0) (clazz : Option (ClassTable w)) :
    replaced clazz entry = { entry with fnPtr := (implementation clazz entry.key).getD 0 } := by
  rw [replaced, if_neg h]

theorem hooks_of_ne (h : entry.fnPtr ≠ 0) (t : ClassTable w) :
    hooks t entry = (implementation (some t) entry.key).isSome := by
  rw [Bool.eq_iff_iff, hooks, decide_eq_true_iff]
  exact and_iff_right h

theorem hookRound_eq (t : ClassTable w) (entry : JNINativeMethod w) :
    hookRound t entry = (replaced (some t) entry, if hooks t entry then [entry] else []) := by
  rw [hookRound, methodID_eq]
  by_cases hnull : entry.fnPtr = 0
  · have hno : hooks t entry = false := decide_eq_false fun h => h.1 hnull
    rw [if_pos hnull, replaced_of_null hnull, hno, if_neg Bool.false_ne_true]
  · rw [if_neg hnull, replaced_of_ne hnull, hooks_of_ne hnull]
    cases hm : t entry.key with
    | none => rw [implementation_of_none hm]; rfl
    | some m =>
      rw [implementation_of_some hm]
      dsimp only
      cases m.isNative <;> rfl

theorem hookLoop_spec (t : ClassTable w) (methods : List (JNINativeMethod w)) :
    hookLoop t methods = (methods.map (replaced (some t)), methods.filter (hooks t)) := by
  induction methods with
  | nil => rfl
  | cons entry methods ih =>
    rw [hookLoop, ih, hookRound_eq, map_cons, filter_cons]
    split <;> rfl

/-- The method with the implementation that a hook gives it. -/
def withHook (hook : Option (JNINativeMethod w)) (m : JavaMethod w) : JavaMethod w :=
  { m with data := (hook.map (·.fnPtr)).getD m.data }

theorem withHook_none : withHook none = (id : JavaMethod w → JavaMethod w) := rfl

def AllNative (t : ClassTable w) (hooks : List (JNINativeMethod w)) : Prop :=
  ∀ hook ∈ hooks, ∃ m, t hook.key = some m ∧ m.isNative = true

theorem AllNative.update {l : List (JNINativeMethod w)} (h : AllNative t l)
    (key : MethodKey) {m : JavaMethod w} (hm : m.isNative = true) :
    AllNative (Function.update t key (some m)) l := by
  intro hook hmem
  by_cases hkey : hook.key = key
  · exact ⟨m, by rw [hkey, Function.update_self], hm⟩
  · rw [Function.update_of_ne hkey]
    exact h hook hmem

theorem registerNatives_spec {l : List (JNINativeMethod w)} (hall : AllNative t l)
    (hkeys : (l.map (·.key)).Nodup) (key : MethodKey) :
    registerNatives t l key = (t key).map (withHook (l.find? (·.key = key))) := by
  induction l generalizing t with
  | nil => rw [registerNatives, find?_nil, withHook_none, Option.map_id, id]
  | cons hook l ih =>
    obtain ⟨m, hm, hnative⟩ := hall hook mem_cons_self
    obtain ⟨hfresh, hkeys⟩ := nodup_cons.mp hkeys
    have hrest : AllNative t l := fun other hmem => hall other (mem_cons_of_mem _ hmem)
    rw [registerNatives, hm]
    dsimp only
    rw [if_pos hnative, ih (hrest.update hook.key (m := { m with data := hook.fnPtr }) hnative) hkeys]
    by_cases hkey : hook.key = key
    · -- no later hook is for this method
      have hnone : l.find? (·.key = key) = none := by
        refine find?_eq_none.mpr fun other hmem hother => ?_
        rw [decide_eq_true_iff] at hother
        exact hfresh (mem_map.mpr ⟨other, hmem, hother.trans hkey.symm⟩)
      rw [hnone, find?_cons_of_pos (by simpa using hkey), ← hkey, Function.update_self, hm]
      rfl
    · rw [Function.update_of_ne (Ne.symm hkey), find?_cons_of_neg (by simpa using hkey)]

theorem allNative_hooks (t : ClassTable w) (methods : List (JNINativeMethod w)) :
    AllNative t (methods.filter (hooks t)) := by
  intro hook hmem
  have hhook := (mem_filter.mp hmem).2
  rw [hooks, decide_eq_true_iff, implementation, Option.isSome_map] at hhook
  obtain ⟨m, hm⟩ := Option.isSome_iff_exists.mp hhook.2
  exact ⟨m, Option.filter_eq_some_iff.mp hm⟩

theorem hookJniMethods_some (t : ClassTable w) (methods : List (JNINativeMethod w)) :
    hookJniMethods (some t) methods =
      (some (registerNatives t (methods.filter (hooks t))), methods.map (replaced (some t))) := by
  rw [hookJniMethods]
  simp only [hookLoop_spec]
  split
  case isTrue hempty => rw [hempty, registerNatives]
  case isFalse => rfl

theorem replaced_key (clazz : Option (ClassTable w)) (entry : JNINativeMethod w) :
    (replaced clazz entry).key = entry.key := rfl

theorem keys_replaced (clazz : Option (ClassTable w)) (methods : List (JNINativeMethod w)) :
    (methods.map (replaced clazz)).map (·.key) = methods.map (·.key) := by
  rw [map_map]
  rfl

theorem hooked_method (t : ClassTable w)
    (hkeys : (methods.map (·.key)).Nodup) (key : MethodKey) :
    registerNatives t (methods.filter (hooks t)) key =
      (t key).map (withHook ((methods.filter (hooks t)).find? (·.key = key))) :=
  registerNatives_spec (allNative_hooks t methods) (hkeys.sublist (filter_sublist.map _)) key

theorem find_hook_of_not_mem
    (h : key ∉ methods.map (·.key)) (p : JNINativeMethod w → Bool) :
    (methods.filter p).find? (·.key = key) = none := by
  refine find?_eq_none.mpr fun entry hmem hkey => h ?_
  exact mem_map.mpr ⟨entry, (mem_filter.mp hmem).1, decide_eq_true_iff.mp hkey⟩

theorem hooked_of_not_mem (clazz : Option (ClassTable w))
    (hkeys : (methods.map (·.key)).Nodup) (h : key ∉ methods.map (·.key)) :
    (hookJniMethods clazz methods).1.map (· key) = clazz.map (· key) := by
  cases clazz with
  | none => rfl
  | some t =>
    rw [hookJniMethods_some, Option.map_some, Option.map_some, hooked_method t hkeys,
      find_hook_of_not_mem h, withHook_none, Option.map_id, id]

theorem find_of_mem (hkeys : (methods.map (·.key)).Nodup) (hmem : entry ∈ methods) :
    methods.find? (·.key = entry.key) = some entry := by
  induction methods with
  | nil => exact absurd hmem not_mem_nil
  | cons other methods ih =>
    obtain ⟨hfresh, hkeys⟩ := nodup_cons.mp hkeys
    rcases mem_cons.mp hmem with rfl | hmem
    · exact find?_cons_of_pos (decide_eq_true rfl)
    · have hne : other.key ≠ entry.key := fun h => hfresh (mem_map.mpr ⟨entry, hmem, h.symm⟩)
      rw [find?_cons_of_neg (by simpa using hne), ih hkeys hmem]

end JniLemmas

open JniLemmas

/-- The originals of the methods that the array names are not null. -/
def OriginalsSet (clazz : Option (ClassTable w)) (methods : List (JNINativeMethod w)) : Prop :=
  ∀ entry ∈ methods, implementation clazz entry.key ≠ some 0

namespace JniLemmas

variable {entry : JNINativeMethod w}

/-- What is not hooked has no pointer in the array afterwards. -/
theorem replaced_of_not_hooks {t : ClassTable w} (h : hooks t entry = false) :
    (replaced (some t) entry).fnPtr = 0 := by
  by_cases hnull : entry.fnPtr = 0
  · rwa [replaced_of_null hnull]
  · rw [hooks_of_ne hnull, Option.isSome_eq_false_iff, Option.isNone_iff_eq_none] at h
    rw [replaced_of_ne hnull, h, Option.getD_none]

theorem not_hooks_of_null {t : ClassTable w} (h : entry.fnPtr = 0) :
    hooks t entry = false := decide_eq_false fun hhook => hhook.1 h

/-- What a hooked entry holds afterwards, and the method. -/
theorem hooked_entry {t : ClassTable w} (h : hooks t entry = true) :
    ∃ m, t entry.key = some m ∧ m.isNative = true ∧ implementation (some t) entry.key = some m.data ∧
      replaced (some t) entry = { entry with fnPtr := m.data } := by
  rw [hooks, decide_eq_true_iff] at h
  obtain ⟨hset, hsome⟩ := h
  cases hm : t entry.key with
  | none => rw [implementation_of_none hm] at hsome; exact absurd hsome Bool.false_ne_true
  | some m =>
    have himpl := implementation_of_some hm
    cases hnative : m.isNative with
    | false =>
      rw [hnative, if_neg Bool.false_ne_true] at himpl
      rw [himpl] at hsome
      exact absurd hsome Bool.false_ne_true
    | true =>
      rw [hnative, if_pos rfl] at himpl
      exact ⟨m, rfl, hnative, himpl, by rw [replaced_of_ne hset, himpl, Option.getD_some]⟩

theorem hook_twice_at (t : ClassTable w) {methods : List (JNINativeMethod w)}
    (hkeys : (methods.map (·.key)).Nodup) (horig : OriginalsSet (some t) methods) (key : MethodKey) :
    let t' := registerNatives t (methods.filter (hooks t))
    registerNatives t' ((methods.map (replaced (some t))).filter (hooks t')) key = t key := by
  intro t'
  have hkeys' : ((methods.map (replaced (some t))).map (·.key)).Nodup := by rwa [keys_replaced]
  have hfirst : t' key = _ := hooked_method t hkeys key
  rw [hooked_method t' hkeys']
  cases hfind : (methods.filter (hooks t)).find? (·.key = key) with
  | none =>
    -- not hooked: the entry for it has no pointer in the second call
    have hnone : ((methods.map (replaced (some t))).filter (hooks t')).find? (·.key = key) = none := by
      refine find?_eq_none.mpr fun entry' hmem' hkey => ?_
      obtain ⟨hmem', hhook'⟩ := mem_filter.mp hmem'
      obtain ⟨entry, hmem, rfl⟩ := mem_map.mp hmem'
      cases hhook : hooks t entry with
      | false =>
        rw [not_hooks_of_null (replaced_of_not_hooks hhook)] at hhook'
        exact Bool.false_ne_true hhook'
      | true => exact find?_eq_none.mp hfind entry (mem_filter.mpr ⟨hmem, hhook⟩) hkey
    rw [hnone, hfirst, hfind, withHook_none, Option.map_id, id, id]
  | some entry =>
    obtain ⟨hmem, hhook⟩ := mem_filter.mp (mem_of_find?_eq_some hfind)
    have hkey : entry.key = key := by simpa using find?_some hfind
    obtain ⟨m, hm, hnative, himpl, hreplaced⟩ := hooked_entry hhook
    rw [hkey] at hm himpl
    rw [hfind, hm, Option.map_some] at hfirst
    have hhook' : hooks t' (replaced (some t) entry) = true := by
      have hset : (replaced (some t) entry).fnPtr ≠ 0 := by
        rw [hreplaced]
        intro hzero
        exact horig entry hmem (by rw [hkey, himpl, ← hzero])
      rw [hooks_of_ne hset, replaced_key, hkey, implementation_of_some hfirst]
      exact congrArg Option.isSome (if_pos hnative)
    have hfind' := find_of_mem (hkeys'.sublist (filter_sublist.map _))
      (mem_filter.mpr ⟨mem_map_of_mem hmem, hhook'⟩)
    rw [replaced_key, hkey] at hfind'
    rw [hfind', hfirst, hm, hreplaced]
    rfl

end JniLemmas

/-- After two calls with one array the class is as it was, and between them an entry with a pointer
holds the implementation that it replaces. -/
theorem hook_twice (clazz : Option (ClassTable w)) (methods : List (JNINativeMethod w))
    (hkeys : (methods.map (·.key)).Nodup) :
    let first := hookJniMethods clazz methods
    let second := hookJniMethods first.1 first.2
    (OriginalsSet clazz methods → second.1 = clazz) ∧
      first.2 = methods.map (replaced clazz) ∧
      ∀ key, key ∉ methods.map (·.key) →
        first.1.map (· key) = clazz.map (· key) ∧ second.1.map (· key) = clazz.map (· key) := by
  intro first second
  have hheld : first.2 = methods.map (replaced clazz) := by
    cases clazz with
    | none =>
      refine map_congr_left fun entry _ => ?_
      rw [replaced, implementation, Option.bind_none, Option.filter_none, Option.map_none,
        Option.getD_none, ite_self]
    | some t => exact congrArg Prod.snd (hookJniMethods_some t methods)
  have hkeys' : (first.2.map (·.key)).Nodup := by rwa [hheld, keys_replaced]
  refine ⟨fun horig => ?_, hheld, fun key hkey => ?_⟩
  · cases clazz with
    | none => rfl
    | some t =>
      simp only [second, first, hookJniMethods_some]
      exact congrArg some (funext (hook_twice_at t hkeys horig))
  · have hfirst := hooked_of_not_mem clazz hkeys hkey
    refine ⟨hfirst, (hooked_of_not_mem first.1 hkeys' ?_).trans hfirst⟩
    rwa [hheld, keys_replaced]

/-- A class with one native method, which is static. -/
def forkClass : ClassTable 64 :=
  fun key => if key = ⟨"nativeFork", "()I"⟩ then some ⟨true, true, 0x7100⟩ else none

/-- A hook for it, and one for a method that the class does not have. -/
def forkHooks :
    List (JNINativeMethod 64) := [⟨⟨"nativeFork", "()I"⟩, 0x5200⟩, ⟨⟨"nativeFork", "(I)I"⟩, 0x5300⟩]

theorem hook_twice_fork :
    OriginalsSet (some forkClass) forkHooks ∧
      (hookJniMethods (some forkClass) forkHooks).2 =
        [⟨⟨"nativeFork", "()I"⟩, 0x7100⟩, ⟨⟨"nativeFork", "(I)I"⟩, 0⟩] ∧
      (hookJniMethods (hookJniMethods (some forkClass) forkHooks).1
        (hookJniMethods (some forkClass) forkHooks).2).1 = some forkClass := by
  have horig : OriginalsSet (some forkClass) forkHooks := by
    unfold OriginalsSet
    decide
  have htwice := hook_twice (some forkClass) forkHooks (by decide)
  exact ⟨horig, htwice.2.1.trans (by decide), htwice.1 horig⟩

/-- An entry without a pointer does not get the implementation of its method. -/
theorem null_entry_stays_null :
    ¬ ∀ (clazz : Option (ClassTable 64)) (methods : List (JNINativeMethod 64)),
      (methods.map (·.key)).Nodup →
        (hookJniMethods clazz methods).2.map (·.fnPtr) =
          methods.map fun entry => (implementation clazz entry.key).getD 0 := by
  intro h
  exact absurd (h (some forkClass) [⟨⟨"nativeFork", "()I"⟩, 0⟩] (by decide)) (by decide)

end NyaZygisk.JniHooks
