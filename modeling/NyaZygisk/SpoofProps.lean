import NyaZygisk.Lib.CStrings
import NyaZygisk.Lib.Lines
import Mathlib

/-!
# Spoofed properties

`LoadPropConfig` of `hook.cpp` reads `spoof.prop`, and `new_property_get` answers for the keys in it. The
value is cut to the room that the caller has, the length that is returned is not.
-/

namespace NyaZygisk.SpoofProps

open CStrings List

abbrev Bytes : Type := List UInt8

/-! ## `LoadPropConfig` -/

/-- `g_spoof_props`. -/
abbrev Props : Type := AList fun _ : Bytes => Bytes

/-- Space, tab and carriage return. -/
def isBlank (c : UInt8) : Bool := c = 0x20 || c = 0x09 || c = 0x0D

def trimLine (line : Bytes) : Bytes :=
  ((line.dropWhile isBlank).reverse.dropWhile fun c => isBlank c || c = 0x0A).reverse

/-- The key and the value on a line that is not a comment. -/
def assignment (line : Bytes) : Option (Bytes × Bytes) :=
  let line := trimLine line
  if line ≠ [] ∧ line.head? ≠ some 0x23 then
    (line.findIdx? (· = 0x3D)).map fun eq => (line.take eq, line.drop (eq + 1))
  else none

def assignments (content : Bytes) : List (Bytes × Bytes) := (Lines.split 0x0A content).filterMap assignment

def digestKey : Bytes := ascii "ro.boot.vbmeta.digest"

def hexDigit (n : UInt8) : UInt8 := (ascii "0123456789abcdef").getD n.toNat 0

def hexText (bytes : Bytes) : Bytes := bytes.flatMap fun b :
    UInt8 => [hexDigit (b >>> 4), hexDigit (b &&& 0x0F)]

/-- `LoadPropConfig`; `random` are the bytes that were read from `/dev/urandom`, if it could be
opened. -/
def loadPropConfig (file random : Option Bytes) (props : Props) : Props :=
  match file with
  | none => props
  | some content =>
    let props := (assignments content).foldl (fun props a => props.insert a.1 a.2) props
    match random with
    | none => props
    | some bytes => if bytes.length = 32 then props.insert digestKey (hexText bytes) else props

/-! ## `new_property_get` -/

def propValueMax : Nat := 92

def strlcpy (src : Bytes) (size : Nat) : Bytes := (cString 0 src).take (size - 1) ++ [0]

def toInt (length : Nat) : Int := Int.bmod length (2 ^ 32)

/-- `new_property_get` for a key that may be null, and with a buffer or without one: what is written and
what is returned, or `none` where it goes on to the original function. -/
def newPropertyGet (props : Props) (key : Option Bytes) (buffer : Bool) : Option (Option Bytes × Int) :=
  match key with
  | none => none
  | some key =>
    if props.entries.isEmpty then none
    else
      (props.lookup (cString 0 key)).map fun value =>
        (if buffer then some (strlcpy value propValueMax) else none, toInt value.length)

/-! ## The contract -/

/-- The value that the file gives a key last. -/
def lastAssigned (content key : Bytes) : Option Bytes :=
  ((assignments content).reverse.find? (·.1 = key)).map Prod.snd

/-- The buffer has the value, cut to the room for it, as a string, and its length is returned. -/
def KeepsContract (answer : Option (Option Bytes × Int)) (value : Bytes) : Prop :=
  ∃ s : Bytes, answer = some (some (s ++ [0]), (s.length : Int)) ∧ 0 ∉ s ∧ s.length ≤ propValueMax - 1 ∧
    s = value.take (propValueMax - 1)

namespace SpoofPropsLemmas

/-! ### The file -/

theorem lookup_foldl_insert (entries : List (Bytes × Bytes)) (props : Props) (key : Bytes) :
    (entries.foldl (fun props a => props.insert a.1 a.2) props).lookup key =
      ((entries.reverse.find? (·.1 = key)).map Prod.snd).or (props.lookup key) := by
  induction entries using List.reverseRecOn with
  | nil => rfl
  | append_singleton entries a ih =>
    rw [foldl_concat, reverse_concat, find?_cons]
    by_cases hkey : a.1 = key
    · subst hkey
      rw [AList.lookup_insert, decide_eq_true rfl]
      rfl
    · rw [AList.lookup_insert_ne (Ne.symm hkey), decide_eq_false hkey, ih]

/-- The file decides for every key but the one that gets random digits. -/
theorem lookup_loadPropConfig {content key value : Bytes} (hkey : key ≠ digestKey)
    (h : lastAssigned content key = some value) (random : Option Bytes) (props : Props) :
    (loadPropConfig (some content) random props).lookup key = some value := by
  have hfile : ((assignments content).foldl (fun props a => props.insert a.1 a.2) props).lookup
    key = some value := by
    rw [lookup_foldl_insert, ← lastAssigned, h, Option.some_or]
  cases random with
  | none => exact hfile
  | some bytes =>
    rw [loadPropConfig]
    split
    · rw [AList.lookup_insert_ne hkey]
      exact hfile
    · exact hfile

theorem not_isEmpty_of_lookup {props : Props} {key value : Bytes} (h : props.lookup key = some value) :
    props.entries.isEmpty = false := by
  rw [isEmpty_eq_false_iff]
  intro hnil
  rw [AList.lookup, hnil] at h
  cases h

/-! ### Strings -/

theorem take_cString (n : Nat) (bytes : Bytes) : (cString 0 bytes).take n = cString 0 (bytes.take n) :=
  take_takeWhile

theorem newPropertyGet_eq {props : Props} {key value : Bytes} (hnul : 0 ∉ key)
    (h : props.lookup key = some value) :
    newPropertyGet props (some key) true = some (some (strlcpy value propValueMax), toInt value.length) := by
  rw [newPropertyGet, not_isEmpty_of_lookup h, if_neg Bool.false_ne_true, cString_eq_self_iff.mpr hnul, h]
  rfl

theorem toInt_of_le {n : Nat} (h : n ≤ propValueMax - 1) : toInt n = n := by
  have hmax : propValueMax - 1 = 91 := rfl
  unfold toInt
  exact Int.bmod_eq_of_le (by omega) (by omega)

theorem toInt_eq_max_iff (n : Nat) : toInt n = (propValueMax - 1 : Nat) ↔ n % 2 ^ 32 = propValueMax - 1 := by
  have hmax : propValueMax - 1 = 91 := rfl
  unfold toInt
  rw [hmax, Int.bmod_def]
  split
  · omega
  · omega

end SpoofPropsLemmas

open SpoofPropsLemmas

/-- For a key that the file assigns, the answer keeps the contract exactly if the value fits (or is
longer than the room by a multiple of `2 ^ 32`), and has no NUL in that part. -/
theorem keeps_contract_iff (content : Bytes) (random : Option Bytes) (props : Props) {key value : Bytes}
    (hnul : 0 ∉ key) (hkey : key ≠ digestKey) (h : lastAssigned content key = some value) :
    KeepsContract (newPropertyGet (loadPropConfig (some content) random props) (some key) true) value ↔
      0 ∉ value.take (propValueMax - 1) ∧
        (value.length ≤ propValueMax - 1 ∨ value.length % 2 ^ 32 = propValueMax - 1) := by
  rw [newPropertyGet_eq hnul (lookup_loadPropConfig hkey h random props), strlcpy, take_cString]
  constructor
  · rintro ⟨s, hs, hzero, -, rfl⟩
    obtain ⟨-, hret⟩ := Prod.mk.inj (Option.some.inj hs)
    refine ⟨hzero, ?_⟩
    rcases Nat.lt_or_ge (propValueMax - 1) value.length with hlt | hle
    · rw [length_take, Nat.min_eq_left hlt.le] at hret
      exact .inr ((toInt_eq_max_iff _).mp hret)
    · exact .inl hle
  · rintro ⟨hzero, hlen⟩
    refine ⟨value.take (propValueMax - 1), ?_, hzero, length_take_le _ _, rfl⟩
    rw [cString_eq_self_iff.mpr hzero]
    have hret : toInt value.length = (value.take (propValueMax - 1)).length := by
      rw [length_take]
      rcases Nat.lt_or_ge (propValueMax - 1) value.length with hlt | hle
      · rw [Nat.min_eq_left hlt.le]
        exact (toInt_eq_max_iff _).mpr (hlen.resolve_left (Nat.not_le.mpr hlt))
      · rw [Nat.min_eq_right hle, toInt_of_le hle]
    rw [hret]

/-- Two lines for a key, and the last one is not ended. -/
theorem keeps_contract_last_line :
    KeepsContract (newPropertyGet (loadPropConfig (some (ascii "a=1\n# a=3\n a=2")) none ∅)
      (some (ascii "a")) true)
      (ascii "2") :=
  (keeps_contract_iff _ none ∅ (by decide) (by decide) (by decide)).mpr ⟨by decide, .inl (by decide)⟩

def longValue : Bytes := List.replicate 92 0x78

/-- The buffer gets 91 bytes, and 92 is returned. -/
theorem returned_length_too_long :
    lastAssigned (ascii "a=" ++ longValue) (ascii "a") = some longValue ∧
      newPropertyGet (loadPropConfig (some (ascii "a=" ++ longValue)) none ∅) (some (ascii "a")) true =
        some (some (List.replicate 91 0x78 ++ [0]), 92) ∧
      ¬ KeepsContract (newPropertyGet (loadPropConfig (some (ascii "a=" ++ longValue)) none ∅)
        (some (ascii "a")) true)
        longValue := by
  have hanswer :
    newPropertyGet (loadPropConfig (some (ascii "a=" ++ longValue)) none ∅) (some (ascii "a")) true =
      some (some (List.replicate 91 0x78 ++ [0]), 92) := by decide +kernel
  refine ⟨by decide +kernel, hanswer, ?_⟩
  rintro ⟨s, hs, -, hle, -⟩
  rw [hanswer] at hs
  have hret : (92 : Int) = s.length := (Prod.mk.inj (Option.some.inj hs)).2
  have hmax : propValueMax - 1 = 91 := rfl
  omega

end NyaZygisk.SpoofProps
