/-
  HftLab.Fix.Message — FIX messages (fix_parser.hpp): `build_message`, `parse` with its validation, and the readers.

  A text is its bytes. The head of a message is built in a buffer of 64 bytes, which is enough for the begin strings in use. The
  parser marks the end of a tag in its working copy; no later step looks at that byte, so the copy is left as it is. The time that
  `parse` returns is left out.
-/

import HftLab.Lib.Decimal
import HftLab.Lib.Layout

namespace HftLab.Fix

open Lib

def ascii (s : String) : List UInt8 := s.toList.map Char.toUInt8

def soh : UInt8 := 1

def equals : UInt8 := 61

def maxFixTags : Nat := 32

def maxFixValue : Nat := 32

structure FIXField where
  tag : Int
  value : List UInt8
  deriving DecidableEq, Repr

def computeChecksum (data : List UInt8) : Nat := (data.map UInt8.toNat).sum % 256

/-! ## Writing -/

/-- The fields of a body, each with its delimiter. -/
def printFields (delim : UInt8) (fields : List (Nat × List UInt8)) : List UInt8 :=
  fields.flatMap fun f => decimal f.1 ++ equals :: (f.2 ++ [delim])

/-- The message, empty when the buffer is too small and 0 is returned. -/
def buildMessage (cap : Int) (body begin_ : List UInt8) (delim : UInt8) : List UInt8 :=
  let body := cString body
  let head := ascii "8=" ++ cString begin_ ++ [delim] ++ ascii "9=" ++ decimal body.length ++ [delim]
  if cap < head.length + body.length + 16 then []
  else
    let out := head ++ body
    out ++ ascii "10=" ++ decimal3 (computeChecksum out) ++ [delim]

/-! ## Reading -/

/-- What the loop of `parse` collects; an offset is -1 in the source as long as there is none. -/
structure Scan where
  fields : List FIXField := []
  cksumOff : Option Nat := none
  bodyOff : Option Nat := none
  pendingBody : Bool := false
  deriving DecidableEq, Repr

namespace Scan

/-- The field that starts at `off` is the first of the body, if the one before it was tag 9. -/
def enter (s : Scan) (off : Nat) : Scan := if s.pendingBody then { s with bodyOff := some off, pendingBody := false } else s

/-- `tag` and `value` of the field that starts at `off`. -/
def push (s : Scan) (off : Nat) (tag : Int) (value : List UInt8) : Scan where
  fields := s.fields ++ [{ tag, value := value.take (maxFixValue - 1) }]
  cksumOff := if tag = 10 then some off else s.cksumOff
  bodyOff := s.bodyOff
  pendingBody := s.pendingBody || tag = 9

/-- The field `text`, without its delimiter; skipped when it has no tag. -/
def scanField (s : Scan) (off : Nat) (text : List UInt8) : Scan :=
  let name := text.takeWhile (· ≠ equals)
  if name.length < text.length ∧ 0 < name.length then
    let tag := atoi name
    if 0 < tag then s.push off tag (text.drop (name.length + 1)) else s
  else s

/-- The loop from `off` on; `rest` is what is left of the copy. Each turn takes at least one byte. -/
def loop (delim : UInt8) : Nat → Nat → List UInt8 → Scan → Scan
  | 0, _, _, s => s
  | fuel + 1, off, rest, s =>
    if rest = [] ∨ maxFixTags ≤ s.fields.length then s
    else
      let text := rest.takeWhile (· ≠ delim)
      let used := text.length + if text.length < rest.length then 1 else 0
      loop delim fuel (off + used) (rest.drop used) ((s.enter off).scanField off text)

end Scan

structure FIXMessage where
  fields : List FIXField := []
  cksumPresent : Bool := false
  cksumValid : Bool := false
  bodylenPresent : Bool := false
  bodylenValid : Bool := false
  computedCksum : Int := -1
  computedBodylen : Int := -1
  deriving DecidableEq, Repr

namespace FIXMessage

def findField (m : FIXMessage) (tag : Int) : Option FIXField := m.fields.find? (·.tag = tag)

/-- The working copy: up to the first NUL, and never more than 1023 bytes. -/
def workingCopy (raw : List UInt8) : List UInt8 := (cString raw).take 1023

def validateChecksum (m : FIXMessage) (raw : List UInt8) (cksumOff : Option Nat) : FIXMessage :=
  match m.findField 10, cksumOff with
  | some f10, some off =>
    let computed : Int := computeChecksum (raw.take off)
    { m with cksumPresent := true, computedCksum := computed, cksumValid := atoi f10.value = computed }
  | _, _ => m

def validateBodyLength (m : FIXMessage) (cksumOff bodyOff : Option Nat) : FIXMessage :=
  match m.findField 9, cksumOff, bodyOff with
  | some f9, some cksum, some body =>
    if body ≤ cksum then
      let computed : Int := cksum - body
      { m with bodylenPresent := true, computedBodylen := computed, bodylenValid := atoi f9.value = computed }
    else m
  | _, _, _ => m

def validate (m : FIXMessage) (raw : List UInt8) (cksumOff bodyOff : Option Nat) : FIXMessage :=
  (m.validateChecksum raw cksumOff).validateBodyLength cksumOff bodyOff

def parse (raw : List UInt8) : FIXMessage :=
  let buf := workingCopy raw
  if buf = [] then {}
  else
    let delim := if soh ∈ buf then soh else '|'.toUInt8
    let s := Scan.loop delim buf.length 0 buf {}
    ({ fields := s.fields } : FIXMessage).validate raw s.cksumOff s.bodyOff

def fieldCount (m : FIXMessage) : Nat := m.fields.length

def countField (m : FIXMessage) (tag : Int) : Nat := m.fields.foldl (fun c f => if f.tag = tag then c + 1 else c) 0

/-- The value of the `occurrence`-th field of the tag, `c` of which were seen. -/
def nthFrom (tag : Int) (occurrence : Nat) : Nat → List FIXField → Option (List UInt8)
  | _, [] => none
  | c, f :: fields =>
    if f.tag = tag then if c = occurrence then some f.value else nthFrom tag occurrence (c + 1) fields
    else nthFrom tag occurrence c fields

def getFieldNth (m : FIXMessage) (tag : Int) (occurrence : Nat) : Option (List UInt8) := nthFrom tag occurrence 0 m.fields

def hasRequiredHeader (m : FIXMessage) : Bool :=
  (m.findField 8).isSome && (m.findField 9).isSome && (m.findField 35).isSome && (m.findField 10).isSome

def isValid (m : FIXMessage) : Bool := m.hasRequiredHeader && m.cksumValid && m.bodylenValid

/-! ## The values of a tag -/

/-- In order. -/
def valuesAt (tag : Int) (fields : List FIXField) : List (List UInt8) := (fields.filter (·.tag = tag)).map (·.value)

theorem valuesAt_cons_self {tag : Int} {f : FIXField} (h : f.tag = tag) (fields : List FIXField) :
    valuesAt tag (f :: fields) = f.value :: valuesAt tag fields := by
  simp [valuesAt, h]

theorem valuesAt_cons_of_ne {tag : Int} {f : FIXField} (h : f.tag ≠ tag) (fields : List FIXField) :
    valuesAt tag (f :: fields) = valuesAt tag fields := by
  simp [valuesAt, h]

theorem valuesAt_append (tag : Int) (fields fields' : List FIXField) :
    valuesAt tag (fields ++ fields') = valuesAt tag fields ++ valuesAt tag fields' := by
  simp [valuesAt]

theorem foldl_count (tag : Int) (fields : List FIXField) (c : Nat) :
    fields.foldl (fun c f => if f.tag = tag then c + 1 else c) c = c + (valuesAt tag fields).length := by
  induction fields generalizing c with
  | nil => rfl
  | cons f fields ih =>
    rw [List.foldl_cons, ih]
    by_cases h : f.tag = tag
    · rw [if_pos h, valuesAt_cons_self h, List.length_cons]
      omega
    · rw [if_neg h, valuesAt_cons_of_ne h]

theorem nthFrom_eq (tag : Int) (fields : List FIXField) (i c : Nat) : nthFrom tag (c + i) c fields = (valuesAt tag fields)[i]? := by
  induction fields generalizing i c with
  | nil => rfl
  | cons f fields ih =>
    rw [nthFrom]
    by_cases h : f.tag = tag
    · rw [if_pos h, valuesAt_cons_self h]
      cases i with
      | zero => rw [if_pos (Nat.add_zero c).symm, List.getElem?_cons_zero]
      | succ i =>
        have hshift : c + (i + 1) = c + 1 + i := by omega
        rw [if_neg (by omega), hshift, ih, List.getElem?_cons_succ]
    · rw [if_neg h, valuesAt_cons_of_ne h]
      exact ih i c

theorem countField_eq (m : FIXMessage) (tag : Int) : m.countField tag = (valuesAt tag m.fields).length := by
  unfold countField
  rw [foldl_count, Nat.zero_add]

theorem getFieldNth_eq (m : FIXMessage) (tag : Int) (i : Nat) : m.getFieldNth tag i = (valuesAt tag m.fields)[i]? := by
  have hnth := nthFrom_eq tag m.fields i 0
  rw [Nat.zero_add] at hnth
  exact hnth

end FIXMessage

end HftLab.Fix
