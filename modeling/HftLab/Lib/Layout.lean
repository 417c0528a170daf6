/-
  HftLab.Lib.Layout — messages with fields at fixed offsets.

  A writer puts each field at its offset of a buffer, a reader takes slices of the message.
  - `putAll_eq`: adjacent fields leave their bytes one behind the other at the front of the buffer;
  - `slice_of_mem`: a slice at a field's offset gives the field back;
  - `beNat_beBytes`: big-endian numbers; `unpad_pad`: texts that are padded on the right.
-/

import Mathlib.Data.List.DropRight
import Mathlib.Tactic.Ring

namespace HftLab.Lib

open List

variable {α : Type} {fields : List (Nat × List α)} {off n : Nat} {bytes : List α} {s : List UInt8}

/-! ## Fields -/

/-- The buffer with `bytes` written at `off`. -/
def put (buf : List α) (off : Nat) (bytes : List α) : List α := buf.take off ++ (bytes ++ buf.drop (off + bytes.length))

def putAll (buf : List α) (fields : List (Nat × List α)) : List α := fields.foldl (fun buf f => put buf f.1 f.2) buf

/-- The fields lie one behind the other from `off` on. -/
def Adjacent : Nat → List (Nat × List α) → Prop
  | _, [] => True
  | off, f :: fields => f.1 = off ∧ Adjacent (off + f.2.length) fields

def fieldBytes (fields : List (Nat × List α)) : List α := fields.flatMap Prod.snd

def slice (l : List α) (off n : Nat) : List α := (l.drop off).take n

theorem put_append (pre buf bytes : List α) : put (pre ++ buf) pre.length bytes = pre ++ bytes ++ buf.drop bytes.length := by
  unfold put
  rw [take_left' rfl, drop_append, drop_eq_nil_of_le (Nat.le_add_right _ _), Nat.add_sub_cancel_left]
  simp

theorem putAll_append (fields : List (Nat × List α)) (pre buf : List α) (h : Adjacent pre.length fields) :
    putAll (pre ++ buf) fields = pre ++ fieldBytes fields ++ buf.drop (fieldBytes fields).length := by
  induction fields generalizing pre buf with
  | nil => simp [putAll, fieldBytes]
  | cons f fields ih =>
    obtain ⟨hoff, hrest⟩ := h
    have hlen : Adjacent (pre ++ f.2).length fields := by
      rw [length_append]
      exact hrest
    have hstep := ih (pre ++ f.2) (buf.drop f.2.length) hlen
    show putAll (put (pre ++ buf) f.1 f.2) fields = _
    rw [hoff, put_append, hstep]
    simp [fieldBytes]

theorem putAll_eq (h : Adjacent 0 fields) (buf : List α) :
    (putAll buf fields).take (fieldBytes fields).length = fieldBytes fields := by
  have := putAll_append fields [] buf h
  rw [nil_append, nil_append] at this
  rw [this, take_left' rfl]

theorem slice_of_mem (fields : List (Nat × List α)) (pre : List α) (h : Adjacent pre.length fields) (hf : (off, bytes) ∈ fields) :
    slice (pre ++ fieldBytes fields) off bytes.length = bytes := by
  induction fields generalizing pre with
  | nil => cases hf
  | cons f fields ih =>
    obtain ⟨hoff, hrest⟩ := h
    rcases mem_cons.mp hf with rfl | hf
    · subst hoff
      unfold slice fieldBytes
      rw [drop_left' rfl, flatMap_cons, take_left' rfl]
    · have hlen : Adjacent (pre ++ f.2).length fields := by
        rw [length_append]
        exact hrest
      have hstep := ih (pre ++ f.2) hlen hf
      rw [append_assoc] at hstep
      exact hstep

/-- What follows does not matter to a slice that ends before. -/
theorem slice_append {l r : List α} (h : off + n ≤ l.length) : slice (l ++ r) off n = slice l off n := by
  unfold slice
  rw [drop_append_of_le_length (by omega), take_append_of_le_length (by rw [length_drop]; omega)]

/-- The slice at a field's offset is the field. -/
theorem slice_eq (h : Adjacent 0 fields) (hf : (off, bytes) ∈ fields) (hn : bytes.length = n) :
    slice (fieldBytes fields) off n = bytes := by
  rw [← hn]
  exact slice_of_mem fields [] h hf

theorem getD_eq {a : α} (h : Adjacent 0 fields) (hf : (off, [a]) ∈ fields) (d : α) : (fieldBytes fields).getD off d = a := by
  have hslice : ((fieldBytes fields).drop off).take 1 = [a] := slice_eq h hf rfl
  have hget : (((fieldBytes fields).drop off).take 1)[0]? = some a := by rw [hslice, List.getElem?_cons_zero]
  rw [List.getElem?_take_of_lt (by decide), List.getElem?_drop, Nat.add_zero] at hget
  rw [getD_eq_getElem?_getD, hget, Option.getD_some]

/-- What a writer puts into its buffer, and the length it returns. -/
structure Layout (α : Type) where
  fields : List (Nat × List α)
  length : Nat

namespace Layout

variable (m : Layout α)

/-- The message that the writer leaves at the front of the buffer. -/
def message (buf : List α) : List α := (putAll buf m.fields).take m.length

/-- No gap, no overlap, and the length is that of the fields. -/
structure Packed : Prop where
  adjacent : Adjacent 0 m.fields
  length : (fieldBytes m.fields).length = m.length

variable {m}

theorem Packed.message_eq (h : m.Packed) (buf : List α) : m.message buf = fieldBytes m.fields := by
  unfold message
  rw [← h.length]
  exact putAll_eq h.adjacent buf

theorem Packed.message_length (h : m.Packed) (buf : List α) : (m.message buf).length = m.length := by
  rw [h.message_eq, h.length]

theorem Packed.slice (h : m.Packed) (buf : List α) {off n : Nat} {bytes : List α} (hf : (off, bytes) ∈ m.fields)
    (hn : bytes.length = n) : slice (m.message buf) off n = bytes := by
  rw [h.message_eq]
  exact slice_eq h.adjacent hf hn

theorem Packed.getD (h : m.Packed) (buf : List α) {i : Nat} {a : α} (hf : (i, [a]) ∈ m.fields) (d : α) :
    (m.message buf).getD i d = a := by
  rw [h.message_eq]
  exact getD_eq h.adjacent hf d

end Layout

/-! ## Big-endian numbers -/

/-- The `n` low bytes of `x`, the highest first. -/
def beBytes : Nat → Nat → List UInt8
  | 0, _ => []
  | n + 1, x => UInt8.ofNat (x / 256 ^ n) :: beBytes n x

def beNat (l : List UInt8) : Nat := l.foldl (fun val b => val * 256 + b.toNat) 0

theorem beBytes_length (n x : Nat) : (beBytes n x).length = n := by
  induction n with
  | zero => rfl
  | succ n ih => rw [beBytes, length_cons, ih]

theorem foldl_beBytes (n x val : Nat) :
    (beBytes n x).foldl (fun val b => val * 256 + b.toNat) val = val * 256 ^ n + x % 256 ^ n := by
  induction n generalizing val with
  | zero => simp [beBytes, Nat.mod_one]
  | succ n ih =>
    have hbyte : (UInt8.ofNat (x / 256 ^ n)).toNat = x / 256 ^ n % 256 := UInt8.toNat_ofNat'
    have hmod : x % 256 ^ (n + 1) = x % 256 ^ n + 256 ^ n * (x / 256 ^ n % 256) := by
      rw [Nat.pow_succ, Nat.mod_mul]
    rw [beBytes, foldl_cons, ih, hbyte, hmod, Nat.pow_succ]
    ring

theorem beNat_beBytes {x : Nat} (h : x < 256 ^ n) : beNat (beBytes n x) = x := by
  unfold beNat
  rw [foldl_beBytes, Nat.zero_mul, Nat.zero_add, Nat.mod_eq_of_lt h]

/-- Four parts put together in one word, or shifted in one by one. -/
theorem shiftLeft_four (a b c d : Nat) :
    a <<< 24 ||| b <<< 16 ||| c <<< 8 ||| d = ((a <<< 8 ||| b) <<< 8 ||| c) <<< 8 ||| d := by
  simp only [Nat.shiftLeft_or_distrib, ← Nat.shiftLeft_add]

/-- Shifting a byte in is the step of a big-endian number. -/
theorem shiftLeft_or (val : Nat) (b : UInt8) : val <<< 8 ||| b.toNat = val * 256 + b.toNat := by
  rw [← Nat.shiftLeft_add_eq_or_of_lt b.toNat_lt, Nat.shiftLeft_eq]

/-! ## Padded texts -/

/-- The text of a buffer that ends at the first NUL. -/
def cString (s : List UInt8) : List UInt8 := s.takeWhile (· ≠ 0)

theorem cString_eq (h : 0 ∉ s) : cString s = s := by
  refine takeWhile_eq_self_iff.mpr fun b hb => ?_
  simp only [decide_eq_true_eq]
  exact fun hz => h (hz ▸ hb)

theorem zero_not_mem_cString (s : List UInt8) : 0 ∉ cString s := by
  intro h
  have hne := mem_takeWhile_imp h
  simp at hne

theorem cString_append_zero (h : 0 ∉ s) (rest : List UInt8) : cString (s ++ 0 :: rest) = s := by
  unfold cString
  have hall : ∀ b ∈ s, decide (b ≠ 0) = true := fun b hb => decide_eq_true fun (hz : b = 0) => h (hz ▸ hb)
  rw [takeWhile_append_of_pos hall, takeWhile_cons_of_neg (by simp), append_nil]

def pad (fill : α) (len : Nat) (s : List α) : List α := s.take len ++ List.replicate (len - (s.take len).length) fill

@[simp] theorem pad_length (fill : α) (len : Nat) (s : List α) : (pad fill len s).length = len := by
  simp [pad]

def unpad [DecidableEq α] (fill : α) (s : List α) : List α := s.rdropWhile (· = fill)

theorem unpad_append_replicate [DecidableEq α] (fill : α) (s : List α) (n : Nat) :
    unpad fill (s ++ List.replicate n fill) = unpad fill s := by
  induction n with
  | zero => simp
  | succ n ih =>
    rw [replicate_succ', ← append_assoc]
    unfold unpad at ih ⊢
    rw [rdropWhile_concat_pos _ _ _ (by simp), ih]

theorem unpad_pad [DecidableEq α] {fill : α} {len : Nat} {s : List α} (hlen : s.length ≤ len) (hlast : s.getLast? ≠ some fill) :
    unpad fill (pad fill len s) = s := by
  unfold pad
  rw [take_of_length_le hlen, unpad_append_replicate]
  unfold unpad
  rw [rdropWhile_eq_self_iff]
  intro hne hfill
  refine hlast ?_
  rw [List.getLast?_eq_some_getLast hne, of_decide_eq_true hfill]

end HftLab.Lib
