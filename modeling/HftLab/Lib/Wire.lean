/-
  HftLab.Lib.Wire — fixed-size little-endian fields in a byte buffer.

  `Codec α`: how a value of `α` lies in `size` bytes, and which values come back as they were (`good`).
  - `uint n`, `int32`: integers;
  - `pair`, `via`: a record is its fields, one behind the other;
  - `readAt`: a read of a buffer at an offset, `none` outside the buffer;
  - `getAll`: an array of values; `getAll_put` is its round trip.
-/

import HftLab.Lib.Int32
import Mathlib.Tactic.Ring

namespace HftLab.Lib

open List

/-- The `n` low bytes of `x`, the lowest first. -/
def leBytes : Nat → Nat → List UInt8
  | 0, _ => []
  | n + 1, x => UInt8.ofNat x :: leBytes n (x / 256)

def leNat : List UInt8 → Nat
  | [] => 0
  | b :: l => b.toNat + 256 * leNat l

theorem leBytes_length (n x : Nat) : (leBytes n x).length = n := by
  induction n generalizing x with
  | zero => rfl
  | succ n ih =>
    show (leBytes n (x / 256)).length + 1 = n + 1
    rw [ih]

theorem leBytes_getElem? {n i : Nat} (h : i < n) (x : Nat) : (leBytes n x)[i]? = some (UInt8.ofNat (x / 256 ^ i)) := by
  induction n generalizing x i with
  | zero => cases h
  | succ n ih =>
    cases i with
    | zero => simp [leBytes]
    | succ i =>
      rw [leBytes, List.getElem?_cons_succ, ih (Nat.lt_of_succ_lt_succ h), Nat.div_div_eq_div_mul, Nat.pow_succ, Nat.mul_comm]

theorem leNat_leBytes {n x : Nat} (h : x < 256 ^ n) : leNat (leBytes n x) = x := by
  induction n generalizing x with
  | zero =>
    have : x = 0 := by simpa using h
    rw [this]
    rfl
  | succ n ih =>
    have hdiv : x / 256 < 256 ^ n := by
      rw [Nat.pow_succ] at h
      exact Nat.div_lt_of_lt_mul (by omega)
    show (UInt8.ofNat x).toNat + 256 * leNat (leBytes n (x / 256)) = x
    rw [ih hdiv, UInt8.toNat_ofNat']
    omega

theorem leNat_append (l l' : List UInt8) : leNat (l ++ l') = leNat l + 256 ^ l.length * leNat l' := by
  induction l with
  | nil => simp [leNat]
  | cons b l ih =>
    rw [cons_append, leNat, leNat, ih, length_cons, Nat.pow_succ]
    ring

theorem leNat_lt (l : List UInt8) : leNat l < 256 ^ l.length := by
  induction l with
  | nil => exact Nat.one_pos
  | cons b l ih =>
    have hb := b.toNat_lt
    rw [leNat, length_cons, Nat.pow_succ]
    omega

theorem leNat_eq_zero_iff {l : List UInt8} : leNat l = 0 ↔ ∀ b ∈ l, b = 0 := by
  induction l with
  | nil => simp [leNat]
  | cons b l ih =>
    have hb : b.toNat = 0 ↔ b = 0 := UInt8.toNat_inj (b := 0)
    rw [leNat, Nat.add_eq_zero_iff, Nat.mul_eq_zero, or_iff_right (by decide : (256 : Nat) ≠ 0), ih, hb, forall_mem_cons]

theorem leNat_take_succ (l : List UInt8) (n : Nat) : leNat (l.take (n + 1)) = leNat (l.take n) + 256 ^ n * (l.getD n 0).toNat := by
  induction l generalizing n with
  | nil => simp [leNat]
  | cons b l ih =>
    cases n with
    | zero => simp [leNat]
    | succ n =>
      rw [take_succ_cons, take_succ_cons, leNat, leNat, ih, getD_cons_succ, Nat.pow_succ]
      ring

/-- The bytes of a number are those it was made of, and zeros. -/
theorem leBytes_leNat {l : List UInt8} {n : Nat} (h : l.length ≤ n) : leBytes n (leNat l) = l ++ List.replicate (n - l.length) 0 := by
  induction n generalizing l with
  | zero =>
    rw [length_eq_zero_iff.mp (Nat.le_zero.mp h)]
    rfl
  | succ n ih =>
    cases l with
    | nil =>
      have hzero := ih (l := []) (Nat.zero_le n)
      rw [nil_append, length_nil, Nat.sub_zero] at hzero
      rw [nil_append, length_nil, Nat.sub_zero, replicate_succ, ← hzero]
      rfl
    | cons b l =>
      have hrest := ih (Nat.le_of_succ_le_succ h)
      have hbyte : UInt8.ofNat (b.toNat + 256 * leNat l) = b := by
        apply UInt8.toNat_inj.mp
        rw [UInt8.toNat_ofNat', Nat.add_mul_mod_self_left, Nat.mod_eq_of_lt b.toNat_lt]
      have hdiv : (b.toNat + 256 * leNat l) / 256 = leNat l := by
        have hb := b.toNat_lt
        omega
      rw [leNat, leBytes, hbyte, hdiv, hrest, length_cons, Nat.add_sub_add_right]
      rfl

structure Codec (α : Type) where
  size : Nat
  put : α → List UInt8
  get : List UInt8 → α
  good : α → Prop
  length : ∀ a, (put a).length = size
  get_put : ∀ a l, good a → get (put a ++ l) = a

namespace Codec

variable {α β : Type} (c : Codec α) (d : Codec β)

/-- An unsigned integer of `n` bytes. -/
def uint (n : Nat) : Codec Nat where
  size := n
  put := leBytes n
  get l := leNat (l.take n)
  good x := x < 256 ^ n
  length := leBytes_length n
  get_put x l h := by
    rw [List.take_left' (leBytes_length n x)]
    exact leNat_leBytes h

/-- A 32-bit integer in two's complement. -/
def int32 : Codec Int where
  size := 4
  put x := leBytes 4 (x % 4294967296).toNat
  get l := i32 (leNat (l.take 4))
  good := IsInt32
  length x := leBytes_length 4 _
  get_put x l h := by
    have h0 : 0 ≤ x % 4294967296 := Int.emod_nonneg _ (by decide)
    have h1 : x % 4294967296 < 4294967296 := Int.emod_lt_of_pos _ (by decide)
    rw [List.take_left' (leBytes_length 4 _), leNat_leBytes (by omega), Int.toNat_of_nonneg h0]
    show (x % (4294967296 : Nat)).bmod 4294967296 = x
    rw [Int.emod_bmod]
    exact i32_eq h

def pair : Codec (α × β) where
  size := c.size + d.size
  put x := c.put x.1 ++ d.put x.2
  get l := (c.get l, d.get (l.drop c.size))
  good x := c.good x.1 ∧ d.good x.2
  length x := by rw [List.length_append, c.length, d.length]
  get_put x l h := by
    have hdrop : (c.put x.1 ++ (d.put x.2 ++ l)).drop c.size = d.put x.2 ++ l := List.drop_left' (c.length x.1)
    rw [List.append_assoc, c.get_put x.1 _ h.1, hdrop, d.get_put x.2 l h.2]

/-- The values of `β` lie there as their images in `α`. -/
def via (f : β → α) (g : α → β) (h : ∀ b, g (f b) = b) : Codec β where
  size := c.size
  put b := c.put (f b)
  get l := g (c.get l)
  good b := c.good (f b)
  length b := c.length (f b)
  get_put b l hg := by rw [c.get_put (f b) l hg, h]

/-! ## Reading a buffer -/

def readAt (buf : List UInt8) (off : Nat) : Option α := if off + c.size ≤ buf.length then some (c.get (buf.drop off)) else none

/-- `n` values, one behind the other. -/
def getAll : Nat → List UInt8 → List α
  | 0, _ => []
  | n + 1, l => c.get l :: getAll n (l.drop c.size)

def putAll (xs : List α) : List UInt8 := xs.flatMap c.put

theorem putAll_length (xs : List α) : (c.putAll xs).length = xs.length * c.size := by
  induction xs with
  | nil => exact (Nat.zero_mul _).symm
  | cons x xs ih =>
    show (c.put x ++ c.putAll xs).length = (xs.length + 1) * c.size
    rw [length_append, ih, c.length, Nat.add_mul, Nat.one_mul, Nat.add_comm]

theorem getAll_put {xs : List α} (h : ∀ x ∈ xs, c.good x) (l : List UInt8) : c.getAll xs.length (c.putAll xs ++ l) = xs := by
  induction xs with
  | nil => rfl
  | cons x xs ih =>
    have hdrop : (c.put x ++ (c.putAll xs ++ l)).drop c.size = c.putAll xs ++ l := drop_left' (c.length x)
    show c.get ((c.put x ++ c.putAll xs) ++ l) :: c.getAll xs.length (((c.put x ++ c.putAll xs) ++ l).drop c.size) = x :: xs
    rw [append_assoc, c.get_put x _ (h x mem_cons_self), hdrop, ih fun y hy => h y (mem_cons_of_mem _ hy)]

end Codec

end HftLab.Lib
