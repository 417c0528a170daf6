/-
  HftLab.Lib.LinkedList — singly and doubly linked lists threaded through a pool of
  numbered nodes.

  A node's links are two functions `next prev : Nat → Option Nat`. `Seg next h l e`: following
  `next` from `h` visits exactly `l` and arrives at `e`; a whole chain ends at `none`.
  `DList next prev hd tl l`: the list with ends `hd` and `tl` visits `l` forwards by `next`
  and backwards by `prev`, no node twice. `walk next n h` computes a chain, with fuel `n`.

  - `DList.push`: appending a node at the tail the way an intrusive FIFO does it.
  - `DList.remove`: the O(1) unlink of any node.
  - `DList.congr`, `Seg.congr`: the frame rule, writes outside the list do not matter.
-/

import Mathlib.Data.List.Nodup

namespace HftLab.Lib

open Function List

variable {next prev f g : Nat → Option Nat} {i n : Nat} {h e q hd tl : Option Nat} {l a : List Nat}

/-- The nodes met from `h`, at most `n` of them. -/
def walk (next : Nat → Option Nat) : Nat → Option Nat → List Nat
  | 0, _ => []
  | _ + 1, none => []
  | n + 1, some i => i :: walk next n (next i)

def Seg (next : Nat → Option Nat) : Option Nat → List Nat → Option Nat → Prop
  | h, [], e => h = e
  | h, i :: l, e => h = some i ∧ Seg next (next i) l e

/-- Each node's back link is the node before it, `q` before the first one. -/
def Back (prev : Nat → Option Nat) : Option Nat → List Nat → Prop
  | _, [] => True
  | q, i :: l => prev i = q ∧ Back prev (some i) l

structure DList (next prev : Nat → Option Nat) (hd tl : Option Nat) (l : List Nat) : Prop where
  fwd : Seg next hd l none
  bwd : Back prev none l
  last : tl = l.getLast?
  nodup : l.Nodup

/-- Write `v` to the link of the node `o` points at, if it points at one. -/
def setAt (f : Nat → Option Nat) (o v : Option Nat) : Nat → Option Nat :=
  match o with
  | some a => Function.update f a v
  | none => f

theorem setAt_of_ne {o v : Option Nat} (h : o ≠ some i) : setAt f o v i = f i := by
  cases o with
  | none => rfl
  | some a => exact update_of_ne (fun e => h (by rw [e])) _ _

@[simp] theorem setAt_some_self (a : Nat) (v : Option Nat) : setAt f (some a) v a = v :=
  update_self ..

/-! ## Segments -/

theorem walk_eq (hc : Seg next h l none) (hn : l.length ≤ n) : walk next n h = l := by
  induction l generalizing h n with
  | nil =>
    cases hc
    cases n <;> rfl
  | cons i l ih =>
    obtain ⟨rfl, hc⟩ := hc
    cases n with
    | zero => simp at hn
    | succ n => simp only [walk, ih hc (by simpa using hn)]

theorem Seg.head (hc : Seg next h l none) : h = l.head? := by
  cases l with
  | nil => exact hc
  | cons i l => exact hc.1

theorem Seg.congr (hc : Seg next h l e) (he : ∀ i ∈ l, f i = next i) : Seg f h l e := by
  induction l generalizing h with
  | nil => exact hc
  | cons i l ih =>
    refine ⟨hc.1, ?_⟩
    rw [he i mem_cons_self]
    exact ih hc.2 (fun j hj => he j (mem_cons_of_mem _ hj))

theorem seg_append : Seg next h (a ++ l) e ↔ ∃ m, Seg next h a m ∧ Seg next m l e := by
  induction a generalizing h with
  | nil => simp [Seg]
  | cons i a ih =>
    simp only [cons_append, Seg, ih]
    constructor
    · rintro ⟨rfl, m, h1, h2⟩
      exact ⟨m, ⟨rfl, h1⟩, h2⟩
    · rintro ⟨m, ⟨rfl, h1⟩, h2⟩
      exact ⟨rfl, m, h1, h2⟩

/-- Redirecting the last node of a segment moves the segment's end. -/
theorem Seg.retarget {d : Option Nat} (hs : Seg next h a e) (hn : a.Nodup) (hl : ∀ i ∈ a, a.getLast? = some i → f i = d)
    (he : ∀ i ∈ a, a.getLast? ≠ some i → f i = next i) : Seg f (if a = [] then d else h) a d := by
  induction a generalizing h with
  | nil => simp [Seg]
  | cons i a ih =>
    obtain ⟨rfl, hs⟩ := hs
    simp only [cons_ne_nil, if_false, Seg, true_and]
    cases a with
    | nil => simpa [Seg] using hl i (by simp) (by simp)
    | cons j a =>
      have hi : (i :: j :: a).getLast? ≠ some i := by
        intro e
        have : i ∈ j :: a := mem_of_getLast? (by simpa using e)
        exact (nodup_cons.mp hn).1 this
      rw [he i mem_cons_self hi]
      have := ih hs (nodup_cons.mp hn).2
        (fun x hx e => hl x (mem_cons_of_mem _ hx) (by simpa using e))
        (fun x hx e => he x (mem_cons_of_mem _ hx) (by simpa using e))
      simpa using this

/-! ## Back links -/

theorem Back.congr (hb : Back prev q l) (he : ∀ i ∈ l, g i = prev i) : Back g q l := by
  induction l generalizing q with
  | nil => trivial
  | cons i l ih =>
    exact ⟨(he i mem_cons_self).trans hb.1, ih hb.2 (fun j hj => he j (mem_cons_of_mem _ hj))⟩

theorem back_append : Back prev q (a ++ l) ↔ Back prev q a ∧ Back prev (a.getLast?.or q) l := by
  induction a generalizing q with
  | nil => simp [Back]
  | cons i a ih =>
    simp only [cons_append, Back, ih, and_assoc]
    cases a with
    | nil => simp [Back]
    | cons j a => simp [List.getLast?_cons]

/-! ## Doubly linked lists -/

theorem DList.congr (h : DList next prev hd tl l) (hn : ∀ i ∈ l, f i = next i) (hp : ∀ i ∈ l, g i = prev i) : DList f g hd tl l :=
  ⟨h.fwd.congr hn, h.bwd.congr hp, h.last, h.nodup⟩

theorem dlist_nil : DList next prev none none [] := ⟨rfl, trivial, rfl, nodup_nil⟩

theorem DList.walk_eq (h : DList next prev hd tl l) (hn : l.length ≤ n) : walk next n hd = l := Lib.walk_eq h.fwd hn

theorem DList.head (h : DList next prev hd tl l) : hd = l.head? := h.fwd.head

section Split

variable {hd tl : Option Nat} {a l : List Nat} {i : Nat}

theorem DList.next_eq (h : DList next prev hd tl (a ++ i :: l)) : next i = l.head? := by
  obtain ⟨m, -, -, h2⟩ := seg_append.mp h.fwd
  exact h2.head

theorem DList.prev_eq (h : DList next prev hd tl (a ++ i :: l)) : prev i = a.getLast? := by
  have := (back_append.mp h.bwd).2.1
  simpa using this

/-- Unlink: the neighbours (or the ends) of a node are joined. -/
theorem DList.remove (h : DList next prev hd tl (a ++ i :: l)) :
    DList (setAt next (prev i) (next i)) (setAt prev (next i) (prev i))
      (if (prev i).isSome then hd else next i) (if (next i).isSome then tl else prev i) (a ++ l) := by
  have hp := h.prev_eq
  have hx := h.next_eq
  obtain ⟨hna, hnl, hd'⟩ := nodup_append.mp h.nodup
  obtain ⟨hil, hnl⟩ := nodup_cons.mp hnl
  have hdisj : ∀ x ∈ a, x ∉ l := fun x hxa hxl => hd' x hxa x (mem_cons_of_mem _ hxl) rfl
  obtain ⟨m, h1, h2⟩ := seg_append.mp h.fwd
  have hb := back_append.mp h.bwd
  refine ⟨?_, ?_, ?_, nodup_append.mpr ⟨hna, hnl, fun x hx y hy e => hdisj x hx (e ▸ hy)⟩⟩
  · refine seg_append.mpr ⟨next i, ?_, ?_⟩
    · have := h1.retarget (f := setAt next (prev i) (next i)) hna
        (fun x _ e => by rw [hp, e, setAt_some_self]) (fun x _ e => setAt_of_ne (by rw [hp]; exact e))
      cases a with
      | nil => simp [hp, Seg]
      | cons y a =>
        have hs : (prev i).isSome := by simp [hp]
        simpa [hs] using this
    · refine h2.2.congr (fun x hxl => setAt_of_ne ?_)
      rw [hp]
      intro e
      exact hdisj x (mem_of_getLast? e) hxl
  · refine back_append.mpr ⟨hb.1.congr (fun x hxa => setAt_of_ne ?_), ?_⟩
    · rw [hx]
      intro e
      exact hdisj x hxa (mem_of_head? e)
    · cases l with
      | nil => trivial
      | cons j l =>
        refine ⟨by rw [hx, hp]; simp, hb.2.2.2.congr (fun x hxl => setAt_of_ne ?_)⟩
        rw [hx]
        rintro e
        simp only [List.head?_cons, Option.some.injEq] at e
        exact (nodup_cons.mp hnl).1 (e ▸ hxl)
  · rw [hx, hp]
    cases l with
    | nil => simp
    | cons j l => simp [h.last, List.getLast?_append, List.getLast?_cons]

end Split

/-- Append at the tail. -/
theorem DList.push (h : DList next prev hd tl l) (hi : i ∉ l) :
    DList (setAt (update next i none) tl (some i)) (update prev i tl)
      (if tl.isSome then hd else some i) (some i) (l ++ [i]) := by
  have hlast : tl ≠ some i := by
    rw [h.last]
    exact fun e => hi (mem_of_getLast? e)
  have hne : ∀ x ∈ l, x ≠ i := fun x hx e => hi (e ▸ hx)
  refine ⟨?_, ?_, by simp, ?_⟩
  · refine seg_append.mpr ⟨some i, ?_, rfl, ?_⟩
    · have := h.fwd.retarget (f := setAt (update next i none) tl (some i)) h.nodup
        (fun x _ e => by rw [h.last, e, setAt_some_self])
        (fun x hx e => by rw [setAt_of_ne (by rw [h.last]; exact e), update_of_ne (hne x hx)])
      rw [h.last] at this ⊢
      cases l with
      | nil => simpa using this
      | cons y l => simpa [List.getLast?_cons] using this
    · rw [setAt_of_ne hlast, update_self]
      rfl
  · refine back_append.mpr ⟨h.bwd.congr (fun x hx => update_of_ne (hne x hx) _ _), ?_, trivial⟩
    rw [update_self, h.last]
    simp
  · exact nodup_append.mpr ⟨h.nodup, by simp, by simpa using fun x hx => hne x hx⟩

end HftLab.Lib
