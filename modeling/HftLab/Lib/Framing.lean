/-
  HftLab.Lib.Framing — messages cut out of a byte stream that arrives in chunks.

  `Framer.next` finds the message at the front of what has arrived, if all of it is there. Bytes that arrive later do not
  change a message that was found (`stable`), and from this:
  - `run_append`: reading goes on exactly where it stopped;
  - `Reads.feed_eq`: the chunks do not matter;
  - `run_flatMap`: messages written one behind the other are all found.
-/

import Mathlib.Data.List.Basic

namespace HftLab.Lib

open List

variable {α μ σ β : Type}

structure Framer (α μ : Type) where
  /-- The message at the front and its length. -/
  next : List α → Option (μ × Nat)
  pos : ∀ {l m n}, next l = some (m, n) → 0 < n
  le : ∀ {l m n}, next l = some (m, n) → n ≤ l.length
  stable : ∀ {l r} (l' : List α), next l = some r → next (l ++ l') = some r

namespace Framer

variable (f : Framer α μ)

/-- The messages of a stream and what is left of it; each takes at least one byte, so its length is fuel enough. -/
def runFuel : Nat → List α → List μ × List α
  | 0, l => ([], l)
  | fuel + 1, l =>
    match f.next l with
    | none => ([], l)
    | some (m, n) => (m :: (runFuel fuel (l.drop n)).1, (runFuel fuel (l.drop n)).2)

def run (l : List α) : List μ × List α := f.runFuel l.length l

variable {f} {l l' : List α} {m : μ} {n : Nat}

theorem next_nil : f.next [] = none := by
  cases h : f.next [] with
  | none => rfl
  | some r =>
    have hpos := f.pos h
    have hle := f.le h
    simp only [length_nil] at hle
    omega

theorem runFuel_none (h : f.next l = none) (fuel : Nat) : f.runFuel fuel l = ([], l) := by
  cases fuel with
  | zero => rfl
  | succ fuel => simp only [runFuel, h]

theorem runFuel_eq {fuel : Nat} (h : l.length ≤ fuel) : f.runFuel fuel l = f.run l := by
  unfold run
  induction fuel using Nat.strongRecOn generalizing l with
  | ind fuel ih =>
    cases hn : f.next l with
    | none => rw [runFuel_none hn, runFuel_none hn]
    | some r =>
      obtain ⟨m, n⟩ := r
      have hpos := f.pos hn
      have hle := f.le hn
      obtain ⟨len, hlen⟩ := Nat.exists_eq_succ_of_ne_zero (show l.length ≠ 0 by omega)
      obtain ⟨k, rfl⟩ := Nat.exists_eq_succ_of_ne_zero (show fuel ≠ 0 by omega)
      have hdrop : (l.drop n).length ≤ len := by
        rw [length_drop]
        omega
      have h1 := ih k (Nat.lt_succ_self k) (l := l.drop n) (by omega)
      have h2 := ih len (by omega) hdrop
      rw [hlen]
      simp only [runFuel, hn, h1, h2]

theorem run_none (h : f.next l = none) : f.run l = ([], l) := runFuel_none h _

theorem run_some (h : f.next l = some (m, n)) : f.run l = (m :: (f.run (l.drop n)).1, (f.run (l.drop n)).2) := by
  have hpos := f.pos h
  have hle := f.le h
  have hfuel : f.run l = f.runFuel (l.length + 1) l := (runFuel_eq (Nat.le_succ _)).symm
  have hrest : f.runFuel l.length (l.drop n) = f.run (l.drop n) := runFuel_eq (by rw [length_drop]; omega)
  rw [hfuel]
  simp only [runFuel, h, hrest]

/-- Induction along the messages of a stream. -/
theorem run_induction {P : List α → Prop} (l : List α) (hnone : ∀ l, f.next l = none → P l)
    (hsome : ∀ l m n, f.next l = some (m, n) → P (l.drop n) → P l) : P l := by
  induction hk : l.length using Nat.strongRecOn generalizing l with
  | ind k ih =>
    cases hn : f.next l with
    | none => exact hnone l hn
    | some r =>
      obtain ⟨m, n⟩ := r
      have hpos := f.pos hn
      have hle := f.le hn
      refine hsome l m n hn (ih (l.drop n).length ?_ _ rfl)
      rw [length_drop]
      omega

/-- What is left holds no message. -/
theorem next_tail (l : List α) : f.next (f.run l).2 = none := by
  induction l using run_induction with
  | hnone l h => rwa [run_none h]
  | hsome l m n h ih => rwa [run_some h]

/-- What was read and what is left is the stream. -/
theorem exists_consumed (l : List α) : ∃ k, k ≤ l.length ∧ (f.run l).2 = l.drop k := by
  induction l using run_induction with
  | hnone l h => exact ⟨0, Nat.zero_le _, by rw [run_none h]; rfl⟩
  | hsome l m n h ih =>
    obtain ⟨k, hk, hdrop⟩ := ih
    have hle := f.le h
    rw [length_drop] at hk
    refine ⟨n + k, by omega, ?_⟩
    rw [run_some h]
    simp only [hdrop, drop_drop]

theorem run_append (l l' : List α) :
    f.run (l ++ l') = ((f.run l).1 ++ (f.run ((f.run l).2 ++ l')).1, (f.run ((f.run l).2 ++ l')).2) := by
  induction l using run_induction with
  | hnone l h => rw [run_none h, nil_append]
  | hsome l m n h ih =>
    have hle := f.le h
    rw [run_some (f.stable l' h), drop_append_of_le_length hle, ih, run_some h]
    simp only [cons_append]

theorem drop_consumed (l : List α) : l.drop (l.length - (f.run l).2.length) = (f.run l).2 := by
  obtain ⟨k, hk, htail⟩ := exists_consumed l
  have hlen := congrArg List.length htail
  rw [length_drop] at hlen
  rw [htail, length_drop, Nat.sub_sub_self hk]

/-- `consume` acts on each message of the stream and returns how much of it was read. -/
def Reads (f : Framer α μ) (act : σ → μ → σ) (consume : σ → List α → σ × Nat) : Prop :=
  ∀ s l, consume s l = ((f.run l).1.foldl act s, l.length - (f.run l).2.length)

/-- The loop that a program runs over its buffer. -/
def loop (f : Framer α μ) (act : σ → μ → σ) (buf : List α) : Nat → Nat → σ → σ × Nat
  | 0, off, s => (s, off)
  | fuel + 1, off, s =>
    match f.next (buf.drop off) with
    | none => (s, off)
    | some (m, n) => loop f act buf fuel (off + n) (act s m)

theorem loop_eq (act : σ → μ → σ) (buf : List α) (fuel off : Nat) (s : σ) (hfuel : buf.length - off ≤ fuel) (hoff : off ≤ buf.length) :
    f.loop act buf fuel off s = ((f.run (buf.drop off)).1.foldl act s, buf.length - (f.run (buf.drop off)).2.length) := by
  have hlen : (buf.drop off).length = buf.length - off := length_drop
  induction fuel generalizing off s with
  | zero =>
    have hnil : buf.drop off = [] := drop_eq_nil_of_le (by omega)
    rw [hnil, run_none next_nil]
    simp only [loop, foldl_nil, length_nil]
    congr 1
    omega
  | succ fuel ih =>
    unfold loop
    split
    · rename_i hn
      rw [run_none hn]
      simp only [foldl_nil, hlen]
      congr 1
      omega
    · rename_i m n hn
      have hpos := f.pos hn
      have hle := f.le hn
      rw [ih (off + n) _ (by omega) (by omega) length_drop, run_some hn]
      simp only [drop_drop, foldl_cons]

theorem reads_loop (f : Framer α μ) (act : σ → μ → σ) : f.Reads act fun s buf => f.loop act buf buf.length 0 s := by
  intro s buf
  dsimp only
  rw [loop_eq act buf buf.length 0 s (by omega) (Nat.zero_le _), drop_zero]

end Framer

/-- The chunks one after the other, with what is left of each before the next. -/
def feed (consume : σ → List α → σ × Nat) : List (List α) → List α → σ → σ × List α
  | [], tail, s => (s, tail)
  | chunk :: chunks, tail, s =>
    feed consume chunks ((tail ++ chunk).drop (consume s (tail ++ chunk)).2) (consume s (tail ++ chunk)).1

namespace Framer

variable {act : σ → μ → σ} {consume : σ → List α → σ × Nat}

theorem Reads.feed {f : Framer α μ} (h : f.Reads act consume) (chunks : List (List α)) {tail : List α} (ht : f.next tail = none)
    (s : σ) :
    feed consume chunks tail s =
      ((f.run (tail ++ chunks.flatten)).1.foldl act s, (f.run (tail ++ chunks.flatten)).2) := by
  induction chunks generalizing tail s with
  | nil =>
    rw [flatten_nil, append_nil, run_none ht]
    rfl
  | cons chunk chunks ih =>
    unfold Lib.feed
    rw [h s (tail ++ chunk)]
    rw [drop_consumed, ih (next_tail _), flatten_cons, ← append_assoc, run_append (tail ++ chunk), foldl_append]

/-- Cut anyhow, the stream has the same effect and leaves the same tail. -/
theorem Reads.feed_eq {f : Framer α μ} (h : f.Reads act consume) (chunks : List (List α)) (s : σ) :
    Lib.feed consume chunks [] s = ((consume s chunks.flatten).1, chunks.flatten.drop (consume s chunks.flatten).2) := by
  rw [h.feed chunks next_nil, h s, nil_append, drop_consumed]

variable {f : Framer α μ}

theorem run_flatMap {xs : List β} {enc : β → List α} {dec : β → μ}
    (h : ∀ x ∈ xs, ∀ l, f.next (enc x ++ l) = some (dec x, (enc x).length)) : f.run (xs.flatMap enc) = (xs.map dec, []) := by
  induction xs with
  | nil => exact run_none next_nil
  | cons x xs ih =>
    have hx := h x (mem_cons_self ..) (xs.flatMap enc)
    rw [flatMap_cons, run_some hx, drop_left' rfl, ih fun y hy => h y (mem_cons_of_mem _ hy), map_cons]

end Framer

end HftLab.Lib
