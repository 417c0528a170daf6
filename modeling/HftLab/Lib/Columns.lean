/-
  HftLab.Lib.Columns — the columns of a table that is written row by row, and read back by counting.

  A column has at each row a value or nothing; what is written of it is its `reduceOption`. A reader who takes the `i`-th value
  written for the value of row `i` is off by the rows before it that have none: `displaced` is what it takes.
  - `reads_own_iff`: every row gets its own value just when no value that stands after a gap differs from a missing one.
  - `foldl_last`: a loop that keeps what the last of its hits says.
-/

import Mathlib.Data.List.Induction
import Mathlib.Data.List.ReduceOption

namespace HftLab.Lib

open List

variable {α β D : Type}

/-- The rows before row `i` that have no value. -/
def gaps (col : List (Option β)) (i : Nat) : Nat := ((col.take i).filter Option.isNone).length

/-- The value that stands as many places after row `i`, among the values from there on, as there are gaps before it. -/
def displaced (col : List (Option β)) (i : Nat) : Option β := (col.drop i).reduceOption[gaps col i]?

theorem reduceOption_getElem? (col : List (Option β)) (i : Nat) : col.reduceOption[i]? = displaced col i := by
  rcases Nat.lt_or_ge col.length i with hlt | hle
  · have hlen := reduceOption_length_le col
    unfold displaced
    rw [drop_eq_nil_of_le (Nat.le_of_lt hlt), List.getElem?_eq_none (by omega)]
    rfl
  · have hsplit : col.reduceOption = (col.take i).reduceOption ++ (col.drop i).reduceOption := by
      rw [← reduceOption_append, take_append_drop]
    have hlen := length_eq_reduceOption_length_add_filter_none (l := col.take i)
    rw [length_take, Nat.min_eq_left hle] at hlen
    unfold displaced gaps
    rw [hsplit, List.getElem?_append_right (by omega)]
    congr 1
    omega

theorem reduceOption_cons (x : Option β) (col : List (Option β)) : (x :: col).reduceOption = x.toList ++ col.reduceOption := by
  cases x <;> rfl

/-- A value is written at a place no later than its row. -/
theorem exists_written {col : List (Option β)} {i : Nat} {v : β} (h : col[i]? = some (some v)) :
    ∃ j ≤ i, col.reduceOption[j]? = some v := by
  have hi : i < col.length := (List.getElem?_eq_some_iff.mp h).1
  have hsplit : col.reduceOption = (col.take i).reduceOption ++ v :: (col.drop (i + 1)).reduceOption := by
    conv_lhs => rw [← take_append_drop i col, reduceOption_append, drop_eq_getElem_cons hi]
    rw [(List.getElem?_eq_some_iff.mp h).2, reduceOption_cons_of_some]
  refine ⟨(col.take i).reduceOption.length, ?_, ?_⟩
  · apply Nat.le_trans (reduceOption_length_le _)
    exact length_take_le i col
  · rw [hsplit, List.getElem?_append_right (Nat.le_refl _), Nat.sub_self]
    rfl

/-! ## Every row its own value -/

section Reading

variable (read : Option β → D)

/-- After a gap at the first row: the values written are those of the rows one further on, so one missing value makes all of them
missing. -/
theorem reads_missing {col : List (Option β)} (h0 : read col.reduceOption[0]? = read none)
    (hnext : ∀ i < col.length, read col.reduceOption[i + 1]? = read (col[i]?).join) (k : Nat) :
    read col.reduceOption[k]? = read none := by
  induction k using Nat.strongRecOn with
  | ind k ih =>
    cases k with
    | zero => exact h0
    | succ k =>
      rcases Nat.lt_or_ge k col.length with hlt | hge
      · rw [hnext k hlt]
        cases hk : col[k]? with
        | none => rfl
        | some x =>
          cases x with
          | none => rfl
          | some v =>
            obtain ⟨j, hj, hv⟩ := exists_written hk
            have hzero := ih j (Nat.lt_succ_of_le hj)
            rw [hv] at hzero
            exact hzero
      · have hlen := reduceOption_length_le col
        rw [List.getElem?_eq_none (by omega)]

theorem reads_missing_iff (col : List (Option β)) :
    (read col.reduceOption[0]? = read none ∧ ∀ i < col.length, read col.reduceOption[i + 1]? = read (col[i]?).join) ↔
      ∀ i : Nat, read (col[i]?).join = read none := by
  constructor
  · intro ⟨h0, hnext⟩ i
    cases hi : col[i]? with
    | none => rfl
    | some x =>
      cases x with
      | none => rfl
      | some v =>
        obtain ⟨j, -, hv⟩ := exists_written hi
        have hzero := reads_missing read h0 hnext j
        rw [hv] at hzero
        exact hzero
  · intro h
    have hwritten : ∀ k : Nat, read col.reduceOption[k]? = read none := by
      intro k
      cases hk : col.reduceOption[k]? with
      | none => rfl
      | some v =>
        obtain ⟨i, hi⟩ := reduceOption_getElem?_iff.mpr ⟨k, hk⟩
        have hzero := h i
        rw [hi] at hzero
        exact hzero
    refine ⟨hwritten 0, fun i _ => ?_⟩
    rw [hwritten, h]

theorem reads_own_iff (col : List (Option β)) :
    (∀ i < col.length, read col.reduceOption[i]? = read (col[i]?).join) ↔
      ∀ i j : Nat, i < j → col[i]? = some none → read (col[j]?).join = read none := by
  induction col with
  | nil =>
    constructor
    · intro _ i j _ h
      cases h
    · intro _ i hi
      cases hi
  | cons x col ih =>
    cases x with
    | some v =>
      -- the first row has its own; a gap is in the rows after it
      rw [reduceOption_cons_of_some]
      constructor
      · intro h i j hij hi
        cases i with
        | zero => cases hi
        | succ i =>
          obtain ⟨j, rfl⟩ := Nat.exists_eq_add_one_of_ne_zero (Nat.ne_zero_of_lt hij)
          refine ih.mp (fun k hk => ?_) i j (Nat.lt_of_succ_lt_succ hij) hi
          exact h (k + 1) (Nat.succ_lt_succ hk)
      · intro h i hi
        cases i with
        | zero => rfl
        | succ i =>
          refine ih.mpr (fun k l hkl hk => ?_) i (Nat.lt_of_succ_lt_succ hi)
          exact h (k + 1) (l + 1) (Nat.succ_lt_succ hkl) hk
    | none =>
      rw [reduceOption_cons_of_none]
      constructor
      · intro h i j hij _
        obtain ⟨j, rfl⟩ := Nat.exists_eq_add_one_of_ne_zero (Nat.ne_zero_of_lt hij)
        refine (reads_missing_iff read col).mp ⟨h 0 (Nat.succ_pos _), fun k hk => ?_⟩ j
        exact h (k + 1) (Nat.succ_lt_succ hk)
      · intro h
        have hall : ∀ i : Nat, read (col[i]?).join = read none := fun i => h 0 (i + 1) (Nat.succ_pos i) rfl
        obtain ⟨h0, hnext⟩ := (reads_missing_iff read col).mpr hall
        intro i hi
        cases i with
        | zero => exact h0
        | succ i => exact hnext i (Nat.lt_of_succ_lt_succ hi)

end Reading

/-! ## The last hit -/

/-- The row of the last entry with `p`. -/
def lastIdx (p : α → Bool) (rows : List α) : Option Nat := ((List.range rows.length).filter fun i => rows[i]?.any p).getLast?

theorem lastIdx_concat (p : α → Bool) (rows : List α) (a : α) :
    lastIdx p (rows ++ [a]) = if p a then some rows.length else lastIdx p rows := by
  have hlow : (List.range rows.length).filter (fun i => (rows ++ [a])[i]?.any p) =
      (List.range rows.length).filter fun i => rows[i]?.any p := by
    refine filter_congr fun i hi => ?_
    rw [List.getElem?_append_left (mem_range.mp hi)]
  have hlast : [rows.length].filter (fun i => (rows ++ [a])[i]?.any p) = if p a then [rows.length] else [] := by
    simp only [filter_cons, filter_nil, List.getElem?_concat_length, Option.any_some]
  unfold lastIdx
  rw [length_append, length_singleton, range_succ, filter_append, hlow, hlast]
  by_cases h : p a
  · rw [if_pos h, if_pos h, List.getLast?_concat]
  · rw [if_neg h, if_neg h, append_nil]

theorem lastIdx_none {p : α → Bool} {rows : List α} (h : ∀ a ∈ rows, p a = false) : lastIdx p rows = none := by
  have hnil : (List.range rows.length).filter (fun i => rows[i]?.any p) = [] := filter_eq_nil_iff.mpr fun i hi hany => by
    obtain ⟨a, ha, hp⟩ := (Option.any_eq_true _ _).mp hany
    rw [h a (mem_of_getElem? ha)] at hp
    cases hp
  unfold lastIdx
  rw [hnil]
  rfl

theorem lastIdx_split {p : α → Bool} {before after : List α} {a : α} (ha : p a) (hafter : ∀ x ∈ after, p x = false) :
    lastIdx p (before ++ a :: after) = some before.length := by
  induction after using List.reverseRecOn with
  | nil => rw [lastIdx_concat, if_pos ha]
  | append_singleton after x ih =>
    have hx : ¬p x := by
      rw [hafter x (by simp)]
      decide
    rw [← cons_append, ← append_assoc, lastIdx_concat, if_neg hx]
    exact ih fun y hy => hafter y (mem_append_left _ hy)

/-- No entry has `p`, or one is the last that has it. -/
theorem last_split (p : α → Bool) (rows : List α) :
    (∀ a ∈ rows, p a = false) ∨ ∃ before a after, rows = before ++ a :: after ∧ p a ∧ ∀ x ∈ after, p x = false := by
  induction rows using List.reverseRecOn with
  | nil => exact .inl fun _ h => absurd h not_mem_nil
  | append_singleton rows x ih =>
    cases hx : p x with
    | true => exact .inr ⟨rows, x, [], rfl, hx, fun _ h => absurd h not_mem_nil⟩
    | false =>
      rcases ih with hnone | ⟨before, a, after, rfl, ha, hafter⟩
      · refine .inl fun y hy => ?_
        rcases mem_append.mp hy with hy | hy
        · exact hnone y hy
        · rw [mem_singleton.mp hy, hx]
      · refine .inr ⟨before, a, after ++ [x], by simp, ha, fun y hy => ?_⟩
        rcases mem_append.mp hy with hy | hy
        · exact hafter y hy
        · rw [mem_singleton.mp hy, hx]

theorem foldl_last (p : α → Bool) (v : α → β) (l : List α) (init : β) :
    l.foldl (fun r a => if p a then v a else r) init = (l.filter p).getLast?.elim init v := by
  induction l using List.reverseRecOn with
  | nil => rfl
  | append_singleton l a ih =>
    rw [foldl_append, foldl_cons, foldl_nil, ih, filter_append]
    by_cases h : p a
    · rw [if_pos h, filter_cons_of_pos h, filter_nil, List.getLast?_concat]
      rfl
    · rw [if_neg h, filter_cons_of_neg h, filter_nil, append_nil]

end HftLab.Lib
