/-
  HftLab.Common.SymbolKey — the packing of symbols (symbol_key.hpp): up to eight bytes of a C string in a 64-bit key, the first
  byte lowest.

  A pointer is the bytes from there on, so a C string is its bytes, a NUL and what lies behind it.
  - `symbol_packing_lossless`: a key gives back the symbol that it was made of, and which keys are those of a symbol.
  - `symToKey_toNat`: it is the key under which the order management keeps its positions; `oms_key_eq_iff`: no two symbols that its
    orders tell apart share one.
-/

import HftLab.Lib.Layout
import HftLab.Lib.Wire
import HftLab.Oms.Orders

namespace HftLab.Common

open Lib List

/-- The place of the first byte `b` among the first `n`. -/
def memchr (mem : List UInt8) (b : UInt8) (n : Nat) : Option Nat := (mem.take n).findIdx? (· = b)

def symToKey (sym : List UInt8) : UInt64 :=
  let len := (memchr sym 0 8).getD 8
  (List.range len).foldl (fun key i => key ||| (sym.getD i 0).toUInt64 <<< UInt64.ofNat (i * 8)) 0

/-- `(key >> (n * 8)) & 0xFF`. -/
def keyByte (key : UInt64) (n : Nat) : UInt8 := (key >>> UInt64.ofNat (n * 8) &&& 0xFF).toUInt8

/-- The loop of `key_to_sym` from byte `n` on, with `turns` left. -/
def unpackFrom (key : UInt64) : Nat → Nat → List UInt8 → List UInt8
  | 0, n, out => out.set n 0
  | turns + 1, n, out => if keyByte key n = 0 then out.set n 0 else unpackFrom key turns (n + 1) (out.set n (keyByte key n))

/-- What it leaves in `out`. -/
def keyToSym (key : UInt64) (out : List UInt8) : List UInt8 := unpackFrom key 8 0 out

variable {sym out : List UInt8} {key : UInt64} {n : Nat}

/-! ## Packing -/

/-- The bytes that are packed. -/
def packed (sym : List UInt8) : List UInt8 := cString (sym.take 8)

theorem packed_length_le (sym : List UInt8) : (packed sym).length ≤ 8 :=
  Nat.le_trans (takeWhile_sublist _).length_le (length_take_le 8 sym)

theorem zero_not_mem_packed (sym : List UInt8) : 0 ∉ packed sym := zero_not_mem_cString _

theorem take_findIdx (l : List UInt8) {n : Nat} (h : l.length ≤ n) : l.take ((l.findIdx? (· = 0)).getD n) = cString l := by
  unfold cString
  induction l generalizing n with
  | nil => simp
  | cons b l ih =>
    obtain ⟨m, rfl⟩ := Nat.exists_eq_add_one_of_ne_zero (Nat.ne_zero_of_lt h)
    rw [List.findIdx?_cons]
    by_cases hb : b = 0
    · simp [hb]
    · have hrest := ih (Nat.le_of_succ_le_succ h)
      rw [if_neg (by simp [hb]), takeWhile_cons_of_pos (by simp [hb]), ← hrest]
      cases l.findIdx? (· = 0) <;> rfl

theorem len_le (sym : List UInt8) : (memchr sym 0 8).getD 8 ≤ 8 := by
  unfold memchr
  cases hfind : (sym.take 8).findIdx? (· = 0) with
  | none => exact Nat.le_refl 8
  | some i =>
    have hi := (List.findIdx?_eq_some_iff_getElem.mp hfind).1
    have hlen := length_take_le 8 sym
    rw [Option.getD_some]
    omega

theorem take_len (sym : List UInt8) : sym.take ((memchr sym 0 8).getD 8) = packed sym := by
  have htake := take_findIdx (sym.take 8) (length_take_le 8 sym)
  have hle := len_le sym
  unfold memchr at hle ⊢
  rw [take_take, Nat.min_eq_left hle] at htake
  exact htake

theorem shiftByte_toNat (b : UInt8) (h : n < 8) : (b.toUInt64 <<< UInt64.ofNat (n * 8)).toNat = b.toNat <<< (n * 8) := by
  have hfits : b.toNat <<< (n * 8) < 2 ^ 64 := by
    have hb : b.toNat < 2 ^ 8 := b.toNat_lt
    have hpow : 2 ^ 8 * 2 ^ (n * 8) ≤ 2 ^ 64 := by
      rw [← Nat.pow_add]
      exact Nat.pow_le_pow_right (by decide) (by omega)
    rw [Nat.shiftLeft_eq]
    exact Nat.lt_of_lt_of_le (Nat.mul_lt_mul_of_pos_right hb (Nat.two_pow_pos _)) hpow
  rw [UInt64.toNat_shiftLeft, UInt64.toNat_ofNat', UInt8.toNat_toUInt64, Nat.mod_eq_of_lt (by omega : n * 8 < 2 ^ 64),
    Nat.mod_eq_of_lt (by omega : n * 8 < 64), Nat.mod_eq_of_lt hfits]

theorem foldl_pack (sym : List UInt8) (h : n ≤ 8) :
    ((List.range n).foldl (fun key i => key ||| (sym.getD i 0).toUInt64 <<< UInt64.ofNat (i * 8)) 0).toNat = leNat (sym.take n) := by
  induction n with
  | zero => rfl
  | succ n ih =>
    have hlow : leNat (sym.take n) < 2 ^ (n * 8) := by
      have hlt := leNat_lt (sym.take n)
      have hlen := Nat.pow_le_pow_right (by decide : 0 < 256) (length_take_le n sym)
      rw [Nat.mul_comm, Nat.pow_mul]
      exact Nat.lt_of_lt_of_le hlt hlen
    rw [range_succ, foldl_append, foldl_cons, foldl_nil, UInt64.toNat_or, ih (Nat.le_of_succ_le h),
      shiftByte_toNat _ h, Nat.or_comm, ← Nat.shiftLeft_add_eq_or_of_lt hlow, leNat_take_succ, Nat.shiftLeft_eq, Nat.mul_comm n 8,
      Nat.pow_mul]
    exact (Nat.add_comm _ _).trans (congrArg _ (Nat.mul_comm _ _))

theorem symToKey_packed (sym : List UInt8) : (symToKey sym).toNat = leNat (packed sym) := by
  have hfold := foldl_pack sym (len_le sym)
  rw [take_len] at hfold
  exact hfold

theorem leNat_eq_foldr (l : List UInt8) : leNat l = l.foldr (fun c key => c.toNat + 256 * key) 0 := by
  induction l with
  | nil => rfl
  | cons b l ih => rw [leNat, foldr_cons, ih]

/-- The keys of the order management and of the risk manager. -/
theorem symToKey_toNat (sym : List UInt8) : (symToKey sym).toNat = Oms.symToKey sym := by
  rw [symToKey_packed, leNat_eq_foldr]
  rfl

theorem packed_of_cString (hsym : 0 ∉ sym) (rest : List UInt8) : packed (sym ++ 0 :: rest) = sym.take 8 := by
  unfold packed
  rcases Nat.lt_or_ge sym.length 8 with hlt | hge
  · obtain ⟨k, hk⟩ : ∃ k, 8 - sym.length = k + 1 := ⟨7 - sym.length, by omega⟩
    rw [take_append, hk, take_succ_cons, take_of_length_le (Nat.le_of_lt hlt)]
    exact cString_append_zero hsym _
  · rw [take_append_of_le_length hge]
    exact cString_eq fun h => hsym (mem_of_mem_take h)

/-! ## Unpacking -/

/-- The bytes of a key up to the first that is zero. -/
def keyText (key : UInt64) : List UInt8 := cString (leBytes 8 key.toNat)

theorem zero_not_mem_keyText (key : UInt64) : 0 ∉ keyText key := zero_not_mem_cString _

theorem keyText_symToKey (sym : List UInt8) : keyText (symToKey sym) = packed sym := by
  unfold keyText
  rw [symToKey_packed, leBytes_leNat (packed_length_le sym)]
  cases 8 - (packed sym).length with
  | zero =>
    rw [replicate_zero, append_nil]
    exact cString_eq (zero_not_mem_packed sym)
  | succ k => exact cString_append_zero (zero_not_mem_packed sym) _

theorem symToKey_inj {sym sym' : List UInt8} : symToKey sym = symToKey sym' ↔ packed sym = packed sym' := by
  constructor
  · intro h
    rw [← keyText_symToKey, h, keyText_symToKey]
  · intro h
    apply UInt64.toNat_inj.mp
    rw [symToKey_packed, symToKey_packed, h]

theorem keyByte_eq (key : UInt64) (h : n < 8) : keyByte key n = UInt8.ofNat (key.toNat / 256 ^ n) := by
  have hmask : (0xFF : UInt64).toNat = 2 ^ 8 - 1 := rfl
  unfold keyByte
  apply UInt8.toNat_inj.mp
  rw [UInt64.toNat_toUInt8, UInt64.toNat_and, hmask, Nat.and_two_pow_sub_one_eq_mod, UInt64.toNat_shiftRight, UInt64.toNat_ofNat',
    Nat.mod_eq_of_lt (by omega : n * 8 < 2 ^ 64), Nat.mod_eq_of_lt (by omega : n * 8 < 64), Nat.shiftRight_eq_div_pow,
    Nat.mul_comm n 8, Nat.pow_mul, UInt8.toNat_ofNat']
  exact Nat.mod_mod _ _

theorem unpackFrom_eq (key : UInt64) (turns : Nat) (pre rest : List UInt8) (hn : pre.length + turns = 8) (hroom : turns < rest.length) :
    ∃ junk, unpackFrom key turns pre.length (pre ++ rest) =
      pre ++ (cString (leBytes turns (key.toNat / 256 ^ pre.length)) ++ 0 :: junk) := by
  induction turns generalizing pre rest with
  | zero =>
    obtain ⟨b, rest, rfl⟩ := exists_cons_of_length_pos hroom
    refine ⟨rest, ?_⟩
    rw [unpackFrom, set_append_right _ _ (Nat.le_refl _), Nat.sub_self]
    rfl
  | succ turns ih =>
    obtain ⟨b, rest, rfl⟩ := exists_cons_of_length_pos (Nat.zero_lt_of_lt hroom)
    have hset : ∀ c, (pre ++ b :: rest).set pre.length c = pre ++ c :: rest := by
      intro c
      rw [set_append_right _ _ (Nat.le_refl _), Nat.sub_self]
      rfl
    rw [unpackFrom, hset, hset, keyByte_eq key (by omega), leBytes]
    by_cases hz : UInt8.ofNat (key.toNat / 256 ^ pre.length) = 0
    · refine ⟨rest, ?_⟩
      rw [if_pos hz]
      unfold cString
      rw [takeWhile_cons_of_neg (by simp [hz])]
      rfl
    · have hlen : (pre ++ [UInt8.ofNat (key.toNat / 256 ^ pre.length)]).length = pre.length + 1 := by simp
      obtain ⟨junk, hjunk⟩ := ih (pre ++ [UInt8.ofNat (key.toNat / 256 ^ pre.length)]) rest (by omega) (Nat.lt_of_succ_lt_succ hroom)
      refine ⟨junk, ?_⟩
      rw [hlen, append_assoc, Nat.pow_succ, ← Nat.div_div_eq_div_mul] at hjunk
      rw [if_neg hz]
      unfold cString at hjunk ⊢
      rw [takeWhile_cons_of_pos (by simpa using hz)]
      refine hjunk.trans ?_
      rw [append_assoc]
      rfl

theorem keyToSym_eq (key : UInt64) (hout : 9 ≤ out.length) : ∃ junk, keyToSym key out = keyText key ++ 0 :: junk := by
  obtain ⟨junk, hjunk⟩ := unpackFrom_eq key 8 [] out rfl hout
  refine ⟨junk, ?_⟩
  rw [nil_append, nil_append, length_nil, Nat.pow_zero, Nat.div_one] at hjunk
  exact hjunk

/-- No byte other than zero lies above a zero byte. -/
def ZerosLast (key : UInt64) : Prop := ∀ i j, i < j → j < 8 → keyByte key i = 0 → keyByte key j = 0

theorem dropWhile_zeros_iff (l : List UInt8) :
    (∀ b ∈ l.dropWhile (· ≠ 0), b = 0) ↔ ∀ i j : Nat, i < j → l[i]? = some 0 → ∀ b, l[j]? = some b → b = 0 := by
  induction l with
  | nil => simp
  | cons a l ih =>
    by_cases ha : a = 0
    · rw [dropWhile_cons_of_neg (by simp [ha])]
      constructor
      · intro h i j _ _ b hb
        exact h b (mem_of_getElem? hb)
      · intro h b hb
        obtain ⟨j, hj⟩ := mem_iff_getElem?.mp hb
        cases j with
        | zero => exact (Option.some.inj hj).symm.trans ha
        | succ j => exact h 0 (j + 1) (Nat.succ_pos j) (congrArg some ha) b hj
    · rw [dropWhile_cons_of_pos (by simpa using ha), ih]
      constructor
      · intro h i j hij hi b hb
        cases i with
        | zero => exact absurd (Option.some.inj hi) ha
        | succ i =>
          obtain ⟨j, rfl⟩ := Nat.exists_eq_add_one_of_ne_zero (Nat.ne_zero_of_lt hij)
          exact h i j (Nat.lt_of_succ_lt_succ hij) hi b hb
      · intro h i j hij hi b hb
        exact h (i + 1) (j + 1) (Nat.succ_lt_succ hij) hi b hb

theorem zerosLast_iff (key : UInt64) : ZerosLast key ↔ ∀ b ∈ (leBytes 8 key.toNat).dropWhile (· ≠ 0), b = 0 := by
  have hbyte : ∀ i < 8, (leBytes 8 key.toNat)[i]? = some (keyByte key i) := by
    intro i hi
    rw [leBytes_getElem? hi, keyByte_eq key hi]
  have hlen := leBytes_length 8 key.toNat
  rw [dropWhile_zeros_iff]
  constructor
  · intro h i j hij hi b hb
    have hj := (List.getElem?_eq_some_iff.mp hb).1
    rw [hlen] at hj
    rw [hbyte i (Nat.lt_trans hij hj)] at hi
    rw [hbyte j hj] at hb
    rw [← Option.some.inj hb]
    exact h i j hij hj (Option.some.inj hi)
  · intro h i j hij hj hi
    refine h i j hij ?_ _ (hbyte j hj)
    rw [hbyte i (Nat.lt_trans hij hj), hi]

theorem symToKey_keyToSym (key : UInt64) (hout : 9 ≤ out.length) : symToKey (keyToSym key out) = key ↔ ZerosLast key := by
  obtain ⟨junk, hjunk⟩ := keyToSym_eq key hout
  have hlen : (keyText key).length ≤ 8 := by
    have hsub := (takeWhile_sublist (fun b : UInt8 => decide (b ≠ 0)) (l := leBytes 8 key.toNat)).length_le
    rw [leBytes_length] at hsub
    exact hsub
  have hkey : leNat (leBytes 8 key.toNat) = key.toNat := leNat_leBytes key.toNat_lt
  have hsplit := leNat_append (keyText key) ((leBytes 8 key.toNat).dropWhile (· ≠ 0))
  have htakeDrop : keyText key ++ (leBytes 8 key.toNat).dropWhile (· ≠ 0) = leBytes 8 key.toNat := takeWhile_append_dropWhile
  rw [htakeDrop, hkey] at hsplit
  rw [hjunk, zerosLast_iff, ← leNat_eq_zero_iff, ← UInt64.toNat_inj, symToKey_packed, packed_of_cString (zero_not_mem_keyText key),
    take_of_length_le hlen]
  have hpos : 0 < 256 ^ (keyText key).length := Nat.pow_pos (by decide)
  constructor
  · intro h
    rw [h] at hsplit
    exact (Nat.mul_eq_zero.mp (by omega)).resolve_left hpos.ne'
  · intro h
    rw [h, Nat.mul_zero, Nat.add_zero] at hsplit
    exact hsplit.symm

/-! ## Round trips -/

theorem symbol_packing_lossless :
    (∀ sym rest out : List UInt8, 0 ∉ sym → 9 ≤ out.length → cString (keyToSym (symToKey (sym ++ 0 :: rest)) out) = sym.take 8) ∧
    (∀ sym sym' rest rest' : List UInt8, 0 ∉ sym → 0 ∉ sym' → sym.length ≤ 8 → sym'.length ≤ 8 →
      (symToKey (sym ++ 0 :: rest) = symToKey (sym' ++ 0 :: rest') ↔ sym = sym')) ∧
    ∀ (key : UInt64) (out : List UInt8), 9 ≤ out.length → (symToKey (keyToSym key out) = key ↔ ZerosLast key) := by
  refine ⟨?_, ?_, ?_⟩
  · intro sym rest out hsym hout
    obtain ⟨junk, hjunk⟩ := keyToSym_eq (symToKey (sym ++ 0 :: rest)) hout
    rw [hjunk, cString_append_zero (zero_not_mem_keyText _), keyText_symToKey, packed_of_cString hsym]
  · intro sym sym' rest rest' hsym hsym' hlen hlen'
    rw [symToKey_inj, packed_of_cString hsym, packed_of_cString hsym', List.take_of_length_le hlen, List.take_of_length_le hlen']
  · intro key out hout
    exact symToKey_keyToSym key hout

/-- A symbol with a byte whose sign bit is set, and a key with a zero byte below another. -/
theorem symbol_packing_lossless_sample :
    cString (keyToSym (symToKey ([0x41, 0xC4] ++ 0 :: [])) (List.replicate 9 0x55)) = [0x41, 0xC4] ∧
    (symToKey ([0x41] ++ 0 :: []) = symToKey ([0xC1] ++ 0 :: []) ↔ [(0x41 : UInt8)] = [0xC1]) ∧
    symToKey (keyToSym 0x420041 (List.replicate 9 0x55)) ≠ 0x420041 := by
  obtain ⟨hround, hinj, hkey⟩ := symbol_packing_lossless
  refine ⟨hround _ _ _ (by decide) (by decide), hinj _ _ _ _ (by decide) (by decide) (by decide) (by decide), ?_⟩
  intro h
  have hlast := (hkey 0x420041 (List.replicate 9 0x55) (by decide)).mp h
  exact absurd (hlast 1 2 (by decide) (by decide) (by decide)) (by decide)

theorem cString_take (n : Nat) (s : List UInt8) : cString (s.take n) = (cString s).take n := by
  unfold cString
  induction s generalizing n with
  | nil => simp
  | cons b s ih =>
    cases n with
    | zero => rfl
    | succ n =>
      by_cases hb : b = 0
      · simp [hb]
      · rw [take_succ_cons, takeWhile_cons_of_pos (by simpa using hb), takeWhile_cons_of_pos (by simpa using hb),
          take_succ_cons, ih]

theorem packed_eq_copySymbol (sym : List UInt8) : packed sym = Oms.copySymbol sym := cString_take 8 sym

/-- Symbols have one key in the order management just when the copies that its orders carry are the same. -/
theorem oms_key_eq_iff {sym sym' : List UInt8} :
    Oms.symToKey sym = Oms.symToKey sym' ↔ Oms.copySymbol sym = Oms.copySymbol sym' := by
  rw [← symToKey_toNat, ← symToKey_toNat, UInt64.toNat_inj, symToKey_inj, packed_eq_copySymbol, packed_eq_copySymbol]

end HftLab.Common
