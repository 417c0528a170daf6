/-
  HftLab.Fix.Forgery — bytes that carry a checksum of their own, and what `parse` makes of them.

  The parser compares the number in the first field of tag 10 with the sum up to the last. Bytes that end with a checksum which is
  wrong are valid all the same when they have such a field before it, with their own sum as its number (`Forged`, `Sent.forged`,
  `Measured.valid`).
-/

import HftLab.Fix.Scanning

namespace HftLab.Fix

open Lib List

/-- The bytes have the fields of a header, and a field of tag 10 whose number is their checksum. -/
structure Forged (delim : UInt8) (bytes : List UInt8) : Prop where
  nul : 0 ∉ bytes
  delimiter : delim = soh ∨ soh ∉ bytes
  room : (fieldsOf delim bytes).length < maxFixTags
  header : ∀ tag ∈ [(8 : Int), 9, 35], ∃ f ∈ fieldsOf delim bytes, f.tag = tag
  checksum : ∃ f, (fieldsOf delim bytes).find? (·.tag = 10) = some f ∧ atoi f.value = computeChecksum bytes

section

variable {delim : UInt8} {t x : List UInt8} {ts : List (List UInt8)} {a : Int}

/-! ## Texts and the number after them -/

/-- Texts that the parser takes one by one. -/
structure Sent (delim : UInt8) (ts : List (List UInt8)) : Prop where
  whole : ∀ t ∈ ts, delim ∉ t
  nul : 0 ∉ flat delim ts
  delimiter : delim = soh ∨ delim = '|'.toUInt8 ∧ soh ∉ flat delim ts
  length_le : (flat delim ts).length ≤ 1023

variable {t₉ last : List UInt8} {A B : List (List UInt8)} {f10 : FIXField}

theorem Sent.isValid_iff (h : Sent delim ts) (hne : ts ≠ []) (junk : List UInt8) :
    (FIXMessage.parse (flat delim ts ++ 0 :: junk)).isValid = true ↔
      (∃ f ∈ (ts.filterMap readText).take maxFixTags, f.tag = 8) ∧ (∃ f ∈ (ts.filterMap readText).take maxFixTags, f.tag = 35) ∧
      (∃ f off, ((ts.filterMap readText).take maxFixTags).find? (·.tag = 10) = some f ∧
        (Scan.scanTexts 0 ts {}).cksumOff = some off ∧ atoi f.value = computeChecksum ((flat delim ts ++ 0 :: junk).take off)) ∧
      ∃ f off start, ((ts.filterMap readText).take maxFixTags).find? (·.tag = 9) = some f ∧
        (Scan.scanTexts 0 ts {}).cksumOff = some off ∧ (Scan.scanTexts 0 ts {}).bodyOff = some start ∧ start ≤ off ∧
        atoi f.value = (off : Int) - start := by
  rw [FIXMessage.parse_flat h.whole hne h.nul h.delimiter h.length_le, FIXMessage.validate_isValid]

theorem mem_of_find? {l : List FIXField} {f : FIXField} (h : l.find? (·.tag = a) = some f) : f ∈ l ∧ f.tag = a := by
  have htag := List.find?_some h
  exact ⟨mem_of_find?_eq_some h, of_decide_eq_true htag⟩

theorem Sent.invalid_of_no_ten (h : Sent delim ts) (h10 : ∀ t ∈ ts, ¬Reads t 10) (junk : List UInt8) :
    (FIXMessage.parse (flat delim ts ++ 0 :: junk)).isValid = false := by
  by_cases hne : ts = []
  · rw [hne]
    rfl
  · rw [← Bool.not_eq_true, h.isValid_iff hne]
    intro hvalid
    obtain ⟨-, -, ⟨f, -, hf, -⟩, -⟩ := hvalid
    obtain ⟨hmem, htag⟩ := mem_of_find? hf
    obtain ⟨t, ht, hread⟩ := (exists_reads_iff ts 10).mp ⟨f, mem_of_mem_take hmem, htag⟩
    exact h10 t ht hread

theorem scanTexts_room (ts : List (List UInt8)) (hroom : (ts.filterMap readText).length < maxFixTags) :
    (Scan.scanTexts 0 ts {}).fields = ts.filterMap readText := by
  rw [Scan.scanTexts_fields ts 0 {} (Nat.zero_le _), nil_append, take_of_length_le (Nat.le_of_lt hroom)]

theorem scanTexts_last (delim : UInt8) (hlast : readText last = some f10) (h10 : f10.tag = 10)
    (hroom : (ts.filterMap readText).length < maxFixTags) :
    (Scan.scanTexts 0 (ts ++ [last]) {}).cksumOff = some (flat delim ts).length := by
  have hfields := scanTexts_room ts hroom
  rw [Scan.scanTexts_append delim, Scan.scanTexts_cons, hfields, if_neg (Nat.not_le_of_lt hroom), hlast, Nat.zero_add]
  show (if f10.tag = 10 then _ else _) = _
  rw [if_pos h10]

theorem fields_last (hlast : readText last = some f10) (hroom : (ts.filterMap readText).length < maxFixTags) :
    ((ts ++ [last]).filterMap readText).take maxFixTags = ts.filterMap readText ++ [f10] := by
  have hall : (ts ++ [last]).filterMap readText = ts.filterMap readText ++ [f10] := by
    rw [filterMap_append, filterMap_cons, hlast]
    rfl
  rw [hall]
  refine take_of_length_le ?_
  rw [length_append, length_singleton]
  omega

theorem take_flat (delim : UInt8) (ts ts' : List (List UInt8)) (r : List UInt8) :
    (flat delim (ts ++ ts') ++ r).take (flat delim ts).length = flat delim ts := by
  rw [flat_append, append_assoc, take_left' rfl]

/-- What passes the parser carries a number of its own. -/
theorem Sent.forged (h : Sent delim (ts ++ [last])) (hlast : readText last = some f10) (h10 : f10.tag = 10)
    (hwrong : atoi f10.value ≠ computeChecksum (flat delim ts)) (hroom : (ts.filterMap readText).length < maxFixTags)
    {junk : List UInt8} (hvalid : (FIXMessage.parse (flat delim (ts ++ [last]) ++ 0 :: junk)).isValid) :
    Forged delim (flat delim ts) := by
  have hts : ∀ t ∈ ts, delim ∉ t := fun t ht => h.whole t (mem_append_left _ ht)
  have hbytes : ∀ b, b ∈ flat delim ts → b ∈ flat delim (ts ++ [last]) := by
    intro b hb
    rw [flat_append]
    exact mem_append_left _ hb
  rw [h.isValid_iff (by simp), fields_last hlast hroom, scanTexts_last delim hlast h10 hroom] at hvalid
  obtain ⟨⟨f8, hf8, ht8⟩, ⟨f35, hf35, ht35⟩, ⟨f, off, hf, hoff, hsum⟩, f9, -, -, hf9, -⟩ := hvalid
  obtain ⟨hmem9, ht9⟩ := mem_of_find? hf9
  have hother : ∀ {f : FIXField}, f ∈ ts.filterMap readText ++ [f10] → f.tag ≠ 10 → f ∈ ts.filterMap readText := by
    intro f hf hne
    rcases mem_append.mp hf with hf | hf
    · exact hf
    · rw [mem_singleton.mp hf] at hne
      exact absurd h10 hne
  cases hoff
  rw [take_flat] at hsum
  constructor
  · exact fun h0 => h.nul (hbytes 0 h0)
  · exact h.delimiter.imp id fun hd h1 => hd.2 (hbytes soh h1)
  · rw [fieldsOf_flat hts]
    exact hroom
  · rw [fieldsOf_flat hts]
    intro tag htag
    simp only [mem_cons, not_mem_nil, or_false] at htag
    rcases htag with rfl | rfl | rfl
    · exact ⟨f8, hother hf8 (by omega), ht8⟩
    · exact ⟨f9, hother hmem9 (by omega), ht9⟩
    · exact ⟨f35, hother hf35 (by omega), ht35⟩
  · rw [fieldsOf_flat hts]
    rw [List.find?_append] at hf
    cases hfirst : (ts.filterMap readText).find? (·.tag = 10) with
    | some g =>
      rw [hfirst] at hf
      cases hf
      exact ⟨f, rfl, hsum⟩
    | none =>
      rw [hfirst] at hf
      have hown : f = f10 := by simpa [h10] using hf.symm
      rw [hown] at hsum
      exact absurd hsum hwrong

/-- The texts have one length, with the bytes after it. -/
structure Measured (delim : UInt8) (A : List (List UInt8)) (t₉ : List UInt8) (B : List (List UInt8)) : Prop where
  length : readText t₉ = some { tag := 9, value := decimal (flat delim B).length }
  before : ∀ t ∈ A, ¬Reads t 9
  after : ∀ t ∈ B, ¬Reads t 9

theorem not_nine {ts : List (List UInt8)} (h : ∀ t ∈ ts, ¬Reads t 9) : ∀ f ∈ ts.filterMap readText, f.tag ≠ 9 := by
  intro f hf h9
  obtain ⟨t, ht, hread⟩ := (exists_reads_iff ts 9).mp ⟨f, hf, h9⟩
  exact h t ht hread

/-- The body starts after the length, if that was still read with room for another field. -/
theorem Measured.bodyOff (h : Measured delim A t₉ B) (hlast : ¬Reads last 9) :
    (Scan.scanTexts 0 (A ++ t₉ :: (B ++ [last])) {}).bodyOff =
      if (A.filterMap readText).length + 1 < maxFixTags then some (flat delim (A ++ [t₉])).length else none := by
  have hrest : ∀ t ∈ B ++ [last], ¬Reads t 9 := by
    intro t ht
    rcases mem_append.mp ht with ht | ht
    · exact h.after t ht
    · rw [mem_singleton.mp ht]
      exact hlast
  obtain ⟨hbody, hpending⟩ := Scan.scanTexts_settled A (not_nine h.before) 0 {} rfl
  have hfields := congrArg List.length (Scan.scanTexts_fields A 0 {} (Nat.zero_le _))
  rw [nil_append, length_take] at hfields
  have hlen : (flat delim (A ++ [t₉])).length = 0 + (flat delim A).length + t₉.length + 1 := by
    rw [flat_append, length_append, flat_length_cons]
    show _ + (_ + 0) = _
    omega
  obtain ⟨t, ts, hcons⟩ := exists_cons_of_ne_nil (l := B ++ [last]) (by simp)
  rw [Scan.scanTexts_append delim, Scan.scanTexts_cons, hlen]
  generalize Scan.scanTexts 0 A {} = s at hbody hpending hfields
  have henter : s.enter (0 + (flat delim A).length) = s := if_neg (by rw [hpending]; exact Bool.false_ne_true)
  have hnote := Scan.note_fields s (0 + (flat delim A).length) (readText t₉)
  rw [henter] at hnote ⊢
  rw [h.length] at hnote ⊢
  have hcount := congrArg List.length hnote
  rw [length_append, Option.toList_some, length_singleton] at hcount
  by_cases hroom : (A.filterMap readText).length + 1 < maxFixTags
  · rw [if_pos hroom, if_neg (by omega), hcons]
    rw [hcons] at hrest
    exact Scan.scanTexts_pending t ts (not_nine hrest) _ _ (by simp [Scan.note]) (by omega)
  · rw [if_neg hroom]
    split
    · exact hbody
    · rw [Scan.scanTexts_full (by omega)]
      exact hbody

/-- The one length is that of the body. -/
theorem Measured.eq_nine (h : Measured delim A t₉ B) (hlast : ¬Reads last 9) {f : FIXField}
    (hf : f ∈ ((A ++ t₉ :: B) ++ [last]).filterMap readText) (htag : f.tag = 9) :
    f = { tag := 9, value := decimal (flat delim B).length } := by
  obtain ⟨t, ht, hread⟩ := mem_filterMap.mp hf
  have hnine : Reads t 9 := ⟨f, hread, htag⟩
  simp only [mem_append, mem_cons, not_mem_nil, or_false] at ht
  rcases ht with (ht | rfl | ht) | rfl
  · exact absurd hnine (h.before t ht)
  · rw [h.length] at hread
    exact (Option.some.inj hread).symm
  · exact absurd hnine (h.after t ht)
  · exact absurd hnine hlast

theorem Measured.flat_length (delim : UInt8) (A B : List (List UInt8)) (t₉ : List UInt8) :
    (flat delim (A ++ t₉ :: B)).length = (flat delim (A ++ [t₉])).length + (flat delim B).length := by
  rw [← length_append, ← flat_append, append_assoc, singleton_append]

/-- With a number of its own it passes. -/
theorem Measured.valid (h : Measured delim A t₉ B) (hs : Sent delim ((A ++ t₉ :: B) ++ [last])) (hlast : readText last = some f10)
    (h10 : f10.tag = 10) (hf : Forged delim (flat delim (A ++ t₉ :: B))) (junk : List UInt8) :
    (FIXMessage.parse (flat delim ((A ++ t₉ :: B) ++ [last]) ++ 0 :: junk)).isValid = true := by
  have hts : ∀ t ∈ A ++ t₉ :: B, delim ∉ t := fun t ht => hs.whole t (mem_append_left _ ht)
  obtain ⟨-, -, hroom, hheader, f, hfirst, hsum⟩ := hf
  rw [fieldsOf_flat hts] at hroom hheader hfirst
  have hnot9 : ¬Reads last 9 := by
    intro hread
    have := hread.eq ⟨f10, hlast, h10⟩
    omega
  have hlen := hs.length_le
  have hbody : (flat delim B).length ≤ 2147483647 := by
    have hall := Measured.flat_length delim A B t₉
    rw [flat_append, length_append] at hlen
    omega
  have hlen9 : (A.filterMap readText).length + 1 < maxFixTags := by
    rw [filterMap_append, filterMap_cons, h.length, length_append, length_cons] at hroom
    omega
  rw [hs.isValid_iff (by simp), fields_last hlast hroom, scanTexts_last delim hlast h10 hroom]
  have happend : (A ++ t₉ :: B) ++ [last] = A ++ t₉ :: (B ++ [last]) := by simp
  have hin : ∀ {a}, (∃ f ∈ (A ++ t₉ :: B).filterMap readText, f.tag = a) →
      ∃ f ∈ (A ++ t₉ :: B).filterMap readText ++ [f10], f.tag = a :=
    fun ⟨f, hf, ha⟩ => ⟨f, mem_append_left _ hf, ha⟩
  refine ⟨hin (hheader 8 (by simp)), hin (hheader 35 (by simp)), ⟨f, _, ?_, rfl, ?_⟩, ?_⟩
  · rw [List.find?_append, hfirst]
    rfl
  · rw [take_flat]
    exact hsum
  · obtain ⟨f9, hmem, htag⟩ := hin (hheader 9 (by simp))
    obtain ⟨g, hg⟩ := Option.isSome_iff_exists.mp
      ((List.find?_isSome (p := fun f : FIXField => decide (f.tag = 9))).mpr ⟨f9, hmem, decide_eq_true htag⟩)
    obtain ⟨hgmem, hgtag⟩ := mem_of_find? hg
    have hall : g ∈ ((A ++ t₉ :: B) ++ [last]).filterMap readText := by
      rw [filterMap_append, filterMap_cons, hlast]
      exact hgmem
    have hvalue := h.eq_nine hnot9 hall hgtag
    have hstart := h.bodyOff hnot9
    rw [← happend, if_pos hlen9] at hstart
    have hsplit := Measured.flat_length delim A B t₉
    refine ⟨g, _, _, hg, rfl, hstart, by omega, ?_⟩
    rw [hvalue, hsplit]
    rw [atoi_decimal hbody]
    omega

/-- With no room for the last field the length is not that of the body. -/
theorem Measured.full_invalid (h : Measured delim A t₉ B) (hs : Sent delim ((A ++ t₉ :: B) ++ [last])) (hlast : ¬Reads last 9)
    (hfull : maxFixTags ≤ ((A ++ t₉ :: B).filterMap readText).length) (junk : List UInt8) :
    (FIXMessage.parse (flat delim ((A ++ t₉ :: B) ++ [last]) ++ 0 :: junk)).isValid = false := by
  have happend : (A ++ t₉ :: B) ++ [last] = A ++ t₉ :: (B ++ [last]) := by simp
  have hlen := hs.length_le
  have hsplit := Measured.flat_length delim A B t₉
  rw [flat_append, length_append] at hlen
  rw [← Bool.not_eq_true, hs.isValid_iff (by simp)]
  intro hvalid
  obtain ⟨-, -, -, f, off, start, hf, hoff, hstart, hle, hvalue⟩ := hvalid
  obtain ⟨hmem, htag⟩ := mem_of_find? hf
  rw [h.eq_nine hlast (mem_of_mem_take hmem) htag] at hvalue
  rw [atoi_decimal (by omega)] at hvalue
  -- the loop ends before the last text, so the checksum it found is that of another
  have hend : (Scan.scanTexts 0 (A ++ t₉ :: B) {}).cksumOff = some off := by
    rw [Scan.scanTexts_append delim, Scan.scanTexts_full] at hoff
    · exact hoff
    · rw [Scan.scanTexts_fields _ 0 {} (Nat.zero_le _), nil_append, length_take]
      omega
  have hlt := Scan.scanTexts_cksum_lt delim (A ++ t₉ :: B) 0 {} nofun off hend
  rw [happend, h.bodyOff hlast] at hstart
  split at hstart
  · cases hstart
    omega
  · cases hstart

end

end HftLab.Fix
