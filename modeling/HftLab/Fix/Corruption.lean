/-
  HftLab.Fix.Corruption — one byte of a built message changed on the way, and whether `parse` sees it.

  The sum of the bytes changes with every byte, so the number at the end is wrong. But the parser compares the sum up to the last
  field of tag 10 with the number in the first: when the change makes such a field out of another, a `11=190` read as `10=190`, the
  bytes can carry a number of their own that is right (`Forged`, `forged_undetected`). `corruption_detected_iff` says that nothing
  else passes.
-/

import HftLab.Fix.Forgery

namespace HftLab.Fix

open Lib List

/-- A field without its delimiter. -/
def textOf (f : Pair) : List UInt8 := decimal f.1 ++ equals :: f.2

/-- The last field, without its delimiter. -/
def sumText (sum : Nat) : List UInt8 := textOf (10, decimal3 sum)

/-- The fields before it. -/
def frontFields (delim : UInt8) (begin_ : List UInt8) (fields : List Pair) : List Pair :=
  (8, begin_) :: (9, decimal (printFields delim fields).length) :: fields

/-- The bytes before the last field, which its checksum covers. -/
def frontBytes (delim : UInt8) (begin_ : List UInt8) (fields : List Pair) : List UInt8 :=
  printFields delim (frontFields delim begin_ fields)

/-- A body of fields that the builder has room for and the parser reads. -/
structure Framed (cap : Int) (delim : UInt8) (begin_ : List UInt8) (fields : List Pair) : Prop where
  delimiter : delim = soh ∨ delim = '|'.toUInt8
  fields_le : fields.length ≤ 29
  /-- Neither 9 nor 10, as the parser reads the tag. -/
  tag : ∀ f ∈ fields, atoi (decimal f.1) ≠ 9 ∧ atoi (decimal f.1) ≠ 10
  value_lt : ∀ f ∈ (8, begin_) :: fields, f.2.length < maxFixValue
  clean : ∀ f ∈ (8, begin_) :: fields, delim ∉ f.2 ∧ Clean f.2
  begin_plain : '|'.toUInt8 ∉ begin_
  room : buildMessage cap (printFields delim fields) begin_ delim ≠ []
  length_le : (buildMessage cap (printFields delim fields) begin_ delim).length ≤ 1023

/-! ## The built message as texts -/

section

variable {cap : Int} {delim : UInt8} {begin_ : List UInt8} {fields : List Pair}
    {f : Pair} {n : Nat} {before after : List UInt8} {b₀ : UInt8}

theorem printFields_flat (delim : UInt8) (fields : List Pair) : printFields delim fields = flat delim (fields.map textOf) := by
  unfold printFields flat textOf
  rw [flatMap_map]
  simp

theorem delim_ne_zero (h : delim = soh ∨ delim = '|'.toUInt8) : delim ≠ 0 := by
  rcases h with rfl | rfl <;> decide

theorem delim_not_digit (h : delim = soh ∨ delim = '|'.toUInt8) : ¬IsDigit delim := by
  rcases h with rfl | rfl <;> decide

theorem delim_ne_equals (h : delim = soh ∨ delim = '|'.toUInt8) : delim ≠ equals := by
  rcases h with rfl | rfl <;> decide

theorem not_mem_textOf {b : UInt8} (hdigit : ¬IsDigit b) (heq : b ≠ equals) (hvalue : b ∉ f.2) : b ∉ textOf f := by
  intro h
  rcases mem_append.mp h with h | h
  · exact hdigit (isDigit_of_mem_decimal h)
  · rcases mem_cons.mp h with h | h
    · exact heq h
    · exact hvalue h

theorem Framed.message_eq (h : Framed cap delim begin_ fields) :
    buildMessage cap (printFields delim fields) begin_ delim =
      frontBytes delim begin_ fields ++ (sumText (computeChecksum (frontBytes delim begin_ fields)) ++ [delim]) := by
  have hbody : 0 ∉ printFields delim fields :=
    printFields_no_nul (delim_ne_zero h.delimiter) fun f hf => (h.clean f (mem_cons_of_mem _ hf)).2.2
  have hbegin : 0 ∉ begin_ := (h.clean (8, begin_) mem_cons_self).2.2
  have hfront : ascii "8=" ++ begin_ ++ [delim] ++ ascii "9=" ++ decimal (printFields delim fields).length ++ [delim] ++
      printFields delim fields = frontBytes delim begin_ fields := by
    rw [frameHead_eq]
    exact (printFields_append delim [(8, begin_), (9, decimal (printFields delim fields).length)] fields).symm
  have h10 : ascii "10=" = decimal 10 ++ [equals] := by decide +kernel
  have hroom := h.room
  unfold buildMessage at hroom ⊢
  dsimp only at hroom ⊢
  rw [cString_eq hbody, cString_eq hbegin] at hroom ⊢
  split
  · rename_i hcap
    rw [if_pos hcap] at hroom
    exact absurd rfl hroom
  · rw [hfront, h10]
    simp [sumText, textOf]

/-! ## What a text reads as -/

variable {t x y z : List UInt8} {ts : List (List UInt8)} {a a' : Int}

theorem nameOf_textOf (f : Pair) : nameOf (textOf f) = decimal f.1 :=
  nameOf_eq (not_mem_of_digits (fun _ => isDigit_of_mem_decimal) (by decide)) f.2

theorem equals_mem_textOf (f : Pair) : equals ∈ textOf f := mem_append_right _ mem_cons_self

theorem reads_textOf (h : Reads (textOf f) a) : a = atoi (decimal f.1) := by
  rw [reads_iff, nameOf_textOf] at h
  exact h.2.2.2

theorem readText_textOf (value : List UInt8) (hpos : 0 < n) (hle : n ≤ 2147483647) :
    readText (textOf (n, value)) = some { tag := n, value := value.take (maxFixValue - 1) } := by
  have htag : (0 : Int) < n := Int.natCast_pos.mpr hpos
  have hname : nameOf (textOf (n, value)) = decimal n := nameOf_textOf (n, value)
  have hdrop : (textOf (n, value)).drop ((decimal n).length + 1) = value := by
    unfold textOf
    rw [← drop_drop, drop_left' rfl]
    rfl
  unfold readText
  rw [hname, atoi_decimal hle, if_pos ⟨equals_mem_textOf (n, value), decimal_ne_nil n, htag⟩, hdrop]

/-! ## One byte -/

theorem computeChecksum_ne {b b' : UInt8} (h : b ≠ b') :
    computeChecksum (before ++ b :: after) ≠ computeChecksum (before ++ b' :: after) := by
  have hb := b.toNat_lt
  have hb' := b'.toNat_lt
  have hne : b.toNat ≠ b'.toNat := fun e => h (UInt8.toNat_inj.mp e)
  unfold computeChecksum
  simp only [map_append, map_cons, sum_append, sum_cons]
  omega

/-- The text that a byte is in, or whose delimiter it is. -/
theorem split_flat {b : UInt8} (h : flat delim ts = before ++ b :: after) :
    ∃ ts1 t ts2, ts = ts1 ++ t :: ts2 ∧
      ((∃ x y, t = x ++ b :: y ∧ before = flat delim ts1 ++ x ∧ after = y ++ delim :: flat delim ts2) ∨
        b = delim ∧ before = flat delim ts1 ++ t ∧ after = flat delim ts2) := by
  induction ts generalizing before with
  | nil => simp [flat] at h
  | cons t ts ih =>
    rw [flat_cons] at h
    rcases append_eq_append_iff.mp h with ⟨z, hbefore, hz⟩ | ⟨z, ht, hz⟩
    · cases z with
      | nil =>
        obtain ⟨rfl, rfl⟩ := List.cons.inj hz
        exact ⟨[], t, ts, rfl, .inr ⟨rfl, by simpa [flat] using hbefore, rfl⟩⟩
      | cons d z =>
        obtain ⟨rfl, hrest⟩ := List.cons.inj hz
        obtain ⟨ts1, u, ts2, rfl, hcase⟩ := ih hrest
        refine ⟨t :: ts1, u, ts2, rfl, ?_⟩
        rw [flat_cons, hbefore]
        rcases hcase with ⟨x, y, hu, rfl, hafter⟩ | ⟨hb, rfl, hafter⟩
        · exact .inl ⟨x, y, hu, by simp, hafter⟩
        · exact .inr ⟨hb, by simp, hafter⟩
    · cases z with
      | nil =>
        obtain ⟨rfl, rfl⟩ := List.cons.inj hz
        exact ⟨[], t, ts, rfl, .inr ⟨rfl, by simpa [flat] using ht.symm, rfl⟩⟩
      | cons c z =>
        obtain ⟨rfl, hrest⟩ := List.cons.inj hz
        exact ⟨[], t, ts, rfl, .inl ⟨before, z, ht, rfl, hrest⟩⟩

/-! ## The built message -/

theorem Framed.body_length_le (h : Framed cap delim begin_ fields) : (printFields delim fields).length ≤ 1023 := by
  have hlen := h.length_le
  have hfront : frontBytes delim begin_ fields = printFields delim _ ++ printFields delim fields :=
    printFields_append delim [(8, begin_), (9, decimal (printFields delim fields).length)] fields
  rw [h.message_eq, length_append, hfront, length_append] at hlen
  omega

theorem reads_eight (h : Reads (textOf (8, begin_)) a) : a = 8 :=
  (reads_textOf h).trans (atoi_decimal (n := 8) (by decide))

theorem reads_nine {value : List UInt8} (h : Reads (textOf (9, value)) a) : a = 9 :=
  (reads_textOf h).trans (atoi_decimal (n := 9) (by decide))

theorem Framed.body_reads (h : Framed cap delim begin_ fields) : ∀ t ∈ fields.map textOf, ¬Reads t 9 ∧ ¬Reads t 10 := by
  intro t ht
  obtain ⟨f, hf, rfl⟩ := mem_map.mp ht
  obtain ⟨h9, h10⟩ := h.tag f hf
  exact ⟨fun hr => h9 (reads_textOf hr).symm, fun hr => h10 (reads_textOf hr).symm⟩

theorem Framed.front_reads (h : Framed cap delim begin_ fields) :
    ∀ t ∈ (frontFields delim begin_ fields).map textOf, ¬Reads t 10 := by
  intro t ht hread
  rcases mem_cons.mp ht with rfl | ht
  · have := reads_eight hread
    omega
  · rcases mem_cons.mp ht with rfl | ht
    · have := reads_nine hread
      omega
    · exact (h.body_reads t ht).2 hread

/-- A byte that no value has, nor a number, is not in a text. -/
theorem front_not_mem {b : UInt8} (hdigit : ¬IsDigit b) (heq : b ≠ equals)
    (hvalue : ∀ f ∈ (8, begin_) :: fields, b ∉ f.2) : ∀ t ∈ (frontFields delim begin_ fields).map textOf, b ∉ t := by
  intro t ht
  obtain ⟨f, hf, rfl⟩ := mem_map.mp ht
  refine not_mem_textOf hdigit heq ?_
  rcases mem_cons.mp hf with rfl | hf
  · exact hvalue _ mem_cons_self
  · rcases mem_cons.mp hf with rfl | hf
    · exact fun hb => hdigit (isDigit_of_mem_decimal hb)
    · exact hvalue f (mem_cons_of_mem _ hf)

theorem Framed.whole (h : Framed cap delim begin_ fields) : ∀ t ∈ (frontFields delim begin_ fields).map textOf, delim ∉ t :=
  front_not_mem (delim_not_digit h.delimiter) (delim_ne_equals h.delimiter) fun f hf => (h.clean f hf).1

theorem not_mem_flat {b : UInt8} (hb : b ≠ delim) (h : ∀ t ∈ ts, b ∉ t) : b ∉ flat delim ts := by
  intro hmem
  obtain ⟨t, ht, hmem⟩ := mem_flatMap.mp hmem
  rcases mem_append.mp hmem with hmem | hmem
  · exact h t ht hmem
  · exact hb (mem_singleton.mp hmem)

/-! ## The changed text -/

/-- What becomes of a text when one of its bytes is `b`: another, or two when `b` is the delimiter. -/
def Pieces (delim : UInt8) (t : List UInt8) (b : UInt8) (ps : List (List UInt8)) : Prop :=
  ∃ x b₀ y, t = x ++ b₀ :: y ∧ (b ≠ delim ∧ ps = [x ++ b :: y] ∨ b = delim ∧ ps = [x, y])

variable {b : UInt8} {ps ts1 ts2 : List (List UInt8)}

/-- A changed text that reads as a checksum, in one piece or in the second of two, reads as no length. -/
theorem Pieces.not_nine (h : Pieces delim t b ps) (h9 : ¬Reads t 9) (h10 : ¬Reads t 10) (hten : ∃ u ∈ ps, Reads u 10) :
    ∀ u ∈ ps, ¬Reads u 9 := by
  obtain ⟨x, b₀, y, rfl, ⟨-, rfl⟩ | ⟨-, rfl⟩⟩ := h
  · obtain ⟨u, hu, hread⟩ := hten
    intro v hv hnine
    rw [mem_singleton.mp hu] at hread
    rw [mem_singleton.mp hv] at hnine
    have := hread.eq hnine
    omega
  · have hx : ∀ {a}, Reads x a → a ≠ 9 ∧ a ≠ 10 := fun hr =>
      ⟨fun e => h9 (e ▸ hr.append _), fun e => h10 (e ▸ hr.append _)⟩
    have hy : Reads y 10 := by
      obtain ⟨u, hu, hread⟩ := hten
      simp only [mem_cons, not_mem_nil, or_false] at hu
      rcases hu with rfl | rfl
      · exact absurd rfl (hx hread).2
      · exact hread
    intro v hv hnine
    simp only [mem_cons, not_mem_nil, or_false] at hv
    rcases hv with rfl | rfl
    · exact absurd rfl (hx hnine).1
    · have := hnine.eq hy
      omega

/-- The length, changed, does not read as a checksum and a length at once. -/
theorem Pieces.of_length (h : Pieces delim (textOf (9, decimal n)) b ps) (hten : ∃ u ∈ ps, Reads u 10)
    (hnine : ∃ u ∈ ps, Reads u 9) : False := by
  obtain ⟨x, b₀, y, ht, ⟨-, rfl⟩ | ⟨-, rfl⟩⟩ := h
  · obtain ⟨u, hu, hread⟩ := hten
    obtain ⟨v, hv, hread'⟩ := hnine
    rw [mem_singleton.mp hu] at hread
    rw [mem_singleton.mp hv] at hread'
    have := hread.eq hread'
    omega
  · have hx : ∀ {a}, Reads x a → a = 9 := fun hr => reads_nine (ht ▸ hr.append _)
    have hy : Reads y 10 := by
      obtain ⟨u, hu, hread⟩ := hten
      simp only [mem_cons, not_mem_nil, or_false] at hu
      rcases hu with rfl | rfl
      · have := hx hread
        omega
      · exact hread
    have hx9 : Reads x 9 := by
      obtain ⟨u, hu, hread⟩ := hnine
      simp only [mem_cons, not_mem_nil, or_false] at hu
      rcases hu with rfl | rfl
      · exact hread
      · have := hread.eq hy
        omega
    -- the sign of equality is in the first piece, so the second has digits only
    obtain ⟨name, value, rfl, hname⟩ := eq_append_cons_of_mem (reads_iff.mp hx9).1
    have hsame : nameOf (textOf (9, decimal n)) = name := by
      rw [ht, append_assoc, cons_append, nameOf_eq hname]
    rw [nameOf_textOf] at hsame
    rw [← hsame, append_assoc, cons_append] at ht
    have hdigits : decimal n = value ++ b₀ :: y := (List.cons.inj (append_cancel_left ht)).2
    have hmem : equals ∈ decimal n := by
      rw [hdigits]
      exact mem_append_right _ (mem_cons_of_mem _ (reads_iff.mp hy).1)
    exact absurd (isDigit_of_mem_decimal hmem) (by decide)

/-- Where a checksum was made out of another text, the length is still there, and the only one. -/
theorem Framed.measured (h : Framed cap delim begin_ fields) (hfront : (frontFields delim begin_ fields).map textOf = ts1 ++ t :: ts2)
    (hps : Pieces delim t b ps)
    (hlen : (flat delim (ts1 ++ ps ++ ts2)).length = (flat delim ((frontFields delim begin_ fields).map textOf)).length)
    (hten : ∃ u ∈ ts1 ++ ps ++ ts2, Reads u 10) (hnine : ∃ u ∈ ts1 ++ ps ++ ts2, Reads u 9) :
    ∃ A t9 B, ts1 ++ ps ++ ts2 = A ++ t9 :: B ∧ Measured delim A t9 B := by
  have hfrontReads := h.front_reads
  rw [hfront] at hfrontReads
  replace hten : ∃ u ∈ ps, Reads u 10 := by
    obtain ⟨u, hu, hread⟩ := hten
    simp only [mem_append] at hu
    rcases hu with (hu | hu) | hu
    · exact absurd hread (hfrontReads u (mem_append_left _ hu))
    · exact ⟨u, hu, hread⟩
    · exact absurd hread (hfrontReads u (mem_append_right _ (mem_cons_of_mem _ hu)))
  have hnineText : ∀ {B : List (List UInt8)}, (flat delim B).length = (flat delim (fields.map textOf)).length →
      readText (textOf (9, decimal (printFields delim fields).length)) = some { tag := 9, value := decimal (flat delim B).length } := by
    intro B hB
    have hlen := h.length_le
    have hshort : (decimal (printFields delim fields).length).length ≤ maxFixValue - 1 := by
      refine Nat.le_trans (decimal_length_le (k := 4) (by decide) ?_) (by decide)
      have hbody := h.body_length_le
      omega
    rw [readText_textOf _ (by decide) (by decide), take_of_length_le hshort, hB, printFields_flat]
    rfl
  have hbody := h.body_reads
  have hnot8 : ¬Reads (textOf (8, begin_)) 9 := fun hr => by
    have := reads_eight hr
    omega
  cases ts1 with
  | nil =>
    obtain ⟨rfl, hts2⟩ := List.cons.inj hfront
    subst hts2
    have hps9 := hps.not_nine hnot8 (hfrontReads _ mem_cons_self) hten
    exact ⟨ps, _, fields.map textOf, rfl, hnineText rfl, hps9, fun u hu => (hbody u hu).1⟩
  | cons t1 ts1 =>
    obtain ⟨rfl, hrest⟩ := List.cons.inj hfront
    cases ts1 with
    | nil =>
      obtain ⟨rfl, hts2⟩ := List.cons.inj hrest
      refine (hps.of_length hten ?_).elim
      obtain ⟨u, hu, hread⟩ := hnine
      simp only [cons_append, nil_append, mem_cons, mem_append] at hu
      rcases hu with rfl | hu | hu
      · exact absurd hread hnot8
      · exact ⟨u, hu, hread⟩
      · rw [← hts2] at hu
        exact absurd hread (hbody u hu).1
    | cons t2 r =>
      obtain ⟨rfl, hr⟩ := List.cons.inj hrest
      replace hr : fields.map textOf = r ++ t :: ts2 := hr
      rw [hr] at hbody
      have ht := hbody t (mem_append_right _ mem_cons_self)
      have hps9 := hps.not_nine ht.1 ht.2 hten
      have hB : (flat delim (r ++ ps ++ ts2)).length = (flat delim (fields.map textOf)).length := by
        have hcons : (frontFields delim begin_ fields).map textOf =
          textOf (8, begin_) :: textOf (9, decimal (printFields delim fields).length) :: fields.map textOf := rfl
        rw [hcons, cons_append, cons_append, cons_append, cons_append, flat_length_cons, flat_length_cons,
          flat_length_cons, flat_length_cons] at hlen
        omega
      refine ⟨[textOf (8, begin_)], _, r ++ ps ++ ts2, rfl, hnineText hB, ?_, ?_⟩
      · intro u hu
        rw [mem_singleton.mp hu]
        exact hnot8
      · intro u hu
        simp only [mem_append] at hu
        rcases hu with (hu | hu) | hu
        · exact (hbody u (mem_append_left _ hu)).1
        · exact hps9 u hu
        · exact (hbody u (mem_append_right _ (mem_cons_of_mem _ hu))).1

/-! ## Undetected changes -/

theorem not_forged_of_no_ten (hts : ∀ t ∈ ts, delim ∉ t) (hx : delim ∉ x) (h10 : ∀ t ∈ ts ++ [x], ¬Reads t 10) :
    ¬Forged delim (flat delim ts ++ x) := by
  intro hf
  obtain ⟨f, hfirst, -⟩ := hf.checksum
  obtain ⟨hmem, htag⟩ := mem_of_find? hfirst
  unfold fieldsOf at hmem
  rw [splitOn_flat hts hx] at hmem
  obtain ⟨t, ht, hread⟩ := (exists_reads_iff _ 10).mp ⟨f, hmem, htag⟩
  exact h10 t ht hread

/-- A byte that the message has none of. -/
theorem Framed.front_free (h : Framed cap delim begin_ fields) {b : UInt8} (hdelim : b ≠ delim) (hb : b = 0 ∨ b = soh) :
    b ∉ frontBytes delim begin_ fields := by
  have hclean : ∀ f ∈ (8, begin_) :: fields, b ∉ f.2 := by
    intro f hf
    rcases hb with rfl | rfl
    · exact (h.clean f hf).2.2
    · exact (h.clean f hf).2.1
  unfold frontBytes
  rw [printFields_flat]
  refine not_mem_flat hdelim (front_not_mem ?_ ?_ hclean)
  · rcases hb with rfl | rfl <;> decide
  · rcases hb with rfl | rfl <;> decide

theorem Framed.length_front_le (h : Framed cap delim begin_ fields) :
    (frontBytes delim begin_ fields).length +
      (sumText (computeChecksum (frontBytes delim begin_ fields)) ++ [delim]).length ≤ 1023 := by
  have hlen := h.length_le
  rw [h.message_eq, length_append] at hlen
  exact hlen

/-- A NUL ends the message before its checksum. -/
theorem Framed.cut_invalid (h : Framed cap delim begin_ fields) (hbytes : frontBytes delim begin_ fields = before ++ b₀ :: after)
    (rest : List UInt8) : (FIXMessage.parse (before ++ 0 :: rest)).isValid = false := by
  have hlen := h.length_front_le
  have hmem : ∀ {b}, b ∈ before → b ∈ frontBytes delim begin_ fields := fun hb => by
    rw [hbytes]
    exact mem_append_left _ hb
  have hnul : 0 ∉ before := fun h0 => h.front_free (delim_ne_zero h.delimiter).symm (.inl rfl) (hmem h0)
  have hcopy : FIXMessage.workingCopy (before ++ 0 :: rest) = before := by
    unfold FIXMessage.workingCopy cString
    rw [hbytes, length_append, length_append] at hlen
    rw [takeWhile_ne_append hnul, take_of_length_le (by omega)]
  rw [← Bool.not_eq_true]
  intro hvalid
  obtain ⟨f, hf, htag⟩ := FIXMessage.exists_field_of_isValid hvalid 10 (by simp)
  replace hf := FIXMessage.parse_fields_mem _ f hf
  rw [hcopy] at hf
  have hfront := hbytes
  unfold frontBytes at hfront
  rw [printFields_flat] at hfront
  obtain ⟨ts1, t, ts2, hts, hcase⟩ := split_flat hfront
  have htext : ∀ u ∈ ts1 ++ t :: ts2, ¬Reads u 10 := hts ▸ h.front_reads
  have hwhole : ∀ u ∈ ts1 ++ t :: ts2, delim ∉ u := hts ▸ h.whole
  -- what is left is some of the texts, and the beginning of another
  obtain ⟨x, z, hx, hbefore⟩ : ∃ x z, t = x ++ z ∧ before = flat delim ts1 ++ x := by
    rcases hcase with ⟨x, y, hx, hbefore, -⟩ | ⟨-, hbefore, -⟩
    · exact ⟨x, b₀ :: y, hx, hbefore⟩
    · exact ⟨t, [], (append_nil t).symm, hbefore⟩
  have hx10 : ¬Reads x 10 := fun hr => htext t (mem_append_right _ mem_cons_self) (hx ▸ hr.append z)
  have hxdelim : delim ∉ x := fun hd =>
    hwhole t (mem_append_right _ mem_cons_self) (hx ▸ mem_append_left z hd)
  have hsplit : ∀ d, fieldsOf d before = (ts1 ++ [x]).filterMap readText → f ∉ fieldsOf d before := by
    intro d hd hf
    rw [hd] at hf
    obtain ⟨u, hu, hread⟩ := (exists_reads_iff _ 10).mp ⟨f, hf, htag⟩
    rcases mem_append.mp hu with hu | hu
    · exact htext u (mem_append_left _ hu) hread
    · rw [mem_singleton.mp hu] at hread
      exact hx10 hread
  have hown : fieldsOf delim before = (ts1 ++ [x]).filterMap readText := by
    unfold fieldsOf
    rw [hbefore, splitOn_flat (fun u hu => hwhole u (mem_append_left _ hu)) hxdelim]
  split at hf
  · rename_i hsoh
    rcases h.delimiter with rfl | hd
    · exact hsplit _ hown hf
    · exact h.front_free (by rw [hd]; decide) (.inr rfl) (hmem hsoh)
  · rename_i hnone
    rcases h.delimiter with rfl | rfl
    · -- no SOH is left, so the cut is in the begin string
      cases ts1 with
      | cons u us =>
        rw [hbefore, flat_cons] at hnone
        exact hnone (mem_append_left _ (mem_append_right _ mem_cons_self))
      | nil =>
        have hbegin : t = textOf (8, begin_) := (List.cons.inj hts).1.symm
        have hbar : '|'.toUInt8 ∉ before := by
          intro hb
          rw [hbefore] at hb
          have hmem : '|'.toUInt8 ∈ textOf (8, begin_) := by
            rw [← hbegin, hx]
            exact mem_append_left z hb
          exact not_mem_textOf (by decide) (by decide) h.begin_plain hmem
        refine hsplit _ ?_ hf
        unfold fieldsOf
        rw [splitOn_eq_singleton hbar, hbefore]
        rfl
    · exact hsplit _ hown hf

/-- The one SOH of a message with another delimiter leaves it two texts. -/
theorem soh_invalid (hbefore : soh ∉ before) (hafter : soh ∉ after) (hnul : 0 ∉ before ++ soh :: after)
    (hlen : (before ++ soh :: after).length ≤ 1023) (junk : List UInt8) :
    (FIXMessage.parse (before ++ soh :: after ++ 0 :: junk)).isValid = false := by
  have hcopy : FIXMessage.workingCopy (before ++ soh :: after ++ 0 :: junk) = before ++ soh :: after := by
    unfold FIXMessage.workingCopy cString
    rw [takeWhile_ne_append hnul, take_of_length_le hlen]
  rw [← Bool.not_eq_true]
  intro hvalid
  have hreads : ∀ tag ∈ [(8 : Int), 9, 35, 10], Reads before tag ∨ Reads after tag := by
    intro tag htag
    obtain ⟨f, hf, hft⟩ := FIXMessage.exists_field_of_isValid hvalid tag htag
    replace hf := FIXMessage.parse_fields_mem _ f hf
    rw [hcopy, if_pos (mem_append_right _ mem_cons_self)] at hf
    unfold fieldsOf at hf
    rw [splitOn_append_cons_self_of_not_mem hbefore, splitOn_eq_singleton hafter] at hf
    obtain ⟨u, hu, hread⟩ := (exists_reads_iff _ tag).mp ⟨f, hf, hft⟩
    simp only [mem_cons, not_mem_nil, or_false] at hu
    rcases hu with rfl | rfl
    · exact .inl hread
    · exact .inr hread
  have hdistinct : ∀ {t : List UInt8} {a a' : Int}, Reads t a → Reads t a' → a ≠ a' → False := fun hr hr' hne => hne (hr.eq hr')
  rcases hreads 8 (by simp) with h8 | h8 <;> rcases hreads 9 (by simp) with h9 | h9 <;>
    rcases hreads 35 (by simp) with h35 | h35
  · exact hdistinct h8 h9 (by decide)
  · exact hdistinct h8 h9 (by decide)
  · exact hdistinct h8 h35 (by decide)
  · exact hdistinct h9 h35 (by decide)
  · exact hdistinct h9 h35 (by decide)
  · exact hdistinct h8 h35 (by decide)
  · exact hdistinct h8 h9 (by decide)
  · exact hdistinct h8 h9 (by decide)

theorem readText_sumText (sum : Nat) : readText (sumText sum) = some { tag := 10, value := decimal3 sum } := by
  have hshort : (decimal3 sum).take (maxFixValue - 1) = decimal3 sum := take_of_length_le (by simp [decimal3, maxFixValue])
  unfold sumText
  rw [readText_textOf _ (by decide) (by decide), hshort]
  rfl

theorem not_mem_sumText {b : UInt8} (hdigit : ¬IsDigit b) (heq : b ≠ equals) (sum : Nat) : b ∉ sumText sum :=
  not_mem_textOf hdigit heq fun hb => hdigit (isDigit_of_mem_decimal3 hb)

theorem Framed.sent (h : Framed cap delim begin_ fields) {b : UInt8}
    (hbytes : frontBytes delim begin_ fields = before ++ b₀ :: after) (hnul : b ≠ 0) (hsoh : delim = soh ∨ b ≠ soh)
    (hflat : flat delim ts = before ++ b :: after ++ (sumText (computeChecksum (frontBytes delim begin_ fields)) ++ [delim]))
    (hwhole : ∀ t ∈ ts, delim ∉ t) : Sent delim ts := by
  have hfree : ∀ {c : UInt8}, c ≠ b → c ≠ delim → (c = 0 ∨ c = soh) → c ∉ flat delim ts := by
    intro c hcb hcd hc hmem
    have hdigit : ¬IsDigit c := by rcases hc with rfl | rfl <;> decide
    have heq : c ≠ equals := by rcases hc with rfl | rfl <;> decide
    have hfront := h.front_free hcd hc
    rw [hbytes] at hfront
    rw [hflat] at hmem
    simp only [mem_append, mem_cons, not_mem_nil, or_false] at hmem hfront
    rcases hmem with (hmem | hmem | hmem) | hmem | hmem
    · exact hfront (.inl hmem)
    · exact hcb hmem
    · exact hfront (.inr (.inr hmem))
    · exact not_mem_sumText hdigit heq _ hmem
    · exact hcd hmem
  have hlen := h.length_front_le
  constructor
  · exact hwhole
  · exact hfree hnul.symm (delim_ne_zero h.delimiter).symm (.inl rfl)
  · rcases h.delimiter with rfl | rfl
    · exact .inl rfl
    · right
      exact ⟨rfl, hfree (hsoh.resolve_left (by decide)).symm (by decide) (.inr rfl)⟩
  · rw [hbytes] at hlen
    rw [hflat, hbytes]
    simp only [length_append, length_cons] at hlen ⊢
    exact hlen

/-- The change is in a text. -/
theorem Framed.struck_text (h : Framed cap delim begin_ fields) (hfront : (frontFields delim begin_ fields).map textOf = ts1 ++ t :: ts2)
    (hps : Pieces delim t b ps) (hs : Sent delim (ts1 ++ ps ++ ts2 ++ [sumText (computeChecksum (frontBytes delim begin_ fields))]))
    (hlen : (flat delim (ts1 ++ ps ++ ts2)).length = (flat delim ((frontFields delim begin_ fields).map textOf)).length)
    (hwrong : computeChecksum (flat delim (ts1 ++ ps ++ ts2)) ≠ computeChecksum (frontBytes delim begin_ fields)) (junk : List UInt8) :
    (FIXMessage.parse (flat delim (ts1 ++ ps ++ ts2 ++ [sumText (computeChecksum (frontBytes delim begin_ fields))]) ++
      0 :: junk)).isValid = true ↔ Forged delim (flat delim (ts1 ++ ps ++ ts2)) := by
  have hread := readText_sumText (computeChecksum (frontBytes delim begin_ fields))
  have hnumber := atoi_decimal3 (Nat.lt_trans (computeChecksum_lt (frontBytes delim begin_ fields)) (by decide))
  generalize sumText (computeChecksum (frontBytes delim begin_ fields)) = last at hread hs ⊢
  have hnot9 : ¬Reads last 9 := fun hr => by
    have heq : (9 : Int) = 10 := hr.eq ⟨_, hread, rfl⟩
    omega
  constructor
  · intro hvalid
    by_cases hroom : ((ts1 ++ ps ++ ts2).filterMap readText).length < maxFixTags
    · refine hs.forged hread rfl ?_ hroom hvalid
      rw [hnumber]
      exact fun e => hwrong (Int.ofNat.inj e).symm
    · -- the loop ends before the last text, and what it read has a length and a checksum
      exfalso
      have hin : ∀ {f : FIXField}, f ∈ ((ts1 ++ ps ++ ts2 ++ [last]).filterMap readText).take maxFixTags →
          f ∈ (ts1 ++ ps ++ ts2).filterMap readText := by
        intro f hf
        rw [filterMap_append, take_append_of_le_length (by omega)] at hf
        exact mem_of_mem_take hf
      obtain ⟨-, -, ⟨f10, -, h10, -⟩, f9, -, -, h9, -⟩ := (hs.isValid_iff (by simp) junk).mp hvalid
      obtain ⟨hmem10, htag10⟩ := mem_of_find? h10
      obtain ⟨hmem9, htag9⟩ := mem_of_find? h9
      obtain ⟨A, t9, B, hparts, hmeasured⟩ := h.measured hfront hps hlen
        ((exists_reads_iff _ 10).mp ⟨f10, hin hmem10, htag10⟩) ((exists_reads_iff _ 9).mp ⟨f9, hin hmem9, htag9⟩)
      rw [hparts] at hs hroom hvalid
      rw [hmeasured.full_invalid hs hnot9 (by omega) junk] at hvalid
      cases hvalid
  · intro hf
    have hts : ∀ u ∈ ts1 ++ ps ++ ts2, delim ∉ u := fun u hu => hs.whole u (mem_append_left _ hu)
    obtain ⟨f, hfirst, -⟩ := hf.checksum
    have hnine := hf.header 9 (by simp)
    rw [fieldsOf_flat hts] at hfirst hnine
    obtain ⟨hmem, htag⟩ := mem_of_find? hfirst
    obtain ⟨A, t9, B, hparts, hmeasured⟩ := h.measured hfront hps hlen ((exists_reads_iff _ 10).mp ⟨f, hmem, htag⟩)
      ((exists_reads_iff _ 9).mp hnine)
    rw [hparts] at hs hf ⊢
    exact hmeasured.valid hs hread rfl hf junk

/-- A byte becomes NUL. -/
theorem Framed.struck_nul (h : Framed cap delim begin_ fields) (hbytes : frontBytes delim begin_ fields = before ++ b₀ :: after)
    (tail : List UInt8) :
    (FIXMessage.parse (before ++ 0 :: after ++ tail)).isValid = true ↔ Forged delim (before ++ 0 :: after) := by
  have hcut := h.cut_invalid hbytes (after ++ tail)
  rw [append_assoc, cons_append, hcut]
  refine ⟨fun hvalid => (by cases hvalid), fun hf => absurd ?_ hf.nul⟩
  exact mem_append_right _ mem_cons_self

/-- A byte of a message with another delimiter becomes SOH. -/
theorem Framed.struck_soh (h : Framed cap delim begin_ fields) (hbytes : frontBytes delim begin_ fields = before ++ b₀ :: after)
    (hdelim : delim ≠ soh) (junk : List UInt8) :
    (FIXMessage.parse (before ++ soh :: after ++ (sumText (computeChecksum (frontBytes delim begin_ fields)) ++ [delim]) ++
      0 :: junk)).isValid = true ↔ Forged delim (before ++ soh :: after) := by
  have hlen := h.length_front_le
  have hfree := h.front_free hdelim.symm (.inr rfl)
  have hnone : (0 : UInt8) ∉ frontBytes delim begin_ fields := h.front_free (delim_ne_zero h.delimiter).symm (.inl rfl)
  have hsum : soh ∉ sumText (computeChecksum (frontBytes delim begin_ fields)) := not_mem_sumText (by decide) (by decide) _
  have hsum0 : 0 ∉ sumText (computeChecksum (frontBytes delim begin_ fields)) := not_mem_sumText (by decide) (by decide) _
  generalize sumText (computeChecksum (frontBytes delim begin_ fields)) = last at hlen hsum hsum0 ⊢
  rw [hbytes] at hfree hnone hlen
  simp only [mem_append, mem_cons, not_or] at hfree hnone
  have hinvalid : (FIXMessage.parse (before ++ soh :: (after ++ (last ++ [delim])) ++ 0 :: junk)).isValid = false := by
    refine soh_invalid hfree.1 ?_ ?_ ?_ junk
    · simp only [mem_append, mem_cons, not_mem_nil, or_false, not_or]
      exact ⟨hfree.2.2, hsum, hdelim.symm⟩
    · simp only [mem_append, mem_cons, not_mem_nil, or_false, not_or]
      exact ⟨hnone.1, by decide, hnone.2.2, hsum0, (delim_ne_zero h.delimiter).symm⟩
    · simp only [length_append, length_cons] at hlen ⊢
      omega
  rw [← cons_append, ← append_assoc] at hinvalid
  rw [hinvalid]
  refine ⟨fun hvalid => (by cases hvalid), fun hf => ?_⟩
  rcases hf.delimiter with hd | hd
  · exact absurd hd hdelim
  · exact absurd (mem_append_right _ mem_cons_self) hd

/-- A text of the front reads as no checksum, however it goes on. -/
theorem Framed.not_reads_ten (h : Framed cap delim begin_ fields) (hts : (frontFields delim begin_ fields).map textOf = ts1 ++ t :: ts2)
    (z : List UInt8) : ¬Reads (t ++ z) 10 := by
  have hmem : t ∈ (frontFields delim begin_ fields).map textOf := hts ▸ mem_append_right _ mem_cons_self
  have hequals : equals ∈ t := by
    obtain ⟨f, -, rfl⟩ := mem_map.mp hmem
    exact equals_mem_textOf f
  exact fun hr => h.front_reads t hmem ((reads_append hequals z).mp hr)

/-- The delimiter of the last text of the front: it goes on into the checksum. -/
theorem Framed.struck_last (h : Framed cap delim begin_ fields) {b : UInt8} (hbdelim : b ≠ delim) (hnul : b ≠ 0)
    (hsoh : delim = soh ∨ b ≠ soh) (hts : (frontFields delim begin_ fields).map textOf = ts1 ++ [t]) (junk : List UInt8) :
    (FIXMessage.parse (flat delim ts1 ++ t ++ [b] ++ (sumText (computeChecksum (frontBytes delim begin_ fields)) ++ [delim]) ++
      0 :: junk)).isValid = true ↔ Forged delim (flat delim ts1 ++ t ++ [b]) := by
  have hwhole := h.whole
  have hten := h.front_reads
  have hjoined := h.not_reads_ten hts
  rw [hts] at hwhole hten
  have hwhole1 : ∀ u ∈ ts1, delim ∉ u := fun u hu => hwhole u (mem_append_left _ hu)
  have ht := hwhole t (mem_append_right _ mem_cons_self)
  have hbytes : frontBytes delim begin_ fields = (flat delim ts1 ++ t) ++ delim :: [] := by
    unfold frontBytes
    rw [printFields_flat, hts]
    simp [flat]
  have hall : flat delim (ts1 ++ [t ++ b :: sumText (computeChecksum (frontBytes delim begin_ fields))]) =
      (flat delim ts1 ++ t) ++ b :: [] ++ (sumText (computeChecksum (frontBytes delim begin_ fields)) ++ [delim]) := by
    simp [flat]
  have hs := h.sent hbytes hnul hsoh hall fun u hu => by
    rcases mem_append.mp hu with hu | hu
    · exact hwhole1 u hu
    · rw [mem_singleton.mp hu]
      simp only [mem_append, mem_cons, not_or]
      exact ⟨ht, hbdelim.symm, not_mem_sumText (delim_not_digit h.delimiter) (delim_ne_equals h.delimiter) _⟩
  have hinvalid : (FIXMessage.parse (flat delim (ts1 ++ [t ++ b :: sumText (computeChecksum (frontBytes delim begin_ fields))]) ++
      0 :: junk)).isValid = false := by
    refine hs.invalid_of_no_ten (fun u hu => ?_) junk
    rcases mem_append.mp hu with hu | hu
    · exact hten u (mem_append_left _ hu)
    · rw [mem_singleton.mp hu]
      exact hjoined _
  rw [← hall, hinvalid, append_assoc]
  refine ⟨fun hvalid => (by cases hvalid), fun hf => absurd hf (not_forged_of_no_ten hwhole1 ?_ fun u hu => ?_)⟩
  · simp only [mem_append, mem_singleton, not_or]
    exact ⟨ht, hbdelim.symm⟩
  · rcases mem_append.mp hu with hu | hu
    · exact hten u (mem_append_left _ hu)
    · rw [mem_singleton.mp hu]
      exact hjoined _

/-- The delimiter between two texts of the front: they become one. -/
theorem Framed.struck_joint (h : Framed cap delim begin_ fields) {b : UInt8} (hbdelim : b ≠ delim) (hnul : b ≠ 0)
    (hsoh : delim = soh ∨ b ≠ soh) {t' : List UInt8} (hts : (frontFields delim begin_ fields).map textOf = ts1 ++ t :: t' :: ts2)
    (junk : List UInt8) :
    (FIXMessage.parse (flat delim ts1 ++ t ++ b :: flat delim (t' :: ts2) ++
      (sumText (computeChecksum (frontBytes delim begin_ fields)) ++ [delim]) ++ 0 :: junk)).isValid = true ↔
      Forged delim (flat delim ts1 ++ t ++ b :: flat delim (t' :: ts2)) := by
  have hten := h.front_reads
  have hwhole := h.whole
  have hjoined := h.not_reads_ten hts
  have hmax := h.fields_le
  have hcount := congrArg List.length hts
  rw [hts] at hwhole hten
  have hbytes : frontBytes delim begin_ fields = (flat delim ts1 ++ t) ++ delim :: flat delim (t' :: ts2) := by
    unfold frontBytes
    rw [printFields_flat, hts]
    simp [flat]
  have hflat : flat delim ts1 ++ t ++ b :: flat delim (t' :: ts2) = flat delim (ts1 ++ (t ++ b :: t') :: ts2) := by
    simp [flat]
  have hall : flat delim (ts1 ++ (t ++ b :: t') :: ts2 ++ [sumText (computeChecksum (frontBytes delim begin_ fields))]) =
      flat delim ts1 ++ t ++ b :: flat delim (t' :: ts2) ++ (sumText (computeChecksum (frontBytes delim begin_ fields)) ++ [delim]) := by
    rw [flat_append, hflat, flat_cons]
    rfl
  have hwhole' : ∀ u ∈ ts1 ++ (t ++ b :: t') :: ts2, delim ∉ u := by
    intro u hu
    rcases mem_append.mp hu with hu | hu
    · exact hwhole u (mem_append_left _ hu)
    · rcases mem_cons.mp hu with rfl | hu
      · simp only [mem_append, mem_cons, not_or]
        exact ⟨hwhole t (by simp), hbdelim.symm, hwhole t' (by simp)⟩
      · exact hwhole u (by simp [hu])
  have hten' : ∀ u ∈ ts1 ++ (t ++ b :: t') :: ts2, ¬Reads u 10 := by
    intro u hu
    rcases mem_append.mp hu with hu | hu
    · exact hten u (mem_append_left _ hu)
    · rcases mem_cons.mp hu with rfl | hu
      · exact hjoined _
      · exact hten u (by simp [hu])
  have hs := h.sent hbytes hnul hsoh hall fun u hu => by
    rcases mem_append.mp hu with hu | hu
    · exact hwhole' u hu
    · rw [mem_singleton.mp hu]
      exact not_mem_sumText (delim_not_digit h.delimiter) (delim_ne_equals h.delimiter) _
  have hroom : ((ts1 ++ (t ++ b :: t') :: ts2).filterMap readText).length < maxFixTags := by
    have hle := length_filterMap_le readText (ts1 ++ (t ++ b :: t') :: ts2)
    simp only [frontFields, length_map, length_append, length_cons, maxFixTags] at hcount hle ⊢
    omega
  have hwrong : computeChecksum (flat delim (ts1 ++ (t ++ b :: t') :: ts2)) ≠ computeChecksum (frontBytes delim begin_ fields) := by
    rw [← hflat, hbytes]
    exact computeChecksum_ne hbdelim
  have hnumber := atoi_decimal3 (Nat.lt_trans (computeChecksum_lt (frontBytes delim begin_ fields)) (by decide))
  rw [← hall, hflat]
  refine ⟨fun hvalid => hs.forged (readText_sumText _) rfl ?_ hroom hvalid, fun hf => ?_⟩
  · rw [hnumber]
    exact fun e => hwrong (Int.ofNat.inj e).symm
  · obtain ⟨f, hfirst, -⟩ := hf.checksum
    rw [fieldsOf_flat hwhole'] at hfirst
    obtain ⟨hmem, htag⟩ := mem_of_find? hfirst
    obtain ⟨u, hu, hread⟩ := (exists_reads_iff _ 10).mp ⟨f, hmem, htag⟩
    exact absurd hread (hten' u hu)

/-- The pieces of a text with their place in the front. -/
theorem exists_pieces {y : List UInt8} (ht : delim ∉ x ++ b₀ :: y) (b : UInt8) (ts1 ts2 : List (List UInt8)) :
    ∃ ps, Pieces delim (x ++ b₀ :: y) b ps ∧
      flat delim ts1 ++ x ++ b :: (y ++ delim :: flat delim ts2) = flat delim (ts1 ++ ps ++ ts2) ∧ ∀ u ∈ ps, delim ∉ u := by
  simp only [mem_append, mem_cons, not_or] at ht
  by_cases hbd : b = delim
  · refine ⟨[x, y], ⟨x, b₀, y, rfl, .inr ⟨hbd, rfl⟩⟩, ?_, ?_⟩
    · rw [hbd]
      simp [flat]
    · intro u hu
      simp only [mem_cons, not_mem_nil, or_false] at hu
      rcases hu with rfl | rfl
      · exact ht.1
      · exact ht.2.2
  · refine ⟨[x ++ b :: y], ⟨x, b₀, y, rfl, .inl ⟨hbd, rfl⟩⟩, ?_, ?_⟩
    · simp [flat]
    · intro u hu
      rw [mem_singleton.mp hu]
      simp only [mem_append, mem_cons, not_or]
      exact ⟨ht.1, fun e => hbd e.symm, ht.2.2⟩

/-- The changed message passes exactly when its front carries a checksum of its own. -/
theorem Framed.undetected_iff (h : Framed cap delim begin_ fields) {b : UInt8}
    (hbytes : frontBytes delim begin_ fields = before ++ b₀ :: after) (hne : b ≠ b₀) (junk : List UInt8) :
    (FIXMessage.parse (before ++ b :: after ++ (sumText (computeChecksum (frontBytes delim begin_ fields)) ++ [delim]) ++
      0 :: junk)).isValid = true ↔ Forged delim (before ++ b :: after) := by
  by_cases hnul : b = 0
  · rw [hnul, append_assoc]
    exact h.struck_nul hbytes _
  by_cases hsoh : delim = soh ∨ b ≠ soh
  case neg =>
    obtain ⟨hdelim, hb⟩ := not_or.mp hsoh
    obtain rfl := not_not.mp hb
    exact h.struck_soh hbytes hdelim junk
  have hfront := hbytes
  unfold frontBytes at hfront
  rw [printFields_flat] at hfront
  obtain ⟨ts1, t, ts2, hts, ⟨x, y, rfl, rfl, rfl⟩ | ⟨rfl, rfl, rfl⟩⟩ := split_flat hfront
  · -- the byte is in a text, which it changes or cuts in two
    have hwhole := h.whole
    rw [hts] at hwhole
    obtain ⟨ps, hps, hflat, hpsWhole⟩ := exists_pieces (hwhole (x ++ b₀ :: y) (by simp)) b ts1 ts2
    have hall : flat delim (ts1 ++ ps ++ ts2 ++ [sumText (computeChecksum (frontBytes delim begin_ fields))]) =
        flat delim ts1 ++ x ++ b :: (y ++ delim :: flat delim ts2) ++
          (sumText (computeChecksum (frontBytes delim begin_ fields)) ++ [delim]) := by
      rw [flat_append, hflat, flat_cons]
      rfl
    have hs := h.sent hbytes hnul hsoh hall fun u hu => by
      simp only [mem_append, mem_cons, not_mem_nil, or_false] at hu
      rcases hu with ((hu | hu) | hu) | rfl
      · exact hwhole u (by simp [hu])
      · exact hpsWhole u hu
      · exact hwhole u (by simp [hu])
      · exact not_mem_sumText (delim_not_digit h.delimiter) (delim_ne_equals h.delimiter) _
    have hlength : (flat delim (ts1 ++ ps ++ ts2)).length = (flat delim ((frontFields delim begin_ fields).map textOf)).length := by
      rw [← hflat, hfront]
      simp
    have hwrong : computeChecksum (flat delim (ts1 ++ ps ++ ts2)) ≠ computeChecksum (frontBytes delim begin_ fields) := by
      rw [← hflat, hbytes]
      exact computeChecksum_ne hne
    rw [← hall, hflat]
    exact h.struck_text hts hps hs hlength hwrong junk
  · -- the byte is the delimiter of a text, which goes on into the next
    cases ts2 with
    | nil => exact h.struck_last hne hnul hsoh hts junk
    | cons t' ts2 => exact h.struck_joint hne hnul hsoh hts junk

end

/-- Over every built message, every byte before the last field and every other byte in its place. -/
theorem corruption_detected_iff {cap : Int} {delim : UInt8} {begin_ : List UInt8} {fields : List Pair}
    (h : Framed cap delim begin_ fields) (i : Nat) (hi : i < (frontBytes delim begin_ fields).length) (b : UInt8)
    (hb : (frontBytes delim begin_ fields)[i]? ≠ some b) (junk : List UInt8) :
    (FIXMessage.parse ((buildMessage cap (printFields delim fields) begin_ delim).set i b ++ 0 :: junk)).isValid = false ↔
      ¬Forged delim ((frontBytes delim begin_ fields).set i b) := by
  have hsplit : frontBytes delim begin_ fields = (frontBytes delim begin_ fields).take i ++
      (frontBytes delim begin_ fields)[i] :: (frontBytes delim begin_ fields).drop (i + 1) := by
    simp
  have hset : (frontBytes delim begin_ fields).set i b = (frontBytes delim begin_ fields).take i ++
      b :: (frontBytes delim begin_ fields).drop (i + 1) := List.set_eq_take_append_cons_drop.trans (if_pos hi)
  have hne : b ≠ (frontBytes delim begin_ fields)[i] := by
    intro e
    rw [List.getElem?_eq_getElem hi, ← e] at hb
    exact hb rfl
  rw [← Bool.not_eq_true, h.message_eq, List.set_append_left _ _ hi, hset, h.undetected_iff hsplit hne]

/-- A limit order of two. -/
def sampleOrder : List Pair := [(35, ascii "D"), (11, ascii "190"), (55, ascii "AAPL"), (44, ascii "2")]

theorem framed_sampleOrder : Framed 1000 soh (ascii "FIX.4.2") sampleOrder where
  delimiter := .inl rfl
  fields_le := by decide
  tag := by decide +kernel
  value_lt := by decide
  clean := (by decide +kernel : ∀ f ∈ (8, ascii "FIX.4.2") :: sampleOrder, soh ∉ f.2 ∧ soh ∉ f.2 ∧ 0 ∉ f.2)
  begin_plain := by decide
  room := by decide +kernel
  length_le := by decide +kernel

/-- The id of the order, its second digit a 0 on the wire, reads as the checksum of the changed bytes. -/
theorem forged_undetected :
    ¬∀ i < (frontBytes soh (ascii "FIX.4.2") sampleOrder).length, ∀ b, (frontBytes soh (ascii "FIX.4.2") sampleOrder)[i]? ≠ some b →
      (FIXMessage.parse ((buildMessage 1000 (printFields soh sampleOrder) (ascii "FIX.4.2") soh).set i b ++ [0])).isValid = false := by
  intro h
  have hdetected := h 21 (by decide +kernel) 48 (by decide +kernel)
  have hpassed : (FIXMessage.parse ((buildMessage 1000 (printFields soh sampleOrder) (ascii "FIX.4.2") soh).set 21 48 ++ [0])).isValid =
      true := by decide +kernel
  rw [hpassed] at hdetected
  cases hdetected

/-- The price of the order becomes 9. -/
theorem corruption_detected_iff_sample :
    (FIXMessage.parse ((buildMessage 1000 (printFields soh sampleOrder) (ascii "FIX.4.2") soh).set 37 57 ++ [0])).isValid = false ↔
      ¬Forged soh ((frontBytes soh (ascii "FIX.4.2") sampleOrder).set 37 57) :=
  corruption_detected_iff framed_sampleOrder 37 (by decide +kernel) 57 (by decide +kernel) []

end HftLab.Fix
