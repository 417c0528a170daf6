/-
  HftLab.Fix.Scanning — what the loop of `parse` makes of any bytes, valid or not.

  The loop takes the bytes text by text, up to the next delimiter. `readText` is what one text reads as; `fieldsOf` what the texts of
  a message do. The loop collects the first 32 of them (`scanTexts_fields`), with the offset of the last checksum and that of the
  first text after the last length; `validate_isValid` says when these are the offsets of a valid message.
-/

import HftLab.Fix.RoundTrip

namespace HftLab.Fix

open Lib List

/-- The texts, each with its delimiter. -/
def flat (delim : UInt8) (texts : List (List UInt8)) : List UInt8 := texts.flatMap (· ++ [delim])

def nameOf (text : List UInt8) : List UInt8 := text.takeWhile (· ≠ equals)

/-- The field that a text is read as, if it has a tag. -/
def readText (text : List UInt8) : Option FIXField :=
  if equals ∈ text ∧ nameOf text ≠ [] ∧ 0 < atoi (nameOf text) then
    some { tag := atoi (nameOf text), value := (text.drop ((nameOf text).length + 1)).take (maxFixValue - 1) }
  else none

def fieldsOf (delim : UInt8) (bytes : List UInt8) : List FIXField := (bytes.splitOn delim).filterMap readText

section

variable {delim : UInt8} {t x : List UInt8} {ts : List (List UInt8)} {f : FIXField}

theorem flat_cons (delim : UInt8) (t : List UInt8) (ts : List (List UInt8)) : flat delim (t :: ts) = t ++ delim :: flat delim ts := by
  simp [flat]

theorem flat_append (delim : UInt8) (ts ts' : List (List UInt8)) : flat delim (ts ++ ts') = flat delim ts ++ flat delim ts' :=
  flatMap_append

theorem nameOf_eq {name : List UInt8} (h : equals ∉ name) (value : List UInt8) : nameOf (name ++ equals :: value) = name :=
  takeWhile_ne_append h value

theorem nameOf_append (h : equals ∈ t) (x : List UInt8) : nameOf (t ++ x) = nameOf t := by
  obtain ⟨name, value, rfl, hname⟩ := eq_append_cons_of_mem h
  rw [append_assoc, cons_append, nameOf_eq hname, nameOf_eq hname]

theorem nameOf_length_lt_iff : (nameOf t).length < t.length ↔ equals ∈ t := by
  constructor
  · intro hlt
    by_contra hnone
    have hall : nameOf t = t := takeWhile_eq_self_iff.mpr fun b hb => decide_eq_true fun (e : b = equals) => hnone (e ▸ hb)
    rw [hall] at hlt
    exact Nat.lt_irrefl _ hlt
  · intro h
    obtain ⟨name, value, rfl, hname⟩ := eq_append_cons_of_mem h
    rw [nameOf_eq hname, length_append, length_cons]
    omega

theorem splitOn_flat (h : ∀ t ∈ ts, delim ∉ t) (hx : delim ∉ x) : (flat delim ts ++ x).splitOn delim = ts ++ [x] := by
  induction ts with
  | nil => exact splitOn_eq_singleton hx
  | cons t ts ih =>
    rw [flat_cons, append_assoc, cons_append, splitOn_append_cons_self_of_not_mem (h t mem_cons_self),
      ih fun t' ht' => h t' (mem_cons_of_mem _ ht')]
    rfl

theorem fieldsOf_flat (h : ∀ t ∈ ts, delim ∉ t) : fieldsOf delim (flat delim ts) = ts.filterMap readText := by
  have hsplit := splitOn_flat h not_mem_nil
  rw [append_nil] at hsplit
  unfold fieldsOf
  rw [hsplit, filterMap_append]
  show _ ++ [] = _
  rw [append_nil]


variable {a a' : Int}

/-- The text is read as a field of the tag. -/
def Reads (t : List UInt8) (tag : Int) : Prop := ∃ f, readText t = some f ∧ f.tag = tag

theorem exists_reads_iff (ts : List (List UInt8)) (a : Int) : (∃ f ∈ ts.filterMap readText, f.tag = a) ↔ ∃ t ∈ ts, Reads t a := by
  constructor
  · intro h
    obtain ⟨f, hf, hfa⟩ := h
    obtain ⟨t, ht, hread⟩ := mem_filterMap.mp hf
    exact ⟨t, ht, f, hread, hfa⟩
  · intro h
    obtain ⟨t, ht, f, hread, hfa⟩ := h
    exact ⟨f, mem_filterMap.mpr ⟨t, ht, hread⟩, hfa⟩

theorem Reads.eq (h : Reads t a) (h' : Reads t a') : a = a' := by
  obtain ⟨f, hf, rfl⟩ := h
  obtain ⟨f', hf', rfl⟩ := h'
  rw [hf] at hf'
  cases hf'
  rfl

theorem reads_iff : Reads t a ↔ equals ∈ t ∧ nameOf t ≠ [] ∧ 0 < a ∧ a = atoi (nameOf t) := by
  unfold Reads readText
  constructor
  · intro h
    obtain ⟨f, hf, rfl⟩ := h
    split at hf
    · rename_i hread
      cases hf
      exact ⟨hread.1, hread.2.1, hread.2.2, rfl⟩
    · cases hf
  · intro h
    obtain ⟨hmem, hne, hpos, rfl⟩ := h
    exact ⟨_, if_pos ⟨hmem, hne, hpos⟩, rfl⟩

/-- A text with its sign of equality reads the same however it goes on. -/
theorem reads_append (h : equals ∈ x) (z : List UInt8) : Reads (x ++ z) a ↔ Reads x a := by
  rw [reads_iff, reads_iff, nameOf_append h]
  simp [h]

theorem Reads.append (h : Reads x a) (z : List UInt8) : Reads (x ++ z) a := (reads_append (reads_iff.mp h).1 z).mpr h

end

theorem flat_length_cons (delim : UInt8) (t : List UInt8) (ts : List (List UInt8)) :
    (flat delim (t :: ts)).length = t.length + 1 + (flat delim ts).length := by
  rw [flat_cons, length_append, length_cons]
  omega

theorem length_le_flat (delim : UInt8) (ts : List (List UInt8)) : ts.length ≤ (flat delim ts).length := by
  induction ts with
  | nil => exact Nat.le_refl 0
  | cons t ts ih =>
    rw [length_cons, flat_length_cons]
    omega

/-! ## The loop, text by text -/

namespace Scan

/-- The field of the text, if it is read as one. -/
def note (s : Scan) (off : Nat) : Option FIXField → Scan
  | none => s
  | some f =>
    { fields := s.fields ++ [f]
      cksumOff := if f.tag = 10 then some off else s.cksumOff
      bodyOff := s.bodyOff
      pendingBody := s.pendingBody || f.tag = 9 }

def scanTexts : Nat → List (List UInt8) → Scan → Scan
  | _, [], s => s
  | off, t :: ts, s =>
    if maxFixTags ≤ s.fields.length then s else scanTexts (off + t.length + 1) ts ((s.enter off).note off (readText t))

variable {delim : UInt8} {t : List UInt8} {ts : List (List UInt8)} {s : Scan} {off : Nat}

theorem scanField_eq (s : Scan) (off : Nat) (t : List UInt8) : s.scanField off t = s.note off (readText t) := by
  have hname : t.takeWhile (· ≠ equals) = nameOf t := rfl
  unfold scanField readText
  rw [hname]
  by_cases hmem : equals ∈ t
  · by_cases hne : nameOf t = []
    · rw [if_neg fun h => length_pos_iff.mp h.2 hne, if_neg fun h => h.2.1 hne]
      rfl
    · rw [if_pos ⟨nameOf_length_lt_iff.mpr hmem, length_pos_iff.mpr hne⟩]
      by_cases hpos : 0 < atoi (nameOf t)
      · rw [if_pos hpos, if_pos ⟨hmem, hne, hpos⟩]
        rfl
      · rw [if_neg hpos, if_neg fun h => hpos h.2.2]
        rfl
  · rw [if_neg fun h => hmem (nameOf_length_lt_iff.mp h.1), if_neg fun h => hmem h.1]
    rfl

theorem loop_flat (h : ∀ t ∈ ts, delim ∉ t) (fuel off : Nat) (s : Scan) (hfuel : ts.length ≤ fuel) :
    loop delim fuel off (flat delim ts) s = scanTexts off ts s := by
  induction ts generalizing fuel off s with
  | nil => exact loop_nil delim fuel off s
  | cons t ts ih =>
    obtain ⟨fuel, rfl⟩ := Nat.exists_eq_succ_of_ne_zero (n := fuel) (by rw [length_cons] at hfuel; omega)
    have htext : (flat delim (t :: ts)).takeWhile (· ≠ delim) = t := by
      rw [flat_cons]
      exact takeWhile_ne_append (h t mem_cons_self) _
    have hlen : t.length < (flat delim (t :: ts)).length := by
      rw [flat_cons, length_append, length_cons]
      omega
    have hne : flat delim (t :: ts) ≠ [] := ne_nil_of_length_pos (by omega)
    have hdrop : (flat delim (t :: ts)).drop (t.length + 1) = flat delim ts := by
      rw [flat_cons, ← drop_drop, drop_left' rfl]
      rfl
    show loop delim (fuel + 1) off (flat delim (t :: ts)) s = if maxFixTags ≤ s.fields.length then s else _
    rw [loop_succ]
    by_cases hfull : maxFixTags ≤ s.fields.length
    · rw [if_pos (.inr hfull), if_pos hfull]
    · rw [if_neg (fun hor => hor.elim hne hfull), if_neg hfull]
      dsimp only
      rw [htext, if_pos hlen, hdrop, scanField_eq, ih (fun t' ht' => h t' (mem_cons_of_mem _ ht')) _ _ _
        (by rw [length_cons] at hfuel; omega)]
      rfl

theorem scanTexts_cons (off : Nat) (t : List UInt8) (ts : List (List UInt8)) (s : Scan) :
    scanTexts off (t :: ts) s =
      if maxFixTags ≤ s.fields.length then s else scanTexts (off + t.length + 1) ts ((s.enter off).note off (readText t)) := rfl

theorem scanTexts_full (h : maxFixTags ≤ s.fields.length) (off : Nat) (ts : List (List UInt8)) : scanTexts off ts s = s := by
  cases ts with
  | nil => rfl
  | cons t ts => exact if_pos h

theorem scanTexts_append (delim : UInt8) (ts ts' : List (List UInt8)) (off : Nat) (s : Scan) :
    scanTexts off (ts ++ ts') s = scanTexts (off + (flat delim ts).length) ts' (scanTexts off ts s) := by
  induction ts generalizing off s with
  | nil => rfl
  | cons t ts ih =>
    rw [cons_append, scanTexts_cons, scanTexts_cons]
    split
    · rename_i hfull
      exact (scanTexts_full hfull _ _).symm
    · rw [ih, flat_length_cons]
      congr 1
      omega

theorem note_fields (s : Scan) (off : Nat) (f : Option FIXField) : ((s.enter off).note off f).fields = s.fields ++ f.toList := by
  cases f with
  | none => simp [note, enter_fields]
  | some f => simp [note, enter_fields]

/-- The fields, up to the limit. -/
theorem scanTexts_fields (ts : List (List UInt8)) (off : Nat) (s : Scan) (hs : s.fields.length ≤ maxFixTags) :
    (scanTexts off ts s).fields = (s.fields ++ ts.filterMap readText).take maxFixTags := by
  induction ts generalizing off s with
  | nil => rw [filterMap_nil, append_nil, take_of_length_le hs]; rfl
  | cons t ts ih =>
    rw [scanTexts_cons]
    split
    · rename_i hfull
      have hlen : s.fields.length = maxFixTags := Nat.le_antisymm hs hfull
      rw [take_append_of_le_length hfull, ← hlen, take_length]
    · rename_i hroom
      have hnote := note_fields s off (readText t)
      rw [ih _ _ (by rw [hnote, length_append]; cases readText t <;> simp <;> omega), hnote, filterMap_cons]
      cases readText t with
      | none => simp
      | some f => simp

/-- A checksum that was noted is that of a text before the end. -/
theorem scanTexts_cksum_lt (delim : UInt8) (ts : List (List UInt8)) (off : Nat) (s : Scan) (hs : ∀ c, s.cksumOff = some c → c < off) :
    ∀ c, (scanTexts off ts s).cksumOff = some c → c < off + (flat delim ts).length := by
  induction ts generalizing off s with
  | nil => exact fun c hc => Nat.lt_of_lt_of_le (hs c hc) (Nat.le_add_right _ _)
  | cons t ts ih =>
    intro c hc
    rw [scanTexts_cons] at hc
    rw [flat_length_cons]
    split at hc
    · have := hs c hc
      omega
    · refine Nat.lt_of_lt_of_eq (ih _ _ (fun c hc => ?_) c hc) (by omega)
      have henter : (s.enter off).cksumOff = s.cksumOff := by
        unfold enter
        split <;> rfl
      cases hread : readText t with
      | none =>
        rw [hread] at hc
        have := hs c (henter ▸ hc)
        omega
      | some f =>
        rw [hread] at hc
        dsimp only [note] at hc
        split at hc
        · cases hc
          omega
        · have := hs c (henter ▸ hc)
          omega

/-- Texts that are no length, when the body has its start or none was announced. -/
theorem scanTexts_settled (ts : List (List UInt8)) (h9 : ∀ f ∈ ts.filterMap readText, f.tag ≠ 9) (off : Nat) (s : Scan)
    (hs : s.pendingBody = false) : (scanTexts off ts s).bodyOff = s.bodyOff ∧ (scanTexts off ts s).pendingBody = false := by
  induction ts generalizing off s with
  | nil => exact ⟨rfl, hs⟩
  | cons t ts ih =>
    rw [scanTexts_cons]
    split
    · exact ⟨rfl, hs⟩
    · have henter : s.enter off = s := if_neg (by rw [hs]; exact Bool.false_ne_true)
      rw [henter]
      have hrest : ∀ f ∈ ts.filterMap readText, f.tag ≠ 9 := by
        intro f hf
        refine h9 f ?_
        rw [filterMap_cons]
        cases readText t with
        | none => exact hf
        | some g => exact mem_cons_of_mem g hf
      cases hread : readText t with
      | none => exact ih hrest _ _ hs
      | some f =>
        have hf : f.tag ≠ 9 := h9 f (by rw [filterMap_cons, hread]; exact mem_cons_self)
        exact ih hrest _ (s.note off (some f)) (by simp [note, hs, hf])

/-- The first text after a length is where the body starts. -/
theorem scanTexts_pending (t : List UInt8) (ts : List (List UInt8)) (h9 : ∀ f ∈ (t :: ts).filterMap readText, f.tag ≠ 9) (off : Nat)
    (s : Scan) (hs : s.pendingBody) (hroom : s.fields.length < maxFixTags) : (scanTexts off (t :: ts) s).bodyOff = some off := by
  have henter : s.enter off = { s with bodyOff := some off, pendingBody := false } := if_pos hs
  have hagain : (s.enter off).enter off = s.enter off := by
    rw [henter]
    rfl
  have hstart : scanTexts off (t :: ts) s = scanTexts off (t :: ts) (s.enter off) := by
    rw [scanTexts_cons, scanTexts_cons, enter_fields, hagain, if_neg (by omega), if_neg (by omega)]
  rw [hstart, (scanTexts_settled (t :: ts) h9 off (s.enter off) (by rw [henter])).1, henter]

theorem fieldsOf_step (delim : UInt8) (rest : List UInt8) :
    fieldsOf delim rest = (readText (rest.takeWhile (· ≠ delim))).toList ++
      fieldsOf delim (rest.drop ((rest.takeWhile (· ≠ delim)).length +
        if (rest.takeWhile (· ≠ delim)).length < rest.length then 1 else 0)) := by
  have hcons : ∀ (t : List UInt8) ts, (t :: ts).filterMap readText = (readText t).toList ++ ts.filterMap readText := by
    intro t ts
    rw [filterMap_cons]
    cases readText t <;> rfl
  by_cases hmem : delim ∈ rest
  · obtain ⟨t, tail, rfl, ht⟩ := eq_append_cons_of_mem hmem
    have hdrop : (t ++ delim :: tail).drop (t.length + 1) = tail := by
      rw [← drop_drop, drop_left' rfl]
      rfl
    rw [takeWhile_ne_append ht, if_pos (by simp), hdrop]
    unfold fieldsOf
    rw [splitOn_append_cons_self_of_not_mem ht, hcons]
  · have hall : rest.takeWhile (· ≠ delim) = rest :=
      takeWhile_eq_self_iff.mpr fun b hb => decide_eq_true fun (e : b = delim) => hmem (e ▸ hb)
    rw [hall, if_neg (Nat.lt_irrefl _), Nat.add_zero, drop_length]
    unfold fieldsOf
    rw [splitOn_eq_singleton hmem, hcons]
    rfl

/-- Whatever the loop collects is a field of the bytes. -/
theorem loop_fields_mem (delim : UInt8) (fuel off : Nat) (rest : List UInt8) (s : Scan) :
    ∀ f ∈ (loop delim fuel off rest s).fields, f ∈ s.fields ∨ f ∈ fieldsOf delim rest := by
  induction fuel generalizing off rest s with
  | zero => exact fun f hf => .inl hf
  | succ fuel ih =>
    intro f hf
    rw [loop_succ] at hf
    split at hf
    · exact .inl hf
    · dsimp only at hf
      rw [scanField_eq] at hf
      rw [fieldsOf_step]
      rcases ih _ _ _ f hf with hf | hf
      · rw [note_fields] at hf
        rcases mem_append.mp hf with hf | hf
        · exact .inl hf
        · exact .inr (mem_append_left _ hf)
      · exact .inr (mem_append_right _ hf)

end Scan

/-! ## Parsing -/

namespace FIXMessage

variable {m : FIXMessage} {raw : List UInt8} {c b : Option Nat}

theorem findField_isSome_iff (m : FIXMessage) (tag : Int) : (m.findField tag).isSome ↔ ∃ f ∈ m.fields, f.tag = tag := by
  unfold findField
  simp only [List.find?_isSome, decide_eq_true_eq]

theorem validate_fields (m : FIXMessage) (raw : List UInt8) (c b : Option Nat) : (m.validate raw c b).fields = m.fields := by
  unfold validate validateBodyLength validateChecksum
  repeat' split
  all_goals rfl

theorem validate_cksumValid (raw : List UInt8) (c b : Option Nat) (hm : m.cksumValid = false) :
    (m.validate raw c b).cksumValid = true ↔
      ∃ f off, m.findField 10 = some f ∧ c = some off ∧ atoi f.value = computeChecksum (raw.take off) := by
  have hkeep : ∀ n : FIXMessage, (n.validateBodyLength c b).cksumValid = n.cksumValid := by
    intro n
    unfold validateBodyLength
    repeat' split
    all_goals rfl
  unfold validate
  rw [hkeep]
  unfold validateChecksum
  cases m.findField 10 with
  | none => simp [hm]
  | some f =>
    cases c with
    | none => simp [hm]
    | some off => simp

theorem validate_bodylenValid (raw : List UInt8) (c b : Option Nat) (hm : m.bodylenValid = false) :
    (m.validate raw c b).bodylenValid = true ↔
      ∃ f off start, m.findField 9 = some f ∧ c = some off ∧ b = some start ∧ start ≤ off ∧
        atoi f.value = (off : Int) - start := by
  have hsum : (m.validateChecksum raw c).bodylenValid = false ∧ (m.validateChecksum raw c).findField 9 = m.findField 9 := by
    unfold validateChecksum
    split
    · exact ⟨hm, rfl⟩
    · exact ⟨hm, rfl⟩
  unfold validate validateBodyLength
  rw [hsum.2]
  cases m.findField 9 with
  | none => simp [hsum.1]
  | some f =>
    cases c with
    | none => simp [hsum.1]
    | some off =>
      cases b with
      | none => simp [hsum.1]
      | some start =>
        dsimp only
        by_cases hle : start ≤ off
        · rw [if_pos hle]
          simp [hle]
        · rw [if_neg hle]
          simp [hle, hsum.1]

/-- A message whose first field of tag 10 is the checksum up to the last, and whose first length is that between the offsets. -/
theorem validate_isValid (fields : List FIXField) (raw : List UInt8) (c b : Option Nat) :
    (({ fields := fields } : FIXMessage).validate raw c b).isValid = true ↔
      (∃ f ∈ fields, f.tag = 8) ∧ (∃ f ∈ fields, f.tag = 35) ∧
      (∃ f off, fields.find? (·.tag = 10) = some f ∧ c = some off ∧ atoi f.value = computeChecksum (raw.take off)) ∧
      ∃ f off start, fields.find? (·.tag = 9) = some f ∧ c = some off ∧ b = some start ∧ start ≤ off ∧
        atoi f.value = (off : Int) - start := by
  have hck := validate_cksumValid raw c b (show ({ fields := fields } : FIXMessage).cksumValid = false from rfl)
  have hlen := validate_bodylenValid raw c b (show ({ fields := fields } : FIXMessage).bodylenValid = false from rfl)
  have hfields := validate_fields { fields := fields } raw c b
  generalize ({ fields := fields } : FIXMessage).validate raw c b = m at hck hlen hfields ⊢
  unfold isValid hasRequiredHeader
  simp only [Bool.and_eq_true, findField_isSome_iff, hfields, hck, hlen]
  constructor
  · intro h
    obtain ⟨⟨⟨⟨⟨h8, -⟩, h35⟩, -⟩, hck⟩, hlen⟩ := h
    exact ⟨h8, h35, hck, hlen⟩
  · intro h
    obtain ⟨h8, h35, hck, hlen⟩ := h
    have h10 : ∃ f ∈ fields, f.tag = 10 := by
      obtain ⟨f, -, hf, -⟩ := hck
      have htag := List.find?_some hf
      exact ⟨f, mem_of_find?_eq_some hf, of_decide_eq_true htag⟩
    have h9 : ∃ f ∈ fields, f.tag = 9 := by
      obtain ⟨f, -, -, hf, -⟩ := hlen
      have htag := List.find?_some hf
      exact ⟨f, mem_of_find?_eq_some hf, of_decide_eq_true htag⟩
    exact ⟨⟨⟨⟨⟨h8, h9⟩, h35⟩, h10⟩, hck⟩, hlen⟩

theorem parse_fields_mem (raw : List UInt8) :
    ∀ f ∈ (parse raw).fields, f ∈ fieldsOf (if soh ∈ workingCopy raw then soh else '|'.toUInt8) (workingCopy raw) := by
  intro f hf
  unfold parse at hf
  dsimp only at hf
  split at hf
  · cases hf
  · rw [validate_fields] at hf
    rcases Scan.loop_fields_mem _ _ _ _ _ f hf with hf | hf
    · cases hf
    · exact hf

/-- A valid message has the fields of a header. -/
theorem exists_field_of_isValid (h : m.isValid) : ∀ tag ∈ [(8 : Int), 9, 35, 10], ∃ f ∈ m.fields, f.tag = tag := by
  unfold isValid hasRequiredHeader at h
  simp only [Bool.and_eq_true, findField_isSome_iff] at h
  obtain ⟨⟨⟨⟨⟨h8, h9⟩, h35⟩, h10⟩, -⟩, -⟩ := h
  intro tag htag
  simp only [mem_cons, not_mem_nil, or_false] at htag
  rcases htag with rfl | rfl | rfl | rfl
  · exact h8
  · exact h9
  · exact h35
  · exact h10

/-- What `parse` finds in texts that end with the delimiter. -/
theorem parse_flat {delim : UInt8} {ts : List (List UInt8)} (hts : ∀ t ∈ ts, delim ∉ t) (hne : ts ≠ [])
    (hnul : 0 ∉ flat delim ts) (hdelim : delim = soh ∨ delim = '|'.toUInt8 ∧ soh ∉ flat delim ts)
    (hlen : (flat delim ts).length ≤ 1023) (junk : List UInt8) :
    FIXMessage.parse (flat delim ts ++ 0 :: junk) =
      ({ fields := (ts.filterMap readText).take maxFixTags } : FIXMessage).validate (flat delim ts ++ 0 :: junk)
        (Scan.scanTexts 0 ts {}).cksumOff (Scan.scanTexts 0 ts {}).bodyOff := by
  obtain ⟨t, rest, rfl⟩ := exists_cons_of_ne_nil hne
  have hcopy : workingCopy (flat delim (t :: rest) ++ 0 :: junk) = flat delim (t :: rest) := by
    unfold workingCopy cString
    rw [takeWhile_ne_append hnul, take_of_length_le hlen]
  have hmem : delim ∈ flat delim (t :: rest) := by
    rw [flat_cons]
    exact mem_append_right _ mem_cons_self
  have hchosen : (if soh ∈ flat delim (t :: rest) then soh else '|'.toUInt8) = delim := by
    rcases hdelim with rfl | ⟨rfl, hnone⟩
    · exact if_pos hmem
    · exact if_neg hnone
  unfold parse
  dsimp only
  rw [hcopy, if_neg (ne_nil_of_mem hmem), hchosen, Scan.loop_flat hts _ 0 {} (length_le_flat _ _), Scan.scanTexts_fields _ _ _ (Nat.zero_le _),
    nil_append]

end FIXMessage

end HftLab.Fix
