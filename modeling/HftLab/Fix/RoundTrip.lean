/-
  HftLab.Fix.RoundTrip — what `build_message` frames is what `parse` reads.

  A message is a list of fields, each rendered as `tag=value` and the delimiter; the loop of `parse` takes them off one by one
  (`Scan.loop_render`). The length and the checksum that the head and the tail announce are those that `validate` finds at the
  offsets which the loop collected, so the message is valid and every tag has its values (`parse_build`).
-/

import HftLab.Fix.Message

namespace HftLab.Fix

open Lib List

/-- A field of a body. -/
abbrev Pair := Nat × List UInt8

def render (f : Pair) : List UInt8 := decimal f.1 ++ equals :: (f.2 ++ [soh])

def bodyOf (fields : List Pair) : List UInt8 := fields.flatMap render

def toField (f : Pair) : FIXField := { tag := f.1, value := f.2 }

/-- The values of a tag, in order. -/
def valuesOf (tag : Int) (fields : List Pair) : List (List UInt8) := (fields.filter (·.1 = tag)).map Prod.snd

/-- Neither the delimiter nor NUL. -/
def Clean (s : List UInt8) : Prop := soh ∉ s ∧ 0 ∉ s

/-- A field that is read as it was written. -/
structure Readable (f : Pair) : Prop where
  pos : 0 < f.1
  tag_le : f.1 ≤ 2147483647
  length_lt : f.2.length < maxFixValue
  clean : Clean f.2

theorem Readable.of {tag : Nat} {value : List UInt8} (hpos : 0 < tag) (hle : tag ≤ 2147483647) (hlen : value.length < maxFixValue)
    (hclean : Clean value) : Readable (tag, value) := ⟨hpos, hle, hlen, hclean⟩

theorem Readable.take {f : Pair} (h : Readable f) : f.2.take (maxFixValue - 1) = f.2 :=
  take_of_length_le (Nat.le_sub_one_of_lt h.length_lt)

/-! ## One field -/

theorem takeWhile_ne_append {b : UInt8} {l : List UInt8} (h : b ∉ l) (r : List UInt8) : (l ++ b :: r).takeWhile (· ≠ b) = l := by
  have hall : ∀ a ∈ l, decide (a ≠ b) = true := fun a ha => decide_eq_true fun (e : a = b) => h (e ▸ ha)
  rw [takeWhile_append_of_pos hall, takeWhile_cons_of_neg (by simp), append_nil]

theorem not_mem_of_digits {l : List UInt8} {b : UInt8} (hl : ∀ a ∈ l, IsDigit a) (hb : ¬IsDigit b) : b ∉ l := fun h => hb (hl b h)

theorem decimal_clean (n : Nat) : Clean (decimal n) :=
  ⟨not_mem_of_digits (fun _ => isDigit_of_mem_decimal) (by decide), not_mem_of_digits (fun _ => isDigit_of_mem_decimal) (by decide)⟩

theorem decimal3_clean (n : Nat) : Clean (decimal3 n) :=
  ⟨not_mem_of_digits (fun _ => isDigit_of_mem_decimal3) (by decide), not_mem_of_digits (fun _ => isDigit_of_mem_decimal3) (by decide)⟩

namespace Scan

variable {f : Pair} {s : Scan} {off : Nat}

theorem scanField_render (hf : Readable f) (s : Scan) (off : Nat) :
    s.scanField off (decimal f.1 ++ equals :: f.2) = s.push off f.1 f.2 := by
  have hname : (decimal f.1 ++ equals :: f.2).takeWhile (· ≠ equals) = decimal f.1 :=
    takeWhile_ne_append (not_mem_of_digits (fun _ => isDigit_of_mem_decimal) (by decide)) f.2
  have hpos : 0 < (decimal f.1).length := length_pos_iff.mpr (decimal_ne_nil f.1)
  have hlt : (decimal f.1).length < (decimal f.1 ++ equals :: f.2).length := by
    rw [length_append, length_cons]
    omega
  have hdrop : (decimal f.1 ++ equals :: f.2).drop ((decimal f.1).length + 1) = f.2 := by
    rw [← drop_drop, drop_left' rfl]
    rfl
  have htag : (0 : Int) < f.1 := Int.natCast_pos.mpr hf.pos
  unfold scanField
  rw [hname, if_pos ⟨hlt, hpos⟩, atoi_decimal hf.tag_le, if_pos htag, hdrop]

theorem loop_succ (delim : UInt8) (fuel off : Nat) (rest : List UInt8) (s : Scan) :
    loop delim (fuel + 1) off rest s =
      if rest = [] ∨ maxFixTags ≤ s.fields.length then s
      else
        let text := rest.takeWhile (· ≠ delim)
        let used := text.length + if text.length < rest.length then 1 else 0
        loop delim fuel (off + used) (rest.drop used) ((s.enter off).scanField off text) := rfl

theorem loop_render (hf : Readable f) (hs : s.fields.length < maxFixTags) (fuel : Nat) (rest : List UInt8) :
    loop soh (fuel + 1) off (render f ++ rest) s = loop soh fuel (off + (render f).length) rest ((s.enter off).push off f.1 f.2) := by
  have hsoh : soh ∉ decimal f.1 ++ equals :: f.2 := by
    intro h
    rcases mem_append.mp h with h | h
    · exact (decimal_clean f.1).1 h
    · rcases mem_cons.mp h with h | h
      · exact absurd h (by decide)
      · exact hf.clean.1 h
  have hsplit : render f ++ rest = (decimal f.1 ++ equals :: f.2) ++ soh :: rest := by simp [render]
  have htext : (render f ++ rest).takeWhile (· ≠ soh) = decimal f.1 ++ equals :: f.2 := by
    rw [hsplit]
    exact takeWhile_ne_append hsoh rest
  have hlen : (render f).length = (decimal f.1 ++ equals :: f.2).length + 1 := by
    simp [render]
    omega
  have hne : ¬(render f ++ rest = [] ∨ maxFixTags ≤ s.fields.length) := by
    rintro (h | h)
    · have := congrArg List.length h
      rw [length_append, hlen, length_nil] at this
      omega
    · omega
  have hall : (render f ++ rest).length = (render f).length + rest.length := length_append
  have hlt : (decimal f.1 ++ equals :: f.2).length < (render f ++ rest).length := by omega
  rw [loop_succ, if_neg hne]
  dsimp only
  rw [htext, if_pos hlt, scanField_render hf, ← hlen, drop_left' rfl]

/-- The scan after the fields of a list, the first of which starts at `off`. -/
def pushAll : Nat → List Pair → Scan → Scan
  | _, [], s => s
  | off, f :: fields, s => pushAll (off + (render f).length) fields ((s.enter off).push off f.1 f.2)

theorem enter_fields (s : Scan) (off : Nat) : (s.enter off).fields = s.fields := by
  unfold enter
  split <;> rfl

theorem loop_fields (fields : List Pair) (hf : ∀ f ∈ fields, Readable f) (fuel off : Nat) (rest : List UInt8) (s : Scan)
    (hs : s.fields.length + fields.length ≤ maxFixTags) :
    loop soh (fuel + fields.length) off (bodyOf fields ++ rest) s =
      loop soh fuel (off + (bodyOf fields).length) rest (pushAll off fields s) := by
  induction fields generalizing off s with
  | nil => rfl
  | cons f fields ih =>
    rw [length_cons] at hs
    have hpush : ((s.enter off).push off f.1 f.2).fields.length = s.fields.length + 1 := by
      simp [push, enter_fields]
    have hbody : bodyOf (f :: fields) ++ rest = render f ++ (bodyOf fields ++ rest) := by simp [bodyOf]
    have hlen : (bodyOf (f :: fields)).length = (render f).length + (bodyOf fields).length := by simp [bodyOf]
    rw [hbody, length_cons, ← Nat.add_assoc, loop_render (hf f (mem_cons_self ..)) (by omega),
      ih (fun g hg => hf g (mem_cons_of_mem _ hg)) _ _ (by omega), hlen, Nat.add_assoc]
    rfl

/-- Fields that are neither a length nor a checksum are only kept. -/
theorem pushAll_plain (fields : List Pair) (hf : ∀ f ∈ fields, Readable f ∧ f.1 ≠ 9 ∧ f.1 ≠ 10) (off : Nat) (s : Scan)
    (hs : s.pendingBody = false) : pushAll off fields s = { s with fields := s.fields ++ fields.map toField } := by
  induction fields generalizing off s with
  | nil => simp [pushAll]
  | cons f fields ih =>
    obtain ⟨hread, h9, h10⟩ := hf f (mem_cons_self ..)
    have hvalue := hread.take
    have h9' : ((f.1 : Int) = 9) = False := eq_false (by omega)
    have h10' : ((f.1 : Int) = 10) = False := eq_false (by omega)
    have hstep : (s.enter off).push off f.1 f.2 = { s with fields := s.fields ++ [toField f] } := by
      simp [enter, push, hs, hvalue, h9', h10', toField]
    show pushAll _ fields ((s.enter off).push off f.1 f.2) = _
    rw [hstep, ih (fun g hg => hf g (mem_cons_of_mem _ hg)) _ { s with fields := s.fields ++ [toField f] } hs]
    simp

theorem pushAll_append (l l' : List Pair) (off : Nat) (s : Scan) :
    pushAll off (l ++ l') s = pushAll (off + (bodyOf l).length) l' (pushAll off l s) := by
  induction l generalizing off s with
  | nil => rfl
  | cons f l ih =>
    have hlen : (bodyOf (f :: l)).length = (render f).length + (bodyOf l).length := by simp [bodyOf]
    show pushAll _ (l ++ l') _ = _
    rw [ih, hlen, Nat.add_assoc]
    rfl

/-- The first field after a length is where the body starts. -/
theorem pushAll_body {fields : List Pair} (hf : ∀ g ∈ f :: fields, Readable g ∧ g.1 ≠ 9 ∧ g.1 ≠ 10) (off : Nat) (s : Scan)
    (hs : s.pendingBody) :
    pushAll off (f :: fields) s =
      { s with fields := s.fields ++ (f :: fields).map toField, bodyOff := some off, pendingBody := false } := by
  obtain ⟨hread, h9, h10⟩ := hf f (mem_cons_self ..)
  have hvalue := hread.take
  have h9' : ((f.1 : Int) = 9) = False := eq_false (by omega)
  have h10' : ((f.1 : Int) = 10) = False := eq_false (by omega)
  have hstep : (s.enter off).push off f.1 f.2 =
      { s with fields := s.fields ++ [toField f], bodyOff := some off, pendingBody := false } := by
    simp [enter, push, hs, hvalue, h9', h10', toField]
  show pushAll _ fields ((s.enter off).push off f.1 f.2) = _
  rw [hstep, pushAll_plain fields (fun g hg => hf g (mem_cons_of_mem _ hg)) _ _ rfl]
  simp

theorem loop_nil (delim : UInt8) (fuel off : Nat) (s : Scan) : loop delim fuel off [] s = s := by
  cases fuel with
  | zero => rfl
  | succ fuel => rw [loop_succ, if_pos (.inl rfl)]

end Scan

theorem length_le_bodyOf (fields : List Pair) : fields.length ≤ (bodyOf fields).length := by
  induction fields with
  | nil => exact Nat.le_refl _
  | cons f fields ih =>
    have hlen : (bodyOf (f :: fields)).length = (render f).length + (bodyOf fields).length := by simp [bodyOf]
    have hpos : 0 < (render f).length := by simp [render]
    rw [length_cons, hlen]
    omega

theorem valuesAt_toField (tag : Int) (fields : List Pair) : FIXMessage.valuesAt tag (fields.map toField) = valuesOf tag fields := by
  unfold FIXMessage.valuesAt valuesOf
  rw [filter_map, map_map]
  rfl

/-! ## The message -/

/-- The bytes that the checksum covers. -/
def front (begin_ : List UInt8) (fields : List Pair) : List UInt8 :=
  bodyOf [(8, begin_), (9, decimal (bodyOf fields).length)] ++ bodyOf fields

def messageFields (begin_ : List UInt8) (fields : List Pair) : List Pair :=
  [(8, begin_), (9, decimal (bodyOf fields).length)] ++ fields ++ [(10, decimal3 (computeChecksum (front begin_ fields)))]

/-- A body and a begin string that the parser's limits allow for. -/
structure Buildable (cap : Int) (begin_ : List UInt8) (fields : List Pair) : Prop where
  some_field : 1 ≤ fields.length
  fields_le : fields.length ≤ 29
  readable : ∀ f ∈ fields, Readable f
  plain : ∀ f ∈ fields, f.1 ≠ 9 ∧ f.1 ≠ 10
  msgType : ∃ f ∈ fields, f.1 = 35
  begin_le : begin_.length ≤ 30
  begin_clean : Clean begin_
  room : buildMessage cap (bodyOf fields) begin_ soh ≠ []
  length_le : (buildMessage cap (bodyOf fields) begin_ soh).length ≤ 1023

theorem printFields_append (delim : UInt8) (l l' : List (Nat × List UInt8)) :
    printFields delim (l ++ l') = printFields delim l ++ printFields delim l' := flatMap_append

theorem printFields_no_nul {delim : UInt8} {fields : List (Nat × List UInt8)} (hdelim : delim ≠ 0) (h : ∀ f ∈ fields, 0 ∉ f.2) :
    0 ∉ printFields delim fields := by
  intro h0
  obtain ⟨f, hf, h0⟩ := mem_flatMap.mp h0
  simp only [mem_append, mem_cons, not_mem_nil, or_false] at h0
  rcases h0 with h0 | h0 | h0 | h0
  · exact (decimal_clean f.1).2 h0
  · exact absurd h0 (by decide)
  · exact h f hf h0
  · exact hdelim h0.symm

/-- The head of the frame as fields. -/
theorem frameHead_eq (begin_ : List UInt8) (delim : UInt8) (len : Nat) :
    ascii "8=" ++ begin_ ++ [delim] ++ ascii "9=" ++ decimal len ++ [delim] = printFields delim [(8, begin_), (9, decimal len)] := by
  have h8 : ascii "8=" = decimal 8 ++ [equals] := by decide +kernel
  have h9 : ascii "9=" = decimal 9 ++ [equals] := by decide +kernel
  rw [h8, h9]
  simp [printFields]

theorem bodyOf_no_nul {fields : List Pair} (h : ∀ f ∈ fields, 0 ∉ f.2) : 0 ∉ bodyOf fields := printFields_no_nul (by decide) h

theorem bodyOf_append (l l' : List Pair) : bodyOf (l ++ l') = bodyOf l ++ bodyOf l' := printFields_append soh l l'

theorem computeChecksum_lt (data : List UInt8) : computeChecksum data < 256 := Nat.mod_lt _ (by decide)

theorem find_toField (l : List Pair) (tag : Nat) :
    (l.map toField).find? (fun f => f.tag = (tag : Int)) = (l.find? (·.1 = tag)).map toField := by
  rw [List.find?_map]
  congr 2
  funext f
  simp [toField]

section

variable {cap : Int} {begin_ : List UInt8} {fields : List Pair} (h : Buildable cap begin_ fields)

include h

theorem Buildable.body_no_nul : 0 ∉ bodyOf fields := bodyOf_no_nul fun f hf => (h.readable f hf).clean.2

theorem Buildable.message_eq : buildMessage cap (bodyOf fields) begin_ soh = bodyOf (messageFields begin_ fields) := by
  have hroom := h.room
  unfold buildMessage at hroom ⊢
  dsimp only at hroom ⊢
  rw [cString_eq h.body_no_nul, cString_eq h.begin_clean.2] at hroom ⊢
  have hfront : ascii "8=" ++ begin_ ++ [soh] ++ ascii "9=" ++ decimal (bodyOf fields).length ++ [soh] ++ bodyOf fields =
      front begin_ fields := by
    rw [frameHead_eq]
    rfl
  have h10 : ascii "10=" = decimal 10 ++ [equals] := by decide +kernel
  split
  · rename_i hcap
    rw [if_pos hcap] at hroom
    exact absurd rfl hroom
  · rw [hfront, h10]
    unfold messageFields
    rw [bodyOf_append, bodyOf_append]
    simp [front, bodyOf, render]

theorem Buildable.body_length_lt : (bodyOf fields).length ≤ 1023 := by
  have hlen := h.length_le
  rw [h.message_eq, messageFields, bodyOf_append, bodyOf_append, length_append, length_append] at hlen
  omega

theorem Buildable.readable_all : ∀ f ∈ messageFields begin_ fields, Readable f := by
  intro f hf
  have hlen := h.body_length_lt
  have hbegin := h.begin_le
  unfold messageFields at hf
  simp only [mem_append, mem_cons, not_mem_nil, or_false] at hf
  rcases hf with ((rfl | rfl) | hf) | rfl
  · exact .of (by decide) (by decide) (Nat.lt_of_le_of_lt hbegin (by decide)) h.begin_clean
  · refine .of (by decide) (by decide) ?_ (decimal_clean _)
    exact Nat.lt_of_le_of_lt (decimal_length_le (k := 4) (by decide) (by omega)) (by decide)
  · exact h.readable f hf
  · exact .of (by decide) (by decide) (Nat.lt_of_sub_eq_succ rfl) (decimal3_clean _)

/-- The loop ends with every field, where the body starts and where the checksum does. -/
theorem Buildable.scan :
    Scan.loop soh (bodyOf (messageFields begin_ fields)).length 0 (bodyOf (messageFields begin_ fields)) {} =
      { fields := (messageFields begin_ fields).map toField
        cksumOff := some (front begin_ fields).length
        bodyOff := some (bodyOf [(8, begin_), (9, decimal (bodyOf fields).length)]).length
        pendingBody := false } := by
  have hcount : (messageFields begin_ fields).length = fields.length + 3 := by simp [messageFields]
  have hle := length_le_bodyOf (messageFields begin_ fields)
  have hfuel : (bodyOf (messageFields begin_ fields)).length =
      (bodyOf (messageFields begin_ fields)).length - (messageFields begin_ fields).length + (messageFields begin_ fields).length := by
    omega
  have hmax := h.fields_le
  have hloop := Scan.loop_fields (messageFields begin_ fields) h.readable_all
    ((bodyOf (messageFields begin_ fields)).length - (messageFields begin_ fields).length) 0 [] {}
    (by show 0 + _ ≤ 32; omega)
  rw [append_nil, ← hfuel, Scan.loop_nil] at hloop
  rw [hloop]
  have hreadable := h.readable_all
  unfold messageFields at hreadable ⊢
  have hvalue8 := (hreadable (8, begin_) (by simp)).take
  have hvalue9 := (hreadable (9, decimal (bodyOf fields).length) (by simp)).take
  have hvalue10 := (hreadable (10, decimal3 (computeChecksum (front begin_ fields))) (by simp)).take
  have hhead : Scan.pushAll 0 [(8, begin_), (9, decimal (bodyOf fields).length)] {} =
      { fields := [toField (8, begin_), toField (9, decimal (bodyOf fields).length)], pendingBody := true } := by
    simp [Scan.pushAll, Scan.enter, Scan.push, toField, hvalue8, hvalue9]
  obtain ⟨f, rest, rfl⟩ := exists_cons_of_length_pos h.some_field
  have hplain : ∀ g ∈ f :: rest, Readable g ∧ g.1 ≠ 9 ∧ g.1 ≠ 10 := fun g hg => ⟨h.readable g hg, h.plain g hg⟩
  have hfront : bodyOf ([(8, begin_), (9, decimal (bodyOf (f :: rest)).length)] ++ (f :: rest)) = front begin_ (f :: rest) :=
    bodyOf_append _ _
  rw [Scan.pushAll_append, Scan.pushAll_append, hhead, Scan.pushAll_body hplain _ _ rfl, hfront]
  generalize decimal3 (computeChecksum (front begin_ (f :: rest))) = ck at hvalue10 ⊢
  simp [Scan.pushAll, Scan.enter, Scan.push, toField, hvalue10]

/-- The message is all of the working copy. -/
theorem Buildable.workingCopy_eq (junk : List UInt8) :
    FIXMessage.workingCopy (bodyOf (messageFields begin_ fields) ++ 0 :: junk) = bodyOf (messageFields begin_ fields) := by
  have hlen := h.length_le
  rw [h.message_eq] at hlen
  have hnul : 0 ∉ bodyOf (messageFields begin_ fields) := bodyOf_no_nul fun f hf => (h.readable_all f hf).clean.2
  unfold FIXMessage.workingCopy cString
  rw [takeWhile_ne_append hnul, take_of_length_le hlen]

theorem Buildable.parse_eq (junk : List UInt8) :
    FIXMessage.parse (bodyOf (messageFields begin_ fields) ++ 0 :: junk) =
      ({ fields := (messageFields begin_ fields).map toField } : FIXMessage).validate
        (bodyOf (messageFields begin_ fields) ++ 0 :: junk) (some (front begin_ fields).length)
        (some (bodyOf [(8, begin_), (9, decimal (bodyOf fields).length)]).length) := by
  have hne : bodyOf (messageFields begin_ fields) ≠ [] := fun e => h.room (h.message_eq.trans e)
  have hsoh : soh ∈ bodyOf (messageFields begin_ fields) := by
    refine mem_flatMap.mpr ⟨(8, begin_), by simp [messageFields], ?_⟩
    simp [render]
  unfold FIXMessage.parse
  dsimp only
  rw [h.workingCopy_eq, if_neg hne, if_pos hsoh, h.scan]

theorem Buildable.find_ten :
    (messageFields begin_ fields).find? (·.1 = 10) = some (10, decimal3 (computeChecksum (front begin_ fields))) := by
  have hnone : fields.find? (·.1 = 10) = none := List.find?_eq_none.mpr fun f hf => by simp [(h.plain f hf).2]
  simp [messageFields, List.find?_append, hnone]

theorem Buildable.find_required (junk : List UInt8) :
    (FIXMessage.parse (bodyOf (messageFields begin_ fields) ++ 0 :: junk)).fields = (messageFields begin_ fields).map toField ∧
    (FIXMessage.parse (bodyOf (messageFields begin_ fields) ++ 0 :: junk)).cksumValid = true ∧
    (FIXMessage.parse (bodyOf (messageFields begin_ fields) ++ 0 :: junk)).bodylenValid = true := by
  have hck := computeChecksum_lt (front begin_ fields)
  have hbody := h.body_length_lt
  have hfront : (front begin_ fields).length =
      (bodyOf [(8, begin_), (9, decimal (bodyOf fields).length)]).length + (bodyOf fields).length := length_append
  have htake : (bodyOf (messageFields begin_ fields) ++ 0 :: junk).take (front begin_ fields).length = front begin_ fields := by
    unfold messageFields
    rw [bodyOf_append, bodyOf_append, append_assoc]
    exact take_left' rfl
  have h10 : ({ fields := (messageFields begin_ fields).map toField } : FIXMessage).findField 10 =
      some (toField (10, decimal3 (computeChecksum (front begin_ fields)))) :=
    (find_toField _ 10).trans (congrArg (Option.map toField) h.find_ten)
  have h9 : ∀ m : FIXMessage, m.fields = (messageFields begin_ fields).map toField →
      m.findField 9 = some (toField (9, decimal (bodyOf fields).length)) := fun m hm => by
    unfold FIXMessage.findField
    rw [hm]
    exact (find_toField _ 9).trans (by simp [messageFields])
  rw [h.parse_eq]
  unfold FIXMessage.validate FIXMessage.validateChecksum
  rw [h10]
  unfold FIXMessage.validateBodyLength
  rw [h9 _ rfl]
  dsimp only
  rw [if_pos (by omega)]
  refine ⟨rfl, ?_, ?_⟩
  · rw [htake]
    exact decide_eq_true (atoi_decimal3 (Nat.lt_of_lt_of_le hck (by decide)))
  · refine decide_eq_true ((atoi_decimal (Nat.le_trans hbody (by decide))).trans ?_)
    rw [hfront]
    omega

/-- The parser reads a built message as valid, with the fields of the body between those of the frame. -/
theorem parse_build (junk : List UInt8) :
    (FIXMessage.parse (buildMessage cap (bodyOf fields) begin_ soh ++ 0 :: junk)).isValid = true ∧
    (FIXMessage.parse (buildMessage cap (bodyOf fields) begin_ soh ++ 0 :: junk)).fieldCount = fields.length + 3 ∧
    ∀ tag : Int, tag ≠ 9 → tag ≠ 10 →
      (FIXMessage.parse (buildMessage cap (bodyOf fields) begin_ soh ++ 0 :: junk)).countField tag =
        (valuesOf tag ((8, begin_) :: fields)).length ∧
      ∀ i, (FIXMessage.parse (buildMessage cap (bodyOf fields) begin_ soh ++ 0 :: junk)).getFieldNth tag i =
        (valuesOf tag ((8, begin_) :: fields))[i]? := by
  rw [h.message_eq]
  obtain ⟨hfields, hcksum, hbodylen⟩ := h.find_required junk
  generalize FIXMessage.parse (bodyOf (messageFields begin_ fields) ++ 0 :: junk) = m at hfields hcksum hbodylen ⊢
  have hfind : ∀ tag : Nat, (∃ f ∈ messageFields begin_ fields, f.1 = tag) → (m.findField tag).isSome = true := by
    rintro tag ⟨f, hf, htag⟩
    unfold FIXMessage.findField
    rw [hfields, find_toField, Option.isSome_map, List.find?_isSome]
    exact ⟨f, hf, decide_eq_true htag⟩
  obtain ⟨f35, hf35, h35⟩ := h.msgType
  refine ⟨?_, ?_, ?_⟩
  · unfold FIXMessage.isValid FIXMessage.hasRequiredHeader
    rw [hcksum, hbodylen]
    have h8 := hfind 8 ⟨(8, begin_), by simp [messageFields], rfl⟩
    have h9 := hfind 9 ⟨(9, decimal (bodyOf fields).length), by simp [messageFields], rfl⟩
    have h35' := hfind 35 ⟨f35, by simp [messageFields, hf35], h35⟩
    have h10 := hfind 10 ⟨(10, decimal3 (computeChecksum (front begin_ fields))), by simp [messageFields], rfl⟩
    simp only [Nat.cast_ofNat] at h8 h9 h35' h10
    rw [h8, h9, h35', h10]
    rfl
  · unfold FIXMessage.fieldCount
    rw [hfields]
    simp [messageFields]
  · intro tag h9 h10
    have hvalues : valuesOf tag (messageFields begin_ fields) = valuesOf tag ((8, begin_) :: fields) := by
      have hcons : messageFields begin_ fields =
          (8, begin_) :: (9, decimal (bodyOf fields).length) :: (fields ++ [(10, decimal3 (computeChecksum (front begin_ fields)))]) := rfl
      rw [hcons]
      unfold valuesOf
      rw [List.filter_cons, List.filter_cons, List.filter_append, List.filter_cons, List.filter_cons]
      simp [h9.symm, h10.symm]
    rw [← hvalues]
    constructor
    · rw [FIXMessage.countField_eq, hfields, valuesAt_toField]
    · intro i
      rw [FIXMessage.getFieldNth_eq, hfields, valuesAt_toField]

end

/-- A cancel request for one symbol, in a buffer of 1000 bytes. -/
theorem parse_build_sample :
    (FIXMessage.parse (buildMessage 1000 (bodyOf [(35, ascii "F"), (55, ascii "AAPL")]) (ascii "FIX.4.2") soh ++ 0 :: [])).isValid = true ∧
    (FIXMessage.parse (buildMessage 1000 (bodyOf [(35, ascii "F"), (55, ascii "AAPL")]) (ascii "FIX.4.2") soh ++ 0 :: [])).fieldCount = 5 ∧
    (FIXMessage.parse (buildMessage 1000 (bodyOf [(35, ascii "F"), (55, ascii "AAPL")]) (ascii "FIX.4.2") soh ++ 0 :: [])).getFieldNth 55 0 =
      some (ascii "AAPL") := by
  have hreadable : ∀ f ∈ ([(35, ascii "F"), (55, ascii "AAPL")] : List Pair), Readable f := by
    intro f hf
    simp only [List.mem_cons, List.not_mem_nil, or_false] at hf
    rcases hf with rfl | rfl
    · exact .of (by decide) (by decide) (by decide) ⟨by decide, by decide⟩
    · exact .of (by decide) (by decide) (by decide) ⟨by decide, by decide⟩
  have hbuildable : Buildable 1000 (ascii "FIX.4.2") [(35, ascii "F"), (55, ascii "AAPL")] :=
    { some_field := by decide
      fields_le := by decide
      readable := hreadable
      plain := by decide
      msgType := by decide
      begin_le := by decide
      begin_clean := ⟨by decide, by decide⟩
      room := by decide +kernel
      length_le := by decide +kernel }
  obtain ⟨hvalid, hcount, hvalues⟩ := parse_build hbuildable []
  exact ⟨hvalid, hcount, ((hvalues 55 (by decide) (by decide)).2 0).trans (by decide +kernel)⟩

/-- A tag 8 in the body comes second to that of the frame, and a tag beyond an `int` is read as another tag: both messages are valid. -/
theorem begin_string_and_wide_tag_miscounted :
    ((FIXMessage.parse (buildMessage 1000 (bodyOf [(35, ascii "F"), (8, ascii "X")]) (ascii "FIX.4.2") soh ++ 0 :: [])).isValid = true ∧
      (FIXMessage.parse (buildMessage 1000 (bodyOf [(35, ascii "F"), (8, ascii "X")]) (ascii "FIX.4.2") soh ++ 0 :: [])).countField 8 = 2 ∧
      valuesOf 8 [(35, ascii "F"), (8, ascii "X")] = [ascii "X"]) ∧
    (FIXMessage.parse (buildMessage 1000 (bodyOf [(35, ascii "F"), (4294967331, ascii "X")]) (ascii "FIX.4.2") soh ++ 0 :: [])).isValid = true ∧
    (FIXMessage.parse (buildMessage 1000 (bodyOf [(35, ascii "F"), (4294967331, ascii "X")]) (ascii "FIX.4.2") soh ++ 0 :: [])).countField 35 = 2 ∧
    valuesOf 35 [(35, ascii "F"), (4294967331, ascii "X")] = [ascii "F"] := by
  decide +kernel

end HftLab.Fix
