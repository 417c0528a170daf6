/-
  HftLab.Fix.Groups — the repeating groups (fix_parser.hpp, fix_session.hpp): `parse_mass_quote` and `parse_md_snapshot`.

  A group repeats the same tags, an entry after the other, and the parsers find the fields of the `i`-th entry as the `i`-th
  occurrence of each tag in the whole message. An entry may lack its optional fields; the occurrences of a later entry then count
  for an earlier one.

  How the text of a number is read is a parameter: `atof`, `atoi`, or the text kept as it is.
  - `groups_apart_iff`: when every entry gets its own fields; `InPlace.of_full`: so it is for a snapshot whose entries lack none.
  - `unpriced_takes_next`: a symbol without prices is quoted at those of the next.
-/

import HftLab.Fix.Session
import HftLab.Lib.Columns

namespace HftLab.Fix

open Lib List

variable {D E : Type}

/-- How the text of a number is read, and the 0 of an absent one. -/
structure Reading (D : Type) where
  ofText : List UInt8 → D
  zero : D

namespace Reading

def read (r : Reading D) (value : Option (List UInt8)) : D := value.elim r.zero r.ofText

def atoi : Reading Int := ⟨HftLab.Lib.atoi, 0⟩

/-- Numeric text kept as a string. -/
def text : Reading (List UInt8) := ⟨id, ascii "0"⟩

end Reading

namespace FIXMessage

/-- The typed value of the `occurrence`-th field of the tag. -/
def getNth (r : Reading D) (m : FIXMessage) (tag : Int) (occurrence : Nat) : D := r.read (m.getFieldNth tag occurrence)

def getDoubleNth (atof : Reading D) : FIXMessage → Int → Nat → D := getNth atof

def getIntNth (atoi : Reading E) : FIXMessage → Int → Nat → E := getNth atoi

end FIXMessage

/-- What `strncpy(dst, src, sizeof(dst) - 1)` leaves in a `dst` of zeros. -/
def strncpy (size : Nat) (src : List UInt8) : List UInt8 := (cString src).take (size - 1)

theorem strncpy_eq {size : Nat} {src : List UInt8} (hlen : src.length < size) (hclean : 0 ∉ src) : strncpy size src = src := by
  unfold strncpy
  rw [cString_eq hclean]
  exact take_of_length_le (Nat.le_sub_one_of_lt hlen)

/-! ## MassQuote -/

namespace MassQuote

structure Entry (D : Type) where
  symbol : List UInt8
  bidPx : D
  offerPx : D
  deriving DecidableEq, Repr

end MassQuote

/-- The entries are those decoded, `count` of them. -/
structure MassQuote (D : Type) where
  quoteId : List UInt8 := []
  entries : List (MassQuote.Entry D) := []
  entryCount : Int := -1
  valid : Bool := false
  deriving DecidableEq, Repr

namespace MassQuote

def maxEntries : Nat := 8

def count (q : MassQuote D) : Nat := q.entries.length

/-- One turn of the loop over the symbols. -/
def pushEntry (atof : Reading D) (m : FIXMessage) (es : List (Entry D)) (i : Nat) : List (Entry D) :=
  if es.length < maxEntries then
    match m.getFieldNth 55 i with
    | none => es
    | some sym =>
      if FIXSession.firstChar sym = 0 then es
      else es ++ [{ symbol := strncpy 16 sym, bidPx := m.getDoubleNth atof 132 i, offerPx := m.getDoubleNth atof 133 i }]
  else es

end MassQuote

def parseMassQuote (atof : Reading D) (m : FIXMessage) : MassQuote D :=
  if FIXSession.firstChar m.getMsgType ≠ 'i'.toUInt8 then {}
  else
    { quoteId := (m.getField 117).elim [] (strncpy 24)
      entries := (List.range (m.countField 55)).foldl (MassQuote.pushEntry atof m) []
      entryCount := (m.getField 295).elim (-1) atoi
      valid := true }

/-! ## MDSnapshot -/

structure MDSnapshot (D E : Type) where
  mdReqId : List UInt8
  symbol : List UInt8
  entries : Int
  bidPx : D
  askPx : D
  bidSz : E
  askSz : E
  valid : Bool
  deriving DecidableEq, Repr

namespace MDSnapshot

def init (atof : Reading D) (atoi : Reading E) : MDSnapshot D E where
  mdReqId := []
  symbol := []
  entries := -1
  bidPx := atof.zero
  askPx := atof.zero
  bidSz := atoi.zero
  askSz := atoi.zero
  valid := false

/-- One turn of the loop over the entry types. -/
def applyEntry (atof : Reading D) (atoi : Reading E) (m : FIXMessage) (r : MDSnapshot D E) (i : Nat) : MDSnapshot D E :=
  match m.getFieldNth 269 i with
  | none => r
  | some et =>
    if FIXSession.firstChar et = 0 then r
    else if FIXSession.firstChar et = '0'.toUInt8 then { r with bidPx := m.getDoubleNth atof 270 i, bidSz := m.getIntNth atoi 271 i }
    else if FIXSession.firstChar et = '1'.toUInt8 then { r with askPx := m.getDoubleNth atof 270 i, askSz := m.getIntNth atoi 271 i }
    else r

end MDSnapshot

def parseMdSnapshot (atof : Reading D) (atoi : Reading E) (m : FIXMessage) : MDSnapshot D E :=
  if FIXSession.firstChar m.getMsgType ≠ 'W'.toUInt8 then .init atof atoi
  else
    let r := { MDSnapshot.init atof atoi with
      mdReqId := (m.getField 262).elim [] (strncpy 24)
      symbol := (m.getField 55).elim [] (strncpy 16)
      entries := (m.getField 268).elim (-1) HftLab.Lib.atoi }
    { (List.range (m.countField 269)).foldl (MDSnapshot.applyEntry atof atoi m) r with valid := true }

/-! ## Messages with a group -/

/-- The tag of the field that starts an entry, and those of its two optional fields. -/
structure GroupTags where
  lead : Int
  first : Int
  second : Int
  first_ne : first ≠ lead
  second_ne : second ≠ lead
  apart : first ≠ second

/-- An entry as it stands in a message. -/
structure Entry where
  lead : List UInt8
  first : Option (List UInt8)
  second : Option (List UInt8)
  deriving DecidableEq, Repr

def Entry.fields (t : GroupTags) (e : Entry) : List FIXField :=
  { tag := t.lead, value := e.lead } ::
    (e.first.toList.map (FIXField.mk t.first) ++ e.second.toList.map (FIXField.mk t.second))

/-- A message of type `type` with one group; none of its other fields has a tag of the group. -/
structure GroupMessage (t : GroupTags) (type : List UInt8) extends FIXMessage where
  head : List FIXField
  entries : List Entry
  tail : List FIXField
  layout : fields = head ++ entries.flatMap (Entry.fields t) ++ tail
  others : ∀ f ∈ head ++ tail, f.tag ≠ t.lead ∧ f.tag ≠ t.first ∧ f.tag ≠ t.second
  typed : toFIXMessage.getField 35 = some type

def GroupTags.quotes : GroupTags := ⟨55, 132, 133, by decide, by decide, by decide⟩

def GroupTags.snapshot : GroupTags := ⟨269, 270, 271, by decide, by decide, by decide⟩

/-- A 35=i message: at most 8 entries, each with a symbol that fits. -/
structure QuoteMessage extends GroupMessage .quotes (ascii "i") where
  few : entries.length ≤ MassQuote.maxEntries
  symbols : ∀ e ∈ entries, e.lead ≠ [] ∧ e.lead.length < 16 ∧ 0 ∉ e.lead

/-- A 35=W message. -/
structure SnapshotMessage extends GroupMessage .snapshot (ascii "W") where
  types : ∀ e ∈ entries, e.lead ≠ [] ∧ 0 ∉ e.lead

/-! ## The values of a group -/

namespace FIXMessage

variable {t : GroupTags}

theorem valuesAt_eq_nil {tag : Int} {fields : List FIXField} (h : ∀ f ∈ fields, f.tag ≠ tag) : valuesAt tag fields = [] := by
  have hnone : fields.filter (·.tag = tag) = [] := filter_eq_nil_iff.mpr fun f hf => by simp [h f hf]
  unfold valuesAt
  rw [hnone, map_nil]

theorem valuesAt_mk_self (tag : Int) (value : Option (List UInt8)) :
    valuesAt tag (value.toList.map (FIXField.mk tag)) = value.toList := by
  cases value <;> simp [valuesAt]

theorem valuesAt_mk_of_ne {tag tag' : Int} (h : tag' ≠ tag) (value : Option (List UInt8)) :
    valuesAt tag (value.toList.map (FIXField.mk tag')) = [] := by
  refine valuesAt_eq_nil fun f hf => ?_
  obtain ⟨v, -, rfl⟩ := mem_map.mp hf
  exact h

theorem valuesAt_lead (entries : List Entry) : valuesAt t.lead (entries.flatMap (Entry.fields t)) = entries.map (·.lead) := by
  induction entries with
  | nil => rfl
  | cons e entries ih =>
    rw [flatMap_cons, valuesAt_append, ih]
    unfold Entry.fields
    have hself : (FIXField.mk t.lead e.lead).tag = t.lead := rfl
    rw [valuesAt_cons_self hself, valuesAt_append, valuesAt_mk_of_ne t.first_ne, valuesAt_mk_of_ne t.second_ne]
    rfl

theorem valuesAt_first (entries : List Entry) :
    valuesAt t.first (entries.flatMap (Entry.fields t)) = (entries.map (·.first)).reduceOption := by
  induction entries with
  | nil => rfl
  | cons e entries ih =>
    rw [flatMap_cons, valuesAt_append, ih, map_cons, reduceOption_cons]
    unfold Entry.fields
    rw [valuesAt_cons_of_ne t.first_ne.symm, valuesAt_append, valuesAt_mk_self, valuesAt_mk_of_ne t.apart.symm, append_nil]

theorem valuesAt_second (entries : List Entry) :
    valuesAt t.second (entries.flatMap (Entry.fields t)) = (entries.map (·.second)).reduceOption := by
  induction entries with
  | nil => rfl
  | cons e entries ih =>
    rw [flatMap_cons, valuesAt_append, ih, map_cons, reduceOption_cons]
    unfold Entry.fields
    rw [valuesAt_cons_of_ne t.second_ne.symm, valuesAt_append, valuesAt_mk_self, valuesAt_mk_of_ne t.apart, nil_append]

end FIXMessage

namespace GroupMessage

variable {t : GroupTags} {type : List UInt8} (m : GroupMessage t type)

/-- A tag of the group has its values in the group only. -/
theorem valuesAt_fields {tag : Int} (h : ∀ f ∈ m.head ++ m.tail, f.tag ≠ tag) :
    FIXMessage.valuesAt tag m.fields = FIXMessage.valuesAt tag (m.entries.flatMap (Entry.fields t)) := by
  have hhead := FIXMessage.valuesAt_eq_nil (fun f hf => h f (mem_append_left _ hf))
  have htail := FIXMessage.valuesAt_eq_nil (fun f hf => h f (mem_append_right _ hf))
  rw [m.layout, FIXMessage.valuesAt_append, FIXMessage.valuesAt_append, hhead, htail, nil_append, append_nil]

theorem countField_lead : m.countField t.lead = m.entries.length := by
  rw [FIXMessage.countField_eq, m.valuesAt_fields fun f hf => (m.others f hf).1, FIXMessage.valuesAt_lead, length_map]

theorem getFieldNth_lead (i : Nat) : m.getFieldNth t.lead i = m.entries[i]?.map (·.lead) := by
  rw [FIXMessage.getFieldNth_eq, m.valuesAt_fields fun f hf => (m.others f hf).1, FIXMessage.valuesAt_lead, List.getElem?_map]

theorem getFieldNth_first (i : Nat) : m.getFieldNth t.first i = (m.entries.map (·.first)).reduceOption[i]? := by
  rw [FIXMessage.getFieldNth_eq, m.valuesAt_fields fun f hf => (m.others f hf).2.1, FIXMessage.valuesAt_first]

theorem getFieldNth_second (i : Nat) : m.getFieldNth t.second i = (m.entries.map (·.second)).reduceOption[i]? := by
  rw [FIXMessage.getFieldNth_eq, m.valuesAt_fields fun f hf => (m.others f hf).2.2, FIXMessage.valuesAt_second]

theorem getMsgType_eq : m.getMsgType = type := by
  unfold FIXMessage.getMsgType
  rw [m.typed]
  rfl

end GroupMessage

theorem firstChar_ne_zero {s : List UInt8} (hne : s ≠ []) (hclean : 0 ∉ s) : FIXSession.firstChar s ≠ 0 := by
  intro hz
  cases s with
  | nil => exact hne rfl
  | cons b s =>
    have hb : b = 0 := hz
    apply hclean
    rw [hb]
    exact mem_cons_self ..

/-! ## The entries of a mass quote -/

/-- The entry with the prices that stand in it. -/
def Entry.quoted (atof : Reading D) (e : Entry) : MassQuote.Entry D where
  symbol := e.lead
  bidPx := atof.read e.first
  offerPx := atof.read e.second

/-- The `i`-th entry with the `i`-th prices of the message. -/
def Entry.counted (atof : Reading D) (m : FIXMessage) (i : Nat) (e : Entry) : MassQuote.Entry D where
  symbol := e.lead
  bidPx := m.getDoubleNth atof 132 i
  offerPx := m.getDoubleNth atof 133 i

namespace QuoteMessage

variable (q : QuoteMessage) (atof : Reading D)

theorem foldl_pushEntry (k : Nat) (hk : k ≤ q.entries.length) :
    (List.range k).foldl (MassQuote.pushEntry atof q.toFIXMessage) [] =
      (q.entries.take k).mapIdx (Entry.counted atof q.toFIXMessage) := by
  induction k with
  | zero => rfl
  | succ k ih =>
    have hlt : k < q.entries.length := hk
    obtain ⟨hne, hlen, hclean⟩ := q.symbols q.entries[k] (getElem_mem hlt)
    have hsym : q.getFieldNth 55 k = some q.entries[k].lead := by
      have h := q.getFieldNth_lead k
      rw [List.getElem?_eq_getElem hlt] at h
      exact h
    have hroom : ((q.entries.take k).mapIdx (Entry.counted atof q.toFIXMessage)).length < MassQuote.maxEntries := by
      rw [length_mapIdx, length_take]
      have hfew := q.few
      omega
    rw [range_succ, foldl_append, ih (Nat.le_of_lt hlt), foldl_cons, foldl_nil]
    unfold MassQuote.pushEntry
    rw [if_pos hroom, hsym]
    dsimp only
    rw [if_neg (firstChar_ne_zero hne hclean), strncpy_eq hlen hclean, take_succ_eq_append_getElem hlt, mapIdx_concat,
      length_take, Nat.min_eq_left (Nat.le_of_lt hlt)]
    rfl

theorem entries_eq :
    (parseMassQuote atof q.toFIXMessage).entries = q.entries.mapIdx (Entry.counted atof q.toFIXMessage) := by
  have htype : ¬FIXSession.firstChar q.getMsgType ≠ 'i'.toUInt8 := by
    rw [q.getMsgType_eq]
    decide
  have hcount : q.countField 55 = q.entries.length := q.countField_lead
  unfold parseMassQuote
  rw [if_neg htype]
  rw [hcount, q.foldl_pushEntry atof q.entries.length (Nat.le_refl _), take_length]

/-- Every entry is returned, in order, with the prices that stand in it. -/
def OwnPrices : Prop := (parseMassQuote atof q.toFIXMessage).entries = q.entries.map (Entry.quoted atof)

end QuoteMessage

/-- What stands in a column after a row that has nothing reads as 0. -/
def ZeroAfterGap (r : Reading D) (col : List (Option (List UInt8))) : Prop :=
  ∀ i j : Nat, i < j → col[i]? = some none → r.read (col[j]?).join = r.zero

theorem zeroAfterGap_iff (r : Reading D) (col : List (Option (List UInt8))) :
    ZeroAfterGap r col ↔ ∀ i < col.length, r.read col.reduceOption[i]? = r.read (col[i]?).join :=
  (reads_own_iff r.read col).symm

namespace QuoteMessage

variable (q : QuoteMessage) (atof : Reading D)

theorem counted_eq_iff {i : Nat} {e : Entry} (he : q.entries[i]? = some e) :
    e.counted atof q.toFIXMessage i = e.quoted atof ↔
      atof.read (q.entries.map (·.first)).reduceOption[i]? = atof.read ((q.entries.map (·.first))[i]?).join ∧
      atof.read (q.entries.map (·.second)).reduceOption[i]? = atof.read ((q.entries.map (·.second))[i]?).join := by
  have hbid : q.getDoubleNth atof 132 i = atof.read (q.entries.map (·.first)).reduceOption[i]? :=
    congrArg atof.read (q.getFieldNth_first i)
  have hoffer : q.getDoubleNth atof 133 i = atof.read (q.entries.map (·.second)).reduceOption[i]? :=
    congrArg atof.read (q.getFieldNth_second i)
  unfold Entry.counted Entry.quoted
  rw [hbid, hoffer, List.getElem?_map, List.getElem?_map, he]
  simp

theorem ownPrices_iff :
    q.OwnPrices atof ↔ ZeroAfterGap atof (q.entries.map (·.first)) ∧ ZeroAfterGap atof (q.entries.map (·.second)) := by
  rw [zeroAfterGap_iff, zeroAfterGap_iff, length_map, length_map]
  unfold OwnPrices
  rw [q.entries_eq]
  constructor
  · intro h
    have hrow : ∀ i (hi : i < q.entries.length), q.entries[i].counted atof q.toFIXMessage i = q.entries[i].quoted atof := by
      intro i hi
      have hat := congrArg (fun l : List (MassQuote.Entry D) => l[i]?) h
      rw [List.getElem?_mapIdx, List.getElem?_map, List.getElem?_eq_getElem hi] at hat
      exact Option.some.inj hat
    constructor
    · intro i hi
      exact ((q.counted_eq_iff atof (List.getElem?_eq_getElem hi)).mp (hrow i hi)).1
    · intro i hi
      exact ((q.counted_eq_iff atof (List.getElem?_eq_getElem hi)).mp (hrow i hi)).2
  · intro ⟨hfirst, hsecond⟩
    apply ext_getElem?
    intro i
    rw [List.getElem?_mapIdx, List.getElem?_map]
    cases he : q.entries[i]? with
    | none => rfl
    | some e =>
      have hi : i < q.entries.length := (List.getElem?_eq_some_iff.mp he).1
      exact congrArg some ((q.counted_eq_iff atof he).mpr ⟨hfirst i hi, hsecond i hi⟩)

end QuoteMessage

/-! ## The sides of a snapshot -/

/-- The last entry of a type. -/
def lastOfType (c : UInt8) (entries : List Entry) : Option Entry := (entries.filter (·.lead = [c])).getLast?

/-- The loop takes the entry for one of type `c`: it looks at the first character only. -/
def Entry.taken (c : UInt8) (e : Entry) : Bool := FIXSession.firstChar e.lead = c

/-- The fields that stand in the entries. -/
def standing (field : Entry → Option (List UInt8)) (entries : List Entry) : List (List UInt8) := entries.filterMap field

def lacking (field : Entry → Option (List UInt8)) (entries : List Entry) : Nat := entries.countP fun e => (field e).isNone

/-- For the last entry `e` that is taken for type `c`, with `before` and `after` around it. Where its type is `c`, either it has the
field and so has every entry before it, or a field behind it reads as its own (as 0 where it has none): as many places on as there
are entries before it that lack the field. Where its type goes on behind the first character, the like holds of the field of the
last entry that is of type `c`. -/
def Undisturbed (r : Reading D) (c : UInt8) (field : Entry → Option (List UInt8)) (before : List Entry) (e : Entry)
    (after : List Entry) : Prop :=
  if e.lead = [c] then
    match field e with
    | some v => lacking field before = 0 ∨ r.read (standing field after)[lacking field before - 1]? = r.ofText v
    | none => r.read (standing field after)[lacking field before]? = r.zero
  else r.read (standing field (e :: after))[lacking field before]? = r.read ((lastOfType c before).bind field)

/-- If an entry is taken for type `c`, the last one is undisturbed. -/
def InPlace (r : Reading D) (c : UInt8) (field : Entry → Option (List UInt8)) (entries : List Entry) : Prop :=
  ∀ before e after, entries = before ++ e :: after → e.taken c → (∀ x ∈ after, x.taken c = false) →
    Undisturbed r c field before e after

/-- So it is when no entry lacks the field and every type is one character. -/
theorem InPlace.of_full (r : Reading D) (c : UInt8) {field : Entry → Option (List UInt8)} {entries : List Entry}
    (hfull : ∀ e ∈ entries, (field e).isSome) (hone : ∀ e ∈ entries, e.lead.length = 1) : InPlace r c field entries := by
  rintro before e after rfl htaken -
  obtain ⟨b, hb⟩ := length_eq_one_iff.mp (hone e (by simp))
  obtain ⟨v, hv⟩ := Option.isSome_iff_exists.mp (hfull e (by simp))
  have htype : e.lead = [c] := by
    have hfirst : FIXSession.firstChar e.lead = c := of_decide_eq_true htaken
    rw [hb] at hfirst ⊢
    exact congrArg (fun b => [b]) hfirst
  have hnone : lacking field before = 0 := countP_eq_zero.mpr fun x hx => by
    have hx' := hfull x (mem_append_left _ hx)
    rw [Option.isNone_eq_false_iff.mpr hx']
    exact Bool.false_ne_true
  unfold Undisturbed
  rw [if_pos htype, hv]
  exact .inl hnone

section

variable {c : UInt8} {before after : List Entry} {e : Entry} {field : Entry → Option (List UInt8)}

theorem taken_of_type (h : e.lead = [c]) : e.taken c = true := by
  unfold Entry.taken
  rw [h]
  exact decide_eq_true rfl

/-- What is found for an entry is what stands as many places on as there are gaps before it. -/
theorem displaced_split : displaced ((before ++ e :: after).map field) before.length =
    (standing field (e :: after))[lacking field before]? := by
  have hbefore : (map field before).length = before.length := length_map ..
  unfold displaced gaps
  rw [map_append, ← hbefore, take_left, drop_left, filter_map, length_map, ← countP_eq_length_filter, reduceOption, filterMap_map]
  rfl

theorem lastOfType_split (hafter : ∀ x ∈ after, x.taken c = false) :
    lastOfType c (before ++ e :: after) = if e.lead = [c] then some e else lastOfType c before := by
  have hnone : after.filter (·.lead = [c]) = [] := filter_eq_nil_iff.mpr fun x hx => by
    intro htype
    have htaken := taken_of_type (of_decide_eq_true htype)
    rw [hafter x hx] at htaken
    cases htaken
  unfold lastOfType
  rw [filter_append, filter_cons, hnone]
  by_cases htype : e.lead = [c]
  · simp [htype]
  · simp [htype]

/-- The entry is undisturbed just when what is found for it reads as what is asked of it. -/
theorem undisturbed_iff (r : Reading D) (hafter : ∀ x ∈ after, x.taken c = false) :
    Undisturbed r c field before e after ↔ r.read (displaced ((before ++ e :: after).map field) before.length) =
      r.read ((lastOfType c (before ++ e :: after)).bind field) := by
  rw [displaced_split, lastOfType_split hafter]
  unfold Undisturbed
  split
  · rw [Option.bind_some]
    unfold standing
    cases hfield : field e with
    | none =>
      rw [filterMap_cons_none hfield]
      rfl
    | some v =>
      rw [filterMap_cons_some hfield]
      cases lacking field before with
      | zero => simp
      | succ g => simp [Reading.read]
  · rfl

/-- What the loop finds reads as what is asked exactly if the last entry taken, if any, is undisturbed. -/
theorem inPlace_iff (r : Reading D) (c : UInt8) (field : Entry → Option (List UInt8)) (entries : List Entry) :
    InPlace r c field entries ↔ r.read ((lastIdx (Entry.taken c) entries).bind (displaced (entries.map field))) =
      r.read ((lastOfType c entries).bind field) := by
  rcases last_split (Entry.taken c) entries with hnone | ⟨before, e, after, rfl, htaken, hafter⟩
  · have hidx : lastIdx (Entry.taken c) entries = none := lastIdx_none hnone
    have htype : entries.filter (·.lead = [c]) = [] := filter_eq_nil_iff.mpr fun x hx htype => by
      have htaken := taken_of_type (of_decide_eq_true htype)
      rw [hnone x hx] at htaken
      cases htaken
    unfold lastOfType
    rw [hidx, htype]
    refine iff_of_true ?_ rfl
    rintro before e after rfl htaken -
    rw [hnone e (by simp)] at htaken
    cases htaken
  · rw [lastIdx_split htaken hafter, Option.bind_some, ← undisturbed_iff r hafter]
    constructor
    · intro h
      exact h before e after rfl htaken hafter
    · intro h before' e' after' heq htaken' hafter'
      have hsame : lastIdx _ (before ++ e :: after) = some before.length := lastIdx_split htaken hafter
      rw [heq, lastIdx_split htaken' hafter'] at hsame
      obtain ⟨rfl, hrest⟩ := append_inj heq (Option.some.inj hsame).symm
      obtain ⟨rfl, rfl⟩ := cons_eq_cons.mp hrest
      exact h

end

namespace SnapshotMessage

variable (w : SnapshotMessage) (atof : Reading D) (atoi : Reading E) {X : Type} {i : Nat} {e : Entry} {c : UInt8}

/-- Price and size of each side are those of the last entry of its type. -/
def OwnSides : Prop :=
  (parseMdSnapshot atof atoi w.toFIXMessage).bidPx = atof.read ((lastOfType '0'.toUInt8 w.entries).bind (·.first)) ∧
  (parseMdSnapshot atof atoi w.toFIXMessage).bidSz = atoi.read ((lastOfType '0'.toUInt8 w.entries).bind (·.second)) ∧
  (parseMdSnapshot atof atoi w.toFIXMessage).askPx = atof.read ((lastOfType '1'.toUInt8 w.entries).bind (·.first)) ∧
  (parseMdSnapshot atof atoi w.toFIXMessage).askSz = atoi.read ((lastOfType '1'.toUInt8 w.entries).bind (·.second))

/-- The `i`-th entry is taken for one of type `c`. -/
def takes (c : UInt8) (i : Nat) : Bool := w.entries[i]?.any (Entry.taken c)

/-- A field of the result that each entry of type `c` sets to `value`, and that no other entry changes, is what the last of them
sets it to. -/
theorem foldl_applyEntry (field : MDSnapshot D E → X) (c : UInt8) (value : Nat → X)
    (hstep : ∀ r i, field (MDSnapshot.applyEntry atof atoi w.toFIXMessage r i) = if w.takes c i then value i else field r)
    (r : MDSnapshot D E) (n : Nat) :
    field ((List.range n).foldl (MDSnapshot.applyEntry atof atoi w.toFIXMessage) r) =
      ((List.range n).filter (w.takes c)).getLast?.elim (field r) value := by
  rw [← foldl_last]
  exact (foldl_hom field fun r i => (hstep r i).symm).symm

theorem applyEntry_eq (he : w.entries[i]? = some e) (r : MDSnapshot D E) :
    MDSnapshot.applyEntry atof atoi w.toFIXMessage r i =
      if FIXSession.firstChar e.lead = '0'.toUInt8 then
        { r with bidPx := w.getDoubleNth atof 270 i, bidSz := w.getIntNth atoi 271 i }
      else if FIXSession.firstChar e.lead = '1'.toUInt8 then
        { r with askPx := w.getDoubleNth atof 270 i, askSz := w.getIntNth atoi 271 i }
      else r := by
  have htype : w.getFieldNth 269 i = some e.lead := by
    have h := w.getFieldNth_lead i
    rw [he] at h
    exact h
  obtain ⟨hne, hclean⟩ := w.types e (mem_of_getElem? he)
  unfold MDSnapshot.applyEntry
  rw [htype]
  dsimp only
  rw [if_neg (firstChar_ne_zero hne hclean)]

theorem applyEntry_none (he : w.entries[i]? = none) (r : MDSnapshot D E) :
    MDSnapshot.applyEntry atof atoi w.toFIXMessage r i = r := by
  have htype : w.getFieldNth 269 i = none := by
    have h := w.getFieldNth_lead i
    rw [he] at h
    exact h
  unfold MDSnapshot.applyEntry
  rw [htype]

theorem takes_eq (he : w.entries[i]? = some e) : (w.takes c i) = (FIXSession.firstChar e.lead = c) := by
  unfold takes Entry.taken
  rw [he, Option.any_some, decide_eq_true_eq]

theorem takes_none (he : w.entries[i]? = none) : w.takes c i = false := by
  unfold takes
  rw [he]
  rfl

/-- What one turn does to each side. -/
theorem applyEntry_sides (r : MDSnapshot D E) (i : Nat) :
    let r' := MDSnapshot.applyEntry atof atoi w.toFIXMessage r i
    r'.bidPx = (if w.takes '0'.toUInt8 i then w.getDoubleNth atof 270 i else r.bidPx) ∧
    r'.bidSz = (if w.takes '0'.toUInt8 i then w.getIntNth atoi 271 i else r.bidSz) ∧
    r'.askPx = (if w.takes '1'.toUInt8 i then w.getDoubleNth atof 270 i else r.askPx) ∧
    r'.askSz = (if w.takes '1'.toUInt8 i then w.getIntNth atoi 271 i else r.askSz) := by
  cases he : w.entries[i]? with
  | none =>
    rw [w.applyEntry_none atof atoi he, w.takes_none he, w.takes_none he]
    exact ⟨rfl, rfl, rfl, rfl⟩
  | some e =>
    rw [w.applyEntry_eq atof atoi he]
    simp only [w.takes_eq he]
    by_cases hbid : FIXSession.firstChar e.lead = '0'.toUInt8
    · have hask : ¬FIXSession.firstChar e.lead = '1'.toUInt8 := by
        rw [hbid]
        decide
      simp only [if_pos hbid, if_neg hask, and_self]
    · by_cases hask : FIXSession.firstChar e.lead = '1'.toUInt8
      · simp only [if_neg hbid, if_pos hask, and_self]
      · simp only [if_neg hbid, if_neg hask, and_self]

/-- What the loop reads of a field for the last entry it takes. -/
theorem taken_eq (reading : Reading X) (c : UInt8) (tag : Int) (field : Entry → Option (List UInt8))
    (hfield : ∀ i, w.getFieldNth tag i = (w.entries.map field).reduceOption[i]?) :
    ((List.range w.entries.length).filter (w.takes c)).getLast?.elim reading.zero (fun i => reading.read (w.getFieldNth tag i)) =
      reading.read ((lastIdx (Entry.taken c) w.entries).bind (displaced (w.entries.map field))) := by
  have hlast : ((List.range w.entries.length).filter (w.takes c)).getLast? = lastIdx (Entry.taken c) w.entries := rfl
  rw [hlast]
  cases lastIdx (Entry.taken c) w.entries with
  | none => rfl
  | some b =>
    rw [Option.elim_some, Option.bind_some, hfield, reduceOption_getElem?]

theorem sides_eq :
    let r := parseMdSnapshot atof atoi w.toFIXMessage
    r.bidPx = atof.read ((lastIdx (Entry.taken '0'.toUInt8) w.entries).bind (displaced (w.entries.map (·.first)))) ∧
    r.bidSz = atoi.read ((lastIdx (Entry.taken '0'.toUInt8) w.entries).bind (displaced (w.entries.map (·.second)))) ∧
    r.askPx = atof.read ((lastIdx (Entry.taken '1'.toUInt8) w.entries).bind (displaced (w.entries.map (·.first)))) ∧
    r.askSz = atoi.read ((lastIdx (Entry.taken '1'.toUInt8) w.entries).bind (displaced (w.entries.map (·.second)))) := by
  have htype : ¬FIXSession.firstChar w.getMsgType ≠ 'W'.toUInt8 := by
    rw [w.getMsgType_eq]
    decide
  have hcount : w.countField 269 = w.entries.length := w.countField_lead
  have hfirst := w.getFieldNth_first
  have hsecond := w.getFieldNth_second
  unfold parseMdSnapshot
  rw [if_neg htype, hcount]
  refine ⟨?_, ?_, ?_, ?_⟩
  · rw [← w.taken_eq atof _ _ _ hfirst]
    exact w.foldl_applyEntry atof atoi (·.bidPx) _ _ (fun r i => (w.applyEntry_sides atof atoi r i).1) _ _
  · rw [← w.taken_eq atoi _ _ _ hsecond]
    exact w.foldl_applyEntry atof atoi (·.bidSz) _ _ (fun r i => (w.applyEntry_sides atof atoi r i).2.1) _ _
  · rw [← w.taken_eq atof _ _ _ hfirst]
    exact w.foldl_applyEntry atof atoi (·.askPx) _ _ (fun r i => (w.applyEntry_sides atof atoi r i).2.2.1) _ _
  · rw [← w.taken_eq atoi _ _ _ hsecond]
    exact w.foldl_applyEntry atof atoi (·.askSz) _ _ (fun r i => (w.applyEntry_sides atof atoi r i).2.2.2) _ _

theorem ownSides_iff :
    w.OwnSides atof atoi ↔
      InPlace atof '0'.toUInt8 (·.first) w.entries ∧ InPlace atoi '0'.toUInt8 (·.second) w.entries ∧
      InPlace atof '1'.toUInt8 (·.first) w.entries ∧ InPlace atoi '1'.toUInt8 (·.second) w.entries := by
  obtain ⟨hbidPx, hbidSz, haskPx, haskSz⟩ := w.sides_eq atof atoi
  unfold OwnSides
  rw [hbidPx, hbidSz, haskPx, haskSz, inPlace_iff, inPlace_iff, inPlace_iff, inPlace_iff]

end SnapshotMessage

/-- The entries of a quote get their own prices just when, once an entry lacks a price, no later one has it other than 0; a side of a
snapshot is its last entry just when no gap before that entry, and no longer type, brings it another field that reads otherwise. -/
theorem groups_apart_iff (atof : Reading D) (atoi : Reading E) :
    (∀ q : QuoteMessage,
      q.OwnPrices atof ↔ ZeroAfterGap atof (q.entries.map (·.first)) ∧ ZeroAfterGap atof (q.entries.map (·.second))) ∧
    ∀ w : SnapshotMessage,
      w.OwnSides atof atoi ↔
        InPlace atof '0'.toUInt8 (·.first) w.entries ∧ InPlace atoi '0'.toUInt8 (·.second) w.entries ∧
        InPlace atof '1'.toUInt8 (·.first) w.entries ∧ InPlace atoi '1'.toUInt8 (·.second) w.entries := by
  constructor
  · intro q
    exact q.ownPrices_iff atof
  · intro w
    exact w.ownSides_iff atof atoi

/-- AAPL without prices, then MSFT with both. -/
def unpricedFirst : QuoteMessage where
  toFIXMessage := .parse (ascii "35=i|117=Q1|295=2|55=AAPL|55=MSFT|132=5|133=6|")
  head := [⟨35, ascii "i"⟩, ⟨117, ascii "Q1"⟩, ⟨295, ascii "2"⟩]
  entries := [⟨ascii "AAPL", none, none⟩, ⟨ascii "MSFT", some (ascii "5"), some (ascii "6")⟩]
  tail := []
  layout := by decide +kernel
  others := by decide +kernel
  typed := by decide +kernel
  few := by decide +kernel
  symbols := by decide +kernel

/-- A bid without price, then an offer. -/
def unpricedBid : SnapshotMessage where
  toFIXMessage := .parse (ascii "35=W|262=M1|55=AAPL|268=2|269=0|269=1|270=100.10|271=50|")
  head := [⟨35, ascii "W"⟩, ⟨262, ascii "M1"⟩, ⟨55, ascii "AAPL"⟩, ⟨268, ascii "2"⟩]
  entries := [⟨ascii "0", none, none⟩, ⟨ascii "1", some (ascii "100.10"), some (ascii "50")⟩]
  tail := []
  layout := by decide +kernel
  others := by decide +kernel
  typed := by decide +kernel
  types := by decide +kernel

theorem unpriced_takes_next :
    (parseMassQuote .text unpricedFirst.toFIXMessage).entries =
      [⟨ascii "AAPL", ascii "5", ascii "6"⟩, ⟨ascii "MSFT", ascii "0", ascii "0"⟩] ∧
    ¬unpricedFirst.OwnPrices .text ∧
    (parseMdSnapshot .text .text unpricedBid.toFIXMessage).bidPx = ascii "100.10" ∧
    (parseMdSnapshot .text .text unpricedBid.toFIXMessage).askPx = ascii "0" ∧
    ¬unpricedBid.OwnSides .text .text := by
  refine ⟨?_, ?_, ?_, ?_, ?_⟩
  · decide +kernel
  · unfold QuoteMessage.OwnPrices
    decide +kernel
  · decide +kernel
  · decide +kernel
  · unfold SnapshotMessage.OwnSides
    decide +kernel

end HftLab.Fix
