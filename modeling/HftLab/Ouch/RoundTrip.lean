/-
  HftLab.Ouch.RoundTrip — what is written is what is read.

  A `Report` is an exchange message with the arguments of its `encode_*`, a `Request` one of the client's.
  - every layout is packed (`Report.packed`, `Request.packed`) and as long as `expected_length` says;
  - with texts that fit their fields and numbers of the wire's width, reading gives the arguments back (`parse_encode`);
  - a message that is cut short is an error (`parseResponse_short`, `parseOrder_short`).
-/

import HftLab.Ouch.Protocol

namespace HftLab.Ouch

open Lib List

variable {src p l : List UInt8}

/-! ## Numbers and texts -/

@[simp] theorem writeU32Be_length (val : Nat) : (writeU32Be val).length = 4 := rfl

@[simp] theorem writeU64Be_length (val : Nat) : (writeU64Be val).length = 8 := rfl

@[simp] theorem writePadded_length (src : List UInt8) (len : Nat) : (writePadded src len).length = len := pad_length _ _ _

theorem writeU32Be_eq (val : Nat) : writeU32Be val = beBytes 4 val := by
  simp [writeU32Be, beBytes, Nat.shiftRight_eq_div_pow]

theorem writeU64Be_eq (val : Nat) : writeU64Be val = beBytes 8 val := by
  simp [writeU64Be, beBytes, range_succ, Nat.shiftRight_eq_div_pow]

theorem readU32Be_eq (h : src.length = 4) : readU32Be src = beNat src := by
  match src, h with
  | [a, b, c, d], _ =>
    refine (shiftLeft_four a.toNat b.toNat c.toNat d.toNat).trans ?_
    simp only [shiftLeft_or, beNat, foldl_cons, foldl_nil, Nat.zero_mul, Nat.zero_add]

theorem readU64Be_eq (h : src.length = 8) : readU64Be src = beNat src := by
  match src, h with
  | [a, b, c, d, e, f, g, k], _ =>
    simp [readU64Be, beNat, range_succ, shiftLeft_or]

/-- Only the front of the source is read. -/
theorem readU32Be_take (src : List UInt8) : readU32Be (src.take 4) = readU32Be src := by
  simp [readU32Be, getD_eq_getElem?_getD]

theorem readU64Be_take (src : List UInt8) : readU64Be (src.take 8) = readU64Be src := by
  simp [readU64Be, range_succ, getD_eq_getElem?_getD, List.getElem?_take]

theorem uint32Of_lt (x : Int) : uint32Of x < 4294967296 := by
  unfold uint32Of
  omega

theorem uint64Of_lt (x : Int) : uint64Of x < 18446744073709551616 := by
  unfold uint64Of
  omega

theorem i64_uint64Of {x : Int} (h : IsInt64 x) : i64 (uint64Of x) = x := by
  unfold uint64Of
  rw [Int.toNat_of_nonneg (by omega)]
  show (x % (18446744073709551616 : Nat)).bmod 18446744073709551616 = x
  rw [Int.emod_bmod]
  exact i64_eq h

theorem toNat_char (b : UInt8) : (Char.ofNat b.toNat).toNat = b.toNat := by
  have hlt : b.toNat < 256 := b.toNat_lt
  have hvalid : b.toNat.isValidChar := .inl (by omega)
  unfold Char.ofNat
  rw [dif_pos hvalid]
  rfl

theorem char_eq_iff (b : UInt8) : Char.ofNat b.toNat = 'B' ↔ b = 'B'.toUInt8 := by
  rw [← UInt8.toNat_inj, ← Char.toNat_inj, toNat_char]
  rfl

/-- A text that a field of `len` bytes holds: no NUL, no space at its end. -/
structure Text (len : Nat) (s : List UInt8) : Prop where
  length_le : s.length ≤ len
  no_nul : 0 ∉ s
  no_space : s.getLast? ≠ some space

theorem stripPadding_writePadded {len : Nat} {s : List UInt8} (h : Text len s) : stripPadding (writePadded s len) len = s := by
  have htake : (writePadded s len).take len = writePadded s len := take_of_length_le (by simp)
  unfold stripPadding
  rw [htake]
  unfold writePadded
  rw [cString_eq h.no_nul, unpad_pad h.length_le h.no_space, cString_eq h.no_nul]

/-! ## Reading a packed layout -/

section

variable {m : Encoded} (h : m.Packed) (buf : List UInt8) (k : Nat) {i : Nat}

include h

theorem read_text {s : List UInt8} {len : Nat} (hf : m.fields[k]? = some (i, writePadded s len)) (hs : Text len s) :
    stripPadding ((m.message buf).drop i) len = s := by
  have hslice : ((m.message buf).drop i).take len = writePadded s len := h.slice buf (mem_of_getElem? hf) (writePadded_length _ _)
  have hstrip := stripPadding_writePadded hs
  unfold stripPadding at hstrip ⊢
  rwa [hslice, ← take_of_length_le (i := len) (l := writePadded s len) (by simp)]

theorem read_u32 {val : Nat} (hf : m.fields[k]? = some (i, writeU32Be val)) (hv : val < 4294967296) :
    readU32Be ((m.message buf).drop i) = val := by
  have hslice : ((m.message buf).drop i).take 4 = writeU32Be val := h.slice buf (mem_of_getElem? hf) (writeU32Be_length _)
  rw [← readU32Be_take, hslice, readU32Be_eq (writeU32Be_length _), writeU32Be_eq, beNat_beBytes hv]

theorem read_shares {x : Int} (hf : m.fields[k]? = some (i, writeU32Be (uint32Of x))) (hx : IsInt32 x) :
    i32 (readU32Be ((m.message buf).drop i)) = x := by
  rw [read_u32 h buf k hf (uint32Of_lt x), i32_uint32Of, i32_eq hx]

theorem read_ref {x : Int} (hf : m.fields[k]? = some (i, writeU64Be (uint64Of x))) (hx : IsInt64 x) :
    i64 (readU64Be ((m.message buf).drop i)) = x := by
  have hslice : ((m.message buf).drop i).take 8 = writeU64Be (uint64Of x) :=
    h.slice buf (mem_of_getElem? hf) (writeU64Be_length _)
  rw [← readU64Be_take, hslice, readU64Be_eq (writeU64Be_length _), writeU64Be_eq, beNat_beBytes (uint64Of_lt x), i64_uint64Of hx]

theorem read_byte {b : UInt8} (hf : m.fields[k]? = some (i, [b])) : (m.message buf).getD i 0 = b :=
  h.getD buf (mem_of_getElem? hf) 0

theorem read_char {b : UInt8} (hf : m.fields[k]? = some (i, [b])) : charAt (m.message buf) i = Char.ofNat b.toNat := by
  unfold charAt
  rw [read_byte h buf k hf]

end

/-! ## Exchange messages -/

inductive Report where
  | accepted (token : List UInt8) (side : UInt8) (shares : Int) (stock : List UInt8) (price : Nat) (orderRef : Int) (tif : UInt8)
  | executed (token : List UInt8) (shares : Int) (price : Nat) (matchNumber : Int)
  | cancelled (token : List UInt8) (shares : Int) (reason : UInt8)
  | rejected (token : List UInt8) (reason : UInt8)
  | cancelReject (token : List UInt8) (reason : UInt8)
  | cancelPending (token : List UInt8)
  | aiqCanceled (token : List UInt8) (decrementShares : Int) (reason : UInt8)
  | systemEvent (timestamp : Int) (eventCode : UInt8)
  | restated (token : List UInt8) (shares : Int) (price : Nat) (reason : UInt8)
  | replaced (replToken prevToken : List UInt8) (shares : Int) (price : Nat) (orderRef : Int)
  | brokenTrade (token : List UInt8) (shares matchNumber : Int) (reason : UInt8)

namespace Report

def encode : Report → Encoded
  | accepted token side shares stock price orderRef tif => encodeAccepted token side shares stock price orderRef tif
  | executed token shares price matchNumber => encodeExecuted token shares price matchNumber
  | cancelled token shares reason => encodeCancelled token shares reason
  | rejected token reason => encodeRejected token reason
  | cancelReject token reason => encodeCancelReject token reason
  | cancelPending token => encodeCancelPending token
  | aiqCanceled token decrementShares reason => encodeAiqCanceled token decrementShares reason
  | systemEvent timestamp eventCode => encodeSystemEvent timestamp eventCode
  | restated token shares price reason => encodeRestated token shares price reason
  | replaced replToken prevToken shares price orderRef => encodeReplaced replToken prevToken shares price orderRef
  | brokenTrade token shares matchNumber reason => encodeBrokenTrade token shares matchNumber reason

def typeChar : Report → Char
  | accepted .. => 'A'
  | executed .. => 'E'
  | cancelled .. => 'C'
  | rejected .. => 'J'
  | cancelReject .. => 'I'
  | cancelPending .. => 'P'
  | aiqCanceled .. => 'D'
  | systemEvent .. => 'S'
  | restated .. => 'R'
  | replaced .. => 'U'
  | brokenTrade .. => 'B'

/-- What the client is to make of the report. -/
def response : Report → OUCHResponse
  | accepted token side shares stock price orderRef _ =>
    { type := .accepted, token, side := some (if side = 'B'.toUInt8 then .buy else .sell), shares, stock, price, orderRef }
  | executed token shares price matchNumber => { type := .executed, token, shares, price, matchNumber }
  | cancelled token shares reason => { type := .cancelled, token, shares, reason }
  | rejected token reason => { type := .rejected, token, reason }
  | cancelReject token reason => { type := .cxlReject, token, reason }
  | cancelPending token => { type := .cxlPend, token }
  | aiqCanceled token decrementShares reason => { type := .aiqCxl, token, shares := decrementShares, reason }
  | systemEvent timestamp eventCode => { type := .sysEvent, matchNumber := timestamp, reason := eventCode }
  | restated token shares price reason => { type := .restated, token, shares, price, reason }
  | replaced replToken prevToken shares price orderRef =>
    { type := .replaced, token := replToken, prevToken, shares, price, orderRef }
  | brokenTrade token shares matchNumber reason => { type := .broken, token, shares, matchNumber, reason }

/-- The texts fit their fields, the numbers are of the wire's width. -/
def Valid : Report → Prop
  | accepted token _ shares stock price orderRef _ =>
    Text 14 token ∧ IsInt32 shares ∧ Text 8 stock ∧ price < 4294967296 ∧ IsInt64 orderRef
  | executed token shares price matchNumber => Text 14 token ∧ IsInt32 shares ∧ price < 4294967296 ∧ IsInt64 matchNumber
  | cancelled token shares _ | aiqCanceled token shares _ => Text 14 token ∧ IsInt32 shares
  | rejected token _ | cancelReject token _ | cancelPending token => Text 14 token
  | systemEvent timestamp _ => IsInt64 timestamp
  | restated token shares price _ => Text 14 token ∧ IsInt32 shares ∧ price < 4294967296
  | replaced replToken prevToken shares price orderRef =>
    Text 14 replToken ∧ Text 14 prevToken ∧ IsInt32 shares ∧ price < 4294967296 ∧ IsInt64 orderRef
  | brokenTrade token shares matchNumber _ => Text 14 token ∧ IsInt32 shares ∧ IsInt64 matchNumber

theorem packed (r : Report) : r.encode.Packed := by
  cases r <;> constructor <;>
    simp [encode, Adjacent, fieldBytes, encodeAccepted, encodeExecuted, encodeCancelled, encodeRejected, encodeCancelReject,
      encodeCancelPending, encodeAiqCanceled, encodeSystemEvent, encodeRestated, encodeReplaced, encodeBrokenTrade]

theorem charAt_zero (r : Report) (buf : List UInt8) : charAt (r.encode.message buf) 0 = r.typeChar := by
  have hhead : ∀ b, r.encode.fields[0]? = some (0, [b]) → charAt (r.encode.message buf) 0 = Char.ofNat b.toNat :=
    fun b hf => read_char r.packed buf 0 hf
  cases r <;> exact hhead _ rfl

theorem encode_length (r : Report) : r.encode.length = expectedLength r.typeChar := by cases r <;> rfl

/-- The length is that of the type, which is never 0. -/
theorem message_length (r : Report) (buf : List UInt8) : (r.encode.message buf).length = expectedLength r.typeChar := by
  rw [r.packed.message_length, encode_length]

theorem expectedLength_pos (r : Report) : 0 < expectedLength r.typeChar := by cases r <;> simp [typeChar, expectedLength]

theorem parse_encode (r : Report) (buf : List UInt8) (hr : r.Valid) : parseResponse (r.encode.message buf) = r.response := by
  have h := r.packed
  have hlen := r.message_length buf
  have hchar := r.charAt_zero buf
  cases r with
  | accepted token side shares stock price orderRef tif =>
    obtain ⟨ht, hs, hst, hp, ho⟩ := hr
    have htoken := read_text h buf 1 rfl ht
    have hside := read_char h buf 2 rfl
    have hshares := read_shares h buf 3 rfl hs
    have hstock := read_text h buf 4 rfl hst
    have hprice := read_u32 h buf 5 rfl hp
    have href := read_ref h buf 7 rfl ho
    simp [-drop_one, -getD_eq_getElem?_getD, parseResponse, hlen, hchar, typeChar, expectedLength, response, htoken, hside,
      hshares, hstock, hprice, href, char_eq_iff]
  | executed token shares price matchNumber =>
    obtain ⟨ht, hs, hp, hm⟩ := hr
    have htoken := read_text h buf 1 rfl ht
    have hshares := read_shares h buf 2 rfl hs
    have hprice := read_u32 h buf 3 rfl hp
    have hmatch := read_ref h buf 4 rfl hm
    simp [-drop_one, -getD_eq_getElem?_getD, parseResponse, hlen, hchar, typeChar, expectedLength, response, htoken, hshares, hprice, hmatch]
  | cancelled token shares reason =>
    obtain ⟨ht, hs⟩ := hr
    have htoken := read_text h buf 1 rfl ht
    have hshares := read_shares h buf 2 rfl hs
    have hreason := read_byte h buf 3 rfl
    simp [-drop_one, -getD_eq_getElem?_getD, parseResponse, hlen, hchar, typeChar, expectedLength, response, htoken, hshares, hreason]
  | rejected token reason =>
    have htoken := read_text h buf 1 rfl hr
    have hreason := read_byte h buf 2 rfl
    simp [-drop_one, -getD_eq_getElem?_getD, parseResponse, hlen, hchar, typeChar, expectedLength, response, htoken, hreason]
  | cancelReject token reason =>
    have htoken := read_text h buf 1 rfl hr
    have hreason := read_byte h buf 2 rfl
    simp [-drop_one, -getD_eq_getElem?_getD, parseResponse, hlen, hchar, typeChar, expectedLength, response, htoken, hreason]
  | cancelPending token =>
    have htoken := read_text h buf 1 rfl hr
    simp [-drop_one, -getD_eq_getElem?_getD, parseResponse, hlen, hchar, typeChar, expectedLength, response, htoken]
  | aiqCanceled token decrementShares reason =>
    obtain ⟨ht, hs⟩ := hr
    have htoken := read_text h buf 1 rfl ht
    have hshares := read_shares h buf 2 rfl hs
    have hreason := read_byte h buf 3 rfl
    simp [-drop_one, -getD_eq_getElem?_getD, parseResponse, hlen, hchar, typeChar, expectedLength, response, htoken, hshares, hreason]
  | systemEvent timestamp eventCode =>
    have htimestamp := read_ref h buf 1 rfl hr
    have hreason := read_byte h buf 2 rfl
    simp [-drop_one, -getD_eq_getElem?_getD, parseResponse, hlen, hchar, typeChar, expectedLength, response, htimestamp, hreason]
  | restated token shares price reason =>
    obtain ⟨ht, hs, hp⟩ := hr
    have htoken := read_text h buf 1 rfl ht
    have hshares := read_shares h buf 2 rfl hs
    have hprice := read_u32 h buf 3 rfl hp
    have hreason := read_byte h buf 4 rfl
    simp [-drop_one, -getD_eq_getElem?_getD, parseResponse, hlen, hchar, typeChar, expectedLength, response, htoken, hshares, hprice, hreason]
  | replaced replToken prevToken shares price orderRef =>
    obtain ⟨ht, htp, hs, hp, ho⟩ := hr
    have htoken := read_text h buf 1 rfl ht
    have hprev := read_text h buf 2 rfl htp
    have hshares := read_shares h buf 3 rfl hs
    have hprice := read_u32 h buf 4 rfl hp
    have href := read_ref h buf 5 rfl ho
    simp [-drop_one, -getD_eq_getElem?_getD, parseResponse, hlen, hchar, typeChar, expectedLength, response, htoken, hprev, hshares, hprice, href]
  | brokenTrade token shares matchNumber reason =>
    obtain ⟨ht, hs, hm⟩ := hr
    have htoken := read_text h buf 1 rfl ht
    have hshares := read_shares h buf 2 rfl hs
    have hmatch := read_ref h buf 3 rfl hm
    have hreason := read_byte h buf 4 rfl
    simp [-drop_one, -getD_eq_getElem?_getD, parseResponse, hlen, hchar, typeChar, expectedLength, response, htoken, hshares, hmatch, hreason]

end Report

/-- A message shorter than its type asks for. -/
theorem parseResponse_short {data : List UInt8} (hc : 0 < expectedLength (charAt data 0))
    (hlen : data.length < expectedLength (charAt data 0)) : (parseResponse data).type = .error := by
  unfold expectedLength at hc hlen
  unfold parseResponse
  dsimp only
  split
  · rfl
  · split at hc <;> simp_all [tooShort]

/-- The first byte of a message stays the first of each of its prefixes. -/
theorem charAt_of_front (h : p <+: l) (hp : p ≠ []) : charAt p 0 = charAt l 0 := by
  obtain ⟨t, rfl⟩ := h
  obtain ⟨b, p, rfl⟩ := exists_cons_of_ne_nil hp
  rfl

theorem length_lt_of_front (h : p <+: l) (hne : p ≠ l) : p.length < l.length :=
  lt_of_le_of_ne h.length_le fun e => hne (h.eq_of_length e)

theorem Report.parse_front (r : Report) (buf : List UInt8) (hp : p <+: r.encode.message buf) (hne : p ≠ r.encode.message buf) :
    (parseResponse p).type = .error := by
  by_cases hnil : p = []
  · rw [hnil]
    rfl
  have hchar : charAt p 0 = r.typeChar := (charAt_of_front hp hnil).trans (r.charAt_zero buf)
  have hlen := length_lt_of_front hp hne
  rw [r.message_length] at hlen
  apply parseResponse_short
  · rw [hchar]
    exact r.expectedLength_pos
  · rwa [hchar]

/-! ## Client messages -/

inductive Request where
  | enter (token : List UInt8) (side : UInt8) (shares : Int) (stock : List UInt8) (price : Nat) (tif : UInt8)
  | cancel (token : List UInt8) (shares : Int)
  | replace (existingToken newToken : List UInt8) (shares : Int) (price : Nat)
  | modify (token : List UInt8) (newShares : Int)

namespace Request

def encode : Request → Encoded
  | enter token side shares stock price tif => enterOrder token side shares stock price tif
  | cancel token shares => cancelOrder token shares
  | replace existingToken newToken shares price => replaceOrder existingToken newToken shares price
  | modify token newShares => modifyOrder token newShares

def typeChar : Request → Char
  | enter .. => 'O'
  | cancel .. => 'X'
  | replace .. => 'U'
  | modify .. => 'M'

def wireLength : Request → Nat
  | enter .. => 33
  | cancel .. => 19
  | replace .. => 37
  | modify .. => 19

/-- What the exchange is to make of the request. -/
def order : Request → OUCHOrder
  | enter token side shares stock price tif => { type := 'O', token, side, shares, stock, price, tif, valid := true }
  | cancel token shares => { type := 'X', token, shares, valid := true }
  | replace existingToken newToken shares price => { type := 'U', token := existingToken, newToken, shares, price, valid := true }
  | modify token newShares => { type := 'M', token, shares := newShares, valid := true }

/-- The texts fit their fields, the numbers are of the wire's width. -/
def Valid : Request → Prop
  | enter token _ shares stock price _ => Text 14 token ∧ IsInt32 shares ∧ Text 8 stock ∧ price < 4294967296
  | cancel token shares | modify token shares => Text 14 token ∧ IsInt32 shares
  | replace existingToken newToken shares price =>
    Text 14 existingToken ∧ Text 14 newToken ∧ IsInt32 shares ∧ price < 4294967296

theorem packed (r : Request) : r.encode.Packed := by
  cases r <;> constructor <;> simp [encode, Adjacent, fieldBytes, enterOrder, cancelOrder, replaceOrder, modifyOrder]

theorem charAt_zero (r : Request) (buf : List UInt8) : charAt (r.encode.message buf) 0 = r.typeChar := by
  have hhead : ∀ b, r.encode.fields[0]? = some (0, [b]) → charAt (r.encode.message buf) 0 = Char.ofNat b.toNat :=
    fun b hf => read_char r.packed buf 0 hf
  cases r <;> exact hhead _ rfl

theorem message_length (r : Request) (buf : List UInt8) : (r.encode.message buf).length = r.wireLength := by
  rw [r.packed.message_length]
  cases r <;> rfl

theorem parse_encode (r : Request) (buf : List UInt8) (hr : r.Valid) : parseOrder (r.encode.message buf) = r.order := by
  have h := r.packed
  have hlen := r.message_length buf
  have hchar := r.charAt_zero buf
  cases r with
  | enter token side shares stock price tif =>
    obtain ⟨ht, hs, hst, hp⟩ := hr
    have htoken := read_text h buf 1 rfl ht
    have hside := read_byte h buf 2 rfl
    have hshares := read_shares h buf 3 rfl hs
    have hstock := read_text h buf 4 rfl hst
    have hprice := read_u32 h buf 5 rfl hp
    have htif := read_byte h buf 6 rfl
    simp [-drop_one, -getD_eq_getElem?_getD, parseOrder, hlen, hchar, typeChar, wireLength, order, htoken, hside, hshares, hstock, hprice, htif]
  | cancel token shares =>
    obtain ⟨ht, hs⟩ := hr
    have htoken := read_text h buf 1 rfl ht
    have hshares := read_shares h buf 2 rfl hs
    simp [-drop_one, -getD_eq_getElem?_getD, parseOrder, hlen, hchar, typeChar, wireLength, order, htoken, hshares]
  | replace existingToken newToken shares price =>
    obtain ⟨ht, htn, hs, hp⟩ := hr
    have htoken := read_text h buf 1 rfl ht
    have hnew := read_text h buf 2 rfl htn
    have hshares := read_shares h buf 3 rfl hs
    have hprice := read_u32 h buf 4 rfl hp
    simp [-drop_one, -getD_eq_getElem?_getD, parseOrder, hlen, hchar, typeChar, wireLength, order, htoken, hnew, hshares, hprice]
  | modify token newShares =>
    obtain ⟨ht, hs⟩ := hr
    have htoken := read_text h buf 1 rfl ht
    have hshares := read_shares h buf 2 rfl hs
    simp [-drop_one, -getD_eq_getElem?_getD, parseOrder, hlen, hchar, typeChar, wireLength, order, htoken, hshares]

theorem parse_front (r : Request) (buf : List UInt8) (hp : p <+: r.encode.message buf) (hne : p ≠ r.encode.message buf) :
    (parseOrder p).valid = false := by
  by_cases hnil : p = []
  · rw [hnil]
    rfl
  have hchar : charAt p 0 = r.typeChar := (charAt_of_front hp hnil).trans (r.charAt_zero buf)
  have hlen := length_lt_of_front hp hne
  rw [r.message_length] at hlen
  unfold parseOrder
  rw [hchar]
  cases r <;> simp_all [typeChar, wireLength]

end Request

/-! ## The codec -/

/-- Each message is read back as it was written, and no part of it is taken for a message. -/
theorem codec_round_trip (buf : List UInt8) :
    (∀ r : Report, r.Valid →
      parseResponse (r.encode.message buf) = r.response ∧
      r.encode.length = expectedLength (charAt (r.encode.message buf) 0) ∧
      (r.encode.message buf).length = r.encode.length ∧
      ∀ p, p <+: r.encode.message buf → p ≠ r.encode.message buf → (parseResponse p).type = .error) ∧
    ∀ r : Request, r.Valid →
      parseOrder (r.encode.message buf) = r.order ∧
      (r.encode.message buf).length = r.encode.length ∧
      ∀ p, p <+: r.encode.message buf → p ≠ r.encode.message buf → (parseOrder p).valid = false := by
  constructor
  · intro r hr
    refine ⟨r.parse_encode buf hr, ?_, r.packed.message_length buf, fun p hp hne => r.parse_front buf hp hne⟩
    rw [r.charAt_zero, r.encode_length]
  · intro r hr
    exact ⟨r.parse_encode buf hr, r.packed.message_length buf, fun p hp hne => r.parse_front buf hp hne⟩

/-- A negative share count, a full token and the highest price. -/
theorem codec_round_trip_sample :
    Report.Valid (.executed (List.replicate 14 65) (-1) 4294967295 (-2)) ∧
    parseResponse ((encodeExecuted (List.replicate 14 65) (-1) 4294967295 (-2)).message []) =
      { type := .executed, token := List.replicate 14 65, shares := -1, price := 4294967295, matchNumber := -2 } := by
  have hvalid : Report.Valid (.executed (List.replicate 14 65) (-1) 4294967295 (-2)) :=
    ⟨⟨by decide, by decide, by decide⟩, by decide, by decide, by decide⟩
  exact ⟨hvalid, ((codec_round_trip []).1 _ hvalid).1⟩

end HftLab.Ouch
