/-
  HftLab.Lockfree.Varlen — the byte ring of one producer and one consumer (varlen_ring.hpp), step by step.

  A step is a load of the indices, the copy of one byte, or the store of an index. `write_at` and `read_at` are the
  cells that their `memcpy` calls visit, in order. The header is in the byte order of a little-endian host. `sent` and
  `received` are ghost state: the payloads of the writes that returned true, and of the reads that returned a length.
-/

import HftLab.Lib.Ring
import HftLab.Lib.System
import HftLab.Lib.Wire

namespace HftLab.Lockfree

open Lib

/-- Where the producer stands in `write`. -/
inductive WriterPc where
  | idle
  | load (payload : List UInt8)
  /-- Bytes still to be copied, each with its cell. -/
  | store (payload : List UInt8) (h : Nat) (todo : List (Nat × UInt8))

/-- Where the consumer stands in `read`. -/
inductive ReaderPc where
  | idle
  | load (maxLen : Nat)
  /-- Cells still to be copied, and the bytes copied so far. -/
  | header (maxLen t h : Nat) (todo : List Nat) (got : List UInt8)
  | body (t len : Nat) (todo : List Nat) (got : List UInt8)

structure Varlen where
  buffer : Nat → UInt8 := fun _ => 0
  head : Nat := 0
  tail : Nat := 0
  writer : WriterPc := .idle
  reader : ReaderPc := .idle
  sent : List (List UInt8) := []
  received : List (List UInt8) := []

inductive VarlenEvent where
  | write (payload : List UInt8)
  | read (maxLen : Nat)
  | producer
  | consumer

/-- What a call returns in the step that ends it. -/
inductive VarlenOut where
  | none
  | wrote (ok : Bool)
  | read (payload : List UInt8)

namespace Varlen

variable (k : Nat) (s : Varlen)

/-- The number of bytes; `k` is its logarithm. -/
def SIZE : Nat := 2 ^ k

def MASK : Nat := SIZE k - 1

/-- `sizeof(LenT)`. -/
def HDR : Nat := 4

/-- A difference of two `size_t`. -/
def usub (x y : Nat) : Nat := (x + 18446744073709551616 - y) % 18446744073709551616

/-- One byte stays free, so that a full ring is not taken for an empty one. -/
def freeSpace (h t : Nat) : Nat := usub (usub t h) 1 &&& MASK k

def available (h t : Nat) : Nat := usub h t &&& MASK k

/-- The index `n` bytes after `pos`. -/
def ahead (pos n : Nat) : Nat := uint64 (pos + n) &&& MASK k

/-- The cells that the `memcpy` calls of `read_at` read. -/
def readAt (pos n : Nat) : List Nat :=
  if pos + n ≤ SIZE k then List.range' pos n
  else
    let first := SIZE k - pos
    List.range' pos first ++ List.range' 0 (n - first)

/-- The bytes that the `memcpy` calls of `write_at` store, each with its cell. -/
def writeAt (pos : Nat) (src : List UInt8) : List (Nat × UInt8) :=
  if pos + src.length ≤ SIZE k then (List.range' pos src.length).zip src
  else
    let first := SIZE k - pos
    (List.range' pos first).zip (src.take first) ++ (List.range' 0 (src.length - first)).zip (src.drop first)

def advanceWriter : Option (Varlen × VarlenOut) :=
  match s.writer with
  | .idle => none
  | .load payload =>
    let h := s.head
    let t := s.tail
    if freeSpace k h t < payload.length + HDR then some ({ s with writer := .idle }, .wrote false)
    else
      let todo := writeAt k h (leBytes HDR payload.length) ++ writeAt k (ahead k h HDR) payload
      some ({ s with writer := .store payload h todo }, .none)
  | .store payload h ((i, b) :: todo) =>
    some ({ s with buffer := Function.update s.buffer i b, writer := .store payload h todo }, .none)
  | .store payload h [] =>
    some ({ s with head := ahead k h (HDR + payload.length), writer := .idle, sent := s.sent ++ [payload] }, .wrote true)

def advanceReader : Option (Varlen × VarlenOut) :=
  match s.reader with
  | .idle => none
  | .load maxLen =>
    let t := s.tail
    let h := s.head
    if available k h t < HDR then some ({ s with reader := .idle }, .read [])
    else some ({ s with reader := .header maxLen t h (readAt k t HDR) [] }, .none)
  | .header maxLen t h (i :: todo) got => some ({ s with reader := .header maxLen t h todo (got ++ [s.buffer i]) }, .none)
  | .header maxLen t h [] got =>
    let len := leNat got
    if len = 0 ∨ available k h t < HDR + len then some ({ s with reader := .idle }, .read [])
    else if maxLen < len then some ({ s with reader := .idle }, .read [])
    else some ({ s with reader := .body t len (readAt k (ahead k t HDR) len) [] }, .none)
  | .body t len (i :: todo) got => some ({ s with reader := .body t len todo (got ++ [s.buffer i]) }, .none)
  | .body t len [] got =>
    some ({ s with tail := ahead k t (HDR + len), reader := .idle, received := s.received ++ [got] }, .read got)

/-- A length is a `uint32_t`. -/
def exec : VarlenEvent → Option (Varlen × VarlenOut)
  | .write payload =>
    match s.writer with
    | .idle =>
      if 4294967296 ≤ payload.length then none
      else if payload.length = 0 ∨ SIZE k - 1 < payload.length + HDR then some (s, .wrote false)
      else some ({ s with writer := .load payload }, .none)
    | _ => none
  | .read maxLen =>
    match s.reader with
    | .idle => some ({ s with reader := .load maxLen }, .none)
    | _ => none
  | .producer => s.advanceWriter k
  | .consumer => s.advanceReader k

def Step (s s' : Varlen) : Prop := ∃ e out, s.exec k e = some (s', out)

/-! ## The queue -/

/-- Length and payload, as they lie in the ring. -/
def frame (payload : List UInt8) : List UInt8 := leBytes HDR payload.length ++ payload

/-- What was sent and not received yet. -/
def queue : List (List UInt8) := s.sent.drop s.received.length

/-- The bytes of the messages not yet consumed. -/
def content : List UInt8 := s.queue.flatMap frame

end Varlen

end HftLab.Lockfree
