/-
  HftLab.OrderBook.Cluster — `BookCluster`: one book for each symbol, and the load of its snapshot.

  Symbols are byte strings of up to eight characters, ended by a NUL. The snapshot of a cluster is a header
  and, for each symbol, its name, the length of the snapshot of its book and that snapshot. As in
  HftLab.OrderBook.Snapshot, offsets and lengths wrap at 64 bits.
-/

import HftLab.OrderBook.Snapshot

namespace HftLab.OrderBook

open Lib

structure Cluster (N : Nat) where
  books : Fin N → Book
  symbols : Fin N → List UInt8
  slotUsed : Fin N → Bool
  activeCount : Nat

def freshCluster (V : Env) (N : Nat) : Cluster N where
  books _ := fresh V
  symbols _ := List.replicate 9 0
  slotUsed _ := false
  activeCount := 0

/-- The characters of a symbol: up to the first NUL, at most eight. -/
def symbolChars (sym : List UInt8) : List UInt8 := (sym.take 8).takeWhile (· ≠ 0)

def pack (sym : List UInt8) : Nat := leNat (symbolChars sym)

namespace Cluster

variable {N : Nat} (V : Env) (c : Cluster N)

def findSlot (sym : List UInt8) : Option (Fin N) :=
  (List.finRange N).find? fun i => c.slotUsed i && pack (c.symbols i) = pack sym

def registerSymbol (sym : List UInt8) : Bool × Cluster N :=
  if (c.findSlot sym).isSome then (false, c)
  else
    match (List.finRange N).find? fun i => !c.slotUsed i with
    | none => (false, c)
    | some i =>
      let chars := symbolChars sym
      (true, { c with slotUsed := Function.update c.slotUsed i true
                      symbols := Function.update c.symbols i (chars ++ List.replicate (9 - chars.length) 0)
                      activeCount := c.activeCount + 1 })

def setBook (i : Fin N) (b : Book) : Cluster N := { c with books := Function.update c.books i b }

/-- The books of used slots are cleared, and no slot is used. -/
def reset : Cluster N :=
  { c with books := fun i => if c.slotUsed i then (c.books i).clear V else c.books i
           slotUsed := fun _ => false
           activeCount := 0 }

def CLUSTER_SNAPSHOT_MAGIC : Nat := 0x4C43424F

def CLUSTER_SNAPSHOT_VERSION : Nat := 1

/-- A symbol of nine bytes, its last one overwritten by a NUL, and the length of the snapshot that follows. -/
def readEntry (buf : List UInt8) (off : Nat) : Option (List UInt8 × Nat) :=
  if off + 17 ≤ buf.length then some ((buf.drop off).take 8 ++ [0], (Codec.uint 8).get (buf.drop (off + 9))) else none

/-- The loop of `load_snapshot`: `n` symbols with their books from `off` on. -/
def loadEntries (buf : List UInt8) (len : Nat) : Nat → Nat → Cluster N → Load (Cluster N)
  | 0, _, c => .done true c
  | n + 1, off, c =>
    if len < u64 (off + 9 + 8) then .done false c
    else
      match readEntry buf off with
      | none => .overread
      | some (sym, blen) =>
        if len < u64 (off + 17 + blen) then .done false c
        else
          match c.registerSymbol sym with
          | (false, c) => .done false c
          | (true, c) =>
            match c.findSlot sym with
            | none => .done false c
            | some i =>
              match (c.books i).loadSnapshot V (buf.drop (off + 17)) blen with
              | .overread => .overread
              | .offGrid => .offGrid
              | .done false b => .done false (c.setBook i b)
              | .done true b => loadEntries buf len n (u64 (off + 17 + blen)) (c.setBook i b)

def loadSnapshot (buf : List UInt8) (len : Nat) : Load (Cluster N) :=
  if len < 16 then .done false c
  else
    match snapshotHeader.readAt buf 0 with
    | none => .overread
    | some (magic, version, count) =>
      if magic ≠ CLUSTER_SNAPSHOT_MAGIC then .done false c
      else if version ≠ CLUSTER_SNAPSHOT_VERSION then .done false c
      else if N < count then .done false c
      else loadEntries V buf len count 16 (c.reset V)

end Cluster

end HftLab.OrderBook
