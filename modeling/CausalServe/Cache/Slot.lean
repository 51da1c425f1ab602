import CausalServe.Ids

/-! The storage of one sequence. Every layer keeps, for each head of keys and values, one flat buffer
of keys and one of values, so that the history of a head is read as a single run. Buffers grow at the
front: their last float comes first. -/

namespace CausalServe

structure LayerStore where
  /-- One buffer for each head, with `headDim` floats for every position. -/
  keys : List (List Float32)
  values : List (List Float32)
  /-- Positions held. -/
  len : Nat := 0
  /-- Positions ever appended, with those that were dropped since. -/
  appended : Nat := 0

namespace LayerStore

/-- A layer without positions. -/
def empty (numHeads : Nat) : LayerStore :=
  { keys := List.replicate numHeads [], values := List.replicate numHeads [] }

/-- The part of a row that belongs to one head. -/
def part (headDim h : Nat) (row : List Float32) : List Float32 :=
  (row.drop (h * headDim)).take headDim

/-- Puts the parts of a row into the buffers of their heads; if the window slides, each buffer drops
its oldest position first. -/
def extend (headDim : Nat) (slide : Bool) (row : List Float32) (buffers : List (List Float32)) :
    List (List Float32) :=
  buffers.mapIdx fun h buffer =>
    (part headDim h row).reverse ++
      if slide then buffer.take (buffer.length - headDim) else buffer

/-- Puts a row behind the others. -/
def push (headDim : Nat) (slide : Bool) (key value : List Float32) (l : LayerStore) : LayerStore :=
  { keys := extend headDim slide key l.keys
    values := extend headDim slide value l.values
    len := if slide then l.len else l.len + 1
    appended := l.appended + 1 }

end LayerStore

structure Slot where
  owner : RequestId
  /-- The most positions it may hold. -/
  capacity : Nat
  /-- Positions charged to the budget. -/
  allocated : Nat := 0
  layers : List LayerStore
  /-- When the slot last grew, on the clock of the cache. -/
  lastExtended : Nat

namespace Slot

/-- Positions that every layer holds. -/
def len (s : Slot) : Nat := (s.layers.map LayerStore.len).min?.getD 0

/-- The place of the next token in its sequence, which goes on counting when the window slides. -/
def nextPosition (s : Slot) : Nat := (s.layers.map LayerStore.appended).min?.getD 0

end Slot

/-- The first positions of one layer. -/
structure CacheView where
  keyBuffers : List (List Float32)
  valueBuffers : List (List Float32)
  /-- Positions in view; the buffers may hold more. -/
  len : Nat
  headDim : Nat

namespace CacheView

def isEmpty (v : CacheView) : Bool := v.len == 0

def numHeads (v : CacheView) : Nat := v.keyBuffers.length

/-- The positions in view of one buffer, the oldest first. -/
def cut (v : CacheView) (buffers : List (List Float32)) (h : Nat) : List Float32 :=
  (buffers.getD h []).reverse.take (v.len * v.headDim)

/-- The keys of one head, one after another. -/
def keys (v : CacheView) (h : Nat) : List Float32 := v.cut v.keyBuffers h

def values (v : CacheView) (h : Nat) : List Float32 := v.cut v.valueBuffers h

/-- The keys and the values of one head, if there is such a head. -/
def head? (v : CacheView) (h : Nat) : Option (List Float32 × List Float32) :=
  if h < v.numHeads then some (v.keys h, v.values h) else none

end CacheView

end CausalServe
