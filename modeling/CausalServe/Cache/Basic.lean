import CausalServe.Action
import CausalServe.Cache.Layout
import CausalServe.Cache.Slot
import CausalServe.Number.Total

/-! The cache of keys and values: slots that sequences own, and one budget of bytes over all of
them. Storage is charged in blocks of positions when a slot grows, and given back when it is
evicted. -/

namespace CausalServe

structure Cache where
  layout : Layout
  /-- At least one. -/
  blockSize : Nat
  budget : Option Nat
  overflowPolicy : OverflowPolicy
  slots : List (Option Slot) := []
  /-- Slots to use again, the one released last first. -/
  free : List SlotId := []
  /-- Bytes charged to live slots. -/
  used : Nat := 0
  /-- The bytes in use as they are shown to observers. -/
  gauge : Nat := 0
  /-- Ticks at every allocation and every append. -/
  clock : Nat := 0

/-- The least multiple of `block` that is not below `n`. -/
def roundUp (n block : Nat) : Nat := (n + (block - 1)) / block * block

namespace Cache

def new (layout : Layout) (config : CacheConfig) : Cache :=
  { layout := layout, blockSize := max config.blockSize 1, budget := config.memoryBudget
    overflowPolicy := config.overflowPolicy }

/-! ## Looking -/

def slot? (c : Cache) (id : SlotId) : Option Slot := c.slots[id]?.join

def slot (c : Cache) (id : SlotId) : Except Error Slot :=
  match c.slot? id with
  | some s => .ok s
  | none => .error (.slotNotFound id)

def layer (c : Cache) (id : SlotId) (layer : Nat) : Except Error LayerStore := do
  let s ← c.slot id
  match s.layers[layer]? with
  | some l => return l
  | none => throw (.shape "kv layer" [s.layers.length] [layer])

/-- Positions of one layer. -/
def cursor (c : Cache) (id : SlotId) (layer : Nat) : Except Error Nat :=
  LayerStore.len <$> c.layer id layer

/-- Positions that every layer of a slot holds. -/
def len (c : Cache) (id : SlotId) : Except Error Nat := Slot.len <$> c.slot id

def nextPosition (c : Cache) (id : SlotId) : Except Error Nat := Slot.nextPosition <$> c.slot id

def capacity (c : Cache) (id : SlotId) : Except Error Nat := Slot.capacity <$> c.slot id

def owner (c : Cache) (id : SlotId) : Except Error RequestId := Slot.owner <$> c.slot id

/-- The first `len` positions of a layer; there must be as many. -/
def readPrefix (c : Cache) (id : SlotId) (layer len : Nat) : Except Error CacheView := do
  let l ← c.layer id layer
  if l.len < len then throw (.shape "kv read" [l.len] [len])
  return { keyBuffers := l.keys, valueBuffers := l.values, len := len
           headDim := c.layout.headDim }

/-- All positions of a layer. -/
def read (c : Cache) (id : SlotId) (layer : Nat) : Except Error CacheView := do
  c.readPrefix id layer (← c.cursor id layer)

/-- The live slots. -/
def live (c : Cache) : List (SlotId × Slot) :=
  c.slots.zipIdx.filterMap fun (s, id) => s.map fun s => (id, s)

def activeSlots (c : Cache) : Nat := c.live.length

/-- Bytes that a fresh slot with a number of positions takes. -/
def bytesFor (c : Cache) (positions : Nat) : Nat :=
  roundUp positions c.blockSize * c.layout.bytesPerPosition

/-- Whether a number of bytes can be charged besides those in use. -/
def affords (c : Cache) (bytes : Nat) : Bool := c.budget.all fun limit => c.used + bytes ≤ limit

/-- Whether a fresh slot with a number of positions can be charged. -/
def canFit (c : Cache) (positions : Nat) : Bool := c.affords (c.bytesFor positions)

/-- The slot that grew longest ago. -/
def oldest : List (SlotId × Slot) → Option SlotId
  | [] => none
  | entry :: rest =>
    let older (found : SlotId × Slot) (next : SlotId × Slot) :=
      if next.2.lastExtended < found.2.lastExtended then next else found
    some (rest.foldl older entry).1

/-- The live slot that grew longest ago, but for the excluded ones. -/
def leastRecentlyExtended (c : Cache) (excluded : List SlotId) : Option SlotId :=
  oldest (c.live.filter fun (id, _) => !excluded.contains id)

/-- Filled positions over the capacity of all live slots. -/
def occupancy (c : Cache) : Float :=
  let filled := total (fun (_, s) => s.len) c.live
  let capacity := total (fun (_, s) => s.capacity) c.live
  if capacity = 0 then 0 else Float.ofNat filled / Float.ofNat capacity

/-! ## Changing -/

/-- An empty slot for a sequence. Nothing is charged until it grows. -/
def allocate (owner : RequestId) (capacity : Nat) : Action Cache SlotId := do
  if capacity = 0 then throw (.invalidRequest .zeroCapacity)
  let c ← get
  let clock := c.clock + 1
  let slot : Slot :=
    { owner := owner, capacity := capacity, lastExtended := clock
      layers := List.replicate c.layout.numLayers (.empty c.layout.numKvHeads) }
  match c.free with
  | id :: free =>
    set { c with slots := c.slots.set id (some slot), free := free, clock := clock }
    return id
  | [] =>
    set { c with slots := c.slots ++ [some slot], clock := clock }
    return c.slots.length

/-- Releases a slot with all that it holds. -/
def evict (id : SlotId) : Action Cache Unit := do
  let c ← get
  let s ← Action.ofExcept (c.slot id)
  let used := c.used - s.allocated * c.layout.bytesPerPosition
  set { c with slots := c.slots.set id none, free := id :: c.free, used := used, gauge := used }

/-- Charges storage, so that a slot can grow to a number of positions without another charge. Where
the capacity is less than that, the claim ends there. A claim that the budget does not cover changes
nothing. -/
def reserve (id : SlotId) (positions : Nat) : Action Cache Unit := do
  let c ← get
  let s ← Action.ofExcept (c.slot id)
  let wanted := min positions s.capacity
  if wanted ≤ s.allocated then return
  let target := min (roundUp wanted c.blockSize) s.capacity
  let bytes := (target - s.allocated) * c.layout.bytesPerPosition
  match c.budget with
  | some limit =>
    if limit < c.used + bytes then throw (.cacheOverflow (.overBudget id bytes c.used limit))
  | none => pure ()
  let used := c.used + bytes
  set { c with
    slots := c.slots.set id (some { s with allocated := target }), used := used, gauge := used }

/-- Writes a position behind the others of a layer; in a full one it takes the place of the oldest,
unless the policy rejects it. Growth beyond what is charged is charged first. -/
def append (id : SlotId) (layer : Nat) (key value : List Float32) : Action Cache Unit := do
  let c ← get
  let width := c.layout.kvWidth
  if key.length ≠ width ∨ value.length ≠ width then
    throw (.shape "kv append" [width, width] [key.length, value.length])
  let s ← Action.ofExcept (c.slot id)
  let l ← Action.ofExcept (c.layer id layer)
  let slide : Bool := s.capacity ≤ l.len
  if slide ∧ c.overflowPolicy = .reject then
    throw (.cacheOverflow (.slotFull id s.capacity))
  if !slide && s.allocated < l.len + 1 then reserve id (l.len + 1)
  let c ← get
  let s ← Action.ofExcept (c.slot id)
  let clock := c.clock + 1
  let layers := s.layers.modify layer (LayerStore.push c.layout.headDim slide key value)
  set { c with
    slots := c.slots.set id (some { s with layers := layers, lastExtended := clock })
    clock := clock }

end Cache

end CausalServe
