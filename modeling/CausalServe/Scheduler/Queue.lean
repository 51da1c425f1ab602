import CausalServe.Request.Basic

/-! The waiting queue: the requests to admit next, by priority and then by arrival. -/

namespace CausalServe

structure QueueEntry where
  request : RequestId
  priority : Priority
  arrival : Nat
deriving DecidableEq, Repr

namespace QueueEntry

/-- Whether an entry is admitted before another. -/
def precedes (a b : QueueEntry) : Bool :=
  b.priority < a.priority || (a.priority == b.priority && a.arrival < b.arrival)

/-- Puts an entry into a sorted queue, behind those that it does not precede. -/
def enqueue (e : QueueEntry) : List QueueEntry → List QueueEntry
  | [] => [e]
  | head :: rest => if e.precedes head then e :: head :: rest else head :: enqueue e rest

end QueueEntry

end CausalServe
