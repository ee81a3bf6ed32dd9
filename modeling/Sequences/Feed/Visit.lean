import Sequences.Feed.Basic

/-!
Reading a feed from its beginning. The reader may have a limit, after which
it quits: the feed then learns that nothing more is wanted. One feed can be
visited many times; what it took from single-use inputs stays taken.
-/

namespace Sequences

variable {α β : Type}

/-- What the reader and the feed did, in one order. -/
inductive Note (α β : Type) where
  | event (event : Event α)
  | received (item : β)
  | quit

/-- One reading: the items received, and why it was over if the feed
failed. -/
structure Visit (σ α β : Type) where
  got : List β
  notes : List (Note α β)
  fault : Option Fault
  state : σ
  pool : Pool α

/-- The number of items after which the reader quits. With a limit of zero it
quits when the first item arrives, without receiving it. -/
abbrev Limit := Option Nat

/-- A limit below zero is a limit of zero. -/
def Limit.ofInt (limit : Int) : Limit := some limit.toNat

namespace Feed

/-- Reads from a given point on. The reader quits right after the last item
that it wants, without waiting to see whether there is another. -/
def visitFrom (feed : Feed α β) (limit : Limit) (state : feed.State) (pool : Pool α) :
    Visit feed.State α β :=
  let turn := feed.next state pool
  let events := turn.log.map Note.event
  match _hReply : turn.reply with
  | .ended => ⟨[], events, none, turn.state, turn.pool⟩
  | .failed fault => ⟨[], events, some fault, turn.state, turn.pool⟩
  | .item x =>
    let stops := (feed.stop turn.state).map Note.event
    match limit with
    | some 0 => ⟨[], events ++ .quit :: stops, none, turn.state, turn.pool⟩
    | some 1 => ⟨[x], events ++ .received x :: .quit :: stops, none, turn.state, turn.pool⟩
    | some (more + 2) =>
      let later := visitFrom feed (some (more + 1)) turn.state turn.pool
      { later with got := x :: later.got, notes := events ++ .received x :: later.notes }
    | none =>
      let later := visitFrom feed none turn.state turn.pool
      { later with got := x :: later.got, notes := events ++ .received x :: later.notes }
termination_by feed.bound state pool
decreasing_by all_goals exact feed.bound_lt_of_item ‹_›

/-- Reads the whole feed again for every limit. -/
def visitsFrom (feed : Feed α β) : List Limit → feed.State → Pool α →
    List (Visit feed.State α β)
  | [], _, _ => []
  | limit :: limits, state, pool =>
    let visit := visitFrom feed limit state pool
    visit :: visitsFrom feed limits (feed.rewind visit.state) visit.pool

/-- The visits of a feed that was not read before. -/
def visits (feed : Feed α β) (limits : List Limit) (pool : Pool α) :
    List (Visit feed.State α β) :=
  visitsFrom feed limits feed.initial pool

end Feed

end Sequences
