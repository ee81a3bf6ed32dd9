import Sequences.Fault
import Sequences.Feed.Event
import Sequences.Feed.Pool

/-!
Sequences that are read on demand. A feed is a machine that is asked for one
item at a time; in between it does nothing. Between two readings of the whole
sequence it is rewound, which forgets everything about the previous reading
except the numbers of the calls made to comparators and key functions.
-/

namespace Sequences

/-- The answer to one demand. -/
inductive Reply (β : Type) where
  | item (value : β)
  | ended
  | failed (fault : Fault)
deriving DecidableEq

/-- How many items an answer brings. -/
def Reply.count {β : Type} : Reply β → Nat
  | item _ => 1
  | ended => 0
  | failed _ => 0

/-- One demand: its answer, and what it left behind. -/
structure Turn (σ α β : Type) where
  reply : Reply β
  state : σ
  pool : Pool α
  log : List (Event α)

/-- The number of items that can still come is bounded, and the bound can
only shrink while other feeds draw from the same pool. Every loop over a feed
ends for this reason. -/
structure Feed (α β : Type) where
  State : Type
  initial : State
  rewind : State → State
  next : State → Pool α → Turn State α β
  /-- What happens if the reader wants no further item. -/
  stop : State → List (Event α)
  /-- What happens if the reader itself fails while it handles an item. -/
  unwind : State → List (Event α)
  bound : State → Pool α → Nat
  next_pool_le : ∀ state pool, (next state pool).pool ≤ pool
  next_bound_le : ∀ state pool,
    (next state pool).reply.count + bound (next state pool).state (next state pool).pool ≤
      bound state pool
  bound_mono : ∀ state {pool pool' : Pool α}, pool' ≤ pool →
    bound state pool' ≤ bound state pool

namespace Feed

variable {α β : Type}

theorem bound_next_le (feed : Feed α β) (state : feed.State) (pool : Pool α) :
    feed.bound (feed.next state pool).state (feed.next state pool).pool ≤
      feed.bound state pool :=
  Nat.le_trans (Nat.le_add_left _ _) (feed.next_bound_le state pool)

theorem bound_lt_of_item (feed : Feed α β) {state : feed.State} {pool : Pool α} {value : β}
    (hReply : (feed.next state pool).reply = .item value) :
    feed.bound (feed.next state pool).state (feed.next state pool).pool <
      feed.bound state pool := by
  have h := feed.next_bound_le state pool
  simp only [hReply, Reply.count] at h
  omega

end Feed

end Sequences
