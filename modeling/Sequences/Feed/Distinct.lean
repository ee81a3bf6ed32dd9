import Sequences.Feed.Basic
import Sequences.Inquiry

/-!
The first items of every key, read on demand. One demand passes over the
items whose key was met before; so it can take many items from the feed
behind it, but never one more than it needs.
-/

namespace Sequences

variable {α κ : Type}

namespace Feed

/-- How far a reading has come, and how often the key function was called in
all readings. -/
structure DistinctState (σ κ : Type) where
  inner : σ
  seen : List κ
  calls : Nat

section

variable [BEq κ] (inner : Feed α α) (key : Probe α κ) (noted : Bool)

/-- Takes items until one has a new key. If the key function gives up, or the
key cannot be looked up, the feed behind is left the way a failing reader
leaves it. -/
def distinctNext (state : DistinctState inner.State κ) (pool : Pool α) :
    Turn (DistinctState inner.State κ) α α :=
  let turn := inner.next state.inner pool
  match _hReply : turn.reply with
  | .ended => ⟨.ended, { state with inner := turn.state }, turn.pool, turn.log⟩
  | .failed fault => ⟨.failed fault, { state with inner := turn.state }, turn.pool, turn.log⟩
  | .item x =>
    let log := turn.log ++ (if noted then [.keyed x] else [])
    match key (state.calls + 1) x with
    | .error fault =>
      ⟨.failed fault, { state with inner := turn.state, calls := state.calls + 1 }, turn.pool,
        log ++ inner.unwind turn.state⟩
    | .ok k =>
      if state.seen.contains k then
        let later := distinctNext
          { state with inner := turn.state, calls := state.calls + 1 } turn.pool
        { later with log := log ++ later.log }
      else
        ⟨.item x, ⟨turn.state, k :: state.seen, state.calls + 1⟩, turn.pool, log⟩
termination_by inner.bound state.inner pool
decreasing_by exact inner.bound_lt_of_item ‹_›

theorem distinctNext_pool_le (state : DistinctState inner.State κ) (pool : Pool α) :
    (distinctNext inner key noted state pool).pool ≤ pool := by
  fun_induction distinctNext inner key noted state pool with
  | case1 state pool turn hReply => exact inner.next_pool_le _ _
  | case2 state pool turn fault hReply => exact inner.next_pool_le _ _
  | case3 state pool turn x hReply log fault hKey => exact inner.next_pool_le _ _
  | case4 state pool turn x hReply log k hKey hSeen later ih =>
    exact Pool.le_trans ih (inner.next_pool_le _ _)
  | case5 state pool turn x hReply log k hKey hNew => exact inner.next_pool_le _ _

theorem distinctNext_bound_le (state : DistinctState inner.State κ) (pool : Pool α) :
    (distinctNext inner key noted state pool).reply.count +
        inner.bound (distinctNext inner key noted state pool).state.inner
          (distinctNext inner key noted state pool).pool ≤
      inner.bound state.inner pool := by
  fun_induction distinctNext inner key noted state pool with
  | case1 state pool turn hReply =>
    simpa [Reply.count] using inner.bound_next_le state.inner pool
  | case2 state pool turn fault hReply =>
    simpa [Reply.count] using inner.bound_next_le state.inner pool
  | case3 state pool turn x hReply log fault hKey =>
    simpa [Reply.count] using inner.bound_next_le state.inner pool
  | case4 state pool turn x hReply log k hKey hSeen later ih =>
    exact Nat.le_trans ih (inner.bound_next_le state.inner pool)
  | case5 state pool turn x hReply log k hKey hNew =>
    rw [Reply.count, Nat.add_comm]
    exact inner.bound_lt_of_item hReply

/-- The items with new keys. Calls of the key function appear in the log only
if they are `noted`. -/
def distinct : Feed α α where
  State := DistinctState inner.State κ
  initial := ⟨inner.initial, [], 0⟩
  rewind state := ⟨inner.rewind state.inner, [], state.calls⟩
  next := distinctNext inner key noted
  stop state := inner.stop state.inner
  unwind state := inner.unwind state.inner
  bound state pool := inner.bound state.inner pool
  next_pool_le := distinctNext_pool_le inner key noted
  next_bound_le := distinctNext_bound_le inner key noted
  bound_mono state _ _ hPool := inner.bound_mono state.inner hPool

end

end Feed

end Sequences
