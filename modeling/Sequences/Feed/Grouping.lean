import Sequences.Feed.Basic

/-!
Groups of consecutive items, read on demand. A group is delivered as soon as
it is full, before the feed behind is asked again. The end of that feed also
delivers a group that is not full; its failure does not.
-/

namespace Sequences

variable {α β : Type}

namespace Feed

/-- Why no further items were gathered. -/
inductive Halt where
  | full
  | ended
  | failed (fault : Fault)

/-- The items taken from a feed in a row, and why there are no more. -/
structure Gathered (σ α β : Type) where
  taken : List β
  halt : Halt
  state : σ
  pool : Pool α
  log : List (Event α)

/-- Takes up to the given number of items. -/
def gather (feed : Feed α β) : Nat → feed.State → Pool α → Gathered feed.State α β
  | 0, state, pool => ⟨[], .full, state, pool, []⟩
  | count + 1, state, pool =>
    let turn := feed.next state pool
    match turn.reply with
    | .ended => ⟨[], .ended, turn.state, turn.pool, turn.log⟩
    | .failed fault => ⟨[], .failed fault, turn.state, turn.pool, turn.log⟩
    | .item x =>
      let later := gather feed count turn.state turn.pool
      { later with taken := x :: later.taken, log := turn.log ++ later.log }

theorem gather_pool_le (feed : Feed α β) (count : Nat) (state : feed.State) (pool : Pool α) :
    (gather feed count state pool).pool ≤ pool := by
  induction count generalizing state pool with
  | zero => exact Pool.le_refl pool
  | succ count ih =>
    have hNext := feed.next_pool_le state pool
    unfold gather
    dsimp only
    split
    · exact hNext
    · exact hNext
    · exact Pool.le_trans (ih _ _) hNext

theorem gather_bound_le (feed : Feed α β) (count : Nat) (state : feed.State) (pool : Pool α) :
    (gather feed count state pool).taken.length +
        feed.bound (gather feed count state pool).state (gather feed count state pool).pool ≤
      feed.bound state pool := by
  induction count generalizing state pool with
  | zero => simp [gather]
  | succ count ih =>
    have hNext := feed.bound_next_le state pool
    unfold gather
    dsimp only
    split
    · simpa using hNext
    · simpa using hNext
    next x hReply =>
      have hItem := feed.bound_lt_of_item hReply
      have h := ih (feed.next state pool).state (feed.next state pool).pool
      simp only [List.length_cons]
      omega

theorem length_gather_of_full (feed : Feed α β) (count : Nat) (state : feed.State)
    (pool : Pool α) (hFull : (gather feed count state pool).halt = .full) :
    (gather feed count state pool).taken.length = count := by
  induction count generalizing state pool with
  | zero => rfl
  | succ count ih =>
    unfold gather at hFull ⊢
    dsimp only at hFull ⊢
    split at hFull
    · cases hFull
    · cases hFull
    next x hReply => simp [ih _ _ hFull]

/-- Whether the feed behind has ended already. -/
structure GroupState (σ : Type) where
  inner : σ
  drained : Bool

section

variable (inner : Feed α β) (size : Nat)

/-- A last group that is not full is delivered, unless it is empty. -/
def groupNext (state : GroupState inner.State) (pool : Pool α) :
    Turn (GroupState inner.State) α (List β) :=
  if state.drained then ⟨.ended, state, pool, []⟩
  else
    let group := gather inner size state.inner pool
    match group.halt with
    | .full => ⟨.item group.taken, ⟨group.state, false⟩, group.pool, group.log⟩
    | .failed fault => ⟨.failed fault, ⟨group.state, false⟩, group.pool, group.log⟩
    | .ended =>
      ⟨if group.taken.isEmpty then .ended else .item group.taken, ⟨group.state, true⟩,
        group.pool, group.log⟩

/-- Every group holds at least one of the items that can still come. -/
def groupBound (state : GroupState inner.State) (pool : Pool α) : Nat :=
  if state.drained then 0 else inner.bound state.inner pool

theorem groupNext_pool_le (state : GroupState inner.State) (pool : Pool α) :
    (groupNext inner size state pool).pool ≤ pool := by
  have hGather := gather_pool_le inner size state.inner pool
  unfold groupNext
  split
  · exact Pool.le_refl pool
  · dsimp only
    split <;> exact hGather

theorem groupNext_bound_le (hSize : 0 < size) (state : GroupState inner.State)
    (pool : Pool α) :
    (groupNext inner size state pool).reply.count +
        groupBound inner (groupNext inner size state pool).state
          (groupNext inner size state pool).pool ≤
      groupBound inner state pool := by
  have hGather := gather_bound_le inner size state.inner pool
  have hFull := length_gather_of_full inner size state.inner pool
  unfold groupNext
  split
  next hDrained => simp [groupBound, hDrained, Reply.count]
  next hDrained =>
    dsimp only
    split
    next hHalt =>
      have hLength := hFull hHalt
      simp only [groupBound, hDrained, Reply.count]
      simp only [Bool.false_eq_true, if_false]
      omega
    next hHalt =>
      simp only [groupBound, hDrained, Reply.count]
      simp only [Bool.false_eq_true, if_false]
      omega
    next hHalt =>
      simp only [groupBound, hDrained, if_true, Bool.false_eq_true, if_false]
      cases hTaken : (gather inner size state.inner pool).taken with
      | nil => simp [Reply.count]
      | cons x xs =>
        simp only [hTaken, List.length_cons] at hGather
        simp [Reply.count]
        omega

/-- The groups of a feed. -/
def groups (hSize : 0 < size) : Feed α (List β) where
  State := GroupState inner.State
  initial := ⟨inner.initial, false⟩
  rewind state := ⟨inner.rewind state.inner, false⟩
  next := groupNext inner size
  stop state := inner.stop state.inner
  unwind state := inner.unwind state.inner
  bound := groupBound inner
  next_pool_le := groupNext_pool_le inner size
  next_bound_le := groupNext_bound_le inner size hSize
  bound_mono state _ _ hPool := by
    unfold groupBound
    split
    · exact Nat.le_refl 0
    · exact inner.bound_mono state.inner hPool

end

/-- A size below one is refused before anything is read. -/
def groups? (inner : Feed α β) (size : Int) : Except Failure (Feed α (List β)) :=
  if hSize : 0 < size then .ok (groups inner size.toNat (by omega))
  else .error (.groupSize size)

end Feed

end Sequences
