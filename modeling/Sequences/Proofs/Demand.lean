import Sequences.Feed.Distinct
import Sequences.Feed.Merging
import Sequences.Feed.Visit

/-! One demand, branch by branch. The loops over a feed are defined together
with the reason why they end, so their branches are stated here once as
equations, and later proofs rewrite with these instead of opening a loop. -/
namespace Sequences

namespace Feed

variable {α β κ : Type}

section Distinct

variable [BEq κ] {inner : Feed α α} {key : Probe α κ} {noted : Bool}
  {state : DistinctState inner.State κ} {pool : Pool α}

theorem distinctNext_of_ended (hReply : (inner.next state.inner pool).reply = .ended) :
    distinctNext inner key noted state pool =
      ⟨.ended, { state with inner := (inner.next state.inner pool).state },
        (inner.next state.inner pool).pool, (inner.next state.inner pool).log⟩ := by
  fun_cases distinctNext inner key noted state pool <;> grind

/-- An item with a known key is passed over, and the demand goes on. -/
theorem distinctNext_of_seen {x : α} {k : κ}
    (hReply : (inner.next state.inner pool).reply = .item x)
    (hKey : key (state.calls + 1) x = .ok k) (hSeen : state.seen.contains k) :
    distinctNext inner key noted state pool =
      let later := distinctNext inner key noted
        { state with inner := (inner.next state.inner pool).state, calls := state.calls + 1 }
        (inner.next state.inner pool).pool
      { later with
        log := (inner.next state.inner pool).log ++ (if noted then [.keyed x] else []) ++
          later.log } := by
  fun_cases distinctNext inner key noted state pool <;> grind

theorem distinctNext_of_new {x : α} {k : κ}
    (hReply : (inner.next state.inner pool).reply = .item x)
    (hKey : key (state.calls + 1) x = .ok k) (hNew : state.seen.contains k = false) :
    distinctNext inner key noted state pool =
      ⟨.item x, ⟨(inner.next state.inner pool).state, k :: state.seen, state.calls + 1⟩,
        (inner.next state.inner pool).pool,
        (inner.next state.inner pool).log ++ (if noted then [.keyed x] else [])⟩ := by
  fun_cases distinctNext inner key noted state pool <;> grind

/-- A key that is refused ends the reading, and the feed behind is unwound. -/
theorem distinctNext_of_refused {x : α} {fault : Fault}
    (hReply : (inner.next state.inner pool).reply = .item x)
    (hKey : key (state.calls + 1) x = .error fault) :
    distinctNext inner key noted state pool =
      ⟨.failed fault,
        { state with inner := (inner.next state.inner pool).state, calls := state.calls + 1 },
        (inner.next state.inner pool).pool,
        (inner.next state.inner pool).log ++ (if noted then [.keyed x] else []) ++
          inner.unwind (inner.next state.inner pool).state⟩ := by
  fun_cases distinctNext inner key noted state pool <;> grind

end Distinct

section Merge

variable {left right : Feed α α}

/-- What a demand to a merge can do if it does not fail, given the answers `l`
and `r` of the two sides. The answer that is not delivered is kept, and calls
of the comparator are all that happens besides. -/
structure MergeTurn (turn : Turn (MergeState left.State right.State α) α α)
    (l : Turn left.State α α) (r : Turn right.State α α) : Prop where
  left_fine : ∀ fault, l.reply ≠ .failed fault
  right_fine : ∀ fault, r.reply ≠ .failed fault
  left_state : turn.state.left = l.state
  right_state : turn.state.right = r.state
  log : ∃ calls, turn.log = l.log ++ r.log ++ calls ∧
    ∀ event ∈ calls, ∃ x y, event = .compared x y
  reply : (turn.reply = .ended ∧ l.reply = .ended ∧ r.reply = .ended) ∨
    (∃ x, turn.reply = .item x ∧ l.reply = .item x ∧ turn.state.leftHead = none ∧
      turn.state.rightHead = some r.reply) ∨
    ∃ y, turn.reply = .item y ∧ r.reply = .item y ∧ turn.state.leftHead = some l.reply ∧
      turn.state.rightHead = none

theorem mergeNext_turn (cmp : Probe (α × α) Ordering) (noted : Bool)
    (state : MergeState left.State right.State α) (pool : Pool α)
    (hFine : ∀ fault, (mergeNext left right cmp noted state pool).reply ≠ .failed fault) :
    MergeTurn (mergeNext left right cmp noted state pool)
      (fetch left state.leftHead state.left pool)
      (fetch right state.rightHead state.right
        (fetch left state.leftHead state.left pool).pool) := by
  simp only [mergeNext, mergeRight] at hFine ⊢
  cases hLeft : (fetch left state.leftHead state.left pool).reply with
  | failed fault => simp [hLeft] at hFine
  | ended =>
      cases hRight : (fetch right state.rightHead state.right
          (fetch left state.leftHead state.left pool).pool).reply with
      | failed fault => simp [hLeft, hRight] at hFine
      | ended => constructor <;> simp [hLeft, hRight]
      | item y => constructor <;> simp [hLeft, hRight]
  | item x =>
      cases hRight : (fetch right state.rightHead state.right
          (fetch left state.leftHead state.left pool).pool).reply with
      | failed fault => simp [hLeft, hRight] at hFine
      | ended => constructor <;> simp [hLeft, hRight]
      | item y =>
          cases hCmp : cmp (state.calls + 1) (x, y) with
          | error fault => simp [hLeft, hRight, hCmp] at hFine
          | ok order =>
              cases hLE : order.isLE with
              | true => constructor <;> simp [hLeft, hRight, hCmp, hLE]
              | false => constructor <;> simp [hLeft, hRight, hCmp, hLE]

end Merge

section Visit

variable {feed : Feed α β} {state : feed.State} {pool : Pool α}

theorem two_le_of_limit_ne {limit : Limit} (hZero : limit ≠ some 0) (hOne : limit ≠ some 1)
    (k : Nat) (hLimit : limit = some k) : 2 ≤ k := by
  subst hLimit
  simp only [ne_eq, Option.some.injEq] at hZero hOne
  omega

theorem visitFrom_of_ended (limit : Limit) (hReply : (feed.next state pool).reply = .ended) :
    feed.visitFrom limit state pool =
      ⟨[], (feed.next state pool).log.map .event, none, (feed.next state pool).state,
        (feed.next state pool).pool⟩ := by
  fun_cases visitFrom feed limit state pool <;> grind

theorem visitFrom_of_failed (limit : Limit) {fault : Fault}
    (hReply : (feed.next state pool).reply = .failed fault) :
    feed.visitFrom limit state pool =
      ⟨[], (feed.next state pool).log.map .event, some fault, (feed.next state pool).state,
        (feed.next state pool).pool⟩ := by
  fun_cases visitFrom feed limit state pool <;> grind

/-- The reader quits at the first item without receiving it. -/
theorem visitFrom_of_item_zero {x : β} (hReply : (feed.next state pool).reply = .item x) :
    feed.visitFrom (some 0) state pool =
      ⟨[], (feed.next state pool).log.map .event ++
          .quit :: (feed.stop (feed.next state pool).state).map .event,
        none, (feed.next state pool).state, (feed.next state pool).pool⟩ := by
  generalize hLimit : (some 0 : Limit) = limit
  fun_cases visitFrom feed limit state pool <;> grind

theorem visitFrom_of_item_one {x : β} (hReply : (feed.next state pool).reply = .item x) :
    feed.visitFrom (some 1) state pool =
      ⟨[x], (feed.next state pool).log.map .event ++
          .received x :: .quit :: (feed.stop (feed.next state pool).state).map .event,
        none, (feed.next state pool).state, (feed.next state pool).pool⟩ := by
  generalize hLimit : (some 1 : Limit) = limit
  fun_cases visitFrom feed limit state pool <;> grind

/-- The reader goes on if it has no limit or a limit above one. -/
theorem visitFrom_of_item_more {x : β} (limit : Limit) (hMore : ∀ k, limit = some k → 2 ≤ k)
    (hReply : (feed.next state pool).reply = .item x) :
    feed.visitFrom limit state pool =
      let later := feed.visitFrom (limit.map (· - 1)) (feed.next state pool).state
        (feed.next state pool).pool
      { later with
        got := x :: later.got
        notes := (feed.next state pool).log.map .event ++ .received x :: later.notes } := by
  fun_cases visitFrom feed limit state pool <;> grind

/-- A demand that does what a later one does, but only after something else. -/
theorem visitFrom_of_delayed (limit : Limit) {later : feed.State} {poolThen : Pool α}
    {log : List (Event α)}
    (hNext : feed.next state pool =
      { feed.next later poolThen with log := log ++ (feed.next later poolThen).log }) :
    feed.visitFrom limit state pool =
      { feed.visitFrom limit later poolThen with
        notes := log.map .event ++ (feed.visitFrom limit later poolThen).notes } := by
  have hSame : (feed.next state pool).reply = (feed.next later poolThen).reply := by rw [hNext]
  cases hReply : (feed.next later poolThen).reply with
  | ended =>
      rw [visitFrom_of_ended limit hReply, visitFrom_of_ended limit (hSame.trans hReply), hNext]
      simp
  | failed fault =>
      rw [visitFrom_of_failed limit hReply, visitFrom_of_failed limit (hSame.trans hReply), hNext]
      simp
  | item x =>
      by_cases hZero : limit = some 0
      · rw [hZero, visitFrom_of_item_zero hReply, visitFrom_of_item_zero (hSame.trans hReply),
          hNext]
        simp
      by_cases hOne : limit = some 1
      · rw [hOne, visitFrom_of_item_one hReply, visitFrom_of_item_one (hSame.trans hReply), hNext]
        simp
      have hMore := two_le_of_limit_ne hZero hOne
      rw [visitFrom_of_item_more limit hMore hReply,
        visitFrom_of_item_more limit hMore (hSame.trans hReply), hNext]
      simp

end Visit

end Feed

end Sequences
