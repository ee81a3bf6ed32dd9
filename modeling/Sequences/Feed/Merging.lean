import Sequences.Feed.Basic
import Sequences.Inquiry

/-!
Merging two feeds on demand. The first demand asks both feeds, the left one
first. Later a feed is asked again only when its last item was delivered and
a further item is wanted. However a reading is cut short, the right feed is
stopped before the left one.
-/

namespace Sequences

variable {α : Type}

namespace Feed

/-- The two feeds, and the answer of each that has not been used yet. An
answer that no further item will come is kept for good, so that a feed is
never asked behind its end. -/
structure MergeState (σ τ α : Type) where
  left : σ
  right : τ
  leftHead : Option (Reply α)
  rightHead : Option (Reply α)
  calls : Nat

/-- The answer at hand, or a new one. -/
def fetch (feed : Feed α α) (head : Option (Reply α)) (state : feed.State) (pool : Pool α) :
    Turn feed.State α α :=
  match head with
  | some reply => ⟨reply, state, pool, []⟩
  | none => feed.next state pool

/-- How many items an unused answer holds. -/
def headCount : Option (Reply α) → Nat
  | some reply => reply.count
  | none => 0

theorem fetch_pool_le (feed : Feed α α) (head : Option (Reply α)) (state : feed.State)
    (pool : Pool α) : (fetch feed head state pool).pool ≤ pool := by
  cases head with
  | none => exact feed.next_pool_le state pool
  | some reply => exact Pool.le_refl pool

theorem fetch_bound_le (feed : Feed α α) (head : Option (Reply α)) (state : feed.State)
    (pool : Pool α) :
    (fetch feed head state pool).reply.count +
        feed.bound (fetch feed head state pool).state (fetch feed head state pool).pool ≤
      headCount head + feed.bound state pool := by
  cases head with
  | none => simpa [fetch, headCount] using feed.next_bound_le state pool
  | some reply => exact Nat.le_refl _

section

variable (left right : Feed α α) (cmp : Probe (α × α) Ordering) (noted : Bool)

/-- The rest of a demand after the left feed answered with an item or with
its end, here `x?`. While both feeds have an item the comparator decides, and
ties go to the left; afterwards the other feed is passed through. -/
def mergeRight (state : MergeState left.State right.State α) (l : Turn left.State α α)
    (x? : Option α) : Turn (MergeState left.State right.State α) α α :=
  let r := fetch right state.rightHead state.right l.pool
  let log := l.log ++ r.log
  let after := ⟨l.state, r.state, some l.reply, some r.reply, state.calls⟩
  match x?, r.reply with
  | _, .failed fault => ⟨.failed fault, after, r.pool, log ++ left.stop l.state⟩
  | none, .ended => ⟨.ended, after, r.pool, log⟩
  | some x, .ended => ⟨.item x, { after with leftHead := none }, r.pool, log⟩
  | none, .item y => ⟨.item y, { after with rightHead := none }, r.pool, log⟩
  | some x, .item y =>
    let calls := state.calls + 1
    let log := log ++ (if noted then [.compared x y] else [])
    match cmp calls (x, y) with
    | .error fault =>
      ⟨.failed fault, { after with calls }, r.pool,
        log ++ (right.stop r.state ++ left.stop l.state)⟩
    | .ok order =>
      if order.isLE then ⟨.item x, { after with leftHead := none, calls }, r.pool, log⟩
      else ⟨.item y, { after with rightHead := none, calls }, r.pool, log⟩

/-- A feed that fails is not stopped, but the other one is. -/
def mergeNext (state : MergeState left.State right.State α) (pool : Pool α) :
    Turn (MergeState left.State right.State α) α α :=
  let l := fetch left state.leftHead state.left pool
  match l.reply with
  | .failed fault =>
    ⟨.failed fault, { state with left := l.state, leftHead := some l.reply }, l.pool,
      l.log ++ right.stop state.right⟩
  | .ended => mergeRight left right cmp noted state l none
  | .item x => mergeRight left right cmp noted state l (some x)

/-- The items in hand and those that can still come. -/
def mergeBound (state : MergeState left.State right.State α) (pool : Pool α) : Nat :=
  headCount state.leftHead + left.bound state.left pool +
    (headCount state.rightHead + right.bound state.right pool)

theorem mergeRight_pool_le (state : MergeState left.State right.State α)
    (l : Turn left.State α α) (x? : Option α) :
    (mergeRight left right cmp noted state l x?).pool ≤ l.pool := by
  have hRight := fetch_pool_le right state.rightHead state.right l.pool
  unfold mergeRight
  dsimp only
  split <;> try exact hRight
  split
  · exact hRight
  · split <;> exact hRight

theorem mergeNext_pool_le (state : MergeState left.State right.State α) (pool : Pool α) :
    (mergeNext left right cmp noted state pool).pool ≤ pool := by
  have hLeft := fetch_pool_le left state.leftHead state.left pool
  unfold mergeNext
  dsimp only
  split
  · exact hLeft
  · exact Pool.le_trans (mergeRight_pool_le left right cmp noted state _ _) hLeft
  · exact Pool.le_trans (mergeRight_pool_le left right cmp noted state _ _) hLeft

theorem mergeRight_bound_le (state : MergeState left.State right.State α)
    (l : Turn left.State α α) (x? : Option α)
    (hHead : l.reply = match x? with | some x => .item x | none => .ended) :
    (mergeRight left right cmp noted state l x?).reply.count +
        mergeBound left right (mergeRight left right cmp noted state l x?).state
          (mergeRight left right cmp noted state l x?).pool ≤
      l.reply.count + left.bound l.state l.pool +
        (headCount state.rightHead + right.bound state.right l.pool) := by
  have hRight := fetch_bound_le right state.rightHead state.right l.pool
  have hLeft := left.bound_mono l.state
    (fetch_pool_le right state.rightHead state.right l.pool)
  unfold mergeRight
  dsimp only
  split
  next hReply => simp_all only [mergeBound, headCount, Reply.count]; omega
  next hReply => simp_all only [mergeBound, headCount, Reply.count]; omega
  next hReply => simp_all only [mergeBound, headCount, Reply.count]; omega
  next hReply => simp_all only [mergeBound, headCount, Reply.count]; omega
  next hReply =>
    split
    · simp_all only [mergeBound, headCount, Reply.count]; omega
    · split <;> (simp_all only [mergeBound, headCount, Reply.count]; omega)

theorem mergeNext_bound_le (state : MergeState left.State right.State α) (pool : Pool α) :
    (mergeNext left right cmp noted state pool).reply.count +
        mergeBound left right (mergeNext left right cmp noted state pool).state
          (mergeNext left right cmp noted state pool).pool ≤
      mergeBound left right state pool := by
  have hLeft := fetch_bound_le left state.leftHead state.left pool
  have hRight := right.bound_mono state.right
    (fetch_pool_le left state.leftHead state.left pool)
  unfold mergeNext
  dsimp only
  split
  next hReply => simp_all only [mergeBound, headCount, Reply.count]; omega
  next hReply =>
    have h := mergeRight_bound_le left right cmp noted state
      (fetch left state.leftHead state.left pool) none hReply
    simp only [mergeBound] at h ⊢
    omega
  next x hReply =>
    have h := mergeRight_bound_le left right cmp noted state
      (fetch left state.leftHead state.left pool) (some x) hReply
    simp only [mergeBound] at h ⊢
    omega

/-- The merge of two feeds. Calls of the comparator appear in the log only if
they are `noted`. -/
def merge : Feed α α where
  State := MergeState left.State right.State α
  initial := ⟨left.initial, right.initial, none, none, 0⟩
  rewind state := ⟨left.rewind state.left, right.rewind state.right, none, none, state.calls⟩
  next := mergeNext left right cmp noted
  stop state := right.stop state.right ++ left.stop state.left
  unwind state := right.stop state.right ++ left.stop state.left
  bound := mergeBound left right
  next_pool_le := mergeNext_pool_le left right cmp noted
  next_bound_le := mergeNext_bound_le left right cmp noted
  bound_mono state _ _ hPool := by
    have hLeft := left.bound_mono state.left hPool
    have hRight := right.bound_mono state.right hPool
    simp only [mergeBound]
    omega

end

end Feed

end Sequences
