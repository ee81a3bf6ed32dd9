import Sequences.Feed.Basic

/-!
Inputs. A replayable input begins anew for each of its readers. A single-use
input has one position for its whole life, and whatever a reader takes is
gone for all others. An input may break after its items: it then fails where
it would have ended.
-/

namespace Sequences

variable {α : Type}

/-- The items up to the end of the input, or up to the point where it
breaks. -/
structure Source (α : Type) where
  items : List α
  breaks : Bool
  singleUse : Bool

/-- A failing position counts the items delivered before. One that lies
outside the input is never met, but the one just behind the last item is. -/
def Source.ofItems (items : List α) (failAt : Option Int) (singleUse : Bool) : Source α :=
  match failAt with
  | none => ⟨items, false, singleUse⟩
  | some position =>
    if 0 ≤ position ∧ position ≤ items.length then
      ⟨items.take position.toNat, true, singleUse⟩
    else
      ⟨items, false, singleUse⟩

/-- Where a reader of an input stands. -/
inductive Cursor (σ : Type) where
  | idle
  | reading (position : σ)
  | closed

namespace Feed

/-- The end of an input, or its failure. -/
def sourceEnd {σ : Type} (leaf : Leaf) (breaks : Bool) (pool : Pool α) :
    Turn (Cursor σ) α α :=
  if breaks then ⟨.failed (.source leaf.name), .closed, pool, [.failed leaf]⟩
  else ⟨.ended, .closed, pool, [.ended leaf]⟩

/-- One demand to an input that begins anew for each reader and has `rest` in
front of it. -/
def replayFrom (leaf : Leaf) (breaks : Bool) (rest : List α) (pool : Pool α) :
    Turn (Cursor (List α)) α α :=
  match rest with
  | [] => sourceEnd leaf breaks pool
  | x :: xs => ⟨.item x, .reading xs, pool, [.emitted leaf x]⟩

/-- One demand to a single-use input. -/
def drawFrom (leaf : Leaf) (breaks : Bool) (pool : Pool α) : Turn (Cursor Unit) α α :=
  match pool.rest leaf.name with
  | [] => sourceEnd leaf breaks pool
  | x :: xs => ⟨.item x, .reading (), pool.set leaf.name xs, [.emitted leaf x]⟩

/-- The demand that starts an input notes the start first. -/
def noteStart {σ : Type} (leaf : Leaf) (turn : Turn σ α α) : Turn σ α α :=
  { turn with log := .started leaf :: turn.log }

/-- An input is told to stop only while it is being read. -/
def stopCursor {σ : Type} (leaf : Leaf) : Cursor σ → List (Event α)
  | .reading _ => [.stopped leaf]
  | .idle => []
  | .closed => []

theorem sourceEnd_pool {σ : Type} (leaf : Leaf) (breaks : Bool) (pool : Pool α) :
    (sourceEnd leaf breaks pool : Turn (Cursor σ) α α).pool = pool := by
  unfold sourceEnd; split <;> rfl

theorem sourceEnd_state {σ : Type} (leaf : Leaf) (breaks : Bool) (pool : Pool α) :
    (sourceEnd leaf breaks pool : Turn (Cursor σ) α α).state = .closed := by
  unfold sourceEnd; split <;> rfl

theorem sourceEnd_count {σ : Type} (leaf : Leaf) (breaks : Bool) (pool : Pool α) :
    (sourceEnd leaf breaks pool : Turn (Cursor σ) α α).reply.count = 0 := by
  unfold sourceEnd; split <;> rfl

/-- The reader of a replayable input keeps the items in front of it. -/
def replay (leaf : Leaf) (items : List α) (breaks : Bool) : Feed α α where
  State := Cursor (List α)
  initial := .idle
  rewind _ := .idle
  next
    | .idle, pool => noteStart leaf (replayFrom leaf breaks items pool)
    | .reading rest, pool => replayFrom leaf breaks rest pool
    | .closed, pool => ⟨.ended, .closed, pool, []⟩
  stop := stopCursor leaf
  unwind _ := []
  bound
    | .idle, _ => items.length
    | .reading rest, _ => rest.length
    | .closed, _ => 0
  next_pool_le state pool := by
    rcases state with _ | rest | _
    · cases items <;> simp [noteStart, replayFrom, sourceEnd_pool, Pool.le_refl]
    · cases rest <;> simp [replayFrom, sourceEnd_pool, Pool.le_refl]
    · exact Pool.le_refl pool
  next_bound_le state pool := by
    rcases state with _ | rest | _
    · cases items with
      | nil => simp [noteStart, replayFrom, sourceEnd_count, sourceEnd_state]
      | cons x xs => simp [noteStart, replayFrom, Reply.count]; omega
    · cases rest with
      | nil => simp [replayFrom, sourceEnd_count, sourceEnd_state]
      | cons x xs => simp [replayFrom, Reply.count]; omega
    · simp [Reply.count]
  bound_mono state _ _ _ := by
    rcases state with _ | rest | _ <;> exact Nat.le_refl _

/-- The reader of a single-use input finds its items in the pool. -/
def draw (leaf : Leaf) (breaks : Bool) : Feed α α where
  State := Cursor Unit
  initial := .idle
  rewind _ := .idle
  next
    | .idle, pool => noteStart leaf (drawFrom leaf breaks pool)
    | .reading _, pool => drawFrom leaf breaks pool
    | .closed, pool => ⟨.ended, .closed, pool, []⟩
  stop := stopCursor leaf
  unwind _ := []
  bound
    | .idle, pool => (pool.rest leaf.name).length
    | .reading _, pool => (pool.rest leaf.name).length
    | .closed, _ => 0
  next_pool_le state pool := by
    have hDraw : (drawFrom leaf breaks pool).pool ≤ pool := by
      unfold drawFrom
      split
      next => rw [sourceEnd_pool]; exact Pool.le_refl pool
      next hRest => exact Pool.set_tail_le hRest
    rcases state with _ | _ | _
    · exact hDraw
    · exact hDraw
    · exact Pool.le_refl pool
  next_bound_le state pool := by
    rcases state with _ | _ | _
    · cases hRest : pool.rest leaf.name with
      | nil => simp [noteStart, drawFrom, hRest, sourceEnd_count, sourceEnd_state]
      | cons x xs => simp [noteStart, drawFrom, hRest, Reply.count]; omega
    · cases hRest : pool.rest leaf.name with
      | nil => simp [drawFrom, hRest, sourceEnd_count, sourceEnd_state]
      | cons x xs => simp [drawFrom, hRest, Reply.count]; omega
    · simp [Reply.count]
  bound_mono state _ _ hPool := by
    rcases state with _ | _ | _
    · exact hPool leaf.name
    · exact hPool leaf.name
    · exact Nat.le_refl 0

/-- The reader of an input at a place of a plan. -/
def source (leaf : Leaf) (input : Source α) : Feed α α :=
  if input.singleUse then draw leaf input.breaks else replay leaf input.items input.breaks

end Feed

end Sequences
