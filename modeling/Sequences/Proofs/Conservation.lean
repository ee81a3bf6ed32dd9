import Sequences.Proofs.Closing

/-! What single-use inputs lose. An item leaves the pool of an input only when
the input emits it, and then it was the first one there. So the items emitted so
far and those left in the pool make up the input in its order, whichever parts of
a plan have read it, wherever the readers quit and whether or not a reading
failed. Replayable inputs are not covered: they lose nothing. -/
namespace Sequences

variable {α β : Type}

/-- The item that the input of this name emits. -/
def Event.emittedBy? (name : String) : Event α → Option α
  | emitted leaf x => if leaf.name = name then some x else none
  | _ => none

/-- The items that the input of this name emits, at whatever leaves. -/
def emittedBy (name : String) (log : List (Event α)) : List α :=
  log.filterMap (Event.emittedBy? name)

section Emitted

variable (name : String)

@[simp]
theorem emittedBy_nil : emittedBy name ([] : List (Event α)) = [] := rfl

@[simp]
theorem emittedBy_append (log more : List (Event α)) :
    emittedBy name (log ++ more) = emittedBy name log ++ emittedBy name more :=
  List.filterMap_append ..

@[simp]
theorem emittedBy_started_cons (leaf : Leaf) (log : List (Event α)) :
    emittedBy name (.started leaf :: log) = emittedBy name log := rfl

theorem emittedBy_emitted (leaf : Leaf) (x : α) :
    emittedBy name [.emitted leaf x] = if leaf.name = name then [x] else [] := by
  by_cases hName : leaf.name = name <;> simp [emittedBy, Event.emittedBy?, hName]

@[simp]
theorem emittedBy_compared (noted : Bool) (x y : α) :
    emittedBy name (if noted then [.compared x y] else []) = [] := by
  cases noted <;> rfl

@[simp]
theorem emittedBy_sourceEnd {σ : Type} (leaf : Leaf) (breaks : Bool) (pool : Pool α) :
    emittedBy name (Feed.sourceEnd leaf breaks pool : Turn (Cursor σ) α α).log = [] := by
  cases breaks <;> rfl

@[simp]
theorem emittedBy_stopCursor {σ : Type} (leaf : Leaf) (cursor : Cursor σ) :
    emittedBy name (Feed.stopCursor leaf cursor : List (Event α)) = [] := by
  cases cursor <;> rfl

end Emitted

/-- The items that a reading took from the input of this name. -/
def Reading.taken (name : String) (reading : Reading α β) : List α :=
  emittedBy name (eventsIn reading.notes)

namespace Feed

/-- What the input of this name loses, at a demand or otherwise, it emits. -/
structure Conserves (feed : Feed α β) (name : String) : Prop where
  next : ∀ state pool, pool.rest name =
    emittedBy name (feed.next state pool).log ++ (feed.next state pool).pool.rest name
  stop : ∀ state, emittedBy name (feed.stop state) = []

variable {name : String}

theorem drawFrom_conserves (leaf : Leaf) (breaks : Bool) (name : String) (pool : Pool α) :
    pool.rest name = emittedBy name (drawFrom leaf breaks pool).log ++
      (drawFrom leaf breaks pool).pool.rest name := by
  unfold drawFrom
  split
  next => simp [sourceEnd_pool]
  next x xs hRest =>
    rw [emittedBy_emitted, Pool.rest_set]
    by_cases hName : leaf.name = name
    · subst hName
      simp [hRest]
    · simp [hName, Ne.symm hName]

theorem draw_conserves (leaf : Leaf) (breaks : Bool) (name : String) :
    (draw leaf breaks : Feed α α).Conserves name where
  next state pool := by
    cases state with
    | idle => exact drawFrom_conserves leaf breaks name pool
    | reading _ => exact drawFrom_conserves leaf breaks name pool
    | closed => rfl
  stop state := emittedBy_stopCursor name leaf state

theorem Conserves.fetch {feed : Feed α α} (hFeed : feed.Conserves name)
    (head : Option (Reply α)) (state : feed.State) (pool : Pool α) :
    pool.rest name = emittedBy name (fetch feed head state pool).log ++
      (Feed.fetch feed head state pool).pool.rest name := by
  cases head with
  | none => exact hFeed.next state pool
  | some reply => rfl

/-- Both sides take from the same pool, the left one first. -/
theorem Conserves.merge {left right : Feed α α} (hLeft : left.Conserves name)
    (hRight : right.Conserves name) (cmp : Probe (α × α) Ordering) (noted : Bool) :
    (merge left right cmp noted).Conserves name where
  next state pool := by
    change pool.rest name = emittedBy name (mergeNext left right cmp noted state pool).log ++
      (mergeNext left right cmp noted state pool).pool.rest name
    have hFirst := hLeft.fetch state.leftHead state.left pool
    simp only [mergeNext, mergeRight]
    generalize Feed.fetch left state.leftHead state.left pool = l at hFirst ⊢
    have hSecond := hRight.fetch state.rightHead state.right l.pool
    generalize Feed.fetch right state.rightHead state.right l.pool = r at hSecond ⊢
    rw [hFirst]
    cases l.reply with
    | failed fault => simp [hRight.stop]
    | ended =>
        rw [hSecond]
        cases r.reply <;> simp [hLeft.stop]
    | item x =>
        rw [hSecond]
        cases r.reply with
        | failed fault => simp [hLeft.stop]
        | ended => simp
        | item y =>
            cases hCmp : cmp (state.calls + 1) (x, y) with
            | error fault => simp [hCmp, hLeft.stop, hRight.stop]
            | ok order => cases hLE : order.isLE <;> simp [hCmp, hLE]
  stop state := by
    change emittedBy name (right.stop state.right ++ left.stop state.left) = []
    rw [emittedBy_append, hLeft.stop, hRight.stop]
    rfl

theorem Conserves.gather {inner : Feed α β} (hInner : inner.Conserves name) (count : Nat)
    (state : inner.State) (pool : Pool α) :
    pool.rest name = emittedBy name (gather inner count state pool).log ++
      (Feed.gather inner count state pool).pool.rest name := by
  induction count generalizing state pool with
  | zero => rfl
  | succ count ih =>
      have hNext := hInner.next state pool
      simp only [Feed.gather]
      cases hReply : (inner.next state pool).reply with
      | ended => exact hNext
      | failed fault => exact hNext
      | item x =>
          rw [hNext, ih (inner.next state pool).state]
          simp

theorem Conserves.groups {inner : Feed α β} (hInner : inner.Conserves name) (size : Nat)
    (hSize : 0 < size) : (groups inner size hSize).Conserves name where
  next state pool := by
    change pool.rest name = emittedBy name (groupNext inner size state pool).log ++
      (groupNext inner size state pool).pool.rest name
    have hGather := hInner.gather size state.inner pool
    unfold groupNext
    split
    · rfl
    · dsimp only
      split <;> exact hGather
  stop state := hInner.stop state.inner

/-- The run lemma: what each demand keeps, a reading keeps. -/
theorem Conserves.visitFrom {feed : Feed α β} (hFeed : feed.Conserves name) (limit : Limit)
    (state : feed.State) (pool : Pool α) :
    pool.rest name = (feed.visitFrom limit state pool).reading.taken name ++
      (feed.visitFrom limit state pool).pool.rest name := by
  induction limit, state, pool using Feed.visitFrom.induct with
  | case1 limit state pool turn hReply =>
      rw [visitFrom_of_ended limit hReply]
      simpa [Visit.reading, Reading.taken] using hFeed.next state pool
  | case2 limit state pool turn fault hReply =>
      rw [visitFrom_of_failed limit hReply]
      simpa [Visit.reading, Reading.taken] using hFeed.next state pool
  | case3 state pool turn x hReply =>
      rw [visitFrom_of_item_zero hReply]
      simpa [Visit.reading, Reading.taken, hFeed.stop] using hFeed.next state pool
  | case4 state pool turn x hReply =>
      rw [visitFrom_of_item_one hReply]
      simpa [Visit.reading, Reading.taken, hFeed.stop] using hFeed.next state pool
  | case5 state pool turn x hReply more ih =>
      rw [visitFrom_of_item_more (some (more + 2)) (by simp) hReply, hFeed.next state pool, ih]
      simp [Visit.reading, Reading.taken, turn]
  | case6 state pool turn x hReply ih =>
      rw [visitFrom_of_item_more none (by simp) hReply, hFeed.next state pool, ih]
      simp [Visit.reading, Reading.taken, turn]

/-- The states in which a reading begins. -/
def Fresh (feed : Feed α β) (state : feed.State) : Prop :=
  state = feed.initial ∨ ∃ earlier, state = feed.rewind earlier

end Feed

/-- Successive readings, each of which begins where the one before has left off. -/
inductive Relay {π : Type} (leg : Limit → π → Reading α β → π → Prop) :
    π → List Limit → List (Reading α β) → π → Prop where
  | nil (place : π) : Relay leg place [] [] place
  | cons {limit : Limit} {start next finish : π} {reading : Reading α β} {limits : List Limit}
      {readings : List (Reading α β)} (hLeg : leg limit start reading next)
      (hLater : Relay leg next limits readings finish) :
      Relay leg start (limit :: limits) (reading :: readings) finish

section Relay

variable {π : Type} {leg : Limit → π → Reading α β → π → Prop}

theorem Relay.length_eq {start finish : π} {limits : List Limit} {readings : List (Reading α β)}
    (hRelay : Relay leg start limits readings finish) : readings.length = limits.length := by
  induction hRelay with
  | nil => rfl
  | cons hLeg hLater ih => exact congrArg (· + 1) ih

theorem Relay.uncons {limit : Limit} {start finish : π} {limits : List Limit}
    {readings : List (Reading α β)} (hRelay : Relay leg start (limit :: limits) readings finish) :
    ∃ reading later next, readings = reading :: later ∧ leg limit start reading next ∧
      Relay leg next limits later finish := by
  cases hRelay with
  | cons hLeg hLater => exact ⟨_, _, _, rfl, hLeg, hLater⟩

/-- A reading begins where those before it, taken together, have left off. -/
theorem Relay.leg_of_getElem? {start finish : π} {limits : List Limit}
    {readings : List (Reading α β)} (hRelay : Relay leg start limits readings finish)
    (index : Nat) {limit : Limit} {reading : Reading α β} (hLimit : limits[index]? = some limit)
    (hReading : readings[index]? = some reading) :
    ∃ place next, Relay leg start (limits.take index) (readings.take index) place ∧
      leg limit place reading next := by
  induction hRelay generalizing index with
  | nil => simp at hLimit
  | @cons _ start next _ _ _ _ hLeg hLater ih =>
      cases index with
      | zero =>
          cases Option.some.inj hLimit
          cases Option.some.inj hReading
          exact ⟨start, next, .nil start, hLeg⟩
      | succ index =>
          obtain ⟨place, later, hBefore, hHere⟩ := ih index hLimit hReading
          exact ⟨place, later, .cons hLeg hBefore, hHere⟩

/-- What holds of one reading from wherever it begins holds of successive ones. -/
theorem Feed.relay_visitsFrom (feed : Feed α β) (place : feed.State → Pool α → π)
    {limits : List Limit} (hVisit : ∀ limit ∈ limits, ∀ state pool, feed.Fresh state →
      leg limit (place state pool) (feed.visitFrom limit state pool).reading
        (place (feed.rewind (feed.visitFrom limit state pool).state)
          (feed.visitFrom limit state pool).pool))
    {state : feed.State} (hFresh : feed.Fresh state) (pool : Pool α) :
    ∃ finish, Relay leg (place state pool) limits
      ((feed.visitsFrom limits state pool).map Visit.reading) finish := by
  induction limits generalizing state pool with
  | nil => exact ⟨_, .nil _⟩
  | cons limit limits ih =>
      obtain ⟨hHere, hThere⟩ := List.forall_mem_cons.mp hVisit
      have hAnew : feed.Fresh (feed.rewind (feed.visitFrom limit state pool).state) :=
        .inr ⟨_, rfl⟩
      obtain ⟨finish, hLater⟩ := ih hThere hAnew (feed.visitFrom limit state pool).pool
      exact ⟨finish, .cons (hHere state pool hFresh) hLater⟩

end Relay

end Sequences
