import Sequences.Element.Basic
import Sequences.Feed.Plan
import Sequences.Proofs.Ledger

/-! Every input that a reading starts is closed again, once. If the reader
stays to the end, each input has run to its own end. If the reader quits, the
inputs that are still open are stopped, the right one of two before the left
one, and nothing else happens any more. Readings that fail are not covered. -/
namespace Sequences

variable {α β κ : Type}

/-- What happened on the side of the feed. -/
def Note.event? : Note α β → Option (Event α)
  | event e => some e
  | received _ => none
  | quit => none

/-- The events of a reading. -/
def eventsIn (notes : List (Note α β)) : List (Event α) := notes.filterMap Note.event?

@[simp]
theorem eventsIn_append (notes more : List (Note α β)) :
    eventsIn (notes ++ more) = eventsIn notes ++ eventsIn more := List.filterMap_append ..

@[simp]
theorem eventsIn_map_event (log : List (Event α)) :
    eventsIn (log.map .event : List (Note α β)) = log := by
  induction log with
  | nil => rfl
  | cons event log ih => exact congrArg (event :: ·) ih

@[simp]
theorem eventsIn_received_cons (x : β) (notes : List (Note α β)) :
    eventsIn (.received x :: notes) = eventsIn notes := rfl

@[simp]
theorem eventsIn_quit_cons (notes : List (Note α β)) :
    eventsIn (.quit :: notes) = eventsIn notes := rfl

theorem quit_notMem_map_event (log : List (Event α)) :
    (.quit : Note α β) ∉ log.map .event := by
  simp

/-- The events of one leaf, in order. -/
def Leaf.own (leaf : Leaf) (log : List (Event α)) : List (Event α) :=
  log.filter fun event => event.leaf? = some leaf

theorem Leaf.own_append (leaf : Leaf) (log more : List (Event α)) :
    leaf.own (log ++ more) = leaf.own log ++ leaf.own more := List.filter_append ..

def Event.isStart : Event α → Bool
  | started _ => true
  | _ => false

def Event.isEnd : Event α → Bool
  | ended _ => true
  | _ => false

/-- Whether the leaf was started and has not yet ended. -/
def Leaf.isOpen (leaf : Leaf) (log : List (Event α)) : Bool :=
  (leaf.own log).any Event.isStart && !(leaf.own log).any Event.isEnd

/-- All events of a leaf up to a phase: one start, then its items, then one
end. -/
def Trail (leaf : Leaf) : Phase → List (Event α) → Prop
  | .idle, events => events = []
  | .reading, events => ∃ items : List α, events = .started leaf :: items.map (.emitted leaf)
  | .closed, events =>
      ∃ items : List α, events = .started leaf :: items.map (.emitted leaf) ++ [.ended leaf]

/-- The orderly reading of a plan with these leaves. -/
structure Orderly (leaves : List Leaf) (limit : Limit) (notes : List (Note α β)) : Prop where
  /-- No other input is touched. -/
  within : ∀ leaf, leaf ∉ leaves → leaf.own (eventsIn notes) = []
  /-- A reader without a limit stays. -/
  limited : .quit ∈ notes → limit ≠ none
  /-- If the reader stays, every leaf is started and ends, and none is stopped. -/
  exhausted : .quit ∉ notes → ∀ leaf ∈ leaves, Trail leaf .closed (leaf.own (eventsIn notes))
  /-- If the reader quits, the open leaves are stopped from right to left, and
  this is all that happens then. -/
  quit : .quit ∈ notes → ∃ before, .quit ∉ before ∧
    (∀ leaf ∈ leaves, ∃ phase, Trail leaf phase (leaf.own (eventsIn before))) ∧
    notes = before ++ .quit :: (leaves.reverse.filter fun leaf =>
      leaf.isOpen (eventsIn before)).map fun leaf => .event (.stopped leaf)

theorem Trail.isOpen_iff {leaf : Leaf} {phase : Phase} {log : List (Event α)}
    (hTrail : Trail leaf phase (leaf.own log)) : leaf.isOpen log = decide (phase = .reading) := by
  cases phase with
  | idle =>
      change leaf.own log = [] at hTrail
      simp [Leaf.isOpen, hTrail]
  | reading =>
      obtain ⟨items, hOwn⟩ := hTrail
      simp [Leaf.isOpen, hOwn, Event.isStart, Event.isEnd]
  | closed =>
      obtain ⟨items, hOwn⟩ := hTrail
      simp [Leaf.isOpen, hOwn, Event.isStart, Event.isEnd]

/-- One event of the leaf lengthens its trail, and other events leave it as it
is. -/
theorem Trail.advance {leaf : Leaf} {phase next : Phase} {past : List (Event α)}
    {event : Event α} (hTrail : Trail leaf phase past)
    (hEvent : phase.advance leaf event = some next) :
    Trail leaf next (past ++ leaf.own [event]) := by
  by_cases hLeaf : event.leaf? = some leaf
  · have hOwn : leaf.own [event] = [event] := by simp [Leaf.own, hLeaf]
    rw [hOwn]
    rcases Phase.advance_cases hLeaf hEvent with ⟨rfl, rfl, rfl⟩ | ⟨rfl, rfl, x, rfl⟩ |
      ⟨rfl, rfl, rfl⟩
    · change past = [] at hTrail
      exact ⟨[], by simp [hTrail]⟩
    · obtain ⟨items, hPast⟩ := hTrail
      exact ⟨items ++ [x], by simp [hPast]⟩
    · obtain ⟨items, hPast⟩ := hTrail
      exact ⟨items, by rw [hPast]⟩
  · have hOwn : leaf.own [event] = [] := by simp [Leaf.own, hLeaf]
    rw [Phase.advance_of_other hLeaf] at hEvent
    cases hEvent
    rw [hOwn, List.append_nil]
    exact hTrail

theorem Trail.follow {leaf : Leaf} {phase next : Phase} {past log : List (Event α)}
    (hTrail : Trail leaf phase past) (hLog : phase.follow leaf log = some next) :
    Trail leaf next (past ++ leaf.own log) := by
  induction log generalizing phase past with
  | nil =>
      cases hLog
      simpa [Leaf.own] using hTrail
  | cons event log ih =>
      rw [Phase.follow_cons] at hLog
      obtain ⟨middle, hEvent, hRest⟩ := Option.bind_eq_some_iff.mp hLog
      have hAll := ih (hTrail.advance hEvent) hRest
      rw [List.append_assoc, ← Leaf.own_append] at hAll
      exact hAll

theorem Moves.trail {leaves : List Leaf} {before after : Leaf → Phase} {log : List (Event α)}
    (hMoves : Moves leaves before after log) {leaf : Leaf} (hLeaf : leaf ∈ leaves)
    (hIdle : before leaf = .idle) : Trail leaf (after leaf) (leaf.own log) := by
  have hStart : Trail leaf .idle ([] : List (Event α)) := rfl
  have hFollow := hMoves.follow leaf hLeaf
  rw [hIdle] at hFollow
  exact hStart.follow hFollow

theorem Moves.own_eq_nil {leaves : List Leaf} {before after : Leaf → Phase}
    {log : List (Event α)} (hMoves : Moves leaves before after log) {leaf : Leaf}
    (hLeaf : leaf ∉ leaves) : leaf.own log = [] := by
  refine List.filter_eq_nil_iff.mpr fun event hEvent => ?_
  simpa using fun hOwn => hLeaf (hMoves.within event hEvent leaf hOwn)

/-- How a reading that does not fail closes its leaves, which have the given
phases at first. Only a reader with a limit quits. -/
inductive Closing (leaves : List Leaf) (limited : Bool) (before : Leaf → Phase) :
    List (Note α β) → Prop where
  | exhausted {notes : List (Note α β)} {after : Leaf → Phase} (hStays : .quit ∉ notes)
      (hMoves : Moves leaves before after (eventsIn notes))
      (hClosed : ∀ leaf ∈ leaves, after leaf = .closed) : Closing leaves limited before notes
  | quit {notes : List (Note α β)} {after : Leaf → Phase} (hLimited : limited = true)
      (hStays : .quit ∉ notes) (hMoves : Moves leaves before after (eventsIn notes)) :
      Closing leaves limited before (notes ++ .quit :: (Feed.stopsOf leaves after).map .event)

/-- A demand that brought an item comes first. -/
theorem Closing.received {leaves : List Leaf} {limited : Bool} {before after : Leaf → Phase}
    {log : List (Event α)} {notes : List (Note α β)} (hMoves : Moves leaves before after log)
    (x : β) (hNotes : Closing leaves limited after notes) :
    Closing leaves limited before (log.map .event ++ .received x :: notes) := by
  cases hNotes with
  | exhausted hStays hLater hClosed =>
      exact .exhausted (by simp [hStays]) (by simpa using hMoves.trans hLater) hClosed
  | @quit notes _ hLimited hStays hLater =>
      have hBefore : .quit ∉ log.map .event ++ .received x :: notes := by simp [hStays]
      have hAll := Closing.quit hLimited hBefore (by simpa using hMoves.trans hLater)
      simpa using hAll

namespace Feed

/-- The run lemma: what each demand keeps, carried to the end of a reading. -/
theorem Ledger.closing_visitFrom {feed : Feed α β} {leaves : List Leaf}
    (ledger : Ledger feed leaves) (limit : Limit) (state : feed.State) (pool : Pool α)
    (hReady : ledger.Ready state) (hFault : (feed.visitFrom limit state pool).fault = none) :
    Closing leaves limit.isSome (ledger.phase state) (feed.visitFrom limit state pool).notes := by
  have hNext := ledger.next_moves state pool hReady
  cases hReply : (feed.next state pool).reply with
  | failed fault =>
      rw [visitFrom_of_failed limit hReply] at hFault
      cases hFault
  | ended =>
      obtain ⟨hMoves, hSettled⟩ := hNext (by simp [hReply])
      rw [hReply] at hSettled
      rw [visitFrom_of_ended limit hReply]
      exact .exhausted (quit_notMem_map_event _) (by simpa using hMoves) hSettled
  | item x =>
      obtain ⟨hMoves, hSettled⟩ := hNext (by simp [hReply])
      rw [hReply] at hSettled
      match limit with
      | some 0 =>
          rw [visitFrom_of_item_zero hReply, ledger.stop_eq]
          exact .quit rfl (quit_notMem_map_event _) (by simpa using hMoves)
      | some 1 =>
          rw [visitFrom_of_item_one hReply, ledger.stop_eq]
          exact .received hMoves x (.quit rfl List.not_mem_nil (Moves.refl leaves _))
      | some (k + 2) =>
          rw [visitFrom_of_item_more _ (by simp) hReply] at hFault ⊢
          exact .received hMoves x (closing_visitFrom ledger _ _ _ hSettled hFault)
      | none =>
          rw [visitFrom_of_item_more _ (by simp) hReply] at hFault ⊢
          exact .received hMoves x (closing_visitFrom ledger _ _ _ hSettled hFault)
termination_by feed.bound state pool
decreasing_by all_goals exact feed.bound_lt_of_item hReply

/-- A feed that brings items only while it has not closed a leaf lets the leaf come to
its end just for a reader who stays. -/
theorem Ledger.ended_mem_visitFrom_iff {feed : Feed α β} {leaves : List Leaf}
    (ledger : Ledger feed leaves) {leaf : Leaf} (hLeaf : leaf ∈ leaves)
    (hOpen : ∀ state, ledger.Ready state → ledger.phase state leaf ≠ .closed) (limit : Limit)
    (state : feed.State) (pool : Pool α) (hReady : ledger.Ready state)
    (hFault : (feed.visitFrom limit state pool).fault = none) :
    .ended leaf ∈ eventsIn (feed.visitFrom limit state pool).notes ↔
      .quit ∉ (feed.visitFrom limit state pool).notes := by
  have hNext := ledger.next_moves state pool hReady
  cases hReply : (feed.next state pool).reply with
  | failed fault =>
      rw [visitFrom_of_failed limit hReply] at hFault
      cases hFault
  | ended =>
      obtain ⟨hMoves, hSettled⟩ := hNext (by simp [hReply])
      rw [hReply] at hSettled
      have hEnded := (Phase.ended_mem_iff_of_follow (hMoves.follow leaf hLeaf)
        (hOpen state hReady)).mpr (hSettled leaf hLeaf)
      rw [visitFrom_of_ended limit hReply]
      simpa using hEnded
  | item x =>
      obtain ⟨hMoves, hSettled⟩ := hNext (by simp [hReply])
      rw [hReply] at hSettled
      have hStill : .ended leaf ∉ (feed.next state pool).log := fun hEnded =>
        hOpen _ hSettled <| (Phase.ended_mem_iff_of_follow (hMoves.follow leaf hLeaf)
          (hOpen state hReady)).mp hEnded
      have hStop : .ended leaf ∉ feed.stop (feed.next state pool).state := by
        rw [ledger.stop_eq]
        simp [stopsOf]
      by_cases hZero : limit = some 0
      · subst hZero
        rw [visitFrom_of_item_zero hReply]
        simp [hStill, hStop]
      by_cases hOne : limit = some 1
      · subst hOne
        rw [visitFrom_of_item_one hReply]
        simp [hStill, hStop]
      rw [visitFrom_of_item_more limit (two_le_of_limit_ne hZero hOne) hReply] at hFault ⊢
      simpa [hStill] using ended_mem_visitFrom_iff ledger hLeaf hOpen _ _ _ hSettled hFault
termination_by feed.bound state pool
decreasing_by exact feed.bound_lt_of_item hReply

/-- A reader quits at the last item that it wants, and never otherwise. -/
theorem quit_mem_visitFrom_iff (feed : Feed α β) {limit : Limit} (hLimit : limit ≠ some 0)
    (state : feed.State) (pool : Pool α) :
    .quit ∈ (feed.visitFrom limit state pool).notes ↔
      limit = some (feed.visitFrom limit state pool).got.length := by
  induction limit, state, pool using Feed.visitFrom.induct with
  | case1 limit state pool turn hReply =>
      rw [visitFrom_of_ended limit hReply]
      simpa using hLimit
  | case2 limit state pool turn fault hReply =>
      rw [visitFrom_of_failed limit hReply]
      simpa using hLimit
  | case3 state pool turn x hReply => exact absurd rfl hLimit
  | case4 state pool turn x hReply =>
      rw [visitFrom_of_item_one hReply]
      simp
  | case5 state pool turn x hReply more ih =>
      rw [visitFrom_of_item_more (some (more + 2)) (by simp) hReply]
      simpa using ih (by simp)
  | case6 state pool turn x hReply ih =>
      rw [visitFrom_of_item_more none (by simp) hReply]
      simpa using ih (by simp)

end Feed

theorem own_stopsOf {leaves : List Leaf} {leaf : Leaf} (hLeaf : leaf ∉ leaves)
    (phase : Leaf → Phase) :
    leaf.own (eventsIn (.quit :: (Feed.stopsOf leaves phase).map .event : List (Note α β))) =
      [] := by
  have hEvents : eventsIn (.quit :: (Feed.stopsOf leaves phase).map .event : List (Note α β)) =
      Feed.stopsOf leaves phase := eventsIn_map_event _
  rw [hEvents]
  refine List.filter_eq_nil_iff.mpr fun event hEvent => ?_
  obtain ⟨other, hOther, rfl⟩ := List.mem_map.mp hEvent
  have hMem : other ∈ leaves := List.mem_reverse.mp (List.mem_filter.mp hOther).1
  simp only [Event.leaf?, Option.some.injEq, decide_eq_true_eq]
  rintro rfl
  exact hLeaf hMem

/-- A reading that begins with all leaves idle is orderly. -/
theorem Closing.orderly {leaves : List Leaf} {limit : Limit} {before : Leaf → Phase}
    {notes : List (Note α β)} (hClosing : Closing leaves limit.isSome before notes)
    (hIdle : ∀ leaf ∈ leaves, before leaf = .idle) : Orderly leaves limit notes := by
  cases hClosing with
  | @exhausted _ after hStays hMoves hClosed =>
      refine ⟨fun leaf => hMoves.own_eq_nil, fun hQuit => absurd hQuit hStays,
        fun _ leaf hLeaf => ?_, fun hQuit => absurd hQuit hStays⟩
      rw [← hClosed leaf hLeaf]
      exact hMoves.trail hLeaf (hIdle leaf hLeaf)
  | @quit notes after hLimited hStays hMoves =>
      have hOpen : leaves.reverse.filter (fun leaf => leaf.isOpen (eventsIn notes)) =
          leaves.reverse.filter fun leaf => after leaf = .reading := by
        refine List.filter_congr fun leaf hLeaf => ?_
        have hMem := List.mem_reverse.mp hLeaf
        exact (hMoves.trail hMem (hIdle leaf hMem)).isOpen_iff
      refine ⟨fun leaf hLeaf => ?_, fun _ => Option.isSome_iff_ne_none.mp hLimited,
        fun hStay => absurd (by simp) hStay, fun _ =>
        ⟨notes, hStays, fun leaf hLeaf => ⟨_, hMoves.trail hLeaf (hIdle leaf hLeaf)⟩, ?_⟩⟩
      · rw [eventsIn_append, Leaf.own_append, hMoves.own_eq_nil hLeaf]
        exact own_stopsOf hLeaf after
      · rw [hOpen, Feed.stopsOf, List.map_map]
        rfl

/-- Every limit has its reading, which is orderly unless it fails. -/
def AllOrderly (leaves : List Leaf) (limits : List Limit) (readings : List (Reading α β)) : Prop :=
  readings.length = limits.length ∧
    ∀ pair ∈ limits.zip readings, pair.2.fault = none → Orderly leaves pair.1 pair.2.notes

namespace Feed

/-- By induction on the limits: whatever a reading did, rewinding makes all
leaves idle again. -/
theorem Ledger.orderly_visitsFrom {feed : Feed α β} {leaves : List Leaf}
    (ledger : Ledger feed leaves) (limits : List Limit) {state : feed.State} (pool : Pool α)
    (hReady : ledger.Ready state) (hIdle : ∀ leaf ∈ leaves, ledger.phase state leaf = .idle) :
    AllOrderly leaves limits ((feed.visitsFrom limits state pool).map Visit.reading) := by
  induction limits generalizing state pool with
  | nil =>
      refine ⟨rfl, fun pair hPair => ?_⟩
      cases hPair
  | cons limit limits ih =>
      obtain ⟨hLength, hLater⟩ := ih (feed.visitFrom limit state pool).pool
        (ledger.ready_rewind _) (ledger.idle_rewind _)
      refine ⟨congrArg (· + 1) hLength, fun pair hPair hFault => ?_⟩
      rcases List.mem_cons.mp hPair with rfl | hPair
      · exact (ledger.closing_visitFrom limit state pool hReady hFault).orderly hIdle
      · exact hLater pair hPair hFault

/-- All readings that do not fail are orderly, whatever the pool holds. -/
def KeepsOrder (feed : Feed α β) (leaves : List Leaf) : Prop :=
  ∀ limits pool, AllOrderly leaves limits ((feed.visits limits pool).map Visit.reading)

theorem Ledger.keepsOrder {feed : Feed α β} {leaves : List Leaf} (ledger : Ledger feed leaves) :
    feed.KeepsOrder leaves := fun limits pool =>
  ledger.orderly_visitsFrom limits pool ledger.ready_initial ledger.idle_initial

end Feed

/-- Whether the reader of an input has come behind its end. -/
def Cursor.isClosed {σ : Type} : Cursor σ → Bool
  | .closed => true
  | _ => false

namespace Feed

/-- The same feed, except that a demand in one of the given states is noted by
further events. -/
def noting (feed : Feed α β) (closed : feed.State → Bool) (late : List (Event α)) :
    Feed α β where
  State := feed.State
  initial := feed.initial
  rewind := feed.rewind
  next state pool :=
    let turn := feed.next state pool
    { turn with log := turn.log ++ if closed state then late else [] }
  stop := feed.stop
  unwind := feed.unwind
  bound := feed.bound
  next_pool_le := feed.next_pool_le
  next_bound_le := feed.next_bound_le
  bound_mono := feed.bound_mono

/-- The reader of an input that notes, by `late`, every demand behind its
end. -/
def alertSource (late : Leaf → List (Event α)) (leaf : Leaf) (input : Source α) : Feed α α :=
  if input.singleUse then (draw leaf input.breaks).noting Cursor.isClosed (late leaf)
  else (replay leaf input.items input.breaks).noting Cursor.isClosed (late leaf)

/-- A ledger asks nothing of demands that are out of order. -/
def Ledger.noting {feed : Feed α β} {leaves : List Leaf} (ledger : Ledger feed leaves)
    {closed : feed.State → Bool} (hOpen : ∀ state, ledger.Ready state → closed state = false)
    (late : List (Event α)) : Ledger (feed.noting closed late) leaves where
  phase := ledger.phase
  Ready := ledger.Ready
  ready_initial := ledger.ready_initial
  ready_rewind := ledger.ready_rewind
  idle_initial := ledger.idle_initial
  idle_rewind := ledger.idle_rewind
  stop_eq := ledger.stop_eq
  next_moves state pool hReady hFine := by
    obtain ⟨hMoves, hSettled⟩ := ledger.next_moves state pool hReady hFine
    refine ⟨?_, hSettled⟩
    simpa [Feed.noting, hOpen state hReady] using hMoves

theorem noting_nil (feed : Feed α β) (closed : feed.State → Bool) :
    feed.noting closed [] = feed := by
  simp [noting]

theorem alertSource_nil (leaf : Leaf) (input : Source α) :
    alertSource (fun _ => []) leaf input = source leaf input := by
  unfold alertSource source
  split
  · exact noting_nil (draw leaf input.breaks) Cursor.isClosed
  · exact noting_nil (replay leaf input.items input.breaks) Cursor.isClosed

theorem nonempty_ledger_alertSource (late : Leaf → List (Event α)) (leaf : Leaf)
    (input : Source α) : Nonempty (Ledger (alertSource late leaf input) [leaf]) := by
  have hOpen {σ : Type} (state : Cursor σ) (hReady : Ledger.cursorPhase state ≠ .closed) :
      state.isClosed = false := by
    cases state <;> simp_all [Cursor.isClosed, Ledger.cursorPhase]
  unfold alertSource
  split
  · exact ⟨(Ledger.draw leaf input.breaks).noting hOpen (late leaf)⟩
  · exact ⟨(Ledger.replay leaf input.items input.breaks).noting hOpen (late leaf)⟩

end Feed

namespace Plan

/-- The leaves of a plan that stands at the given place, from left to right. -/
def leavesAt (place : List Side) : Plan α κ → List Leaf
  | source name _ => [⟨name, place⟩]
  | distinct _ _ inner => inner.leavesAt place
  | merge _ _ left right =>
      left.leavesAt (place ++ [.left]) ++ right.leavesAt (place ++ [.right])

def leaves (plan : Plan α κ) : List Leaf := plan.leavesAt []

/-- The feed of a plan whose inputs note demands behind their end. -/
def alertFeedAt [BEq κ] (late : Leaf → List (Event α)) (place : List Side) : Plan α κ → Feed α α
  | source name input => .alertSource late ⟨name, place⟩ input
  | distinct key noted inner => .distinct (inner.alertFeedAt late place) key noted
  | merge cmp noted left right =>
      .merge (left.alertFeedAt late (place ++ [.left]))
        (right.alertFeedAt late (place ++ [.right])) cmp noted

def alertFeed [BEq κ] (late : Leaf → List (Event α)) (plan : Plan α κ) : Feed α α :=
  plan.alertFeedAt late []

theorem alertFeedAt_nil [BEq κ] (plan : Plan α κ) (place : List Side) :
    plan.alertFeedAt (fun _ => []) place = plan.feedAt place := by
  induction plan generalizing place with
  | source name input => exact Feed.alertSource_nil ⟨name, place⟩ input
  | distinct key noted inner ih => rw [alertFeedAt, feedAt, ih]
  | merge cmp noted left right ihLeft ihRight => rw [alertFeedAt, feedAt, ihLeft, ihRight]

theorem exists_place_of_mem_leavesAt {plan : Plan α κ} {place : List Side} {leaf : Leaf}
    (hLeaf : leaf ∈ plan.leavesAt place) : ∃ way, leaf.place = place ++ way := by
  induction plan generalizing place with
  | source name input =>
      rw [List.mem_singleton.mp hLeaf]
      exact ⟨[], (List.append_nil place).symm⟩
  | distinct key noted inner ih => exact ih hLeaf
  | merge cmp noted left right ihLeft ihRight =>
      rcases List.mem_append.mp hLeaf with hLeaf | hLeaf
      · obtain ⟨way, hPlace⟩ := ihLeft hLeaf
        exact ⟨.left :: way, by simp [hPlace]⟩
      · obtain ⟨way, hPlace⟩ := ihRight hLeaf
        exact ⟨.right :: way, by simp [hPlace]⟩

/-- The two sides of a merge read at different places, also if they read the
same input. -/
theorem leavesAt_apart (left right : Plan α κ) (place : List Side) :
    ∀ leaf ∈ left.leavesAt (place ++ [.left]), leaf ∉ right.leavesAt (place ++ [.right]) := by
  intro leaf hLeft hRight
  obtain ⟨way, hPlace⟩ := exists_place_of_mem_leavesAt hLeft
  obtain ⟨other, hOther⟩ := exists_place_of_mem_leavesAt hRight
  rw [hPlace] at hOther
  simp at hOther

theorem nodup_leavesAt (plan : Plan α κ) (place : List Side) : (plan.leavesAt place).Nodup := by
  induction plan generalizing place with
  | source name input => simp [leavesAt]
  | distinct key noted inner ih => exact ih place
  | merge cmp noted left right ihLeft ihRight =>
      refine List.nodup_append.mpr ⟨ihLeft _, ihRight _, fun leaf hLeft other hRight hSame => ?_⟩
      exact leavesAt_apart left right place leaf hLeft (hSame ▸ hRight)

theorem nonempty_ledger [BEq κ] (late : Leaf → List (Event α)) (plan : Plan α κ)
    (place : List Side) :
    Nonempty (Feed.Ledger (plan.alertFeedAt late place) (plan.leavesAt place)) := by
  induction plan generalizing place with
  | source name input => exact Feed.nonempty_ledger_alertSource late ⟨name, place⟩ input
  | distinct key noted inner ih =>
      obtain ⟨ledger⟩ := ih place
      exact ⟨ledger.distinct key noted⟩
  | merge cmp noted left right ihLeft ihRight =>
      obtain ⟨leftLedger⟩ := ihLeft (place ++ [.left])
      obtain ⟨rightLedger⟩ := ihRight (place ++ [.right])
      exact ⟨leftLedger.merge rightLedger cmp noted (leavesAt_apart left right place)⟩

theorem alertFeed_keepsOrder [BEq κ] (late : Leaf → List (Event α)) (plan : Plan α κ) :
    (plan.alertFeed late).KeepsOrder plan.leaves ∧
      ∀ size hSize, ((plan.alertFeed late).groups size hSize).KeepsOrder plan.leaves := by
  obtain ⟨ledger⟩ := plan.nonempty_ledger late []
  exact ⟨ledger.keepsOrder, fun size hSize => (ledger.groups size hSize).keepsOrder⟩

/-- Every input that is started is closed once, and in order. The last part
makes demands behind the end of an input visible, whatever they are noted by:
the readings stay orderly, so there are none. -/
theorem readings_orderly [BEq κ] (plan : Plan α κ) (limits : List Limit) :
    plan.leaves.Nodup ∧ AllOrderly plan.leaves limits (plan.readings limits) ∧
      (∀ size : Int, 0 < size → ∃ readings, plan.groupReadings size limits = .ok readings ∧
        AllOrderly plan.leaves limits readings) ∧
      ∀ late : Leaf → List (Event α), (plan.alertFeed late).KeepsOrder plan.leaves ∧
        ∀ size hSize, ((plan.alertFeed late).groups size hSize).KeepsOrder plan.leaves := by
  obtain ⟨hItems, hGroups⟩ := plan.alertFeed_keepsOrder fun _ => []
  rw [alertFeed, alertFeedAt_nil] at hItems hGroups
  refine ⟨plan.nodup_leavesAt [], hItems limits plan.pool, fun size hSize => ?_,
    fun late => plan.alertFeed_keepsOrder late⟩
  rw [groupReadings, Feed.groups?, dif_pos hSize]
  exact ⟨_, rfl, hGroups _ _ limits plan.pool⟩

/-- A list that soon ends, and a single-use input. -/
def listAndOnce : Plan UInt64 Value :=
  .merge (comparisonProbe none compare) true (.source "a" ⟨[7], false, false⟩)
    (.source "b" ⟨[8, 1], false, true⟩)

/-- The left input has ended when the first reader quits, so only the right one
is stopped. The second reader stays, and what is left to it of the right input
comes first. -/
theorem readings_listAndOnce :
    let a : Leaf := ⟨"a", [.left]⟩
    let b : Leaf := ⟨"b", [.right]⟩
    let first : List (Note UInt64 UInt64) := [.event (.started a), .event (.emitted a 7),
      .event (.started b), .event (.emitted b 8), .event (.compared 7 8), .received 7,
      .event (.ended a), .received 8, .quit, .event (.stopped b)]
    let second : List (Note UInt64 UInt64) := [.event (.started a), .event (.emitted a 7),
      .event (.started b), .event (.emitted b 1), .event (.compared 7 1), .received 1,
      .event (.ended b), .received 7, .event (.ended a)]
    listAndOnce.readings [some 2, none] = [⟨[7, 8], first, none⟩, ⟨[1, 7], second, none⟩] ∧
      Orderly listAndOnce.leaves (some 2) first ∧ Orderly listAndOnce.leaves none second := by
  intro a b first second
  have hReadings : listAndOnce.readings [some 2, none] =
      [⟨[7, 8], first, none⟩, ⟨[1, 7], second, none⟩] := by
    simp only [readings, Feed.visits, Feed.visitsFrom]
    rw [Feed.visitFrom_of_item_more (x := 7) (some 2) (by simp) rfl, Option.map_some,
      Feed.visitFrom_of_item_one (x := 8) rfl,
      Feed.visitFrom_of_item_more (x := 1) none (by simp) rfl, Option.map_none,
      Feed.visitFrom_of_item_more (x := 7) none (by simp) rfl, Option.map_none,
      Feed.visitFrom_of_ended none rfl]
    rfl
  have hOrderly := (readings_orderly listAndOnce [some 2, none]).2.1.2
  rw [hReadings] at hOrderly
  exact ⟨hReadings, hOrderly (some 2, ⟨[7, 8], first, none⟩) (List.mem_cons_self ..) rfl,
    hOrderly (none, ⟨[1, 7], second, none⟩) (List.mem_cons_of_mem _ (List.mem_cons_self ..)) rfl⟩

end Plan

end Sequences
