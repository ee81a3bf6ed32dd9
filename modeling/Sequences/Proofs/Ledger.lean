import Sequences.Feed.Grouping
import Sequences.Feed.Source
import Sequences.Proofs.Demand

/-! Which inputs are open while a feed is read. Within one reading a leaf is
started, brings items and ends, in this order and at most once. A ledger
tells for every state of a feed how far each leaf has come, and ties this to
the log of every demand and to what the feed would stop. Demands that fail
are not covered. -/
namespace Sequences

variable {α β κ : Type}

/-- The leaf that an event is about. Calls of functions are about none. -/
def Event.leaf? : Event α → Option Leaf
  | started leaf => some leaf
  | emitted leaf _ => some leaf
  | ended leaf => some leaf
  | stopped leaf => some leaf
  | failed leaf => some leaf
  | compared _ _ => none
  | keyed _ => none

/-- How far one reading has come with a leaf. -/
inductive Phase where
  | idle
  | reading
  | closed
deriving DecidableEq

namespace Phase

/-- The phase after an event. Events of other leaves change nothing, and an
event of the leaf that is out of order has no phase after it. -/
def advance (leaf : Leaf) (phase : Phase) (event : Event α) : Option Phase :=
  if event.leaf? = some leaf then
    match phase, event with
    | idle, .started _ => some reading
    | reading, .emitted _ _ => some reading
    | reading, .ended _ => some closed
    | _, _ => none
  else some phase

theorem advance_of_other {leaf : Leaf} {event : Event α} (hOther : event.leaf? ≠ some leaf)
    (phase : Phase) : advance leaf phase event = some phase := if_neg hOther

/-- The events that a leaf can have, and the phases around them. -/
theorem advance_cases {leaf : Leaf} {phase next : Phase} {event : Event α}
    (hLeaf : event.leaf? = some leaf) (hEvent : advance leaf phase event = some next) :
    (phase = .idle ∧ next = .reading ∧ event = .started leaf) ∨
      (phase = .reading ∧ next = .reading ∧ ∃ x, event = .emitted leaf x) ∨
      (phase = .reading ∧ next = .closed ∧ event = .ended leaf) := by
  cases event <;> cases phase <;> simp_all [advance, Event.leaf?]

/-- The phase after a log. -/
def follow (leaf : Leaf) (phase : Phase) (log : List (Event α)) : Option Phase :=
  log.foldlM (advance leaf) phase

theorem follow_cons (leaf : Leaf) (phase : Phase) (event : Event α) (log : List (Event α)) :
    follow leaf phase (event :: log) =
      (advance leaf phase event).bind fun next => follow leaf next log := rfl

theorem follow_append {leaf : Leaf} {phase next : Phase} {log : List (Event α)}
    (hLog : follow leaf phase log = some next) (more : List (Event α)) :
    follow leaf phase (log ++ more) = follow leaf next more := by
  rw [follow, List.foldlM_append]
  change (follow leaf phase log).bind _ = _
  rw [hLog]
  rfl

theorem follow_of_silent {leaf : Leaf} {log : List (Event α)}
    (hSilent : ∀ event ∈ log, event.leaf? ≠ some leaf) (phase : Phase) :
    follow leaf phase log = some phase := by
  induction log with
  | nil => rfl
  | cons event log ih =>
      rw [follow_cons, advance_of_other (hSilent event (List.mem_cons_self ..))]
      exact ih fun later hLater => hSilent later (List.mem_cons_of_mem event hLater)

theorem follow_closed {leaf : Leaf} {next : Phase} {log : List (Event α)}
    (hLog : follow leaf .closed log = some next) : next = .closed := by
  induction log with
  | nil => exact (Option.some.inj hLog).symm
  | cons event log ih =>
      rw [follow_cons] at hLog
      obtain ⟨middle, hEvent, hRest⟩ := Option.bind_eq_some_iff.mp hLog
      by_cases hLeaf : event.leaf? = some leaf
      · have hCases := advance_cases hLeaf hEvent
        simp at hCases
      · rw [advance_of_other hLeaf] at hEvent
        cases hEvent
        exact ih hRest

/-- A leaf that is not closed becomes so by its end and by nothing else. -/
theorem ended_mem_iff_of_follow {leaf : Leaf} {phase next : Phase} {log : List (Event α)}
    (hLog : follow leaf phase log = some next) (hOpen : phase ≠ .closed) :
    .ended leaf ∈ log ↔ next = .closed := by
  induction log generalizing phase with
  | nil =>
      cases hLog
      simp [hOpen]
  | cons event log ih =>
      rw [follow_cons] at hLog
      obtain ⟨middle, hEvent, hRest⟩ := Option.bind_eq_some_iff.mp hLog
      by_cases hLeaf : event.leaf? = some leaf
      · rcases advance_cases hLeaf hEvent with ⟨rfl, rfl, rfl⟩ | ⟨rfl, rfl, x, rfl⟩ |
          ⟨rfl, rfl, rfl⟩
        · simpa using ih hRest (by decide)
        · simpa using ih hRest (by decide)
        · simp [follow_closed hRest]
      · have hOther : .ended leaf ≠ event := by
          rintro rfl
          exact hLeaf rfl
        rw [advance_of_other hLeaf] at hEvent
        cases hEvent
        simpa [hOther] using ih hRest hOpen

end Phase

/-- The log leads each of the leaves from one phase to the other, and it is
about no other leaf. -/
structure Moves (leaves : List Leaf) (before after : Leaf → Phase) (log : List (Event α)) :
    Prop where
  follow : ∀ leaf ∈ leaves, Phase.follow leaf (before leaf) log = some (after leaf)
  within : ∀ event ∈ log, ∀ leaf, event.leaf? = some leaf → leaf ∈ leaves

namespace Moves

variable {leaves ls rs : List Leaf} {before middle after : Leaf → Phase}
  {log more : List (Event α)}

theorem refl (leaves : List Leaf) (before : Leaf → Phase) :
    Moves leaves before before ([] : List (Event α)) :=
  ⟨fun _ _ => rfl, by simp⟩

theorem trans (hFirst : Moves leaves before middle log) (hMore : Moves leaves middle after more) :
    Moves leaves before after (log ++ more) where
  follow leaf hLeaf := by
    rw [Phase.follow_append (hFirst.follow leaf hLeaf)]
    exact hMore.follow leaf hLeaf
  within event hEvent := by
    rcases List.mem_append.mp hEvent with hEvent | hEvent
    · exact hFirst.within event hEvent
    · exact hMore.within event hEvent

/-- Calls of functions move no leaf. -/
theorem of_calls (leaves : List Leaf) (before : Leaf → Phase)
    (hCalls : ∀ event ∈ log, event.leaf? = none) : Moves leaves before before log where
  follow leaf _ := Phase.follow_of_silent (fun event hEvent => by simp [hCalls event hEvent]) _
  within event hEvent leaf hLeaf := by
    rw [hCalls event hEvent] at hLeaf
    cases hLeaf

/-- The phases of the leaves of two feeds, the first of which owns `ls`. -/
def beside (ls : List Leaf) (p q : Leaf → Phase) (leaf : Leaf) : Phase :=
  if leaf ∈ ls then p leaf else q leaf

theorem beside_eq {p q : Leaf → Phase} {phase : Phase} (hLeft : ∀ leaf ∈ ls, p leaf = phase)
    (hRight : ∀ leaf ∈ rs, q leaf = phase) {leaf : Leaf} (hLeaf : leaf ∈ ls ++ rs) :
    beside ls p q leaf = phase := by
  unfold beside
  split
  next hMem => exact hLeft leaf hMem
  next hMem => exact hRight leaf ((List.mem_append.mp hLeaf).resolve_left hMem)

/-- Two feeds without a common leaf do not disturb each other. -/
theorem join {p p' q q' : Leaf → Phase} (hApart : ∀ leaf ∈ ls, leaf ∉ rs)
    (hLeft : Moves ls p p' log) (hRight : Moves rs q q' more) :
    Moves (ls ++ rs) (beside ls p q) (beside ls p' q') (log ++ more) where
  follow leaf hLeaf := by
    by_cases hMem : leaf ∈ ls
    · simp only [beside, hMem, if_true]
      rw [Phase.follow_append (hLeft.follow leaf hMem)]
      exact Phase.follow_of_silent
        (fun event hEvent hOwn => hApart leaf hMem (hRight.within event hEvent leaf hOwn)) _
    · have hMemRight : leaf ∈ rs := (List.mem_append.mp hLeaf).resolve_left hMem
      have hSilent : Phase.follow leaf (q leaf) log = some (q leaf) :=
        Phase.follow_of_silent
          (fun event hEvent hOwn => hMem (hLeft.within event hEvent leaf hOwn)) _
      simp only [beside, hMem, if_false]
      rw [Phase.follow_append hSilent]
      exact hRight.follow leaf hMemRight
  within event hEvent leaf hLeaf := by
    rcases List.mem_append.mp hEvent with hEvent | hEvent
    · exact List.mem_append_left rs (hLeft.within event hEvent leaf hLeaf)
    · exact List.mem_append_right ls (hRight.within event hEvent leaf hLeaf)

end Moves

namespace Feed

/-- The phase of every leaf in a state, and the states in which a demand is in
order. -/
structure Watch (feed : Feed α β) where
  phase : feed.State → Leaf → Phase
  Ready : feed.State → Prop

namespace Watch

variable {feed : Feed α β} {γ : Type}

def Closed (watch : Watch feed) (leaves : List Leaf) (state : feed.State) : Prop :=
  ∀ leaf ∈ leaves, watch.phase state leaf = .closed

/-- After an item the feed can be asked again. After the end all leaves are
closed, and nothing is said about a further demand. -/
def Settled (watch : Watch feed) (leaves : List Leaf) (reply : Reply γ) (state : feed.State) :
    Prop :=
  match reply with
  | .item _ => watch.Ready state
  | .ended => watch.Closed leaves state
  | .failed _ => True

end Watch

/-- The stops of the leaves that are being read, from right to left. -/
def stopsOf (leaves : List Leaf) (phase : Leaf → Phase) : List (Event α) :=
  (leaves.reverse.filter fun leaf => phase leaf = .reading).map .stopped

/-- A watch that agrees with the log of every demand that is in order, and
with what the feed does when it is told to stop. -/
structure Ledger (feed : Feed α β) (leaves : List Leaf) extends Watch feed where
  ready_initial : Ready feed.initial
  ready_rewind : ∀ state, Ready (feed.rewind state)
  idle_initial : ∀ leaf ∈ leaves, phase feed.initial leaf = .idle
  idle_rewind : ∀ state, ∀ leaf ∈ leaves, phase (feed.rewind state) leaf = .idle
  stop_eq : ∀ state, feed.stop state = stopsOf leaves (phase state)
  next_moves : ∀ state pool, Ready state →
    (∀ fault, (feed.next state pool).reply ≠ .failed fault) →
    Moves leaves (phase state) (phase (feed.next state pool).state) (feed.next state pool).log ∧
      toWatch.Settled leaves (feed.next state pool).reply (feed.next state pool).state

namespace Ledger

/-- The phase of the leaf of an input, by the cursor of its reader. -/
def cursorPhase {σ : Type} : Cursor σ → Phase
  | .idle => .idle
  | .reading _ => .reading
  | .closed => .closed

theorem stopCursor_eq {σ : Type} (leaf : Leaf) (cursor : Cursor σ) :
    (stopCursor leaf cursor : List (Event α)) =
      stopsOf [leaf] fun _ => cursorPhase cursor := by
  cases cursor <;> rfl

/-- The answers of an input that has been started: it brings an item and stays
open, or it closes. Its failures are not looked at. -/
inductive Answers {σ : Type} (leaf : Leaf) : Turn (Cursor σ) α α → Prop where
  | item (x : α) (position : σ) (pool : Pool α) :
      Answers leaf ⟨.item x, .reading position, pool, [.emitted leaf x]⟩
  | ended (pool : Pool α) : Answers leaf ⟨.ended, .closed, pool, [.ended leaf]⟩
  | failed {turn : Turn (Cursor σ) α α} (fault : Fault) (hReply : turn.reply = .failed fault) :
      Answers leaf turn

theorem answers_sourceEnd {σ : Type} (leaf : Leaf) (breaks : Bool) (pool : Pool α) :
    Answers leaf (sourceEnd leaf breaks pool : Turn (Cursor σ) α α) := by
  cases breaks with
  | true => exact .failed _ rfl
  | false => exact .ended pool

theorem answers_replayFrom (leaf : Leaf) (breaks : Bool) (rest : List α) (pool : Pool α) :
    Answers leaf (replayFrom leaf breaks rest pool) := by
  cases rest with
  | nil => exact answers_sourceEnd leaf breaks pool
  | cons x xs => exact .item x xs pool

theorem answers_drawFrom (leaf : Leaf) (breaks : Bool) (pool : Pool α) :
    Answers leaf (drawFrom leaf breaks pool) := by
  unfold drawFrom
  split
  · exact answers_sourceEnd leaf breaks pool
  · exact .item _ () _

section Answers

variable {σ : Type} {leaf : Leaf} {turn : Turn (Cursor σ) α α}

theorem Answers.moves (hTurn : Answers leaf turn) (hFine : ∀ fault, turn.reply ≠ .failed fault) :
    Moves [leaf] (fun _ => .reading) (fun _ => cursorPhase turn.state) turn.log := by
  cases hTurn with
  | item x position pool =>
      constructor <;> simp [Phase.follow, Phase.advance, Event.leaf?, cursorPhase]
  | ended pool => constructor <;> simp [Phase.follow, Phase.advance, Event.leaf?, cursorPhase]
  | failed fault hReply => exact absurd hReply (hFine fault)

theorem Answers.moves_noteStart (hTurn : Answers leaf turn)
    (hFine : ∀ fault, turn.reply ≠ .failed fault) :
    Moves [leaf] (fun _ => .idle) (fun _ => cursorPhase turn.state)
      (noteStart leaf turn).log := by
  have hStart : Moves [leaf] (fun _ => .idle) (fun _ => .reading)
      [(.started leaf : Event α)] := by
    constructor <;> simp [Phase.follow, Phase.advance, Event.leaf?]
  exact hStart.trans (hTurn.moves hFine)

/-- An input may be asked unless it has closed. -/
theorem Answers.settled (hTurn : Answers leaf turn) :
    match turn.reply with
    | .item _ => cursorPhase turn.state ≠ .closed
    | .ended => ∀ other ∈ [leaf], cursorPhase turn.state = .closed
    | .failed _ => True := by
  cases hTurn with
  | item x position pool => simp [cursorPhase]
  | ended pool => simp [cursorPhase]
  | failed fault hReply => simp [hReply]

end Answers

/-- Nothing is said about a demand to an input that has closed. -/
def replay (leaf : Leaf) (items : List α) (breaks : Bool) :
    Ledger (Feed.replay leaf items breaks) [leaf] where
  phase state _ := cursorPhase state
  Ready state := cursorPhase state ≠ .closed
  ready_initial := by simp [Feed.replay, cursorPhase]
  ready_rewind _ := by simp [Feed.replay, cursorPhase]
  idle_initial _ _ := rfl
  idle_rewind _ _ _ := rfl
  stop_eq state := stopCursor_eq leaf state
  next_moves state pool hReady hFine := by
    cases state with
    | idle =>
        have hTurn := answers_replayFrom leaf breaks items pool
        exact ⟨hTurn.moves_noteStart hFine, hTurn.settled⟩
    | reading rest =>
        have hTurn := answers_replayFrom leaf breaks rest pool
        exact ⟨hTurn.moves hFine, hTurn.settled⟩
    | closed => exact absurd rfl hReady

def draw (leaf : Leaf) (breaks : Bool) : Ledger (Feed.draw leaf breaks : Feed α α) [leaf] where
  phase state _ := cursorPhase state
  Ready state := cursorPhase state ≠ .closed
  ready_initial := by simp [Feed.draw, cursorPhase]
  ready_rewind _ := by simp [Feed.draw, cursorPhase]
  idle_initial _ _ := rfl
  idle_rewind _ _ _ := rfl
  stop_eq state := stopCursor_eq leaf state
  next_moves state pool hReady hFine := by
    have hTurn := answers_drawFrom leaf breaks pool
    cases state with
    | idle => exact ⟨hTurn.moves_noteStart hFine, hTurn.settled⟩
    | reading _ => exact ⟨hTurn.moves hFine, hTurn.settled⟩
    | closed => exact absurd rfl hReady

variable {leaves : List Leaf}

theorem moves_keyed (phase : Leaf → Phase) (noted : Bool) (x : α) :
    Moves leaves phase phase (if noted then [.keyed x] else []) := by
  refine Moves.of_calls leaves phase fun event hEvent => ?_
  cases noted with
  | false => cases hEvent
  | true => rw [List.mem_singleton.mp hEvent]; rfl

/-- Passing over items only adds to the log, so the moves of the items passed
over and of the last one are put together. -/
theorem distinctNext_moves [BEq κ] {inner : Feed α α} (ledger : Ledger inner leaves)
    (key : Probe α κ) (noted : Bool) (state : DistinctState inner.State κ) (pool : Pool α)
    (hReady : ledger.Ready state.inner)
    (hFine : ∀ fault, (distinctNext inner key noted state pool).reply ≠ .failed fault) :
    Moves leaves (ledger.phase state.inner)
        (ledger.phase (distinctNext inner key noted state pool).state.inner)
        (distinctNext inner key noted state pool).log ∧
      ledger.Settled leaves (distinctNext inner key noted state pool).reply
        (distinctNext inner key noted state pool).state.inner := by
  fun_induction distinctNext inner key noted state pool with
  | case1 state pool turn hReply =>
      have hNext := ledger.next_moves state.inner pool hReady (by simp [turn, hReply])
      rw [hReply] at hNext
      exact hNext
  | case2 state pool turn fault hReply => exact absurd rfl (hFine fault)
  | case3 state pool turn x hReply log fault hKey => exact absurd rfl (hFine fault)
  | case4 state pool turn x hReply log k hKey hSeen later ih =>
      obtain ⟨hMoves, hSettled⟩ :=
        ledger.next_moves state.inner pool hReady (by simp [turn, hReply])
      rw [hReply] at hSettled
      obtain ⟨hLater, hLaterSettled⟩ := ih hSettled hFine
      exact ⟨(hMoves.trans (moves_keyed _ noted x)).trans hLater, hLaterSettled⟩
  | case5 state pool turn x hReply log k hKey hNew =>
      obtain ⟨hMoves, hSettled⟩ :=
        ledger.next_moves state.inner pool hReady (by simp [turn, hReply])
      rw [hReply] at hSettled
      exact ⟨hMoves.trans (moves_keyed _ noted x), hSettled⟩

def distinct [BEq κ] {inner : Feed α α} (ledger : Ledger inner leaves) (key : Probe α κ)
    (noted : Bool) : Ledger (Feed.distinct inner key noted) leaves where
  phase state := ledger.phase state.inner
  Ready state := ledger.Ready state.inner
  ready_initial := ledger.ready_initial
  ready_rewind state := ledger.ready_rewind state.inner
  idle_initial := ledger.idle_initial
  idle_rewind state := ledger.idle_rewind state.inner
  stop_eq state := ledger.stop_eq state.inner
  next_moves := distinctNext_moves ledger key noted

section Merge

variable {left right : Feed α α} {ls rs : List Leaf}

/-- What is known about one side of a merge. A side that has ended keeps its
answer and is not asked again, so nothing more has to be known about it. -/
def Holding {feed : Feed α α} (ledger : Ledger feed leaves) (head : Option (Reply α))
    (state : feed.State) : Prop :=
  match head with
  | none => ledger.Ready state
  | some reply => ledger.Settled leaves reply state

theorem Holding.fetch {feed : Feed α α} {ledger : Ledger feed leaves}
    {head : Option (Reply α)} {state : feed.State} (hHolding : ledger.Holding head state)
    (pool : Pool α) (hFine : ∀ fault, (fetch feed head state pool).reply ≠ .failed fault) :
    Moves leaves (ledger.phase state) (ledger.phase (Feed.fetch feed head state pool).state)
        (Feed.fetch feed head state pool).log ∧
      ledger.Settled leaves (Feed.fetch feed head state pool).reply
        (Feed.fetch feed head state pool).state := by
  cases head with
  | none => exact ledger.next_moves state pool hHolding hFine
  | some reply => exact ⟨Moves.refl _ _, hHolding⟩

theorem stopsOf_append (hApart : ∀ leaf ∈ ls, leaf ∉ rs) (p q : Leaf → Phase) :
    (stopsOf (ls ++ rs) (Moves.beside ls p q) : List (Event α)) =
      stopsOf rs q ++ stopsOf ls p := by
  have hRight : rs.reverse.filter (fun leaf => Moves.beside ls p q leaf = .reading) =
      rs.reverse.filter fun leaf => q leaf = .reading := by
    refine List.filter_congr fun leaf hLeaf => ?_
    have hNot : leaf ∉ ls := fun hMem => hApart leaf hMem (List.mem_reverse.mp hLeaf)
    simp only [Moves.beside, hNot, if_false]
  have hLeft : ls.reverse.filter (fun leaf => Moves.beside ls p q leaf = .reading) =
      ls.reverse.filter fun leaf => p leaf = .reading := by
    refine List.filter_congr fun leaf hLeaf => ?_
    simp only [Moves.beside, List.mem_reverse.mp hLeaf, if_true]
  simp only [stopsOf, List.reverse_append, List.filter_append, List.map_append, hRight, hLeft]

section

variable (leftLedger : Ledger left ls) (rightLedger : Ledger right rs)
  (cmp : Probe (α × α) Ordering) (noted : Bool)

/-- Every leaf has the phase that its own side gives it. -/
def mergeWatch : Watch (Feed.merge left right cmp noted) where
  phase state := Moves.beside ls (leftLedger.phase state.left) (rightLedger.phase state.right)
  Ready state := leftLedger.Holding state.leftHead state.left ∧
    rightLedger.Holding state.rightHead state.right

/-- Whichever side is delivered, the other one is held as it answered. -/
theorem mergeNext_moves (hApart : ∀ leaf ∈ ls, leaf ∉ rs)
    (state : MergeState left.State right.State α) (pool : Pool α)
    (hReady : (mergeWatch leftLedger rightLedger cmp noted).Ready state)
    (hFine : ∀ fault, (mergeNext left right cmp noted state pool).reply ≠ .failed fault) :
    Moves (ls ++ rs) ((mergeWatch leftLedger rightLedger cmp noted).phase state)
        ((mergeWatch leftLedger rightLedger cmp noted).phase
          (mergeNext left right cmp noted state pool).state)
        (mergeNext left right cmp noted state pool).log ∧
      (mergeWatch leftLedger rightLedger cmp noted).Settled (ls ++ rs)
        (mergeNext left right cmp noted state pool).reply
        (mergeNext left right cmp noted state pool).state := by
  have hTurn := mergeNext_turn cmp noted state pool hFine
  obtain ⟨hLeft, hLeftSettled⟩ := hReady.1.fetch pool hTurn.left_fine
  obtain ⟨hRight, hRightSettled⟩ := hReady.2.fetch _ hTurn.right_fine
  obtain ⟨calls, hLog, hCalls⟩ := hTurn.log
  refine ⟨?_, ?_⟩
  · change Moves _ _ (Moves.beside ls (leftLedger.phase _) (rightLedger.phase _)) _
    rw [hLog, hTurn.left_state, hTurn.right_state]
    refine (hLeft.join hApart hRight).trans (Moves.of_calls _ _ fun event hEvent => ?_)
    obtain ⟨x, y, rfl⟩ := hCalls event hEvent
    rfl
  · rcases hTurn.reply with ⟨hReply, hL, hR⟩ | ⟨x, hReply, hL, hLeftHead, hRightHead⟩ |
      ⟨y, hReply, hR, hLeftHead, hRightHead⟩
    · rw [hL] at hLeftSettled
      rw [hR] at hRightSettled
      rw [hReply]
      intro leaf hLeaf
      change Moves.beside ls (leftLedger.phase _) (rightLedger.phase _) leaf = .closed
      rw [hTurn.left_state, hTurn.right_state]
      exact Moves.beside_eq hLeftSettled hRightSettled hLeaf
    · rw [hL] at hLeftSettled
      rw [hReply]
      change leftLedger.Holding _ _ ∧ rightLedger.Holding _ _
      rw [hLeftHead, hRightHead, hTurn.left_state, hTurn.right_state]
      exact ⟨hLeftSettled, hRightSettled⟩
    · rw [hR] at hRightSettled
      rw [hReply]
      change leftLedger.Holding _ _ ∧ rightLedger.Holding _ _
      rw [hLeftHead, hRightHead, hTurn.left_state, hTurn.right_state]
      exact ⟨hLeftSettled, hRightSettled⟩

def merge (hApart : ∀ leaf ∈ ls, leaf ∉ rs) :
    Ledger (Feed.merge left right cmp noted) (ls ++ rs) where
  toWatch := mergeWatch leftLedger rightLedger cmp noted
  ready_initial := ⟨leftLedger.ready_initial, rightLedger.ready_initial⟩
  ready_rewind state := ⟨leftLedger.ready_rewind state.left, rightLedger.ready_rewind state.right⟩
  idle_initial _ hLeaf := Moves.beside_eq leftLedger.idle_initial rightLedger.idle_initial hLeaf
  idle_rewind state _ hLeaf := Moves.beside_eq (leftLedger.idle_rewind state.left)
    (rightLedger.idle_rewind state.right) hLeaf
  stop_eq state := by
    change right.stop state.right ++ left.stop state.left = stopsOf _ (Moves.beside ls _ _)
    rw [stopsOf_append hApart, leftLedger.stop_eq, rightLedger.stop_eq]
  next_moves := mergeNext_moves leftLedger rightLedger cmp noted hApart

end

end Merge

section Groups

variable {inner : Feed α β} (ledger : Ledger inner leaves)

/-- Why gathering came to its end decides whether there may be more. -/
theorem gather_moves (count : Nat) (state : inner.State) (pool : Pool α)
    (hReady : ledger.Ready state)
    (hFine : ∀ fault, (gather inner count state pool).halt ≠ .failed fault) :
    Moves leaves (ledger.phase state) (ledger.phase (gather inner count state pool).state)
        (gather inner count state pool).log ∧
      ((gather inner count state pool).halt = .full →
        ledger.Ready (gather inner count state pool).state) ∧
      ((gather inner count state pool).halt = .ended →
        ledger.Closed leaves (gather inner count state pool).state) := by
  induction count generalizing state pool with
  | zero =>
      refine ⟨Moves.refl _ _, fun _ => hReady, fun hEnded => ?_⟩
      cases hEnded
  | succ count ih =>
      have hNext := ledger.next_moves state pool hReady
      cases hReply : (inner.next state pool).reply with
      | failed fault => simp [gather, hReply] at hFine
      | ended =>
          obtain ⟨hMoves, hSettled⟩ := hNext (by simp [hReply])
          rw [hReply] at hSettled
          simp only [gather, hReply]
          refine ⟨hMoves, fun hFull => ?_, fun _ => hSettled⟩
          cases hFull
      | item x =>
          obtain ⟨hMoves, hSettled⟩ := hNext (by simp [hReply])
          rw [hReply] at hSettled
          simp only [gather, hReply] at hFine ⊢
          obtain ⟨hLater, hRest⟩ := ih _ _ hSettled hFine
          exact ⟨hMoves.trans hLater, hRest⟩

/-- After the last group the feed behind has ended and is not asked again. -/
def groupWatch (size : Nat) (hSize : 0 < size) : Watch (Feed.groups inner size hSize) where
  phase state := ledger.phase state.inner
  Ready state :=
    if state.drained then ledger.Closed leaves state.inner else ledger.Ready state.inner

theorem groupNext_moves (size : Nat) (hSize : 0 < size) (state : GroupState inner.State)
    (pool : Pool α) (hReady : (groupWatch ledger size hSize).Ready state)
    (hFine : ∀ fault, (groupNext inner size state pool).reply ≠ .failed fault) :
    Moves leaves (ledger.phase state.inner)
        (ledger.phase (groupNext inner size state pool).state.inner)
        (groupNext inner size state pool).log ∧
      (groupWatch ledger size hSize).Settled leaves (groupNext inner size state pool).reply
        (groupNext inner size state pool).state := by
  simp only [groupWatch] at hReady
  cases hDrained : state.drained with
  | true =>
      rw [hDrained, if_pos rfl] at hReady
      simp only [groupNext, hDrained, if_true]
      exact ⟨Moves.refl _ _, hReady⟩
  | false =>
      simp only [hDrained, Bool.false_eq_true, if_false] at hReady
      have hGather := gather_moves ledger size state.inner pool hReady
      simp only [groupNext, hDrained, Bool.false_eq_true, if_false] at hFine ⊢
      cases hHalt : (gather inner size state.inner pool).halt with
      | failed fault => simp [hHalt] at hFine
      | full =>
          obtain ⟨hMoves, hFull, _⟩ := hGather (by simp [hHalt])
          exact ⟨hMoves, hFull hHalt⟩
      | ended =>
          obtain ⟨hMoves, _, hEnded⟩ := hGather (by simp [hHalt])
          refine ⟨hMoves, ?_⟩
          -- A last group and the end leave the same state behind.
          cases (gather inner size state.inner pool).taken.isEmpty with
          | true => exact hEnded hHalt
          | false => exact hEnded hHalt

def groups (size : Nat) (hSize : 0 < size) : Ledger (Feed.groups inner size hSize) leaves where
  toWatch := groupWatch ledger size hSize
  ready_initial := ledger.ready_initial
  ready_rewind state := ledger.ready_rewind state.inner
  idle_initial := ledger.idle_initial
  idle_rewind state := ledger.idle_rewind state.inner
  stop_eq state := ledger.stop_eq state.inner
  next_moves := groupNext_moves ledger size hSize

end Groups

end Ledger

end Feed

end Sequences
