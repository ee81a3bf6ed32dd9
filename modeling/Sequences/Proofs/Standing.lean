import Sequences.Proofs.Closing
import Sequences.Proofs.Course

/-! How far a reading has come with an input, and how it leaves the input when
it is over. Both show in the events of the input: what it has brought so far
while it is read, and in the end the one event that closes it. Inputs that can
be read only once are not covered. -/
namespace Sequences

variable {α : Type}

/-- The events of an input that was started and brought these items. -/
def opened (leaf : Leaf) (items : List α) : List (Event α) :=
  .started leaf :: items.map (.emitted leaf)

/-- How a merge stands with an input of these items, given an answer that is not
yet used, the cursor of the reader and the items in front of it that are still
to be delivered. Last come the events of the input so far. -/
inductive Standing (leaf : Leaf) (items : List α) (breaks : Bool) :
    Option (Reply α) → Cursor (List α) → List α → List (Event α) → Prop where
  | idle : Standing leaf items breaks none .idle items []
  | due {past rest : List α} (hItems : items = past ++ rest) :
      Standing leaf items breaks none (.reading rest) rest (opened leaf past)
  | held {past rest : List α} {x : α} (hItems : items = past ++ x :: rest) :
      Standing leaf items breaks (some (.item x)) (.reading rest) (x :: rest)
        (opened leaf (past ++ [x]))
  | finished (hBreaks : breaks = false) :
      Standing leaf items breaks (some .ended) .closed [] (opened leaf items ++ [.ended leaf])

/-- The answer to a demand, by the items in front. -/
inductive Fetched (leaf : Leaf) (items : List α) (breaks : Bool) (past : List (Event α)) :
    List α → Turn (Cursor (List α)) α α → Prop where
  | item {x : α} {rest : List α} {turn : Turn (Cursor (List α)) α α}
      (hReply : turn.reply = .item x)
      (hStanding : Standing leaf items breaks (some (.item x)) turn.state (x :: rest)
        (past ++ turn.log)) : Fetched leaf items breaks past (x :: rest) turn
  | ended {turn : Turn (Cursor (List α)) α α} (hBreaks : breaks = false)
      (hReply : turn.reply = .ended)
      (hStanding : Standing leaf items breaks (some .ended) turn.state [] (past ++ turn.log)) :
      Fetched leaf items breaks past [] turn
  | failed {turn : Turn (Cursor (List α)) α α} (hBreaks : breaks = true)
      (hReply : turn.reply = .failed (.source leaf.name))
      (hLog : past ++ turn.log = opened leaf items ++ [.failed leaf]) :
      Fetched leaf items breaks past [] turn

section Standing

variable {leaf : Leaf} {items rest : List α} {breaks : Bool} {head : Option (Reply α)}
  {cursor : Cursor (List α)} {past : List (Event α)}

/-- One item further, an answer that was unused has been delivered. -/
theorem Standing.deliver {x : α}
    (hStanding : Standing leaf items breaks (some (.item x)) cursor (x :: rest) past) :
    Standing leaf items breaks none cursor rest past := by
  cases hStanding with
  | held hItems => exact .due (by simpa using hItems)

/-- An input that was asked has events. -/
theorem Standing.ne_nil {reply : Reply α}
    (hStanding : Standing leaf items breaks (some reply) cursor rest past) : past ≠ [] := by
  cases hStanding with
  | held hItems => exact List.cons_ne_nil _ _
  | finished hBreaks => exact List.append_ne_nil_of_right_ne_nil _ (List.cons_ne_nil _ _)

theorem Standing.breaks_eq_false {reply : Reply α}
    (hStanding : Standing leaf items breaks (some reply) cursor rest past) (hRest : rest = []) :
    breaks = false := by
  cases hStanding with
  | held hItems => cases hRest
  | finished hBreaks => exact hBreaks

theorem Standing.of_ended
    (hStanding : Standing leaf items breaks (some .ended) cursor rest past) :
    rest = [] ∧ cursor = .closed := by
  cases hStanding with
  | finished hBreaks => exact ⟨rfl, rfl⟩

theorem Standing.exists_of_item {x : α}
    (hStanding : Standing leaf items breaks (some (.item x)) cursor rest past) :
    ∃ more, rest = x :: more := by
  cases hStanding with
  | held hItems => exact ⟨_, rfl⟩

/-- An input without events has all of its items ahead. -/
theorem Standing.eq_items (hStanding : Standing leaf items breaks head cursor rest past)
    (hPast : past = []) : rest = items := by
  cases hStanding with
  | idle => rfl
  | due hItems => cases hPast
  | held hItems => cases hPast
  | finished hBreaks => simp at hPast

theorem opened_append (leaf : Leaf) (items : List α) (x : α) :
    opened leaf items ++ [.emitted leaf x] = opened leaf (items ++ [x]) := by
  simp [opened]

/-- A demand to an input that has been started. -/
theorem fetched_replayFrom {before : List α} (hItems : items = before ++ rest) (pool : Pool α) :
    Fetched leaf items breaks (opened leaf before) rest
      (Feed.replayFrom leaf breaks rest pool) := by
  cases rest with
  | cons x rest =>
      refine .item rfl ?_
      change Standing _ _ _ _ (.reading rest) _ (opened leaf before ++ [.emitted leaf x])
      rw [opened_append]
      exact .held hItems
  | nil =>
      rw [List.append_nil] at hItems
      subst hItems
      cases hBreaks : breaks with
      | true => exact .failed rfl rfl rfl
      | false => exact .ended rfl rfl (.finished rfl)

theorem Standing.fetch (hStanding : Standing leaf items breaks head cursor rest past)
    (pool : Pool α) : Fetched leaf items breaks past rest
      (Feed.fetch (Feed.replay leaf items breaks) head cursor pool) := by
  cases hStanding with
  | idle =>
      -- The start comes before all else, as if it had happened before.
      have hStarted : Fetched leaf items breaks (opened leaf []) items
          (Feed.replayFrom leaf breaks items pool) :=
            fetched_replayFrom (List.nil_append items).symm pool
      cases hStarted with
      | item hReply hStanding => exact .item hReply hStanding
      | ended hBreaks hReply hStanding => exact .ended hBreaks hReply hStanding
      | failed hBreaks hReply hLog => exact .failed hBreaks hReply hLog
  | due hItems => exact fetched_replayFrom hItems pool
  | held hItems => exact .item rfl (by simpa [Feed.fetch] using .held hItems)
  | finished hBreaks =>
      exact .ended hBreaks rfl (by simpa [Feed.fetch] using .finished hBreaks)

/-- A demand touches no other input and asks nobody. -/
theorem leaf_of_mem_fetch (pool : Pool α) {event : Event α}
    (hEvent : event ∈ (Feed.fetch (Feed.replay leaf items breaks) head cursor pool).log) :
    event.leaf? = some leaf := by
  have hFrom (ahead : List α) (hMem : event ∈ (Feed.replayFrom leaf breaks ahead pool).log) :
      event.leaf? = some leaf := by
    cases ahead with
    | nil => cases breaks <;> rw [List.mem_singleton.mp hMem] <;> rfl
    | cons x ahead => rw [List.mem_singleton.mp hMem]; rfl
  cases head with
  | some reply => cases hEvent
  | none =>
      cases cursor with
      | idle =>
          rcases List.mem_cons.mp hEvent with rfl | hEvent
          · rfl
          · exact hFrom items hEvent
      | reading ahead => exact hFrom ahead hEvent
      | closed => cases hEvent

end Standing

/-- The events of an input when the reading is over. Either there are none, or
the first is its start and the last closes it. -/
def Finished (leaf : Leaf) (events : List (Event α)) : Prop :=
  events = [] ∨ ∃ items final, events = opened leaf items ++ [final] ∧
    (final = .ended leaf ∨ final = .stopped leaf ∨ final = .failed leaf)

/-- How an input is left when the reading is over: it has failed and is not
stopped, or it is stopped as it stands. -/
inductive Leaving (leaf : Leaf) (items : List α) (breaks : Bool) :
    Bool → List (Event α) → List (Event α) → Prop where
  | failed : Leaving leaf items breaks true (opened leaf items ++ [.failed leaf]) []
  | standing {head : Option (Reply α)} {cursor : Cursor (List α)} {rest : List α}
      {past : List (Event α)} (hStanding : Standing leaf items breaks head cursor rest past) :
      Leaving leaf items breaks false past (Feed.stopCursor leaf cursor)

namespace Leaving

variable {leaf : Leaf} {items : List α} {breaks failed : Bool} {past stops : List (Event α)}

theorem finished (hLeaving : Leaving leaf items breaks failed past stops) :
    Finished leaf (past ++ stops) := by
  cases hLeaving with
  | failed => exact .inr ⟨items, .failed leaf, by simp, by simp⟩
  | standing hStanding =>
      cases hStanding with
      | idle => exact .inl rfl
      | due hItems => exact .inr ⟨_, .stopped leaf, rfl, by simp⟩
      | held hItems => exact .inr ⟨_, .stopped leaf, rfl, by simp⟩
      | finished hBreaks =>
          exact .inr ⟨items, .ended leaf, by simp [Feed.stopCursor], by simp⟩

theorem failed_mem_iff (hLeaving : Leaving leaf items breaks failed past stops) :
    .failed leaf ∈ past ↔ failed = true := by
  cases hLeaving with
  | failed => simp
  | standing hStanding => cases hStanding <;> simp [opened]

theorem stopped_notMem (hLeaving : Leaving leaf items breaks failed past stops) :
    .stopped leaf ∉ past := by
  cases hLeaving with
  | failed => simp [opened]
  | standing hStanding => cases hStanding <;> simp [opened]

theorem stops_eq (hLeaving : Leaving leaf items breaks failed past stops) :
    stops = [] ∨ stops = [.stopped leaf] := by
  cases hLeaving with
  | failed => exact .inl rfl
  | @standing head cursor rest past hStanding =>
      cases cursor with
      | idle => exact .inl rfl
      | reading ahead => exact .inr rfl
      | closed => exact .inl rfl

end Leaving

/-- A reading of two inputs that is over. Neither stays open, and a failed one
is what interrupted the reading. The right one is untouched only if the left
one failed at once, and of two that are stopped it comes first. -/
structure Closed (a b : Leaf) (halt : Option (Interruption α)) (log : List (Event α)) :
    Prop where
  finished : ∀ side : Side, Finished (side.pick a b) ((side.pick a b).own log)
  failed_iff : ∀ side : Side, .failed (side.pick a b) ∈ log ↔ halt = some (.input side)
  silent : b.own log = [] → a.own log = [.started a, .failed a]
  stops : .stopped a ∈ log → .stopped b ∈ log →
    ∃ before, log = before ++ [.stopped b, .stopped a]

section Own

variable {leaf other a b : Leaf} {log : List (Event α)}

theorem mem_own_iff {event : Event α} (hLeaf : event.leaf? = some leaf) :
    event ∈ leaf.own log ↔ event ∈ log := by
  simp [Leaf.own, hLeaf]

theorem own_eq_self (hOwn : ∀ event ∈ log, event.leaf? = some leaf) : leaf.own log = log :=
  List.filter_eq_self.mpr fun event hEvent => by simpa using hOwn event hEvent

theorem own_eq_nil (hOther : ∀ event ∈ log, event.leaf? ≠ some leaf) : leaf.own log = [] :=
  List.filter_eq_nil_iff.mpr fun event hEvent => by simpa using hOther event hEvent

/-- Of what two inputs and a comparator do, each input has its own part. -/
theorem own_append_both (hApart : a ≠ b) (past : List (Event α))
    {left right calls : List (Event α)}
    (hLeft : ∀ event ∈ left, event.leaf? = some a) (hRight : ∀ event ∈ right, event.leaf? = some b)
    (hCalls : ∀ event ∈ calls, event.leaf? = none) :
    a.own (past ++ (left ++ right ++ calls)) = a.own past ++ left ∧
      b.own (past ++ (left ++ right ++ calls)) = b.own past ++ right := by
  have hCallsA : a.own calls = [] := own_eq_nil fun event hEvent => by simp [hCalls event hEvent]
  have hCallsB : b.own calls = [] := own_eq_nil fun event hEvent => by simp [hCalls event hEvent]
  have hLeftB : b.own left = [] :=
    own_eq_nil fun event hEvent => by simpa [hLeft event hEvent] using hApart
  have hRightA : a.own right = [] :=
    own_eq_nil fun event hEvent => by simpa [hRight event hEvent] using hApart.symm
  simp only [Leaf.own_append, own_eq_self hLeft, own_eq_self hRight, hCallsA, hCallsB, hLeftB,
    hRightA, List.append_nil, List.nil_append, and_self]

end Own

theorem closed_of_leaving {a b : Leaf} (hApart : a ≠ b) {as bs : List α}
    {breaksA breaksB failedA failedB : Bool} {log stopsA stopsB : List (Event α)}
    {halt : Option (Interruption α)}
    (hLeft : Leaving a as breaksA failedA (a.own log) stopsA)
    (hRight : Leaving b bs breaksB failedB (b.own log) stopsB)
    (hSilent : b.own log = [] → a.own log ++ stopsA = [.started a, .failed a])
    (hHalt : ∀ side : Side, side.pick failedA failedB = true ↔ halt = some (.input side)) :
    Closed a b halt (log ++ (stopsB ++ stopsA)) := by
  have hOwnA : ∀ event ∈ stopsA, event.leaf? = some a := by
    rcases hLeft.stops_eq with rfl | rfl <;> simp [Event.leaf?]
  have hOwnB : ∀ event ∈ stopsB, event.leaf? = some b := by
    rcases hRight.stops_eq with rfl | rfl <;> simp [Event.leaf?]
  have hNoCalls : ∀ event ∈ ([] : List (Event α)), event.leaf? = none := by simp
  obtain ⟨hFinalB, hFinalA⟩ := own_append_both hApart.symm log hOwnB hOwnA hNoCalls
  rw [List.append_nil] at hFinalA hFinalB
  refine ⟨fun side => ?_, fun side => ?_, fun hNone => ?_, fun hStopA hStopB => ?_⟩
  · cases side with
    | left => exact hFinalA ▸ hLeft.finished
    | right => exact hFinalB ▸ hRight.finished
  · have hStops : .failed (side.pick a b) ∉ stopsB ++ stopsA := by
      rcases hLeft.stops_eq with rfl | rfl <;> rcases hRight.stops_eq with rfl | rfl <;> simp
    rw [List.mem_append, or_iff_left hStops, ← hHalt]
    cases side with
    | left => exact (mem_own_iff rfl).symm.trans hLeft.failed_mem_iff
    | right => exact (mem_own_iff rfl).symm.trans hRight.failed_mem_iff
  · rw [hFinalB, List.append_eq_nil_iff] at hNone
    rw [hFinalA, hSilent hNone.1]
  · -- Neither was stopped before, so both stops are the last events.
    have hBeforeA : .stopped a ∉ log := (mem_own_iff rfl).not.mp hLeft.stopped_notMem
    have hBeforeB : .stopped b ∉ log := (mem_own_iff rfl).not.mp hRight.stopped_notMem
    refine ⟨log, ?_⟩
    rcases hLeft.stops_eq with rfl | rfl <;> rcases hRight.stops_eq with rfl | rfl <;>
      simp_all

end Sequences
