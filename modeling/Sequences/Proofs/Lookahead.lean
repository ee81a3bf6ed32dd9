import Sequences.Proofs.Conservation
import Sequences.Proofs.Interleaving
import Sequences.Proofs.Questions

/-! How far a merge on demand reads ahead. To deliver an element it must have seen the
next element of both inputs, unless one of them is at its end. So whenever an element
is received, the input that it comes from has emitted what was delivered from it, and
the other one has emitted one item more if it has one. A reader who quits leaves it at
that. Inputs that can be read only once are not covered. -/
namespace Sequences

variable {α β : Type}

/-- The items that are emitted at this leaf. Another leaf may have the same name. -/
def Leaf.emitted (leaf : Leaf) (log : List (Event α)) : List α :=
  emittedBy leaf.name (leaf.own log)

theorem Leaf.emitted_eq_nil {leaf : Leaf} {log : List (Event α)}
    (hNone : emittedBy leaf.name log = []) : leaf.emitted log = [] := by
  apply List.filterMap_eq_nil_iff.mpr
  intro event hEvent
  exact List.filterMap_eq_nil_iff.mp hNone event (List.mem_of_mem_filter hEvent)

theorem emittedBy_opened (leaf : Leaf) (items : List α) :
    emittedBy leaf.name (opened leaf items) = items := by
  rw [opened, emittedBy_started_cons]
  induction items with
  | nil => rfl
  | cons x items ih =>
      rw [List.map_cons, ← List.singleton_append, emittedBy_append, emittedBy_emitted, if_pos rfl,
        ih]
      rfl

/-- An input with an unused answer has emitted one item more than was delivered, if
there is one more. -/
theorem Standing.emitted {leaf : Leaf} {items done rest : List α} {breaks : Bool}
    {head : Option (Reply α)} {cursor : Cursor (List α)} {past : List (Event α)}
    (hStanding : Standing leaf items breaks head cursor rest past) (hItems : items = done ++ rest) :
    emittedBy leaf.name past = items.take (done.length + if head.isSome then 1 else 0) := by
  cases hStanding with
  | idle =>
      obtain rfl : done = [] := List.self_eq_append_left.mp hItems
      rfl
  | due hPast =>
      obtain rfl : _ = done := List.append_cancel_right (hPast.symm.trans hItems)
      rw [emittedBy_opened, hItems]
      simp
  | held hPast =>
      obtain rfl : _ = done := List.append_cancel_right (hPast.symm.trans hItems)
      rw [emittedBy_opened, hItems]
      simp [List.take_append]
  | finished hBreaks =>
      obtain rfl : items = done := hItems.trans (List.append_nil done)
      rw [emittedBy_append, emittedBy_opened, List.take_of_length_le (Nat.le_add_right _ _)]
      exact List.append_nil items

/-- What both inputs have emitted when the last of these marks is received. -/
def Supplied (a b : Leaf) (as bs : List α) (delivered : List (Side × α)) (origin : Side)
    (log : List (Event α)) : Prop :=
  ∀ side : Side, (side.pick a b).emitted log =
    (side.pick as bs).take ((taken side delivered).length + if side = origin then 0 else 1)

section Merge

variable {a b : Leaf} {as bs : List α} {breaks : Side → Bool} {cmp : Probe (α × α) Ordering}
  {noted : Bool} {past : List (Event α)} {delivered : List (Side × α)}

theorem Stands.supplied {state : Feed.MergeState (Cursor (List α)) (Cursor (List α)) α}
    {aheadA aheadB : List α} {origin : Side}
    (hStands : Stands a b as bs breaks past state aheadA aheadB)
    (hHeads : ∀ side : Side, (side.pick state.leftHead state.rightHead).isSome ↔ side ≠ origin)
    (hDelivered : ∀ side : Side,
      side.pick as bs = taken side delivered ++ side.pick aheadA aheadB) :
    Supplied a b as bs delivered origin past := by
  have hCount (side : Side) : (if (side.pick state.leftHead state.rightHead).isSome then 1 else 0) =
      if side = origin then 0 else 1 := by
    by_cases hSide : side = origin <;> simp [hHeads, hSide]
  intro side
  rw [← hCount side]
  cases side with
  | left => exact hStands.left.emitted (hDelivered .left)
  | right => exact hStands.right.emitted (hDelivered .right)

/-- A merge that is told to stop emits nothing. -/
theorem emitted_stop (leaf : Leaf) (state : (Feed.mergeLists a b as bs breaks cmp noted).State) :
    leaf.emitted ((Feed.mergeLists a b as bs breaks cmp noted).stop state) = [] := by
  apply Leaf.emitted_eq_nil
  apply (emittedBy_append leaf.name _ _).trans
  apply List.append_eq_nil_iff.mpr
  exact ⟨emittedBy_stopCursor leaf.name b state.right, emittedBy_stopCursor leaf.name a state.left⟩

/-- A demand with marks ahead delivers the first one of them. -/
theorem Advance.of_marks {ahead : Course α} {mark : Side × α} {later : List (Side × α)}
    {turn : Turn (Feed.MergeState (Cursor (List α)) (Cursor (List α)) α) α α}
    (hAdvance : Advance a b as bs breaks cmp noted past ahead turn)
    (hMarks : ahead.marks = mark :: later) :
    ∃ restA restB, turn.reply = .item mark.2 ∧
      (course cmp breaks turn.state.calls restA restB).marks = later ∧
      Stands a b as bs breaks (past ++ turn.log) turn.state restA restB ∧
      ∀ side : Side, (side.pick turn.state.leftHead turn.state.rightHead).isSome ↔
        side ≠ mark.1 := by
  cases hAdvance with
  | ended hReply hAsked hClosed => cases hMarks
  | halted hReply hAsked hClosed => cases hMarks
  | moved hCourse hReply hAsked hStands hOpen hHeads =>
      rw [hCourse, Course.marks_after] at hMarks
      obtain ⟨rfl, hLater⟩ := List.cons.inj hMarks
      exact ⟨_, _, hReply, hLater, hStands, hHeads⟩

end Merge

section Received

@[simp]
theorem receivedIn_append (notes more : List (Note α α)) :
    receivedIn (notes ++ more) = receivedIn notes ++ receivedIn more := List.filterMap_append ..

@[simp]
theorem receivedIn_map_event (log : List (Event α)) : receivedIn (log.map .event) = [] := by
  induction log with
  | nil => rfl
  | cons event log ih => exact ih

@[simp]
theorem receivedIn_received_cons (x : α) (notes : List (Note α α)) :
    receivedIn (.received x :: notes) = x :: receivedIn notes := rfl

end Received

/-- The first item is received unless the limit is zero. With a limit of one that is
the end of the reading. -/
theorem Feed.notes_visitFrom_of_item {feed : Feed α β} {state : feed.State} {pool : Pool α} {x : β}
    {limit : Limit} (hLimit : limit ≠ some 0) (hReply : (feed.next state pool).reply = .item x) :
    ∃ after, (feed.visitFrom limit state pool).notes =
        (feed.next state pool).log.map .event ++ .received x :: after ∧
      (limit = some 1 → after = .quit :: (feed.stop (feed.next state pool).state).map .event) := by
  by_cases hOne : limit = some 1
  · rw [hOne, visitFrom_of_item_one hReply]
    exact ⟨_, rfl, fun _ => rfl⟩
  · rw [visitFrom_of_item_more limit (two_le_of_limit_ne hLimit hOne) hReply]
    exact ⟨_, rfl, fun hLast => absurd hLast hOne⟩

/-- The moment at which a reader receives the last of these marks. So many items came
before, and if the reader quits now, no input emits anything more. -/
structure Receipt (a b : Leaf) (as bs : List α) (past : List (Event α))
    (delivered : List (Side × α)) (mark : Side × α) (count : Nat) (limit : Limit)
    (notes before after : List (Note α α)) : Prop where
  notes_eq : notes = before ++ .received mark.2 :: after
  count_eq : (receivedIn before).length + 1 = count
  supplied : Supplied a b as bs delivered mark.1 (past ++ eventsIn before)
  quit : limit = some count → ∀ leaf : Leaf, leaf.emitted (eventsIn after) = []

section Receipt

variable {a b : Leaf} {as bs : List α} {cmp : α → α → Ordering} {noted : Bool}

/-- One demand and one item before a reading that goes on. -/
theorem Receipt.after {past log : List (Event α)} {delivered : List (Side × α)} {mark : Side × α}
    {count : Nat} {limit : Limit} {notes before after : List (Note α α)} (x : α)
    (hReceipt : Receipt a b as bs (past ++ log) delivered mark count (limit.map (· - 1)) notes
      before after) :
    Receipt a b as bs past delivered mark (count + 1) limit
      (log.map .event ++ .received x :: notes) (log.map .event ++ .received x :: before) after := by
  constructor
  case notes_eq => rw [hReceipt.notes_eq, List.append_assoc, List.cons_append]
  case count_eq => simp [hReceipt.count_eq]
  case supplied =>
    rw [eventsIn_append, eventsIn_map_event, eventsIn_received_cons, ← List.append_assoc]
    exact hReceipt.supplied
  case quit =>
    intro hLast
    apply hReceipt.quit
    rw [hLast]
    rfl

/-- The run lemma. Each demand before the one in question delivers the mark that comes
first, so these demands are what the run is counted by. -/
theorem visitFrom_receipt (hApart : a ≠ b) {limit : Limit} {past : List (Event α)}
    {state : Feed.MergeState (Cursor (List α)) (Cursor (List α)) α} {aheadA aheadB : List α}
    {delivered marks : List (Side × α)} {k : Nat} {mark : Side × α}
    (hStands : Stands a b as bs (fun _ => false) past state aheadA aheadB)
    (hMarks : (course (comparisonProbe none cmp) (fun _ => false) state.calls aheadA
      aheadB).marks = marks)
    (hWhole : ∀ side : Side, taken side (delivered ++ marks) = side.pick as bs)
    (hMark : marks[k]? = some mark) (hLimit : ∀ most, limit = some most → k < most)
    (pool : Pool α) :
    ∃ before after, Receipt a b as bs past (delivered ++ marks.take (k + 1)) mark (k + 1) limit
      ((Feed.mergeLists a b as bs (fun _ => false) (comparisonProbe none cmp) noted).visitFrom
        limit state pool).notes before after := by
  induction marks generalizing limit past state aheadA aheadB delivered k pool with
  | nil => cases hMark
  | cons first later ih =>
      have hAdvance : Advance a b as bs (fun _ => false) (comparisonProbe none cmp) noted past
        _ _ := mergeNext_advance hApart hStands pool
      obtain ⟨restA, restB, hReply, hLater, hNext, hHeads⟩ := hAdvance.of_marks hMarks
      have hOneMore : delivered ++ first :: later = delivered ++ [first] ++ later := by simp
      rw [hOneMore] at hWhole
      cases k with
      | zero =>
          obtain rfl : first = mark := Option.some.inj hMark
          have hZero : limit ≠ some 0 := fun hNone => absurd (hLimit 0 hNone) (Nat.lt_irrefl 0)
          obtain ⟨after, hNotes, hQuit⟩ := Feed.notes_visitFrom_of_item hZero hReply
          refine ⟨_, after, hNotes, by simp, ?_, ?_⟩
          · rw [eventsIn_map_event]
            have hRest : GreedyMerge cmp restA restB later := hLater ▸ course_greedyMerge cmp _ _ _
            apply hNext.supplied hHeads
            intro side
            rw [← hWhole side, taken_append, hRest.carried]
            rfl
          · intro hOne leaf
            rw [hQuit hOne, eventsIn_quit_cons, eventsIn_map_event]
            exact emitted_stop leaf _
      | succ k =>
          have hMore (most : Nat) (hMost : limit = some most) : 2 ≤ most := by
            have hEnough := hLimit most hMost
            omega
          have hSooner (most : Nat) (hMost : limit.map (· - 1) = some most) : k < most := by
            obtain ⟨whole, hWhole, rfl⟩ := Option.map_eq_some_iff.mp hMost
            have hEnough := hLimit whole hWhole
            omega
          obtain ⟨before, after, hReceipt⟩ := ih hNext hLater hWhole hMark hSooner
            ((Feed.mergeLists a b as bs (fun _ => false) (comparisonProbe none cmp) noted).next
              state pool).pool
          rw [List.append_assoc] at hReceipt
          rw [Feed.visitFrom_of_item_more limit hMore hReply]
          exact ⟨_, after, hReceipt.after first.2⟩

theorem stands_of_fresh {breaks : Side → Bool} {probe : Probe (α × α) Ordering}
    {state : Feed.MergeState (Cursor (List α)) (Cursor (List α)) α}
    (hFresh : (Feed.mergeLists a b as bs breaks probe noted).Fresh state) :
    Stands a b as bs breaks [] state as bs := by
  rcases hFresh with rfl | ⟨earlier, rfl⟩
  · exact ⟨.idle, .idle, fun _ => rfl⟩
  · exact ⟨.idle, .idle, fun _ => rfl⟩

/-- The reader receives each of these marks that it wants. -/
def AllReceived (a b : Leaf) (as bs : List α) (marks : List (Side × α)) (limit : Limit)
    (reading : Reading α α) : Prop :=
  ∀ k mark, marks[k]? = some mark → (∀ most, limit = some most → k < most) →
    ∃ before after, Receipt a b as bs [] (marks.take (k + 1)) mark (k + 1) limit reading.notes
      before after

/-- Whatever the comparator was asked before, the elements come in the same order. -/
theorem visitFrom_allReceived (hApart : a ≠ b) {marks : List (Side × α)}
    (hGreedy : GreedyMerge cmp as bs marks) (limit : Limit)
    {state : Feed.MergeState (Cursor (List α)) (Cursor (List α)) α}
    (hFresh : (Feed.mergeLists a b as bs (fun _ => false) (comparisonProbe none cmp) noted).Fresh
      state) (pool : Pool α) :
    AllReceived a b as bs marks limit ((Feed.mergeLists a b as bs (fun _ => false)
      (comparisonProbe none cmp) noted).visitFrom limit state pool).reading := by
  intro k mark hMark hLimit
  have hMarks := (course_greedyMerge cmp state.calls as bs).unique hGreedy
  have hWhole (side : Side) : taken side ([] ++ marks) = side.pick as bs := hGreedy.carried side
  exact visitFrom_receipt hApart (stands_of_fresh hFresh) hMarks hWhole hMark hLimit pool

end Receipt

/-- What holds of every reading that begins anew holds of each of successive ones. -/
theorem Feed.exists_reading (feed : Feed α β) {leg : Limit → Reading α β → Prop}
    (hVisit : ∀ limit state pool, feed.Fresh state →
      leg limit (feed.visitFrom limit state pool).reading)
    {limits : List Limit} {index : Nat} {limit : Limit} (hLimit : limits[index]? = some limit)
    (pool : Pool α) :
    ∃ reading, ((feed.visits limits pool).map Visit.reading)[index]? = some reading ∧
      leg limit reading := by
  let passes : Limit → Unit → Reading α β → Unit → Prop := fun limit _ reading _ =>
    leg limit reading
  have hVisits : ∃ finish, Relay passes () limits ((feed.visits limits pool).map Visit.reading)
      finish := by
    apply feed.relay_visitsFrom (fun _ _ => ()) _ (.inl rfl) pool
    intro limit _ state pool hFresh
    exact hVisit limit state pool hFresh
  obtain ⟨finish, hRelay⟩ := hVisits
  have hIndex : index < ((feed.visits limits pool).map Visit.reading).length := by
    rw [hRelay.length_eq]
    exact (List.getElem?_eq_some_iff.mp hLimit).1
  have hReading := List.getElem?_eq_getElem hIndex
  obtain ⟨place, next, hBefore, hHere⟩ := hRelay.leg_of_getElem? index hLimit hReading
  exact ⟨_, hReading, hHere⟩

theorem length_taken_add (marks : List (Side × α)) :
    (taken .left marks).length + (taken .right marks).length = marks.length := by
  induction marks with
  | nil => rfl
  | cons mark marks ih =>
      obtain ⟨side, x⟩ := mark
      cases side with
      | left => simp [taken_cons, ← ih, Nat.add_right_comm]
      | right => simp [taken_cons, ← ih, Nat.add_assoc]

/-- How many items both inputs have emitted when the last of these marks is received.
Only the input from which it did not come is ahead, and by one item at most. -/
structure OneAhead (a b : Leaf) (as bs : List α) (delivered : List (Side × α)) (origin : Side)
    (log : List (Event α)) : Prop where
  of_left : origin = .left → (a.emitted log).length = (taken .left delivered).length ∧
    (b.emitted log).length = min ((taken .right delivered).length + 1) bs.length
  of_right : origin = .right →
    (a.emitted log).length = min ((taken .left delivered).length + 1) as.length ∧
    (b.emitted log).length = (taken .right delivered).length
  total : (a.emitted log).length + (b.emitted log).length ≤ delivered.length + 1

theorem Supplied.oneAhead {a b : Leaf} {as bs : List α} {delivered : List (Side × α)}
    {origin : Side} {log : List (Event α)} (hSupplied : Supplied a b as bs delivered origin log)
    (hTaken : ∀ side : Side, taken side delivered <+: side.pick as bs) :
    OneAhead a b as bs delivered origin log := by
  have hLengthA : (taken .left delivered).length ≤ as.length := (hTaken .left).length_le
  have hLengthB : (taken .right delivered).length ≤ bs.length := (hTaken .right).length_le
  have hTotal := length_taken_add delivered
  have hLeft : (a.emitted log).length = min _ as.length :=
    (congrArg List.length (hSupplied .left)).trans List.length_take
  have hRight : (b.emitted log).length = min _ bs.length :=
    (congrArg List.length (hSupplied .right)).trans List.length_take
  cases origin with
  | left =>
      rw [if_pos rfl] at hLeft
      rw [if_neg (by decide)] at hRight
      constructor <;> grind
  | right =>
      rw [if_neg (by decide)] at hLeft
      rw [if_pos rfl] at hRight
      constructor <;> grind

namespace Plan

/-- Whenever a reader receives an element of the merge, one input is one item ahead, or
at its end, and the other one is not ahead. -/
theorem readings_oneAhead {κ : Type} [BEq κ] (τ : Type) (cmp : α → α → Ordering)
    (generator : Generator) (noted : Bool) (nameA nameB : String) (left right : Stored α)
    (limits : List Limit) (index : Nat) (limit : Limit) (hLimit : limits[index]? = some limit) :
    let a : Leaf := ⟨nameA, [.left]⟩
    let b : Leaf := ⟨nameB, [.right]⟩
    let plan : Plan α κ := .merge (comparisonProbe none cmp) noted
      (.source nameA (.ofItems left.items none false))
      (.source nameB (.ofItems right.items none false))
    ∃ reading marks, (plan.readings limits)[index]? = some reading ∧
      GreedyMerge cmp left.items right.items marks ∧
      (mergeReport τ cmp generator left right).outcome =
        .ok (.list (.ofList (marks.map Prod.snd))) ∧
      ∀ k, 0 < k → k ≤ left.items.length + right.items.length →
        (∀ most, limit = some most → k ≤ most) →
        ∃ origin x before after, marks[k - 1]? = some (origin, x) ∧
          reading.notes = before ++ .received x :: after ∧ (receivedIn before).length + 1 = k ∧
          OneAhead a b left.items right.items (marks.take k) origin (eventsIn before) ∧
          (limit = some k → ∀ leaf : Leaf, leaf.emitted (eventsIn after) = []) := by
  intro a b plan
  have hApart : a ≠ b := by simp [a, b]
  have hGreedy := course_greedyMerge cmp 0 left.items right.items
  have hElements := map_snd_marks_course cmp 0 left.items right.items
  generalize (course (comparisonProbe none cmp) (fun _ => false) 0 left.items
    right.items).marks = marks at hGreedy hElements
  have hVisit (limit : Limit) (state : plan.feed.State) (pool : Pool α)
      (hFresh : plan.feed.Fresh state) : AllReceived a b left.items right.items marks limit
        (plan.feed.visitFrom limit state pool).reading :=
    visitFrom_allReceived hApart hGreedy limit hFresh pool
  obtain ⟨reading, hReading, hReceived⟩ := plan.feed.exists_reading hVisit hLimit plan.pool
  refine ⟨reading, marks, hReading, hGreedy, ?_, ?_⟩
  · rw [mergeReport_outcome, hElements]
  · intro k hPos hMost hWanted
    obtain ⟨k, rfl⟩ := Nat.exists_eq_add_one.mpr hPos
    have hIndex : k < marks.length := by
      have hLength := hGreedy.interleaves.length_eq
      rw [List.length_map] at hLength
      omega
    have hMark : marks[k]? = some marks[k] := List.getElem?_eq_getElem hIndex
    obtain ⟨before, after, hReceipt⟩ := hReceived k marks[k] hMark hWanted
    have hTaken (side : Side) : taken side (marks.take (k + 1)) <+:
        side.pick left.items right.items := by
      rw [← hGreedy.carried side]
      exact (List.take_prefix (k + 1) marks).filterMap _
    exact ⟨_, _, before, after, hMark, hReceipt.notes_eq, hReceipt.count_eq,
      hReceipt.supplied.oneAhead hTaken, hReceipt.quit⟩

/-- Two lists in descending order. The first reader quits at the second element, for
which the left input is one item ahead. When the second reader receives its third
element, the right input is at its end and not ahead. -/
theorem readings_descending :
    let a : Leaf := ⟨"a", [.left]⟩
    let b : Leaf := ⟨"b", [.right]⟩
    let plan : Plan UInt64 Value := .merge (comparisonProbe none compare) false
      (.source "a" (.ofItems [3, 1] none false)) (.source "b" (.ofItems [2, 2] none false))
    let limits : List Limit := [some 2, none]
    (∃ cut before after, (plan.readings limits)[0]? = some cut ∧
      cut.notes = before ++ .received 2 :: after ∧ (receivedIn before).length = 1 ∧
      (a.emitted (eventsIn before)).length = 1 ∧ (b.emitted (eventsIn before)).length = 2 ∧
      ∀ leaf : Leaf, leaf.emitted (eventsIn after) = []) ∧
    ∃ whole before after, (plan.readings limits)[1]? = some whole ∧
      whole.notes = before ++ .received 3 :: after ∧ (receivedIn before).length = 2 ∧
      (a.emitted (eventsIn before)).length = 1 ∧ (b.emitted (eventsIn before)).length = 2 := by
  intro a b plan limits
  let order : List (Side × UInt64) := [(.right, 2), (.right, 2), (.left, 3), (.left, 1)]
  have hOrder : GreedyMerge compare [3, 1] [2, 2] order := by
    have hCourse : (course (comparisonProbe none compare) (fun _ => false) 0 [3, 1]
      [2, 2]).marks = order := by cbv
    exact hCourse ▸ course_greedyMerge compare 0 [3, 1] [2, 2]
  obtain ⟨cut, marks, hCut, hGreedy, -, hReceipts⟩ := readings_oneAhead (κ := Value) Unit compare
    (.ofWords []) false "a" "b" (some [3, 1]) (some ([2, 2] : List UInt64)) limits 0 (some 2) rfl
  obtain ⟨whole, others, hWhole, hOther, -, hLater⟩ := readings_oneAhead (κ := Value) Unit compare
    (.ofWords []) false "a" "b" (some [3, 1]) (some ([2, 2] : List UInt64)) limits 1 none rfl
  cases hGreedy.unique hOrder
  cases hOther.unique hOrder
  obtain ⟨origin, x, before, after, hMark, hNotes, hCount, hAhead, hQuit⟩ :=
    hReceipts 2 (by decide) (by decide) (by simp)
  obtain ⟨origin', x', before', after', hMark', hNotes', hCount', hAhead', -⟩ :=
    hLater 3 (by decide) (by decide) (by simp)
  cases hMark
  cases hMark'
  obtain ⟨hLeft, hRight⟩ := hAhead.of_right rfl
  obtain ⟨hLeft', hRight'⟩ := hAhead'.of_left rfl
  exact ⟨⟨cut, before, after, hCut, hNotes, Nat.succ.inj hCount, hLeft, hRight, hQuit rfl⟩,
    whole, before', after', hWhole, hNotes', Nat.succ.inj hCount', hLeft', hRight'⟩

end Plan

end Sequences
