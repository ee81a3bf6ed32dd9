import Sequences.Proofs.Standing

/-! The merge of two inputs, demand by demand, also if it fails. Every demand
goes one move further on the course of the two lists. So a reading goes the
course as far as its reader wants, and whatever ends it, no input stays open. -/
namespace Sequences

variable {α : Type}

/-- The questions that were put to a comparator. -/
def Event.compared? : Event α → Option (α × α)
  | compared x y => some (x, y)
  | _ => none

def comparedIn (log : List (Event α)) : List (α × α) := log.filterMap Event.compared?

@[simp]
theorem comparedIn_append (log more : List (Event α)) :
    comparedIn (log ++ more) = comparedIn log ++ comparedIn more := List.filterMap_append ..

@[simp]
theorem comparedIn_nil : comparedIn ([] : List (Event α)) = [] := rfl

@[simp]
theorem comparedIn_compared_cons (x y : α) (log : List (Event α)) :
    comparedIn (.compared x y :: log) = (x, y) :: comparedIn log := rfl

@[simp]
theorem comparedIn_stopCursor {σ : Type} (leaf : Leaf) (cursor : Cursor σ) :
    comparedIn (Feed.stopCursor leaf cursor : List (Event α)) = [] := by
  cases cursor <;> rfl

/-- The cause of a failure, where the inputs are those of the leaves. -/
def Interruption.fault (a b : Leaf) : Interruption α → Fault
  | input side => .source (side.pick a b).name
  | comparator _ _ fault => fault

/-- The question at which the comparator gave up. -/
def Interruption.asked : Interruption α → Option (α × α)
  | input _ => none
  | comparator x y _ => some (x, y)

section Merge

variable {a b : Leaf} {as bs : List α} {breaks : Side → Bool} {cmp : Probe (α × α) Ordering}
  {noted : Bool}

/-- The merge of two inputs that begin anew for each reading and may break off. -/
abbrev Feed.mergeLists (a b : Leaf) (as bs : List α) (breaks : Side → Bool)
    (cmp : Probe (α × α) Ordering) (noted : Bool) : Feed α α :=
  .merge (.replay a as (breaks .left)) (.replay b bs (breaks .right)) cmp noted

theorem comparedIn_stop (state : (Feed.mergeLists a b as bs breaks cmp noted).State) :
    comparedIn ((Feed.mergeLists a b as bs breaks cmp noted).stop state) = [] := by
  refine (comparedIn_append _ _).trans (List.append_eq_nil_iff.mpr ⟨?_, ?_⟩)
  · exact comparedIn_stopCursor b state.right
  · exact comparedIn_stopCursor a state.left

/-- How a merge stands with both of its inputs. The left one is started first. -/
structure Stands (a b : Leaf) (as bs : List α) (breaks : Side → Bool) (past : List (Event α))
    (state : Feed.MergeState (Cursor (List α)) (Cursor (List α)) α) (aheadA aheadB : List α) :
    Prop where
  left : Standing a as (breaks .left) state.leftHead state.left aheadA (a.own past)
  right : Standing b bs (breaks .right) state.rightHead state.right aheadB (b.own past)
  together : b.own past = [] → a.own past = []

/-- Where a demand leads on the course that was ahead. -/
inductive Advance (a b : Leaf) (as bs : List α) (breaks : Side → Bool)
    (cmp : Probe (α × α) Ordering) (noted : Bool) (past : List (Event α)) :
    Course α → Turn (Feed.MergeState (Cursor (List α)) (Cursor (List α)) α) α α → Prop where
  | ended {turn : Turn (Feed.MergeState (Cursor (List α)) (Cursor (List α)) α) α α}
      (hReply : turn.reply = .ended)
      (hAsked : comparedIn turn.log = []) (hClosed : Closed a b none (past ++ turn.log)) :
      Advance a b as bs breaks cmp noted past ⟨[], none⟩ turn
  | halted {turn : Turn (Feed.MergeState (Cursor (List α)) (Cursor (List α)) α) α α}
      {halt : Interruption α} (hReply : turn.reply = .failed (halt.fault a b))
      (hAsked : comparedIn turn.log = if noted then halt.asked.toList else [])
      (hClosed : Closed a b (some halt) (past ++ turn.log)) :
      Advance a b as bs breaks cmp noted past ⟨[], some halt⟩ turn
  | moved {turn : Turn (Feed.MergeState (Cursor (List α)) (Cursor (List α)) α) α α}
      {move : Move α} {aheadA aheadB : List α} {ahead : Course α}
      (hCourse : ahead = (course cmp breaks turn.state.calls aheadA aheadB).after move)
      (hReply : turn.reply = .item move.mark.2)
      (hAsked : comparedIn turn.log = if noted then move.asked.toList else [])
      (hStands : Stands a b as bs breaks (past ++ turn.log) turn.state aheadA aheadB)
      (hOpen : b.own (past ++ turn.log) ≠ [])
      (hHeads : ∀ side : Side, (side.pick turn.state.leftHead turn.state.rightHead).isSome ↔
        side ≠ move.mark.1) :
      Advance a b as bs breaks cmp noted past ahead turn

theorem comparedIn_eq_nil {leaf : Leaf} {log : List (Event α)}
    (hOwn : ∀ event ∈ log, event.leaf? = some leaf) : comparedIn log = [] := by
  refine List.filterMap_eq_nil_iff.mpr fun event hEvent => ?_
  have hLeaf := hOwn event hEvent
  cases event with
  | compared x y => cases hLeaf
  | _ => rfl

/-- The calls of the comparator at one demand. -/
def callsOf (noted : Bool) (asked : Option (α × α)) : List (Event α) :=
  if noted then asked.toList.map fun question => .compared question.1 question.2 else []

theorem leaf_of_mem_callsOf {asked : Option (α × α)} {event : Event α}
    (hEvent : event ∈ callsOf noted asked) : event.leaf? = none := by
  cases noted with
  | false => cases hEvent
  | true =>
      obtain ⟨question, -, rfl⟩ := List.mem_map.mp hEvent
      rfl

theorem comparedIn_callsOf (noted : Bool) (asked : Option (α × α)) :
    comparedIn (callsOf noted asked) = if noted then asked.toList else [] := by
  cases noted <;> cases asked <;> rfl

@[simp]
theorem callsOf_none (noted : Bool) : (callsOf noted none : List (Event α)) = [] := by
  cases noted <;> rfl

theorem callsOf_some (noted : Bool) (x y : α) :
    callsOf noted (some (x, y)) = if noted then [.compared x y] else [] := rfl

/-- What both inputs did at one demand, and whether the comparator was called. -/
structure Turns (a b : Leaf) (noted : Bool) (asked : Option (α × α))
    (past left right log : List (Event α)) : Prop where
  own_left : a.own (past ++ log) = a.own past ++ left
  own_right : b.own (past ++ log) = b.own past ++ right
  compared : comparedIn log = if noted then asked.toList else []

theorem turns (hApart : a ≠ b) (noted : Bool) (asked : Option (α × α)) (past : List (Event α))
    {left right : List (Event α)} (hLeft : ∀ event ∈ left, event.leaf? = some a)
    (hRight : ∀ event ∈ right, event.leaf? = some b) :
    Turns a b noted asked past left right (left ++ right ++ callsOf noted asked) := by
  obtain ⟨hOwnA, hOwnB⟩ :=
    own_append_both hApart past hLeft hRight fun _ => leaf_of_mem_callsOf
  refine ⟨hOwnA, hOwnB, ?_⟩
  rw [comparedIn_append, comparedIn_append, comparedIn_eq_nil hLeft, comparedIn_eq_nil hRight,
    comparedIn_callsOf]
  rfl

section Turns

variable {asked : Option (α × α)} {past log : List (Event α)} {l r : Turn (Cursor (List α)) α α}
  {aheadA aheadB : List α} {x : α}

theorem Turns.stands_left (hTurns : Turns a b noted asked past l.log r.log log)
    (hLeft : Standing a as (breaks .left) (some (.item x)) l.state (x :: aheadA)
      (a.own past ++ l.log))
    (hRight : Standing b bs (breaks .right) (some r.reply) r.state aheadB (b.own past ++ r.log))
    (calls : Nat) :
    Stands a b as bs breaks (past ++ log) ⟨l.state, r.state, none, some r.reply, calls⟩
        aheadA aheadB ∧ b.own (past ++ log) ≠ [] := by
  rw [← hTurns.own_left] at hLeft
  rw [← hTurns.own_right] at hRight
  exact ⟨⟨hLeft.deliver, hRight, fun hNone => absurd hNone hRight.ne_nil⟩, hRight.ne_nil⟩

theorem Turns.stands_right (hTurns : Turns a b noted asked past l.log r.log log)
    (hLeft : Standing a as (breaks .left) (some l.reply) l.state aheadA (a.own past ++ l.log))
    (hRight : Standing b bs (breaks .right) (some (.item x)) r.state (x :: aheadB)
      (b.own past ++ r.log)) (calls : Nat) :
    Stands a b as bs breaks (past ++ log) ⟨l.state, r.state, some l.reply, none, calls⟩
        aheadA aheadB ∧ b.own (past ++ log) ≠ [] := by
  rw [← hTurns.own_left] at hLeft
  rw [← hTurns.own_right] at hRight
  exact ⟨⟨hLeft, hRight.deliver, fun hNone => absurd hNone hRight.ne_nil⟩, hRight.ne_nil⟩

section Leaving

variable {left right stopsA stopsB : List (Event α)} {failedA failedB : Bool}

/-- A demand after which both inputs are left. -/
theorem Turns.closed (hApart : a ≠ b) {halt : Option (Interruption α)}
    (hTurns : Turns a b noted asked past left right log)
    (hLeft : Leaving a as (breaks .left) failedA (a.own past ++ left) stopsA)
    (hRight : Leaving b bs (breaks .right) failedB (b.own past ++ right) stopsB)
    (hSilent : b.own past ++ right = [] → a.own past ++ left ++ stopsA = [.started a, .failed a])
    (hHalt : ∀ side : Side, side.pick failedA failedB = true ↔ halt = some (.input side)) :
    Closed a b halt (past ++ (log ++ (stopsB ++ stopsA))) := by
  rw [← hTurns.own_left] at hLeft hSilent
  rw [← hTurns.own_right] at hRight hSilent
  rw [← List.append_assoc]
  exact closed_of_leaving hApart hLeft hRight hSilent hHalt

theorem Turns.halted (hApart : a ≠ b) {halt : Interruption α}
    (hTurns : Turns a b noted halt.asked past left right log)
    (hLeft : Leaving a as (breaks .left) failedA (a.own past ++ left) stopsA)
    (hRight : Leaving b bs (breaks .right) failedB (b.own past ++ right) stopsB)
    (hSilent : b.own past ++ right = [] → a.own past ++ left ++ stopsA = [.started a, .failed a])
    (hHalt : ∀ side : Side, side.pick failedA failedB = true ↔ halt = .input side)
    (state : Feed.MergeState (Cursor (List α)) (Cursor (List α)) α) (pool : Pool α) :
    Advance a b as bs breaks cmp noted past ⟨[], some halt⟩
      ⟨.failed (halt.fault a b), state, pool, log ++ (stopsB ++ stopsA)⟩ := by
  refine .halted rfl ?_ (hTurns.closed hApart hLeft hRight hSilent ?_)
  · have hStops : comparedIn (stopsB ++ stopsA) = [] := by
      rcases hLeft.stops_eq with rfl | rfl <;> rcases hRight.stops_eq with rfl | rfl <;> rfl
    rw [comparedIn_append, hTurns.compared, hStops, List.append_nil]
  · intro side
    rw [hHalt, Option.some.injEq]

end Leaving

end Turns

theorem course_of_breaks_left (hBreaks : breaks .left = true) (calls : Nat) (bs : List α) :
    course cmp breaks calls [] bs = ⟨[], some (.input .left)⟩ := by
  cases bs <;> rw [course] <;> simp only [hBreaks, if_true]

theorem course_of_breaks_right {as : List α} (hLeft : as = [] → breaks .left = false)
    (hBreaks : breaks .right = true) (calls : Nat) :
    course cmp breaks calls as [] = ⟨[], some (.input .right)⟩ := by
  cases as with
  | nil => rw [course, hLeft rfl, hBreaks]; rfl
  | cons a as => rw [course, if_pos hBreaks]

/-- After a move, the answer that is kept is the one of the other side. -/
theorem isSome_heads (origin : Side) (reply : Reply α) (side : Side) :
    (side.pick (origin.pick none (some reply)) (origin.pick (some reply) none)).isSome ↔
      side ≠ origin := by
  cases origin <;> cases side <;> simp [Side.pick]

/-- The rest of a demand, after the left input has answered. Its answer is used
if it is delivered and kept otherwise. -/
theorem mergeRight_advance (hApart : a ≠ b) {past : List (Event α)}
    {state : Feed.MergeState (Cursor (List α)) (Cursor (List α)) α}
    {l : Turn (Cursor (List α)) α α} {x? : Option α} {aheadA aheadB : List α}
    (hReply : l.reply = match x? with | some x => .item x | none => .ended)
    (hLeft : Standing a as (breaks .left) (some l.reply) l.state aheadA (a.own past ++ l.log))
    (hOwnA : ∀ event ∈ l.log, event.leaf? = some a)
    (hRight : Standing b bs (breaks .right) state.rightHead state.right aheadB (b.own past)) :
    Advance a b as bs breaks cmp noted past
      (course cmp breaks state.calls aheadA aheadB)
      (Feed.mergeRight (Feed.replay a as (breaks .left)) (Feed.replay b bs (breaks .right)) cmp
        noted state l x?) := by
  have hFetch := hRight.fetch l.pool
  have hOwnB (event) (hEvent : event ∈ (Feed.fetch (Feed.replay b bs (breaks .right))
      state.rightHead state.right l.pool).log) := leaf_of_mem_fetch l.pool hEvent
  simp only [Feed.mergeRight]
  generalize Feed.fetch (Feed.replay b bs (breaks .right)) state.rightHead state.right l.pool = r
    at hFetch hOwnB ⊢
  have hTurns (asked : Option (α × α)) := turns hApart noted asked past hOwnA hOwnB
  cases hFetch with
  | failed hBreaks hReplyB hLog =>
      have hTurn := hTurns none
      rw [callsOf_none, List.append_nil] at hTurn
      have hFailed : Leaving b bs (breaks .right) true (b.own past ++ r.log) [] :=
        hLog ▸ .failed
      rw [course_of_breaks_right hLeft.breaks_eq_false hBreaks]
      simp only [hReplyB]
      refine Turns.halted hApart hTurn (.standing hLeft) hFailed (fun hNone => ?_)
        (fun side => ?_) _ _
      · simp [hLog] at hNone
      · cases side <;> simp [Side.pick]
  | ended hBreaks hReplyB hStandingB =>
      have hTurn := hTurns none
      rw [callsOf_none, List.append_nil] at hTurn
      cases x? with
      | none =>
          rw [hReply] at hLeft
          obtain ⟨rfl, hStateA⟩ := hLeft.of_ended
          have hEndedA := Leaving.standing hLeft
          have hEndedB := Leaving.standing hStandingB
          rw [hStateA] at hEndedA
          rw [hStandingB.of_ended.2] at hEndedB
          rw [course, hLeft.breaks_eq_false rfl, hBreaks]
          simp only [hReplyB]
          refine .ended rfl (hTurn.compared.trans (by simp)) ?_
          rw [← List.append_nil (l.log ++ r.log)]
          refine hTurn.closed hApart hEndedA hEndedB (fun hNone => ?_) (fun side => ?_)
          · exact absurd hNone hStandingB.ne_nil
          · cases side <;> simp [Side.pick]
      | some x =>
          rw [hReply] at hLeft
          obtain ⟨restA, rfl⟩ := hLeft.exists_of_item
          obtain ⟨hStands, hOpen⟩ := hTurn.stands_left hLeft (hReplyB ▸ hStandingB) state.calls
          rw [course, if_neg (by simp [hBreaks])]
          simp only [hReplyB] at hStands ⊢
          exact .moved rfl rfl (hTurn.compared.trans (by simp)) hStands hOpen
            (isSome_heads .left _)
  | @item y restB _ hReplyB hStandingB =>
      cases x? with
      | none =>
          have hTurn := hTurns none
          rw [callsOf_none, List.append_nil] at hTurn
          obtain ⟨hStands, hOpen⟩ := hTurn.stands_right hLeft hStandingB state.calls
          rw [hReply] at hLeft
          obtain ⟨rfl, hStateA⟩ := hLeft.of_ended
          rw [course, if_neg (by simp [hLeft.breaks_eq_false rfl])]
          simp only [hReplyB]
          exact .moved rfl rfl (hTurn.compared.trans (by simp)) hStands hOpen
            (isSome_heads .right _)
      | some x =>
          have hTurn := hTurns (some (x, y))
          rw [callsOf_some] at hTurn
          obtain ⟨hStandsB, hOpenB⟩ := hTurn.stands_right hLeft hStandingB (state.calls + 1)
          rw [hReply] at hLeft
          obtain ⟨restA, rfl⟩ := hLeft.exists_of_item
          obtain ⟨hStandsA, hOpenA⟩ :=
            hTurn.stands_left hLeft (hReplyB ▸ hStandingB) (state.calls + 1)
          rw [course]
          simp only [hReplyB] at hStandsA ⊢
          cases hCmp : cmp (state.calls + 1) (x, y) with
          | error fault =>
              refine Turns.halted hApart hTurn (.standing hLeft) (.standing hStandingB)
                (fun hNone => ?_) (fun side => ?_) _ _
              · exact absurd hNone hStandingB.ne_nil
              · cases side <;> simp [Side.pick]
          | ok order =>
              cases hLE : order.isLE with
              | true =>
                  simp only [hLE, if_true]
                  exact .moved rfl rfl hTurn.compared hStandsA hOpenA (isSome_heads .left _)
              | false =>
                  simp only [hLE, Bool.false_eq_true, if_false]
                  exact .moved rfl rfl hTurn.compared hStandsB hOpenB (isSome_heads .right _)

/-- One demand goes one move further, or to the end of the course. -/
theorem mergeNext_advance (hApart : a ≠ b) {past : List (Event α)}
    {state : Feed.MergeState (Cursor (List α)) (Cursor (List α)) α} {aheadA aheadB : List α}
    (hStands : Stands a b as bs breaks past state aheadA aheadB) (pool : Pool α) :
    Advance a b as bs breaks cmp noted past
      (course cmp breaks state.calls aheadA aheadB)
      ((Feed.mergeLists a b as bs breaks cmp noted).next state pool) := by
  have hFetch := hStands.left.fetch pool
  have hOwnA (event) (hEvent : event ∈ (Feed.fetch (Feed.replay a as (breaks .left))
      state.leftHead state.left pool).log) := leaf_of_mem_fetch pool hEvent
  change Advance a b as bs breaks cmp noted past _ (Feed.mergeNext
    (Feed.replay a as (breaks .left)) (Feed.replay b bs (breaks .right)) cmp noted state pool)
  simp only [Feed.mergeNext]
  generalize Feed.fetch (Feed.replay a as (breaks .left)) state.leftHead state.left pool = l
    at hFetch hOwnA ⊢
  cases hFetch with
  | failed hBreaks hReply hLog =>
      have hTurn : Turns a b noted none past l.log [] l.log := by
        have hNone : ∀ event ∈ ([] : List (Event α)), event.leaf? = some b := by simp
        simpa using turns hApart noted none past hOwnA hNone
      have hFailed : Leaving a as (breaks .left) true (a.own past ++ l.log) [] :=
        hLog ▸ .failed
      have hLeaving := Leaving.standing hStands.right
      rw [← List.append_nil (b.own past)] at hLeaving
      rw [course_of_breaks_left hBreaks]
      simp only [hReply]
      rw [← List.append_nil (Feed.stop _ _)]
      refine Turns.halted hApart hTurn hFailed hLeaving (fun hNone => ?_) (fun side => ?_) _ _
      · -- The left input was asked first, so this is its first demand.
        rw [List.append_nil] at hNone
        have hItems := hStands.left.eq_items (hStands.together hNone)
        rw [hLog, ← hItems]
        rfl
      · cases side <;> simp [Side.pick]
  | ended hBreaks hReply hStanding =>
      simp only [hReply]
      exact mergeRight_advance hApart hReply (hReply ▸ hStanding) hOwnA hStands.right
  | item hReply hStanding =>
      simp only [hReply]
      exact mergeRight_advance hApart hReply (hReply ▸ hStanding) hOwnA hStands.right

/-- An open merge that is told to stop closes both inputs. -/
theorem Stands.closed (hApart : a ≠ b) (cmp : Probe (α × α) Ordering) (noted : Bool)
    {past : List (Event α)}
    {state : Feed.MergeState (Cursor (List α)) (Cursor (List α)) α} {aheadA aheadB : List α}
    (hStands : Stands a b as bs breaks past state aheadA aheadB) (hOpen : b.own past ≠ []) :
    Closed a b none (past ++ (Feed.mergeLists a b as bs breaks cmp noted).stop state) := by
  refine closed_of_leaving hApart (.standing hStands.left) (.standing hStands.right)
    (fun hNone => absurd hNone hOpen) fun side => ?_
  cases side <;> simp [Side.pick]

end Merge

section Dialogue

/-- A question as it is noted. -/
def Note.asked (question : α × α) : Note α α := .event (.compared question.1 question.2)

/-- Whether a note is a question or an item that was received. -/
def Note.isSpoken : Note α α → Bool
  | event (.compared _ _) => true
  | received _ => true
  | _ => false

/-- The questions and the items received, in their order. -/
def dialogue (notes : List (Note α α)) : List (Note α α) := notes.filter Note.isSpoken

@[simp]
theorem dialogue_append (notes more : List (Note α α)) :
    dialogue (notes ++ more) = dialogue notes ++ dialogue more := List.filter_append ..

@[simp]
theorem dialogue_received_cons (x : α) (notes : List (Note α α)) :
    dialogue (.received x :: notes) = .received x :: dialogue notes := rfl

@[simp]
theorem dialogue_quit_cons (notes : List (Note α α)) :
    dialogue (.quit :: notes) = dialogue notes := rfl

@[simp]
theorem dialogue_map_event (log : List (Event α)) :
    dialogue (log.map .event) = (comparedIn log).map Note.asked := by
  induction log with
  | nil => rfl
  | cons event log ih =>
      cases event with
      | compared x y => exact congrArg (Note.asked (x, y) :: ·) ih
      | _ => exact ih

/-- A move begins with its question, if that is noted, and ends with its item. -/
def Move.dialogue (noted : Bool) (move : Move α) : List (Note α α) :=
  (if noted then move.asked.toList else []).map Note.asked ++ [.received move.mark.2]

def Course.dialogue (noted : Bool) (course : Course α) : List (Note α α) :=
  course.moves.flatMap (Move.dialogue noted) ++
    (if noted then course.lastQuestion else []).map Note.asked

theorem Course.dialogue_after (noted : Bool) (move : Move α) (course : Course α) :
    (course.after move).dialogue noted = move.dialogue noted ++ course.dialogue noted := by
  simp [Course.dialogue, Course.after, Course.lastQuestion]

end Dialogue

/-- A reading of a merge, by the course that was ahead. Without a limit that is
reached before, the reader stays until the course is over. Otherwise it quits,
and a limit of zero is reached when the first item is there. -/
inductive Passage (a b : Leaf) (noted : Bool) (past : List (Event α)) (ahead : Course α) :
    Limit → Reading α α → Prop where
  | stayed {limit : Limit} {reading : Reading α α}
      (hLimit : ∀ k, limit = some k → ahead.moves.length < max k 1)
      (hQuit : .quit ∉ reading.notes) (hGot : reading.got = ahead.marks.map Prod.snd)
      (hFault : reading.fault = ahead.halt.map (Interruption.fault a b))
      (hDialogue : dialogue reading.notes = ahead.dialogue noted)
      (hClosed : Closed a b ahead.halt (past ++ eventsIn reading.notes)) :
      Passage a b noted past ahead limit reading
  | quit {k : Nat} {reading : Reading α α} (hLimit : max k 1 ≤ ahead.moves.length)
      (hQuit : .quit ∈ reading.notes) (hGot : reading.got = (ahead.marks.take k).map Prod.snd)
      (hFault : reading.fault = none)
      (hDialogue : 1 ≤ k →
        dialogue reading.notes = (ahead.moves.take k).flatMap (Move.dialogue noted))
      (hClosed : Closed a b none (past ++ eventsIn reading.notes)) :
      Passage a b noted past ahead (some k) reading

section Passage

variable {a b : Leaf} {as bs : List α} {breaks : Side → Bool} {cmp : Probe (α × α) Ordering}
  {noted : Bool} {past log : List (Event α)} {ahead : Course α} {move : Move α}

/-- A move before a reading that goes on. -/
theorem Passage.after {limit : Limit} (hMore : ∀ k, limit = some k → 2 ≤ k)
    (hAsked : comparedIn log = if noted then move.asked.toList else []) {later : Reading α α}
    (hLater : Passage a b noted (past ++ log) ahead (limit.map (· - 1)) later) :
    Passage a b noted past (ahead.after move) limit
      ⟨move.mark.2 :: later.got, log.map .event ++ .received move.mark.2 :: later.notes,
        later.fault⟩ := by
  have hSpoken : dialogue (log.map .event ++ .received move.mark.2 :: later.notes) =
      move.dialogue noted ++ dialogue later.notes := by
    simp [Move.dialogue, hAsked]
  have hEvents : past ++ eventsIn (log.map .event ++ .received move.mark.2 :: later.notes) =
      past ++ log ++ eventsIn later.notes := by
    simp
  generalize hRest : limit.map (· - 1) = rest at hLater
  cases hLater with
  | stayed hLimit hQuit hGot hFault hDialogue hClosed =>
      refine .stayed (fun k hK => ?_) (by simp [hQuit]) (by simp [hGot]) hFault ?_ ?_
      · have hTwo := hMore k hK
        have hBefore := hLimit (k - 1) (by rw [← hRest, hK]; rfl)
        simp only [Course.after, List.length_cons]
        omega
      · rw [hSpoken, hDialogue, Course.dialogue_after]
      · rw [hEvents]
        exact hClosed
  | @quit k _ hLimit hQuit hGot hFault hDialogue hClosed =>
      obtain ⟨more, rfl, hMinus⟩ := Option.map_eq_some_iff.mp hRest
      have hTwo := hMore more rfl
      obtain rfl : more = k + 1 := by omega
      refine .quit ?_ (by simp [hQuit]) (by simp [hGot]) hFault (fun _ => ?_) ?_
      · simp only [Course.after, List.length_cons]
        omega
      · rw [hSpoken, hDialogue (by omega)]
        rfl
      · rw [hEvents]
        exact hClosed

theorem lastQuestion_of_halted (halt : Interruption α) :
    Course.lastQuestion ⟨[], some halt⟩ = halt.asked.toList := by
  cases halt <;> rfl

/-- A reading goes the course that is ahead as far as its reader wants. -/
theorem visitFrom_passage (hApart : a ≠ b) (limit : Limit)
    {state : Feed.MergeState (Cursor (List α)) (Cursor (List α)) α} {aheadA aheadB : List α}
    (hStands : Stands a b as bs breaks past state aheadA aheadB) (pool : Pool α) :
    Passage a b noted past (course cmp breaks state.calls aheadA aheadB) limit
      ((Feed.mergeLists a b as bs breaks cmp noted).visitFrom limit state pool).reading := by
  generalize hAhead : course cmp breaks state.calls aheadA aheadB = ahead
  obtain ⟨moves, halt⟩ := ahead
  -- Each demand makes the first of the moves ahead, so these are what the run
  -- is counted by.
  induction moves generalizing limit past state aheadA aheadB pool with
  | nil =>
      have hAdvance : Advance a b as bs breaks cmp noted past ⟨[], halt⟩ _ :=
        hAhead ▸ mergeNext_advance hApart hStands pool
      have hLimit (k : Nat) (_ : limit = some k) : ([] : List (Move α)).length < max k 1 := by
        simp
      generalize hTurn : (Feed.mergeLists a b as bs breaks cmp noted).next state pool = turn
        at hAdvance
      cases hAdvance with
      | ended hReply hAsked hClosed =>
          subst hTurn
          rw [Feed.visitFrom_of_ended limit hReply]
          exact .stayed hLimit (quit_notMem_map_event _) rfl rfl
            (by simp [Visit.reading, hAsked, Course.dialogue, Course.lastQuestion])
            (by simpa [Visit.reading] using hClosed)
      | halted hReply hAsked hClosed =>
          subst hTurn
          rw [Feed.visitFrom_of_failed limit hReply]
          exact .stayed hLimit (quit_notMem_map_event _) rfl rfl
            (by simp [Visit.reading, hAsked, Course.dialogue, lastQuestion_of_halted])
            (by simpa [Visit.reading] using hClosed)
      | moved hCourse hReply hAsked hStands hOpen hHeads => cases hCourse
  | cons move moves ih =>
      have hAdvance : Advance a b as bs breaks cmp noted past ⟨move :: moves, halt⟩ _ :=
        hAhead ▸ mergeNext_advance hApart hStands pool
      generalize hTurn : (Feed.mergeLists a b as bs breaks cmp noted).next state pool = turn
        at hAdvance
      cases hAdvance with
      | @moved _ _ restA restB _ hCourse hReply hAsked hStands hOpen hHeads =>
          subst hTurn
          generalize hRest : course cmp breaks _ restA restB = rest at hCourse
          obtain ⟨restMoves, restHalt⟩ := rest
          simp only [Course.after, Course.mk.injEq, List.cons.injEq] at hCourse
          obtain ⟨⟨rfl, rfl⟩, rfl⟩ := hCourse
          have hClosed := hStands.closed hApart cmp noted hOpen
          by_cases hZero : limit = some 0
          · subst hZero
            rw [Feed.visitFrom_of_item_zero hReply]
            exact .quit (by simp) (by simp [Visit.reading]) rfl rfl (by simp)
              (by simpa [Visit.reading] using hClosed)
          by_cases hOne : limit = some 1
          · subst hOne
            rw [Feed.visitFrom_of_item_one hReply]
            exact .quit (by simp) (by simp [Visit.reading]) rfl rfl
              (by simp [Visit.reading, hAsked, Move.dialogue, comparedIn_stop])
              (by simpa [Visit.reading] using hClosed)
          have hMore (k : Nat) (hK : limit = some k) : 2 ≤ k := by
            subst hK
            simp only [Option.some.injEq] at hZero hOne
            omega
          rw [Feed.visitFrom_of_item_more limit hMore hReply]
          exact Passage.after hMore hAsked
            (ih (limit.map (· - 1)) hStands _ hRest)

end Passage

/-- The questions of a reading. -/
def Reading.questions (reading : Reading α α) : List (α × α) := comparedIn (eventsIn reading.notes)

section Successive

variable {a b : Leaf} {as bs : List α} {breaks : Side → Bool} {cmp : Probe (α × α) Ordering}
  {noted : Bool}

/-- An input does not ask anything. -/
theorem comparedIn_fetch (leaf : Leaf) (items : List α) (breaksOff : Bool)
    (head : Option (Reply α)) (cursor : Cursor (List α)) (pool : Pool α) :
    comparedIn (Feed.fetch (Feed.replay leaf items breaksOff) head cursor pool).log = [] :=
  comparedIn_eq_nil fun _ hEvent => leaf_of_mem_fetch pool hEvent

/-- A demand puts at most one question, and counts it. Whether it is noted changes
the log at its place and nothing else. -/
theorem exists_mergeNext_log (a b : Leaf) (as bs : List α) (breaks : Side → Bool)
    (cmp : Probe (α × α) Ordering)
    (state : Feed.MergeState (Cursor (List α)) (Cursor (List α)) α) (pool : Pool α) :
    let next noted := Feed.mergeNext (Feed.replay a as (breaks .left))
      (Feed.replay b bs (breaks .right)) cmp noted state pool
    ∃ before asked after, comparedIn before = [] ∧ comparedIn after = [] ∧
      (next false).state.calls = state.calls + asked.toList.length ∧
      ∀ noted, next noted = ⟨(next false).reply, (next false).state, (next false).pool,
        before ++ callsOf noted asked ++ after⟩ := by
  have hLeft := comparedIn_fetch a as (breaks .left) state.leftHead state.left pool
  simp only [Feed.mergeNext, Feed.mergeRight]
  generalize Feed.fetch (Feed.replay a as (breaks .left)) state.leftHead state.left pool = l
    at hLeft ⊢
  have hRight := comparedIn_fetch b bs (breaks .right) state.rightHead state.right l.pool
  generalize Feed.fetch (Feed.replay b bs (breaks .right)) state.rightHead state.right l.pool = r
    at hRight ⊢
  have hStopA : comparedIn ((Feed.replay a as (breaks .left)).stop l.state) = [] :=
    comparedIn_stopCursor a l.state
  have hStopB : comparedIn ((Feed.replay b bs (breaks .right)).stop r.state) = [] :=
    comparedIn_stopCursor b r.state
  have hStop : comparedIn ((Feed.replay b bs (breaks .right)).stop state.right) = [] :=
    comparedIn_stopCursor b state.right
  have hLog : comparedIn (l.log ++ r.log) = [] := by
    rw [comparedIn_append, hLeft, hRight]
    rfl
  cases l.reply with
  | failed fault => exact ⟨l.log, none, _, hLeft, hStop, rfl, fun noted => by simp⟩
  | ended =>
      cases r.reply with
      | failed fault => exact ⟨l.log ++ r.log, none, _, hLog, hStopA, rfl, fun noted => by simp⟩
      | ended => exact ⟨l.log ++ r.log, none, [], hLog, rfl, rfl, fun noted => by simp⟩
      | item y => exact ⟨l.log ++ r.log, none, [], hLog, rfl, rfl, fun noted => by simp⟩
  | item x =>
      cases r.reply with
      | failed fault => exact ⟨l.log ++ r.log, none, _, hLog, hStopA, rfl, fun noted => by simp⟩
      | ended => exact ⟨l.log ++ r.log, none, [], hLog, rfl, rfl, fun noted => by simp⟩
      | item y =>
          cases hCmp : cmp (state.calls + 1) (x, y) with
          | error fault =>
              have hStops := (comparedIn_append _ _).trans
                (List.append_eq_nil_iff.mpr ⟨hStopB, hStopA⟩)
              refine ⟨l.log ++ r.log, some (x, y), _, hLog, hStops, ?_, fun noted => ?_⟩
              · simp [hCmp]
              · simp [hCmp, callsOf_some]
          | ok order =>
              refine ⟨l.log ++ r.log, some (x, y), [], hLog, rfl, ?_, fun noted => ?_⟩
              · cases hLE : order.isLE <;> simp [hCmp, hLE]
              · cases hLE : order.isLE <;> simp [hCmp, hLE, callsOf_some]

/-- If all questions are noted, the number of calls can be read off the log. -/
theorem calls_mergeNext (state : Feed.MergeState (Cursor (List α)) (Cursor (List α)) α)
    (pool : Pool α) :
    (Feed.mergeNext (Feed.replay a as (breaks .left)) (Feed.replay b bs (breaks .right)) cmp true
        state pool).state.calls =
      state.calls + (comparedIn (Feed.mergeNext (Feed.replay a as (breaks .left))
        (Feed.replay b bs (breaks .right)) cmp true state pool).log).length := by
  obtain ⟨before, asked, after, hBefore, hAfter, hCalls, hNext⟩ :=
    exists_mergeNext_log a b as bs breaks cmp state pool
  dsimp only at hCalls hNext
  rw [hNext true, hCalls]
  simp [hBefore, hAfter, comparedIn_callsOf]

/-- A counter that every demand raises by its questions has counted all questions
of a reading in the end. -/
theorem Feed.count_visitFrom (feed : Feed α α) (count : feed.State → Nat)
    (hNext : ∀ state pool, count (feed.next state pool).state =
      count state + (comparedIn (feed.next state pool).log).length)
    (hStop : ∀ state, comparedIn (feed.stop state) = []) (limit : Limit) (state : feed.State)
    (pool : Pool α) :
    count (feed.visitFrom limit state pool).state =
      count state + (feed.visitFrom limit state pool).reading.questions.length := by
  induction limit, state, pool using Feed.visitFrom.induct with
  | case1 limit state pool turn hReply =>
      rw [visitFrom_of_ended limit hReply]
      simp [Visit.reading, Reading.questions, hNext]
  | case2 limit state pool turn fault hReply =>
      rw [visitFrom_of_failed limit hReply]
      simp [Visit.reading, Reading.questions, hNext]
  | case3 state pool turn x hReply =>
      rw [visitFrom_of_item_zero hReply]
      simp [Visit.reading, Reading.questions, hNext, hStop]
  | case4 state pool turn x hReply =>
      rw [visitFrom_of_item_one hReply]
      simp [Visit.reading, Reading.questions, hNext, hStop]
  | case5 state pool turn x hReply more ih =>
      rw [visitFrom_of_item_more (some (more + 2)) (by simp) hReply]
      refine ih.trans ?_
      simp [Visit.reading, Reading.questions, hNext, turn, Nat.add_assoc]
  | case6 state pool turn x hReply ih =>
      rw [visitFrom_of_item_more none (by simp) hReply]
      refine ih.trans ?_
      simp [Visit.reading, Reading.questions, hNext, turn, Nat.add_assoc]

/-- Every reading goes the course of the two lists anew, but the comparator has
been called by the readings before. -/
theorem visitsFrom_passage (hApart : a ≠ b) {limits : List Limit} {calls : Nat} {pool : Pool α}
    {readings : List (Reading α α)}
    (hReadings : ((Feed.mergeLists a b as bs breaks cmp noted).visitsFrom limits
      ⟨.idle, .idle, none, none, calls⟩ pool).map Visit.reading = readings)
    {index : Nat} {limit : Limit} (hLimit : limits[index]? = some limit) :
    ∃ reading earlier, readings[index]? = some reading ∧
      (noted = true →
        earlier = calls + ((readings.take index).flatMap Reading.questions).length) ∧
      Passage a b noted [] (course cmp breaks earlier as bs) limit reading := by
  induction limits generalizing calls pool readings index with
  | nil => cases hLimit
  | cons first limits ih =>
      subst hReadings
      cases index with
      | zero =>
          obtain rfl : first = limit := by simpa using hLimit
          have hFresh : Stands a b as bs breaks [] ⟨.idle, .idle, none, none, calls⟩ as bs :=
            ⟨.idle, .idle, fun _ => rfl⟩
          exact ⟨_, calls, rfl, fun _ => rfl, visitFrom_passage hApart first hFresh pool⟩
      | succ index =>
          obtain ⟨reading, earlier, hReading, hEarlier, hPassage⟩ := ih rfl (by simpa using hLimit)
          refine ⟨reading, earlier, hReading, fun hNoted => (hEarlier hNoted).trans ?_, hPassage⟩
          subst hNoted
          -- The comparator is the same one, so the count goes on.
          have hCount := Feed.count_visitFrom (Feed.mergeLists a b as bs breaks cmp true)
            Feed.MergeState.calls calls_mergeNext comparedIn_stop first
            ⟨.idle, .idle, none, none, calls⟩ pool
          refine (congrArg (· + _) hCount).trans ?_
          rw [Nat.add_assoc, ← List.length_append]
          rfl

end Successive

/-- The readings of a plan that merges two replayable inputs. -/
theorem Plan.readings_passage {κ : Type} [BEq κ] {cmp : Probe (α × α) Ordering} {noted : Bool}
    {nameA nameB : String} {inputA inputB : Source α} (hLeft : inputA.singleUse = false)
    (hRight : inputB.singleUse = false) {limits : List Limit} {readings : List (Reading α α)}
    (hReadings : (Plan.merge cmp noted (.source nameA inputA) (.source nameB inputB) :
      Plan α κ).readings limits = readings)
    {index : Nat} {limit : Limit} (hLimit : limits[index]? = some limit) :
    ∃ reading earlier, readings[index]? = some reading ∧
      (noted = true → earlier = ((readings.take index).flatMap Reading.questions).length) ∧
      Passage ⟨nameA, [.left]⟩ ⟨nameB, [.right]⟩ noted []
        (course cmp (fun side => (side.pick inputA inputB).breaks) earlier inputA.items
          inputB.items) limit reading := by
  obtain ⟨itemsA, breaksA, onceA⟩ := inputA
  obtain ⟨itemsB, breaksB, onceB⟩ := inputB
  obtain rfl : onceA = false := hLeft
  obtain rfl : onceB = false := hRight
  have hApart : (⟨nameA, [.left]⟩ : Leaf) ≠ ⟨nameB, [.right]⟩ := by simp
  have hVisits : ((Feed.mergeLists ⟨nameA, [.left]⟩ ⟨nameB, [.right]⟩ itemsA itemsB
      (fun side => side.pick breaksA breaksB) cmp noted).visitsFrom limits
      ⟨.idle, .idle, none, none, 0⟩ ⟨[]⟩).map Visit.reading = readings := hReadings
  obtain ⟨reading, earlier, hReading, hEarlier, hPassage⟩ :=
    visitsFrom_passage hApart hVisits hLimit
  refine ⟨reading, earlier, hReading, fun hNoted => (hEarlier hNoted).trans (Nat.zero_add _), ?_⟩
  have hBreaks : (fun side : Side => side.pick breaksA breaksB) = fun side =>
      (side.pick (⟨itemsA, breaksA, false⟩ : Source α) ⟨itemsB, breaksB, false⟩).breaks := by
    funext side
    cases side <;> rfl
  rw [← hBreaks]
  exact hPassage

end Sequences
