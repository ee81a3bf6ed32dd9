import Sequences.Element.Value
import Sequences.Proofs.Progress

/-! What the comparator of a merge is asked. Merging at once and merging on
demand put the same questions in the same order, whatever the comparator
answers and whether or not it gives up. Each question is about the first
elements that are still to come. A reader who quits leaves the questions after
its last item unasked. -/
namespace Sequences

variable {α : Type}

/-- The items received, in order. -/
def Note.received? : Note α α → Option α
  | received x => some x
  | _ => none

def receivedIn (notes : List (Note α α)) : List α := notes.filterMap Note.received?

section Dialogue

variable (notes : List (Note α α))

theorem receivedIn_dialogue : receivedIn (dialogue notes) = receivedIn notes := by
  induction notes with
  | nil => rfl
  | cons note notes ih =>
      cases note with
      | received x => exact congrArg (x :: ·) ih
      | quit => exact ih
      | event event => cases event <;> exact ih

theorem comparedIn_dialogue :
    comparedIn (eventsIn (dialogue notes)) = comparedIn (eventsIn notes) := by
  induction notes with
  | nil => rfl
  | cons note notes ih =>
      cases note with
      | received x => exact ih
      | quit => exact ih
      | event event =>
          cases event with
          | compared x y => exact congrArg ((x, y) :: ·) ih
          | _ => exact ih

theorem comparedIn_map_asked (questions : List (α × α)) :
    comparedIn (eventsIn (questions.map Note.asked)) = questions := by
  induction questions with
  | nil => rfl
  | cons question questions ih => exact congrArg (question :: ·) ih

theorem comparedIn_flatMap_dialogue (moves : List (Move α)) :
    comparedIn (eventsIn (moves.flatMap (Move.dialogue true))) = moves.filterMap Move.asked := by
  induction moves with
  | nil => rfl
  | cons move moves ih =>
      have hMove : comparedIn (eventsIn (move.dialogue true)) = move.asked.toList := by
        rw [Move.dialogue, eventsIn_append, comparedIn_append, if_pos rfl, comparedIn_map_asked]
        exact List.append_nil _
      rw [List.flatMap_cons, eventsIn_append, comparedIn_append, ih, hMove]
      cases hAsked : move.asked <;> simp [hAsked]

theorem Course.comparedIn_dialogue (course : Course α) :
    comparedIn (eventsIn (course.dialogue true)) = course.questions := by
  rw [Course.dialogue, eventsIn_append, comparedIn_append, comparedIn_flatMap_dialogue, if_pos rfl,
    comparedIn_map_asked]
  rfl

end Dialogue

section Course

variable {cmp : Probe (α × α) Ordering} {calls : Nat} {as bs : List α}

/-- The rest of one list is taken without questions. -/
@[simp]
theorem questions_nil_left : (course cmp (fun _ => false) calls [] bs).questions = [] := by
  rw [course_nil_left]
  simp [Course.questions, Course.lastQuestion]

@[simp]
theorem questions_nil_right : (course cmp (fun _ => false) calls as []).questions = [] := by
  rw [course_nil_right]
  simp [Course.questions, Course.lastQuestion]

/-- As long as both lists last every move asks, and afterwards none does. -/
theorem filterMap_take_moves {k : Nat}
    (hMoves : k ≤ (course cmp (fun _ => false) calls as bs).moves.length) :
    ((course cmp (fun _ => false) calls as bs).moves.take k).filterMap Move.asked =
      (course cmp (fun _ => false) calls as bs).questions.take k := by
  fun_induction course cmp (fun _ => false) calls as bs generalizing k with
  | case1 calls => simp_all [Course.questions, Course.lastQuestion]
  | case2 calls b bs hBreaks => cases hBreaks
  | case3 calls b bs hBreaks ih =>
      cases k with
      | zero => rfl
      | succ k => simpa using ih (Nat.le_of_succ_le_succ hMoves)
  | case4 calls a as hBreaks => cases hBreaks
  | case5 calls a as hBreaks ih =>
      cases k with
      | zero => rfl
      | succ k => simpa using ih (Nat.le_of_succ_le_succ hMoves)
  | case6 calls a as b bs fault hCmp => simp_all [Course.questions]
  | case7 calls a as b bs order hCmp hLE ih =>
      cases k with
      | zero => rfl
      | succ k => simpa using ih (Nat.le_of_succ_le_succ hMoves)
  | case8 calls a as b bs order hCmp hGT ih =>
      cases k with
      | zero => rfl
      | succ k => simpa using ih (Nat.le_of_succ_le_succ hMoves)

theorem length_questions_le :
    (course cmp (fun _ => false) calls as bs).questions.length ≤
      (course cmp (fun _ => false) calls as bs).moves.length + 1 := by
  have hLast : (course cmp (fun _ => false) calls as bs).lastQuestion.length ≤ 1 := by
    unfold Course.lastQuestion
    split <;> simp
  rw [Course.questions, List.length_append]
  exact Nat.add_le_add (List.length_filterMap_le _ _) hLast

/-- A call that fails is the last one. Before it every move has asked. -/
theorem halt_of_error {n : Nat} {question : α × α} {fault : Fault}
    (hQuestion : (course cmp (fun _ => false) calls as bs).questions[n]? = some question)
    (hCmp : cmp (calls + n + 1) question = .error fault) :
    (course cmp (fun _ => false) calls as bs).halt =
        some (.comparator question.1 question.2 fault) ∧
      (course cmp (fun _ => false) calls as bs).questions.length = n + 1 ∧
      (course cmp (fun _ => false) calls as bs).moves.length = n := by
  fun_induction course cmp (fun _ => false) calls as bs generalizing n with
  | case1 calls => simp [Course.questions, Course.lastQuestion] at hQuestion
  | case2 calls b bs hBreaks => cases hBreaks
  | case3 calls b bs hBreaks ih =>
      simp at hQuestion
  | case4 calls a as hBreaks => cases hBreaks
  | case5 calls a as hBreaks ih =>
      simp at hQuestion
  | case6 calls a as b bs other hOther =>
      cases n with
      | zero =>
          cases hQuestion
          cases hCmp.symm.trans hOther
          exact ⟨rfl, rfl, rfl⟩
      | succ n => cases hQuestion
  | case7 calls a as b bs order hOrder hLE ih =>
      cases n with
      | zero =>
          cases hQuestion
          cases hCmp.symm.trans hOrder
      | succ n =>
          have hNumber : calls + (n + 1) + 1 = calls + 1 + n + 1 := by omega
          simpa using ih (by simpa using hQuestion) (hNumber ▸ hCmp)
  | case8 calls a as b bs order hOrder hGT ih =>
      cases n with
      | zero =>
          cases hQuestion
          cases hCmp.symm.trans hOrder
      | succ n =>
          have hNumber : calls + (n + 1) + 1 = calls + 1 + n + 1 := by omega
          simpa using ih (by simpa using hQuestion) (hNumber ▸ hCmp)

/-- Only the comparator can interrupt a course of lists that do not break off. -/
theorem halt_cases (cmp : Probe (α × α) Ordering) (calls : Nat) (as bs : List α) :
    (course cmp (fun _ => false) calls as bs).halt = none ∨
      ∃ x y fault, (course cmp (fun _ => false) calls as bs).halt =
        some (.comparator x y fault) := by
  cases hHalt : (course cmp (fun _ => false) calls as bs).halt with
  | none => exact .inl rfl
  | some halt =>
      cases halt with
      | input side => cases (taken_of_halt hHalt).1
      | comparator x y fault => exact .inr ⟨x, y, fault, rfl⟩

theorem halt_eq_none_of_answered
    (hAnswered : ∀ n question, (course cmp (fun _ => false) calls as bs).questions[n]? =
      some question → ∃ order, cmp (calls + n + 1) question = .ok order) :
    (course cmp (fun _ => false) calls as bs).halt = none := by
  rcases halt_cases cmp calls as bs with hNone | ⟨x, y, fault, hHalt⟩
  · exact hNone
  · have hError := error_of_halt hHalt
    -- The question that was refused is the last one.
    have hLast : (course cmp (fun _ => false) calls as bs).questions =
        (course cmp (fun _ => false) calls as bs).moves.filterMap Move.asked ++ [(x, y)] := by
      rw [Course.questions, Course.lastQuestion, hHalt]
    rw [hLast, List.length_append] at hError
    obtain ⟨order, hOrder⟩ := hAnswered _ (x, y) (by rw [hLast]; exact List.getElem?_concat_length)
    cases hError.symm.trans hOrder

/-- When a question is put, as many elements were taken as questions were put
before, and the question is about the next elements of the two lists. -/
structure Due (as bs : List α) (marks : List (Side × α)) (before : List (Note α α)) (x y : α) :
    Prop where
  count : (receivedIn before).length = (comparedIn (eventsIn before)).length
  received : receivedIn before =
    (marks.take (comparedIn (eventsIn before)).length).map Prod.snd
  left : ∃ rest, as = taken .left (marks.take (comparedIn (eventsIn before)).length) ++ x :: rest
  right : ∃ rest, bs = taken .right (marks.take (comparedIn (eventsIn before)).length) ++ y :: rest

theorem due_first (a b : α) (as bs : List α) (marks : List (Side × α)) :
    Due (a :: as) (b :: bs) marks [] a b :=
  ⟨rfl, rfl, ⟨as, rfl⟩, ⟨bs, rfl⟩⟩

theorem Due.after_left {a x y : α} {marks : List (Side × α)} {before : List (Note α α)}
    (hDue : Due as bs marks before x y) (question : α × α) :
    Due (a :: as) bs ((.left, a) :: marks) (Note.asked question :: .received a :: before) x y := by
  obtain ⟨hCount, hReceived, ⟨restA, hLeft⟩, ⟨restB, hRight⟩⟩ := hDue
  refine ⟨congrArg (· + 1) hCount, congrArg (a :: ·) hReceived, ⟨restA, ?_⟩, ⟨restB, ?_⟩⟩
  · exact congrArg (a :: ·) hLeft
  · exact hRight

theorem Due.after_right {b x y : α} {marks : List (Side × α)} {before : List (Note α α)}
    (hDue : Due as bs marks before x y) (question : α × α) :
    Due as (b :: bs) ((.right, b) :: marks) (Note.asked question :: .received b :: before) x y := by
  obtain ⟨hCount, hReceived, ⟨restA, hLeft⟩, ⟨restB, hRight⟩⟩ := hDue
  refine ⟨congrArg (· + 1) hCount, congrArg (b :: ·) hReceived, ⟨restA, ?_⟩, ⟨restB, ?_⟩⟩
  · exact hLeft
  · exact congrArg (b :: ·) hRight

/-- A question comes first in what is said about a move, or after the item. -/
theorem split_after_asked {question : α × α} {item x y : α} {before after later : List (Note α α)}
    (hSplit : Note.asked question :: .received item :: later =
      before ++ Note.asked (x, y) :: after) :
    (before = [] ∧ question = (x, y)) ∨
      ∃ rest, before = Note.asked question :: .received item :: rest ∧
        later = rest ++ Note.asked (x, y) :: after := by
  rcases before with _ | ⟨first, _ | ⟨second, rest⟩⟩
  · simp only [List.nil_append, List.cons.injEq, Note.asked, Note.event.injEq,
      Event.compared.injEq] at hSplit
    exact .inl ⟨rfl, Prod.ext hSplit.1.1 hSplit.1.2⟩
  · simp [Note.asked] at hSplit
  · simp only [List.cons_append, List.cons.injEq] at hSplit
    obtain ⟨rfl, rfl, rfl⟩ := hSplit
    exact .inr ⟨rest, rfl, rfl⟩

theorem questions_ne_nil_of_split {course : Course α} {before after : List (Note α α)} {x y : α}
    (hSplit : course.dialogue true = before ++ Note.asked (x, y) :: after) :
    course.questions ≠ [] := by
  rw [← Course.comparedIn_dialogue, hSplit, eventsIn_append, comparedIn_append]
  exact List.append_ne_nil_of_right_ne_nil _ (List.cons_ne_nil (x, y) _)

theorem due_of_split {before after : List (Note α α)} {x y : α}
    (hSplit : (course cmp (fun _ => false) calls as bs).dialogue true =
      before ++ Note.asked (x, y) :: after) :
    Due as bs (course cmp (fun _ => false) calls as bs).marks before x y := by
  have hAsked := questions_ne_nil_of_split hSplit
  fun_induction course cmp (fun _ => false) calls as bs generalizing before with
  | case1 calls => exact absurd rfl hAsked
  | case2 calls b bs hBreaks => cases hBreaks
  | case3 calls b bs hBreaks ih => exact absurd (by simp) hAsked
  | case4 calls a as hBreaks => cases hBreaks
  | case5 calls a as hBreaks ih => exact absurd (by simp) hAsked
  | case6 calls a as b bs fault hCmp =>
      change [Note.asked (a, b)] = _ at hSplit
      rcases before with _ | ⟨first, rest⟩
      · cases hSplit
        exact due_first _ _ as bs _
      · simp at hSplit
  | case7 calls a as b bs order hCmp hLE ih =>
      rcases split_after_asked hSplit with ⟨rfl, hFirst⟩ | ⟨rest, rfl, hLater⟩
      · cases hFirst
        exact due_first _ _ as bs _
      · exact (ih hLater (questions_ne_nil_of_split hLater)).after_left (a, b)
  | case8 calls a as b bs order hCmp hGT ih =>
      rcases split_after_asked hSplit with ⟨rfl, hFirst⟩ | ⟨rest, rfl, hLater⟩
      · cases hFirst
        exact due_first _ _ as bs _
      · exact (ih hLater (questions_ne_nil_of_split hLater)).after_right (a, b)

end Course

/-- What a reading of a merge asks, beside the merge that is computed at once
with a comparator that has been called as often before. -/
structure InStep (cmp : Probe (α × α) Ordering) (calls : Nat) (as bs : List α)
    (eager : Finding (α × α) (List α)) (limit : Limit) (reading : Reading α α) : Prop where
  unlimited : limit = none → reading.questions = eager.calls
  answered : limit = none →
    (∀ n question, eager.calls[n]? = some question →
      ∃ order, cmp (calls + n + 1) question = .ok order) →
    eager.outcome = .ok reading.got ∧ reading.fault = none
  refused : limit = none → ∀ n question fault, eager.calls[n]? = some question →
    cmp (calls + n + 1) question = .error fault →
    eager.calls.length = n + 1 ∧ reading.questions.length = n + 1 ∧
      eager.outcome = .error fault ∧ reading.fault = some fault ∧ reading.got.length = n
  limited : ∀ k, limit = some k → 0 < k → reading.questions = eager.calls.take k
  due : limit ≠ some 0 → ∃ marks, reading.got <+: marks.map Prod.snd ∧
    ∀ before x y after, reading.notes = before ++ .event (.compared x y) :: after →
      Due as bs marks before x y

section InStep

variable {a b : Leaf} {cmp : Probe (α × α) Ordering} {calls : Nat} {as bs : List α}
  {limit : Limit} {reading : Reading α α}

/-- A reader who stays hears all that is said on the course, and one who quits
hears the beginning of it. -/
theorem Passage.dialogue_isPrefix {ahead : Course α} {past : List (Event α)}
    (hPassage : Passage a b true past ahead limit reading) (hLimit : limit ≠ some 0) :
    dialogue reading.notes <+: ahead.dialogue true ∧ reading.got <+: ahead.marks.map Prod.snd := by
  cases hPassage with
  | stayed hReached hQuit hGot hFault hDialogue hClosed =>
      rw [hDialogue, hGot]
      exact ⟨List.prefix_rfl, List.prefix_rfl⟩
  | @quit k _ hReached hQuit hGot hFault hDialogue hClosed =>
      have hPos : 1 ≤ k := Nat.one_le_iff_ne_zero.mpr fun hZero => hLimit (congrArg some hZero)
      rw [hDialogue hPos, hGot]
      refine ⟨?_, (List.take_prefix k ahead.marks).map Prod.snd⟩
      have hMoves : ahead.moves.flatMap (Move.dialogue true) =
          (ahead.moves.take k).flatMap (Move.dialogue true) ++
            (ahead.moves.drop k).flatMap (Move.dialogue true) := by
        rw [← List.flatMap_append, List.take_append_drop]
      rw [Course.dialogue, hMoves, List.append_assoc]
      exact List.prefix_append _ _

theorem Passage.of_unlimited {ahead : Course α} {past : List (Event α)}
    (hPassage : Passage a b true past ahead none reading) :
    reading.questions = ahead.questions ∧ reading.got = ahead.marks.map Prod.snd ∧
      reading.fault = ahead.halt.map (Interruption.fault a b) := by
  cases hPassage with
  | stayed hReached hQuit hGot hFault hDialogue hClosed =>
      refine ⟨?_, hGot, hFault⟩
      rw [Reading.questions, ← comparedIn_dialogue, hDialogue, Course.comparedIn_dialogue]

theorem Passage.of_limited {past : List (Event α)} {k : Nat} (hPos : 0 < k)
    (hPassage : Passage a b true past (course cmp (fun _ => false) calls as bs) (some k) reading) :
    reading.questions = (course cmp (fun _ => false) calls as bs).questions.take k := by
  rw [Reading.questions, ← comparedIn_dialogue]
  cases hPassage with
  | stayed hReached hQuit hGot hFault hDialogue hClosed =>
      have hMoves := hReached k rfl
      have hAll : (course cmp (fun _ => false) calls as bs).questions.length ≤ k := by
        have hQuestions : (course cmp (fun _ => false) calls as bs).questions.length ≤ _ :=
          length_questions_le
        omega
      rw [hDialogue, Course.comparedIn_dialogue, List.take_of_length_le hAll]
  | quit hReached hQuit hGot hFault hDialogue hClosed =>
      have hMoves : k ≤ (course cmp (fun _ => false) calls as bs).moves.length := by omega
      rw [hDialogue hPos, comparedIn_flatMap_dialogue, filterMap_take_moves hMoves]

/-- Notes that say nothing can stand between. -/
theorem Due.of_dialogue {marks : List (Side × α)} {before : List (Note α α)} {x y : α}
    (hDue : Due as bs marks (dialogue before) x y) : Due as bs marks before x y := by
  obtain ⟨hCount, hReceived, hLeft, hRight⟩ := hDue
  rw [receivedIn_dialogue, comparedIn_dialogue] at hCount hReceived
  rw [comparedIn_dialogue] at hLeft hRight
  exact ⟨hCount, hReceived, hLeft, hRight⟩

theorem Passage.inStep
    (hPassage : Passage a b true [] (course cmp (fun _ => false) calls as bs) limit reading) :
    InStep cmp calls as bs
      (mergeM (fun x y => Inquiry.ask (cmp.after calls) (x, y)) as bs).finding limit reading := by
  rw [mergeM_finding_eq_course]
  refine ⟨?_, ?_, ?_, ?_, ?_⟩
  · rintro rfl
    exact hPassage.of_unlimited.1
  · rintro rfl hAnswered
    obtain ⟨-, hGot, hFault⟩ := hPassage.of_unlimited
    have hHalt := halt_eq_none_of_answered hAnswered
    rw [hGot, hFault, Course.outcome, hHalt]
    exact ⟨rfl, rfl⟩
  · rintro rfl n question fault hQuestion hCmp
    obtain ⟨hQuestions, hGot, hFault⟩ := hPassage.of_unlimited
    obtain ⟨hHalt, hCalls, hMoves⟩ := halt_of_error hQuestion hCmp
    refine ⟨hCalls, hQuestions ▸ hCalls, ?_, ?_, ?_⟩
    · rw [Course.outcome, hHalt]
    · rw [hFault, hHalt]
      rfl
    · rw [hGot, List.length_map, Course.marks, List.length_map, hMoves]
  · rintro k rfl hPos
    exact hPassage.of_limited hPos
  · intro hLimit
    obtain ⟨⟨more, hDialogue⟩, hGot⟩ := hPassage.dialogue_isPrefix hLimit
    refine ⟨_, hGot, fun before x y after hNotes => ?_⟩
    have hSpoken : dialogue (.event (.compared x y) :: after) =
        Note.asked (x, y) :: dialogue after := rfl
    have hSplit : (course cmp (fun _ => false) calls as bs).dialogue true =
        dialogue before ++ Note.asked (x, y) :: (dialogue after ++ more) := by
      rw [← hDialogue, hNotes, dialogue_append, hSpoken, List.append_assoc, List.cons_append]
    exact (due_of_split hSplit).of_dialogue

end InStep

namespace Plan

/-- Merging at once and merging on demand keep in step, call by call. Later
readings find the comparator where the earlier ones have left it. -/
theorem readings_inStep {κ : Type} [BEq κ] (cmp : Probe (α × α) Ordering)
    (nameA nameB : String) (as bs : List α) (limits : List Limit) (index : Nat) (limit : Limit)
    (hLimit : limits[index]? = some limit) :
    let readings := (Plan.merge cmp true (.source nameA (.ofItems as none false))
      (.source nameB (.ofItems bs none false)) : Plan α κ).readings limits
    ∃ reading calls, readings[index]? = some reading ∧
      calls = ((readings.take index).flatMap Reading.questions).length ∧
      InStep cmp calls as bs
        (mergeM (fun x y => Inquiry.ask (cmp.after calls) (x, y)) as bs).finding limit reading := by
  intro readings
  have hReadings : (Plan.merge cmp true (.source nameA (.ofItems as none false))
      (.source nameB (.ofItems bs none false)) : Plan α κ).readings limits = readings := rfl
  obtain ⟨reading, calls, hReading, hCalls, hPassage⟩ := readings_passage rfl rfl hReadings hLimit
  have hBreaks : (fun side : Side => (side.pick (Source.ofItems as none false)
      (Source.ofItems bs none false)).breaks) = fun _ => false := by
    funext side
    cases side <;> rfl
  rw [hBreaks] at hPassage
  exact ⟨reading, calls, hReading, hCalls rfl, hPassage.inStep⟩

/-- A comparator that does not look at the elements: the right one is taken at
the second call and the left one otherwise, and the fourth call fails. -/
def fickle : Probe (UInt64 × UInt64) Ordering :=
  .interruptedAt (some 4) .comparator (.ofAnswers fun call _ => if call = 2 then .gt else .lt)

/-- The first reader quits after one question. For the second one the next
question is the comparator's second, and the third one from there fails. -/
theorem readings_fickle :
    let a : Leaf := ⟨"a", [.left]⟩
    let b : Leaf := ⟨"b", [.right]⟩
    let plan : Plan UInt64 Value := .merge fickle true (.source "a" (.ofItems [3, 1] none false))
      (.source "b" (.ofItems [2, 2] none false))
    let opening : List (Note UInt64 UInt64) := [.event (.started a), .event (.emitted a 3),
      .event (.started b), .event (.emitted b 2), .event (.compared 3 2)]
    let cut : Reading UInt64 UInt64 :=
      ⟨[3], opening ++ [.received 3, .quit, .event (.stopped b), .event (.stopped a)], none⟩
    let refused : Reading UInt64 UInt64 := ⟨[2, 3], opening ++ [.received 2,
      .event (.emitted b 2), .event (.compared 3 2), .received 3, .event (.emitted a 1),
      .event (.compared 1 2), .event (.stopped b), .event (.stopped a)], some (.comparator 4)⟩
    let eager (calls : Nat) : Finding (UInt64 × UInt64) (List UInt64) :=
      (mergeM (fun x y => Inquiry.ask (fickle.after calls) (x, y)) [3, 1] [2, 2]).finding
    plan.readings [some 1, none] = [cut, refused] ∧
      InStep fickle 0 [3, 1] [2, 2] (eager 0) (some 1) cut ∧
      InStep fickle 1 [3, 1] [2, 2] (eager 1) none refused ∧
      (eager 0).calls.take 1 = [(3, 2)] ∧ (eager 1).calls = [(3, 2), (3, 2), (1, 2)] ∧
      (eager 1).outcome = .error (.comparator 4) := by
  intro a b plan opening cut refused eager
  have hReadings : plan.readings [some 1, none] = [cut, refused] := by
    simp only [readings, Feed.visits, Feed.visitsFrom]
    rw [Feed.visitFrom_of_item_one (x := 3) rfl,
      Feed.visitFrom_of_item_more (x := 2) none (by simp) rfl, Option.map_none,
      Feed.visitFrom_of_item_more (x := 3) none (by simp) rfl, Option.map_none,
      Feed.visitFrom_of_failed none rfl]
    rfl
  have hInStep := readings_inStep (κ := Value) fickle "a" "b" [3, 1] [2, 2] [some 1, none]
  change ∀ index limit, _ → ∃ reading calls, (plan.readings _)[index]? = some reading ∧
    calls = (((plan.readings _).take index).flatMap Reading.questions).length ∧ _ at hInStep
  rw [hReadings] at hInStep
  obtain ⟨_, _, hFirst, hNone, hCut⟩ := hInStep 0 (some 1) rfl
  obtain ⟨_, _, hSecond, hOne, hLater⟩ := hInStep 1 none rfl
  cases hFirst
  cases hSecond
  cases hNone
  cases hOne
  have hRefused : InStep fickle 1 [3, 1] [2, 2] (eager 1) none refused := hLater
  have hCalls : (eager 1).calls = [(3, 2), (3, 2), (1, 2)] := (hRefused.unlimited rfl).symm
  have hQuestion : (eager 1).calls[2]? = some (1, 2) := by
    rw [hCalls]
    rfl
  obtain ⟨-, -, hFault, -, -⟩ := hRefused.refused rfl 2 (1, 2) (.comparator 4) hQuestion rfl
  exact ⟨hReadings, hCut, hRefused, (hCut.limited 1 rfl (by decide)).symm, hCalls, hFault⟩

end Plan

end Sequences
