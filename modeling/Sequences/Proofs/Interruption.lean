import Sequences.Element.Basic
import Sequences.Proofs.Questions
import Sequences.Proofs.Unnoted

/-! What a merge of two inputs keeps to when it is cut short. Each input may
break off at a position, the comparator may give up, and the reader may quit.
What was received by then is a beginning of the merge of all items, and both
inputs are closed. If it was an input that broke off, its last item is the
last one received. A comparator that gave up did so at the last of its calls,
so one that would give up later makes no difference. -/
namespace Sequences

variable {α χ γ : Type}

/-- The probe gives these answers, unless it gives up. -/
def Probe.Follows (probe : Probe χ γ) (answers : Nat → χ → γ) : Prop :=
  ∀ call question answer, probe call question = .ok answer → answer = answers call question

theorem Probe.follows_interruptedAt (failAt : Option Nat) (cause : Nat → Fault)
    (answers : Nat → χ → γ) :
    ((Probe.ofAnswers answers).interruptedAt failAt cause).Follows answers := by
  intro call question answer hAnswer
  unfold interruptedAt at hAnswer
  split at hAnswer
  · cases hAnswer
  · exact (Except.ok.inj hAnswer).symm

/-- The probe answers these questions, which are put after so many others. -/
def Probe.Answered (probe : Probe χ γ) (calls : Nat) (questions : List χ) : Prop :=
  ∀ n question, questions[n]? = some question →
    ∃ answer, probe (calls + n + 1) question = .ok answer

theorem Probe.Answered.nil {probe : Probe χ γ} {calls : Nat} : probe.Answered calls [] := by
  intro n question hQuestion
  cases hQuestion

theorem Probe.Answered.cons {probe : Probe χ γ} {calls : Nat} {question : χ} {answer : γ}
    {questions : List χ} (hFirst : probe (calls + 1) question = .ok answer)
    (hLater : probe.Answered (calls + 1) questions) :
    probe.Answered calls (question :: questions) := by
  intro n other hOther
  cases n with
  | zero =>
      cases hOther
      exact ⟨answer, hFirst⟩
  | succ n =>
      obtain ⟨later, hAnswer⟩ := hLater n other hOther
      exact ⟨later, by rwa [show calls + (n + 1) + 1 = calls + 1 + n + 1 by omega]⟩

/-- Every move was decided by an answer. -/
theorem answered_moves {cmp : Probe (α × α) Ordering} {breaks : Side → Bool} {calls : Nat}
    {as bs : List α} :
    cmp.Answered calls ((course cmp breaks calls as bs).moves.filterMap Move.asked) := by
  fun_induction course cmp breaks calls as bs with
  | case1 calls => exact .nil
  | case2 calls b bs hBreaks => exact .nil
  | case3 calls b bs hBreaks ih => exact ih
  | case4 calls a as hBreaks => exact .nil
  | case5 calls a as hBreaks ih => exact ih
  | case6 calls a as b bs fault hCmp => exact .nil
  | case7 calls a as b bs order hCmp hLE ih => exact .cons hCmp ih
  | case8 calls a as b bs order hCmp hGT ih => exact .cons hCmp ih

namespace Source

variable {items : List α} {failAt : Option Int} {singleUse : Bool}

theorem singleUse_ofItems : (ofItems items failAt singleUse).singleUse = singleUse := by
  unfold ofItems
  split
  · rfl
  · split <;> rfl

/-- An input that breaks does so at a position among its items or right behind
the last. -/
theorem exists_position_of_breaks (hBreaks : (ofItems items failAt singleUse).breaks = true) :
    ∃ position : Nat, failAt = some (position : Int) ∧ position ≤ items.length ∧
      (ofItems items failAt singleUse).items = items.take position := by
  unfold ofItems at hBreaks ⊢
  split at hBreaks
  · cases hBreaks
  next position =>
    split at hBreaks
    next hInside =>
      refine ⟨position.toNat, by simp [hInside.1], by omega, ?_⟩
      rw [if_pos hInside]
    next => cases hBreaks

theorem items_of_breaks_eq_false (hBreaks : (ofItems items failAt singleUse).breaks = false) :
    (ofItems items failAt singleUse).items = items ∧
      ∀ position : Nat, failAt = some (position : Int) → items.length < position := by
  unfold ofItems at hBreaks ⊢
  split at hBreaks
  next => exact ⟨rfl, fun position hPosition => nomatch hPosition⟩
  next place =>
    split at hBreaks
    next => cases hBreaks
    next hOutside =>
      refine ⟨by rw [if_neg hOutside], fun position hPosition => ?_⟩
      cases hPosition
      omega

theorem items_isPrefix : (ofItems items failAt singleUse).items <+: items := by
  cases hBreaks : (ofItems items failAt singleUse).breaks with
  | false => rw [(items_of_breaks_eq_false hBreaks).1]
  | true =>
      obtain ⟨position, -, -, hItems⟩ := exists_position_of_breaks hBreaks
      rw [hItems]
      exact List.take_prefix position items

end Source

section Whole

variable (answers : Nat → α × α → Ordering) (calls : Nat) (as bs : List α)

/-- The merge of all items, each marked with its input, under a comparator that
always answers. -/
def wholeMerge : List (Side × α) :=
  (course (Probe.ofAnswers answers) (fun _ => false) calls as bs).marks

theorem mergeM_eq_wholeMerge :
    (mergeM (fun x y => Inquiry.ask ((Probe.ofAnswers answers).after calls) (x, y)) as
      bs).finding.outcome = .ok ((wholeMerge answers calls as bs).map Prod.snd) := by
  rw [mergeM_finding_eq_course]
  simp only [Course.outcome, halt_eq_none]
  rfl

/-- Marks that the lists carry from the beginning come out the same. -/
theorem mergeM_marked_eq_wholeMerge :
    (mergeM (fun x y => Inquiry.ask ((Probe.ofAnswers answers).unmarked.after calls) (x, y))
      (marked .left as) (marked .right bs)).finding.outcome =
        .ok (wholeMerge answers calls as bs) := by
  have hUnmarked : (Probe.ofAnswers answers).unmarked = Probe.ofAnswers fun call question =>
    answers call (question.1.2, question.2.2) := rfl
  rw [mergeM_finding_eq_course, wholeMerge, ← course_marked, hUnmarked]
  simp only [Course.outcome, halt_eq_none]

end Whole

/-- What ended a reading of a merge, and how far it had come. The list `whole`
is the merge of all items, with marks. The comparator was asked `questions` in
this reading, and so many others in those before. -/
inductive Ending (a b : Leaf) (as bs : List α) (failA failB : Option Int)
    (cmp : Probe (α × α) Ordering) (calls : Nat) (questions : List (α × α))
    (whole : List (Side × α)) (limit : Limit) (reading : Reading α α) : Prop where
  /-- There was nothing to fail, and all items were received. -/
  | exhausted (hStayed : .quit ∉ reading.notes) (hFault : reading.fault = none)
      (hFailed : ∀ side : Side, .failed (side.pick a b) ∉ eventsIn reading.notes)
      (hOutside : ∀ (side : Side) (position : Nat), side.pick failA failB = some (position : Int) →
        (side.pick as bs).length < position)
      (hAnswered : cmp.Answered calls questions) (hGot : reading.got = whole.map Prod.snd)
  | quit {k : Nat} (hLimit : limit = some k) (hQuit : .quit ∈ reading.notes)
      (hFault : reading.fault = none)
      (hFailed : ∀ side : Side, .failed (side.pick a b) ∉ eventsIn reading.notes)
      (hGot : reading.got.length = k)
  /-- One input broke off at its position. All its items up to there were
  received, and the last of them was the last of all. -/
  | input (side : Side) {position : Nat} {marks : List (Side × α)}
      (hStayed : .quit ∉ reading.notes)
      (hFault : reading.fault = some (.source (side.pick a b).name))
      (hFailed : ∀ other : Side,
        .failed (other.pick a b) ∈ eventsIn reading.notes ↔ other = side)
      (hAnswered : cmp.Answered calls questions)
      (hPosition : side.pick failA failB = some (position : Int))
      (hInside : position ≤ (side.pick as bs).length)
      (hMarks : marks <+: whole) (hGot : reading.got = marks.map Prod.snd)
      (hTaken : taken side marks = (side.pick as bs).take position)
      (hLast : 0 < position →
        marks.getLast? = (side.pick as bs)[position - 1]?.map (Prod.mk side))
  /-- The comparator gave up at the last question, and only there. -/
  | comparator {earlier : List (α × α)} {x y : α} {fault : Fault}
      (hStayed : .quit ∉ reading.notes) (hFault : reading.fault = some fault)
      (hFailed : ∀ side : Side, .failed (side.pick a b) ∉ eventsIn reading.notes)
      (hQuestions : questions = earlier ++ [(x, y)]) (hAnswered : cmp.Answered calls earlier)
      (hRefused : cmp (calls + questions.length) (x, y) = .error fault)

/-- A reading of a merge that is over, by whatever it was ended. -/
structure Settled (a b : Leaf) (as bs : List α) (failA failB : Option Int)
    (cmp : Probe (α × α) Ordering) (calls : Nat) (questions : List (α × α))
    (whole : List (Side × α)) (limit : Limit) (reading : Reading α α) : Prop where
  got : reading.got <+: whole.map Prod.snd
  /-- An input has no events at all, or one start and, as its last event, one
  end, stop or failure. -/
  finished : ∀ side : Side, Finished (side.pick a b) ((side.pick a b).own (eventsIn reading.notes))
  /-- The right input is left alone only if the left one fails before its first
  item. -/
  untouched : b.own (eventsIn reading.notes) = [] →
    a.own (eventsIn reading.notes) = [.started a, .failed a]
  /-- If both are stopped, the right one is stopped before the left one. -/
  stops : .stopped a ∈ eventsIn reading.notes → .stopped b ∈ eventsIn reading.notes →
    ∃ before, eventsIn reading.notes = before ++ [.stopped b, .stopped a]
  ending : Ending a b as bs failA failB cmp calls questions whole limit reading
  /-- If nothing else fails and the reader does not quit, an input that breaks off
  behind an item ends the reading with this item. -/
  lost : ∀ (side : Side) (position : Nat), side.pick failA failB = some (position : Int) →
    position ≤ (side.pick as bs).length → .quit ∉ reading.notes →
    (∀ other : Side, other ≠ side → .failed (other.pick a b) ∉ eventsIn reading.notes) →
    cmp.Answered calls questions →
    reading.fault = some (.source (side.pick a b).name) ∧
      ∃ marks, marks <+: whole ∧ reading.got = marks.map Prod.snd ∧
        taken side marks = (side.pick as bs).take position ∧
        (0 < position → marks.getLast? = (side.pick as bs)[position - 1]?.map (Prod.mk side))

section Settled

variable {a b : Leaf} {as bs : List α} {failA failB : Option Int}
  {cmp : Probe (α × α) Ordering} {answers : Nat → α × α → Ordering}

/-- The course of the items that are met, each list breaking off at its failing
position. -/
def brokenCourse (cmp : Probe (α × α) Ordering) (as bs : List α) (failA failB : Option Int)
    (calls : Nat) : Course α :=
  course cmp (fun side => (Source.ofItems (side.pick as bs) (side.pick failA failB) false).breaks)
    calls (Source.ofItems as failA false).items (Source.ofItems bs failB false).items

theorem brokenCourse_marks_isPrefix (hCmp : cmp.Follows answers) (as bs : List α)
    (failA failB : Option Int) (calls : Nat) :
    (brokenCourse cmp as bs failA failB calls).marks <+: wholeMerge answers calls as bs := by
  refine List.IsPrefix.map Move.mark (moves_isPrefix hCmp Source.items_isPrefix
    Source.items_isPrefix ?_ ?_)
  · intro hBreaks
    exact (Source.items_of_breaks_eq_false hBreaks).1
  · intro hBreaks
    exact (Source.items_of_breaks_eq_false hBreaks).1

/-- Without an interruption both lists were whole, and so is what was taken. -/
theorem brokenCourse_of_halt_eq_none (hCmp : cmp.Follows answers) {calls : Nat}
    (hHalt : (brokenCourse cmp as bs failA failB calls).halt = none) :
    (brokenCourse cmp as bs failA failB calls).marks = wholeMerge answers calls as bs ∧
      ∀ (side : Side) (position : Nat), side.pick failA failB = some (position : Int) →
        (side.pick as bs).length < position := by
  have hSound (side : Side) := Source.items_of_breaks_eq_false (breaks_of_halt_eq_none hHalt side)
  refine ⟨?_, fun side => (hSound side).2⟩
  refine (brokenCourse_marks_isPrefix hCmp as bs failA failB calls).eq_of_length ?_
  rw [wholeMerge, Course.marks, Course.marks, List.length_map, List.length_map,
    length_moves_of_halt_eq_none (halt_eq_none answers calls as bs), brokenCourse,
    length_moves_of_halt_eq_none hHalt]
  rw [show (Source.ofItems as failA false).items = as from (hSound .left).1,
    show (Source.ofItems bs failB false).items = bs from (hSound .right).1]

/-- A list that breaks off was taken up to its failing position. -/
theorem brokenCourse_of_input {side : Side} {calls : Nat}
    (hHalt : (brokenCourse cmp as bs failA failB calls).halt = some (.input side)) :
    ∃ position : Nat, side.pick failA failB = some (position : Int) ∧
      position ≤ (side.pick as bs).length ∧
      taken side (brokenCourse cmp as bs failA failB calls).marks =
        (side.pick as bs).take position ∧
      (0 < position → (brokenCourse cmp as bs failA failB calls).marks.getLast? =
        (side.pick as bs)[position - 1]?.map (Prod.mk side)) := by
  obtain ⟨hBreaks, hTaken, hLast⟩ := taken_of_halt hHalt
  obtain ⟨position, hPosition, hInside, hItems⟩ := Source.exists_position_of_breaks hBreaks
  have hPick : side.pick (Source.ofItems as failA false).items
      (Source.ofItems bs failB false).items = (side.pick as bs).take position := by
    rw [← hItems]
    cases side <;> rfl
  rw [hPick] at hTaken hLast
  refine ⟨position, hPosition, hInside, hTaken, fun hPos => hLast.trans ?_⟩
  rw [List.getLast?_take, if_neg (by omega), List.getElem?_eq_getElem (by omega)]
  rfl

theorem Course.questions_of_halt_ne_comparator {course : Course α}
    (hHalt : ∀ x y fault, course.halt ≠ some (.comparator x y fault)) :
    course.questions = course.moves.filterMap Move.asked := by
  rw [questions, lastQuestion]
  split
  next x y fault hComparator => exact absurd hComparator (hHalt x y fault)
  next => exact List.append_nil _

variable {calls : Nat} {limit : Limit} {reading : Reading α α}

theorem Passage.ending (hCmp : cmp.Follows answers)
    (hPassage : Passage a b true [] (brokenCourse cmp as bs failA failB calls) limit reading) :
    Ending a b as bs failA failB cmp calls reading.questions (wholeMerge answers calls as bs) limit
      reading := by
  cases hPassage with
  | stayed hLimit hQuit hGot hFault hDialogue hClosed =>
      have hQuestions : reading.questions =
          (brokenCourse cmp as bs failA failB calls).questions := by
        rw [Reading.questions, ← comparedIn_dialogue, hDialogue, Course.comparedIn_dialogue]
      have hMoves : cmp.Answered calls
          ((brokenCourse cmp as bs failA failB calls).moves.filterMap Move.asked) := answered_moves
      rw [hQuestions]
      cases hHalt : (brokenCourse cmp as bs failA failB calls).halt with
      | none =>
          obtain ⟨hMarks, hOutside⟩ := brokenCourse_of_halt_eq_none hCmp hHalt
          rw [hHalt] at hFault hClosed
          rw [Course.questions_of_halt_ne_comparator (by simp [hHalt])]
          refine .exhausted hQuit hFault (fun side hFailed => ?_) hOutside hMoves (hMarks ▸ hGot)
          cases (hClosed.failed_iff side).mp hFailed
      | some halt =>
          rw [hHalt] at hFault hClosed
          cases halt with
          | input side =>
              obtain ⟨position, hPosition, hInside, hTaken, hLast⟩ := brokenCourse_of_input hHalt
              rw [Course.questions_of_halt_ne_comparator (by simp [hHalt])]
              refine .input side hQuit hFault (fun other => ?_) hMoves hPosition hInside
                (brokenCourse_marks_isPrefix hCmp as bs failA failB calls) hGot hTaken hLast
              refine (hClosed.failed_iff other).trans ?_
              simp [eq_comm]
          | comparator x y fault =>
              refine .comparator hQuit hFault (fun side hFailed => ?_) ?_ hMoves
                (error_of_halt hHalt)
              · cases (hClosed.failed_iff side).mp hFailed
              · rw [Course.questions, Course.lastQuestion, hHalt]
  | @quit k _ hLimit hQuit hGot hFault hDialogue hClosed =>
      refine .quit rfl hQuit hFault (fun side hFailed => ?_) ?_
      · cases (hClosed.failed_iff side).mp hFailed
      · rw [hGot, List.length_map, List.length_take, Course.marks, List.length_map]
        omega

/-- Each of the other endings has a cause that was excluded. -/
theorem Ending.lost {questions : List (α × α)} {whole : List (Side × α)}
    (hEnding : Ending a b as bs failA failB cmp calls questions whole limit reading) (side : Side)
    (position : Nat) (hPosition : side.pick failA failB = some (position : Int))
    (hInside : position ≤ (side.pick as bs).length) (hStayed : .quit ∉ reading.notes)
    (hOther : ∀ other : Side, other ≠ side → .failed (other.pick a b) ∉ eventsIn reading.notes)
    (hAnswered : cmp.Answered calls questions) :
    reading.fault = some (.source (side.pick a b).name) ∧
      ∃ marks, marks <+: whole ∧ reading.got = marks.map Prod.snd ∧
        taken side marks = (side.pick as bs).take position ∧
        (0 < position →
          marks.getLast? = (side.pick as bs)[position - 1]?.map (Prod.mk side)) := by
  cases hEnding with
  | exhausted _ hFault hFailed hOutside _ hGot =>
      have hBehind := hOutside side position hPosition
      omega
  | quit hLimit hQuit => exact absurd hQuit hStayed
  | @input broken place marks _ hFault hFailed _ hPlace hWithin hMarks hGot hTaken hLast =>
      obtain rfl : broken = side := by
        by_contra hApart
        exact hOther broken hApart ((hFailed broken).mpr rfl)
      obtain rfl : place = position := by
        rw [hPlace] at hPosition
        exact_mod_cast Option.some.inj hPosition
      exact ⟨hFault, marks, hMarks, hGot, hTaken, hLast⟩
  | @comparator earlier x y fault _ hFault hFailed hQuestions _ hRefused =>
      subst hQuestions
      obtain ⟨order, hOrder⟩ := hAnswered earlier.length (x, y) List.getElem?_concat_length
      rw [List.length_append] at hRefused
      cases hRefused.symm.trans hOrder

theorem Passage.settled (hCmp : cmp.Follows answers)
    (hPassage : Passage a b true [] (brokenCourse cmp as bs failA failB calls) limit reading) :
    Settled a b as bs failA failB cmp calls reading.questions (wholeMerge answers calls as bs) limit
      reading := by
  have hMarks := brokenCourse_marks_isPrefix hCmp as bs failA failB calls
  have hEnding := hPassage.ending hCmp
  cases hPassage with
  | stayed hLimit hQuit hGot hFault hDialogue hClosed =>
      rw [List.nil_append] at hClosed
      exact ⟨hGot ▸ hMarks.map Prod.snd, hClosed.finished, hClosed.silent, hClosed.stops, hEnding,
        hEnding.lost⟩
  | @quit k _ hLimit hQuit hGot hFault hDialogue hClosed =>
      rw [List.nil_append] at hClosed
      have hTake := (List.take_prefix k _).trans hMarks
      exact ⟨hGot ▸ hTake.map Prod.snd, hClosed.finished, hClosed.silent, hClosed.stops, hEnding,
        hEnding.lost⟩

section Silent

variable {questions : List (α × α)} {whole : List (Side × α)}

theorem failed_mem_silent {leaf : Leaf} :
    .failed leaf ∈ eventsIn reading.silent.notes ↔ .failed leaf ∈ eventsIn reading.notes := by
  rw [Reading.silent, eventsIn_unaskedNotes, mem_unasked_iff rfl]

theorem Ending.silent
    (hEnding : Ending a b as bs failA failB cmp calls questions whole limit reading) :
    Ending a b as bs failA failB cmp calls questions whole limit reading.silent := by
  cases hEnding with
  | exhausted hStayed hFault hFailed hOutside hAnswered hGot =>
      exact .exhausted (mt quit_mem_unaskedNotes.mp hStayed) hFault
        (fun side => mt failed_mem_silent.mp (hFailed side)) hOutside hAnswered hGot
  | quit hLimit hQuit hFault hFailed hGot =>
      exact .quit hLimit (quit_mem_unaskedNotes.mpr hQuit) hFault
        (fun side => mt failed_mem_silent.mp (hFailed side)) hGot
  | input side hStayed hFault hFailed hAnswered hPosition hInside hMarks hGot hTaken hLast =>
      exact .input side (mt quit_mem_unaskedNotes.mp hStayed) hFault
        (fun other => failed_mem_silent.trans (hFailed other)) hAnswered hPosition hInside hMarks
        hGot hTaken hLast
  | comparator hStayed hFault hFailed hQuestions hAnswered hRefused =>
      exact .comparator (mt quit_mem_unaskedNotes.mp hStayed) hFault
        (fun side => mt failed_mem_silent.mp (hFailed side)) hQuestions hAnswered hRefused

/-- A reading stays settled if its questions are not noted. -/
theorem Settled.silent
    (hSettled : Settled a b as bs failA failB cmp calls questions whole limit reading) :
    Settled a b as bs failA failB cmp calls questions whole limit reading.silent := by
  have hOwn (leaf : Leaf) : leaf.own (eventsIn reading.silent.notes) =
      leaf.own (eventsIn reading.notes) := by
    rw [Reading.silent, eventsIn_unaskedNotes, own_unasked]
  refine ⟨hSettled.got, fun side => ?_, ?_, ?_, hSettled.ending.silent,
    hSettled.ending.silent.lost⟩
  · rw [hOwn]
    exact hSettled.finished side
  · rw [hOwn, hOwn]
    exact hSettled.untouched
  · intro hStopA hStopB
    rw [Reading.silent, eventsIn_unaskedNotes] at hStopA hStopB ⊢
    obtain ⟨before, hBefore⟩ := hSettled.stops ((mem_unasked_iff rfl).mp hStopA)
      ((mem_unasked_iff rfl).mp hStopB)
    exact ⟨unasked before, by rw [hBefore, unasked_append]; rfl⟩

end Silent

end Settled

namespace Plan

/-- Every reading of a merge of two inputs is settled, whichever of the inputs
breaks off, whenever the comparator gives up and wherever the reader quits. The
marks tell equal items of the two inputs apart, and the comparator does not see
them. What the comparator was asked is known from the readings in which it is
noted, and whether it is noted makes no other difference. -/
theorem readings_settled {κ : Type} [BEq κ] {cmp : Probe (α × α) Ordering}
    {answers : Nat → α × α → Ordering} (hCmp : cmp.Follows answers) (noted : Bool)
    (nameA nameB : String) (as bs : List α) (failA failB : Option Int) (limits : List Limit)
    (index : Nat) (limit : Limit) (hLimit : limits[index]? = some limit) :
    let plan (noted : Bool) : Plan α κ := .merge cmp noted
      (.source nameA (.ofItems as failA false)) (.source nameB (.ofItems bs failB false))
    ∃ reading full calls whole, ((plan noted).readings limits)[index]? = some reading ∧
      ((plan true).readings limits)[index]? = some full ∧
      reading = (if noted then full else full.silent) ∧
      calls = ((((plan true).readings limits).take index).flatMap Reading.questions).length ∧
      (mergeM (fun x y => Inquiry.ask ((Probe.ofAnswers answers).unmarked.after calls) (x, y))
        (marked .left as) (marked .right bs)).finding.outcome = .ok whole ∧
      (mergeM (fun x y => Inquiry.ask ((Probe.ofAnswers answers).after calls) (x, y)) as
        bs).finding.outcome = .ok (whole.map Prod.snd) ∧
      Settled ⟨nameA, [.left]⟩ ⟨nameB, [.right]⟩ as bs failA failB cmp calls full.questions whole
        limit reading := by
  intro plan
  have hReadings : (plan true).readings limits = _ := rfl
  obtain ⟨full, calls, hFull, hCalls, hPassage⟩ := readings_passage
    Source.singleUse_ofItems Source.singleUse_ofItems hReadings hLimit
  have hCourse : course cmp (fun side : Side => (side.pick (Source.ofItems as failA false)
      (Source.ofItems bs failB false)).breaks) calls (Source.ofItems as failA false).items
      (Source.ofItems bs failB false).items = brokenCourse cmp as bs failA failB calls := by
    unfold brokenCourse
    congr 1
    funext side
    cases side <;> rfl
  rw [hCourse] at hPassage
  have hSettled := hPassage.settled hCmp
  refine ⟨if noted then full else full.silent, full, calls, wholeMerge answers calls as bs, ?_,
    hFull, rfl, hCalls rfl, mergeM_marked_eq_wholeMerge answers calls as bs,
    mergeM_eq_wholeMerge answers calls as bs, ?_⟩
  · cases noted with
    | true => exact hFull
    | false =>
        rw [readings_unnoted cmp nameA nameB Source.singleUse_ofItems Source.singleUse_ofItems,
          List.getElem?_map, hFull]
        rfl
  · cases noted with
    | true => exact hSettled
    | false => exact hSettled.silent

/-- The left input breaks off behind its first item, and the comparator gives up
at its third call. -/
def brokenMerge : Plan UInt64 Value :=
  .merge (comparisonProbe (some 3) compare) true (.source "a" (.ofItems [1, 5] (some 1) false))
    (.source "b" (.ofItems [2, 3] none false))

/-- The first reader loses the left input, the second one quits, and the third
one loses the comparator, which was asked twice before. -/
theorem readings_brokenMerge :
    let a : Leaf := ⟨"a", [.left]⟩
    let b : Leaf := ⟨"b", [.right]⟩
    let cmp : Probe (UInt64 × UInt64) Ordering := comparisonProbe (some 3) compare
    let answers : Nat → UInt64 × UInt64 → Ordering := fun _ question =>
      compare question.1 question.2
    let opening : List (Note UInt64 UInt64) := [.event (.started a), .event (.emitted a 1),
      .event (.started b), .event (.emitted b 2), .event (.compared 1 2)]
    let broken : Reading UInt64 UInt64 := ⟨[1], opening ++ [.received 1, .event (.failed a),
      .event (.stopped b)], some (.source "a")⟩
    let cut : Reading UInt64 UInt64 := ⟨[1], opening ++ [.received 1, .quit,
      .event (.stopped b), .event (.stopped a)], none⟩
    let refused : Reading UInt64 UInt64 := ⟨[], opening ++ [.event (.stopped b),
      .event (.stopped a)], some (.comparator 3)⟩
    cmp.Follows answers ∧ brokenMerge.readings [none, some 1, none] = [broken, cut, refused] ∧
      (∃ whole, (mergeM (fun x y => Inquiry.ask ((Probe.ofAnswers answers).after 0) (x, y)) [1, 5]
          [2, 3]).finding.outcome = .ok (whole.map Prod.snd) ∧
        Settled a b [1, 5] [2, 3] (some 1) none cmp 0 [(1, 2)] whole none broken) ∧
      ∃ whole, (mergeM (fun x y => Inquiry.ask ((Probe.ofAnswers answers).after 2) (x, y)) [1, 5]
          [2, 3]).finding.outcome = .ok (whole.map Prod.snd) ∧
        Settled a b [1, 5] [2, 3] (some 1) none cmp 2 [(1, 2)] whole none refused := by
  intro a b cmp answers opening broken cut refused
  have hCmp : cmp.Follows answers := Probe.follows_interruptedAt (some 3) .comparator answers
  have hReadings : brokenMerge.readings [none, some 1, none] = [broken, cut, refused] := by
    simp only [readings, Feed.visits, Feed.visitsFrom]
    rw [Feed.visitFrom_of_item_more (x := 1) none (by simp) rfl, Option.map_none,
      Feed.visitFrom_of_failed none rfl, Feed.visitFrom_of_item_one (x := 1) rfl,
      Feed.visitFrom_of_failed none rfl]
    rfl
  have hSettled := readings_settled (κ := Value) hCmp true "a" "b" [1, 5] [2, 3] (some 1) none
    [none, some 1, none]
  change ∀ index limit, _ → ∃ reading full calls whole, _ ∧
    (brokenMerge.readings _)[index]? = some full ∧ _ ∧
    calls = (((brokenMerge.readings _).take index).flatMap Reading.questions).length ∧ _
    at hSettled
  rw [hReadings] at hSettled
  obtain ⟨_, _, _, whole, -, hFirst, rfl, rfl, -, hWhole, hBroken⟩ := hSettled 0 none rfl
  obtain ⟨_, _, _, later, -, hThird, rfl, rfl, -, hLater, hRefused⟩ := hSettled 2 none rfl
  cases hFirst
  cases hThird
  exact ⟨hCmp, hReadings, ⟨whole, hWhole, hBroken⟩, later, hLater, hRefused⟩

end Plan

end Sequences
