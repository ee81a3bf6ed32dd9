import Sequences.Feed.Event
import Sequences.Proofs.Eager

/-! How the merging of two lists goes, move by move. Each move takes one element
and may have asked the comparator before. A course also covers lists that
break off, and comparators that give up, so that it can describe a merge that
is read on demand as well as one that is computed at once. The course says
nothing about who reads the lists and when. -/
namespace Sequences

variable {α χ γ : Type}

/-- One of two things, by the side. -/
def Side.pick (side : Side) (left right : γ) : γ :=
  match side with
  | .left => left
  | .right => right

/-- The probe of a caller who has put so many questions before. -/
def Probe.after (calls : Nat) (probe : Probe χ γ) : Probe χ γ :=
  fun call question => probe (calls + call) question

/-- A probe that never gives up, whatever its answers depend on. -/
def Probe.ofAnswers (answers : Nat → χ → γ) : Probe χ γ :=
  fun call question => .ok (answers call question)

/-- One element that is taken, marked with the list that it comes from, and the
question that decided it. -/
structure Move (α : Type) where
  mark : Side × α
  asked : Option (α × α)

/-- Why no further element is taken although there may be some. -/
inductive Interruption (α : Type) where
  /-- The list of this side breaks off. -/
  | input (side : Side)
  /-- The comparator gave up at this question. -/
  | comparator (x y : α) (fault : Fault)

structure Course (α : Type) where
  moves : List (Move α)
  halt : Option (Interruption α)

namespace Course

/-- The course with one more move in front. -/
def after (move : Move α) (course : Course α) : Course α :=
  { course with moves := move :: course.moves }

/-- The elements in the order in which they are taken, with their marks. -/
def marks (course : Course α) : List (Side × α) := course.moves.map Move.mark

/-- The question that interrupted the course. -/
def lastQuestion (course : Course α) : List (α × α) :=
  match course.halt with
  | some (.comparator x y _) => [(x, y)]
  | _ => []

def questions (course : Course α) : List (α × α) :=
  course.moves.filterMap Move.asked ++ course.lastQuestion

@[simp]
theorem moves_after (move : Move α) (course : Course α) :
    (course.after move).moves = move :: course.moves := rfl

@[simp]
theorem marks_after (move : Move α) (course : Course α) :
    (course.after move).marks = move.mark :: course.marks := rfl

@[simp]
theorem halt_after (move : Move α) (course : Course α) :
    (course.after move).halt = course.halt := rfl

@[simp]
theorem questions_after (move : Move α) (course : Course α) :
    (course.after move).questions = move.asked.toList ++ course.questions := by
  cases hAsked : move.asked <;> simp [questions, after, lastQuestion, hAsked]

end Course

/-- The course of merging two lists, each of which may break off at its end. The
comparator has been called before, so many times. -/
def course (cmp : Probe (α × α) Ordering) (breaks : Side → Bool) :
    Nat → List α → List α → Course α
  | _, [], [] =>
    ⟨[], if breaks .left then some (.input .left)
      else if breaks .right then some (.input .right) else none⟩
  | calls, [], b :: bs =>
    if breaks .left then ⟨[], some (.input .left)⟩
    else (course cmp breaks calls [] bs).after ⟨(.right, b), none⟩
  | calls, a :: as, [] =>
    if breaks .right then ⟨[], some (.input .right)⟩
    else (course cmp breaks calls as []).after ⟨(.left, a), none⟩
  | calls, a :: as, b :: bs =>
    match cmp (calls + 1) (a, b) with
    | .error fault => ⟨[], some (.comparator a b fault)⟩
    | .ok order =>
      if order.isLE then
        (course cmp breaks (calls + 1) as (b :: bs)).after ⟨(.left, a), some (a, b)⟩
      else (course cmp breaks (calls + 1) (a :: as) bs).after ⟨(.right, b), some (a, b)⟩
termination_by _ as bs => as.length + bs.length

/-- The elements that were taken from one of the lists. -/
def taken (side : Side) (marks : List (Side × α)) : List α :=
  marks.filterMap fun mark => if mark.1 = side then some mark.2 else none

@[simp]
theorem taken_nil (side : Side) : taken side ([] : List (Side × α)) = [] := rfl

@[simp]
theorem taken_cons (side : Side) (mark : Side × α) (marks : List (Side × α)) :
    taken side (mark :: marks) =
      if mark.1 = side then mark.2 :: taken side marks else taken side marks := by
  unfold taken
  split
  next hSide => rw [List.filterMap_cons_some (by rw [if_pos hSide])]
  next hSide => rw [List.filterMap_cons_none (by rw [if_neg hSide])]

section Course

variable {cmp : Probe (α × α) Ordering} {breaks : Side → Bool} {calls : Nat} {as bs : List α}

/-- A list that breaks off was taken as a whole, and its last element was the
last of all. -/
theorem taken_of_halt {side : Side}
    (hHalt : (course cmp breaks calls as bs).halt = some (.input side)) :
    breaks side = true ∧ taken side (course cmp breaks calls as bs).marks = side.pick as bs ∧
      (course cmp breaks calls as bs).marks.getLast? =
        (side.pick as bs).getLast?.map (Prod.mk side) := by
  fun_induction course cmp breaks calls as bs with
  | case1 calls =>
      cases hLeft : breaks .left <;> cases hRight : breaks .right <;> cases side <;>
        simp_all [Course.marks, Side.pick]
  | case2 calls b bs hBreaks => cases side <;> simp_all [Course.marks, Side.pick]
  | case3 calls b bs hBreaks ih =>
      obtain ⟨hSide, hTaken, hLast⟩ := ih hHalt
      cases side with
      | left => exact absurd hSide hBreaks
      | right => simp_all [Side.pick, List.getLast?_cons, Option.getD_map]
  | case4 calls a as hBreaks => cases side <;> simp_all [Course.marks, Side.pick]
  | case5 calls a as hBreaks ih =>
      obtain ⟨hSide, hTaken, hLast⟩ := ih hHalt
      cases side with
      | left => simp_all [Side.pick, List.getLast?_cons, Option.getD_map]
      | right => exact absurd hSide hBreaks
  | case6 calls a as b bs fault hCmp => cases hHalt
  | case7 calls a as b bs order hCmp hLE ih =>
      obtain ⟨hSide, hTaken, hLast⟩ := ih hHalt
      cases side <;> simp_all [Side.pick, List.getLast?_cons, Option.getD_map]
  | case8 calls a as b bs order hCmp hGT ih =>
      obtain ⟨hSide, hTaken, hLast⟩ := ih hHalt
      cases side <;> simp_all [Side.pick, List.getLast?_cons, Option.getD_map]

/-- A course that comes to its end has met no list that breaks off. -/
theorem breaks_of_halt_eq_none (hHalt : (course cmp breaks calls as bs).halt = none)
    (side : Side) : breaks side = false := by
  fun_induction course cmp breaks calls as bs with
  | case1 calls =>
      cases hLeft : breaks .left <;> cases hRight : breaks .right <;> cases side <;> simp_all
  | case2 calls b bs hBreaks => cases hHalt
  | case3 calls b bs hBreaks ih => exact ih hHalt
  | case4 calls a as hBreaks => cases hHalt
  | case5 calls a as hBreaks ih => exact ih hHalt
  | case6 calls a as b bs fault hCmp => cases hHalt
  | case7 calls a as b bs order hCmp hLE ih => exact ih hHalt
  | case8 calls a as b bs order hCmp hGT ih => exact ih hHalt

/-- The comparator that interrupts a course gave up at the last of its calls. -/
theorem error_of_halt {x y : α} {fault : Fault}
    (hHalt : (course cmp breaks calls as bs).halt = some (.comparator x y fault)) :
    cmp (calls + (course cmp breaks calls as bs).questions.length) (x, y) = .error fault := by
  fun_induction course cmp breaks calls as bs with
  | case1 calls =>
      cases hLeft : breaks .left <;> cases hRight : breaks .right <;> simp_all
  | case2 calls b bs hBreaks => cases hHalt
  | case3 calls b bs hBreaks ih => simpa using ih hHalt
  | case4 calls a as hBreaks => cases hHalt
  | case5 calls a as hBreaks ih => simpa using ih hHalt
  | case6 calls a as b bs fault hCmp =>
      cases hHalt
      exact hCmp
  | case7 calls a as b bs order hCmp hLE ih =>
      simpa [Nat.add_assoc, Nat.add_comm] using ih hHalt
  | case8 calls a as b bs order hCmp hGT ih =>
      simpa [Nat.add_assoc, Nat.add_comm] using ih hHalt

/-- Nothing is left of a course that comes to its end. -/
theorem length_moves_of_halt_eq_none (hHalt : (course cmp breaks calls as bs).halt = none) :
    (course cmp breaks calls as bs).moves.length = as.length + bs.length := by
  fun_induction course cmp breaks calls as bs with
  | case1 calls => rfl
  | case2 calls b bs hBreaks => cases hHalt
  | case3 calls b bs hBreaks ih => simp [ih hHalt]
  | case4 calls a as hBreaks => cases hHalt
  | case5 calls a as hBreaks ih => simp [ih hHalt]
  | case6 calls a as b bs fault hCmp => cases hHalt
  | case7 calls a as b bs order hCmp hLE ih =>
      simp [ih hHalt, Nat.add_comm, Nat.add_left_comm]
  | case8 calls a as b bs order hCmp hGT ih =>
      simp [ih hHalt, Nat.add_assoc]

/-- Without lists that break off only the comparator can stop the course. -/
theorem halt_eq_none (answers : Nat → α × α → Ordering) (calls : Nat) (as bs : List α) :
    (course (Probe.ofAnswers answers) (fun _ => false) calls as bs).halt = none := by
  fun_induction course (Probe.ofAnswers answers) (fun _ => false) calls as bs with
  | case1 calls => rfl
  | case2 calls b bs hBreaks => cases hBreaks
  | case3 calls b bs hBreaks ih => exact ih
  | case4 calls a as hBreaks => cases hBreaks
  | case5 calls a as hBreaks ih => exact ih
  | case6 calls a as b bs fault hCmp => cases hCmp
  | case7 calls a as b bs order hCmp hLE ih => exact ih
  | case8 calls a as b bs order hCmp hGT ih => exact ih

/-- Shorter lists that break off, and a comparator that may give up, have the
same course as far as it goes. -/
theorem moves_isPrefix {answers : Nat → α × α → Ordering}
    (hCmp : ∀ call question order, cmp call question = .ok order →
      order = answers call question)
    {wholeAs wholeBs : List α} (hLeft : as <+: wholeAs) (hRight : bs <+: wholeBs)
    (hWholeLeft : breaks .left = false → as = wholeAs)
    (hWholeRight : breaks .right = false → bs = wholeBs) :
    (course cmp breaks calls as bs).moves <+:
      (course (Probe.ofAnswers answers) (fun _ => false) calls wholeAs wholeBs).moves := by
  fun_induction course cmp breaks calls as bs generalizing wholeAs wholeBs with
  | case1 calls => exact List.nil_prefix
  | case2 calls b bs hBreaks => exact List.nil_prefix
  | case3 calls b bs hBreaks ih =>
      obtain ⟨more, rfl⟩ := hRight
      obtain rfl := hWholeLeft (by simpa using hBreaks)
      rw [List.cons_append, course, if_neg (by simp)]
      exact List.cons_prefix_cons.mpr ⟨rfl, ih hLeft (List.prefix_append bs more) hWholeLeft
        fun hWhole => List.cons.inj (hWholeRight hWhole) |>.2⟩
  | case4 calls a as hBreaks => exact List.nil_prefix
  | case5 calls a as hBreaks ih =>
      obtain ⟨more, rfl⟩ := hLeft
      obtain rfl := hWholeRight (by simpa using hBreaks)
      rw [List.cons_append, course, if_neg (by simp)]
      exact List.cons_prefix_cons.mpr ⟨rfl, ih (List.prefix_append as more) hRight
        (fun hWhole => List.cons.inj (hWholeLeft hWhole) |>.2) hWholeRight⟩
  | case6 calls a as b bs fault hFault => exact List.nil_prefix
  | case7 calls a as b bs order hOrder hLE ih =>
      obtain ⟨moreAs, rfl⟩ := hLeft
      obtain ⟨moreBs, rfl⟩ := hRight
      rw [hCmp _ _ _ hOrder] at hLE
      rw [List.cons_append, List.cons_append, course]
      simp only [Probe.ofAnswers, if_pos hLE]
      exact List.cons_prefix_cons.mpr ⟨rfl, ih (List.prefix_append as moreAs)
        (List.prefix_append (b :: bs) moreBs)
        (fun hWhole => List.cons.inj (hWholeLeft hWhole) |>.2) hWholeRight⟩
  | case8 calls a as b bs order hOrder hGT ih =>
      obtain ⟨moreAs, rfl⟩ := hLeft
      obtain ⟨moreBs, rfl⟩ := hRight
      rw [hCmp _ _ _ hOrder] at hGT
      rw [List.cons_append, List.cons_append, course]
      simp only [Probe.ofAnswers, if_neg hGT]
      exact List.cons_prefix_cons.mpr ⟨rfl, ih (List.prefix_append (a :: as) moreAs)
        (List.prefix_append bs moreBs) hWholeLeft
        fun hWhole => List.cons.inj (hWholeRight hWhole) |>.2⟩

end Course

namespace Course

/-- What a merge that is computed at once makes of its course. -/
def outcome (course : Course α) : Except Fault (List α) :=
  match course.halt with
  | some (.comparator _ _ fault) => .error fault
  | _ => .ok (course.marks.map Prod.snd)

theorem outcome_after (move : Move α) (course : Course α) :
    (course.after move).outcome = course.outcome.map (move.mark.2 :: ·) := by
  unfold outcome
  rw [halt_after]
  split <;> rfl

end Course

namespace Inquiry

variable {δ : Type}

theorem run_bind_of_error {inquiry : Inquiry χ γ} {asked later : Array χ} {fault : Fault}
    (hRun : inquiry.run.run asked = (.error fault, later)) (next : γ → Inquiry χ δ) :
    (inquiry >>= next).run.run asked = (.error fault, later) := by
  rw [ExceptT.run_bind, StateT.run_bind, hRun]
  rfl

/-- What is made of the answer in the end puts no questions. -/
theorem run_bind_pure {inquiry : Inquiry χ γ} {asked later : Array χ} {result : Except Fault γ}
    (hRun : inquiry.run.run asked = (result, later)) (f : γ → δ) :
    (inquiry >>= fun answer => pure (f answer)).run.run asked = (result.map f, later) := by
  cases result with
  | error fault => exact run_bind_of_error hRun _
  | ok answer => exact run_bind_of_ok hRun _

end Inquiry

section Eager

variable (cmp : Probe (α × α) Ordering)

/-- The rest of a list is taken without questions. -/
theorem course_nil_left (calls : Nat) (bs : List α) :
    course cmp (fun _ => false) calls [] bs = ⟨bs.map fun b => ⟨(.right, b), none⟩, none⟩ := by
  induction bs with
  | nil => rw [course]; rfl
  | cons b bs ih => rw [course, if_neg (by simp), ih]; rfl

theorem course_nil_right (calls : Nat) (as : List α) :
    course cmp (fun _ => false) calls as [] = ⟨as.map fun a => ⟨(.left, a), none⟩, none⟩ := by
  induction as with
  | nil => rw [course]; rfl
  | cons a as ih => rw [course, if_neg (by simp), ih]; rfl

/-- Merging at once goes the course of the two lists and puts its questions. -/
theorem mergeM_run_eq_course (calls : Nat) (as bs : List α) (asked : Array (α × α)) :
    (mergeM (fun x y => Inquiry.ask (cmp.after calls) (x, y)) as bs).run.run asked =
      ((course cmp (fun _ => false) (calls + asked.size) as bs).outcome,
        asked ++ (course cmp (fun _ => false) (calls + asked.size) as bs).questions) := by
  induction as generalizing bs asked with
  | nil =>
      rw [mergeM, Inquiry.run_pure, course_nil_left]
      simp [Course.outcome, Course.marks, Course.questions, Course.lastQuestion,
        Function.comp_def]
  | cons a as ihLeft =>
      induction bs generalizing asked with
      | nil =>
          rw [mergeM, Inquiry.run_pure, course_nil_right]
          simp [Course.outcome, Course.marks, Course.questions, Course.lastQuestion,
            Function.comp_def]
      | cons b bs ihRight =>
          have hNumber (order : Except Fault Ordering)
              (hCmp : cmp (calls + asked.size + 1) (a, b) = order) :
              (cmp.after calls) (asked.size + 1) (a, b) = order := hCmp
          have hPush : calls + (asked.push (a, b)).size = calls + asked.size + 1 := by
            rw [Array.size_push, Nat.add_assoc]
          rw [mergeM, course]
          cases hCmp : cmp (calls + asked.size + 1) (a, b) with
          | error fault =>
              have hHead : (Inquiry.ask (cmp.after calls) (a, b)).run.run asked =
                  (.error fault, asked.push (a, b)) := by
                rw [← hNumber _ hCmp]
                rfl
              rw [Inquiry.run_bind_of_error hHead]
              simp [Course.outcome, Course.questions, Course.lastQuestion]
          | ok order =>
              rw [Inquiry.run_bind_of_ok (Inquiry.run_ask (hNumber _ hCmp))]
              cases hLE : order.isLE with
              | true =>
                  have hRest := ihLeft (b :: bs) (asked.push (a, b))
                  rw [hPush] at hRest
                  rw [if_pos rfl, Inquiry.run_bind_pure hRest]
                  simp [Course.outcome_after, hLE]
              | false =>
                  have hRest := ihRight (asked.push (a, b))
                  rw [hPush] at hRest
                  rw [if_neg (by simp), Inquiry.run_bind_pure hRest]
                  simp [Course.outcome_after, hLE]

theorem mergeM_finding_eq_course (calls : Nat) (as bs : List α) :
    (mergeM (fun x y => Inquiry.ask (cmp.after calls) (x, y)) as bs).finding =
      ⟨(course cmp (fun _ => false) calls as bs).outcome,
        (course cmp (fun _ => false) calls as bs).questions⟩ := by
  rw [Inquiry.finding, mergeM_run_eq_course]
  simp

end Eager

/-- Elements marked with the list that they are in. -/
def marked (side : Side) (xs : List α) : List (Side × α) := xs.map (Prod.mk side)

/-- A comparator that does not see the marks. -/
def Probe.unmarked (cmp : Probe (α × α) Ordering) : Probe ((Side × α) × (Side × α)) Ordering :=
  fun call question => cmp call (question.1.2, question.2.2)

/-- Marks that are in the lists already come out as the marks of the course. -/
theorem course_marked (cmp : Probe (α × α) Ordering) (breaks : Side → Bool) (calls : Nat)
    (as bs : List α) :
    (course cmp.unmarked breaks calls (marked .left as) (marked .right bs)).marks.map Prod.snd =
      (course cmp breaks calls as bs).marks := by
  fun_induction course cmp breaks calls as bs with
  | case1 calls => rw [marked, marked, List.map_nil, List.map_nil, course]; rfl
  | case2 calls b bs hBreaks =>
      rw [marked, marked, List.map_nil, List.map_cons, course, if_pos hBreaks]
      rfl
  | case3 calls b bs hBreaks ih =>
      rw [marked, marked, List.map_nil, List.map_cons, course, if_neg hBreaks]
      exact congrArg _ ih
  | case4 calls a as hBreaks =>
      rw [marked, marked, List.map_nil, List.map_cons, course, if_pos hBreaks]
      rfl
  | case5 calls a as hBreaks ih =>
      rw [marked, marked, List.map_nil, List.map_cons, course, if_neg hBreaks]
      exact congrArg _ ih
  | case6 calls a as b bs fault hCmp =>
      rw [marked, marked, List.map_cons, List.map_cons, course]
      simp only [Probe.unmarked, hCmp]
      rfl
  | case7 calls a as b bs order hCmp hLE ih =>
      rw [marked, marked, List.map_cons, List.map_cons, course]
      simp only [Probe.unmarked, hCmp, if_pos hLE]
      exact congrArg _ ih
  | case8 calls a as b bs order hCmp hGT ih =>
      rw [marked, marked, List.map_cons, List.map_cons, course]
      simp only [Probe.unmarked, hCmp, if_neg hGT]
      exact congrArg _ ih

end Sequences
