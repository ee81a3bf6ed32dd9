import Sequences.Proofs.Progress

/-! A merge that does not note its questions. It does the same as one that notes
them: the items, the failures and the other notes agree, reading by reading. So
what is known from the notes about the calls of a comparator also holds where
nobody has written them down. -/
namespace Sequences

variable {α : Type}

/-- The log without the questions. -/
def unasked (log : List (Event α)) : List (Event α) :=
  log.filter fun event => event.compared?.isNone

theorem unasked_append (log more : List (Event α)) :
    unasked (log ++ more) = unasked log ++ unasked more := List.filter_append ..

theorem unasked_callsOf (asked : Option (α × α)) : unasked (callsOf true asked) = [] := by
  cases asked <;> rfl

theorem unasked_eq_self {log : List (Event α)} (hAsked : comparedIn log = []) :
    unasked log = log := by
  refine List.filter_eq_self.mpr fun event hEvent => ?_
  rw [List.filterMap_eq_nil_iff.mp hAsked event hEvent]
  rfl

theorem mem_unasked_iff {event : Event α} (hEvent : event.compared? = none)
    {log : List (Event α)} : event ∈ unasked log ↔ event ∈ log := by
  simp [unasked, hEvent]

/-- The inputs keep all their events. -/
theorem own_unasked (leaf : Leaf) (log : List (Event α)) :
    leaf.own (unasked log) = leaf.own log := by
  rw [Leaf.own, unasked, List.filter_filter]
  refine List.filter_congr fun event _ => ?_
  cases event <;> simp [Event.compared?, Event.leaf?]

def Note.isQuestion : Note α α → Bool
  | event happened => happened.compared?.isSome
  | received _ => false
  | quit => false

/-- The notes without the questions. -/
def unaskedNotes (notes : List (Note α α)) : List (Note α α) :=
  notes.filter fun note => !note.isQuestion

@[simp]
theorem unaskedNotes_append (notes more : List (Note α α)) :
    unaskedNotes (notes ++ more) = unaskedNotes notes ++ unaskedNotes more := List.filter_append ..

@[simp]
theorem unaskedNotes_received_cons (x : α) (notes : List (Note α α)) :
    unaskedNotes (.received x :: notes) = .received x :: unaskedNotes notes := rfl

@[simp]
theorem unaskedNotes_quit_cons (notes : List (Note α α)) :
    unaskedNotes (.quit :: notes) = .quit :: unaskedNotes notes := rfl

@[simp]
theorem unaskedNotes_map_event (log : List (Event α)) :
    unaskedNotes (log.map .event) = (unasked log).map .event := by
  induction log with
  | nil => rfl
  | cons event log ih =>
      cases event with
      | compared x y => exact ih
      | _ => exact congrArg (_ :: ·) ih

theorem eventsIn_unaskedNotes (notes : List (Note α α)) :
    eventsIn (unaskedNotes notes) = unasked (eventsIn notes) := by
  induction notes with
  | nil => rfl
  | cons note notes ih =>
      cases note with
      | event event =>
          cases event with
          | compared x y => exact ih
          | _ => exact congrArg (_ :: ·) ih
      | _ => exact ih

theorem quit_mem_unaskedNotes {notes : List (Note α α)} :
    .quit ∈ unaskedNotes notes ↔ .quit ∈ notes := by
  simp [unaskedNotes, Note.isQuestion]

/-- The reading as it is when questions are not noted. -/
def Reading.silent (reading : Reading α α) : Reading α α :=
  { reading with notes := unaskedNotes reading.notes }

/-- What a feed leaves out of its log shows nowhere else: the quiet feed takes the
same turns, seen through a map of the states. -/
structure Feed.Hushed (feed quiet : Feed α α) where
  view : feed.State → quiet.State
  initial_eq : quiet.initial = view feed.initial
  rewind_eq : ∀ state, quiet.rewind (view state) = view (feed.rewind state)
  next_eq : ∀ state pool, quiet.next (view state) pool =
    ⟨(feed.next state pool).reply, view (feed.next state pool).state,
      (feed.next state pool).pool, unasked (feed.next state pool).log⟩
  stop_eq : ∀ state, quiet.stop (view state) = unasked (feed.stop state)

namespace Feed.Hushed

variable {feed quiet : Feed α α} (hushed : feed.Hushed quiet)

/-- The visit as the quiet feed makes it. -/
def visit (loud : Visit feed.State α α) : Visit quiet.State α α :=
  ⟨loud.got, unaskedNotes loud.notes, loud.fault, hushed.view loud.state, loud.pool⟩

theorem visitFrom_eq (limit : Limit) (state : feed.State) (pool : Pool α) :
    quiet.visitFrom limit (hushed.view state) pool =
      hushed.visit (feed.visitFrom limit state pool) := by
  induction limit, state, pool using Feed.visitFrom.induct with
  | case1 limit state pool turn hReply =>
      rw [visitFrom_of_ended limit hReply,
        visitFrom_of_ended limit (by rw [hushed.next_eq]; exact hReply), hushed.next_eq]
      simp [visit]
  | case2 limit state pool turn fault hReply =>
      rw [visitFrom_of_failed limit hReply,
        visitFrom_of_failed limit (by rw [hushed.next_eq]; exact hReply), hushed.next_eq]
      simp [visit]
  | case3 state pool turn x hReply =>
      rw [visitFrom_of_item_zero hReply,
        visitFrom_of_item_zero (by rw [hushed.next_eq]; exact hReply), hushed.next_eq]
      simp [visit, hushed.stop_eq]
  | case4 state pool turn x hReply =>
      rw [visitFrom_of_item_one hReply,
        visitFrom_of_item_one (by rw [hushed.next_eq]; exact hReply), hushed.next_eq]
      simp [visit, hushed.stop_eq]
  | case5 state pool turn x hReply more ih =>
      rw [visitFrom_of_item_more (some (more + 2)) (by simp) hReply,
        visitFrom_of_item_more (some (more + 2)) (by simp)
          (by rw [hushed.next_eq]; exact hReply), hushed.next_eq]
      simp only [Option.map_some, Nat.add_one_sub_one]
      rw [ih]
      simp [visit, turn]
  | case6 state pool turn x hReply ih =>
      rw [visitFrom_of_item_more none (by simp) hReply,
        visitFrom_of_item_more none (by simp) (by rw [hushed.next_eq]; exact hReply),
        hushed.next_eq]
      simp only [Option.map_none]
      rw [ih]
      simp [visit, turn]

theorem visitsFrom_eq (limits : List Limit) (state : feed.State) (pool : Pool α) :
    quiet.visitsFrom limits (hushed.view state) pool =
      (feed.visitsFrom limits state pool).map hushed.visit := by
  induction limits generalizing state pool with
  | nil => rfl
  | cons limit limits ih =>
      rw [visitsFrom, visitsFrom, List.map_cons, ← ih, ← hushed.rewind_eq,
        hushed.visitFrom_eq limit state pool]
      rfl

include hushed in
theorem readings_eq (limits : List Limit) (pool : Pool α) :
    (quiet.visits limits pool).map Visit.reading =
      ((feed.visits limits pool).map Visit.reading).map Reading.silent := by
  rw [visits, visits, hushed.initial_eq, hushed.visitsFrom_eq, List.map_map, List.map_map]
  rfl

end Feed.Hushed

section Merge

variable {a b : Leaf} {as bs : List α} {breaks : Side → Bool} {cmp : Probe (α × α) Ordering}

theorem mergeNext_unnoted (state : Feed.MergeState (Cursor (List α)) (Cursor (List α)) α)
    (pool : Pool α) :
    let noted := Feed.mergeNext (Feed.replay a as (breaks .left))
      (Feed.replay b bs (breaks .right)) cmp true state pool
    Feed.mergeNext (Feed.replay a as (breaks .left)) (Feed.replay b bs (breaks .right)) cmp false
        state pool = ⟨noted.reply, noted.state, noted.pool, unasked noted.log⟩ := by
  intro noted
  obtain ⟨before, asked, after, hBefore, hAfter, -, hNext⟩ :=
    exists_mergeNext_log a b as bs breaks cmp state pool
  have hLog : before ++ callsOf false asked ++ after =
      unasked (before ++ callsOf true asked ++ after) := by
    rw [unasked_append, unasked_append, unasked_callsOf, unasked_eq_self hBefore,
      unasked_eq_self hAfter]
    rfl
  have hNoted : noted = _ := hNext true
  rw [hNoted, ← hLog]
  exact hNext false

/-- The two merges have the same states. -/
def Feed.Hushed.mergeLists (a b : Leaf) (as bs : List α) (breaks : Side → Bool)
    (cmp : Probe (α × α) Ordering) :
    (Feed.mergeLists a b as bs breaks cmp true).Hushed
      (Feed.mergeLists a b as bs breaks cmp false) where
  view := id
  initial_eq := rfl
  rewind_eq _ := rfl
  next_eq := mergeNext_unnoted
  stop_eq state := (unasked_eq_self (comparedIn_stop state)).symm

end Merge

/-- Readings of a merge of two replayable inputs, without notes of the questions. -/
theorem Plan.readings_unnoted {κ : Type} [BEq κ] (cmp : Probe (α × α) Ordering)
    (nameA nameB : String) {inputA inputB : Source α} (hLeft : inputA.singleUse = false)
    (hRight : inputB.singleUse = false) (limits : List Limit) :
    (Plan.merge cmp false (.source nameA inputA) (.source nameB inputB) :
        Plan α κ).readings limits =
      ((Plan.merge cmp true (.source nameA inputA) (.source nameB inputB) :
        Plan α κ).readings limits).map Reading.silent := by
  obtain ⟨itemsA, breaksA, onceA⟩ := inputA
  obtain ⟨itemsB, breaksB, onceB⟩ := inputB
  obtain rfl : onceA = false := hLeft
  obtain rfl : onceB = false := hRight
  exact (Feed.Hushed.mergeLists ⟨nameA, [.left]⟩ ⟨nameB, [.right]⟩ itemsA itemsB
    (fun side => side.pick breaksA breaksB) cmp).readings_eq limits ⟨[]⟩

end Sequences
