import Sequences.Proofs.Conservation
import Sequences.Proofs.Course

/-! Keeping the first items of every key, at once and on demand, also if a key
is refused. Both ways go through the list once and ask for the key of every item
they meet, so one description of that pass serves both. On demand the pass ends
where the reader quits; at once there is no reader, and a refused key leaves
nothing of the result. -/
namespace Sequences

variable {α β κ : Type}

/-- A pass over a list: the items kept, the items whose keys were asked for, and
why it broke off. -/
structure Sifting (α : Type) where
  kept : List α
  asked : List α
  fault : Option Fault

namespace Sifting

/-- An item in front that is not kept. -/
def pass (x : α) (later : Sifting α) : Sifting α := { later with asked := x :: later.asked }

/-- An item in front that is kept. -/
def keep (x : α) (later : Sifting α) : Sifting α :=
  ⟨x :: later.kept, x :: later.asked, later.fault⟩

/-- What is left of a pass for someone who wants all of it. -/
def outcome (sifting : Sifting α) : Except Fault (List α) :=
  match sifting.fault with
  | none => .ok sifting.kept
  | some fault => .error fault

theorem outcome_pass (x : α) (later : Sifting α) : (later.pass x).outcome = later.outcome := rfl

theorem outcome_keep (x : α) (later : Sifting α) :
    (later.keep x).outcome = later.outcome.map (x :: ·) := by
  unfold outcome keep
  cases later.fault <;> rfl

end Sifting

section Sift

variable [BEq κ] (key : Probe α κ)

/-- The pass of a reader with this limit, after so many calls of the key function
and with these keys seen. The limit counts the items kept. -/
def sift : Limit → Nat → List κ → List α → Sifting α
  | _, _, _, [] => ⟨[], [], none⟩
  | limit, calls, seen, x :: xs =>
    match key (calls + 1) x with
    | .error fault => ⟨[], [x], some fault⟩
    | .ok k =>
      if seen.contains k then
        (sift limit (calls + 1) seen xs).pass x
      else if limit = some 0 then ⟨[], [x], none⟩
      else if limit = some 1 then ⟨[x], [x], none⟩
      else (sift (limit.map (· - 1)) (calls + 1) (k :: seen) xs).keep x

/-- Calls made before may be counted by the pass or by the probe. -/
theorem sift_after (earlier : Nat) (limit : Limit) (calls : Nat) (seen : List κ) (xs : List α) :
    sift (key.after earlier) limit calls seen xs = sift key limit (earlier + calls) seen xs := by
  induction xs generalizing limit calls seen with
  | nil => rfl
  | cons x xs ih =>
      simp only [sift, ih, Probe.after, Nat.add_assoc]

/-- All at once the pass has no limit. -/
theorem distinctM_run_sift (seen : List κ) (xs : List α) (asked : Array α) :
    (distinctM (Inquiry.ask key) seen xs).run.run asked =
      ((sift key none asked.size seen xs).outcome,
        asked ++ (sift key none asked.size seen xs).asked) := by
  induction xs generalizing seen asked with
  | nil =>
      rw [distinctM, Inquiry.run_pure]
      simp [sift, Sifting.outcome]
  | cons x xs ih =>
      have hAsk : (Inquiry.ask key x).run.run asked =
        (key (asked.size + 1) x, asked.push x) := rfl
      rw [distinctM, sift]
      cases hKey : key (asked.size + 1) x with
      | error fault =>
          rw [hKey] at hAsk
          rw [Inquiry.run_bind_of_error hAsk]
          simp [Sifting.outcome]
      | ok k =>
          rw [hKey] at hAsk
          rw [Inquiry.run_bind_of_ok hAsk]
          cases hSeen : seen.contains k with
          | true =>
              have hLater := ih seen (asked.push x)
              rw [Array.size_push] at hLater
              simp only [hSeen, hLater, if_true, Sifting.outcome_pass]
              simp [Sifting.pass]
          | false =>
              have hLater := ih (k :: seen) (asked.push x)
              rw [Array.size_push] at hLater
              simp only [hSeen, Bool.false_eq_true, if_false, reduceCtorEq, Option.map_none,
                Inquiry.run_bind_pure hLater, Sifting.outcome_keep]
              simp [Sifting.keep]

theorem distinctM_finding_sift (xs : List α) :
    (distinctM (Inquiry.ask key) [] xs).finding =
      ⟨(sift key none 0 [] xs).outcome, (sift key none 0 [] xs).asked⟩ := by
  simp only [Inquiry.finding, distinctM_run_sift]
  simp

end Sift

section Refused

variable {key : Probe α κ}

/-- The keys of these items are found, if so many calls were made before. -/
def Probe.Answers (key : Probe α κ) (calls : Nat) (xs : List α) : Prop :=
  ∀ i x, xs[i]? = some x → ∃ k, key (calls + i + 1) x = .ok k

theorem Probe.Answers.uncons {calls : Nat} {x : α} {xs : List α}
    (hAnswers : key.Answers calls (x :: xs)) :
    (∃ k, key (calls + 1) x = .ok k) ∧ key.Answers (calls + 1) xs := by
  refine ⟨hAnswers 0 x rfl, fun i y hy => ?_⟩
  rw [Nat.add_right_comm calls 1 i]
  exact hAnswers (i + 1) y hy

variable [BEq κ]

theorem sift_of_answers {calls : Nat} {xs : List α} (hAnswers : key.Answers calls xs)
    (seen : List κ) :
    (sift key none calls seen xs).fault = none ∧ (sift key none calls seen xs).asked = xs := by
  induction xs generalizing calls seen with
  | nil => exact ⟨rfl, rfl⟩
  | cons x xs ih =>
      obtain ⟨⟨k, hKey⟩, hLater⟩ := hAnswers.uncons
      simp only [sift, hKey, reduceCtorEq, if_false, Option.map_none]
      split
      · obtain ⟨hFault, hAsked⟩ := ih hLater seen
        exact ⟨hFault, congrArg (x :: ·) hAsked⟩
      · obtain ⟨hFault, hAsked⟩ := ih hLater (k :: seen)
        exact ⟨hFault, congrArg (x :: ·) hAsked⟩

/-- Up to the refused key the pass is that over the items before. -/
theorem sift_of_refused {calls : Nat} {before : List α} (hBefore : key.Answers calls before)
    {x : α} {fault : Fault} (hRefused : key (calls + before.length + 1) x = .error fault)
    (after : List α) (seen : List κ) :
    sift key none calls seen (before ++ x :: after) =
      ⟨(sift key none calls seen before).kept, before ++ [x], some fault⟩ := by
  induction before generalizing calls seen with
  | nil =>
      rw [List.length_nil, Nat.add_zero] at hRefused
      simp only [List.nil_append, sift, hRefused]
  | cons y before ih =>
      obtain ⟨⟨k, hKey⟩, hLater⟩ := hBefore.uncons
      have hSame : calls + 1 + before.length + 1 = calls + (y :: before).length + 1 := by
        rw [List.length_cons]
        omega
      rw [← hSame] at hRefused
      simp only [List.cons_append, sift, hKey, reduceCtorEq, if_false, Option.map_none]
      split
      · rw [ih hLater hRefused seen]
        rfl
      · rw [ih hLater hRefused (k :: seen)]
        rfl

end Refused

/-- The items whose keys were asked for. -/
def Event.keyed? : Event α → Option α
  | keyed x => some x
  | _ => none

def keyedIn (log : List (Event α)) : List α := log.filterMap Event.keyed?

def Reading.keyed (reading : Reading α β) : List α := keyedIn (eventsIn reading.notes)

@[simp]
theorem keyedIn_nil : keyedIn ([] : List (Event α)) = [] := rfl

@[simp]
theorem keyedIn_append (log more : List (Event α)) :
    keyedIn (log ++ more) = keyedIn log ++ keyedIn more := List.filterMap_append ..

@[simp]
theorem keyedIn_keyed (noted : Bool) (x : α) :
    keyedIn (if noted then [.keyed x] else []) = if noted then [x] else [] := by
  cases noted <;> rfl

@[simp]
theorem emittedBy_keyed (name : String) (noted : Bool) (x : α) :
    emittedBy name (if noted then [.keyed x] else []) = [] := by
  cases noted <;> rfl

@[simp]
theorem keyedIn_stopCursor {σ : Type} (leaf : Leaf) (cursor : Cursor σ) :
    keyedIn (Feed.stopCursor leaf cursor : List (Event α)) = [] := by
  cases cursor <;> rfl

/-- A reading that goes like the pass: each item taken is asked for its key once. -/
structure Sifted (name : String) (noted : Bool) (sifting : Sifting α) (reading : Reading α α) :
    Prop where
  got : reading.got = sifting.kept
  fault : reading.fault = sifting.fault
  taken : reading.taken name = sifting.asked
  keyed : reading.keyed = if noted then sifting.asked else []

section Sifted

variable {name : String} {noted : Bool} {x : α} {log : List (Event α)} {sifting : Sifting α}
  {reading : Reading α α}

theorem Sifted.pass (hTaken : emittedBy name log = [x])
    (hKeyed : keyedIn log = if noted then [x] else [])
    (hLater : Sifted name noted sifting reading) :
    Sifted name noted (sifting.pass x)
      { reading with notes := log.map .event ++ reading.notes } := by
  constructor
  case got => exact hLater.got
  case fault => exact hLater.fault
  case taken => simpa [Reading.taken, Sifting.pass, hTaken] using hLater.taken
  case keyed =>
    have hKeyedLater := hLater.keyed
    cases noted <;> simpa [Reading.keyed, Sifting.pass, hKeyed] using hKeyedLater

theorem Sifted.keep (hTaken : emittedBy name log = [x])
    (hKeyed : keyedIn log = if noted then [x] else [])
    (hLater : Sifted name noted sifting reading) :
    Sifted name noted (sifting.keep x)
      ⟨x :: reading.got, log.map .event ++ .received x :: reading.notes, reading.fault⟩ := by
  constructor
  case got => exact congrArg (x :: ·) hLater.got
  case fault => exact hLater.fault
  case taken => simpa [Reading.taken, Sifting.keep, hTaken] using hLater.taken
  case keyed =>
    have hKeyedLater := hLater.keyed
    cases noted <;> simpa [Reading.keyed, Sifting.keep, hKeyed] using hKeyedLater

/-- A reader who quits causes nothing but the stop of the input. -/
theorem sifted_of_quit (name : String) (noted : Bool) {log : List (Event α)}
    (hTaken : emittedBy name log = []) (hKeyed : keyedIn log = []) :
    Sifted name noted ⟨[], [], none⟩ ⟨[], .quit :: log.map .event, none⟩ := by
  constructor
  case got => rfl
  case fault => rfl
  case taken => simp [Reading.taken, hTaken]
  case keyed => simp [Reading.keyed, hKeyed]

end Sifted

/-- What a reader of a replayable input has in front of it. -/
def Facing (items : List α) (cursor : Cursor (List α)) (rest : List α) : Prop :=
  (cursor = .idle ∧ rest = items) ∨ cursor = .reading rest

section Facing

variable {items xs : List α} {cursor : Cursor (List α)} {x : α}

theorem Facing.next_cons (leaf : Leaf) (hFacing : Facing items cursor (x :: xs))
    (pool : Pool α) :
    let turn := (Feed.replay leaf items false).next cursor pool
    turn.reply = .item x ∧ turn.state = .reading xs ∧ emittedBy leaf.name turn.log = [x] ∧
      keyedIn turn.log = [] := by
  rcases hFacing with ⟨rfl, rfl⟩ | rfl
  · exact ⟨rfl, rfl, by simp [Feed.replay, Feed.noteStart, Feed.replayFrom, emittedBy_emitted], rfl⟩
  · exact ⟨rfl, rfl, by simp [Feed.replay, Feed.replayFrom, emittedBy_emitted], rfl⟩

theorem Facing.next_nil (leaf : Leaf) (hFacing : Facing items cursor []) (pool : Pool α) :
    let turn := (Feed.replay leaf items false).next cursor pool
    turn.reply = .ended ∧ emittedBy leaf.name turn.log = [] ∧ keyedIn turn.log = [] := by
  rcases hFacing with ⟨rfl, rfl⟩ | rfl
  · exact ⟨rfl, rfl, rfl⟩
  · exact ⟨rfl, rfl, rfl⟩

end Facing

/-- The first items of every key, of an input that begins anew for each reading. -/
abbrev Feed.distinctItems [BEq κ] (leaf : Leaf) (items : List α) (key : Probe α κ)
    (noted : Bool) : Feed α α :=
  .distinct (.replay leaf items false) key noted

section Visit

variable [BEq κ] {key : Probe α κ} {noted : Bool} {leaf : Leaf} {items : List α}

/-- The visit of a reader goes like the pass, and the calls of the key function are
counted on. -/
structure SiftedVisit (leaf : Leaf) (noted : Bool) (calls : Nat) (sifting : Sifting α)
    (visit : Visit (Feed.DistinctState (Cursor (List α)) κ) α α) : Prop where
  sifted : Sifted leaf.name noted sifting visit.reading
  calls : visit.state.calls = calls + sifting.asked.length

variable {rest xs : List α} {x : α} {state : Feed.DistinctState (Cursor (List α)) κ}

theorem visitFrom_of_exhausted (limit : Limit) (hFacing : Facing items state.inner [])
    (pool : Pool α) :
    SiftedVisit leaf noted state.calls ⟨[], [], none⟩
      ((Feed.distinctItems leaf items key noted).visitFrom limit state pool) := by
  obtain ⟨hReply, hTaken, hKeyed⟩ := hFacing.next_nil leaf pool
  have hNext : (Feed.distinctItems leaf items key noted).next state pool = _ :=
    Feed.distinctNext_of_ended hReply
  have hEnded : ((Feed.distinctItems leaf items key noted).next state pool).reply = .ended := by
    rw [hNext]
  rw [Feed.visitFrom_of_ended limit hEnded, hNext]
  refine ⟨⟨rfl, rfl, ?_, ?_⟩, rfl⟩
  · simpa [Visit.reading, Reading.taken] using hTaken
  · simpa [Visit.reading, Reading.keyed] using hKeyed

theorem visitFrom_of_refused (limit : Limit) (hFacing : Facing items state.inner (x :: xs))
    {fault : Fault} (hKey : key (state.calls + 1) x = .error fault) (pool : Pool α) :
    SiftedVisit leaf noted state.calls ⟨[], [x], some fault⟩
      ((Feed.distinctItems leaf items key noted).visitFrom limit state pool) := by
  obtain ⟨hReply, -, hTaken, hKeyed⟩ := hFacing.next_cons leaf pool
  have hNext : (Feed.distinctItems leaf items key noted).next state pool = _ :=
    Feed.distinctNext_of_refused hReply hKey
  have hFailed : ((Feed.distinctItems leaf items key noted).next state pool).reply =
      .failed fault := by
    rw [hNext]
  have hUnwind (cursor : (Feed.replay leaf items false).State) :
    (Feed.replay leaf items false).unwind cursor = [] := rfl
  rw [Feed.visitFrom_of_failed limit hFailed, hNext]
  refine ⟨⟨rfl, rfl, ?_, ?_⟩, rfl⟩
  · simp [Visit.reading, Reading.taken, hUnwind, hTaken]
  · simp [Visit.reading, Reading.keyed, hUnwind, hKeyed]

/-- The run lemma, along the items in front of the reader. An item whose key was
seen delays the reading by what it takes to pass over it. -/
theorem visitFrom_sifted (limit : Limit) (state : Feed.DistinctState (Cursor (List α)) κ)
    (hFacing : Facing items state.inner rest) (pool : Pool α) :
    SiftedVisit leaf noted state.calls (sift key limit state.calls state.seen rest)
      ((Feed.distinctItems leaf items key noted).visitFrom limit state pool) := by
  induction rest generalizing limit state pool with
  | nil => exact visitFrom_of_exhausted limit hFacing pool
  | cons x xs ih =>
      cases hKey : key (state.calls + 1) x with
      | error fault =>
          simp only [sift, hKey]
          exact visitFrom_of_refused limit hFacing hKey pool
      | ok k =>
          obtain ⟨hReply, hState, hTaken, hKeyed⟩ := hFacing.next_cons leaf pool
          generalize hTurn : (Feed.replay leaf items false).next state.inner pool = turn
            at hReply hState hTaken hKeyed
          have hTakenHere : emittedBy leaf.name
              (turn.log ++ if noted then [.keyed x] else []) = [x] := by
            simp [hTaken]
          have hKeyedHere : keyedIn (turn.log ++ if noted then [.keyed x] else []) =
              if noted then [x] else [] := by
            simp [hKeyed]
          simp only [sift, hKey]
          cases hSeen : state.seen.contains k with
          | true =>
              have hNext : (Feed.distinctItems leaf items key noted).next state pool = _ :=
                Feed.distinctNext_of_seen (hTurn ▸ hReply) hKey hSeen
              rw [hTurn] at hNext
              have hLater := ih limit ⟨turn.state, state.seen, state.calls + 1⟩ (.inr hState)
                turn.pool
              rw [Feed.visitFrom_of_delayed limit hNext, if_pos rfl]
              refine ⟨hLater.sifted.pass hTakenHere hKeyedHere, ?_⟩
              exact hLater.calls.trans (Nat.add_right_comm ..)
          | false =>
              have hNext : (Feed.distinctItems leaf items key noted).next state pool = _ :=
                Feed.distinctNext_of_new (hTurn ▸ hReply) hKey hSeen
              rw [hTurn] at hNext
              have hItem : ((Feed.distinctItems leaf items key noted).next state pool).reply =
                  .item x := by
                rw [hNext]
              have hQuit := sifted_of_quit leaf.name noted
                (emittedBy_stopCursor (α := α) leaf.name leaf turn.state)
                (keyedIn_stopCursor leaf turn.state)
              -- Only now does the limit matter: a reader who quits at `x` takes nothing behind it.
              rw [if_neg (by simp)]
              by_cases hZero : limit = some 0
              · subst hZero
                rw [Feed.visitFrom_of_item_zero hItem, if_pos rfl, hNext]
                exact ⟨hQuit.pass hTakenHere hKeyedHere, rfl⟩
              by_cases hOne : limit = some 1
              · subst hOne
                rw [Feed.visitFrom_of_item_one hItem, if_neg (by simp), if_pos rfl, hNext]
                exact ⟨hQuit.keep hTakenHere hKeyedHere, rfl⟩
              have hMore := Feed.two_le_of_limit_ne hZero hOne
              have hLater := ih (limit.map (· - 1))
                ⟨turn.state, k :: state.seen, state.calls + 1⟩ (.inr hState) turn.pool
              rw [Feed.visitFrom_of_item_more limit hMore hItem, if_neg hZero, if_neg hOne, hNext]
              refine ⟨hLater.sifted.keep hTakenHere hKeyedHere, ?_⟩
              exact hLater.calls.trans (Nat.add_right_comm ..)

theorem facing_of_fresh {state : (Feed.distinctItems leaf items key noted).State}
    (hFresh : (Feed.distinctItems leaf items key noted).Fresh state) :
    Facing items state.inner items ∧ state.seen = [] := by
  rcases hFresh with rfl | ⟨earlier, rfl⟩
  · exact ⟨.inl ⟨rfl, rfl⟩, rfl⟩
  · exact ⟨.inl ⟨rfl, rfl⟩, rfl⟩

end Visit

section Relay

variable [BEq κ] {key : Probe α κ} {noted : Bool} {name : String} {items : List α}

/-- One of several readings, after so many calls of the key function and before so
many. Only the count is carried from one reading to the next. -/
def SiftedLeg (name : String) (noted : Bool) (key : Probe α κ) (items : List α) (limit : Limit)
    (calls : Nat) (reading : Reading α α) (next : Nat) : Prop :=
  Sifted name noted (sift key limit calls [] items) reading ∧
    next = calls + (reading.taken name).length

theorem visitFrom_siftedLeg (limit : Limit)
    {state : (Feed.distinctItems ⟨name, []⟩ items key noted).State}
    (hFresh : (Feed.distinctItems ⟨name, []⟩ items key noted).Fresh state) (pool : Pool α) :
    SiftedLeg name noted key items limit state.calls
      ((Feed.distinctItems ⟨name, []⟩ items key noted).visitFrom limit state pool).reading
      ((Feed.distinctItems ⟨name, []⟩ items key noted).visitFrom limit state pool).state.calls := by
  obtain ⟨hFacing, hSeen⟩ := facing_of_fresh hFresh
  have hVisit : SiftedVisit ⟨name, []⟩ noted _ (sift key limit state.calls state.seen items) _ :=
    visitFrom_sifted limit state hFacing pool
  rw [hSeen] at hVisit
  have hSifted : Sifted name noted (sift key limit state.calls [] items) _ := hVisit.sifted
  have hTaken := congrArg (fun taken => state.calls + taken.length) hSifted.taken
  exact ⟨hSifted, hVisit.calls.trans hTaken.symm⟩

theorem calls_of_relay {limits : List Limit} {readings : List (Reading α α)} {calls next : Nat}
    (hRelay : Relay (SiftedLeg name noted key items) calls limits readings next) :
    next = calls + (readings.flatMap (Reading.taken name)).length := by
  induction hRelay with
  | nil => rfl
  | cons hLeg hLater ih =>
      rw [ih, hLeg.2, List.flatMap_cons, List.length_append, Nat.add_assoc]

end Relay

/-- Every reading goes like a pass of its own, which counts the calls on. -/
theorem Plan.readings_sift [BEq κ] (key : Probe α κ) (noted : Bool) (name : String)
    (items : List α) {limits : List Limit} (index : Nat) {limit : Limit}
    (hLimit : limits[index]? = some limit) :
    let plan : Plan α κ := .distinct key noted (.source name (.ofItems items none false))
    let earlier := ((plan.readings limits).take index).flatMap (Reading.taken name)
    ∃ reading, (plan.readings limits)[index]? = some reading ∧
      Sifted name noted (sift key limit earlier.length [] items) reading := by
  intro plan earlier
  obtain ⟨finish, hRelay⟩ := Feed.relay_visitsFrom (Feed.distinctItems ⟨name, []⟩ items key noted)
    (fun state _ => state.calls)
    (fun limit (_ : limit ∈ limits) _ pool hFresh => visitFrom_siftedLeg limit hFresh pool)
    (.inl rfl) plan.pool
  change Relay _ 0 limits (plan.readings limits) finish at hRelay
  have hIndex : index < (plan.readings limits).length := by
    rw [hRelay.length_eq]
    exact (List.getElem?_eq_some_iff.mp hLimit).1
  have hReading := List.getElem?_eq_getElem hIndex
  obtain ⟨calls, next, hBefore, hHere⟩ := hRelay.leg_of_getElem? index hLimit hReading
  have hCalls := calls_of_relay hBefore
  rw [Nat.zero_add] at hCalls
  exact ⟨_, hReading, hCalls ▸ hHere.1⟩

end Sequences
