import Sequences.Proofs.Instalments
import Sequences.Proofs.Interruption
import Sequences.Proofs.Lookahead
import Sequences.Proofs.Sifting

/-! How much of a replayable input is read for a number of groups. A group is
delivered at the very item that fills it, so a reader who quits has taken the items
of its groups and nothing else. Only a reader who wants more than there is meets the
end of the input, where a group that is not full is delivered. If the input breaks
off there instead, that group is lost. -/
namespace Sequences

variable {α : Type}

/-- How an event closes this leaf: with a failure, or else with its end. -/
def Event.closing? (leaf : Leaf) : Event α → Option Bool
  | ended other => if other = leaf then some false else none
  | failed other => if other = leaf then some true else none
  | _ => none

/-- For each time that the leaf closed by itself, whether it broke off. -/
def Leaf.closings (leaf : Leaf) (log : List (Event α)) : List Bool :=
  log.filterMap (Event.closing? leaf)

section Closings

variable (leaf : Leaf)

theorem Leaf.closings_sourceEnd {σ : Type} (breaks : Bool) (pool : Pool α) :
    leaf.closings (Feed.sourceEnd leaf breaks pool : Turn (Cursor σ) α α).log = [breaks] := by
  cases breaks <;> simp [Feed.sourceEnd, closings, Event.closing?]

@[simp]
theorem Leaf.closings_append (log more : List (Event α)) :
    leaf.closings (log ++ more) = leaf.closings log ++ leaf.closings more :=
  List.filterMap_append ..

@[simp]
theorem Leaf.closings_stopCursor {σ : Type} (cursor : Cursor σ) :
    leaf.closings (Feed.stopCursor leaf cursor : List (Event α)) = [] := by
  cases cursor <;> rfl

theorem Leaf.ended_mem_iff {log : List (Event α)} :
    .ended leaf ∈ log ↔ false ∈ leaf.closings log := by
  rw [closings, List.mem_filterMap]
  constructor
  · intro hEnded
    exact ⟨.ended leaf, hEnded, if_pos rfl⟩
  · rintro ⟨event, hEvent, hClosing⟩
    cases event <;> simp_all [Event.closing?]

theorem Leaf.failed_mem_iff {log : List (Event α)} :
    .failed leaf ∈ log ↔ true ∈ leaf.closings log := by
  rw [closings, List.mem_filterMap]
  constructor
  · intro hFailed
    exact ⟨.failed leaf, hFailed, if_pos rfl⟩
  · rintro ⟨event, hEvent, hClosing⟩
    cases event <;> simp_all [Event.closing?]

end Closings

section Facing

variable {items rest : List α} {cursor : Cursor (List α)}

theorem Facing.replay_cons (leaf : Leaf) (breaks : Bool) {x : α} {xs : List α}
    (hFacing : Facing items cursor (x :: xs)) (pool : Pool α) :
    let turn := (Feed.replay leaf items breaks).next cursor pool
    turn.reply = .item x ∧ Facing items turn.state xs ∧ emittedBy leaf.name turn.log = [x] ∧
      leaf.closings turn.log = [] := by
  rcases hFacing with ⟨rfl, rfl⟩ | rfl
  · exact ⟨rfl, .inr rfl, by simp [Feed.replay, Feed.noteStart, Feed.replayFrom, emittedBy_emitted],
      rfl⟩
  · exact ⟨rfl, .inr rfl, by simp [Feed.replay, Feed.replayFrom, emittedBy_emitted], rfl⟩

theorem Facing.replay_nil (leaf : Leaf) (breaks : Bool) (hFacing : Facing items cursor [])
    (pool : Pool α) :
    let turn := (Feed.replay leaf items breaks).next cursor pool
    turn.reply = (if breaks then .failed (.source leaf.name) else .ended) ∧
      emittedBy leaf.name turn.log = [] ∧ leaf.closings turn.log = [breaks] := by
  have hReply : (Feed.sourceEnd leaf breaks pool : Turn (Cursor (List α)) α α).reply =
      if breaks then .failed (.source leaf.name) else .ended := by
    cases breaks <;> rfl
  have hEmitted := emittedBy_sourceEnd (σ := List α) leaf.name leaf breaks pool
  have hClosings := leaf.closings_sourceEnd (σ := List α) breaks pool
  rcases hFacing with ⟨rfl, rfl⟩ | rfl
  · exact ⟨hReply, hEmitted, hClosings⟩
  · exact ⟨hReply, hEmitted, hClosings⟩

/-- Gathering takes what it is asked for, or else it takes all and closes the input. -/
theorem Facing.gather (leaf : Leaf) (breaks : Bool) (hFacing : Facing items cursor rest)
    (count : Nat) (pool : Pool α) :
    let group := Feed.gather (Feed.replay leaf items breaks) count cursor pool
    group.taken = rest.take count ∧ emittedBy leaf.name group.log = rest.take count ∧
      ((count ≤ rest.length ∧ group.halt = .full ∧ Facing items group.state (rest.drop count) ∧
          leaf.closings group.log = []) ∨
        (rest.length < count ∧
          group.halt = (if breaks then .failed (.source leaf.name) else .ended) ∧
          leaf.closings group.log = [breaks])) := by
  induction count generalizing cursor rest pool with
  | zero => exact ⟨rfl, rfl, .inl ⟨Nat.zero_le _, rfl, hFacing, rfl⟩⟩
  | succ count ih =>
      intro group
      simp only [group, Feed.gather]
      cases rest with
      | nil =>
          obtain ⟨hReply, hEmitted, hClosings⟩ := hFacing.replay_nil leaf breaks pool
          cases breaks with
          | false =>
              simp only [hReply, Bool.false_eq_true, if_false]
              exact ⟨rfl, hEmitted, .inr ⟨Nat.succ_pos count, trivial, hClosings⟩⟩
          | true =>
              simp only [hReply, if_true]
              exact ⟨rfl, hEmitted, .inr ⟨Nat.succ_pos count, trivial, hClosings⟩⟩
      | cons x xs =>
          obtain ⟨hReply, hLater, hEmitted, hClosings⟩ := hFacing.replay_cons leaf breaks pool
          obtain ⟨hTaken, hGiven, hHalt⟩ :=
            ih hLater ((Feed.replay leaf items breaks).next cursor pool).pool
          simp only [hReply, emittedBy_append, hEmitted, hGiven, hTaken, Leaf.closings_append,
            hClosings, List.nil_append]
          refine ⟨rfl, rfl, ?_⟩
          rcases hHalt with ⟨hCount, hFull⟩ | ⟨hCount, hClosed⟩
          · exact .inl ⟨Nat.succ_le_succ hCount, hFull⟩
          · exact .inr ⟨Nat.succ_lt_succ hCount, hClosed⟩

end Facing

/-- Induction on a list by its groups: one that is too short for a group, or a group
and what stands behind it. -/
@[elab_as_elim]
theorem groupInduction {size : Nat} (hSize : 0 < size) {motive : List α → Prop}
    (short : ∀ rest, rest.length < size → motive rest)
    (full : ∀ rest, size ≤ rest.length → motive (rest.drop size) → motive rest)
    (rest : List α) : motive rest := by
  by_cases hFull : size ≤ rest.length
  · exact full rest hFull (groupInduction hSize short full (rest.drop size))
  · exact short rest (Nat.lt_of_not_le hFull)
termination_by rest.length
decreasing_by
  rw [List.length_drop]
  omega

/-- The groups that an input with these items delivers. If it breaks off behind them,
these are the full ones. -/
def deliverable (size : Nat) (breaks : Bool) (rest : List α) : List (List α) :=
  if breaks then (groups size rest).take (rest.length / size) else groups size rest

section Deliverable

variable {size : Nat} {breaks : Bool} {rest : List α}

theorem deliverable_of_full (hSize : 0 < size) (breaks : Bool) (hFull : size ≤ rest.length) :
    deliverable size breaks rest = rest.take size :: deliverable size breaks (rest.drop size) := by
  have hRest : rest ≠ [] := List.ne_nil_of_length_pos (by omega)
  unfold deliverable
  rw [Feed.groups_of_ne_nil hSize hRest, List.length_drop, Nat.div_eq_sub_div hSize hFull]
  cases breaks <;> rfl

theorem deliverable_of_short (hShort : rest.length < size) :
    deliverable size breaks rest = if breaks || rest.isEmpty then [] else [rest] := by
  unfold deliverable
  cases breaks with
  | true => simp [Nat.div_eq_of_lt hShort]
  | false =>
      cases rest with
      | nil => simp [groups]
      | cons x xs =>
          rw [Feed.groups_of_ne_nil (by omega) (List.cons_ne_nil x xs),
            List.take_of_length_le (Nat.le_of_lt hShort),
            List.drop_of_length_le (Nat.le_of_lt hShort), groups]
          rfl

/-- An input that breaks off has delivered as many groups as its items can fill. -/
theorem length_deliverable (hSize : 0 < size) (rest : List α) :
    (deliverable size true rest).length = rest.length / size := by
  induction rest using groupInduction hSize with
  | short rest hShort =>
      rw [deliverable_of_short hShort, Nat.div_eq_of_lt hShort]
      rfl
  | full rest hFull ih =>
      rw [deliverable_of_full hSize true hFull, List.length_cons, ih, List.length_drop,
        Nat.div_eq_sub_div hSize hFull]

theorem length_of_mem_deliverable (hSize : 0 < size) (rest : List α) :
    ∀ group ∈ deliverable size true rest, group.length = size := by
  induction rest using groupInduction hSize with
  | short rest hShort => simp [deliverable_of_short hShort]
  | full rest hFull ih =>
      rw [deliverable_of_full hSize true hFull, List.forall_mem_cons]
      exact ⟨List.length_take_of_le hFull, ih⟩

end Deliverable

/-- Whether so many groups hold more items than there are. -/
def Limit.wantsMore (limit : Limit) (size length : Nat) : Bool :=
  match limit with
  | none => true
  | some k => decide (length < k * size)

section Limit

variable {limit : Limit} {size : Nat} {rest : List α}

theorem Limit.wantsMore_of_full {length : Nat} (hLimit : limit ≠ some 0) (hFull : size ≤ length) :
    limit.wantsMore size length =
      Limit.wantsMore (limit.map (· - 1)) size (length - size) := by
  match limit with
  | none => rfl
  | some 0 => exact absurd rfl hLimit
  | some (k + 1) =>
      show decide (length < (k + 1) * size) = decide (length - size < k * size)
      rw [Nat.succ_mul, decide_eq_decide]
      omega

theorem Limit.wantsMore_of_short {length : Nat} (hLimit : limit ≠ some 0)
    (hShort : length < size) : limit.wantsMore size length = true := by
  match limit with
  | none => rfl
  | some 0 => exact absurd rfl hLimit
  | some (k + 1) =>
      apply decide_eq_true
      rw [Nat.succ_mul]
      omega

theorem Limit.cut_groups_of_full (hLimit : limit ≠ some 0) :
    Limit.cut (limit.map (· * size)) rest = rest.take size ++
      Limit.cut ((limit.map (· - 1)).map (· * size)) (rest.drop size) := by
  match limit with
  | none => exact (List.take_append_drop size rest).symm
  | some 0 => exact absurd rfl hLimit
  | some (k + 1) =>
      show rest.take ((k + 1) * size) = rest.take size ++ (rest.drop size).take (k * size)
      rw [Nat.succ_mul, Nat.add_comm, List.take_add]

theorem Limit.cut_groups_of_short (hLimit : limit ≠ some 0) (hShort : rest.length < size) :
    Limit.cut (limit.map (· * size)) rest = rest := by
  match limit with
  | none => rfl
  | some 0 => exact absurd rfl hLimit
  | some (k + 1) =>
      show rest.take ((k + 1) * size) = rest
      apply List.take_of_length_le
      rw [Nat.succ_mul]
      omega

end Limit

/-- The groups of an input that begins anew for each reading. -/
abbrev Feed.replayedGroups (leaf : Leaf) (items : List α) (breaks : Bool) (size : Nat)
    (hSize : 0 < size) : Feed α (List α) :=
  .groups (.replay leaf items breaks) size hSize

/-- What a demand for a group can do while the input has `rest` in front of it. -/
inductive Handed (size : Nat) (leaf : Leaf) (items : List α) (breaks : Bool) (rest : List α)
    (turn : Turn (Feed.GroupState (Cursor (List α))) α (List α)) : Prop where
  | full (hFull : size ≤ rest.length) (hReply : turn.reply = .item (rest.take size))
      (hEmitted : emittedBy leaf.name turn.log = rest.take size)
      (hClosings : leaf.closings turn.log = []) (hDrained : turn.state.drained = false)
      (hFacing : Facing items turn.state.inner (rest.drop size))
  | short (hShort : rest.length < size)
      (hReply : turn.reply = if breaks then .failed (.source leaf.name)
        else if rest.isEmpty then .ended else .item rest)
      (hEmitted : emittedBy leaf.name turn.log = rest)
      (hClosings : leaf.closings turn.log = [breaks])
      (hDrained : breaks = false → turn.state.drained = true)

section Ration

variable {size : Nat} {leaf : Leaf} {items rest : List α} {breaks : Bool} {limit : Limit}

theorem replayedGroups_next (hSize : 0 < size) (breaks : Bool)
    {state : Feed.GroupState (Cursor (List α))} (hDrained : state.drained = false)
    (hFacing : Facing items state.inner rest) (pool : Pool α) :
    Handed size leaf items breaks rest
      ((Feed.replayedGroups leaf items breaks size hSize).next state pool) := by
  change Handed size leaf items breaks rest
    (Feed.groupNext (Feed.replay leaf items breaks) size state pool)
  obtain ⟨hTaken, hEmitted, hHalt⟩ := hFacing.gather leaf breaks size pool
  unfold Feed.groupNext
  rcases hHalt with ⟨hFull, hHalt, hLater, hClosings⟩ | ⟨hShort, hHalt, hClosings⟩
  · simp only [hDrained, hHalt, hTaken]
    exact .full hFull rfl hEmitted hClosings rfl hLater
  · rw [List.take_of_length_le (Nat.le_of_lt hShort)] at hTaken hEmitted
    cases breaks with
    | true =>
        simp only [hDrained, hHalt, if_true]
        exact .short hShort rfl hEmitted hClosings (fun hFalse => absurd hFalse (by decide))
    | false =>
        simp only [hDrained, hHalt, hTaken, Bool.false_eq_true, if_false]
        exact .short hShort rfl hEmitted hClosings (fun _ => rfl)

/-- What a reader of groups gets and takes of an input that has `rest` in front of it,
and how the input closes if the reader wants more than that. -/
structure Ration (size : Nat) (leaf : Leaf) (breaks : Bool) (limit : Limit) (rest : List α)
    (reading : Reading α (List α)) : Prop where
  got : reading.got = limit.cut (deliverable size breaks rest)
  taken : reading.taken leaf.name = Limit.cut (limit.map (· * size)) rest
  closings : leaf.closings (eventsIn reading.notes) =
    if limit.wantsMore size rest.length then [breaks] else []
  fault : reading.fault =
    if breaks && limit.wantsMore size rest.length then some (.source leaf.name) else none

variable {reading : Reading α (List α)}

/-- A full group in front of a reading of what stands behind it. -/
theorem Ration.after (hSize : 0 < size) (hLimit : limit ≠ some 0) (hFull : size ≤ rest.length)
    {log : List (Event α)} (hEmitted : emittedBy leaf.name log = rest.take size)
    (hClosings : leaf.closings log = [])
    (hLater : Ration size leaf breaks (limit.map (· - 1)) (rest.drop size) reading) :
    Ration size leaf breaks limit rest ⟨rest.take size :: reading.got,
      log.map .event ++ .received (rest.take size) :: reading.notes, reading.fault⟩ := by
  have hMore := Limit.wantsMore_of_full hLimit hFull
  rw [← List.length_drop] at hMore
  constructor
  case got => rw [deliverable_of_full hSize breaks hFull, Limit.cut_cons hLimit, hLater.got]
  case taken =>
    rw [Limit.cut_groups_of_full hLimit, ← hLater.taken]
    simp [Reading.taken, hEmitted]
  case closings =>
    rw [hMore, ← hLater.closings]
    simp [hClosings]
  case fault => rw [hMore, ← hLater.fault]

/-- A reader who quits gets and takes nothing more, and closes nothing. -/
theorem ration_of_quit (size : Nat) (breaks : Bool) (rest : List α) {log : List (Event α)}
    (hEmitted : emittedBy leaf.name log = []) (hClosings : leaf.closings log = []) :
    Ration size leaf breaks (some 0) rest ⟨[], .quit :: log.map .event, none⟩ := by
  constructor
  case got => rfl
  case taken => simp [Reading.taken, hEmitted, Limit.cut]
  case closings => simp [hClosings, Limit.wantsMore]
  case fault => simp [Limit.wantsMore]

/-- Whoever wants a group of fewer items than it needs closes the input. -/
theorem ration_of_short (hLimit : limit ≠ some 0) (hShort : rest.length < size)
    (hGot : reading.got = if breaks || rest.isEmpty then [] else [rest])
    (hTaken : reading.taken leaf.name = rest)
    (hClosings : leaf.closings (eventsIn reading.notes) = [breaks])
    (hFault : reading.fault = if breaks then some (.source leaf.name) else none) :
    Ration size leaf breaks limit rest reading := by
  have hMore := Limit.wantsMore_of_short hLimit hShort
  constructor
  case got =>
    rw [deliverable_of_short hShort, hGot]
    split
    · cases limit <;> simp [Limit.cut]
    · rw [Limit.cut_cons hLimit]
      cases limit <;> simp [Limit.cut]
  case taken => rw [Limit.cut_groups_of_short hLimit hShort, hTaken]
  case closings => rw [hMore, hClosings, if_pos rfl]
  case fault => rw [hMore, hFault, Bool.and_true]

/-- Behind the last group there is nothing to be done, whether or not the reader
looks for it. -/
theorem visitFrom_last (hSize : 0 < size) (hLimit : limit ≠ some 0)
    {state : (Feed.replayedGroups leaf items breaks size hSize).State} {pool : Pool α}
    {turn : Turn (Feed.GroupState (Cursor (List α))) α (List α)}
    (hTurn : (Feed.replayedGroups leaf items breaks size hSize).next state pool = turn)
    {group : List α} (hReply : turn.reply = .item group) (hDrained : turn.state.drained = true) :
    ∃ notes, ((Feed.replayedGroups leaf items breaks size hSize).visitFrom limit state
        pool).reading = ⟨[group], turn.log.map .event ++ .received group :: notes, none⟩ ∧
      emittedBy leaf.name (eventsIn notes) = [] ∧ leaf.closings (eventsIn notes) = [] := by
  subst hTurn
  by_cases hOne : limit = some 1
  · subst hOne
    rw [Feed.visitFrom_of_item_one hReply]
    refine ⟨_, rfl, ?_, ?_⟩
    · rw [eventsIn_quit_cons, eventsIn_map_event]
      exact emittedBy_stopCursor leaf.name leaf _
    · rw [eventsIn_quit_cons, eventsIn_map_event]
      exact leaf.closings_stopCursor _
  · have hNext (later : (Feed.replayedGroups leaf items breaks size hSize).State)
        (hLater : later.drained = true) (pool : Pool α) :
        (Feed.replayedGroups leaf items breaks size hSize).next later pool =
          ⟨.ended, later, pool, []⟩ := if_pos hLater
    have hEnded := hNext _ hDrained
      ((Feed.replayedGroups leaf items breaks size hSize).next state pool).pool
    rw [Feed.visitFrom_of_item_more limit (Feed.two_le_of_limit_ne hLimit hOne) hReply,
      Feed.visitFrom_of_ended _ (by rw [hEnded]), hEnded]
    exact ⟨[], rfl, rfl, rfl⟩

/-- The run lemma, by induction on the groups in front of the reader. -/
theorem visitFrom_ration (hSize : 0 < size) (limit : Limit) (hLimit : limit ≠ some 0)
    (state : (Feed.replayedGroups leaf items breaks size hSize).State)
    (hDrained : state.drained = false) (hFacing : Facing items state.inner rest)
    (pool : Pool α) :
    Ration size leaf breaks limit rest
      ((Feed.replayedGroups leaf items breaks size hSize).visitFrom limit state pool).reading := by
  induction rest using groupInduction hSize generalizing limit state pool with
  | short rest hShort =>
      cases replayedGroups_next hSize breaks hDrained hFacing pool with
      | full hFull => exact absurd hFull (Nat.not_le.mpr hShort)
      | short _ hReply hEmitted hClosings hLast =>
          cases breaks with
          | true =>
              rw [Feed.visitFrom_of_failed limit hReply]
              apply ration_of_short hLimit hShort
              case hGot => simp [Visit.reading]
              case hTaken => simpa [Visit.reading, Reading.taken] using hEmitted
              case hClosings => simpa [Visit.reading] using hClosings
              case hFault => rfl
          | false =>
              cases hRest : rest.isEmpty with
              | true =>
                  rw [hRest] at hReply
                  rw [Feed.visitFrom_of_ended limit hReply]
                  apply ration_of_short hLimit hShort
                  case hGot => simp [Visit.reading, hRest]
                  case hTaken => simpa [Visit.reading, Reading.taken] using hEmitted
                  case hClosings => simpa [Visit.reading] using hClosings
                  case hFault => rfl
              | false =>
                  rw [hRest] at hReply
                  obtain ⟨notes, hReading, hNothing, hOpen⟩ :=
                    visitFrom_last hSize hLimit rfl hReply (hLast rfl)
                  rw [hReading]
                  apply ration_of_short hLimit hShort
                  case hGot => simp [hRest]
                  case hTaken => simp [Reading.taken, hEmitted, hNothing]
                  case hClosings => simp [hClosings, hOpen]
                  case hFault => rfl
  | full rest hFull ih =>
      cases replayedGroups_next hSize breaks hDrained hFacing pool with
      | short hShort => exact absurd hFull (Nat.not_le.mpr hShort)
      | full _ hReply hEmitted hClosings hOpen hLater =>
          by_cases hOne : limit = some 1
          · subst hOne
            rw [Feed.visitFrom_of_item_one hReply]
            have hQuit := ration_of_quit size breaks (rest.drop size)
              (emittedBy_stopCursor leaf.name leaf
                ((Feed.replayedGroups leaf items breaks size hSize).next state pool).state.inner)
              (leaf.closings_stopCursor _)
            exact .after hSize hLimit hFull hEmitted hClosings hQuit
          have hMore := Feed.two_le_of_limit_ne hLimit hOne
          have hLess : limit.map (· - 1) ≠ some 0 := by
            intro hZero
            obtain ⟨k, hk, hSub⟩ := Option.map_eq_some_iff.mp hZero
            have hTwo := hMore k hk
            omega
          rw [Feed.visitFrom_of_item_more limit hMore hReply]
          exact .after hSize hLimit hFull hEmitted hClosings (ih _ hLess _ hOpen hLater _)

/-- The items of the groups that were wanted are taken, as far as there are any. -/
theorem Ration.demand {k : Nat} (hRation : Ration size leaf false (some k) rest reading) :
    (reading.taken leaf.name).length = min (k * size) rest.length ∧
      (.ended leaf ∈ eventsIn reading.notes ↔ rest.length < k * size) := by
  constructor
  · rw [hRation.taken]
    exact List.length_take
  · rw [leaf.ended_mem_iff, hRation.closings]
    simp [Limit.wantsMore]

/-- The reader of an input that breaks off quits before that if the groups it wants
can all be filled. -/
theorem Ration.quit_iff (hSize : 0 < size) (hRation : Ration size leaf true limit rest reading) :
    limit = some reading.got.length ↔ ∃ k, limit = some k ∧ k * size ≤ rest.length := by
  cases limit with
  | none => simp
  | some k =>
      have hLength : reading.got.length = min k (rest.length / size) := by
        rw [hRation.got, ← length_deliverable hSize rest]
        exact List.length_take
      rw [Option.some.injEq, hLength, left_eq_inf, Nat.le_div_iff_mul_le hSize]
      simp

/-- A reader who stays until the input breaks off has received all full groups. -/
theorem Ration.of_stays (hSize : 0 < size) (hRation : Ration size leaf true limit rest reading)
    (hStays : ¬∃ k, limit = some k ∧ k * size ≤ rest.length) :
    reading.fault = some (.source leaf.name) ∧ .failed leaf ∈ eventsIn reading.notes ∧
      reading.taken leaf.name = rest ∧ reading.got = deliverable size true rest := by
  have hFew (k : Nat) (hLimit : limit = some k) : rest.length < k * size :=
    Nat.lt_of_not_le fun hLe => hStays ⟨k, hLimit, hLe⟩
  have hMore : limit.wantsMore size rest.length = true := by
    cases limit with
    | none => rfl
    | some k => exact decide_eq_true (hFew k rfl)
  refine ⟨?_, ?_, ?_, ?_⟩
  · rw [hRation.fault, hMore]
    rfl
  · rw [leaf.failed_mem_iff, hRation.closings, hMore]
    simp
  · rw [hRation.taken]
    cases limit with
    | none => rfl
    | some k => exact List.take_of_length_le (Nat.le_of_lt (hFew k rfl))
  · rw [hRation.got]
    cases limit with
    | none => rfl
    | some k =>
        apply List.take_of_length_le
        rw [length_deliverable hSize]
        exact Nat.le_of_lt ((Nat.div_lt_iff_lt_mul hSize).mpr (hFew k rfl))

end Ration

namespace Plan

variable {κ : Type} [BEq κ]

theorem groupReadings_ration (name : String) (input : Source α) (hInput : input.singleUse = false)
    {size : Nat} (hSize : 0 < size) {limits : List Limit} {index : Nat} {limit : Limit}
    (hLimit : limits[index]? = some limit) (hWants : limit ≠ some 0) :
    ∃ readings reading, (source name input : Plan α κ).groupReadings size limits = .ok readings ∧
      readings[index]? = some reading ∧
      Ration size ⟨name, []⟩ input.breaks limit input.items reading ∧
      (.quit ∈ reading.notes ↔ limit = some reading.got.length) := by
  obtain ⟨items, breaks, singleUse⟩ := input
  cases hInput
  let feed := Feed.replayedGroups ⟨name, []⟩ items breaks size hSize
  let leg (limit : Limit) (reading : Reading α (List α)) : Prop := limit ≠ some 0 →
    Ration size ⟨name, []⟩ breaks limit items reading ∧
      (.quit ∈ reading.notes ↔ limit = some reading.got.length)
  have hVisit (limit : Limit) (state : feed.State) (pool : Pool α) (hFresh : feed.Fresh state) :
      leg limit (feed.visitFrom limit state pool).reading := by
    intro hWants
    have hQuit := feed.quit_mem_visitFrom_iff hWants state pool
    rcases hFresh with rfl | ⟨earlier, rfl⟩
    · exact ⟨visitFrom_ration hSize limit hWants _ rfl (.inl ⟨rfl, rfl⟩) pool, hQuit⟩
    · exact ⟨visitFrom_ration hSize limit hWants _ rfl (.inl ⟨rfl, rfl⟩) pool, hQuit⟩
  obtain ⟨reading, hReading, hLeg⟩ := feed.exists_reading hVisit hLimit ⟨[]⟩
  refine ⟨_, reading, ?_, hReading, hLeg hWants⟩
  rw [groupReadings, Feed.groups?, dif_pos (Int.natCast_pos.mpr hSize)]
  rfl

/-- A reader of groups takes the items of the groups it wants and no others, and meets
the end only if there are fewer. If the input breaks off first, it has received
the full groups of what the input had given. -/
theorem groupReadings_demand (name : String) (xs : List α) {size : Int} (hSize : 0 < size)
    {limits : List Limit} {index : Nat} {limit : Limit} (hLimit : limits[index]? = some limit)
    (hWants : limit ≠ some 0) :
    let leaf : Leaf := ⟨name, []⟩
    let plan (failAt : Option Int) : Plan α κ := .source name (.ofItems xs failAt false)
    (∃ readings reading, (plan none).groupReadings size limits = .ok readings ∧
      readings[index]? = some reading ∧ reading.fault = none ∧
      reading.got = limit.cut (groups size.toNat xs) ∧ reading.taken name <+: xs ∧
      ∀ k : Nat, limit = some k →
        ((reading.taken name).length : Int) = min (k * size) xs.length ∧
        (.ended leaf ∈ eventsIn reading.notes ↔ k * size > xs.length)) ∧
    ∀ p : Nat, p ≤ xs.length → ∃ readings reading,
      (plan (some p)).groupReadings size limits = .ok readings ∧
      readings[index]? = some reading ∧
      (.quit ∈ reading.notes ↔ ∃ k : Nat, limit = some k ∧ k * size ≤ p) ∧
      (.quit ∉ reading.notes →
        reading.fault = some (.source name) ∧ .failed leaf ∈ eventsIn reading.notes ∧
        reading.taken name = xs.take p ∧
        reading.got = (groups size.toNat (xs.take p)).take (p / size.toNat) ∧
        (reading.got.length : Int) = p / size ∧
        ∀ group ∈ reading.got, (group.length : Int) = size) := by
  intro leaf plan
  obtain ⟨size, rfl⟩ := Int.eq_ofNat_of_zero_le (Int.le_of_lt hSize)
  have hPos : 0 < size := Int.natCast_pos.mp hSize
  rw [Int.toNat_natCast]
  constructor
  · obtain ⟨readings, reading, hReadings, hReading, hRation, -⟩ :=
      groupReadings_ration (κ := κ) name (.ofItems xs none false) rfl hPos hLimit hWants
    change Ration size leaf false limit xs reading at hRation
    refine ⟨readings, reading, hReadings, hReading, hRation.fault, hRation.got, ?_, ?_⟩
    · change reading.taken leaf.name <+: xs
      rw [hRation.taken]
      cases limit with
      | none => exact List.prefix_refl xs
      | some k => exact List.take_prefix (k * size) xs
    · rintro k rfl
      obtain ⟨hTaken, hEnded⟩ := hRation.demand
      change (reading.taken name).length = _ at hTaken
      rw [hTaken, hEnded, gt_iff_lt]
      norm_cast
  · intro p hp
    have hInput : Source.ofItems xs (some (p : Int)) false = ⟨xs.take p, true, false⟩ :=
      if_pos ⟨Int.natCast_nonneg p, Int.ofNat_le.mpr hp⟩
    have hLength : (xs.take p).length = p := List.length_take_of_le hp
    obtain ⟨readings, reading, hReadings, hReading, hRation, hQuit⟩ :=
      groupReadings_ration (κ := κ) name ⟨xs.take p, true, false⟩ rfl hPos hLimit hWants
    change Ration size leaf true limit (xs.take p) reading at hRation
    rw [← hInput] at hReadings
    rw [hRation.quit_iff hPos, hLength] at hQuit
    refine ⟨readings, reading, hReadings, hReading, ?_, ?_⟩
    · rw [hQuit]
      norm_cast
    · intro hStays
      rw [hQuit, ← hLength] at hStays
      obtain ⟨hFault, hFailed, hTaken, hGot⟩ := hRation.of_stays hPos hStays
      refine ⟨hFault, hFailed, hTaken, ?_, ?_, ?_⟩
      · rw [hGot, deliverable, if_pos rfl, hLength]
      · rw [hGot, length_deliverable hPos, hLength, Int.natCast_ediv]
      · intro group hGroup
        rw [hGot] at hGroup
        exact congrArg Int.ofNat (length_of_mem_deliverable hPos _ group hGroup)

/-- Five items in pairs. Two pairs leave the fifth item alone, and a third group meets
the end, as does a single group of the largest size. If the input breaks off right
behind the fifth item, this item is lost. -/
theorem groupReadings_fiveInPairs :
    let leaf : Leaf := ⟨"list", []⟩
    let plan (failAt : Option Int) : Plan UInt64 Value :=
      .source "list" (.ofItems [1, 2, 3, 4, 5] failAt false)
    let limits : List Limit := [some 2, some 3, none]
    (∃ readings, ∃ reading : Reading UInt64 (List UInt64),
      (plan none).groupReadings 2 limits = .ok readings ∧
      readings[0]? = some reading ∧ reading.got = [[1, 2], [3, 4]] ∧
      (reading.taken "list").length = 4 ∧ .ended leaf ∉ eventsIn reading.notes) ∧
    (∃ readings, ∃ reading : Reading UInt64 (List UInt64),
      (plan none).groupReadings 2 limits = .ok readings ∧
      readings[1]? = some reading ∧ reading.got = [[1, 2], [3, 4], [5]] ∧
      (reading.taken "list").length = 5 ∧ .ended leaf ∈ eventsIn reading.notes) ∧
    (∃ readings, ∃ reading : Reading UInt64 (List UInt64),
      (plan none).groupReadings 9223372036854775807 [some 1] = .ok readings ∧
      readings[0]? = some reading ∧ (reading.taken "list").length = 5 ∧
      .ended leaf ∈ eventsIn reading.notes) ∧
    ∃ readings, ∃ reading : Reading UInt64 (List UInt64),
      (plan (some 5)).groupReadings 2 limits = .ok readings ∧
      readings[2]? = some reading ∧ reading.fault = some (.source "list") ∧
      reading.got = [[1, 2], [3, 4]] := by
  intro leaf plan limits
  have hSize : (0 : Int) < 2 := by decide
  refine ⟨?_, ?_, ?_, ?_⟩
  · obtain ⟨⟨readings, reading, hReadings, hReading, -, hGot, -, hDemand⟩, -⟩ :=
      groupReadings_demand (κ := Value) "list" ([1, 2, 3, 4, 5] : List UInt64) hSize
        (rfl : limits[0]? = some (some 2)) (by decide)
    obtain ⟨hTaken, hEnded⟩ := hDemand 2 rfl
    refine ⟨readings, reading, hReadings, hReading, ?_, Int.ofNat_inj.mp hTaken, ?_⟩
    · simpa [groups, Limit.cut] using hGot
    · exact fun hMem => absurd (hEnded.mp hMem) (by decide)
  · obtain ⟨⟨readings, reading, hReadings, hReading, -, hGot, -, hDemand⟩, -⟩ :=
      groupReadings_demand (κ := Value) "list" ([1, 2, 3, 4, 5] : List UInt64) hSize
        (rfl : limits[1]? = some (some 3)) (by decide)
    obtain ⟨hTaken, hEnded⟩ := hDemand 3 rfl
    refine ⟨readings, reading, hReadings, hReading, ?_, Int.ofNat_inj.mp hTaken, ?_⟩
    · simpa [groups, Limit.cut] using hGot
    · exact hEnded.mpr (by decide)
  · obtain ⟨⟨readings, reading, hReadings, hReading, -, -, -, hDemand⟩, -⟩ :=
      groupReadings_demand (κ := Value) "list" ([1, 2, 3, 4, 5] : List UInt64)
        (by decide : (0 : Int) < 9223372036854775807)
        (rfl : ([some 1] : List Limit)[0]? = some (some 1)) (by decide)
    obtain ⟨hTaken, hEnded⟩ := hDemand 1 rfl
    exact ⟨readings, reading, hReadings, hReading, Int.ofNat_inj.mp hTaken,
      hEnded.mpr (by decide)⟩
  · obtain ⟨-, hBreaks⟩ :=
      groupReadings_demand (κ := Value) "list" ([1, 2, 3, 4, 5] : List UInt64) hSize
        (rfl : limits[2]? = some none) (by decide)
    obtain ⟨readings, reading, hReadings, hReading, hQuit, hStays⟩ := hBreaks 5 (by decide)
    obtain ⟨hFault, -, -, hGot, -⟩ := hStays (by simp [hQuit])
    refine ⟨readings, reading, hReadings, hReading, hFault, ?_⟩
    simpa [groups] using hGot

end Plan

end Sequences
