import Sequences.Proofs.Conservation
import Sequences.Proofs.Regrouping

/-! A single-use input that is read in groups, a few groups at a time. A group is
delivered at the very item that fills it, so a reader who quits between two groups
leaves nothing behind that was taken, and the next reading goes on with the next
item. All groups of all readings, joined, are what the input has given so far. -/
namespace Sequences

variable {α : Type}

namespace Feed

section Draw

variable {leaf : Leaf} {cursor : Cursor Unit} {pool : Pool α}

theorem draw_next_of_cons (hOpen : cursor.isClosed = false) {x : α} {xs : List α}
    (hRest : pool.rest leaf.name = x :: xs) :
    let turn := (draw leaf false).next cursor pool
    turn.reply = .item x ∧ turn.state.isClosed = false ∧ turn.pool.rest leaf.name = xs ∧
      emittedBy leaf.name turn.log = [x] := by
  cases cursor with
  | closed => cases hOpen
  | idle => simp [draw, noteStart, drawFrom, hRest, Cursor.isClosed, emittedBy_emitted]
  | reading _ => simp [draw, drawFrom, hRest, Cursor.isClosed, emittedBy_emitted]

theorem draw_next_of_nil (hOpen : cursor.isClosed = false) (hRest : pool.rest leaf.name = []) :
    let turn := (draw leaf false).next cursor pool
    turn.reply = .ended ∧ .ended leaf ∈ turn.log ∧ emittedBy leaf.name turn.log = [] := by
  cases cursor with
  | closed => cases hOpen
  | idle => simp [draw, noteStart, drawFrom, hRest, sourceEnd, emittedBy, Event.emittedBy?]
  | reading _ => simp [draw, drawFrom, hRest, sourceEnd, emittedBy, Event.emittedBy?]

/-- Gathering takes what it is asked for, or else it takes all and meets the end. -/
theorem gather_draw (leaf : Leaf) (hOpen : cursor.isClosed = false) (count : Nat)
    (pool : Pool α) :
    let group := gather (draw leaf false) count cursor pool
    group.taken = (pool.rest leaf.name).take count ∧
      emittedBy leaf.name group.log = group.taken ∧
      ((count ≤ (pool.rest leaf.name).length ∧ group.halt = .full ∧
          group.state.isClosed = false) ∨
        ((pool.rest leaf.name).length < count ∧ group.halt = .ended ∧
          .ended leaf ∈ group.log)) := by
  induction count generalizing cursor pool with
  | zero => exact ⟨rfl, rfl, .inl ⟨Nat.zero_le _, rfl, hOpen⟩⟩
  | succ count ih =>
      intro group
      simp only [group, gather]
      cases hRest : pool.rest leaf.name with
      | nil =>
          obtain ⟨hReply, hEnd, hEmitted⟩ := draw_next_of_nil hOpen hRest
          simp only [hReply]
          exact ⟨rfl, hEmitted, .inr ⟨Nat.succ_pos count, trivial, hEnd⟩⟩
      | cons x xs =>
          obtain ⟨hReply, hStill, hLater, hEmitted⟩ := draw_next_of_cons hOpen hRest
          obtain ⟨hTaken, hGiven, hHalt⟩ := ih hStill ((draw leaf false).next cursor pool).pool
          rw [hLater] at hTaken hHalt
          simp only [hReply, emittedBy_append, hEmitted, hGiven, hTaken]
          refine ⟨rfl, rfl, ?_⟩
          rcases hHalt with ⟨hCount, hFull⟩ | ⟨hCount, hEnded, hEnd⟩
          · exact .inl ⟨Nat.succ_le_succ hCount, hFull⟩
          · exact .inr ⟨Nat.succ_lt_succ hCount, hEnded, List.mem_append_right _ hEnd⟩

end Draw

end Feed

/-- The groups of a single-use input. -/
abbrev Feed.drawnGroups (leaf : Leaf) (size : Nat) (hSize : 0 < size) : Feed α (List α) :=
  .groups (.draw leaf false) size hSize

/-- A reader of groups can go on while the input holds `rest`: it is not told of
the end before it has met it. -/
def Ready (state : Feed.GroupState (Cursor Unit)) (rest : List α) : Prop :=
  (state.drained = false ∧ state.inner.isClosed = false) ∨ (state.drained = true ∧ rest = [])

/-- What a demand for a group can do. -/
inductive Filled (size : Nat) (leaf : Leaf) (rest : List α)
    (turn : Turn (Feed.GroupState (Cursor Unit)) α (List α)) : Prop where
  | ended (hRest : rest = []) (hReply : turn.reply = .ended)
      (hEmitted : emittedBy leaf.name turn.log = [])
  | item (hRest : rest ≠ []) (hReply : turn.reply = .item (rest.take size))
      (hEmitted : emittedBy leaf.name turn.log = rest.take size)
      (hLast : rest.length < size → .ended leaf ∈ turn.log)
      (hReady : Ready turn.state (rest.drop size))

theorem drawnGroups_next {size : Nat} (hSize : 0 < size) {leaf : Leaf}
    {state : Feed.GroupState (Cursor Unit)} {pool : Pool α}
    (hReady : Ready state (pool.rest leaf.name)) :
    Filled size leaf (pool.rest leaf.name)
      ((Feed.drawnGroups leaf size hSize).next state pool) := by
  change Filled size leaf _ (Feed.groupNext (Feed.draw leaf false) size state pool)
  unfold Feed.groupNext
  rcases hReady with ⟨hFresh, hOpen⟩ | ⟨hDrained, hRest⟩
  · obtain ⟨hTaken, hEmitted, hHalt⟩ := Feed.gather_draw leaf hOpen size pool
    rw [hTaken] at hEmitted
    rcases hHalt with ⟨hFull, hHalt, hStill⟩ | ⟨hShort, hHalt, hEnd⟩
    · have hRest : pool.rest leaf.name ≠ [] := List.ne_nil_of_length_pos (by omega)
      simp only [hFresh, hHalt, hTaken]
      exact .item hRest rfl hEmitted (fun hLess => absurd hFull (Nat.not_le.mpr hLess))
        (.inl ⟨rfl, hStill⟩)
    · have hDrop : (pool.rest leaf.name).drop size = [] :=
        List.drop_of_length_le (Nat.le_of_lt hShort)
      simp only [hFresh, hHalt, hTaken]
      by_cases hRest : pool.rest leaf.name = []
      · rw [hRest, List.take_nil] at hEmitted
        exact .ended hRest (by simp [hRest]) hEmitted
      · refine .item hRest ?_ hEmitted (fun _ => hEnd) (.inr ⟨rfl, hDrop⟩)
        simp [hRest, Nat.ne_of_gt hSize]
  · rw [if_pos hDrained]
    exact .ended hRest rfl rfl

/-- What a reading gets of an input that holds `rest` before and what is `left`
afterwards. A group that is not full tells that the input has met its end. -/
structure Instalment (size : Nat) (leaf : Leaf) (limit : Limit) (rest : List α)
    (reading : Reading α (List α)) (left : List α) : Prop where
  fault : reading.fault = none
  got : reading.got = limit.cut (groups size rest)
  taken : reading.taken leaf.name = reading.got.flatten
  split : rest = reading.taken leaf.name ++ left
  exhausted : ∀ group ∈ reading.got, group.length ≠ size → .ended leaf ∈ eventsIn reading.notes

section Instalment

variable {size : Nat} {leaf : Leaf} {limit : Limit} {rest left : List α}
  {reading : Reading α (List α)}

theorem Limit.cut_cons {β : Type} (hLimit : limit ≠ some 0) (x : β) (xs : List β) :
    limit.cut (x :: xs) = x :: Limit.cut (limit.map (· - 1)) xs := by
  match limit with
  | none => rfl
  | some 0 => exact absurd rfl hLimit
  | some (k + 1) => rfl

/-- A group in front of a reading of what is behind it. -/
theorem Instalment.after (hSize : 0 < size) (hLimit : limit ≠ some 0) (hRest : rest ≠ [])
    {log : List (Event α)} (hEmitted : emittedBy leaf.name log = rest.take size)
    (hLast : rest.length < size → .ended leaf ∈ log)
    (hLater : Instalment size leaf (limit.map (· - 1)) (rest.drop size) reading left) :
    Instalment size leaf limit rest ⟨rest.take size :: reading.got,
      log.map .event ++ .received (rest.take size) :: reading.notes, reading.fault⟩ left := by
  have hTaken := hLater.taken
  have hSplit := hLater.split
  unfold Reading.taken at hTaken hSplit
  constructor
  case fault => exact hLater.fault
  case got => rw [Feed.groups_of_ne_nil hSize hRest, Limit.cut_cons hLimit, hLater.got]
  case taken => simp [Reading.taken, hEmitted, hTaken]
  case split =>
    conv_lhs => rw [← List.take_append_drop size rest, hSplit]
    simp [Reading.taken, hEmitted]
  case exhausted =>
    intro group hGroup hLength
    rw [eventsIn_append, eventsIn_map_event, eventsIn_received_cons]
    rcases List.mem_cons.mp hGroup with rfl | hMem
    · rw [List.length_take] at hLength
      exact List.mem_append_left _ (hLast (by omega))
    · exact List.mem_append_right _ (hLater.exhausted group hMem hLength)

/-- A reader who quits gets and takes nothing more. -/
theorem instalment_of_quit (size : Nat) (rest : List α) {log : List (Event α)}
    (hLog : emittedBy leaf.name log = []) :
    Instalment size leaf (some 0) rest ⟨[], .quit :: log.map .event, none⟩ rest := by
  constructor
  case fault => rfl
  case got => rfl
  case taken => simp [Reading.taken, hLog]
  case split => simp [Reading.taken, hLog]
  case exhausted => simp

theorem visitFrom_instalment (hSize : 0 < size) (limit : Limit) (hLimit : limit ≠ some 0)
    (state : (Feed.drawnGroups leaf size hSize : Feed α (List α)).State) (pool : Pool α)
    (hReady : Ready state (pool.rest leaf.name)) :
    Instalment size leaf limit (pool.rest leaf.name)
      ((Feed.drawnGroups leaf size hSize).visitFrom limit state pool).reading
      (((Feed.drawnGroups leaf size hSize).visitFrom limit state pool).pool.rest leaf.name) := by
  have hDraw : (Feed.draw leaf false : Feed α α).Conserves leaf.name :=
    Feed.draw_conserves leaf false leaf.name
  have hNext := (hDraw.groups size hSize).next state pool
  have hStop := (hDraw.groups size hSize).stop
  cases drawnGroups_next hSize hReady with
  | ended hRest hReply hEmitted =>
      rw [hEmitted, List.nil_append] at hNext
      rw [Feed.visitFrom_of_ended limit hReply]
      constructor
      case fault => rfl
      case got =>
        rw [hRest, groups]
        cases limit <;> simp [Visit.reading, Limit.cut]
      case taken => simp [Visit.reading, Reading.taken, hEmitted]
      case split => simpa [Visit.reading, Reading.taken, hEmitted] using hNext
      case exhausted => simp [Visit.reading]
  | item hRest hReply hEmitted hLast hReady =>
      -- The group was all that the input gave, so the pool holds what stands behind it.
      have hDrop := hNext
      conv_lhs at hDrop => rw [← List.take_append_drop size (pool.rest leaf.name)]
      rw [hEmitted] at hDrop
      replace hDrop := List.append_cancel_left hDrop
      by_cases hOne : limit = some 1
      · subst hOne
        rw [Feed.visitFrom_of_item_one hReply]
        change Instalment size leaf (some 1) _ _ (Pool.rest _ leaf.name)
        rw [← hDrop]
        exact .after hSize hLimit hRest hEmitted hLast (instalment_of_quit size _ (hStop _))
      have hMore := Feed.two_le_of_limit_ne hLimit hOne
      have hLess : limit.map (· - 1) ≠ some 0 := by
        intro hZero
        obtain ⟨k, hk, hSub⟩ := Option.map_eq_some_iff.mp hZero
        have hTwo := hMore k hk
        omega
      rw [hDrop] at hReady
      have hLater := visitFrom_instalment hSize _ hLess _ _ hReady
      rw [← hDrop] at hLater
      rw [Feed.visitFrom_of_item_more limit hMore hReply]
      exact .after hSize hLimit hRest hEmitted hLast hLater
termination_by (Feed.drawnGroups leaf size hSize).bound state pool
decreasing_by all_goals exact Feed.bound_lt_of_item _ hReply

/-- Nothing gets lost between the readings. -/
theorem split_of_relay {limits : List Limit} {readings : List (Reading α (List α))}
    (hRelay : Relay (Instalment size leaf) rest limits readings left) :
    rest = readings.flatMap (Reading.taken leaf.name) ++ left ∧
      (readings.flatMap Reading.got).flatten = readings.flatMap (Reading.taken leaf.name) := by
  induction hRelay with
  | nil => exact ⟨rfl, rfl⟩
  | cons hLeg hLater ih =>
      obtain ⟨hRest, hGot⟩ := ih
      constructor
      · conv_lhs => rw [hLeg.split, hRest]
        rw [List.flatMap_cons, List.append_assoc]
      · rw [List.flatMap_cons, List.flatMap_cons, List.flatten_append, hGot, hLeg.taken]

theorem ready_of_fresh (hSize : 0 < size)
    {state : (Feed.drawnGroups leaf size hSize : Feed α (List α)).State}
    (hFresh : (Feed.drawnGroups leaf size hSize).Fresh state) (rest : List α) :
    Ready state rest := by
  rcases hFresh with rfl | ⟨earlier, rfl⟩
  · exact .inl ⟨rfl, rfl⟩
  · exact .inl ⟨rfl, rfl⟩

end Instalment

namespace Plan

variable {κ : Type} [BEq κ]

theorem relay_groupReadings (name : String) (xs : List α) {size : Int} (hSize : 0 < size)
    {limits : List Limit} (hLimits : some 0 ∉ limits) :
    ∃ readings left, (source name (.ofItems xs none true) : Plan α κ).groupReadings size limits =
        .ok readings ∧
      Relay (Instalment size.toNat ⟨name, []⟩) xs limits readings left := by
  have hPos : 0 < size.toNat := by omega
  obtain ⟨left, hRelay⟩ := Feed.relay_visitsFrom (Feed.drawnGroups ⟨name, []⟩ size.toNat hPos)
    (fun _ pool => pool.rest name)
    (fun limit (hMem : limit ∈ limits) state pool hFresh =>
      visitFrom_instalment hPos limit (ne_of_mem_of_not_mem hMem hLimits) state pool
        (ready_of_fresh hPos hFresh _))
    (.inl rfl) ⟨[(name, xs)]⟩
  have hItems : (⟨[(name, xs)]⟩ : Pool α).rest name = xs := by simp [Pool.rest]
  rw [hItems] at hRelay
  refine ⟨_, left, ?_, hRelay⟩
  rw [groupReadings, Feed.groups?, dif_pos hSize]
  rfl

/-- The groups of a single-use input, read in instalments, are the items it has
given. Within each reading they are the groups of what was left before it, and one
that is not full comes last, in a reading that met the end of the input. -/
theorem groupReadings_inInstalments (name : String) (xs : List α) {size : Int} (hSize : 0 < size)
    {limits : List Limit} (hLimits : some 0 ∉ limits) :
    let leaf : Leaf := ⟨name, []⟩
    ∃ readings, (source name (.ofItems xs none true) : Plan α κ).groupReadings size limits =
        .ok readings ∧
      readings.length = limits.length ∧
      readings.flatMap (Reading.taken name) <+: xs ∧
      (readings.flatMap Reading.got).flatten = readings.flatMap (Reading.taken name) ∧
      ∀ index limit reading, limits[index]? = some limit → readings[index]? = some reading →
        let earlier := (readings.take index).flatMap (Reading.taken name)
        reading.fault = none ∧ reading.taken name = reading.got.flatten ∧
        reading.got = limit.cut (groups size.toNat (xs.drop earlier.length)) ∧
        Regular size.toNat reading.got ∧
        ∀ group ∈ reading.got, group.length ≠ size → .ended leaf ∈ eventsIn reading.notes := by
  intro leaf
  obtain ⟨readings, left, hReadings, hRelay⟩ := relay_groupReadings (κ := κ) name xs hSize hLimits
  obtain ⟨hSplit, hGot⟩ := split_of_relay hRelay
  refine ⟨readings, hReadings, hRelay.length_eq, ⟨left, hSplit.symm⟩, hGot, ?_⟩
  intro index limit reading hLimit hReading earlier
  obtain ⟨rest, next, hBefore, hHere⟩ := hRelay.leg_of_getElem? index hLimit hReading
  have hRest : xs.drop earlier.length = rest := by
    rw [(split_of_relay hBefore).1, List.drop_left]
  have hPos : 0 < size.toNat := by omega
  rw [hRest]
  refine ⟨hHere.fault, hHere.taken, hHere.got, ?_, fun group hGroup hLength => ?_⟩
  · rw [hHere.got]
    have hRegular := regular_groups hPos rest
    cases limit with
    | none => exact hRegular
    | some k => exact hRegular.take hPos k
  · exact hHere.exhausted group hGroup (by omega)

theorem groupReadings_sevenInPairs :
    ∃ first second third, (source "once" (.ofItems [1, 2, 3, 4, 5, 6, 7] none true) :
        Plan UInt64 Value).groupReadings 2 [some 1, some 2, none] = .ok [first, second, third] ∧
      first.got = [[1, 2]] ∧ second.got = [[3, 4], [5, 6]] ∧ third.got = [[7]] ∧
      .ended ⟨"once", []⟩ ∈ eventsIn third.notes := by
  obtain ⟨readings, hReadings, hLength, -, -, hEach⟩ :=
    groupReadings_inInstalments (κ := Value) "once" ([1, 2, 3, 4, 5, 6, 7] : List UInt64)
      (by decide : (0 : Int) < 2) (by decide : some 0 ∉ [some 1, some 2, none])
  obtain ⟨first, second, third, rfl⟩ := List.length_eq_three.mp hLength
  obtain ⟨-, hTakenA, hFirst, -, -⟩ := hEach 0 (some 1) first rfl rfl
  have hGotA : first.got = [[1, 2]] := by simpa [groups, Limit.cut] using hFirst
  rw [hGotA] at hTakenA
  obtain ⟨-, hTakenB, hSecond, -, -⟩ := hEach 1 (some 2) second rfl rfl
  have hGotB : second.got = [[3, 4], [5, 6]] := by
    simpa [hTakenA, groups, Limit.cut] using hSecond
  rw [hGotB] at hTakenB
  obtain ⟨-, -, hThird, -, hEnd⟩ := hEach 2 none third rfl rfl
  have hGotC : third.got = [[7]] := by
    simpa [hTakenA, hTakenB, groups, Limit.cut] using hThird
  exact ⟨first, second, third, hReadings, hGotA, hGotB, hGotC,
    hEnd [7] (by simp [hGotC]) (by decide)⟩

end Plan

end Sequences
