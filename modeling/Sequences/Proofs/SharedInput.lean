import Sequences.Proofs.Conservation
import Sequences.Proofs.Course
import Sequences.Proofs.StableMerge

/-! A single-use input that is merged with itself. Two readers draw from one
position, and which of them draws next is up to the comparator. Between them they
still deliver every item once: an item that was drawn is either delivered or in
the hand of one reader, and when the reader of the merge quits at most one is. -/
namespace Sequences

variable {α : Type}

/-- What one of the readers has in hand while the input holds `rest`: nothing, an
item that is still to be delivered, or the news that the input has ended. -/
inductive Hand (rest : List α) : Option (Reply α) → Cursor Unit → List α → Prop where
  | free {cursor : Cursor Unit} (hOpen : cursor.isClosed = false) : Hand rest none cursor []
  | item {cursor : Cursor Unit} (x : α) (hOpen : cursor.isClosed = false) :
      Hand rest (some (.item x)) cursor [x]
  | ended {cursor : Cursor Unit} (hRest : rest = []) : Hand rest (some .ended) cursor []

namespace Hand

variable {rest less held : List α} {head : Option (Reply α)} {cursor : Cursor Unit}

/-- The other reader may draw in between. -/
theorem of_length_le (hHand : Hand rest head cursor held) (hLess : less.length ≤ rest.length) :
    Hand less head cursor held := by
  cases hHand with
  | free hOpen => exact .free hOpen
  | item x hOpen => exact .item x hOpen
  | ended hRest =>
      rw [hRest] at hLess
      exact .ended (List.eq_nil_of_length_eq_zero (Nat.le_zero.mp hLess))

theorem cases_of_reply {reply : Reply α} (hHand : Hand rest (some reply) cursor held) :
    (∃ x, reply = .item x ∧ held = [x] ∧ cursor.isClosed = false) ∨
      (reply = .ended ∧ held = [] ∧ rest = []) := by
  cases hHand with
  | item x hOpen => exact .inl ⟨x, rfl, rfl, hOpen⟩
  | ended hRest => exact .inr ⟨rfl, rfl, hRest⟩

theorem drawFrom (leaf : Leaf) (pool : Pool α) :
    Hand ((Feed.drawFrom leaf false pool).pool.rest leaf.name)
      (some (Feed.drawFrom leaf false pool).reply) (Feed.drawFrom leaf false pool).state
      (emittedBy leaf.name (Feed.drawFrom leaf false pool).log) := by
  unfold Feed.drawFrom
  split
  next hRest => exact .ended hRest
  next x xs hRest =>
    rw [emittedBy_emitted, if_pos rfl]
    exact .item x rfl

/-- A demand fills a free hand, if the input has something left. -/
theorem fetch (leaf : Leaf) {pool : Pool α}
    (hHand : Hand (pool.rest leaf.name) head cursor held) :
    Hand ((Feed.fetch (Feed.draw leaf false) head cursor pool).pool.rest leaf.name)
      (some (Feed.fetch (Feed.draw leaf false) head cursor pool).reply)
      (Feed.fetch (Feed.draw leaf false) head cursor pool).state
      (held ++ emittedBy leaf.name
        (Feed.fetch (Feed.draw leaf false) head cursor pool).log) := by
  cases hHand with
  | free hOpen =>
      cases cursor with
      | idle => exact drawFrom leaf pool
      | reading _ => exact drawFrom leaf pool
      | closed => cases hOpen
  | item x hOpen => exact .item x hOpen
  | ended hRest => exact .ended hRest

end Hand

/-- The merge of the input of this name with itself. -/
abbrev Feed.selfMerge (name : String) (cmp : Probe (α × α) Ordering) (noted : Bool) : Feed α α :=
  .merge (.draw ⟨name, [.left]⟩ false) (.draw ⟨name, [.right]⟩ false) cmp noted

theorem selfMerge_conserves (name : String) (cmp : Probe (α × α) Ordering) (noted : Bool) :
    (Feed.selfMerge name cmp noted).Conserves name :=
  (Feed.draw_conserves _ _ name).merge (Feed.draw_conserves _ _ name) cmp noted

/-- The items that both readers together have in hand. -/
def Sharing (rest : List α) (state : Feed.MergeState (Cursor Unit) (Cursor Unit) α)
    (held : List α) : Prop :=
  ∃ heldA heldB, held = heldA ++ heldB ∧ Hand rest state.leftHead state.left heldA ∧
    Hand rest state.rightHead state.right heldB

/-- What a demand can do. One of the items in hand is delivered, and at most one is
kept; none is kept only if the input has ended. -/
inductive Served (answers : Nat → α × α → Ordering) (name : String) (held : List α)
    (turn : Turn (Feed.MergeState (Cursor Unit) (Cursor Unit) α) α α) : Prop where
  | ended (hReply : turn.reply = .ended) (hHeld : held ++ emittedBy name turn.log = [])
      (hRest : turn.pool.rest name = [])
  | item {x : α} {kept : List α} (hReply : turn.reply = .item x)
      (hHeld : (held ++ emittedBy name turn.log).Perm (x :: kept)) (hKept : kept.length ≤ 1)
      (hLast : kept = [] → turn.pool.rest name = [])
      (hChosen : ∀ y ∈ kept, ∃ call,
        (answers call (x, y)).isLE = true ∨ (answers call (y, x)).isLE = false)
      (hSharing : Sharing (turn.pool.rest name) turn.state kept)

section Served

variable {answers : Nat → α × α → Ordering} {name : String} {noted : Bool}
  {state : Feed.MergeState (Cursor Unit) (Cursor Unit) α} {held : List α}

/-- What is drawn goes to the hand of the reader who draws it. -/
theorem perm_hands (name : String) (heldA heldB : List α) (logA logB calls : List (Event α))
    (hCalls : emittedBy name calls = []) :
    (heldA ++ heldB ++ emittedBy name (logA ++ logB ++ calls)).Perm
      (heldA ++ emittedBy name logA ++ (heldB ++ emittedBy name logB)) := by
  rw [emittedBy_append, emittedBy_append, hCalls, List.append_nil]
  simp only [List.append_assoc]
  exact .append_left heldA (List.perm_append_comm_assoc ..)

theorem selfMerge_next {pool : Pool α} (hSharing : Sharing (pool.rest name) state held) :
    Served answers name held
      ((Feed.selfMerge name (.ofAnswers answers) noted).next state pool) := by
  obtain ⟨heldA, heldB, rfl, hLeft, hRight⟩ := hSharing
  have hFirst := hLeft.fetch ⟨name, [.left]⟩
  have hLessA := Feed.fetch_pool_le (Feed.draw ⟨name, [.left]⟩ false) state.leftHead state.left
    pool name
  change Served answers name _ (Feed.mergeNext (Feed.draw ⟨name, [.left]⟩ false)
    (Feed.draw ⟨name, [.right]⟩ false) (.ofAnswers answers) noted state pool)
  simp only [Feed.mergeNext, Feed.mergeRight]
  generalize Feed.fetch (Feed.draw ⟨name, [.left]⟩ false) state.leftHead state.left pool = l
    at hFirst hLessA ⊢
  have hSecond := (hRight.of_length_le hLessA).fetch ⟨name, [.right]⟩
  have hLessB := Feed.fetch_pool_le (Feed.draw ⟨name, [.right]⟩ false) state.rightHead state.right
    l.pool name
  generalize Feed.fetch (Feed.draw ⟨name, [.right]⟩ false) state.rightHead state.right l.pool = r
    at hSecond hLessB ⊢
  have hHands := perm_hands name heldA heldB l.log r.log
  rcases (hFirst.of_length_le hLessB).cases_of_reply with
    ⟨x, hReplyA, hHandA, hOpenA⟩ | ⟨hReplyA, hHandA, hRest⟩
  · rcases hSecond.cases_of_reply with ⟨y, hReplyB, hHandB, hOpenB⟩ | ⟨hReplyB, hHandB, hRest⟩
    · -- Both have an item, and the comparator decides.
      have hBoth := hHands _ (emittedBy_compared name noted x y)
      rw [hHandA, hHandB] at hBoth
      simp only [hReplyA, hReplyB, Probe.ofAnswers]
      cases hLE : (answers (state.calls + 1) (x, y)).isLE with
      | true =>
          refine .item rfl hBoth (Nat.le_refl 1) (fun hNone => absurd hNone (List.cons_ne_nil _ _))
            (fun z hz => ⟨state.calls + 1, .inl ?_⟩) ⟨[], [y], rfl, .free hOpenA, .item y hOpenB⟩
          rwa [List.mem_singleton.mp hz]
      | false =>
          refine .item rfl (hBoth.trans (.swap y x [])) (Nat.le_refl 1)
            (fun hNone => absurd hNone (List.cons_ne_nil _ _))
            (fun z hz => ⟨state.calls + 1, .inr ?_⟩) ⟨[x], [], rfl, .item x hOpenA, .free hOpenB⟩
          rwa [List.mem_singleton.mp hz]
    · have hOne := hHands [] rfl
      rw [hHandA, hHandB, List.append_nil] at hOne
      simp only [hReplyA, hReplyB]
      exact .item rfl hOne (Nat.zero_le 1) (fun _ => hRest) (List.forall_mem_nil _)
        ⟨[], [], rfl, .free hOpenA, .ended hRest⟩
  · rcases hSecond.cases_of_reply with ⟨y, hReplyB, hHandB, hOpenB⟩ | ⟨hReplyB, hHandB, -⟩
    · have hOne := hHands [] rfl
      rw [hHandA, hHandB, List.append_nil] at hOne
      simp only [hReplyA, hReplyB]
      exact .item rfl hOne (Nat.zero_le 1) (fun _ => hRest) (List.forall_mem_nil _)
        ⟨[], [], rfl, .ended hRest, .free hOpenB⟩
    · have hNone := hHands [] rfl
      rw [hHandA, hHandB, List.append_nil] at hNone
      simp only [hReplyA, hReplyB]
      exact .ended rfl hNone.eq_nil hRest

end Served

/-- What a reading gets of the shared input, if it begins with the items `held` in
hand. When it is over the items `kept` are in hand, and no later reading gets
them; the input holds what is `left`. -/
structure Portion (name : String) (limit : Limit) (held kept left : List α)
    (reading : Reading α α) : Prop where
  fault : reading.fault = none
  perm : (held ++ reading.taken name).Perm (reading.got ++ kept)
  kept_le : limit ≠ some 0 → kept.length ≤ 1
  last : kept = [] → left = []
  limited : ∀ k, limit = some k → reading.got.length ≤ k
  stayed : limit ≠ some reading.got.length → kept = []

section Portion

variable {name : String} {limit : Limit} {held kept later left : List α} {reading : Reading α α}

/-- A demand in front of a reading that goes on. -/
theorem Portion.after {log : List (Event α)} {x : α}
    (hHeld : (held ++ emittedBy name log).Perm (x :: kept)) (hMore : ∀ k, limit = some k → 2 ≤ k)
    (hLater : Portion name (limit.map (· - 1)) kept later left reading) :
    Portion name limit held later left
      ⟨x :: reading.got, log.map .event ++ .received x :: reading.notes, reading.fault⟩ := by
  refine ⟨hLater.fault, ?_, fun _ => hLater.kept_le fun hZero => ?_, hLater.last, fun k hk => ?_,
    fun hStay => ?_⟩
  · have hAll := (hHeld.append_right _).trans (hLater.perm.cons x)
    simpa [Reading.taken] using hAll
  · obtain ⟨k, rfl, hLess⟩ := Option.map_eq_some_iff.mp hZero
    have hTwo := hMore k rfl
    omega
  · have hRest := hLater.limited (k - 1) (by rw [hk]; rfl)
    have hTwo := hMore k hk
    simp only [List.length_cons]
    omega
  · refine hLater.stayed fun hReached => hStay ?_
    obtain ⟨k, rfl, hLess⟩ := Option.map_eq_some_iff.mp hReached
    have hTwo := hMore k rfl
    simp only [List.length_cons]
    congr 1
    omega

end Portion

section Visit

variable {answers : Nat → α × α → Ordering} {name : String} {noted : Bool}

theorem visitFrom_portion (limit : Limit)
    (state : (Feed.selfMerge name (.ofAnswers answers) noted).State) (pool : Pool α)
    {held : List α} (hSharing : Sharing (pool.rest name) state held) :
    ∃ kept, Portion name limit held kept
      (((Feed.selfMerge name (.ofAnswers answers) noted).visitFrom limit state pool).pool.rest name)
      ((Feed.selfMerge name (.ofAnswers answers) noted).visitFrom limit state pool).reading := by
  have hServed : Served answers name held
      ((Feed.selfMerge name (.ofAnswers answers) noted).next state pool) := selfMerge_next hSharing
  have hStop := (selfMerge_conserves name (.ofAnswers answers) noted).stop
  cases hServed with
  | ended hReply hHeld hRest =>
      rw [Feed.visitFrom_of_ended limit hReply]
      refine ⟨[], rfl, ?_, fun _ => Nat.zero_le 1, fun _ => hRest, fun _ _ => Nat.zero_le _,
        fun _ => rfl⟩
      simp [Visit.reading, Reading.taken, hHeld]
  | @item x kept hReply hHeld hKept hLast hChosen hSharing =>
      by_cases hZero : limit = some 0
      · subst hZero
        rw [Feed.visitFrom_of_item_zero hReply]
        refine ⟨x :: kept, rfl, ?_, fun hLimit => absurd rfl hLimit,
          fun hNone => absurd hNone (List.cons_ne_nil _ _), fun _ _ => Nat.zero_le _,
          fun hStay => absurd rfl hStay⟩
        simpa [Visit.reading, Reading.taken, hStop] using hHeld
      by_cases hOne : limit = some 1
      · subst hOne
        rw [Feed.visitFrom_of_item_one hReply]
        refine ⟨kept, rfl, ?_, fun _ => hKept, hLast, fun k hk => ?_, fun hStay => absurd rfl hStay⟩
        · simpa [Visit.reading, Reading.taken, hStop] using hHeld
        · exact (Option.some.inj hk).le
      have hMore := Feed.two_le_of_limit_ne hZero hOne
      obtain ⟨later, hLater⟩ := visitFrom_portion (limit.map (· - 1)) _ _ hSharing
      rw [Feed.visitFrom_of_item_more limit hMore hReply]
      exact ⟨later, .after hHeld hMore hLater⟩
termination_by (Feed.selfMerge name (.ofAnswers answers) noted).bound state pool
decreasing_by exact Feed.bound_lt_of_item _ hReply

/-- The one that the comparator chose is the lesser one. -/
theorem isLE_of_chosen {cmp : α → α → Ordering} [Std.TransCmp cmp]
    (hCmp : ∀ call x y, answers call (x, y) = cmp x y) {x y : α}
    (hChosen : ∃ call, (answers call (x, y)).isLE = true ∨ (answers call (y, x)).isLE = false) :
    (cmp x y).isLE := by
  obtain ⟨call, hLE | hGT⟩ := hChosen
  · rwa [hCmp] at hLE
  · rw [hCmp] at hGT
    simpa [hGT] using isLE_total cmp x y

/-- The input is in order, and what is in hand is not above what it still holds. -/
structure InOrder (cmp : α → α → Ordering) (held rest : List α) : Prop where
  ascending : Ascending cmp rest
  below : ∀ y ∈ held, ∀ z ∈ rest, (cmp y z).isLE

theorem InOrder.draw {cmp : α → α → Ordering} {held drawn hand rest : List α}
    (hOrder : InOrder cmp held (drawn ++ rest)) (hHand : (held ++ drawn).Perm hand) :
    InOrder cmp hand rest := by
  obtain ⟨-, hRest, hDrawn⟩ := List.pairwise_append.mp hOrder.ascending
  refine ⟨hRest, fun y hy z hz => ?_⟩
  rcases List.mem_append.mp (hHand.mem_iff.mpr hy) with hHeld | hNew
  · exact hOrder.below y hHeld z (List.mem_append_right drawn hz)
  · exact hDrawn y hNew z hz

/-- Of an input in order the items are received in order. -/
theorem visitFrom_ascending {cmp : α → α → Ordering} [Std.TransCmp cmp]
    (hCmp : ∀ call x y, answers call (x, y) = cmp x y) (limit : Limit)
    (state : (Feed.selfMerge name (.ofAnswers answers) noted).State) (pool : Pool α)
    {held : List α} (hSharing : Sharing (pool.rest name) state held)
    (hOrder : InOrder cmp held (pool.rest name)) :
    Ascending cmp
      ((Feed.selfMerge name (.ofAnswers answers) noted).visitFrom limit state pool).got := by
  have hConserves := selfMerge_conserves name (.ofAnswers answers) noted
  have hServed : Served answers name held
      ((Feed.selfMerge name (.ofAnswers answers) noted).next state pool) := selfMerge_next hSharing
  cases hServed with
  | ended hReply hHeld hRest =>
      rw [Feed.visitFrom_of_ended limit hReply]
      exact .nil
  | @item x kept hReply hHeld hKept hLast hChosen hSharing =>
      by_cases hZero : limit = some 0
      · subst hZero
        rw [Feed.visitFrom_of_item_zero hReply]
        exact .nil
      by_cases hOne : limit = some 1
      · subst hOne
        rw [Feed.visitFrom_of_item_one hReply]
        exact List.pairwise_singleton _ x
      have hMore := Feed.two_le_of_limit_ne hZero hOne
      rw [hConserves.next state pool] at hOrder
      have hHand := hOrder.draw hHeld
      have hKeep : InOrder cmp kept _ :=
        ⟨hHand.ascending, fun y hy => hHand.below y (List.mem_cons_of_mem x hy)⟩
      rw [Feed.visitFrom_of_item_more limit hMore hReply]
      refine List.pairwise_cons.mpr ⟨fun y hy => ?_, visitFrom_ascending hCmp _ _ _ hSharing hKeep⟩
      -- What is received later was in hand or still with the input.
      obtain ⟨_, hPortion⟩ := visitFrom_portion (limit.map (· - 1)) _ _ hSharing
      rcases List.mem_append.mp (hPortion.perm.mem_iff.mpr (List.mem_append_left _ hy)) with
        hMem | hMem
      · exact isLE_of_chosen hCmp (hChosen y hMem)
      · refine hHand.below x (List.mem_cons_self ..) y ?_
        rw [hConserves.visitFrom (limit.map (· - 1))]
        exact List.mem_append_left _ hMem
termination_by (Feed.selfMerge name (.ofAnswers answers) noted).bound state pool
decreasing_by exact Feed.bound_lt_of_item _ hReply

end Visit

/-- Nobody has anything in hand when a reading begins. -/
theorem sharing_of_fresh {name : String} {cmp : Probe (α × α) Ordering} {noted : Bool}
    {state : (Feed.selfMerge name cmp noted).State}
    (hFresh : (Feed.selfMerge name cmp noted).Fresh state) (rest : List α) :
    Sharing rest state [] := by
  rcases hFresh with rfl | ⟨earlier, rfl⟩
  · exact ⟨[], [], rfl, .free rfl, .free rfl⟩
  · exact ⟨[], [], rfl, .free rfl, .free rfl⟩

/-- One of several readings of the shared input, which held `rest` before and holds
what is `left` afterwards. -/
structure Share (answers : Nat → α × α → Ordering) (name : String) (limit : Limit)
    (rest : List α) (reading : Reading α α) (left : List α) : Prop where
  split : rest = reading.taken name ++ left
  portion : ∃ kept, Portion name limit [] kept left reading
  ascending : ∀ (cmp : α → α → Ordering) [Std.TransCmp cmp],
    (∀ call x y, answers call (x, y) = cmp x y) → Ascending cmp rest → Ascending cmp reading.got

section Share

variable {answers : Nat → α × α → Ordering} {name : String} {noted : Bool} {rest left : List α}
  {reading : Reading α α}

theorem visitFrom_share (limit : Limit)
    {state : (Feed.selfMerge name (.ofAnswers answers) noted).State}
    (hFresh : (Feed.selfMerge name (.ofAnswers answers) noted).Fresh state) (pool : Pool α) :
    Share answers name limit (pool.rest name)
      ((Feed.selfMerge name (.ofAnswers answers) noted).visitFrom limit state pool).reading
      (((Feed.selfMerge name (.ofAnswers answers) noted).visitFrom limit state pool).pool.rest
        name) where
  split := (selfMerge_conserves name (.ofAnswers answers) noted).visitFrom limit state pool
  portion := visitFrom_portion limit state pool (sharing_of_fresh hFresh _)
  ascending _ _ hCmp hOrder :=
    visitFrom_ascending hCmp limit state pool (sharing_of_fresh hFresh _)
      ⟨hOrder, List.forall_mem_nil _⟩

/-- Without a limit nothing is kept, so all that was left is received. -/
theorem Share.of_unlimited (hShare : Share answers name none rest reading left) :
    reading.fault = none ∧ reading.got.Perm rest ∧ left = [] := by
  obtain ⟨kept, hPortion⟩ := hShare.portion
  have hKept : kept = [] := hPortion.stayed (Option.some_ne_none _).symm
  have hLeft := hPortion.last hKept
  have hPerm := hPortion.perm
  rw [hKept, List.append_nil, List.nil_append] at hPerm
  rw [hShare.split, hLeft, List.append_nil]
  exact ⟨hPortion.fault, hPerm.symm, rfl⟩

/-- One more item is taken than received, unless all are taken. -/
theorem Share.of_limited {k : Nat} (hShare : Share answers name (some k) rest reading left)
    (hPos : 1 ≤ k) (hLength : k ≤ rest.length) :
    reading.fault = none ∧ reading.got.length = k ∧ reading.got.Subperm (reading.taken name) ∧
      reading.taken name = rest.take (min (k + 1) rest.length) ∧
      left = rest.drop (min (k + 1) rest.length) := by
  obtain ⟨kept, hPortion⟩ := hShare.portion
  have hAll := congrArg List.length hShare.split
  have hTaken := hPortion.perm.length_eq
  have hKept := hPortion.kept_le (by simpa using Nat.pos_iff_ne_zero.mp hPos)
  have hLimited := hPortion.limited k rfl
  have hLast : kept.length = 0 → left.length = 0 := by
    simpa using hPortion.last
  simp only [List.length_append, List.nil_append] at hAll hTaken
  have hGot : reading.got.length = k := by
    by_contra hLess
    have hNone := congrArg List.length (hPortion.stayed (by simpa using Ne.symm hLess))
    rw [List.length_nil] at hNone
    omega
  have hCount : (reading.taken name).length = min (k + 1) rest.length := by omega
  refine ⟨hPortion.fault, hGot, ?_, ?_, ?_⟩
  · exact (List.sublist_append_left reading.got kept).subperm.trans hPortion.perm.symm.subperm
  · rw [← hCount, hShare.split, List.take_left]
  · rw [← hCount, hShare.split, List.drop_left]

/-- Nothing comes of an input that has nothing left. -/
theorem nothing_of_relay {limits : List Limit} {readings : List (Reading α α)}
    (hRelay : Relay (Share answers name) rest limits readings left) (hRest : rest = []) :
    ∀ reading ∈ readings, reading.fault = none ∧ reading.got = [] := by
  induction hRelay with
  | nil => simp
  | cons hLeg hLater ih =>
      have hSplit := hLeg.split
      rw [hRest] at hSplit
      obtain ⟨hTaken, hLeft⟩ := List.append_eq_nil_iff.mp hSplit.symm
      obtain ⟨kept, hPortion⟩ := hLeg.portion
      have hGot := hPortion.perm
      rw [hTaken] at hGot
      refine List.forall_mem_cons.mpr ⟨⟨hPortion.fault, ?_⟩, ih hLeft⟩
      exact (List.append_eq_nil_iff.mp hGot.nil_eq.symm).1

end Share

namespace Plan

variable {κ : Type} [BEq κ]

theorem relay_sharedInput (answers : Nat → α × α → Ordering) (noted : Bool) (name : String)
    (xs : List α) (limits : List Limit) :
    ∃ left, Relay (Share answers name) xs limits ((Plan.merge (.ofAnswers answers) noted
      (.source name (.ofItems xs none true)) (.source name (.ofItems xs none true)) :
        Plan α κ).readings limits) left := by
  obtain ⟨left, hRelay⟩ := Feed.relay_visitsFrom (Feed.selfMerge name (.ofAnswers answers) noted)
    (fun _ pool => pool.rest name)
    (fun limit (_ : limit ∈ limits) _ pool hFresh => visitFrom_share limit hFresh pool)
    (.inl rfl) ⟨[(name, xs), (name, xs)]⟩
  have hItems : (⟨[(name, xs), (name, xs)]⟩ : Pool α).rest name = xs := by simp [Pool.rest]
  rw [hItems] at hRelay
  exact ⟨left, hRelay⟩

/-- A merge of a single-use input with itself loses nothing and brings nothing
twice, whatever the comparator answers. A reader who quits leaves one item behind
that was taken and not received, unless there was none. -/
theorem readings_sharedInput (answers : Nat → α × α → Ordering) (noted : Bool) (name : String)
    (xs : List α) (limits : List Limit) :
    let input : Plan α κ := .source name (.ofItems xs none true)
    let plan : Plan α κ := .merge (.ofAnswers answers) noted input input
    (∃ first later, plan.readings (none :: limits) = first :: later ∧
      later.length = limits.length ∧ first.fault = none ∧ first.got.Perm xs ∧
      (∀ reading ∈ later, reading.fault = none ∧ reading.got = []) ∧
      ∀ (cmp : α → α → Ordering) [Std.TransCmp cmp],
        (∀ call x y, answers call (x, y) = cmp x y) → Ascending cmp xs →
          Ascending cmp first.got) ∧
    ∀ k, 1 ≤ k → k ≤ xs.length → ∃ first second later,
      plan.readings (some k :: none :: limits) = first :: second :: later ∧
      first.fault = none ∧ first.got.length = k ∧ first.got.Subperm (first.taken name) ∧
      first.taken name = xs.take (min (k + 1) xs.length) ∧
      second.fault = none ∧ second.got.Perm (xs.drop (min (k + 1) xs.length)) := by
  intro input plan
  constructor
  · obtain ⟨left, hRelay⟩ := relay_sharedInput (κ := κ) answers noted name xs (none :: limits)
    obtain ⟨first, later, rest, hReadings, hFirst, hLater⟩ := hRelay.uncons
    obtain ⟨hFault, hGot, hRest⟩ := hFirst.of_unlimited
    exact ⟨first, later, hReadings, hLater.length_eq, hFault, hGot, nothing_of_relay hLater hRest,
      hFirst.ascending⟩
  · intro k hPos hLength
    obtain ⟨left, hRelay⟩ :=
      relay_sharedInput (κ := κ) answers noted name xs (some k :: none :: limits)
    obtain ⟨first, _, rest, hReadings, hFirst, hNext⟩ := hRelay.uncons
    obtain ⟨second, later, _, rfl, hSecond, -⟩ := hNext.uncons
    obtain ⟨hFault, hGot, hWithin, hTaken, rfl⟩ := hFirst.of_limited hPos hLength
    obtain ⟨hFine, hLeft, -⟩ := hSecond.of_unlimited
    exact ⟨first, second, later, hReadings, hFault, hGot, hWithin, hTaken, hFine, hLeft⟩

theorem readings_sharedFour :
    let input : Plan UInt64 Value := .source "once" (.ofItems [1, 2, 2, 5] none true)
    let plan : Plan UInt64 Value :=
      .merge (.ofAnswers fun _ pair => compare pair.1 pair.2) false input input
    (∃ first second, plan.readings [none, none] = [first, second] ∧
      first.got.Perm [1, 2, 2, 5] ∧ Ascending compare first.got ∧ second.got = []) ∧
    ∃ first second later, plan.readings [some 2, none] = first :: second :: later ∧
      first.got.length = 2 ∧ first.taken "once" = [1, 2, 2] ∧ second.got.Perm [5] := by
  have hFour := readings_sharedInput (κ := Value) (fun _ pair => compare pair.1 pair.2) false
    "once" ([1, 2, 2, 5] : List UInt64)
  obtain ⟨first, later, hReadings, hLength, -, hPerm, hNothing, hAscending⟩ := (hFour [none]).1
  obtain ⟨second, rfl⟩ := List.length_eq_one_iff.mp hLength
  obtain ⟨cut, rest, others, hCut, -, hTwo, -, hTaken, -, hRest⟩ :=
    (hFour []).2 2 (by decide) (by decide)
  refine ⟨⟨first, second, hReadings, hPerm, ?_, (hNothing second (by simp)).2⟩,
    cut, rest, others, hCut, hTwo, hTaken, hRest⟩
  exact hAscending compare (fun _ _ _ => rfl) (by unfold Ascending; decide)

end Plan

end Sequences
