import Sequences.Distinct
import Sequences.Feed.Grouping
import Sequences.Feed.Merging
import Sequences.Feed.Source
import Sequences.Grouping
import Sequences.Merging
import Sequences.Proofs.Demand

/-! Which items a feed brings, without its log. A feed delivers a list from a
state if its demands answer with these items one by one and then with the end.
The functions only have to answer on the items that reach them. Faults and
single-use inputs are not covered: what stands in the pool must not matter. -/
namespace Sequences

namespace Feed

variable {α β κ : Type}

/-- From this state on the demands bring exactly these items and then the
end. Between two demands the pool may change in any way. -/
def Delivers (feed : Feed α β) : feed.State → List β → Prop
  | state, [] => ∀ pool, (feed.next state pool).reply = .ended
  | state, x :: xs => ∀ pool, (feed.next state pool).reply = .item x ∧
      feed.Delivers (feed.next state pool).state xs

/-- Every reading brings these items, however far the earlier ones went. -/
structure Repeats (feed : Feed α β) (xs : List β) : Prop where
  initial : feed.Delivers feed.initial xs
  rewind : ∀ state, feed.Delivers (feed.rewind state) xs

/-- A demand that ends like a demand in another state delivers the same. -/
theorem Delivers.of_same_turn {feed : Feed α β} {state : feed.State} {xs : List β}
    (hSame : ∀ pool, ∃ state' pool', feed.Delivers state' xs ∧
      (feed.next state pool).reply = (feed.next state' pool').reply ∧
      (feed.next state pool).state = (feed.next state' pool').state) :
    feed.Delivers state xs := by
  cases xs with
  | nil =>
      intro pool
      obtain ⟨state', pool', hDelivers, hReply, _⟩ := hSame pool
      exact hReply.trans (hDelivers pool')
  | cons x xs =>
      intro pool
      obtain ⟨state', pool', hDelivers, hReply, hState⟩ := hSame pool
      obtain ⟨hItem, hRest⟩ := hDelivers pool'
      rw [hReply, hState]
      exact ⟨hItem, hRest⟩

theorem replay_delivers (leaf : Leaf) (items rest : List α) :
    (replay leaf items false).Delivers (.reading rest) rest := by
  induction rest with
  | nil => intro pool; rfl
  | cons x xs ih => intro pool; exact ⟨rfl, ih⟩

theorem replay_repeats (leaf : Leaf) (items : List α) :
    (replay leaf items false).Repeats items := by
  have hIdle : (replay leaf items false).Delivers .idle items := by
    cases items with
    | nil => intro pool; rfl
    | cons x xs => intro pool; exact ⟨rfl, replay_delivers leaf (x :: xs) xs⟩
  exact ⟨hIdle, fun _ => hIdle⟩

section Distinct

variable [BEq κ] {inner : Feed α α} {key : Probe α κ} {noted : Bool} {f : α → κ}

/-- The keys seen so far and the items still to come determine what is left.
The number of earlier calls does not matter to a key that answers alike. -/
theorem distinct_delivers {state : DistinctState inner.State κ} {xs : List α}
    (hInner : inner.Delivers state.inner xs)
    (hKey : ∀ call, ∀ x ∈ xs, key call x = .ok (f x)) :
    (distinct inner key noted).Delivers state (distinctFrom f state.seen xs) := by
  induction xs generalizing state with
  | nil =>
      intro pool
      change (distinctNext inner key noted state pool).reply = .ended
      rw [distinctNext_of_ended (hInner pool)]
  | cons x xs ih =>
      have hHead : key (state.calls + 1) x = .ok (f x) := hKey _ x (List.mem_cons_self ..)
      have hTail : ∀ call, ∀ y ∈ xs, key call y = .ok (f y) :=
        fun call y hy => hKey call y (List.mem_cons_of_mem x hy)
      rw [distinctFrom_cons]
      cases hSeen : state.seen.contains (f x) with
      | true =>
          -- The demand passes over `x` and becomes a demand in the next state.
          refine Delivers.of_same_turn fun pool => ?_
          obtain ⟨hReply, hRest⟩ := hInner pool
          refine ⟨_, (inner.next state.inner pool).pool,
            @ih ⟨(inner.next state.inner pool).state, state.seen, state.calls + 1⟩ hRest hTail, ?_⟩
          change (distinctNext inner key noted state pool).reply = _ ∧
            (distinctNext inner key noted state pool).state = _
          rw [distinctNext_of_seen hReply hHead hSeen]
          exact ⟨rfl, rfl⟩
      | false =>
          intro pool
          obtain ⟨hReply, hRest⟩ := hInner pool
          change (distinctNext inner key noted state pool).reply = _ ∧
            (distinct inner key noted).Delivers (distinctNext inner key noted state pool).state _
          rw [distinctNext_of_new hReply hHead hSeen]
          exact ⟨rfl, ih hRest hTail⟩

theorem distinct_repeats {xs : List α} (hInner : inner.Repeats xs)
    (hKey : ∀ call, ∀ x ∈ xs, key call x = .ok (f x)) :
    (distinct inner key noted).Repeats (Sequences.distinct f xs) where
  initial := distinct_delivers hInner.initial hKey
  rewind state := distinct_delivers (hInner.rewind state.inner) hKey

end Distinct

section Merge

variable {left right : Feed α α} {cmp : Probe (α × α) Ordering} {noted : Bool}
  {f : α → α → Ordering}

/-- The items of a feed together with an answer of it that is still unused. -/
def Pending (feed : Feed α α) (head : Option (Reply α)) (state : feed.State) (xs : List α) :
    Prop :=
  match head with
  | none => feed.Delivers state xs
  | some (.item x) => ∃ rest, xs = x :: rest ∧ feed.Delivers state rest
  | some .ended => xs = []
  | some (.failed _) => False

theorem Pending.fetch_nil {feed : Feed α α} {head : Option (Reply α)} {state : feed.State}
    (hPending : feed.Pending head state []) (pool : Pool α) :
    (fetch feed head state pool).reply = .ended := by
  match head with
  | none => exact hPending pool
  | some (.item x) =>
      obtain ⟨rest, hRest, _⟩ := hPending
      cases hRest
  | some .ended => rfl
  | some (.failed _) => cases hPending

theorem Pending.fetch_cons {feed : Feed α α} {head : Option (Reply α)} {state : feed.State}
    {x : α} {xs : List α} (hPending : feed.Pending head state (x :: xs)) (pool : Pool α) :
    (fetch feed head state pool).reply = .item x ∧
      feed.Delivers (fetch feed head state pool).state xs := by
  match head with
  | none => exact hPending pool
  | some (.item y) =>
      obtain ⟨rest, hRest, hDelivers⟩ := hPending
      cases hRest
      exact ⟨rfl, hDelivers⟩
  | some .ended => cases hPending
  | some (.failed _) => cases hPending

/-- What is pending on both sides of a merge. -/
structure MergePending (state : MergeState left.State right.State α) (as bs : List α) :
    Prop where
  left : left.Pending state.leftHead state.left as
  right : right.Pending state.rightHead state.right bs

theorem mergeNext_of_pending_nil {state : MergeState left.State right.State α}
    (hPending : MergePending state [] []) (pool : Pool α) :
    (mergeNext left right cmp noted state pool).reply = .ended := by
  have hLeft := hPending.left.fetch_nil pool
  have hRight := hPending.right.fetch_nil (fetch left state.leftHead state.left pool).pool
  simp only [mergeNext, mergeRight, hLeft, hRight]

/-- The left item goes first unless the right one compares strictly less. An
answer that was fetched and not delivered is pending again. -/
theorem mergeNext_of_pending_left {state : MergeState left.State right.State α} {a : α}
    {as bs : List α} (hPending : MergePending state (a :: as) bs)
    (hCmp : ∀ call, ∀ b ∈ bs, cmp call (a, b) = .ok (f a b))
    (hLE : ∀ b ∈ bs.head?, (f a b).isLE) (pool : Pool α) :
    (mergeNext left right cmp noted state pool).reply = .item a ∧
      MergePending (mergeNext left right cmp noted state pool).state as bs := by
  obtain ⟨hLeft, hAs⟩ := hPending.left.fetch_cons pool
  cases bs with
  | nil =>
      have hRight := hPending.right.fetch_nil (fetch left state.leftHead state.left pool).pool
      simp only [mergeNext, mergeRight, hLeft, hRight]
      exact ⟨trivial, hAs, rfl⟩
  | cons b bs =>
      obtain ⟨hRight, hBs⟩ :=
        hPending.right.fetch_cons (fetch left state.leftHead state.left pool).pool
      simp only [mergeNext, mergeRight, hLeft, hRight, hCmp _ b (List.mem_cons_self ..),
        hLE b rfl, if_true]
      exact ⟨trivial, hAs, bs, rfl, hBs⟩

theorem mergeNext_of_pending_right {state : MergeState left.State right.State α} {b : α}
    {as bs : List α} (hPending : MergePending state as (b :: bs))
    (hCmp : ∀ call, ∀ a ∈ as, cmp call (a, b) = .ok (f a b))
    (hGT : ∀ a ∈ as.head?, (f a b).isLE = false) (pool : Pool α) :
    (mergeNext left right cmp noted state pool).reply = .item b ∧
      MergePending (mergeNext left right cmp noted state pool).state as bs := by
  obtain ⟨hRight, hBs⟩ :=
    hPending.right.fetch_cons (fetch left state.leftHead state.left pool).pool
  cases as with
  | nil =>
      have hLeft := hPending.left.fetch_nil pool
      simp only [mergeNext, mergeRight, hLeft, hRight]
      exact ⟨trivial, rfl, hBs⟩
  | cons a as =>
      obtain ⟨hLeft, hAs⟩ := hPending.left.fetch_cons pool
      simp only [mergeNext, mergeRight, hLeft, hRight, hCmp _ a (List.mem_cons_self ..),
        hGT a rfl, Bool.false_eq_true, if_false]
      exact ⟨trivial, ⟨as, rfl, hAs⟩, hBs⟩

/-- Both lists are used up together, and ties go to the left. The outer
induction is on the left list, the inner one on the right list, because one
demand takes from one side only. -/
theorem merge_delivers {state : MergeState left.State right.State α} {as bs : List α}
    (hPending : MergePending state as bs)
    (hCmp : ∀ call, ∀ a ∈ as, ∀ b ∈ bs, cmp call (a, b) = .ok (f a b)) :
    (merge left right cmp noted).Delivers state (Sequences.merge f as bs) := by
  induction as generalizing state bs with
  | nil =>
      rw [merge_nil_left]
      induction bs generalizing state with
      | nil => exact fun pool => mergeNext_of_pending_nil hPending pool
      | cons b bs ihRight =>
          intro pool
          obtain ⟨hReply, hRest⟩ := mergeNext_of_pending_right hPending
            (fun call x hx => hCmp call x hx b (List.mem_cons_self ..)) (by simp) pool
          exact ⟨hReply, ihRight hRest (by simp)⟩
  | cons a as ihLeft =>
      have hCmpLeft : ∀ call, ∀ b ∈ bs, cmp call (a, b) = .ok (f a b) :=
        fun call => hCmp call a (List.mem_cons_self ..)
      induction bs generalizing state with
      | nil =>
          rw [merge_nil_right]
          intro pool
          obtain ⟨hReply, hRest⟩ :=
            mergeNext_of_pending_left hPending hCmpLeft (by simp) pool
          have hAs := ihLeft hRest (by simp)
          rw [merge_nil_right] at hAs
          exact ⟨hReply, hAs⟩
      | cons b bs ihRight =>
          rw [merge_cons_cons]
          cases hLE : (f a b).isLE with
          | true =>
              intro pool
              obtain ⟨hReply, hRest⟩ := mergeNext_of_pending_left hPending
                hCmpLeft (by simpa using hLE) pool
              refine ⟨hReply, ihLeft hRest fun call x hx => ?_⟩
              exact hCmp call x (List.mem_cons_of_mem a hx)
          | false =>
              intro pool
              obtain ⟨hReply, hRest⟩ := mergeNext_of_pending_right hPending
                (fun call x hx => hCmp call x hx b (List.mem_cons_self ..))
                (by simpa using hLE) pool
              refine ⟨hReply, ihRight hRest (fun call x hx y hy => ?_) fun call y hy => ?_⟩
              · exact hCmp call x hx y (List.mem_cons_of_mem b hy)
              · exact hCmpLeft call y (List.mem_cons_of_mem b hy)

theorem merge_repeats {as bs : List α} (hLeft : left.Repeats as) (hRight : right.Repeats bs)
    (hCmp : ∀ call, ∀ a ∈ as, ∀ b ∈ bs, cmp call (a, b) = .ok (f a b)) :
    (merge left right cmp noted).Repeats (Sequences.merge f as bs) where
  initial := merge_delivers ⟨hLeft.initial, hRight.initial⟩ hCmp
  rewind state := merge_delivers ⟨hLeft.rewind state.left, hRight.rewind state.right⟩ hCmp

end Merge

section Groups

variable {inner : Feed α β} {size : Nat}

/-- Gathering takes what it is asked for as long as there is enough. -/
theorem gather_of_delivers {count : Nat} {state : inner.State} {xs : List β}
    (hInner : inner.Delivers state xs) (hCount : count ≤ xs.length) (pool : Pool α) :
    (gather inner count state pool).halt = .full ∧
      (gather inner count state pool).taken = xs.take count ∧
      inner.Delivers (gather inner count state pool).state (xs.drop count) := by
  induction count generalizing state xs pool with
  | zero => exact ⟨rfl, rfl, hInner⟩
  | succ count ih =>
      cases xs with
      | nil => simp at hCount
      | cons x xs =>
          obtain ⟨hReply, hRest⟩ := hInner pool
          obtain ⟨hHalt, hTaken, hLater⟩ :=
            ih hRest (by simpa using hCount) (inner.next state pool).pool
          simp only [gather, hReply, hHalt, hTaken, List.take_succ_cons, List.drop_succ_cons]
          exact ⟨trivial, trivial, hLater⟩

/-- With too few items gathering meets the end, and it keeps what it took. -/
theorem gather_of_delivers_short {count : Nat} {state : inner.State} {xs : List β}
    (hInner : inner.Delivers state xs) (hCount : xs.length < count) (pool : Pool α) :
    (gather inner count state pool).halt = .ended ∧
      (gather inner count state pool).taken = xs := by
  induction count generalizing state xs pool with
  | zero => simp at hCount
  | succ count ih =>
      cases xs with
      | nil => simp only [gather, hInner pool, and_self]
      | cons x xs =>
          obtain ⟨hReply, hRest⟩ := hInner pool
          obtain ⟨hHalt, hTaken⟩ :=
            ih hRest (by simpa using hCount) (inner.next state pool).pool
          simp only [gather, hReply, hHalt, hTaken, and_self]

/-- The first group and the groups of the rest. -/
theorem groups_of_ne_nil {γ : Type} (hSize : 0 < size) {xs : List γ} (hNe : xs ≠ []) :
    Sequences.groups size xs = xs.take size :: Sequences.groups size (xs.drop size) := by
  cases xs with
  | nil => exact absurd rfl hNe
  | cons x xs =>
      obtain ⟨less, rfl⟩ : ∃ less, size = less + 1 := ⟨size - 1, by omega⟩
      rw [Sequences.groups, List.take_succ_cons, List.drop_succ_cons, Nat.add_sub_cancel]

theorem groups_delivers_drained (hSize : 0 < size) (state : inner.State) :
    (groups inner size hSize).Delivers ⟨state, true⟩ [] := fun _ => rfl

/-- A full group leaves the rest in front of the feed. A group that is not
full was the last one, and the feed behind is not asked again. -/
theorem groups_delivers (hSize : 0 < size) {state : inner.State} {xs : List β}
    (hInner : inner.Delivers state xs) :
    (groups inner size hSize).Delivers ⟨state, false⟩ (Sequences.groups size xs) := by
  by_cases hNe : xs = []
  · subst hNe
    rw [Sequences.groups]
    intro pool
    obtain ⟨hHalt, hTaken⟩ := gather_of_delivers_short hInner hSize pool
    change (groupNext inner size ⟨state, false⟩ pool).reply = .ended
    simp [groupNext, hHalt, hTaken]
  · rw [groups_of_ne_nil hSize hNe]
    intro pool
    change (groupNext inner size ⟨state, false⟩ pool).reply = _ ∧
      (groups inner size hSize).Delivers (groupNext inner size ⟨state, false⟩ pool).state _
    by_cases hLength : size ≤ xs.length
    · obtain ⟨hHalt, hTaken, hRest⟩ := gather_of_delivers hInner hLength pool
      simp only [groupNext, hHalt, hTaken, Bool.false_eq_true, if_false, true_and]
      exact groups_delivers hSize hRest
    · have hShort : xs.length < size := Nat.lt_of_not_le hLength
      obtain ⟨hHalt, hTaken⟩ := gather_of_delivers_short hInner hShort pool
      rw [List.take_of_length_le (Nat.le_of_lt hShort),
        List.drop_of_length_le (Nat.le_of_lt hShort), Sequences.groups]
      simp only [groupNext, hHalt, hTaken, Bool.false_eq_true, if_false, List.isEmpty_iff, hNe,
        true_and]
      exact groups_delivers_drained hSize _
termination_by xs.length
decreasing_by
  rw [List.length_drop]
  omega

theorem groups_repeats (hSize : 0 < size) {xs : List β} (hInner : inner.Repeats xs) :
    (groups inner size hSize).Repeats (Sequences.groups size xs) where
  initial := groups_delivers hSize hInner.initial
  rewind state := groups_delivers hSize (hInner.rewind state.inner)

end Groups

end Feed

/-- What a reader with this limit keeps of a list. -/
def Limit.cut {β : Type} (limit : Limit) (xs : List β) : List β :=
  match limit with
  | none => xs
  | some k => xs.take k

namespace Feed

variable {α β : Type} {feed : Feed α β} {xs : List β}

/-- A reader receives what its limit admits, and the feed does not fail. -/
theorem visitFrom_of_delivers {state : feed.State} (hFeed : feed.Delivers state xs)
    (limit : Limit) (pool : Pool α) :
    (feed.visitFrom limit state pool).got = limit.cut xs ∧
      (feed.visitFrom limit state pool).fault = none := by
  induction xs generalizing limit state pool with
  | nil =>
      rw [visitFrom_of_ended limit (hFeed pool)]
      cases limit <;> simp [Limit.cut]
  | cons x xs ih =>
      obtain ⟨hReply, hRest⟩ := hFeed pool
      match limit with
      | some 0 => rw [visitFrom_of_item_zero hReply]; exact ⟨rfl, rfl⟩
      | some 1 => rw [visitFrom_of_item_one hReply]; exact ⟨rfl, rfl⟩
      | some (k + 2) =>
          obtain ⟨hGot, hFault⟩ := ih hRest (some (k + 1)) (feed.next state pool).pool
          rw [visitFrom_of_item_more (some (k + 2)) (by simp) hReply]
          exact ⟨congrArg (x :: ·) hGot, hFault⟩
      | none =>
          obtain ⟨hGot, hFault⟩ := ih hRest none (feed.next state pool).pool
          rw [visitFrom_of_item_more none (by simp) hReply]
          exact ⟨congrArg (x :: ·) hGot, hFault⟩

theorem visitsFrom_of_repeats (hFeed : feed.Repeats xs) {state : feed.State}
    (hState : feed.Delivers state xs) (limits : List Limit) (pool : Pool α) :
    (feed.visitsFrom limits state pool).map (fun visit => (visit.got, visit.fault)) =
      limits.map fun limit => (limit.cut xs, none) := by
  induction limits generalizing state pool with
  | nil => rfl
  | cons limit limits ih =>
      obtain ⟨hGot, hFault⟩ := visitFrom_of_delivers hState limit pool
      simp only [visitsFrom, List.map_cons, hGot, hFault]
      rw [ih (hFeed.rewind _)]

end Feed

end Sequences
