import Mathlib
import Sequences.Element.Basic
import Sequences.Feed.Plan
import Sequences.Fibonacci
import Sequences.Proofs.Delivery

/-! A plan read on demand against the same plan computed at once. The list
operations stand in for their counterparts node by node, and they put their
questions to the same functions. Compared are the items that a reader
receives, for every limit and every number of readings; which inputs were
asked for them is not part of this comparison. -/
namespace Sequences

variable {α κ χ γ δ : Type}

namespace Inquiry

theorem run_bind_of_ok {inquiry : Inquiry χ γ} {asked later : Array χ} {answer : γ}
    (hRun : inquiry.run.run asked = (.ok answer, later)) (next : γ → Inquiry χ δ) :
    (inquiry >>= next).run.run asked = (next answer).run.run later := by
  rw [ExceptT.run_bind, StateT.run_bind, hRun]
  rfl

theorem run_ask {probe : Probe χ γ} {question : χ} {asked : Array χ} {answer : γ}
    (hAnswer : probe (asked.size + 1) question = .ok answer) :
    (ask probe question).run.run asked = (.ok answer, asked.push question) := by
  rw [← hAnswer]
  rfl

theorem run_pure (answer : γ) (asked : Array χ) :
    (pure answer : Inquiry χ γ).run.run asked = (.ok answer, asked) := rfl

end Inquiry

/-- The key is asked for every element, also behind the last one that is
kept. -/
theorem distinctM_run [BEq κ] {key : Probe α κ} {f : α → κ} {xs : List α}
    (hKey : ∀ call, ∀ x ∈ xs, key call x = .ok (f x)) (seen : List κ) (asked : Array α) :
    (distinctM (Inquiry.ask key) seen xs).run.run asked =
      (.ok (distinctFrom f seen xs), asked ++ xs) := by
  induction xs generalizing seen asked with
  | nil => rw [distinctM, Inquiry.run_pure]; simp
  | cons x xs ih =>
      have hHead := Inquiry.run_ask (hKey (asked.size + 1) x (List.mem_cons_self ..))
      have hTail : ∀ call, ∀ y ∈ xs, key call y = .ok (f y) :=
        fun call y hy => hKey call y (List.mem_cons_of_mem x hy)
      rw [distinctM, Inquiry.run_bind_of_ok hHead, distinctFrom_cons]
      cases hSeen : seen.contains (f x) with
      | true => simpa using ih hTail seen (asked.push x)
      | false =>
          simp only [Bool.false_eq_true, if_false]
          rw [Inquiry.run_bind_of_ok (ih hTail (f x :: seen) (asked.push x)), Inquiry.run_pure]
          simp

theorem mergeM_run {cmp : Probe (α × α) Ordering} {f : α → α → Ordering} {as bs : List α}
    (hCmp : ∀ call, ∀ a ∈ as, ∀ b ∈ bs, cmp call (a, b) = .ok (f a b))
    (asked : Array (α × α)) :
    ∃ later, (mergeM (fun x y => Inquiry.ask cmp (x, y)) as bs).run.run asked =
      (.ok (merge f as bs), later) := by
  induction as generalizing bs asked with
  | nil => exact ⟨asked, by rw [mergeM, merge_nil_left, Inquiry.run_pure]⟩
  | cons a as ihLeft =>
      induction bs generalizing asked with
      | nil => exact ⟨asked, by rw [mergeM, merge_nil_right, Inquiry.run_pure]⟩
      | cons b bs ihRight =>
          have hHead := Inquiry.run_ask
            (hCmp (asked.size + 1) a (List.mem_cons_self ..) b (List.mem_cons_self ..))
          rw [mergeM, Inquiry.run_bind_of_ok hHead, merge_cons_cons]
          cases hLE : (f a b).isLE with
          | true =>
              obtain ⟨later, hRest⟩ := ihLeft
                (fun call x hx => hCmp call x (List.mem_cons_of_mem a hx)) (asked.push (a, b))
              exact ⟨later, by rw [if_pos rfl, Inquiry.run_bind_of_ok hRest]; rfl⟩
          | false =>
              obtain ⟨later, hRest⟩ := ihRight
                (fun call x hx y hy => hCmp call x hx y (List.mem_cons_of_mem b hy))
                (asked.push (a, b))
              exact ⟨later, by rw [if_neg (by simp), Inquiry.run_bind_of_ok hRest]; rfl⟩

theorem distinctM_outcome [BEq κ] {key : Probe α κ} {f : α → κ} {xs : List α}
    (hKey : ∀ call, ∀ x ∈ xs, key call x = .ok (f x)) :
    (distinctM (Inquiry.ask key) [] xs).finding.outcome = .ok (distinct f xs) := by
  simp only [Inquiry.finding, distinctM_run hKey]
  rfl

theorem mergeM_outcome {cmp : Probe (α × α) Ordering} {f : α → α → Ordering} {as bs : List α}
    (hCmp : ∀ call, ∀ a ∈ as, ∀ b ∈ bs, cmp call (a, b) = .ok (f a b)) :
    (mergeM (fun x y => Inquiry.ask cmp (x, y)) as bs).finding.outcome =
      .ok (merge f as bs) := by
  obtain ⟨later, hRun⟩ := mergeM_run hCmp #[]
  simp only [Inquiry.finding, hRun]

theorem mem_of_mem_distinctFrom [BEq κ] {f : α → κ} {seen : List κ} {xs : List α} {x : α}
    (hMem : x ∈ distinctFrom f seen xs) : x ∈ xs := by
  induction xs generalizing seen with
  | nil => exact hMem
  | cons y ys ih =>
      rw [distinctFrom_cons] at hMem
      split at hMem
      · exact List.mem_cons_of_mem y (ih hMem)
      · rcases List.mem_cons.mp hMem with rfl | hMem
        · exact List.mem_cons_self ..
        · exact List.mem_cons_of_mem y (ih hMem)

theorem mem_merge {f : α → α → Ordering} {as bs : List α} {x : α} :
    x ∈ merge f as bs ↔ x ∈ as ∨ x ∈ bs := by
  rw [merge_eq_listMerge, List.mem_merge]

namespace Plan

/-- The whole list of a plan, computed at once. Every operation counts its own
calls from one. -/
def eager [BEq κ] : Plan α κ → Except Fault (List α)
  | source name input => if input.breaks then .error (.source name) else .ok input.items
  | distinct key _ inner => do
    let xs ← inner.eager
    (distinctM (Inquiry.ask key) [] xs).finding.outcome
  | merge cmp _ left right => do
    let as ← left.eager
    let bs ← right.eager
    (mergeM (fun x y => Inquiry.ask cmp (x, y)) as bs).finding.outcome

/-- All items that the inputs hold. -/
def items : Plan α κ → List α
  | source _ input => input.items
  | distinct _ _ inner => inner.items
  | merge _ _ left right => left.items ++ right.items

/-- Inputs can be read again and do not fail, and functions answer alike at
every call. What a function would do with other items is left open, so an
item that cannot be looked up anywhere is excluded only where it can occur. -/
def Steady : Plan α κ → Prop
  | source _ input => input.breaks = false ∧ input.singleUse = false
  | distinct key _ inner => inner.Steady ∧
      ∃ f : α → κ, ∀ call, ∀ x ∈ inner.items, key call x = .ok (f x)
  | merge cmp _ left right => left.Steady ∧ right.Steady ∧
      ∃ f : α → α → Ordering, ∀ call, ∀ a ∈ left.items, ∀ b ∈ right.items,
        cmp call (a, b) = .ok (f a b)

/-- The simulation, by induction on the plan: the computation at once does not
fail, makes up no items, and the feed brings its result at every reading. -/
theorem exists_eager_of_steady [BEq κ] {plan : Plan α κ} (hSteady : plan.Steady) :
    ∃ xs, plan.eager = .ok xs ∧ (∀ x ∈ xs, x ∈ plan.items) ∧
      ∀ place, (plan.feedAt place).Repeats xs := by
  induction plan with
  | source name input =>
      obtain ⟨hBreaks, hReplay⟩ := hSteady
      refine ⟨input.items, by simp [eager, hBreaks], fun _ hx => hx, fun place => ?_⟩
      simp only [feedAt, Feed.source, hReplay, hBreaks, Bool.false_eq_true, if_false]
      exact Feed.replay_repeats _ _
  | distinct key noted inner ih =>
      obtain ⟨hInner, f, hKey⟩ := hSteady
      obtain ⟨xs, hEager, hItems, hFeed⟩ := ih hInner
      have hKeyXs : ∀ call, ∀ x ∈ xs, key call x = .ok (f x) :=
        fun call x hx => hKey call x (hItems x hx)
      refine ⟨Sequences.distinct f xs, ?_, fun x hx => ?_, fun place => ?_⟩
      · rw [eager, hEager]
        exact distinctM_outcome hKeyXs
      · exact hItems x (mem_of_mem_distinctFrom hx)
      · exact Feed.distinct_repeats (hFeed place) hKeyXs
  | merge cmp noted left right ihLeft ihRight =>
      obtain ⟨hLeft, hRight, f, hCmp⟩ := hSteady
      obtain ⟨as, hEagerAs, hItemsAs, hFeedAs⟩ := ihLeft hLeft
      obtain ⟨bs, hEagerBs, hItemsBs, hFeedBs⟩ := ihRight hRight
      have hCmpBoth : ∀ call, ∀ a ∈ as, ∀ b ∈ bs, cmp call (a, b) = .ok (f a b) :=
        fun call a ha b hb => hCmp call a (hItemsAs a ha) b (hItemsBs b hb)
      refine ⟨Sequences.merge f as bs, ?_, fun x hx => ?_, fun place => ?_⟩
      · rw [eager, hEagerAs, hEagerBs]
        exact mergeM_outcome hCmpBoth
      · rw [items, List.mem_append]
        exact (mem_merge.mp hx).imp (hItemsAs x) (hItemsBs x)
      · exact Feed.merge_repeats (hFeedAs _) (hFeedBs _) hCmpBoth

end Plan

/-- The items received, and why there are no more of them if the feed failed. -/
def Reading.outcome {α β : Type} (reading : Reading α β) : List β × Option Fault :=
  (reading.got, reading.fault)

namespace Plan

/-- Reading on demand agrees with computing at once, also in groups. A reader
that quits after `k` items has received the first `k`, or all if there are
fewer, and no reading depends on how far the earlier ones went. -/
theorem readings_eq_eager [BEq κ] (plan : Plan α κ) (hSteady : plan.Steady) :
    ∃ xs, plan.eager = .ok xs ∧
      (∀ limits : List Limit, (plan.readings limits).map Reading.outcome =
        limits.map fun limit => (limit.cut xs, none)) ∧
      ∀ size : Int, 0 < size → ∃ groups, groups? size xs = .ok groups ∧
        ∀ limits : List Limit, (plan.groupReadings size limits).map (List.map Reading.outcome) =
          .ok (limits.map fun limit => (limit.cut groups, none)) := by
  obtain ⟨xs, hEager, _, hFeed⟩ := exists_eager_of_steady hSteady
  refine ⟨xs, hEager, fun limits => ?_, fun size hSize => ?_⟩
  · rw [readings, List.map_map]
    exact Feed.visitsFrom_of_repeats (hFeed []) (hFeed []).initial limits plan.pool
  · have hPos : 0 < size.toNat := by omega
    have hGroups := Feed.groups_repeats hPos (hFeed [])
    refine ⟨Sequences.groups size.toNat xs, by rw [groups?, if_neg (by omega)], fun limits => ?_⟩
    rw [groupReadings, Feed.groups?, dif_pos hSize, Except.map, List.map_map]
    congr 1
    exact Feed.visitsFrom_of_repeats hGroups hGroups.initial limits plan.pool

/-- The first numbers of every residue, out of order, and the Fibonacci terms. -/
def residuesAndTerms : Plan UInt64 Value :=
  .merge (comparisonProbe none compare) true
    (.distinct (keyProbe none fun x => .uint (x % 3)) true
      (.source "a" ⟨[7, 4, 9, 2], false, false⟩))
    (.source "fibonacci" Fibonacci.source)

theorem readings_residuesAndTerms :
    residuesAndTerms.Steady ∧
      (residuesAndTerms.readings [some 11, some 2, some 11]).map Reading.outcome =
        [([0, 1, 1, 2, 3, 5, 7, 8, 9, 2, 13], none), ([0, 1], none),
          ([0, 1, 1, 2, 3, 5, 7, 8, 9, 2, 13], none)] := by
  have hSteady : residuesAndTerms.Steady :=
    ⟨⟨⟨rfl, rfl⟩, _, fun _ _ _ => rfl⟩, ⟨rfl, rfl⟩, _, fun _ _ _ _ _ => rfl⟩
  obtain ⟨xs, hEager, hReadings, _⟩ := readings_eq_eager residuesAndTerms hSteady
  have hItems : residuesAndTerms.eager.toOption.map (List.take 11) =
      some [0, 1, 1, 2, 3, 5, 7, 8, 9, 2, 13] := by cbv
  rw [hEager] at hItems
  have hEleven : xs.take 11 = [0, 1, 1, 2, 3, 5, 7, 8, 9, 2, 13] := Option.some.inj hItems
  have hTwo : xs.take 2 = [0, 1] := by
    have hCut : xs.take 2 = (xs.take 11).take 2 := by rw [List.take_take]; rfl
    rw [hCut, hEleven]
    rfl
  refine ⟨hSteady, ?_⟩
  rw [hReadings]
  simp only [List.map_cons, List.map_nil, Limit.cut, hEleven, hTwo]

end Plan

end Sequences
