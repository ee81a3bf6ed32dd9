import Sequences.Proofs.FirstPlaces
import Sequences.Proofs.OrderedUnion

/-! Keeping first elements by a finer key before a coarser one. The finer key drops only
elements behind others that the coarser key takes for equal to them, so in the end it has
made no difference. This holds also where keys differ from themselves, and where the
coarser key is refused: an element that the finer key drops is never the refused one. -/
namespace Sequences

variable {α κ μ : Type}

/-- Elements of the list whose fine keys are equal have equal coarse keys. -/
def Refines [BEq κ] [BEq μ] (fine : α → κ) (coarse : α → μ) (xs : List α) : Prop :=
  ∀ x ∈ xs, ∀ y ∈ xs, fine x == fine y → coarse x == coarse y

theorem refines_self [BEq κ] (key : α → κ) (xs : List α) : Refines key key xs :=
  fun _ _ _ _ hSame => hSame

section Refines

variable [BEq κ] [BEq μ] {fine : α → κ} {coarse : α → μ} {x : α} {xs : List α}

theorem Refines.tail (hFine : Refines fine coarse (x :: xs)) : Refines fine coarse xs :=
  fun y hy z hz => hFine y (List.mem_cons_of_mem x hy) z (List.mem_cons_of_mem x hz)

theorem Refines.head (hFine : Refines fine coarse (x :: xs)) {y : α} (hy : y ∈ xs)
    (hSame : fine y == fine x) : coarse y == coarse x :=
  hFine y (List.mem_cons_of_mem x hy) x (List.mem_cons_self ..) hSame

/-- What holds of all elements with a fine key seen before goes on to hold, if it holds of
all that the coarse key takes for equal to the next element. -/
theorem Refines.seen_cons (hFine : Refines fine coarse (x :: xs)) {seen : List κ}
    {Settled : α → Prop}
    (hSeen : ∀ y ∈ x :: xs, seen.contains (fine y) → Settled y)
    (hNext : ∀ y ∈ xs, coarse y == coarse x → Settled y) :
    ∀ y ∈ xs, (fine x :: seen).contains (fine y) → Settled y := by
  intro y hy hContains
  rw [List.contains_cons, Bool.or_eq_true] at hContains
  rcases hContains with hSame | hContains
  · exact hNext y hy (hFine.head hy hSame)
  · exact hSeen y (List.mem_cons_of_mem x hy) hContains

/-- By induction on the list, for all keys seen before. A fine key is among those seen only
if the coarse one is, and the next element keeps this up whether or not it is new. -/
theorem Refines.distinctFrom_append [PartialEquivBEq μ] (hFine : Refines fine coarse xs)
    {seen : List κ} {met : List μ}
    (hSeen : ∀ x ∈ xs, seen.contains (fine x) → met.contains (coarse x)) (rest : List α) :
    distinctFrom coarse met (distinctFrom fine seen xs ++ rest) =
      distinctFrom coarse met (xs ++ rest) := by
  induction xs generalizing seen met with
  | nil => rfl
  | cons x xs ih =>
      rw [distinctFrom_cons fine]
      by_cases hOld : seen.contains (fine x)
      · have hMet := hSeen x (List.mem_cons_self ..) hOld
        rw [if_pos hOld, List.cons_append, distinctFrom_cons, if_pos hMet]
        exact ih hFine.tail fun y hy => hSeen y (List.mem_cons_of_mem x hy)
      · rw [if_neg hOld, List.cons_append, List.cons_append, distinctFrom_cons,
          distinctFrom_cons coarse met x (xs ++ rest)]
        by_cases hMet : met.contains (coarse x)
        · rw [if_pos hMet, if_pos hMet]
          apply ih hFine.tail
          apply hFine.seen_cons hSeen
          intro y _ hSame
          rw [← contains_cons_of_contains hMet, List.contains_cons, hSame, Bool.true_or]
        · rw [if_neg hMet, if_neg hMet]
          congr 1
          apply ih hFine.tail
          refine hFine.seen_cons (fun y hy hContains => ?_) (fun y _ hSame => ?_)
          · rw [List.contains_cons, hSeen y hy hContains, Bool.or_true]
          · rw [List.contains_cons, hSame, Bool.true_or]

theorem Refines.distinct_append [PartialEquivBEq μ] (hFine : Refines fine coarse xs)
    (rest : List α) :
    distinct coarse (distinct fine xs ++ rest) = distinct coarse (xs ++ rest) :=
  hFine.distinctFrom_append (by simp) rest

theorem Refines.distinct_distinct [PartialEquivBEq μ] (hFine : Refines fine coarse xs) :
    distinct coarse (distinct fine xs) = distinct coarse xs := by
  simpa using hFine.distinct_append []

end Refines

/-- The cause for which the first refused key cannot be looked up. -/
def refused? (key : α → Value) (xs : List α) : Option Unhashable :=
  xs.findSome? fun x => (key x).unhashable?

theorem refused?_cons (key : α → Value) (x : α) (xs : List α) :
    refused? key (x :: xs) = (key x).unhashable?.or (refused? key xs) := by
  rw [refused?, List.findSome?_cons]
  cases (key x).unhashable? <;> rfl

theorem refused?_append (key : α → Value) (xs ys : List α) :
    refused? key (xs ++ ys) = (refused? key xs).or (refused? key ys) :=
  List.findSome?_append

/-- An element that is dropped has a coarse key that equals an earlier one. A key that
equals any is not refused. -/
theorem Refines.refused?_distinctFrom_append {fine coarse : α → Value} {xs : List α}
    (hFine : Refines fine coarse xs) {seen : List Value}
    (hSeen : ∀ x ∈ xs, seen.contains (fine x) → (coarse x).unhashable? = none) (rest : List α) :
    refused? coarse (distinctFrom fine seen xs ++ rest) = refused? coarse (xs ++ rest) := by
  induction xs generalizing seen with
  | nil => rfl
  | cons x xs ih =>
      rw [distinctFrom_cons]
      by_cases hOld : seen.contains (fine x)
      · have hFree := hSeen x (List.mem_cons_self ..) hOld
        rw [if_pos hOld, List.cons_append, refused?_cons, hFree, Option.none_or]
        exact ih hFine.tail fun y hy => hSeen y (List.mem_cons_of_mem x hy)
      · rw [if_neg hOld, List.cons_append, List.cons_append, refused?_cons, refused?_cons]
        congr 1
        apply ih hFine.tail
        apply hFine.seen_cons hSeen
        intro y _ hSame
        exact Value.unhashable?_of_beq_self (BEq.trans hSame (BEq.symm hSame))

theorem Refines.refused?_distinct_append {fine coarse : α → Value} {xs : List α}
    (hFine : Refines fine coarse xs) (rest : List α) :
    refused? coarse (distinct fine xs ++ rest) = refused? coarse (xs ++ rest) :=
  hFine.refused?_distinctFrom_append (by simp) rest

/-- The outcome of keeping first elements, for keys of which some may be refused. -/
def thinned (τ : Type) (generator : Generator) (key : α → Value) (list : Stored α) :
    Except Failure (Result α) :=
  (distinctReport τ (keyProbe none key) generator list).outcome

section Thinned

variable {τ : Type} {generator : Generator} {key : α → Value} {list : Stored α}

theorem thinned_of_admitted (hNone : refused? key list.items = none) :
    thinned τ generator key list = .ok (.list (.ofList (distinct key list.items))) :=
  distinctReport_outcome_of_hashable τ generator (List.findSome?_eq_none_iff.mp hNone)

theorem thinned_of_refused {kind : Unhashable} (hSome : refused? key list.items = some kind) :
    thinned τ generator key list = .error (.interrupted (.unhashable kind)) := by
  obtain ⟨before, x, after, hItems, hKind, hBefore⟩ := List.findSome?_eq_some_iff.mp hSome
  have hAnswers : (keyProbe none key).Answers 0 before := by
    intro i y hy
    exact ⟨key y, Probe.keyProbe_of_hashable (hBefore y (List.mem_of_getElem? hy)) _⟩
  have hRefused : keyProbe none key (0 + before.length + 1) x = .error (.unhashable kind) := by
    change (key x).hashed = _
    rw [Value.hashed, hKind]
  have hSift := sift_of_refused hAnswers hRefused after []
  rw [← hItems] at hSift
  rw [thinned, distinctReport_of_failed τ generator (by rw [hSift])]

theorem thinned_congr {other : Stored α}
    (hRefused : refused? key list.items = refused? key other.items)
    (hDistinct : distinct key list.items = distinct key other.items) :
    thinned τ generator key list = thinned τ generator key other := by
  cases hOther : refused? key other.items with
  | none =>
      rw [thinned_of_admitted hOther, thinned_of_admitted (hRefused.trans hOther), hDistinct]
  | some kind => rw [thinned_of_refused hOther, thinned_of_refused (hRefused.trans hOther)]

/-- What is put behind the list may be refused, as long as its own keys are not. -/
theorem Refines.thinned_append {fine coarse : α → Value}
    (hFine : Refines fine coarse list.items) (rest : List α) :
    thinned τ generator coarse (some (distinct fine list.items ++ rest)) =
      thinned τ generator coarse (some (list.items ++ rest)) :=
  thinned_congr (hFine.refused?_distinct_append rest) (hFine.distinct_append rest)

theorem Refines.thinned_ofList {fine coarse : α → Value}
    (hFine : Refines fine coarse list.items) :
    thinned τ generator coarse (.ofList (distinct fine list.items)) =
      thinned τ generator coarse list := by
  have hRefused := hFine.refused?_distinct_append []
  rw [List.append_nil, List.append_nil] at hRefused
  apply thinned_congr
  · rwa [Stored.items_ofList]
  · rw [Stored.items_ofList, hFine.distinct_distinct]

end Thinned

/-- Keeping first elements by a finer key before a coarser one changes nothing: what stays
are the first elements by the coarser key. Only its equality has to be symmetric and
transitive. Every key is finer than itself, so doing it twice is doing it once, also for the
beginning of a list. A key that is refused is refused all the same. -/
theorem distinct_finerFirst :
    (∀ (α κ μ : Type) [BEq κ] [BEq μ] [PartialEquivBEq μ] (fine : α → κ) (coarse : α → μ)
      (xs : List α), Refines fine coarse xs →
        distinct coarse (distinct fine xs) = distinct coarse xs ∧
        ∃ places, FirstPlaces coarse xs places ∧
          distinct coarse (distinct fine xs) = places.map xs.get) ∧
    (∀ (α κ : Type) [BEq κ] [PartialEquivBEq κ] (key : α → κ) (as bs : List α),
      distinct key (distinct key as) = distinct key as ∧
        distinct key (distinct key as ++ bs) = distinct key (as ++ bs)) ∧
    ∀ (α τ : Type) (generator : Generator) (list : Stored α),
      let thin := thinned (α := α) τ generator
      (∀ fine coarse : α → Value, (∀ x ∈ list.items, (fine x).unhashable? = none) →
        Refines fine coarse list.items →
        ∃ once, thin fine list = .ok (.list once) ∧ thin coarse once = thin coarse list) ∧
      ∀ (key : α → Value) (rest : List α),
        (∃ once, thin key list = .ok (.list once) ∧ thin key once = .ok (.list once) ∧
          thin key (some (once.items ++ rest)) = thin key (some (list.items ++ rest))) ∨
        ∃ cause, thin key list = .error cause ∧
          thin key (some (list.items ++ rest)) = .error cause := by
  refine ⟨?_, ?_, ?_⟩
  · intro α κ μ _ _ _ fine coarse xs hFine
    have hSame := hFine.distinct_distinct
    refine ⟨hSame, keptPlaces coarse [] xs, firstPlaces_keptPlaces coarse xs, ?_⟩
    rw [hSame, map_get_keptPlaces]
    rfl
  · intro α κ _ _ key as bs
    have hSelf := refines_self key as
    exact ⟨hSelf.distinct_distinct, hSelf.distinct_append bs⟩
  · intro α τ generator list thin
    constructor
    · intro fine coarse hHashable hFine
      have hNone : refused? fine list.items = none := List.findSome?_eq_none_iff.mpr hHashable
      exact ⟨_, thinned_of_admitted hNone, hFine.thinned_ofList⟩
    · intro key rest
      have hSelf := refines_self key list.items
      cases hRefused : refused? key list.items with
      | none =>
          have hOnce : thin key list = _ := thinned_of_admitted hRefused
          refine .inl ⟨_, hOnce, hSelf.thinned_ofList.trans hOnce, ?_⟩
          rw [Stored.items_ofList]
          exact hSelf.thinned_append rest
      | some kind =>
          have hLonger : refused? key (list.items ++ rest) = some kind := by
            rw [refused?_append, hRefused, Option.some_or]
          exact .inr ⟨_, thinned_of_refused hRefused, thinned_of_refused hLonger⟩

/-- Numbers by their values and then by their sizes. Among them are both zeros and two
payloads that are not numbers, which both keys tell apart from everything. -/
theorem distinct_finerFirst_signs :
    let numbers : List Binary64 := [⟨0x3ff0000000000000⟩, ⟨0xbff0000000000000⟩,
      ⟨0x7ff8000000000001⟩, ⟨0xfff8000000000001⟩, ⟨0⟩, ⟨0x8000000000000000⟩, ⟨0x3ff0000000000000⟩]
    let once : List Binary64 := [⟨0x3ff0000000000000⟩, ⟨0xbff0000000000000⟩,
      ⟨0x7ff8000000000001⟩, ⟨0xfff8000000000001⟩, ⟨0⟩]
    let kept : List Binary64 := [⟨0x3ff0000000000000⟩, ⟨0x7ff8000000000001⟩,
      ⟨0xfff8000000000001⟩, ⟨0⟩]
    let size (x : Binary64) : Value := .float ⟨x.bits &&& 0x7fffffffffffffff⟩
    (∀ x ∈ numbers, (Value.float x).unhashable? = none) ∧ Refines Value.float size numbers ∧
      thinned Unit (.ofWords []) .float (some numbers) = .ok (.list (some once)) ∧
      thinned Unit (.ofWords []) size (some once) = .ok (.list (some kept)) ∧
      thinned Unit (.ofWords []) size (some numbers) = .ok (.list (some kept)) := by
  intro numbers once kept size
  have hHashable : ∀ x ∈ numbers, (Value.float x).unhashable? = none := fun _ _ => rfl
  have hFine : Refines Value.float size numbers := by unfold Refines; decide
  have hOnce : thinned Unit (.ofWords []) .float (some numbers) = .ok (.list (some once)) := by cbv
  have hKept : thinned Unit (.ofWords []) size (some once) = .ok (.list (some kept)) := by cbv
  obtain ⟨-, -, hThin⟩ := distinct_finerFirst
  obtain ⟨first, hFirst, hSecond⟩ :=
    (hThin Binary64 Unit (.ofWords []) (some numbers)).1 .float size hHashable hFine
  cases hOnce.symm.trans hFirst
  exact ⟨hHashable, hFine, hOnce, hKept, hSecond.symm.trans hKept⟩

end Sequences
