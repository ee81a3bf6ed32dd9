import Sequences.Proofs.Lookahead
import Sequences.Proofs.OrderedUnion
import Sequences.Proofs.Sifting

/-! How much of a replayable input is read for a number of elements with different
keys. A reader who quits has taken the shortest beginning of the input that holds so
many, and has asked for the keys of these items and of no others. If the input does not
hold so many, the reader takes all of it and meets its end. Nothing is assumed of the
equality of keys. -/
namespace Sequences

variable {α κ : Type} [BEq κ]

/-- The shortest beginning of a list that holds so many elements with different keys. -/
structure Shortest (f : α → κ) (k : Nat) (xs taken : List α) : Prop where
  isPrefix : taken <+: xs
  enough : (distinct f taken).length = k
  least : ∀ ys, ys <+: xs → k ≤ (distinct f ys).length → taken <+: ys

/-- A pass that keeps the first elements of a list with keys that were not seen, up to
so many, and that goes no further than it must. -/
structure Economical (f : α → κ) (k : Nat) (seen : List κ) (xs : List α)
    (sifting : Sifting α) : Prop where
  fault : sifting.fault = none
  kept : sifting.kept = (distinctFrom f seen xs).take k
  asked : sifting.asked <+: xs
  kept_asked : sifting.kept = distinctFrom f seen sifting.asked
  all : sifting.kept.length < k → sifting.asked = xs
  least : ∀ ys, ys <+: xs → k ≤ (distinctFrom f seen ys).length → sifting.asked <+: ys

/-- So many elements stand on at least so many items. -/
theorem Shortest.length_le {f : α → κ} {k : Nat} {xs taken : List α}
    (hShortest : Shortest f k xs taken) : k ≤ taken.length := by
  rw [← hShortest.enough]
  exact (distinctFrom_sublist f [] taken).length_le

section Economical

variable {f : α → κ} {k : Nat} {seen : List κ} {x : α} {xs : List α} {sifting : Sifting α}

theorem economical_nil (f : α → κ) (k : Nat) (seen : List κ) :
    Economical f k seen [] ⟨[], [], none⟩ := by
  constructor <;> simp

/-- Nothing needs to be done for nothing. -/
theorem economical_zero (f : α → κ) (seen : List κ) (xs : List α) :
    Economical f 0 seen xs ⟨[], [], none⟩ := by
  constructor <;> simp

/-- Whoever still wants an element must look at an item whose key was seen. -/
theorem Economical.pass (hPos : 0 < k) (hSeen : seen.contains (f x) = true)
    (hLater : Economical f k seen xs sifting) :
    Economical f k seen (x :: xs) (sifting.pass x) := by
  have hSkip (ys : List α) : distinctFrom f seen (x :: ys) = distinctFrom f seen ys := by
    rw [distinctFrom_cons, if_pos hSeen]
  constructor
  case fault => exact hLater.fault
  case kept => exact hLater.kept.trans (congrArg (List.take k) (hSkip xs).symm)
  case asked => exact (List.prefix_cons_inj x).mpr hLater.asked
  case kept_asked => exact hLater.kept_asked.trans (hSkip sifting.asked).symm
  case all =>
    intro hFew
    exact congrArg (x :: ·) (hLater.all hFew)
  case least =>
    intro ys hPrefix hEnough
    rcases List.prefix_cons_iff.mp hPrefix with rfl | ⟨rest, rfl, hRest⟩
    · exact absurd hEnough (Nat.not_le.mpr hPos)
    · rw [hSkip] at hEnough
      exact (List.prefix_cons_inj x).mpr (hLater.least rest hRest hEnough)

theorem Economical.keep (hNew : seen.contains (f x) = false)
    (hLater : Economical f k (f x :: seen) xs sifting) :
    Economical f (k + 1) seen (x :: xs) (sifting.keep x) := by
  have hTake (ys : List α) :
      distinctFrom f seen (x :: ys) = x :: distinctFrom f (f x :: seen) ys := by
    rw [distinctFrom_cons, if_neg (by simp [hNew])]
  constructor
  case fault => exact hLater.fault
  case kept =>
    rw [hTake, List.take_succ_cons, ← hLater.kept]
    rfl
  case asked => exact (List.prefix_cons_inj x).mpr hLater.asked
  case kept_asked =>
    show x :: sifting.kept = distinctFrom f seen (x :: sifting.asked)
    rw [hTake, ← hLater.kept_asked]
  case all =>
    intro hFew
    exact congrArg (x :: ·) (hLater.all (Nat.lt_of_succ_lt_succ hFew))
  case least =>
    intro ys hPrefix hEnough
    rcases List.prefix_cons_iff.mp hPrefix with rfl | ⟨rest, rfl, hRest⟩
    · exact absurd hEnough (Nat.not_succ_le_zero k)
    · rw [hTake, List.length_cons] at hEnough
      apply (List.prefix_cons_inj x).mpr
      exact hLater.least rest hRest (Nat.le_of_succ_le_succ hEnough)

/-- The run lemma, along the list. The limit falls with each element that is kept, and
the reader who keeps the last one looks at nothing more. -/
theorem sift_economical {key : Probe α κ} (hKey : ∀ call, ∀ x ∈ xs, key call x = .ok (f x))
    (hPos : 0 < k) (calls : Nat) (seen : List κ) :
    Economical f k seen xs (sift key (some k) calls seen xs) := by
  induction xs generalizing k calls seen with
  | nil => exact economical_nil f k seen
  | cons x xs ih =>
      obtain ⟨hHead, hTail⟩ := forall_and.mp fun call => List.forall_mem_cons.mp (hKey call)
      simp only [sift, hHead (calls + 1)]
      cases hSeen : seen.contains (f x) with
      | true =>
          rw [if_pos rfl]
          exact (ih hTail hPos (calls + 1) seen).pass hPos hSeen
      | false =>
          rw [if_neg (by simp)]
          obtain ⟨less, rfl⟩ := Nat.exists_eq_succ_of_ne_zero (Nat.ne_of_gt hPos)
          cases less with
          | zero => exact (economical_zero f (f x :: seen) xs).keep hSeen
          | succ less =>
              have hLater := ih hTail (Nat.succ_pos less) (calls + 1) (f x :: seen)
              rw [if_neg (by simp), if_neg (by simp)]
              exact hLater.keep hSeen

/-- A pass that kept enough has stopped as early as it could. -/
theorem Economical.shortest (hPass : Economical f k [] xs sifting)
    (hEnough : sifting.kept.length = k) : Shortest f k xs sifting.asked where
  isPrefix := hPass.asked
  enough := by
    rw [distinct, ← hPass.kept_asked]
    exact hEnough
  least := hPass.least

/-- A pass that kept too little went over a list that holds no more. -/
theorem Economical.length_lt (hPass : Economical f k [] xs sifting)
    (hFew : sifting.kept.length < k) (ys : List α) (hPrefix : ys <+: xs) :
    (distinct f ys).length < k := by
  apply Nat.lt_of_not_le
  intro hEnough
  have hLeast := hPass.least ys hPrefix hEnough
  have hAll := hPass.all hFew
  rw [hAll] at hLeast
  have hSame : ys = xs := hPrefix.eq_of_length_le hLeast.length_le
  have hKept := hPass.kept_asked
  rw [hAll, ← hSame] at hKept
  rw [hKept] at hFew
  exact Nat.not_le.mpr hFew hEnough

end Economical

namespace Plan

/-- When the reader of the elements with different keys quits, and when its input comes
to an end. -/
theorem readings_quit_or_ended (key : Probe α κ) (noted : Bool) (name : String) (xs : List α)
    {limits : List Limit} {index : Nat} {limit : Limit} (hLimit : limits[index]? = some limit)
    (hWants : limit ≠ some 0) :
    let plan : Plan α κ := .distinct key noted (.source name (.ofItems xs none false))
    ∃ reading, (plan.readings limits)[index]? = some reading ∧
      (.quit ∈ reading.notes ↔ limit = some reading.got.length) ∧
      (reading.fault = none →
        (.ended ⟨name, []⟩ ∈ eventsIn reading.notes ↔ .quit ∉ reading.notes)) := by
  intro plan
  let leaf : Leaf := ⟨name, []⟩
  let feed := Feed.distinctItems leaf xs key noted
  let ledger : Feed.Ledger feed [leaf] := (Feed.Ledger.replay leaf xs false).distinct key noted
  let leg (limit : Limit) (reading : Reading α α) : Prop := limit ≠ some 0 →
    (.quit ∈ reading.notes ↔ limit = some reading.got.length) ∧
      (reading.fault = none → (.ended leaf ∈ eventsIn reading.notes ↔ .quit ∉ reading.notes))
  have hVisit (limit : Limit) (state : feed.State) (pool : Pool α) (hFresh : feed.Fresh state) :
      leg limit (feed.visitFrom limit state pool).reading := by
    intro hWants
    have hReady : ledger.Ready state := by
      rcases hFresh with rfl | ⟨earlier, rfl⟩
      · exact ledger.ready_initial
      · exact ledger.ready_rewind earlier
    have hOpen (state : feed.State) (hReady : ledger.Ready state) :
        ledger.phase state leaf ≠ .closed := hReady
    exact ⟨feed.quit_mem_visitFrom_iff hWants state pool,
      ledger.ended_mem_visitFrom_iff List.mem_cons_self hOpen limit state pool hReady⟩
  obtain ⟨reading, hReading, hLeg⟩ := feed.exists_reading hVisit hLimit plan.pool
  exact ⟨reading, hReading, hLeg hWants⟩

/-- A reader of elements with different keys takes the shortest beginning of the input
that holds as many as it wants, or else all of the input and its end. The key of each
item taken is asked for once. -/
theorem readings_shortestPrefix {key : Probe α κ} {f : α → κ} {xs : List α}
    (hKey : ∀ call, ∀ x ∈ xs, key call x = .ok (f x)) (noted : Bool) (name : String)
    {limits : List Limit} {index k : Nat} (hPos : 0 < k)
    (hLimit : limits[index]? = some (some k)) :
    let leaf : Leaf := ⟨name, []⟩
    let plan : Plan α κ := .distinct key noted (.source name (.ofItems xs none false))
    (∀ ys, ys <+: xs → (distinctM (Inquiry.ask key) [] ys).finding =
      ⟨.ok (Sequences.distinct f ys), ys⟩) ∧
    ∃ reading, (plan.readings limits)[index]? = some reading ∧ reading.fault = none ∧
      reading.got = (Sequences.distinct f xs).take k ∧
      reading.keyed = (if noted then reading.taken name else []) ∧
      ((Shortest f k xs (reading.taken name) ∧ .ended leaf ∉ eventsIn reading.notes) ∨
        ((∀ ys, ys <+: xs → (Sequences.distinct f ys).length < k) ∧ reading.taken name = xs ∧
          .ended leaf ∈ eventsIn reading.notes)) := by
  intro leaf plan
  constructor
  · intro ys hPrefix
    have hAnswers (call : Nat) (y : α) (hy : y ∈ ys) : key call y = .ok (f y) :=
      hKey call y (hPrefix.mem hy)
    rw [Inquiry.finding, distinctM_run hAnswers]
    simp [Sequences.distinct]
  · obtain ⟨reading, hReading, hSifted⟩ := readings_sift key noted name xs index hLimit
    obtain ⟨same, hSame, hQuit, hEnded⟩ :=
      readings_quit_or_ended key noted name xs hLimit (by simpa using Nat.ne_of_gt hPos)
    cases Option.some.inj (hReading.symm.trans hSame)
    have hPass := sift_economical hKey hPos
      (((plan.readings limits).take index).flatMap (Reading.taken name)).length []
    have hFault := hSifted.fault.trans hPass.fault
    have hGot := hSifted.got.trans hPass.kept
    have hKeyed := hSifted.keyed
    rw [← hSifted.taken] at hKeyed
    refine ⟨reading, hReading, hFault, hGot, hKeyed, ?_⟩
    rw [hEnded hFault, hQuit, hSifted.taken, hSifted.got, Option.some.injEq]
    have hMost := List.length_take_le k (distinctFrom f [] xs)
    rw [← hPass.kept] at hMost
    rcases Nat.lt_or_eq_of_le hMost with hFew | hEnough
    · exact .inr ⟨hPass.length_lt hFew, hPass.all hFew, Nat.ne_of_gt hFew⟩
    · exact .inl ⟨hPass.shortest hEnough, not_not_intro hEnough.symm⟩

/-- A value that differs from itself is new each time. Three elements take three items,
although the second one comes again behind them, and five are not there. -/
theorem readings_unequalValue :
    let nan : Value := .float ⟨0x7ff8000000000001⟩
    let values : List Value := [nan, .int 1, nan, .int 1, .int 2]
    let leaf : Leaf := ⟨"values", []⟩
    let plan : Plan Value Value :=
      .distinct (keyProbe none id) true (.source "values" (.ofItems values none false))
    (∃ reading : Reading Value Value, (plan.readings [some 3, some 5])[0]? = some reading ∧
      reading.got = [nan, .int 1, nan] ∧ reading.taken "values" = values.take 3 ∧
      reading.keyed = values.take 3 ∧ .ended leaf ∉ eventsIn reading.notes) ∧
    ∃ reading : Reading Value Value, (plan.readings [some 3, some 5])[1]? = some reading ∧
      reading.got = [nan, .int 1, nan, .int 2] ∧ reading.taken "values" = values ∧
      reading.keyed = values ∧ .ended leaf ∈ eventsIn reading.notes := by
  intro nan values leaf plan
  have hHashable : ∀ x ∈ values, x.unhashable? = none := by decide
  have hKey (call : Nat) (x : Value) (hx : x ∈ values) :
      keyProbe none id call x = .ok (id x) := by
    change x.hashed = _
    rw [Value.hashed, hHashable x hx]
    rfl
  have hDistinct : Sequences.distinct id values = [nan, .int 1, nan, .int 2] := by cbv
  have hThree : (Sequences.distinct id (values.take 3)).length = 3 := by cbv
  constructor
  · obtain ⟨-, reading, hReading, -, hGot, hKeyed, hEnd⟩ :=
      readings_shortestPrefix hKey true "values" (by decide : 0 < 3)
        (rfl : ([some 3, some 5] : List Limit)[0]? = some (some 3))
    rw [hDistinct] at hGot
    rcases hEnd with ⟨hShortest, hOpen⟩ | ⟨hFew, -, -⟩
    · have hPrefix := hShortest.least (values.take 3) (List.take_prefix 3 values) hThree.ge
      have hTaken := hPrefix.eq_of_length_le hShortest.length_le
      exact ⟨reading, hReading, hGot, hTaken, hKeyed.trans hTaken, hOpen⟩
    · exact absurd (hFew _ (List.take_prefix 3 values)) (by rw [hThree]; decide)
  · obtain ⟨-, reading, hReading, -, hGot, hKeyed, hEnd⟩ :=
      readings_shortestPrefix hKey true "values" (by decide : 0 < 5)
        (rfl : ([some 3, some 5] : List Limit)[1]? = some (some 5))
    rw [hDistinct] at hGot
    rcases hEnd with ⟨hShortest, -⟩ | ⟨-, hTaken, hEnded⟩
    · have hAll := hShortest.isPrefix.eq_of_length_le hShortest.length_le
      have hEnough := hShortest.enough
      rw [hAll, hDistinct] at hEnough
      exact absurd hEnough (by decide)
    · exact ⟨reading, hReading, hGot, hTaken, hKeyed.trans hTaken, hEnded⟩

end Plan

end Sequences
