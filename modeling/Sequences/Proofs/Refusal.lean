import Sequences.Proofs.Sifting
import Sequences.Workspace.Operation

/-! Keys that are refused, because the key function gives up or because its answer
cannot be looked up. Computed at once, the distinct items of a list are lost with
the first refused key. On demand, those before it have been received by then, and
they are the distinct items of what stands before it. Neither way asks for another
key, and the cause is the same for both. -/
namespace Sequences

variable {α τ : Type}

namespace Value

/-- The parts that are joined by pairs, from left to right. -/
def components : Value → List Value
  | pair first second => first.components ++ second.components
  | value => [value]

/-- The type of a part that cannot be looked up, as messages name it. -/
def refusedType? : Value → Option String
  | list _ => some "[]interface \x7b\x7d"
  | table => some "map[string]interface \x7b\x7d"
  | _ => none

/-- The first such part gives the cause. -/
theorem typeName_unhashable? : (value : Value) →
    value.unhashable?.map Unhashable.typeName = value.components.findSome? refusedType?
  | pair first second => by
      have hFirst := typeName_unhashable? first
      have hSecond := typeName_unhashable? second
      rw [components, List.findSome?_append, ← hFirst, ← hSecond, unhashable?]
      cases first.unhashable? <;> rfl
  | null | int _ | uint _ | float _ | text _ | bool _ | list _ | table => rfl

end Value

namespace Probe

/-- The answers of a key function as keys, which fails too if an answer cannot be
looked up. -/
def hashed (key : Probe α Value) : Probe α Value := fun call x => key call x >>= Value.hashed

theorem keyProbe_eq_hashed (failAt : Option Nat) (key : α → Value) :
    keyProbe failAt key = hashed (interruptedAt failAt .key (ofFun key)) := by
  funext call x
  simp only [keyProbe, hashed, interruptedAt, ofFun]
  split <;> rfl

theorem keyProbe_of_hashable {key : α → Value} {x : α} (hNone : (key x).unhashable? = none)
    (call : Nat) : keyProbe none key call x = .ok (key x) := by
  change (key x).hashed = _
  rw [Value.hashed, hNone]

/-- The message of a call whose key is refused. -/
def refusal? (key : Probe α Value) (call : Nat) (x : α) : Option String :=
  match key call x with
  | .error fault => some fault.message
  | .ok value =>
    (value.components.findSome? Value.refusedType?).map fun type => "unhashable type " ++ type

/-- No key of these items is refused. -/
def Admits (key : Probe α Value) (xs : List α) : Prop :=
  ∀ i x, xs[i]? = some x → key.refusal? (i + 1) x = none

/-- The item `x` is the first one whose key is refused. -/
structure Refuses (key : Probe α Value) (xs before : List α) (x : α) (text : String) : Prop where
  place : before ++ [x] <+: xs
  earlier : key.Admits before
  message : key.refusal? (before.length + 1) x = some text

variable {key : Probe α Value}

theorem hashed_of_refusal?_eq_none {call : Nat} {x : α} (hNone : key.refusal? call x = none) :
    ∃ k, key.hashed call x = .ok k := by
  unfold refusal? at hNone
  unfold hashed
  cases hKey : key call x with
  | error fault => simp [hKey] at hNone
  | ok value =>
      simp only [hKey, ← Value.typeName_unhashable?, Option.map_eq_none_iff] at hNone
      exact ⟨value, by simp [bind, Except.bind, Value.hashed, hNone]⟩

theorem hashed_of_refusal?_eq_some {call : Nat} {x : α} {text : String}
    (hSome : key.refusal? call x = some text) :
    ∃ fault, key.hashed call x = .error fault ∧ fault.message = text := by
  unfold refusal? at hSome
  unfold hashed
  cases hKey : key call x with
  | error fault =>
      rw [hKey] at hSome
      exact ⟨fault, rfl, Option.some.inj hSome⟩
  | ok value =>
      simp only [hKey, ← Value.typeName_unhashable?, Option.map_map] at hSome
      obtain ⟨kind, hKind, hText⟩ := Option.map_eq_some_iff.mp hSome
      exact ⟨.unhashable kind, by simp [bind, Except.bind, Value.hashed, hKind], hText⟩

theorem Admits.answers {xs : List α} (hAdmits : key.Admits xs) : key.hashed.Answers 0 xs := by
  intro i x hx
  rw [Nat.zero_add]
  exact hashed_of_refusal?_eq_none (hAdmits i x hx)

theorem Refuses.sift_eq {xs before : List α} {x : α} {text : String}
    (hRefuses : key.Refuses xs before x text) :
    ∃ fault, fault.message = text ∧ sift key.hashed none 0 [] xs =
      ⟨(sift key.hashed none 0 [] before).kept, before ++ [x], some fault⟩ := by
  obtain ⟨after, rfl⟩ := hRefuses.place
  obtain ⟨fault, hKey, hMessage⟩ := hashed_of_refusal?_eq_some hRefuses.message
  refine ⟨fault, hMessage, ?_⟩
  rw [List.append_assoc, List.singleton_append]
  exact sift_of_refused hRefuses.earlier.answers (by rwa [Nat.zero_add]) after []

end Probe

/-- The report of computing the distinct items at once. -/
def distinctReport (τ : Type) (key : Probe α Value) (generator : Generator) (list : Stored α) :
    Report α τ :=
  ((Operation.distinct list key :
    Operation α τ (Stored α) (Stored (Stored α))).perform generator).1

section Report

variable {key : Probe α Value} {list : Stored α}

theorem distinctReport_of_fine (τ : Type) (generator : Generator)
    (hFine : (sift key none 0 [] list.items).fault = none) :
    distinctReport τ key generator list =
      ⟨.ok (.list (.ofList (sift key none 0 [] list.items).kept)),
        (sift key none 0 [] list.items).asked.map .key⟩ := by
  simp only [distinctReport, Operation.perform_distinct, distinctM_finding_sift, Sifting.outcome,
    hFine]
  rfl

/-- Nothing of the pass is reported but its cause and its calls. -/
theorem distinctReport_of_failed (τ : Type) (generator : Generator) {fault : Fault}
    (hFailed : (sift key none 0 [] list.items).fault = some fault) :
    distinctReport τ key generator list =
      ⟨.error (.interrupted fault), (sift key none 0 [] list.items).asked.map .key⟩ := by
  simp only [distinctReport, Operation.perform_distinct, distinctM_finding_sift, Sifting.outcome,
    hFailed]
  rfl

/-- Without a refused key it is the list of first elements. -/
theorem distinctReport_outcome_of_hashable (τ : Type) (generator : Generator) {key : α → Value}
    (hHashable : ∀ x ∈ list.items, (key x).unhashable? = none) :
    (distinctReport τ (keyProbe none key) generator list).outcome =
      .ok (.list (.ofList (distinct key list.items))) := by
  have hProbe (call : Nat) (x : α) (hx : x ∈ list.items) :
      keyProbe none key call x = .ok (key x) := Probe.keyProbe_of_hashable (hHashable x hx) call
  simp only [distinctReport, Operation.perform_distinct, Report.ofFinding, distinctM_outcome hProbe]

end Report

namespace Plan

/-- At the first refused key both ways fail for the same cause. The one that
computes at once reports nothing else; the reader has what is distinct before. -/
theorem readings_refused (τ : Type) (generator : Generator) (raw : Probe α Value) (noted : Bool)
    (name : String) (list : Stored α) {limits : List Limit} (index : Nat)
    (hLimit : limits[index]? = some none) :
    let plan : Plan α Value := .distinct raw.hashed noted
      (.source name (.ofItems list.items none false))
    let earlier := ((plan.readings limits).take index).flatMap (Reading.taken name)
    let key := raw.after earlier.length
    let report (list : Stored α) : Report α τ := distinctReport τ key.hashed generator list
    ∃ reading, (plan.readings limits)[index]? = some reading ∧
      (∀ before x text, key.Refuses list.items before x text → ∃ fault, fault.message = text ∧
        report list = ⟨.error (.interrupted fault), (before ++ [x]).map .key⟩ ∧
        reading.fault = some fault ∧
        (report (some before)).outcome = .ok (.list (.ofList reading.got)) ∧
        reading.taken name = before ++ [x] ∧
        reading.keyed = if noted then before ++ [x] else []) ∧
      (key.Admits list.items →
        report list = ⟨.ok (.list (.ofList reading.got)), list.items.map .key⟩ ∧
        reading.fault = none ∧ reading.taken name = list.items ∧
        reading.keyed = if noted then list.items else []) := by
  intro plan earlier key report
  obtain ⟨reading, hReading, hSifted⟩ := readings_sift raw.hashed noted name list.items index hLimit
  have hSame : sift raw.hashed none earlier.length [] list.items =
      sift key.hashed none 0 [] list.items :=
    (sift_after raw.hashed earlier.length none 0 [] list.items).symm
  change Sifted name noted (sift raw.hashed none earlier.length [] list.items) reading at hSifted
  rw [hSame] at hSifted
  refine ⟨reading, hReading, ?_, ?_⟩
  · intro before x text hRefuses
    obtain ⟨fault, hMessage, hSift⟩ := hRefuses.sift_eq
    have hBefore := (sift_of_answers hRefuses.earlier.answers []).1
    have hReport : report list = _ := distinctReport_of_failed τ generator (by rw [hSift])
    have hFirst : report (some before) = _ := distinctReport_of_fine τ generator hBefore
    rw [hSift] at hSifted hReport
    refine ⟨fault, hMessage, hReport, hSifted.fault, ?_, hSifted.taken, hSifted.keyed⟩
    rw [hFirst, hSifted.got]
    rfl
  · intro hAdmits
    obtain ⟨hFine, hAsked⟩ := sift_of_answers hAdmits.answers []
    have hReport : report list = _ := distinctReport_of_fine τ generator hFine
    rw [hAsked, ← hSifted.got] at hReport
    exact ⟨hReport, hSifted.fault.trans hFine, hSifted.taken.trans hAsked, hAsked ▸ hSifted.keyed⟩

/-- A table in a pair in a pair, behind an item that occurs twice. -/
def nestedTable : List Value :=
  [.int 1, .int 1, .pair (.int 2) (.pair .table (.list [])), .null]

theorem readings_nestedTable :
    let key : Probe Value Value := keyProbe none id
    let cause := Fault.unhashable .table
    ∃ reading, ((Plan.distinct key true (.source "values" (.ofItems nestedTable none false)) :
        Plan Value Value).readings [none])[0]? = some reading ∧
      reading.got = [.int 1] ∧ reading.fault = some cause ∧
      cause.message = "unhashable type map[string]interface \x7b\x7d" ∧
      reading.taken "values" = nestedTable.take 3 ∧ reading.keyed = nestedTable.take 3 ∧
      distinctReport Unit key (.ofWords []) (some nestedTable) =
        ⟨.error (.interrupted cause), (nestedTable.take 3).map .key⟩ := by
  intro key cause
  let raw : Probe Value Value := .interruptedAt none .key (.ofFun id)
  have hKey : key = raw.hashed := Probe.keyProbe_eq_hashed none id
  rw [hKey]
  obtain ⟨reading, hReading, hRefused, -⟩ := readings_refused Unit (.ofWords []) raw true "values"
    (some nestedTable) 0 (rfl : ([none] : List Limit)[0]? = some none)
  have hRefuses : (raw.after 0).Refuses nestedTable [.int 1, .int 1]
      (.pair (.int 2) (.pair .table (.list []))) cause.message := by
    refine ⟨⟨[.null], rfl⟩, fun i x hx => ?_, rfl⟩
    match i with
    | 0 => cases hx; rfl
    | 1 => cases hx; rfl
    | i + 2 => cases hx
  obtain ⟨fault, -, hReport, hFault, hGot, hTaken, hKeyed⟩ := hRefused _ _ _ hRefuses
  have hCause : distinctReport Unit (raw.after 0).hashed (.ofWords []) (some nestedTable) =
    ⟨.error (.interrupted cause), (nestedTable.take 3).map .key⟩ := by cbv
  have hDistinct : (distinctReport Unit (raw.after 0).hashed (.ofWords [])
    (some [.int 1, .int 1])).outcome = .ok (.list (.ofList [.int 1])) := by cbv
  have hOutcome := congrArg Report.outcome (hCause.symm.trans hReport)
  have hItems := congrArg Stored.items
    (Result.list.inj (Except.ok.inj (hDistinct.symm.trans hGot)))
  rw [Stored.items_ofList, Stored.items_ofList] at hItems
  cases Failure.interrupted.inj (Except.error.inj hOutcome)
  exact ⟨reading, hReading, hItems.symm, hFault, rfl, hTaken, hKeyed, hCause⟩

end Plan

end Sequences
