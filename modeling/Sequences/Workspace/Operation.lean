import Sequences.Arrangement
import Sequences.Bisection
import Sequences.Distinct
import Sequences.Element.Basic
import Sequences.Grouping
import Sequences.Maximum
import Sequences.Merging
import Sequences.Stored

/-!
One operation on lists, and the report of what it gave and whom it asked. The
operands are either the lists themselves or, in a workspace, their names.
-/

namespace Sequences

variable {α τ σ ν σ' ν' : Type}

/-- Operations on lists of type `σ` and on lists of lists of type `ν`, with
elements of type `α` that are searched by targets of type `τ`. -/
inductive Operation (α τ σ ν : Type) where
  | group (list : σ) (size : Int)
  | flatten (nested : ν)
  | distinct (list : σ) (key : Probe α Value)
  | merge (left right : σ) (cmp : Probe (α × α) Ordering)
  | maximum (list : σ) (cmp : Probe (α × α) Ordering)
  | search (list : σ) (target : τ) (cmp : Probe (α × τ) Ordering)
  | shuffle (list : σ)

inductive Result (α : Type) where
  | list (items : Stored α)
  | nested (lists : Stored (Stored α))
  | value (element : α)
  | position (found : Option Nat)

/-- A question to a function that the caller supplied. -/
inductive Call (α τ : Type) where
  | key (x : α)
  | compare (x y : α)
  | search (x : α) (target : τ)

structure Report (α τ : Type) where
  outcome : Except Failure (Result α)
  calls : List (Call α τ)

namespace Report

/-- The report of an operation that asks nobody. -/
def silent (outcome : Except Failure (Result α)) : Report α τ := ⟨outcome, []⟩

def ofFinding {χ γ : Type} (call : χ → Call α τ) (result : γ → Except Failure (Result α))
    (finding : Finding χ γ) : Report α τ where
  outcome := match finding.outcome with
    | .error fault => .error (.interrupted fault)
    | .ok answer => result answer
  calls := finding.calls.map call

theorem ofFinding_map {χ χ' γ γ' : Type} (call : χ' → Call α τ)
    (result : γ' → Except Failure (Result α)) (question : χ → χ') (answer : γ → γ')
    (finding : Finding χ γ) :
    ofFinding call result ⟨finding.outcome.map answer, finding.calls.map question⟩ =
      ofFinding (call ∘ question) (result ∘ answer) finding := by
  obtain ⟨outcome, calls⟩ := finding
  cases outcome <;> simp [ofFinding, Except.map]

theorem ofFinding_finding_map {χ γ γ' : Type} (call : χ → Call α τ)
    (result : γ' → Except Failure (Result α)) (answer : γ → γ') (inquiry : Inquiry χ γ) :
    ofFinding call result (answer <$> inquiry).finding =
      ofFinding call (result ∘ answer) inquiry.finding := by
  have hMap := ofFinding_map call result id answer inquiry.finding
  rw [List.map_id] at hMap
  rw [Inquiry.finding_map]
  exact hMap

end Report

namespace Operation

/-- Replaces every operand. -/
def mapOperands (f : σ → σ') (g : ν → ν') : Operation α τ σ ν → Operation α τ σ' ν'
  | group list size => .group (f list) size
  | flatten nested => .flatten (g nested)
  | distinct list key => .distinct (f list) key
  | merge left right cmp => .merge (f left) (f right) cmp
  | maximum list cmp => .maximum (f list) cmp
  | search list target cmp => .search (f list) target cmp
  | shuffle list => .shuffle (f list)

/-- Only shuffling moves the generator on. -/
def perform (generator : Generator) :
    Operation α τ (Stored α) (Stored (Stored α)) → Report α τ × Generator
  | group list size => (.silent ((groupsStored? size list).map .nested), generator)
  | flatten nested =>
    let outcome := match flattenStored nested with
      | .ok joined => .ok (.list joined)
      | .error fault => .error (.interrupted fault)
    (.silent outcome, generator)
  | distinct list key =>
    let finding := (distinctStoredM (Inquiry.ask key) list).finding
    (.ofFinding .key (fun kept => .ok (.list kept)) finding, generator)
  | merge left right cmp =>
    let finding := (mergeStoredM (fun x y => Inquiry.ask cmp (x, y)) left right).finding
    (.ofFinding (fun (x, y) => .compare x y) (fun merged => .ok (.list merged)) finding, generator)
  | maximum list cmp =>
    let finding := (maximumM (fun x y => Inquiry.ask cmp (x, y)) list.items).finding
    let result : Option α → Except Failure (Result α)
      | some x => .ok (.value x)
      | none => .error .empty
    (.ofFinding (fun (x, y) => .compare x y) result finding, generator)
  | search list target cmp =>
    let finding := (searchM (fun x t => Inquiry.ask cmp (x, t)) list.items target).finding
    (.ofFinding (fun (x, t) => .search x t) (fun found => .ok (.position found)) finding,
      generator)
  | shuffle list =>
    match (shuffleStored list).run.run generator with
    | (.ok shuffled, later) => (.silent (.ok (.list shuffled)), later)
    | (.error fault, later) => (.silent (.error (.interrupted fault)), later)

section Perform

variable (generator : Generator) (list : Stored α)

theorem perform_distinct (key : Probe α Value) :
    (distinct list key : Operation α τ _ _).perform generator =
      (.ofFinding .key (fun xs => .ok (.list (.ofList xs)))
        (distinctM (Inquiry.ask key) [] list.items).finding, generator) := by
  rw [perform, distinctStoredM_eq, Report.ofFinding_finding_map]
  rfl

theorem perform_merge (left right : Stored α) (cmp : Probe (α × α) Ordering) :
    (merge left right cmp : Operation α τ _ _).perform generator =
      (.ofFinding (fun (x, y) => .compare x y) (fun xs => .ok (.list (.ofList xs)))
        (mergeM (fun x y => Inquiry.ask cmp (x, y)) left.items right.items).finding,
        generator) := by
  rw [perform, mergeStoredM_eq, Report.ofFinding_finding_map]
  rfl

end Perform

/-- Operations in turn with one generator, each with the number of random
words used up to then. -/
def performAll (generator : Generator) :
    List (Operation α τ (Stored α) (Stored (Stored α))) → List (Report α τ × Option Nat)
  | [] => []
  | operation :: operations =>
    let (report, later) := operation.perform generator
    (report, later.used?) :: performAll later operations

end Operation

end Sequences
