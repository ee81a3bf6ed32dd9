import Sequences.Workspace.Operation

/-!
A workspace keeps lists, and lists of lists, by name. Its steps apply
operations to named lists and store the results, or overwrite single
elements. All steps that shuffle share one generator.
-/

namespace Sequences

variable {α τ : Type}

structure Workspace (α : Type) where
  lists : Registry (Stored α)
  nested : Registry (Stored (Stored α))
  generator : Generator

inductive Step (α τ : Type) where
  /-- Applies an operation to named lists. A result that is a list is stored
  under the second name. -/
  | operate (operation : Operation α τ String String) (out : String)
  | setElement (list : String) (index : Int) (value : α)
  | setNested (nested : String) (index inner : Int) (value : α)

namespace Workspace

/-- A name without a list reads as an absent list. -/
def list (workspace : Workspace α) (name : String) : Stored α :=
  (workspace.lists.lookup name).getD none

def nestedList (workspace : Workspace α) (name : String) : Stored (Stored α) :=
  (workspace.nested.lookup name).getD none

/-- Overwrites one element, if there is one at the index. -/
def setAt {β : Type} (xs : List β) (index : Int) (value : β) : Except Failure (List β) :=
  if 0 ≤ index ∧ index < xs.length then .ok (xs.set index.toNat value)
  else .error .outOfRange

/-- Overwrites one element of one of the lists. -/
def setAtInner (xss : List (Stored α)) (index inner : Int) (value : α) :
    Except Failure (List (Stored α)) := do
  let row := if 0 ≤ index then xss[index.toNat]? else none
  match row with
  | none => .error .outOfRange
  | some row => setAt xss index (some (← setAt row.items inner value))

/-- Stores a result that is a list; other results are only reported. -/
def store (workspace : Workspace α) (out : String) : Result α → Workspace α
  | .list items => { workspace with lists := workspace.lists.set out items }
  | .nested lists => { workspace with nested := workspace.nested.set out lists }
  | .value _ => workspace
  | .position _ => workspace

/-- A step that fails stores nothing, but random words that it took stay
taken. -/
def advance (workspace : Workspace α) : Step α τ → Report α τ × Workspace α
  | .operate operation out =>
    let (report, generator) :=
      (operation.mapOperands workspace.list workspace.nestedList).perform workspace.generator
    let workspace := { workspace with generator }
    match report.outcome with
    | .error _ => (report, workspace)
    | .ok result => (report, workspace.store out result)
  | .setElement name index value =>
    match setAt (workspace.list name).items index value with
    | .error failure => (.silent (.error failure), workspace)
    | .ok xs => (.silent (.ok (.list (some xs))), workspace.store name (.list (some xs)))
  | .setNested name index inner value =>
    match setAtInner (workspace.nestedList name).items index inner value with
    | .error failure => (.silent (.error failure), workspace)
    | .ok xss => (.silent (.ok (.nested (some xss))), workspace.store name (.nested (some xss)))

/-- The report of every step, with the number of random words used up to
then, and the workspace after all steps. -/
def run (workspace : Workspace α) :
    List (Step α τ) → List (Report α τ × Option Nat) × Workspace α
  | [] => ([], workspace)
  | step :: steps =>
    let (report, next) := workspace.advance step
    let (reports, last) := next.run steps
    ((report, next.generator.used?) :: reports, last)

end Workspace

end Sequences
