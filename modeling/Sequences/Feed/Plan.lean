import Sequences.Feed.Distinct
import Sequences.Feed.Grouping
import Sequences.Feed.Merging
import Sequences.Feed.Source
import Sequences.Feed.Visit

/-!
Plans: which inputs are read, and how their items are filtered and merged. A
plan describes a feed and says nothing about how far it has been read.
-/

namespace Sequences

variable {α κ β : Type}

inductive Plan (α κ : Type) where
  | source (name : String) (input : Source α)
  /-- The first items of every key. -/
  | distinct (key : Probe α κ) (noted : Bool) (inner : Plan α κ)
  /-- The items of two plans. Here as above, `noted` tells whether calls
  appear in the log. -/
  | merge (cmp : Probe (α × α) Ordering) (noted : Bool) (left right : Plan α κ)

namespace Plan

/-- The feed of a plan that stands at the given place of a larger one. -/
def feedAt [BEq κ] (place : List Side) : Plan α κ → Feed α α
  | source name input => .source ⟨name, place⟩ input
  | distinct key noted inner => .distinct (inner.feedAt place) key noted
  | merge cmp noted left right =>
    .merge (left.feedAt (place ++ [.left])) (right.feedAt (place ++ [.right])) cmp noted

def feed [BEq κ] (plan : Plan α κ) : Feed α α := plan.feedAt []

/-- The single-use inputs with their items. -/
def supplies : Plan α κ → Registry (List α)
  | source name input => if input.singleUse then [(name, input.items)] else []
  | distinct _ _ inner => inner.supplies
  | merge _ _ left right => left.supplies ++ right.supplies

/-- All single-use inputs before anything was taken. -/
def pool (plan : Plan α κ) : Pool α := ⟨plan.supplies⟩

end Plan

/-- What is left to see of a visit when it is over. -/
structure Reading (α β : Type) where
  got : List β
  notes : List (Note α β)
  fault : Option Fault

def Visit.reading {σ : Type} (visit : Visit σ α β) : Reading α β :=
  ⟨visit.got, visit.notes, visit.fault⟩

namespace Plan

/-- Successive readings of the plan's items. -/
def readings [BEq κ] (plan : Plan α κ) (limits : List Limit) : List (Reading α α) :=
  (plan.feed.visits limits plan.pool).map Visit.reading

/-- Successive readings of the plan's items in groups. -/
def groupReadings [BEq κ] (plan : Plan α κ) (size : Int) (limits : List Limit) :
    Except Failure (List (Reading α (List α))) :=
  match plan.feed.groups? size with
  | .error failure => .error failure
  | .ok feed => .ok ((feed.visits limits plan.pool).map Visit.reading)

end Plan

end Sequences
