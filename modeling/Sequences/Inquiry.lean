import Sequences.Fault

/-!
Functions supplied by a caller, and computations that consult them. A probe
may answer differently at every call and may give up at any of them, so the
questions put to it, their order and their number are all observable. An
inquiry is a computation that keeps exactly this record.
-/

namespace Sequences

/-- A function that is told the number of the call, from one, and may give
up. The number is all that it can remember of earlier calls. -/
abbrev Probe (χ γ : Type) := Nat → χ → Except Fault γ

namespace Probe

variable {χ γ : Type}

/-- A probe that never gives up and always answers alike. -/
def ofFun (f : χ → γ) : Probe χ γ := fun _ question => .ok (f question)

/-- Answers as the probe does, but gives up at the call `failAt` with the
cause that belongs to it. Without a number it never gives up by itself. -/
def interruptedAt (failAt : Option Nat) (cause : Nat → Fault) (probe : Probe χ γ) :
    Probe χ γ := fun call question =>
  if failAt = some call then .error (cause call) else probe call question

end Probe

/-- Computations that put questions of type `χ` to a probe. The state is the
record of all questions so far, and it survives a fault. -/
abbrev Inquiry (χ : Type) := ExceptT Fault (StateM (Array χ))

/-- The result of an inquiry together with the questions it asked, the last
of which may be the one that stopped it. -/
structure Finding (χ γ : Type) where
  outcome : Except Fault γ
  calls : List χ

namespace Inquiry

variable {χ γ : Type}

/-- The question is on record also if the probe gives up. -/
def ask (probe : Probe χ γ) (question : χ) : Inquiry χ γ :=
  ExceptT.mk fun asked => (probe (asked.size + 1) question, asked.push question)

def finding (inquiry : Inquiry χ γ) : Finding χ γ :=
  let (outcome, asked) := inquiry.run.run #[]
  ⟨outcome, asked.toList⟩

/-- What is made of an answer afterwards puts no questions. -/
theorem finding_map {δ : Type} (f : γ → δ) (inquiry : Inquiry χ γ) :
    (f <$> inquiry).finding = ⟨inquiry.finding.outcome.map f, inquiry.finding.calls⟩ := by
  simp only [finding, ExceptT.run_map, StateT.run_map]
  rfl

end Inquiry

end Sequences
