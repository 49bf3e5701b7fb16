import RegionNet.Execution.Exploration
import RegionNet.Execution.Strategy

/-!
# Simulations

A simulation runs a workflow from its initial marking, step by step, until it is over, until a step
changes nothing, or until a number of steps is reached. The choices of each step may be scripted.
-/

namespace RegionNet

inductive StopReason where
  | completed
  | deadlock
  | stepLimit
  deriving DecidableEq, Repr

namespace StopReason

/-- The name of a reason in running text. -/
def title : StopReason → String
  | completed => "Completed"
  | deadlock => "Deadlock"
  | stepLimit => "StepLimit"

/-- The name of a reason in data. -/
def keyword : StopReason → String
  | completed => "completed"
  | deadlock => "deadlock"
  | stepLimit => "step_limit"

end StopReason

structure Simulation (α : Type) where
  exploration : Exploration α
  steps : Nat
  stop : StopReason

/-- A failing step, counted from zero. -/
structure SimulationError where
  step : Nat
  cause : ExecutionError
  deriving DecidableEq, Repr

def SimulationError.message (e : SimulationError) : String :=
  "simulation step " ++ toString e.step ++ ": " ++ e.cause.message

/-- Anything that takes a marking and the choices for it to a step. -/
abbrev Executor (σ α : Type) :=
  Marking α → List TransitionId → σ → Except ExecutionError (Step α) × σ

variable {σ α : Type} [Quantity α]

namespace Simulation

/-- Continues a simulation for at most `left` steps, after `steps` of them. -/
def resume (w : Workflow α) (execute : Executor σ α) (scripted : List (List TransitionId)) :
    Nat → Nat → Exploration α → σ → Except SimulationError (Simulation α)
  | left, steps, t, s =>
    let m := t.current.snapshot.marking
    if w.isFinal m then .ok ⟨t, steps, .completed⟩
    else
      match left with
      | 0 => .ok ⟨t, steps, .stepLimit⟩
      | left + 1 =>
        let (outcome, s) := execute m (scripted.getD steps []) s
        match outcome with
        | .error e => .error ⟨steps, e⟩
        | .ok step =>
          if step.marking == m then .ok ⟨t, steps + 1, .deadlock⟩
          else resume w execute scripted left (steps + 1) (t.record w step true).2 s

/-- Runs a workflow for at most `maxSteps` steps. -/
def run (w : Workflow α) (execute : Executor σ α) (maxSteps : Nat)
    (scripted : List (List TransitionId)) (s : σ) : Except SimulationError (Simulation α) :=
  resume w execute scripted maxSteps 0 (.start w) s

def completed (sim : Simulation α) : Bool := sim.stop = .completed

end Simulation

/-- Runs a workflow with a strategy and a resolver. -/
def Workflow.simulate (w : Workflow α) (strategy : Strategy α) (resolver : Resolver σ α)
    (maxSteps : Nat) (scripted : List (List TransitionId)) (s : σ) :
    Except SimulationError (Simulation α) :=
  Simulation.run w (strategy.consume resolver w) maxSteps scripted s

end RegionNet
