import ZonedMemory.Event

namespace ZonedMemory

/-!
Computations that report events on the way and end with a value or a fault. The events play no part
in the value: `Traced.outcome` turns a sequence of computations into the same sequence of plain
ones, which is how values are reasoned about.
-/

/-- The events reported, in order, and how the computation ended. -/
structure Traced (α : Type) where
  events : List Event
  outcome : Except Fault α

namespace Traced

instance : Monad Traced where
  pure a := ⟨[], .ok a⟩
  bind m f :=
    match m.outcome with
    | .error fault => ⟨m.events, .error fault⟩
    | .ok a =>
        let next := f a
        ⟨m.events ++ next.events, next.outcome⟩

/-- A computation that reports nothing. -/
instance : MonadLift (Except Fault) Traced where
  monadLift m := ⟨[], m⟩

/-- Reports one event. -/
def report (event : Event) : Traced Unit := ⟨[event], .ok ()⟩

/-- What a reader with the given threshold sees: the lines, and the value. A line that cannot be
written ends the computation with its own fault at that point. -/
def read {α : Type} (threshold : Option Level) (m : Traced α) : List String × Except Fault α :=
  match Event.transcribe threshold m.events with
  | (lines, .error fault) => (lines, .error fault)
  | (lines, .ok ()) => (lines, m.outcome)

end Traced

end ZonedMemory
