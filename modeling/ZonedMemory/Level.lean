namespace ZonedMemory

/-!
How urgent a reported event is, most urgent first. A threshold lets through its own level and all
more urgent ones; without a threshold nothing passes.
-/

inductive Level where
  | error
  | warn
  | info
  | debug
  | trace
  deriving DecidableEq

namespace Level

def rank : Level → Nat
  | error => 0
  | warn => 1
  | info => 2
  | debug => 3
  | trace => 4

/-- Whether an event of this level passes the threshold. -/
def passes (level : Level) : (threshold : Option Level) → Bool
  | none => false
  | some limit => decide (level.rank ≤ limit.rank)

/-- The word in front of a reported line. -/
def word : Level → String
  | error => "ERROR"
  | warn => "WARN"
  | info => "INFO"
  | debug => "DEBUG"
  | trace => "TRACE"

end Level

end ZonedMemory
