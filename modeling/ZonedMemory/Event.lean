import ZonedMemory.Buddy.Event
import ZonedMemory.MemoryMap.Event
import ZonedMemory.PageAllocator.Event
import ZonedMemory.Slab.Event
import ZonedMemory.ZoneTable.Event

namespace ZonedMemory

/-!
Events of all parts. An event carries plain data; its line is written only for a reader who wants
its level, so whatever writing it might cost, faults included, falls on that reader alone.
-/

inductive Event where
  | buddy (event : BuddyEvent)
  | map (event : MapEvent)
  | zone (event : ZoneEvent)
  | page (event : PageEvent)
  | slab (event : SlabEvent)

namespace Event

def level : Event → Level
  | buddy event => event.level
  | map event => event.level
  | zone event => event.level
  | page event => event.level
  | slab event => event.level

def text : Event → Except Fault String
  | buddy event => event.text
  | map event => event.text
  | zone event => event.text
  | page event => event.text
  | slab event => event.text

/-- The line of an event: its level's word and its text. -/
def line (event : Event) : Except Fault String := do
  return event.level.word ++ " " ++ (← event.text)

/-- Writes the lines of the events that pass the threshold, in order. A line that faults ends the
writing and leaves the lines before it. -/
def transcribe (threshold : Option Level) : List Event → List String × Except Fault Unit
  | [] => ([], .ok ())
  | event :: rest =>
      if event.level.passes threshold then
        match event.line with
        | .error fault => ([], .error fault)
        | .ok line =>
            let (lines, result) := transcribe threshold rest
            (line :: lines, result)
      else
        transcribe threshold rest

end Event

end ZonedMemory
