import LayeredViews.Output.Sink

/-!
# Buffered output — nothing reaches the sink before it must

Text gathers in a buffer until there are more than `limit` bytes of it or the output is finished.
The first chunk offered to the sink commits the output; before that everything can be discarded.
A chunk that the sink refuses stays in the buffer.
-/

namespace LayeredViews

structure Output where
  sink : Sink
  /-- How many bytes the buffer may hold. -/
  limit : Nat
  buffer : String
  /-- Whether a chunk has been offered to the sink. -/
  committed : Bool
  /-- Bytes written and not discarded. -/
  written : Nat

namespace Output

/-- A computation on an output that a sink may stop; the output stays as the sink left it. -/
abbrev Write := EStateM SinkFault Output

def on (sink : Sink) (limit : Nat) : Output := ⟨sink, limit, "", false, 0⟩

/-- Hands the buffer to the sink. -/
def commit : Write Unit := fun out =>
  if out.buffer.isEmpty then .ok () out
  else
    match out.sink.write out.buffer with
    | (.ok _, sink) => .ok () { out with sink, committed := true, buffer := "" }
    | (.error e, sink) => .error e { out with sink, committed := true }

/-- Writes a text; the empty text does nothing. -/
def write (text : String) : Write Unit := fun out =>
  if text.isEmpty then .ok () out
  else
    let out' := { out with
      buffer := out.buffer ++ text
      written := out.written + text.utf8ByteSize }
    if out'.limit < out'.buffer.utf8ByteSize then commit out' else .ok () out'

/-- Drops what has been written, unless it is committed; says whether it was dropped. -/
def discard (out : Output) : Bool × Output :=
  if out.committed then (false, out) else (true, { out with buffer := "", written := 0 })

/-- Commits the rest and flushes the sink; gives the number of bytes written. -/
def finish : Write Nat := do
  commit
  fun out =>
    match out.sink.flush with
    | (.ok _, sink) => .ok out.written { out with sink }
    | (.error e, sink) => .error e { out with sink }

end Output

end LayeredViews
