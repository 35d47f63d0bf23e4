import LayeredViews.History

/-!
# Sinks — where committed output goes

A sink takes a whole chunk or refuses it.  `failsOn` names the write calls it refuses, counted from
one, refused ones included, and `raisesOn` the calls during which the cancel flag is raised.
-/

namespace LayeredViews

/-- Why a sink refused a call. -/
inductive SinkFault where
  | closed
  | flushRefused
deriving DecidableEq, Repr

def SinkFault.message : SinkFault → String
  | .closed => "sink closed"
  | .flushRefused => "flush refused"

/-- A call that a sink has seen. -/
inductive SinkCall where
  | accepted (chunk : String)
  | refused
  | flushed
  | flushRefused
deriving DecidableEq, Repr

structure Sink where
  failsOn : Nat → Bool
  flushFails : Bool
  raisesOn : Nat → Bool
  /-- The calls so far. -/
  calls : History SinkCall
  /-- How many of them were write calls. -/
  writeCalls : Nat
  /-- Whether a write call has raised the cancel flag. -/
  raised : Bool

namespace Sink

/-- A sink that has not been called. -/
def new (failsOn : Nat → Bool) (flushFails : Bool) (raisesOn : Nat → Bool) : Sink :=
  ⟨failsOn, flushFails, raisesOn, .empty, 0, false⟩

/-- A sink that takes everything. -/
def accepting : Sink := new (fun _ => false) false fun _ => false

/-- The chunks taken, in order. -/
def chunks (s : Sink) : List String :=
  s.calls.toList.filterMap fun
    | .accepted chunk => some chunk
    | _ => none

/-- All text taken. -/
def received (s : Sink) : String :=
  String.join s.chunks

/-- Offers a chunk; only a call that takes it may raise the cancel flag. -/
def write (s : Sink) (chunk : String) : Except SinkFault Unit × Sink :=
  let n := s.writeCalls + 1
  if s.failsOn n then (.error .closed, { s with calls := s.calls.push .refused, writeCalls := n })
  else
    (.ok (), { s with
      calls := s.calls.push (.accepted chunk)
      writeCalls := n
      raised := s.raised || s.raisesOn n })

def flush (s : Sink) : Except SinkFault Unit × Sink :=
  if s.flushFails then (.error .flushRefused, { s with calls := s.calls.push .flushRefused })
  else (.ok (), { s with calls := s.calls.push .flushed })

end Sink

end LayeredViews
