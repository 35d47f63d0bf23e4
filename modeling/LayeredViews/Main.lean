import LayeredViews.CommandLine.Run
import LayeredViews.FileSystem.Write
import Std.Time.Format

/-!
# Main — the command line on the real file system

The files that an invocation can reach are read into a file tree first, and its report is printed at
the end.
-/

namespace LayeredViews.CommandLine

/-- The entries at and below a path.  A link that leads nowhere, or back to a directory in
`around`, which is told by its real path, stays a link. -/
partial def entriesAt (path : String) (around : List (String × String)) :
    IO (List (String × NewEntry)) := do
  let file := System.mkFilePath [path]
  if !(← file.pathExists) then
    match ← file.symlinkMetadata.toBaseIO with
    | .ok _ => return [(path, .link "/\x01")]
    | .error _ => return []
  else if ← file.isDir then
    let real := (← IO.FS.realPath file).toString
    if let some ancestor := around.lookup real then return [(path, .link ("/" ++ ancestor))]
    let mut entries := [(path, NewEntry.dir)]
    for entry in ← file.readDir do
      entries := entries ++ (← entriesAt (Directory.join path entry.fileName) ((real, path) :: around))
    return entries
  else
    match ← (IO.FS.readBinFile file).toBaseIO with
    | .ok bytes => return [(path, .file (.bytes bytes.toList))]
    | .error e => return [(path, .file (.broken (.told e.toString)))]

/-- The files that some arguments can reach. -/
def filesFor (arguments : List String) : IO FileSystem := do
  match readInvocation arguments with
  | none => return .empty
  | some i =>
    let settings ← match i.settingsFile with
      | some path => entriesAt path []
      | none => pure []
    let views ← entriesAt i.viewsDirectory []
    return FileSystem.empty.putAll (settings ++ views)

/-- The variables that settings look at, with their values. -/
def environment : IO (List (String × String)) := do
  let mut values := []
  for name in Settings.variableNames do
    if let some value ← IO.getEnv name then values := (name, value) :: values
  return values

/-- The time as reports show it. -/
def currentTime : IO String := do
  let now ← Std.Time.Timestamp.now
  return (Std.Time.DateTime.ofTimestamp now .UTC).format "uuuu-MM-dd'T'HH:mm:ss.SSSSSSSSS'Z'"

end LayeredViews.CommandLine

open LayeredViews.CommandLine in
def main (arguments : List String) : IO UInt32 := do
  let files ← filesFor arguments
  let values ← environment
  let report := run files (fun name => values.lookup name) (← currentTime) arguments
  IO.print report.output
  if let some complaint := report.complaint then
    IO.eprintln (complaint.line .standard)
  return UInt32.ofNat report.exitCode
