import TrackFusion.Demo

/-!
# Command line

Replays the demonstration with the settings of a file, or with the usual ones.
-/

namespace TrackFusion.Main

/-- What a message says about a file that cannot be read. -/
def fileFault : IO.Error → String
  | .noFileOrDirectory .. => "No such file or directory (os error 2)"
  | .permissionDenied _ code _ => "Permission denied (os error " ++ toString code ++ ")"
  | .inappropriateType _ code _ => "Is a directory (os error " ++ toString code ++ ")"
  | _ => "stream did not contain valid UTF-8"

/-- The settings that the arguments ask for. -/
def settings : List String → IO (Except Error (Settings Float))
  | [] => return .ok .usual
  | path :: _ => do
    try
      return Settings.ofText (← IO.FS.readFile path)
    catch e =>
      return .error (.invalidConfig (path ++ ": " ++ fileFault e))

end TrackFusion.Main

def main (args : List String) : IO UInt32 := do
  let r := (← TrackFusion.Main.settings args).bind TrackFusion.Demo.replay
  for record in TrackFusion.Demo.records TrackFusion.TrackId.short r do
    IO.eprintln record.line
  return TrackFusion.Demo.exitCode r
