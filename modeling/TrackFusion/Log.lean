/-!
# Log records
-/

namespace TrackFusion

inductive Severity where
  | info
  | warning
  | error
  deriving DecidableEq, Repr

def Severity.name : Severity → String
  | info => "INFO"
  | warning => "WARN"
  | error => "ERROR"

/-- One line of a log. -/
structure LogRecord where
  severity : Severity
  text : String
  deriving DecidableEq, Repr

def LogRecord.line (r : LogRecord) : String := r.severity.name ++ " " ++ r.text

end TrackFusion
