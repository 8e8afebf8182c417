import TrackFusion.Json.Reader

/-!
# Errors

What can go wrong, and the message for it.
-/

namespace TrackFusion

/-- Why an operation of the tracker failed. -/
inductive Error where
  /-- A setting is out of range. -/
  | invalidConfig (reason : String)
  /-- A configuration could not be read. -/
  | unreadableConfig (fault : Json.Fault)
  | noInputStreams
  /-- A matrix could not be inverted, or the estimate it led to is not finite. -/
  | singularMatrix
  | assignmentFailed
  deriving DecidableEq, Repr

def Error.message : Error → String
  | invalidConfig reason => "invalid configuration: " ++ reason
  | unreadableConfig fault => "configuration parse error: " ++ fault.message
  | noInputStreams => "no input streams configured"
  | singularMatrix => "matrix is singular"
  | assignmentFailed => "assignment failed"

end TrackFusion
