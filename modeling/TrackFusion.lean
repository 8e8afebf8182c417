import TrackFusion.Json.Reader
import TrackFusion.Linear.Inverse
import TrackFusion.Time
import TrackFusion.Label
import TrackFusion.TrackId
import TrackFusion.Geometry.Point
import TrackFusion.Geometry.Angle
import TrackFusion.Geometry.Polygon
import TrackFusion.Geometry.Hull
import TrackFusion.Geometry.Clip
import TrackFusion.Object.Kinematics
import TrackFusion.Object.Shape
import TrackFusion.Object.Overlap
import TrackFusion.Object.Anchor
import TrackFusion.Object.Detection
import TrackFusion.Frame.Isometry
import TrackFusion.Frame.Lookup
import TrackFusion.Motion.Dynamics
import TrackFusion.Motion.ConstantVelocity
import TrackFusion.Motion.TurnRate
import TrackFusion.Track.PointTrack
import TrackFusion.Track.PassThrough
import TrackFusion.Track.Basic
import TrackFusion.Association.Optimal
import TrackFusion.Association.Greedy
import TrackFusion.Association.Basic
import TrackFusion.Roster.Basic
import TrackFusion.Input.Intake
import TrackFusion.Node
import TrackFusion.Main
import TrackFusion.Proofs.Exact
import TrackFusion.Proofs.Angles
import TrackFusion.Proofs.Ordered
import TrackFusion.Proofs.Rounded
import TrackFusion.Proofs.Doubles
import TrackFusion.Proofs.Magnitudes
import TrackFusion.Proofs.Differences
import TrackFusion.Proofs.Association.Pairs
import TrackFusion.Proofs.Association.Search
import TrackFusion.Proofs.Association.Optimal
import TrackFusion.Proofs.Association.TotalScore
import TrackFusion.Proofs.Association.Greedy
import TrackFusion.Proofs.Association.TieRule
import TrackFusion.Proofs.Association.Answers
import TrackFusion.Proofs.Roster.Suppression
import TrackFusion.Proofs.Roster.Ranking
import TrackFusion.Proofs.Roster.Ledger
import TrackFusion.Proofs.Roster.Times
import TrackFusion.Proofs.Roster.Histories
import TrackFusion.Proofs.Input.Calls
import TrackFusion.Proofs.Input.Window
import TrackFusion.Proofs.Input.Slips
import TrackFusion.Proofs.Input.Releases
import TrackFusion.Proofs.Input.Polling
import TrackFusion.Proofs.Input.Accounting
import TrackFusion.Proofs.Node.Calls
import TrackFusion.Proofs.Node.Batches
import TrackFusion.Proofs.Node.Runs
import TrackFusion.Proofs.Node.Publications
import TrackFusion.Proofs.Node.Clock
import TrackFusion.Proofs.Node.Cadence
import TrackFusion.Proofs.Displacement.Basic
import TrackFusion.Proofs.Displacement.Geometry
import TrackFusion.Proofs.Displacement.Motion
import TrackFusion.Proofs.Displacement.Tracks
import TrackFusion.Proofs.Displacement.Rosters
import TrackFusion.Proofs.Displacement.Intakes
import TrackFusion.Proofs.Displacement.Runs
import TrackFusion.Proofs.Track.Reachable
import TrackFusion.Proofs.Covariance.Matrices
import TrackFusion.Proofs.Covariance.Blocks
import TrackFusion.Proofs.Covariance.Motion
import TrackFusion.Proofs.Covariance.Tracks
import TrackFusion.Proofs.Covariance.Models
import TrackFusion.Proofs.Roster.Coverage
import TrackFusion.Proofs.Track.Measurement
import TrackFusion.Proofs.Track.Anchoring
import TrackFusion.Proofs.Track.Rejection
import TrackFusion.Proofs.Track.Horizon
import TrackFusion.Proofs.Track.LookAhead
import TrackFusion.Proofs.Enclosure
import TrackFusion.Proofs.Extended
import TrackFusion.Proofs.Association.LeastCost
import TrackFusion.Proofs.Association.Undefined
import TrackFusion.Proofs.Json.Layout
import TrackFusion.Proofs.Json.Literals
import TrackFusion.Proofs.Json.Scalars
import TrackFusion.Proofs.Json.Records
import TrackFusion.Proofs.Settings.Overlay
import TrackFusion.Proofs.Track.Spawning
import TrackFusion.Proofs.Track.Reversal
import TrackFusion.Proofs.Geometry.Turns
import TrackFusion.Proofs.Geometry.Sides
import TrackFusion.Proofs.Geometry.Regions
import TrackFusion.Proofs.Geometry.Cuts
import TrackFusion.Proofs.Geometry.Crossings
import TrackFusion.Proofs.Geometry.Areas
import TrackFusion.Proofs.Geometry.Intersections
import TrackFusion.Proofs.Geometry.Hulls
import TrackFusion.Proofs.Geometry.Overlaps
import TrackFusion.Proofs.Association.Worth
import TrackFusion.Proofs.Shares
import TrackFusion.Proofs.Association.Table
import TrackFusion.Proofs.Association.Scores
import TrackFusion.Proofs.Geometry.Enclosing
import TrackFusion.Proofs.Geometry.Vertices
import TrackFusion.Proofs.Linear.Elimination
import TrackFusion.Proofs.Linear.Inverse
import TrackFusion.Proofs.Covariance.Corrections
import TrackFusion.Proofs.Covariance.Information
import TrackFusion.Proofs.Track.Simultaneous
import TrackFusion.Proofs.Track.SubSteps
import TrackFusion.Proofs.Track.Events
import TrackFusion.Proofs.Track.Smoothing
import TrackFusion.Proofs.Frame.Rotations
import TrackFusion.Proofs.Frame.RoundTrips
import TrackFusion.Proofs.Track.Limits
import TrackFusion.Proofs.Track.WholeTurns
import TrackFusion.Proofs.Headings
import TrackFusion.Proofs.Track.StraightWays
import TrackFusion.Proofs.Covariance.Finiteness
import TrackFusion.Proofs.Geometry.Rectangles
import TrackFusion.Proofs.Nearest
import TrackFusion.Proofs.Input.Delays
import TrackFusion.Proofs.Neighbours
import TrackFusion.Proofs.Geometry.Maps
import TrackFusion.Proofs.Zeros
import TrackFusion.Proofs.Geometry.SignedZeros
import TrackFusion.Proofs.Dyadics
import TrackFusion.Proofs.Geometry.Grids
import TrackFusion.Proofs.Geometry.Verticals
import TrackFusion.Proofs.Geometry.Circuits
import TrackFusion.Proofs.Geometry.OffAxis
import TrackFusion.Proofs.Geometry.EqualPoints
