import Solids.Boolean
import Solids.Boolean.Polygon
import Solids.Boolean.Tree
import Solids.Bounds
import Solids.Build
import Solids.Build.Construct
import Solids.Cache
import Solids.Cache.Table
import Solids.Cache.Timeline
import Solids.Cycle
import Solids.Fault
import Solids.Hull
import Solids.Hull.Choice
import Solids.Hull.Face
import Solids.Hull.Growth
import Solids.Key
import Solids.Kind.Basic
import Solids.Kind.Extent
import Solids.Material
import Solids.Matrix
import Solids.Mesh.Basic
import Solids.Mesh.Color
import Solids.Mesh.Error
import Solids.Node
import Solids.Path
import Solids.Planar.Fill
import Solids.Planar.Outline
import Solids.Planar.Triangulation
import Solids.Primitive.Box
import Solids.Primitive.Round
import Solids.Proofs.Build.Alone
import Solids.Proofs.Build.Answers
import Solids.Proofs.Build.Coherent
import Solids.Proofs.Build.Frame
import Solids.Proofs.Build.Log
import Solids.Proofs.Build.Polls
import Solids.Proofs.Build.Session
import Solids.Proofs.Cache.Accounts
import Solids.Proofs.Cache.Request
import Solids.Proofs.Cache.Shelf
import Solids.Proofs.Key.Alike
import Solids.Proofs.Key.Bytes
import Solids.Proofs.Key.Made
import Solids.Proofs.Key.Unambiguous
import Solids.Proofs.Node.Parts
import Solids.Record.Geometry
import Solids.Record.Json
import Solids.Record.Node
import Solids.Rotation
import Solids.Scalar
import Solids.Scene
import Solids.Sweep.Extrude
import Solids.Sweep.Lathe
import Solids.Sweep.Loft
import Solids.Sweep.Stitch
import Solids.Tolerance
import Solids.Transform
import Solids.Triangle
import Solids.Vector
import Solids.Proofs.Build.Cancellation
import Solids.Proofs.Build.Course
import Solids.Proofs.Build.Settled
import Solids.Proofs.Build.Complete
import Solids.Proofs.Build.Resume
import Solids.Proofs.Mesh.WellFormed
import Solids.Proofs.Mesh.Shapes
import Solids.Proofs.Mesh.Booleans
import Solids.Proofs.Build.Safe
import Solids.Proofs.Alike.Number
import Solids.Proofs.Alike.Walk
import Solids.Proofs.Alike.Vector
import Solids.Proofs.Alike.Path
import Solids.Proofs.Alike.Outline
import Solids.Proofs.Alike.Sweep
import Solids.Proofs.Alike.Kind
import Solids.Proofs.Build.Forgotten
import Solids.Proofs.Mesh.Concatenation
import Solids.Proofs.Node.Drawing
import Solids.Proofs.Build.Once
import Solids.Proofs.Mesh.Polygons
import Solids.Proofs.Build.Formed
import Solids.Proofs.Exact.Box
import Solids.Proofs.Exact.Estimate
import Solids.Proofs.Exact.Drawn
import Solids.Proofs.Exact.Decomposition
import Solids.Proofs.Exact.Marks
import Solids.Proofs.Record.Precision
import Solids.Proofs.Record.Values
import Solids.Proofs.Record.RoundTrip
import Solids.Proofs.Mesh.Cutting
import Solids.Proofs.Mesh.Division
import Solids.Proofs.Exact.Division
import Solids.Proofs.Rounded.Division
import Solids.Proofs.Mesh.Circulation
import Solids.Proofs.Planar.Clipping
import Solids.Proofs.Mesh.Watertight
import Solids.Proofs.Mesh.Idle
import Solids.Proofs.Build.Skipped
import Solids.Proofs.Exact.Spanned
import Solids.Proofs.Exact.Convex
import Solids.Proofs.Exact.Cut
import Solids.Proofs.Exact.Partition
import Solids.Proofs.Exact.Stencil
import Solids.Proofs.Mesh.Closed
import Solids.Proofs.Mesh.Round
import Solids.Proofs.Planar.Filling
import Solids.Proofs.Exact.Area
import Solids.Proofs.Mesh.Border
import Solids.Proofs.Hull.Growth
import Solids.Proofs.Exact.Facet
import Solids.Proofs.Exact.Hull
import Solids.Proofs.Exact.Seed
import Solids.Proofs.Exact.Enclosure
import Solids.Proofs.Rounded.Hull
import Solids.Proofs.Exact.Volume
import Solids.Proofs.Hull.Rounds
import Solids.Proofs.Cache.Demand
import Solids.Proofs.Build.Lasting
import Solids.Proofs.Build.Bare
import Solids.Proofs.Exact.Curve
import Solids.Proofs.Exact.ArcLength
import Solids.Proofs.Mesh.Conservation
import Solids.Proofs.Mesh.Colors
import Solids.Proofs.Mesh.Merging
import Solids.Proofs.Hull.Selection
