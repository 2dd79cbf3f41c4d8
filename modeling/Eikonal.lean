import Eikonal.Benchmark
import Eikonal.Binary64.Basic
import Eikonal.Binary64.Decimal
import Eikonal.Binary64.Text
import Eikonal.Chart
import Eikonal.Chart.Basic
import Eikonal.Chart.Contour
import Eikonal.Checkpoint.Archive
import Eikonal.Checkpoint.Container
import Eikonal.Checkpoint.Meta
import Eikonal.Compare
import Eikonal.FastMarching.Basic
import Eikonal.FastMarching.PointSource
import Eikonal.FastMarching.Update
import Eikonal.Front
import Eikonal.Grid.Basic
import Eikonal.Grid.Cartesian
import Eikonal.Grid.Lattice
import Eikonal.Grid.Neighbours
import Eikonal.Grid.Span
import Eikonal.Grid.Sparse
import Eikonal.Grid.Triangles
import Eikonal.Heap
import Eikonal.Json.Basic
import Eikonal.Json.Digit
import Eikonal.Json.Display
import Eikonal.Json.Number
import Eikonal.Json.Numeral
import Eikonal.Json.Printable
import Eikonal.Json.Printer
import Eikonal.Json.Reader
import Eikonal.Json.Text
import Eikonal.Main
import Eikonal.Metric.Build
import Eikonal.Metric.Field
import Eikonal.Metric.Ratio
import Eikonal.NdArray
import Eikonal.Plane
import Eikonal.Proofs.Heap.Slots
import Eikonal.Proofs.Scalar.Order
import Eikonal.Report
import Eikonal.Scalar.Basic
import Eikonal.Scalar.Float
import Eikonal.Scalar.Sum
import Eikonal.Solver.Basic
import Eikonal.Solver.Loop
import Eikonal.Solver.Mesh
import Eikonal.Solver.Query
import Eikonal.Solver.Run
import Eikonal.Solver.Start
import Eikonal.Solver.Tentative
import Eikonal.Solver.Verbose
import Eikonal.Stencil
import Eikonal.Proofs.Heap.Order
import Eikonal.Proofs.Heap.Calls
import Eikonal.Proofs.Grid.Neighbours
import Eikonal.Proofs.Solver.Mesh
import Eikonal.Proofs.Solver.Tentative
import Eikonal.Proofs.Front
import Eikonal.Proofs.Solver.Loop
import Eikonal.Proofs.Solver.History
import Eikonal.Proofs.Solver.AcceptedFront
import Eikonal.Proofs.Solver.Coherent
import Eikonal.Proofs.Solver.Sound
import Eikonal.Proofs.Solver.Sweep
import Eikonal.Proofs.Solver.Causal
import Eikonal.Proofs.Solver.Complete
import Eikonal.Proofs.Scalar.Rounding
import Eikonal.Proofs.Scalar.Binary64
import Eikonal.Proofs.Solver.Agreement
import Eikonal.Proofs.Solver.Certificate
import Eikonal.Proofs.Scalar.Exact
import Eikonal.Proofs.Solver.Barrier
import Eikonal.Proofs.Solver.Distance
import Eikonal.Proofs.Heap.Handles
import Eikonal.Proofs.Solver.Reuse
import Eikonal.Proofs.FastMarching.Update
import Eikonal.Proofs.FastMarching.Nodes
import Eikonal.Proofs.FastMarching.Stage
import Eikonal.Proofs.FastMarching.Record
import Eikonal.Proofs.FastMarching.Live
import Eikonal.Proofs.FastMarching.Keyed
import Eikonal.Proofs.FastMarching.Scheme
import Eikonal.Proofs.FastMarching.Causal
import Eikonal.Proofs.FastMarching.Solution
import Eikonal.Proofs.FastMarching.LazyDeletion
import Eikonal.Proofs.Solver.Straight
import Eikonal.Proofs.Solver.Shortest
import Eikonal.Proofs.Grid.Cartesian
import Eikonal.Proofs.Solver.GridLines
import Eikonal.Proofs.Scalar.Scaling
import Eikonal.Proofs.Solver.Similar
import Eikonal.Proofs.Solver.Frame
import Eikonal.Proofs.Solver.LifeCycle
import Eikonal.Proofs.Solver.Bound
import Eikonal.Proofs.Metric.Field
import Eikonal.Proofs.Solver.Component
import Eikonal.Proofs.Binary64.Decimal
import Eikonal.Proofs.Json.Number
import Eikonal.Proofs.Json.RoundTrip
import Eikonal.Proofs.Checkpoint.RoundTrip
import Eikonal.Proofs.FastMarching.Bounds
import Eikonal.Proofs.Stencil.Least
import Eikonal.Proofs.Metric.Definite
import Eikonal.Proofs.Grid.Sector
import Eikonal.Proofs.Solver.Wedges
import Eikonal.Proofs.Stencil.PlaneWave
import Eikonal.Proofs.Metric.Directions
import Eikonal.Proofs.Grid.Scatter
