import Whisker.Animation
import Whisker.Chart
import Whisker.Chart.Codec
import Whisker.Color
import Whisker.Command
import Whisker.Datum
import Whisker.Datum.Codec
import Whisker.Decimal
import Whisker.Directory
import Whisker.Element
import Whisker.Engine
import Whisker.Error
import Whisker.ErrorBar
import Whisker.Frame
import Whisker.Geometry
import Whisker.Json.Decode
import Whisker.Json.Printer
import Whisker.Json.Reader
import Whisker.Layout
import Whisker.Layout.Kinds
import Whisker.Main
import Whisker.NumberText
import Whisker.Proofs.Animation
import Whisker.Proofs.Chart.Codec
import Whisker.Proofs.Chart.RoundTrip
import Whisker.Proofs.Color.Css
import Whisker.Proofs.Color.Mix
import Whisker.Proofs.Color.Steps
import Whisker.Proofs.Color.Valid
import Whisker.Proofs.Command.Arguments
import Whisker.Proofs.Decimal.Layout
import Whisker.Proofs.Decimal.Leading
import Whisker.Proofs.Decimal.Literal
import Whisker.Proofs.Decimal.Reading
import Whisker.Proofs.Decimal.Shortest
import Whisker.Proofs.Decimal.Spelling
import Whisker.Proofs.Element.Drawing
import Whisker.Proofs.Element.Transpose
import Whisker.Proofs.Engine.Animation
import Whisker.Proofs.Engine.Frames
import Whisker.Proofs.Engine.Hover
import Whisker.Proofs.Engine.Nearest
import Whisker.Proofs.Engine.NotFinite
import Whisker.Proofs.Engine.Points
import Whisker.Proofs.Engine.Runs
import Whisker.Proofs.Engine.Styles
import Whisker.Proofs.Extent.Covering
import Whisker.Proofs.Extent.Hull
import Whisker.Proofs.Extent.Split
import Whisker.Proofs.Frame
import Whisker.Proofs.Frame.Pushes
import Whisker.Proofs.Json.Fields
import Whisker.Proofs.Json.Reader
import Whisker.Proofs.Layout.Area
import Whisker.Proofs.Layout.Bars
import Whisker.Proofs.Layout.Coordinates
import Whisker.Proofs.Layout.Elements
import Whisker.Proofs.Layout.Hidden
import Whisker.Proofs.Layout.Inside
import Whisker.Proofs.Layout.LeftInset
import Whisker.Proofs.Layout.Recolor
import Whisker.Proofs.Layout.Scales
import Whisker.Proofs.Layout.Sectors
import Whisker.Proofs.Layout.Skeleton
import Whisker.Proofs.NumberText
import Whisker.Proofs.Record
import Whisker.Proofs.Record.Agreement
import Whisker.Proofs.Record.Edits
import Whisker.Proofs.Record.Positions
import Whisker.Proofs.Registry
import Whisker.Proofs.Scalar.Arithmetic
import Whisker.Proofs.Scalar.Closest
import Whisker.Proofs.Scalar.Integers
import Whisker.Proofs.Scalar.Lesser
import Whisker.Proofs.Scalar.Monotone
import Whisker.Proofs.Scalar.Nearest
import Whisker.Proofs.Scalar.NotFinite
import Whisker.Proofs.Scalar.Order
import Whisker.Proofs.Scalar.Packing
import Whisker.Proofs.Scalar.Place
import Whisker.Proofs.Scalar.Rational
import Whisker.Proofs.Scalar.Rounding
import Whisker.Proofs.Scalar.Zeros
import Whisker.Proofs.Scale.Bounds
import Whisker.Proofs.Scale.Domain
import Whisker.Proofs.Scale.Fit
import Whisker.Proofs.Scale.Labels
import Whisker.Proofs.Scale.Ordered
import Whisker.Proofs.Scene.Axes
import Whisker.Proofs.Scene.Blocks
import Whisker.Proofs.Scene.CategoryTicks
import Whisker.Proofs.Scene.Drawing
import Whisker.Proofs.Scene.Hover
import Whisker.Proofs.Scene.SeriesLine
import Whisker.Proofs.Series
import Whisker.Proofs.Style
import Whisker.Proofs.Svg.Document
import Whisker.Proofs.Svg.Legal
import Whisker.Proofs.Svg.Markup
import Whisker.Proofs.Svg.Values
import Whisker.Proofs.Text.Pieces
import Whisker.Proofs.Ticks
import Whisker.Proofs.Tooltip
import Whisker.Record
import Whisker.Registry
import Whisker.Renderer
import Whisker.Scalar
import Whisker.Scalar.Binary
import Whisker.Scalar.Exact
import Whisker.Scale.Category
import Whisker.Scale.Linear
import Whisker.Scale.Radial
import Whisker.Scene
import Whisker.Series
import Whisker.Style
import Whisker.Style.Codec
import Whisker.Text
import Whisker.Tooltip
