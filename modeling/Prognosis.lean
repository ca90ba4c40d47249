import Prognosis.Main
import Prognosis.Service.Answer
import Prognosis.Proofs.Procedure.Agreement
import Prognosis.Proofs.Service.Admission
import Prognosis.Proofs.Service.Verdict
import Prognosis.Proofs.Service.Isolation
import Prognosis.Proofs.Binary64.Rounding
import Prognosis.Proofs.Binary64.Unpacked
import Prognosis.Proofs.Binary64.Encoding
import Prognosis.Proofs.Binary64.Operations
import Prognosis.Proofs.Binary64.Value
import Prognosis.Proofs.Binary64.Literal
import Prognosis.Proofs.Binary64.Decoded
import Prognosis.Proofs.Prediction
import Prognosis.Proofs.Score
import Prognosis.Proofs.Settings
import Prognosis.Proofs.Rule.Worth
import Prognosis.Proofs.Ladder
import Prognosis.Proofs.Decimal.Interval
import Prognosis.Proofs.Decimal.Shortest
import Prognosis.Proofs.Decimal.Nearest
import Prognosis.Proofs.Decimal.Positional
import Prognosis.Proofs.Toml.Numeral
import Prognosis.Proofs.Toml.Float
import Prognosis.Proofs.Toml.Quoted
import Prognosis.Proofs.Toml.Lines
import Prognosis.Proofs.Settings.Document
import Prognosis.Proofs.Settings.Tables
import Prognosis.Proofs.Document.Record
import Prognosis.Proofs.Settings.RoundTrip
import Prognosis.Proofs.Toml.Range
import Prognosis.Proofs.Binary64.Trail
import Prognosis.Proofs.Score.Load
import Prognosis.Proofs.Rule.Monotone
import Prognosis.Proofs.Ladder.Monotone
import Prognosis.Proofs.Settings.Lookup
import Prognosis.Proofs.Cli.Arguments
import Prognosis.Proofs.Cli.Lookup
import Prognosis.Proofs.Json.Numeral
import Prognosis.Proofs.Json.Quoted
import Prognosis.Proofs.Json.Reader
import Prognosis.Proofs.Prediction.Record
import Prognosis.Proofs.Cli.Verdict
import Prognosis.Proofs.Crossing
import Prognosis.Proofs.Trend.LeastSquares
import Prognosis.Proofs.Binary64.Error
import Prognosis.Proofs.Trend.Monotone
import Prognosis.Proofs.Trend.Flat
import Prognosis.Proofs.Rule.Independence
import Prognosis.Proofs.Sample.Batch
import Prognosis.Proofs.Calendar.Timestamp
import Prognosis.Proofs.Binary64.Relative
import Prognosis.Proofs.Json.Scale
import Prognosis.Proofs.Json.Written
import Prognosis.Proofs.Json.ReadBack
import Prognosis.Proofs.Sample.Record
import Prognosis.Proofs.Document.Overlay
import Prognosis.Proofs.Sample.Overlay
import Prognosis.Proofs.Settings.Overlay
import Prognosis.Proofs.Engine.Bounds
import Prognosis.Proofs.Rule.Direction
import Prognosis.Proofs.Decimal.Fixed
import Prognosis.Proofs.Wording
import Prognosis.Proofs.History
