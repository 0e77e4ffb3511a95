import TradeBars.Archive
import TradeBars.Backfill.Task
import TradeBars.Candle.Resample
import TradeBars.Candle.Table
import TradeBars.Config.Record
import TradeBars.Feed.Session
import TradeBars.Json.Printer
import TradeBars.Json.Reader
import TradeBars.Ohlcv.DollarBars
import TradeBars.Ohlcv.TickBars
import TradeBars.Payload
import TradeBars.Trend.Features
import TradeBars.Proofs.Scalar.Laws
import TradeBars.Proofs.Scalar.Binary64
import TradeBars.Proofs.Scalar.Signs
import TradeBars.Proofs.Scalar.Exact
import TradeBars.Proofs.Candle.Grid
import TradeBars.Proofs.Candle.Column
import TradeBars.Proofs.Candle.Resample
import TradeBars.Proofs.Candle.Times
import TradeBars.Proofs.Candle.Buckets
import TradeBars.Proofs.Candle.Regrouping
import TradeBars.Proofs.Candle.Words
import TradeBars.Proofs.Newest
import TradeBars.Proofs.Ring
import TradeBars.Proofs.Series
import TradeBars.Proofs.Klines
import TradeBars.Proofs.Chunks
import TradeBars.Proofs.LiveBars
import TradeBars.Proofs.Builder
import TradeBars.Proofs.TimeOrder
import TradeBars.Proofs.Backfill.Sharing
import TradeBars.Proofs.Backfill.Contiguity
import TradeBars.Proofs.Backfill.Task
import TradeBars.Proofs.Ohlcv.TickBars
import TradeBars.Proofs.Ohlcv.DollarBars
import TradeBars.Proofs.Backfill.Budget
import TradeBars.Proofs.Ohlcv.DollarRuns
import TradeBars.Proofs.Ohlcv.DollarSizes
import TradeBars.Proofs.LaterData
import TradeBars.Proofs.InputOrder
import TradeBars.Proofs.Trend.Locality
import TradeBars.Proofs.Feed.Accounting
import TradeBars.Proofs.Backfill.Calls
import TradeBars.Proofs.Backfill.Waits
import TradeBars.Proofs.Backfill.Progress
import TradeBars.Proofs.Operations
import TradeBars.Proofs.Totals
import TradeBars.Proofs.Contents
import TradeBars.Proofs.Scalar.Value
import TradeBars.Proofs.Payload.Values
import TradeBars.Proofs.Payload.Tables
import TradeBars.Proofs.Payload.Outcome
import TradeBars.Proofs.Time.Calendar
import TradeBars.Proofs.Time.Spellings
import TradeBars.Proofs.Payload.Times
import TradeBars.Proofs.Config.Aliases
import TradeBars.Proofs.Candle.Emptiness
import TradeBars.Proofs.Trend.Alignment
import TradeBars.Proofs.Trend.LeastSquares
import TradeBars.Proofs.Scalar.Exponents
import TradeBars.Proofs.Scalar.Numbers
import TradeBars.Proofs.Trend.WarmUp
import TradeBars.Proofs.Text.Trimming
import TradeBars.Proofs.Text.Amounts
import TradeBars.Proofs.Interval
import TradeBars.Proofs.DollarSize
import TradeBars.Proofs.Scalar.Integers
import TradeBars.Proofs.Bar.Record
import TradeBars.Proofs.Candle.Table
import TradeBars.Proofs.Json.Reordered
import TradeBars.Proofs.Json.Lexing
import TradeBars.Proofs.Json.RoundTrip
import TradeBars.Proofs.Config.Record
import TradeBars.Proofs.Config.Saved
