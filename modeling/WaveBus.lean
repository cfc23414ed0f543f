import WaveBus.Fit.Output
import WaveBus.Main
import WaveBus.Outcome
import WaveBus.Proofs.Bus.Checked
import WaveBus.Proofs.Capture.Written
import WaveBus.Proofs.Files.Write
import WaveBus.Proofs.Fit.Alone
import WaveBus.Proofs.Score.Distance
import WaveBus.Proofs.Session.Alike
import WaveBus.Proofs.Session.Best
import WaveBus.Proofs.Session.Control
import WaveBus.Proofs.Session.Gate
import WaveBus.Proofs.Session.Trajectory
import WaveBus.Proofs.Table.Saved
import WaveBus.Session
import WaveBus.Proofs.Capture.Format
import WaveBus.Proofs.Fit.Moves
import WaveBus.Proofs.Fit.Planned
import WaveBus.Proofs.Fit.Checked
import WaveBus.Proofs.Fit.Lost
import WaveBus.Proofs.Fit.Pieces
import WaveBus.Proofs.Fit.Interleaved
import WaveBus.Proofs.Rounding.Grid
import WaveBus.Proofs.Rounding.Packing
import WaveBus.Proofs.Rounding.Value
import WaveBus.Proofs.Rounding.Operations
import WaveBus.Proofs.Single.Monotone
import WaveBus.Proofs.Single.Unit
import WaveBus.Proofs.Single.Sum
import WaveBus.Proofs.Single.Zero
import WaveBus.Proofs.Bus.Weight
import WaveBus.Proofs.Bus.Coupling
import WaveBus.Proofs.Bus.Digital
import WaveBus.Proofs.Double.Value
import WaveBus.Proofs.Params.Factor
import WaveBus.Proofs.Params.Walk
import WaveBus.Proofs.Bus.Alike
import WaveBus.Proofs.Bus.Reindex
import WaveBus.Proofs.Bus.Silence
import WaveBus.Proofs.Bus.TopBit
import WaveBus.Proofs.Score.Complement
import WaveBus.Proofs.Bus.Bias
import WaveBus.Proofs.Score.Paths
import WaveBus.Proofs.Params.Grammar
import WaveBus.Proofs.Params.Source
import WaveBus.Proofs.Session.Log
import WaveBus.Proofs.Capture.Layout
import WaveBus.Proofs.Capture.Lines
import WaveBus.Proofs.Params.Draws
import WaveBus.Proofs.Wave.Reading
import WaveBus.Proofs.Bus.Uniform
import WaveBus.Proofs.Plan.Sources
