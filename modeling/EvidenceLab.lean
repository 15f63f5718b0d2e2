import EvidenceLab.DecimalArith
import EvidenceLab.HalfEven
import EvidenceLab.JsonText
import EvidenceLab.Calendar
import EvidenceLab.DecimalText
import EvidenceLab.ExceptRules
import EvidenceLab.Dict
import EvidenceLab.Units
import EvidenceLab.Values
import EvidenceLab.Canonical
import EvidenceLab.Formulas
import EvidenceLab.Nodes
import EvidenceLab.Encodings
import EvidenceLab.Components
import EvidenceLab.TopologicalSort
import EvidenceLab.BoundedIteration
import EvidenceLab.Bisection
import EvidenceLab.PoolAdjacent
import EvidenceLab.Keyset
import EvidenceLab.Iteration
import EvidenceLab.Graph
import EvidenceLab.Condensation
import EvidenceLab.Plan
import EvidenceLab.Snapshot
import EvidenceLab.Engine
import EvidenceLab.Runs
import EvidenceLab.CycleReports
import EvidenceLab.Identity
import EvidenceLab.NodeTyping
import EvidenceLab.GroupTyping
import EvidenceLab.Jacobi
import EvidenceLab.Soundness
import EvidenceLab.AmbientContexts
import EvidenceLab.Reporting
import EvidenceLab.Transitions
import EvidenceLab.Queue
import EvidenceLab.QueueSafety
import EvidenceLab.Effects
import EvidenceLab.Workflow
import EvidenceLab.WorkflowFence
import EvidenceLab.Pool
import EvidenceLab.WorkflowLedger
import EvidenceLab.RunLog
import EvidenceLab.RunUsage
import EvidenceLab.Consumer
import EvidenceLab.JobRun
import EvidenceLab.Checkpoints
import EvidenceLab.LockedLog
import EvidenceLab.EventStream
import EvidenceLab.Review
import EvidenceLab.ReviewCommands
import EvidenceLab.ReviewFacts
import EvidenceLab.ReviewStates
import EvidenceLab.ReviewWinners
import EvidenceLab.ReviewPeers
import EvidenceLab.ReviewAgreement
import EvidenceLab.Validation
import EvidenceLab.ConflictGroups
import EvidenceLab.JsonStore
import EvidenceLab.JsonValue
import EvidenceLab.JsonSchema
import EvidenceLab.Grouping
import EvidenceLab.StableSort
import EvidenceLab.PyText
import EvidenceLab.Citations
import EvidenceLab.Claims
import EvidenceLab.Verification
import EvidenceLab.Redaction
import EvidenceLab.Receipts
import EvidenceLab.Isotonic
import EvidenceLab.Calibration
import EvidenceLab.CalibrationMetrics
import EvidenceLab.Pagination
import EvidenceLab.Generation
import EvidenceLab.FusionOrder
import EvidenceLab.Sse
import EvidenceLab.Delimited
import EvidenceLab.Comparability
import EvidenceLab.DocText
import EvidenceLab.DecimalParse
import EvidenceLab.Fingerprints
import EvidenceLab.DecimalRounding
import EvidenceLab.NumericText
import EvidenceLab.NumericSigns
import EvidenceLab.IsoDates
import EvidenceLab.Normalize
import EvidenceLab.NormalizedFigures
import EvidenceLab.NumericRoundTrip
import EvidenceLab.Renormalize
import EvidenceLab.NormalizeTwice
import EvidenceLab.FilingParser
import EvidenceLab.Tabulated
import EvidenceLab.SnapshotStore
import EvidenceLab.PyJson
import EvidenceLab.CalibrationDataset
import EvidenceLab.CalibrationScan
import EvidenceLab.JsonReader
import EvidenceLab.JsonWriter
import EvidenceLab.CalibrationLoad
import EvidenceLab.JsonShuffle
import EvidenceLab.CalibrationOrder
import EvidenceLab.JsonGrammar
import EvidenceLab.CalibrationCanonical
import EvidenceLab.DecimalExact
import EvidenceLab.XbrlValues
import EvidenceLab.DecimalPlain
import EvidenceLab.XbrlFacts
import EvidenceLab.Borders
import EvidenceLab.FactKeys
import EvidenceLab.FilingFacts
import EvidenceLab.ItemBuilder
import EvidenceLab.JsonSame
import EvidenceLab.JsonAscii
import EvidenceLab.SseFrames
import EvidenceLab.EventFrames
import EvidenceLab.EventPage
import EvidenceLab.EventDelivery
import EvidenceLab.UniqueTable
import EvidenceLab.Ingestion
import EvidenceLab.IngestionLedger
import EvidenceLab.PlainNumbers
import EvidenceLab.CompanyFacts
import EvidenceLab.CompanyFactsWalk
import EvidenceLab.CompanyFactsSpans
import EvidenceLab.IngestionReleases
import EvidenceLab.IngestionCalls
import EvidenceLab.IngestionHistory
