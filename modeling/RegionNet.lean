import RegionNet.Command.Disk
import RegionNet.Execution.Session
import RegionNet.Main
import RegionNet.Proofs.Stage
import RegionNet.Proofs.Step
import RegionNet.Proofs.Growth
import RegionNet.Proofs.Proper
import RegionNet.Proofs.Assembly
import RegionNet.Proofs.Progress
import RegionNet.Proofs.Bounds
import RegionNet.Proofs.FreeChoice
import RegionNet.Proofs.Counters
import RegionNet.Proofs.Report
import RegionNet.Proofs.LoopStatus
import RegionNet.Proofs.Conflict
import RegionNet.Proofs.Course
import RegionNet.Proofs.Ledger
import RegionNet.Proofs.Batch
import RegionNet.Proofs.Decision
import RegionNet.Proofs.Saturation
import RegionNet.Proofs.Call
import RegionNet.Proofs.Play
import RegionNet.Proofs.Length
import RegionNet.Proofs.Origin
import RegionNet.Proofs.Repetition
import RegionNet.Proofs.Waiting
import RegionNet.Proofs.Heeding
import RegionNet.Proofs.Completion
import RegionNet.Proofs.Odds
import RegionNet.Proofs.Outcome
import RegionNet.Proofs.Certainty
import RegionNet.Proofs.Effect
import RegionNet.Proofs.Nesting
import RegionNet.Proofs.TaskStatus
import RegionNet.Proofs.Journey
import RegionNet.Proofs.Chain
import RegionNet.Proofs.Prompt
import RegionNet.Proofs.Confluence
import RegionNet.Proofs.Agreement
import RegionNet.Proofs.Passage
import RegionNet.Proofs.Resolution
import RegionNet.Proofs.Makespan
import RegionNet.Proofs.Elapsed
import RegionNet.Proofs.Pause
import RegionNet.Proofs.Playback
import RegionNet.Proofs.Consistency
import RegionNet.Proofs.Arrival
import RegionNet.Proofs.Advance
import RegionNet.Proofs.Trace
import RegionNet.Proofs.Coalescence
import RegionNet.Proofs.Conduct
import RegionNet.Proofs.Commuting
import RegionNet.Proofs.Rounds
import RegionNet.Proofs.Settling
import RegionNet.Proofs.Ages
import RegionNet.Proofs.Pointwise
import RegionNet.Proofs.Refusal
import RegionNet.Proofs.Budget
import RegionNet.Proofs.Ancestry
import RegionNet.Proofs.Siblings
import RegionNet.Proofs.Totals
import RegionNet.Proofs.Replay
import RegionNet.Proofs.Doubles
import RegionNet.Proofs.Lexing
import RegionNet.Proofs.Reading
import RegionNet.Proofs.Recovery
import RegionNet.Proofs.Spelling
import RegionNet.Proofs.Verdict
import RegionNet.Proofs.WellFormed
import RegionNet.Proofs.Settings
import RegionNet.Proofs.Word
import RegionNet.Proofs.Written
import RegionNet.Proofs.Instant
import RegionNet.Proofs.Shares
import RegionNet.Proofs.Listing
import RegionNet.Proofs.Drawing
import RegionNet.Proofs.Ranges
import RegionNet.Proofs.FirstFault
import RegionNet.Proofs.Preorder
import RegionNet.Proofs.Reset
import RegionNet.Proofs.Changes
import RegionNet.Proofs.Index
import RegionNet.Proofs.Charges
import RegionNet.Proofs.Record
import RegionNet.Proofs.Unfolding
import RegionNet.Proofs.Topology
import RegionNet.Proofs.Grammar
import RegionNet.Proofs.Storage
import RegionNet.Proofs.Relocation
import RegionNet.Proofs.Context
