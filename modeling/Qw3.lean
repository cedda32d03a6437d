import Qw3.RepositoryGc.Policy
import Qw3.Store.Model
import Qw3.Store.Directory
import Qw3.Store.Accounts
import Qw3.Store.Layout
import Qw3.Store.Invariant
import Qw3.Store.Calls
import Qw3.Store.Appending
import Qw3.Store.Committing
import Qw3.Store.Rewinding
import Qw3.Store.Bounded
import Qw3.Store.Branches
import Qw3.Store.Legacy
import Qw3.Store.Backing
import Qw3.Lib.Marks
import Qw3.Plan.MandatoryFit
import Qw3.Sampling.SparseRejection
import Qw3.Store.Picking
import Qw3.Store.Keeping
import Qw3.Store.TopK
import Qw3.Store.Fusion
import Qw3.Store.Stray
import Qw3.Store.Groups
import Qw3.Plan.Composition
import Qw3.Lib.PrefixCode
import Qw3.Prefix.Sha256
import Qw3.Prefix.History
import Qw3.Prefix.Rows
import Qw3.Prefix.Exact
import Qw3.Anthropic.Sse
import Qw3.Anthropic.Grammar
import Qw3.Anthropic.Stream
import Qw3.Json.Dump
import Qw3.Vision.Records
import Qw3.Vision.Prepared
import Qw3.Json.Grammar
import Qw3.Native.RequestJson
import Qw3.Native.Boundaries
import Qw3.Native.Prefix
import Qw3.Anthropic.Request
import Qw3.Anthropic.Mapping
import Qw3.Native.Preparation
import Qw3.Store.PageSpans
import Qw3.Lib.SlotPool
import Qw3.Tier.Slots
import Qw3.Tier.Ownership
import Qw3.Tier.Eviction
import Qw3.Lib.File
import Qw3.Tier.Arena
import Qw3.Tier.Overlay
import Qw3.Tier.Batch
import Qw3.Tier.Spans
import Qw3.Lib.Ranges
import Qw3.Store.Views
import Qw3.Store.Discarding
import Qw3.Store.Extending
import Qw3.Store.Speculation
import Qw3.Lib.SortUnique
import Qw3.Store.Window
import Qw3.Store.Contiguous
import Qw3.Store.Identities
import Qw3.Store.RepositorySelection
import Qw3.Store.WindowPlans
import Qw3.Store.Drift
import Qw3.Store.Relabelling
import Qw3.Store.Agreement
import Qw3.Lib.Chunks
import Qw3.Lib.Search
import Qw3.Stream.StopBuffer
import Qw3.Stream.Utf8
import Qw3.Stream.Reasoning
import Qw3.Stream.Tail
import Qw3.Stream.ToolCall
import Qw3.Stream.ToolCallCuts
import Qw3.Stream.Encoding
import Qw3.Stream.ToolCallUtf8
import Qw3.Archive.DFlash
import Qw3.Archive.State
import Qw3.Archive.Build
import Qw3.Tier.Holdings
import Qw3.RepositoryGc.StorageRelease
import Qw3.Pages.GlobalPool
import Qw3.Pages.SharedPool
import Qw3.Pages.Ownership
import Qw3.Lib.Advance
import Qw3.Policy.Reselect
import Qw3.Policy.CheckpointSplit
import Qw3.Policy.Prefill
import Qw3.Policy.Refresh
import Qw3.Lib.PartialSort
import Qw3.Sampling.TargetSampling
import Qw3.Gguf.Format
import Qw3.Gguf.Cursor
import Qw3.Gguf.File
import Qw3.Vision.Placement
import Qw3.Vision.Positions
import Qw3.Vision.Layout
import Qw3.Vision.Incremental
import Qw3.Lib.Regex
import Qw3.Tokenizer.PreTokenize
import Qw3.Tokenizer.Alphabet
import Qw3.Tokenizer.Bpe
import Qw3.Tokenizer.Segments
import Qw3.Tokenizer.Encode
import Qw3.Tokenizer.ChatTokenCache
import Qw3.ToolCalls.Rendering
import Qw3.Lib.Pieces
import Qw3.Policy.ActionAttention
import Qw3.Tokenizer.ByteSpans
import Qw3.Harness.Frames
import Qw3.Harness.LiveSuffix
import Qw3.Harness.Policy
import Qw3.PageTable.Table
import Qw3.PageTable.Ownership
import Qw3.PageTable.Demand
import Qw3.PageTable.Device
import Qw3.Store.History
import Qw3.PageTable.Window
import Qw3.RawK.Budget
import Qw3.RawK.Accounting
import Qw3.RawK.Growth
import Qw3.RawK.Writeback
import Qw3.RawK.Reaping
import Qw3.RawK.Staging
import Qw3.RawK.Recovery
import Qw3.Policy.EvidenceAdmission
import Qw3.Policy.TailPin
import Qw3.Archive.DFlashView
import Qw3.Lib.Fips180
import Qw3.Policy.ThinkingSummary
import Qw3.Prefix.Digest
import Qw3.Policy.RoundPadding
import Qw3.Prefix.Snapshot
import Qw3.Prefix.StateStorage
import Qw3.Chat.Rendering
import Qw3.Chat.Spans
import Qw3.Chat.TokenPrefix
import Qw3.Chat.Marks
import Qw3.Chat.QuerySpan
import Qw3.Chat.Parting
import Qw3.Serving.Cancellation
import Qw3.Serving.Cooperative
