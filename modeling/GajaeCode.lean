import GajaeCode.Natives.HashlineParity
import GajaeCode.Natives.NormalizeParity
import GajaeCode.Natives.MyersDistance
import GajaeCode.Hashline.Merge
import GajaeCode.Hashline.Untargeted
import GajaeCode.Natives.LineDiffMinimal
import GajaeCode.Edit.HunkRender
import GajaeCode.Secrets.SinglePass
import GajaeCode.Secrets.Hiding
import GajaeCode.Secrets.RoundTrip
import GajaeCode.Tools.SqliteReader
import GajaeCode.Tools.UrlExpansion
import GajaeCode.Tools.ComposerCommand
import GajaeCode.Session.MiddleTruncation
import GajaeCode.Session.ArtifactPrefix
import GajaeCode.Session.TailBuffer
import GajaeCode.Tools.ConflictIds
import GajaeCode.Lsp.TextEdits
import GajaeCode.Lsp.WorkspaceOrder
import GajaeCode.Schema.RootFlattening
import GajaeCode.Schema.Nullable
import GajaeCode.Session.PrepareCompaction
import GajaeCode.Session.BranchedSession
import GajaeCode.Session.ProviderContext
import GajaeCode.Agent.StablePrefix
import GajaeCode.Telegram.Split
import GajaeCode.Telegram.MarkdownHtml
import GajaeCode.Telegram.MarkdownRestored
import GajaeCode.Query.SnapshotWalk
import GajaeCode.Query.CursorBudget
import GajaeCode.Query.RevisionIds
import GajaeCode.Sdk.ReverseLeases
import GajaeCode.Hashline.Recovery
import GajaeCode.Session.SplitTurn
import GajaeCode.Session.BranchSummary
import GajaeCode.Agent.AppendOnlyLog
import GajaeCode.Tui.BracketedPaste
import GajaeCode.Sdk.EventReplay
import GajaeCode.Utils.Snowflake
import GajaeCode.Utils.RingBuffer
