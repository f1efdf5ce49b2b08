import TraceDecay.Framing.Correct
import TraceDecay.Context.AssemblyCorrect
import TraceDecay.Ranking.Scales
import TraceDecay.Resolution.Frames
import TraceDecay.Resolution.SummaryOmissions
import TraceDecay.Cursor.Correct
import TraceDecay.Lsp.FramingCorrect
import TraceDecay.Edit.PrimitivesCorrect
import TraceDecay.Edit.Preview
import TraceDecay.Edit.Replacement
import TraceDecay.GraphDb.Traversal
import TraceDecay.Lexical.FormatCorrect
import TraceDecay.Composition.LaneOrder
import TraceDecay.Lexical.Bm25
import TraceDecay.Lexical.NgramsCorrect
import TraceDecay.Lexical.Proximity
import TraceDecay.SourceEdit.Finality
import TraceDecay.CodeIndex.LineageCorrect
import TraceDecay.Canonical.Identity
import TraceDecay.Canonical.Streaming
import TraceDecay.WriterLedger.Correct
import TraceDecay.Admission.ReplayOrder
import TraceDecay.Admission.Rotation
import TraceDecay.Lcm.Pairing
import TraceDecay.Lcm.ReplayBudget
import TraceDecay.Transcript.Scans
import TraceDecay.Git.Hunk
import TraceDecay.Domain.Distance
import TraceDecay.Privacy.Entropy
