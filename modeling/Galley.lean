import Galley.Command.Run
import Galley.Comment.Scan
import Galley.Comment.Table
import Galley.Layout.Doc
import Galley.Main
import Galley.Proofs.RingQueue
import Galley.Proofs.Extent
import Galley.Proofs.PageWriting
import Galley.Proofs.Pending
import Galley.Proofs.Tracking
import Galley.Proofs.Lookahead
import Galley.Proofs.Emission
import Galley.Proofs.Rendering
import Galley.Proofs.PrinterState
import Galley.Proofs.Margin
import Galley.Proofs.TextOrder
import Galley.Proofs.Coverage
import Galley.Proofs.Indentation
import Galley.Proofs.Composition
import Galley.Proofs.Discipline
import Galley.Proofs.Contract
import Galley.Proofs.Safety
import Galley.Proofs.Boundedness
import Galley.Proofs.Lockstep
import Galley.Proofs.Rewording
import Galley.Proofs.Bracketing
import Galley.Proofs.Documents
import Galley.Proofs.Algebra
import Galley.Proofs.Twinning
import Galley.Proofs.FrontEnds
import Galley.Proofs.SideBySide
import Galley.Proofs.Words
import Galley.Proofs.Room
import Galley.Proofs.Exactness
import Galley.Proofs.Reformatting
import Galley.Proofs.PendingSizes
import Galley.Proofs.PositionedDeque
import Galley.Proofs.ResultCache
import Galley.Proofs.Glyphs
import Galley.Proofs.Wrapping
import Galley.Proofs.PlainLines
import Galley.Proofs.Rereading
import Galley.Proofs.Replaying
import Galley.Proofs.Wraparound
import Galley.Proofs.LineEnds
import Galley.Proofs.Wholeness
import Galley.Proofs.Filling
import Galley.Proofs.Decoding
import Galley.Proofs.Annotation
import Galley.Proofs.CommentPlacement
import Galley.Proofs.Blanks
import Galley.Proofs.Bookkeeping
import Galley.Proofs.Spacing
import Galley.Proofs.ValueReading
import Galley.Proofs.EntryNotes
import Galley.Proofs.SourceLoop
import Galley.Proofs.QuotedReading
import Galley.Proofs.ScalarReading
import Galley.Proofs.Lettering
import Galley.Proofs.Highlighting
import Galley.Proofs.LeadingBlock
import Galley.Proofs.Normalizing
import Galley.Proofs.Rewrapping
import Galley.Proofs.StatementTexts
import Galley.Proofs.LineRoom
import Galley.Proofs.BlankLines
import Galley.Proofs.Conditions
import Galley.Proofs.WrapWidth
