import ProseMarkup.Attribute
import ProseMarkup.Attribute.Reader
import ProseMarkup.Diagnostic
import ProseMarkup.Diagnostic.Log
import ProseMarkup.Document
import ProseMarkup.Element
import ProseMarkup.Enclosure
import ProseMarkup.Fault
import ProseMarkup.Limits
import ProseMarkup.LineMap
import ProseMarkup.Mark
import ProseMarkup.Name
import ProseMarkup.Parser
import ProseMarkup.Region
import ProseMarkup.Region.Head
import ProseMarkup.Region.Outline
import ProseMarkup.Segment
import ProseMarkup.Span
import ProseMarkup.Tag
import ProseMarkup.TagSet
import ProseMarkup.Text.Alphabetic
import ProseMarkup.Text.Basic
import ProseMarkup.Text.Blank
import ProseMarkup.Text.Cluster
import ProseMarkup.Text.Cluster.Class
import ProseMarkup.Text.CodeRange
import ProseMarkup.Text.Numeric
import ProseMarkup.Text.Utf8
import ProseMarkup.Token
import ProseMarkup.Token.Lexer
import ProseMarkup.Token.Mode
import ProseMarkup.Tree
import ProseMarkup.Vocabulary
import ProseMarkup.Checked.Access
import ProseMarkup.Checked.Mark
import ProseMarkup.Checked.Enclosure
import ProseMarkup.Checked.Outline
import ProseMarkup.Checked.Lexer
import ProseMarkup.Checked.Tag
import ProseMarkup.Checked.Document
import ProseMarkup.Proofs.Slices
import ProseMarkup.Proofs.Ranges
import ProseMarkup.Proofs.Tiling
import ProseMarkup.Proofs.Reports
import ProseMarkup.Proofs.Arrangement
import ProseMarkup.Proofs.Prose
import ProseMarkup.Proofs.Readers
import ProseMarkup.Proofs.Recognition
import ProseMarkup.Proofs.Registration
import ProseMarkup.Proofs.Shift
import ProseMarkup.Proofs.Locality
import ProseMarkup.Proofs.Shift.Tags
import ProseMarkup.Proofs.LetterCase
import ProseMarkup.Proofs.LetterCase.Regions
import ProseMarkup.Proofs.LetterCase.Tokens
import ProseMarkup.Proofs.LetterCase.Tags
import ProseMarkup.Proofs.LetterCase.Documents
import ProseMarkup.Proofs.Isolation
import ProseMarkup.Proofs.TagNames
import ProseMarkup.Proofs.Markup
import ProseMarkup.Proofs.Markup.Search
import ProseMarkup.Proofs.Markup.Tags
import ProseMarkup.Proofs.Markup.RoundTrip
import ProseMarkup.Proofs.Nesting
import ProseMarkup.Proofs.Placement
import ProseMarkup.Proofs.Depth
import ProseMarkup.Proofs.Extents
import ProseMarkup.Proofs.Agreement
import ProseMarkup.Proofs.Attachment
import ProseMarkup.Proofs.Comments
import ProseMarkup.Proofs.Resumption
import ProseMarkup.Proofs.Comments.Scan
import ProseMarkup.Proofs.Numbers
import ProseMarkup.Proofs.Lexing
import ProseMarkup.Proofs.Lexing.Modes
import ProseMarkup.Proofs.Lexing.Coverage
import ProseMarkup.Proofs.Quotes
import ProseMarkup.Proofs.Lexing.TagEnds
import ProseMarkup.Proofs.Values
import ProseMarkup.Proofs.Grammar
import ProseMarkup.Proofs.Blanks
import ProseMarkup.Proofs.SelfNesting
import ProseMarkup.Proofs.Checked.Access
import ProseMarkup.Proofs.Checked.Mark
import ProseMarkup.Proofs.Checked.Enclosure
import ProseMarkup.Proofs.Checked.Outline
import ProseMarkup.Proofs.Checked.Lexer
import ProseMarkup.Proofs.Checked.Fragment
import ProseMarkup.Proofs.Checked.Tag
import ProseMarkup.Proofs.Checked.Element
import ProseMarkup.Proofs.Checked.Document
import ProseMarkup.Proofs.Discovery
import ProseMarkup.Proofs.Location
import ProseMarkup.Proofs.Attributes
import ProseMarkup.Proofs.Comments.Extent
import ProseMarkup.Checked.LineMap
import ProseMarkup.Proofs.Lines
import ProseMarkup.Proofs.Checked.LineMap
import ProseMarkup.Proofs.Columns
import ProseMarkup.Proofs.LineRanges
