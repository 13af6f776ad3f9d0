import DotLang.Main
import DotLang.Proofs.Containment
import DotLang.Proofs.Courses
import DotLang.Proofs.FanOut
import DotLang.Proofs.Faults
import DotLang.Proofs.Gathering
import DotLang.Proofs.GraphScoping
import DotLang.Proofs.NodeScoping
import DotLang.Proofs.Operands
import DotLang.Proofs.Parsing
import DotLang.Proofs.Reopening
import DotLang.Proofs.Reproducing
import DotLang.Proofs.Stability
import DotLang.Proofs.Validity
import DotLang.Schema.Access
import DotLang.Proofs.TypedAccess
import DotLang.Proofs.Traversal
import DotLang.Proofs.Guarded
import DotLang.Proofs.LexingBelow
import DotLang.Proofs.ParserTracking
import DotLang.Proofs.JoinedTexts
import DotLang.Proofs.WrittenIds
import DotLang.Proofs.FirstFaults
import DotLang.Proofs.ParserLocality
import DotLang.Proofs.Completions
import DotLang.Proofs.WrittenTokens
import DotLang.Proofs.ViablePrefixes
import DotLang.Proofs.Gaps
import DotLang.Proofs.Progress
import DotLang.Proofs.Numerals
import DotLang.Proofs.ReadAgain
import DotLang.Proofs.Insertion
import DotLang.Proofs.Pieces
import DotLang.Proofs.Arrows
import DotLang.Proofs.Styles
import DotLang.Proofs.Concatenation
import DotLang.Proofs.Lookup
import DotLang.Proofs.Dictionary
import DotLang.Proofs.NumberTexts
import DotLang.Proofs.FixedPlaces
import DotLang.Proofs.Routes
import DotLang.Proofs.Colors
import DotLang.Proofs.Setting
import DotLang.Proofs.NameRuns
import DotLang.Proofs.Places
import DotLang.Proofs.Brackets
