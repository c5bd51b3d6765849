import TallyLang.Main
import TallyLang.Proofs.Scope
import TallyLang.Proofs.ConstantText
import TallyLang.Proofs.IR.Code
import TallyLang.Proofs.IR.Machine
import TallyLang.Proofs.IR.Preservation
import TallyLang.Proofs.Grammar
import TallyLang.Proofs.Grammar.Expressions
import TallyLang.Proofs.Grammar.Functions
import TallyLang.Proofs.IR.Shape
import TallyLang.Proofs.IR.LocalNames
import TallyLang.Proofs.Grammar.Stepwise
import TallyLang.Proofs.ViablePrefix
import TallyLang.Proofs.Grammar.Plain
import TallyLang.Proofs.Binary64.ReadBack
import TallyLang.Proofs.Locations
import TallyLang.Proofs.MaximalMunch
import TallyLang.Proofs.Writable
import TallyLang.Proofs.WrittenForm
import TallyLang.Proofs.RoundTrip
import TallyLang.Proofs.Accepted
import TallyLang.Proofs.IR.Placement
import TallyLang.Proofs.Placement
import TallyLang.Proofs.FileTree
import TallyLang.Proofs.Successive
import TallyLang.Proofs.Outcome
import TallyLang.Proofs.Grammar.Layered
import TallyLang.Proofs.IR.Truncation
import TallyLang.Proofs.CountedLocations
import TallyLang.Proofs.ErrorLine
import TallyLang.Proofs.Agreement
import TallyLang.Proofs.LineBoundary
import TallyLang.Proofs.LineEndings
import TallyLang.Proofs.Interleaving
import TallyLang.Proofs.TextScanner
import TallyLang.Proofs.UniqueReading
import TallyLang.Proofs.Binary64.Rounding
import TallyLang.Proofs.Binary64.SixDecimals
import TallyLang.Proofs.IR.Relocation
import TallyLang.Proofs.DeadCode
import TallyLang.Proofs.Positional
import TallyLang.Proofs.Binary64.ConstantValue
import TallyLang.Proofs.VerboseUses
import TallyLang.Proofs.Verbosity
import TallyLang.Proofs.Binary64.FewestDigits
