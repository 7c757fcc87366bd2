import Microcode.Command.Directory
import Microcode.Main
import Microcode.Token.Scanner
import Microcode.Trace
import Microcode.Proofs.Encoding.Demands
import Microcode.Proofs.Word.Packing
import Microcode.Proofs.DataPath
import Microcode.Proofs.Token.Lexeme
import Microcode.Proofs.Token.Reading
import Microcode.Proofs.Program.Grammar
import Microcode.Proofs.Program.Parsing
import Microcode.Proofs.Program.WellFormed
import Microcode.Proofs.Program.Writing
import Microcode.Proofs.Program.RoundTrip
import Microcode.Proofs.Label.Resolution
import Microcode.Proofs.Source.Lines
import Microcode.Proofs.Encoding.Safety
import Microcode.Proofs.Encoding.Branches
import Microcode.Proofs.Token.Lines
import Microcode.Proofs.Token.Scanner
import Microcode.Proofs.Program.Transport
import Microcode.Proofs.Program.Places
import Microcode.Proofs.Program.LineLocality
import Microcode.Proofs.Encoding.Relocation
import Microcode.Proofs.Linking
import Microcode.Proofs.Encoding.Halting
import Microcode.Proofs.Trace
import Microcode.Proofs.Resources.Runs
import Microcode.Proofs.Resources.Reachable
import Microcode.Proofs.Token.Layout
import Microcode.Proofs.Token.Renaming
import Microcode.Proofs.Program.Renaming
import Microcode.Proofs.Renaming
import Microcode.Proofs.Encoding.Exactness
import Microcode.Proofs.Word.Unpacking
import Microcode.Proofs.Command.AllOrNothing
import Microcode.Proofs.Token.Spans
import Microcode.Proofs.Locations
import Microcode.Proofs.Resources.Joint
import Microcode.Proofs.Encoding.Reordering
import Microcode.Proofs.Encoding.Feasibility
import Microcode.Proofs.Label.Reports
import Microcode.Proofs.Program.Verdicts
import Microcode.Proofs.Program.Fronts
import Microcode.Proofs.Program.FirstError
import Microcode.Proofs.Text.Numerals
import Microcode.Proofs.Word.Decoding
import Microcode.Proofs.Source.Columns
import Microcode.Proofs.Token.Extents
import Microcode.Proofs.Token.Spacing
import Microcode.Proofs.Program.Extents
import Microcode.Proofs.Report.Blame
import Microcode.Proofs.Report.Underlining
