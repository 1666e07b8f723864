import Hinting.Main
import Hinting.Cursor
import Hinting.Proofs.FaultPrefix
import Hinting.Proofs.Headings
import Hinting.Proofs.WrittenLines
import Hinting.Proofs.Letters
import Hinting.Proofs.VttText
import Hinting.Proofs.Concatenation
import Hinting.Proofs.EntryPoints
import Hinting.Proofs.Truncation
import Hinting.Proofs.Attempts
import Hinting.Proofs.LineEndings
import Hinting.Proofs.Sessions
import Hinting.Proofs.Blocks
import Hinting.Proofs.PushModes
import Hinting.Proofs.Events
import Hinting.Proofs.Bounds
import Hinting.Proofs.Responses
import Hinting.Proofs.Openers
import Hinting.Proofs.PushData
import Hinting.Proofs.OneLine
import Hinting.Proofs.ValuesLine
import Hinting.Proofs.Language
import Hinting.Proofs.SourceConcatenation
import Hinting.Proofs.ErrorLines
import Hinting.Proofs.Layout
import Hinting.Proofs.Listings
import Hinting.Proofs.NamedLines
import Hinting.Proofs.Cursors
import Hinting.Proofs.Messages
