import Acpi.Command.FileTree
import Acpi.Main
import Acpi.Proofs.Declaration
import Acpi.Proofs.Limits
import Acpi.Proofs.PrivateArguments
import Acpi.Proofs.Replacement
import Acpi.Proofs.EntryPoints
import Acpi.Proofs.Check
import Acpi.Proofs.BoardTree
import Acpi.Proofs.Command
import Acpi.Proofs.Transparency
import Acpi.Proofs.EisaId
import Acpi.Proofs.ResourceTemplate
import Acpi.Proofs.BoardReading
import Acpi.Proofs.StreamRun
import Acpi.Proofs.ShortStream
import Acpi.Proofs.Construction
import Acpi.Proofs.PathGrammar
import Acpi.Proofs.NormalForm
import Acpi.Proofs.CanonicalLength
import Acpi.Proofs.PlainText
import Acpi.Proofs.EisaRoundTrip
import Acpi.Proofs.ResourceRun
import Acpi.Proofs.BoardValidity
import Acpi.Proofs.LogRecords
import Acpi.Proofs.GivenLengths
import Acpi.Proofs.CheckedWriter
import Acpi.Proofs.TableFilling
import Acpi.Proofs.IntegerConstant
import Acpi.Proofs.HeaderPlaces
import Acpi.Proofs.SlotFilling
