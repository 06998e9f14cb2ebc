import Pseudonym.Command.Logging
import Pseudonym.Files.Load
import Pseudonym.Main
import Pseudonym.Proofs.Names.WriteOnce
import Pseudonym.Proofs.Obfuscate.Faults
import Pseudonym.Proofs.Obfuscate.Noninterference
import Pseudonym.Proofs.Obfuscate.Reordering
import Pseudonym.Proofs.Obfuscate.Restoring
import Pseudonym.Proofs.Obfuscate.Stable
import Pseudonym.Proofs.Syntax.RoundTrip
import Pseudonym.Schema.Edit
import Pseudonym.Schema.Normal
import Pseudonym.Proofs.Obfuscate.Counting
import Pseudonym.Proofs.Syntax.Image
import Pseudonym.Proofs.Peg.Running
import Pseudonym.Proofs.Peg.SideBySide
import Pseudonym.Proofs.Syntax.Bare
import Pseudonym.Proofs.Syntax.Characters
import Pseudonym.Proofs.Syntax.LineEndings
import Pseudonym.Proofs.Obfuscate.LineEndings
import Pseudonym.Proofs.Syntax.Shifted
import Pseudonym.Proofs.Syntax.Closing
import Pseudonym.Proofs.Syntax.Appended
import Pseudonym.Proofs.Syntax.NormalForm
import Pseudonym.Proofs.Command.Atomic
import Pseudonym.Proofs.Obfuscate.Duplicates
import Pseudonym.Proofs.Obfuscate.EnvCalls
import Pseudonym.Proofs.Syntax.Indentation
import Pseudonym.Proofs.Syntax.Faithful
import Pseudonym.Proofs.Obfuscate.Defaults
import Pseudonym.Proofs.Obfuscate.ForeignKeys
import Pseudonym.Proofs.Obfuscate.Located
import Pseudonym.Proofs.Syntax.Expected
import Pseudonym.Proofs.Syntax.Strings
