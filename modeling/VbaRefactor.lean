import VbaRefactor.Main
import VbaRefactor.Proofs.Text.LineNumbers
import VbaRefactor.Proofs.Plans
import VbaRefactor.Proofs.Backups
import VbaRefactor.Proofs.Edit.Reentry
import VbaRefactor.Proofs.Edit.Decisions
import VbaRefactor.Proofs.Syntax.Chains
import VbaRefactor.Proofs.Syntax.LineEnds
import VbaRefactor.Proofs.Lookup
import VbaRefactor.Proofs.References
import VbaRefactor.Proofs.Reorder.ByName
import VbaRefactor.Proofs.Reorder.Meaning
import VbaRefactor.Proofs.CalledObjects
import VbaRefactor.Proofs.Encapsulate.Names
import VbaRefactor.Proofs.Encapsulate.Capture
import VbaRefactor.Proofs.Encapsulate.Objects
import VbaRefactor.Proofs.Interfaces
import VbaRefactor.Proofs.Encapsulate.ReadBack
import VbaRefactor.Proofs.Encapsulate.Extension
