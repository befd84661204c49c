import FormulaNet.Banner
import FormulaNet.Net.Edit
import FormulaNet.Settings.Json
import FormulaNet.Proofs.Acceptance
import FormulaNet.Proofs.References
import FormulaNet.Proofs.SettingsRoundTrip
import FormulaNet.Proofs.Deletion
import FormulaNet.Proofs.DeletionEffect
import FormulaNet.Proofs.RenameEffect
import FormulaNet.Proofs.Restoration
import FormulaNet.Proofs.Spans
import FormulaNet.Proofs.Lookups
import FormulaNet.Proofs.DeletionOrder
import FormulaNet.Proofs.Chains
import FormulaNet.Proofs.Blanks
import FormulaNet.Proofs.StoredNumbers
import FormulaNet.Proofs.EdgeQueries
import FormulaNet.Proofs.PartialSettings
import FormulaNet.Proofs.TokenPass
