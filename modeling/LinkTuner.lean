import LinkTuner.Json.Data
import LinkTuner.Json.Reader
import LinkTuner.Main
import LinkTuner.Proofs.Controller.Accounting
import LinkTuner.Proofs.Controller.Requests
import LinkTuner.Proofs.Policy.Rearrangement
import LinkTuner.Proofs.Registry.BoundedMap
import LinkTuner.Proofs.Controller.Records
import LinkTuner.Proofs.Controller.OpenRequests
import LinkTuner.Proofs.Controller.Ownership
import LinkTuner.Proofs.Policy.Range
import LinkTuner.Proofs.Controller.CatalogActions
import LinkTuner.Proofs.Controller.Turns
import LinkTuner.Proofs.Controller.Credit
import LinkTuner.Proofs.Policy.Thinning
import LinkTuner.Proofs.Policy.Importance
import LinkTuner.Proofs.Policy.Estimates
import LinkTuner.Proofs.Wire.Written
import LinkTuner.Proofs.Wire.Answers
import LinkTuner.Proofs.Wire.Names
import LinkTuner.Proofs.Config.Startable
import LinkTuner.Proofs.Controller.Commands
import LinkTuner.Proofs.Controller.Reading
import LinkTuner.Proofs.Wire.Arrivals
import LinkTuner.Proofs.Config.Layering
import LinkTuner.Proofs.Config.Printed
import LinkTuner.Proofs.Wire.Cuts
import LinkTuner.Proofs.Wire.Grammar
import LinkTuner.Proofs.Controller.Fallback
import LinkTuner.Proofs.Catalog.Numbering
import LinkTuner.Proofs.Wire.Recovery
import LinkTuner.Proofs.Policy.Means
import LinkTuner.Proofs.Controller.FiniteRewards
import LinkTuner.Proofs.Policy.Degeneration
import LinkTuner.Proofs.Policy.Outlook
import LinkTuner.Proofs.Policy.BestArm
import LinkTuner.Proofs.Controller.Remembered
import LinkTuner.Proofs.Policy.Growth
import LinkTuner.Proofs.Registry.Accesses
