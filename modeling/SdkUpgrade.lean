import SdkUpgrade.Input
import SdkUpgrade.Main
import SdkUpgrade.Proofs.Boundaries
import SdkUpgrade.Proofs.Callees
import SdkUpgrade.Proofs.CatalogAlgebra
import SdkUpgrade.Proofs.Grammar
import SdkUpgrade.Proofs.Intents
import SdkUpgrade.Proofs.Locality
import SdkUpgrade.Proofs.Modern
import SdkUpgrade.Proofs.Untouched
import SdkUpgrade.Proofs.Loggers
import SdkUpgrade.Proofs.Configs
import SdkUpgrade.Proofs.FileTrees
import SdkUpgrade.Proofs.Commands
import SdkUpgrade.Proofs.Loading
import SdkUpgrade.Proofs.Printing
import SdkUpgrade.Proofs.Tracing
import SdkUpgrade.Proofs.Spellings
import SdkUpgrade.Proofs.Literals
import SdkUpgrade.Proofs.Settling
import SdkUpgrade.Proofs.Evidence
import SdkUpgrade.Proofs.Spacing
import SdkUpgrade.Proofs.Words
import SdkUpgrade.Proofs.Overrides
import SdkUpgrade.Proofs.NameLists
import SdkUpgrade.Proofs.Quoting
import SdkUpgrade.Proofs.Endings
import SdkUpgrade.Proofs.Listings
import SdkUpgrade.Proofs.LogContexts
