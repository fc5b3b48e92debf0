import Annals.Alias.Search
import Annals.Proofs.Alias.Collapse
import Annals.Proofs.Alias.Neighbours
import Annals.Proofs.DualHistory
import Annals.Proofs.Inference.Accounts
import Annals.Proofs.Inference.Answering
import Annals.Proofs.Inference.Gains
import Annals.Proofs.Inference.Renaming
import Annals.Proofs.Inference.Retraction
import Annals.Proofs.Inference.WriteBack
import Annals.Proofs.Interchange
import Annals.Proofs.Lookup
import Annals.Proofs.Narrowing
import Annals.Proofs.Schema.Ascent
import Annals.Proofs.Store.Log
import Annals.Proofs.Store.Replay
import Annals.Proofs.Store.Session
import Annals.Store.Catalog
import Annals.Proofs.Extension
import Annals.Proofs.Alias.Gathering
import Annals.Proofs.Inference.Suppression
import Annals.Proofs.Inference.Soundness
