import FocusRules.Checker
import FocusRules.Element
import FocusRules.Proofs.Acceptance
import FocusRules.Proofs.LifeCycle
import FocusRules.Proofs.Ranked
import FocusRules.Proofs.Repair
import FocusRules.Proofs.Rounds
import FocusRules.Proofs.Strictness
import FocusRules.Proofs.FirstFault
import FocusRules.Proofs.RoundTrip
import FocusRules.Proofs.Entailment
import FocusRules.Proofs.Evidence
import FocusRules.Proofs.Filling
import FocusRules.Proofs.Rearrangement
import FocusRules.Proofs.Walks
import FocusRules.Proofs.Simulation
import FocusRules.Proofs.Sight
import FocusRules.Proofs.Widening
import FocusRules.Proofs.Renaming
import FocusRules.Proofs.Reference
import FocusRules.Proofs.Paths
import FocusRules.Proofs.Relatives
import FocusRules.Proofs.Availability
import FocusRules.Proofs.Indirection
import FocusRules.Proofs.Relay
import FocusRules.Proofs.BuiltTree
import FocusRules.Proofs.Classification
import FocusRules.Proofs.Opposites
import FocusRules.Proofs.Nesting
import FocusRules.Proofs.Truncation
