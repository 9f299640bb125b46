import SealedSets.Proofs.SetEquality
import SealedSets.Session
import SealedSets.Validation
import SealedSets.Value.Nesting
import SealedSets.Proofs.Arrangement
import SealedSets.Proofs.Rules
import SealedSets.Proofs.NaturalEquality
import SealedSets.Proofs.Outcomes
import SealedSets.Proofs.Outlines
import SealedSets.Proofs.Readings
import SealedSets.Proofs.Sessions
import SealedSets.Proofs.Uniting
import SealedSets.Proofs.ExactSizing
import SealedSets.Proofs.Restarts
import SealedSets.Proofs.CanonicalForm
import SealedSets.Proofs.Lookups
import SealedSets.Proofs.Obstacles
import SealedSets.Proofs.HashSums
import SealedSets.Proofs.ComposedOrders
import SealedSets.Proofs.Copying
import SealedSets.Proofs.PowersOfTwo
import SealedSets.Proofs.IdentityRuns
import SealedSets.Proofs.Mixing
