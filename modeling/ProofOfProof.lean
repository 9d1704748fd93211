import ProofOfProof.Entity
import ProofOfProof.Limits.Document
import ProofOfProof.Proofs.Canonical
import ProofOfProof.Proofs.PublicationSize
import ProofOfProof.Proofs.Operation
import ProofOfProof.Proofs.Reload
import ProofOfProof.Proofs.Ascent
import ProofOfProof.Proofs.Separation
import ProofOfProof.Proofs.Inclusion
import ProofOfProof.Proofs.MerkleTree
import ProofOfProof.Proofs.Commitment
import ProofOfProof.Proofs.Body
import ProofOfProof.Proofs.Narrowing
import ProofOfProof.Proofs.Checksum
import ProofOfProof.Proofs.Constraint
import ProofOfProof.Proofs.PayloadId
import ProofOfProof.Proofs.JsonText
import ProofOfProof.Proofs.JsonForm
import ProofOfProof.Proofs.JsonOrigin
import ProofOfProof.Proofs.JsonRoundtrip
import ProofOfProof.Proofs.Branch
import ProofOfProof.Proofs.Sides
import ProofOfProof.Proofs.Repetition
import ProofOfProof.Proofs.BodyHash
import ProofOfProof.Proofs.Base59
import ProofOfProof.Proofs.Excerpt
import ProofOfProof.Proofs.Grammar
import ProofOfProof.Proofs.Ownership
import ProofOfProof.Proofs.Credit
import ProofOfProof.Proofs.History
import ProofOfProof.Proofs.PayoutList
import ProofOfProof.Proofs.OrderedMap
import ProofOfProof.Proofs.Balance
import ProofOfProof.Proofs.Duplicates
import ProofOfProof.Proofs.EndorsementKind
import ProofOfProof.Proofs.Malleability
import ProofOfProof.Proofs.SignedInteger
import ProofOfProof.Proofs.Lifting
