import IppCode.Listing
import IppCode.Main
import IppCode.Proofs.Acceptance
import IppCode.Proofs.Earliest
import IppCode.Proofs.WellFormed
import IppCode.Proofs.RoundTrip
import IppCode.Proofs.Continuation
import IppCode.Proofs.Delivery
import IppCode.Proofs.Numbering
import IppCode.Proofs.Terminators
import IppCode.Proofs.Outline
import IppCode.Proofs.Outcomes
import IppCode.Proofs.Kinds
import IppCode.Proofs.EscapeScan
import IppCode.Proofs.Entities
import IppCode.Proofs.Precedence
import IppCode.Proofs.Log
import IppCode.Proofs.Spacing
import IppCode.Proofs.Interruption
import IppCode.Proofs.Encoding
import IppCode.Proofs.Diagnostics
