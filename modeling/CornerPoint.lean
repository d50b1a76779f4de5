import CornerPoint.CrossCheck
import CornerPoint.Decimal.Shortest
import CornerPoint.Diagnosis
import CornerPoint.Form.Entries
import CornerPoint.Form.Printer
import CornerPoint.Form.Results
import CornerPoint.Instance
import CornerPoint.Instance.Arguments
import CornerPoint.Main
import CornerPoint.Proofs.Conflicts.Helly
import CornerPoint.Proofs.CrossCheck
import CornerPoint.Proofs.Display
import CornerPoint.Proofs.Duality
import CornerPoint.Proofs.Failure
import CornerPoint.Proofs.Framing
import CornerPoint.Proofs.Hull.Collapse
import CornerPoint.Proofs.Hull.Moments
import CornerPoint.Proofs.Instance
import CornerPoint.Proofs.Invariance
import CornerPoint.Proofs.Listing
import CornerPoint.Proofs.Loosening
import CornerPoint.Proofs.MatrixForm
import CornerPoint.Proofs.Provenance
import CornerPoint.Proofs.Spec.Literal
import CornerPoint.Proofs.Spec.Shorthand
import CornerPoint.Proofs.Tiebreak
import CornerPoint.Proofs.Window
import CornerPoint.Report
import CornerPoint.Scalar.Binary64
import CornerPoint.Scalar.Exact
import CornerPoint.Spec.Reader
