import Pinning.Main
import Pinning.Scalar.Rational
import Pinning.Workbench
import Pinning.Proofs.Absolute
import Pinning.Proofs.Forest
import Pinning.Proofs.Reading
import Pinning.Proofs.Admission
import Pinning.Proofs.Coordinates
import Pinning.Proofs.Idempotence
import Pinning.Proofs.Mirroring
import Pinning.Proofs.Reversal
import Pinning.Proofs.Independence
import Pinning.Proofs.Acceptance
import Pinning.Proofs.Parsing
import Pinning.Proofs.Relocation
import Pinning.Proofs.Viability
import Pinning.Proofs.Descent
import Pinning.Proofs.Layout
import Pinning.Proofs.Placement
import Pinning.Proofs.Relayout
import Pinning.Proofs.Displacement
import Pinning.Proofs.Limits
import Pinning.Proofs.Closing
import Pinning.Proofs.Pointing
import Pinning.Proofs.Story
import Pinning.Proofs.Directions
import Pinning.Proofs.Faults
import Pinning.Proofs.Outline
import Pinning.Proofs.Growth
import Pinning.Proofs.Tolerance
import Pinning.Proofs.Bounds
import Pinning.Proofs.Checked
import Pinning.Proofs.Verbosity
import Pinning.Proofs.Causes
import Pinning.Proofs.Standing
import Pinning.Proofs.Conflicts
import Pinning.Proofs.Redundancy
import Pinning.Proofs.Shrinking
import Pinning.Proofs.Beside
import Pinning.Proofs.Separation
import Pinning.Proofs.Forgetting
import Pinning.Proofs.Proportion
import Pinning.Proofs.Meeting
import Pinning.Proofs.Similarity
import Pinning.Proofs.Transposition
import Pinning.Proofs.ByteOrder
import Pinning.Proofs.Rows
import Pinning.Proofs.InPlace
import Pinning.Proofs.Edits
import Pinning.Proofs.Preference
import Pinning.Proofs.Forms
import Pinning.Proofs.Tiling
import Pinning.Proofs.Comments
import Pinning.Proofs.Marking
import Pinning.Proofs.NonFinite
import Pinning.Proofs.Container
