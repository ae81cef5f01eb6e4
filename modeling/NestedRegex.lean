import NestedRegex.Command.FileTree
import NestedRegex.Main
import NestedRegex.Match.Text
import NestedRegex.Pattern.Text
import NestedRegex.Program.Text
import NestedRegex.Proofs.Command.Readable
import NestedRegex.Proofs.Forest.Copies
import NestedRegex.Proofs.Machine.Alike
import NestedRegex.Proofs.Machine.Forward
import NestedRegex.Proofs.Machine.Order
import NestedRegex.Proofs.Machine.Undoing
import NestedRegex.Proofs.Match.Commutes
import NestedRegex.Proofs.Match.Cycles
import NestedRegex.Proofs.Match.NewContent
import NestedRegex.Proofs.Match.Stale
import NestedRegex.Proofs.Match.Surrounds
import NestedRegex.Proofs.Match.Symmetry
import NestedRegex.Proofs.Pass.Blocks
import NestedRegex.Proofs.Pass.Flipping
import NestedRegex.Proofs.Pass.Recasing
import NestedRegex.Proofs.Pass.Repeats
import NestedRegex.Proofs.Pass.Stable
import NestedRegex.Proofs.Pattern.FirstFlaw
import NestedRegex.Proofs.Pattern.WellFormed
import NestedRegex.Proofs.Program.Slots
import NestedRegex.Proofs.Search.Anchored
import NestedRegex.Proofs.Search.Limit
import NestedRegex.Proofs.Search.Scan
import NestedRegex.Proofs.Search.Unedited
import NestedRegex.Proofs.Search.Visits
import NestedRegex.Proofs.Value.Objects
import NestedRegex.Proofs.Match.Lookup
