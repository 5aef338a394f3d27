import StackLang.Command.Disk
import StackLang.Command.Lister
import StackLang.Main
import StackLang.Proofs.Lowering.Accepted
import StackLang.Proofs.Lowering.Footprint
import StackLang.Proofs.Lowering.Listed
import StackLang.Proofs.Lowering.Powers
import StackLang.Proofs.Lowering.VariableNames
import StackLang.Proofs.Lowering.Verified
import StackLang.Proofs.Meaning.Preservation
import StackLang.Proofs.Session.Layout
import StackLang.Proofs.Session.Names
import StackLang.Proofs.Session.Nesting
import StackLang.Proofs.Source.Direct
import StackLang.Proofs.Source.Munch
import StackLang.Proofs.Source.ReadBack
import StackLang.Proofs.Source.Recorded
import StackLang.Proofs.Source.Refused
import StackLang.Proofs.Source.Rewinding
import StackLang.Proofs.Source.Unbounded
import StackLang.Proofs.Target.RoundTrip
import StackLang.Proofs.Target.Tiling
import StackLang.Proofs.Target.Writable
import StackLang.Source.Outline
