import IpSpace.Address.Json
import IpSpace.Block.Listing
import IpSpace.Block.Navigation
import IpSpace.Block.Walk
import IpSpace.Order
import IpSpace.Range.Cover
import IpSpace.Proofs.Address.Rounding
import IpSpace.Proofs.Address.Octets
import IpSpace.Proofs.Address.Masking
import IpSpace.Proofs.Block.Interval
import IpSpace.Proofs.Block.Tiling
import IpSpace.Proofs.Block.Subnets
import IpSpace.Proofs.Range.Greedy
import IpSpace.Proofs.Range.Cover
import IpSpace.Proofs.HostMask.Stretch
import IpSpace.Proofs.HostMask.Jump
import IpSpace.Proofs.HostMask.Digit
import IpSpace.Proofs.HostMask.Bits
import IpSpace.Proofs.HostMask.Step
import IpSpace.Proofs.HostMask.Shift
import IpSpace.Proofs.HostMask.Walk
import IpSpace.Proofs.Block.Controlled
import IpSpace.Proofs.Block.Listing
import IpSpace.Proofs.Block.Ends
import IpSpace.Proofs.Block.Cursor
import IpSpace.Proofs.Block.Pool
import IpSpace.Proofs.Block.Supernet
import IpSpace.Proofs.Block.Moves
import IpSpace.Proofs.Block.Walk
import IpSpace.Proofs.Block.Usable
import IpSpace.Proofs.Block.Neighbours
import IpSpace.Proofs.Block.Adjacent
import IpSpace.Proofs.Block.Told
import IpSpace.Proofs.Block.Nesting
import IpSpace.Proofs.Block.Order
import IpSpace.Proofs.Range.Largest
import IpSpace.Proofs.Range.Trials
import IpSpace.Proofs.Range.Shape
import IpSpace.Proofs.Machine.Operation
import IpSpace.Proofs.Address.RoundTrip
import IpSpace.Proofs.Address.Json
