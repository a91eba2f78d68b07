import CleoKernel.RingBuf.Sequential
import CleoKernel.RingBuf.Overwrite
import CleoKernel.RingBuf.Spsc
import CleoKernel.RingBuf.Occupancy
import CleoKernel.RingBuf.Progress
import CleoKernel.RingBuf.Race
import CleoKernel.RingBuf.Back
import CleoKernel.Tlsf.Defined
import CleoKernel.Boot.Start
import CleoKernel.Boot.Console
import CleoKernel.Iterator.Reverse
import CleoKernel.Types.Packs
import CleoKernel.Types.Signedness
import CleoKernel.Types.Extents
import CleoKernel.Types.Categories
import CleoKernel.Types.Invoke
import CleoKernel.Iterator.Array
import CleoKernel.Iterator.Swap
import CleoKernel.Iterator.Convert
import CleoKernel.Iterator.Traits
import CleoKernel.Objects.Swap
import CleoKernel.Objects.Array
import CleoKernel.Tlsf.Bits
import CleoKernel.Types.Swap
import CleoKernel.Types.Concepts
import CleoKernel.Types.Forward
import CleoKernel.Types.Logical
