import LockFree.Aba.Fixed.Exceptions
import LockFree.Aba.Fixed.Pinning
import LockFree.Aba.Fixed.Progress
import LockFree.Aba.Detect.Detector
import LockFree.Aba.Raw.Reuse
import LockFree.Boost.Conservation
import LockFree.Relacy.Coherence
import LockFree.Relacy.Explore
import LockFree.Transfer.OneDebtor
import LockFree.Relacy.Yields
import LockFree.Relacy.Scheduled
import LockFree.Relacy.Mutex
