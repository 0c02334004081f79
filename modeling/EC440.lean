import EC440.Lib.Arr
import EC440.Lib.Words
import EC440.Lib.Loop
import EC440.Lib.Owned
import EC440.Lib.Pool
import EC440.Lib.Run
import EC440.FileSystems.Types
import EC440.FileSystems.Bitmap
import EC440.FileSystems.State
import EC440.FileSystems.Names
import EC440.FileSystems.Directory
import EC440.FileSystems.Read
import EC440.FileSystems.Truncate
import EC440.FileSystems.Write
import EC440.FileSystems.Calls
import EC440.FileSystems.Image
import EC440.FileSystems.Sessions
import EC440.FileSystems.WriteRule
import EC440.FileSystems.WriteFacts
import EC440.FileSystems.DirectoryInv
import EC440.FileSystems.Ownership
import EC440.FileSystems.Ledger
import EC440.FileSystems.ReadFacts
import EC440.FileSystems.Descriptors
import EC440.FileSystems.Blocks
import EC440.FileSystems.TruncateBlocks
import EC440.FileSystems.Metadata
import EC440.FileSystems.Append
import EC440.FileSystems.Stream
import EC440.FileSystems.FileLife
import EC440.Lib.Prog
import EC440.Tls.Access
import EC440.Lib.Refs
import EC440.Tls.Invariant
import EC440.Tls.Segments
import EC440.Tls.Sharing
import EC440.Tls.Transfer
import EC440.Tls.Private
import EC440.Tls.Destroy
import EC440.Tls.Separate
import EC440.Tls.Race
import EC440.Lib.History
import EC440.Lib.Ring
import EC440.ThreadSync.Calls
import EC440.ThreadSync.Scheduler
import EC440.ThreadSync.Effects
import EC440.ThreadSync.Invariant
import EC440.ThreadSync.Circular
import EC440.ThreadSync.Bypass
import EC440.ThreadSync.Counts
import EC440.ThreadSync.Returns
import EC440.ThreadSync.Mutex
import EC440.ThreadSync.Barrier
import EC440.ThreadSync.Unwoken
import EC440.ThreadSync.Preempt
import EC440.ThreadSync.Contexts
import EC440.ThreadSync.Waiters
import EC440.ThreadSync.Linking
import EC440.ThreadLibrary.Calls
import EC440.ThreadLibrary.Reach
import EC440.SimpleShell.Parser
import EC440.SimpleShell.Render
import EC440.SimpleShell.RoundTrip
import EC440.FileSystems.Lookup
import EC440.FileSystems.TableOffsets
import EC440.FileSystems.EndOfFile
import EC440.FileSystems.DirectWrite
import EC440.FileSystems.Overwrite
import EC440.FileSystems.ShortWrite
import EC440.FileSystems.WriteFrame
import EC440.FileSystems.KeptPrefix
import EC440.SimpleShell.Lexer
import EC440.SimpleShell.Commands
import EC440.SimpleShell.Wellformed
import EC440.SimpleShell.Heap
import EC440.FileSystems.DirectoryCalls
import EC440.Tls.Bounds
import EC440.Tls.FailedCreate
import EC440.Tls.Release
import EC440.ThreadSync.Order
import EC440.SimpleShell.Room
import EC440.FileSystems.Allocator
import EC440.Lib.Align
import EC440.Tls.Faults
import EC440.Lib.Files
import EC440.SimpleShell.Shell
import EC440.SimpleShell.Wiring
import EC440.FileSystems.Store
import EC440.FileSystems.Stored
import EC440.FileSystems.Simulation
import EC440.FileSystems.Refinement
import EC440.Lib.Chain
import EC440.SimpleShell.Free
import EC440.SimpleShell.Main
import EC440.SimpleShell.Jobs
import EC440.Lib.Turns
import EC440.ThreadSync.Kernel
import EC440.ThreadSync.Refinement
import EC440.ThreadSync.Identity
import EC440.ThreadLibrary.RoundRobin
import EC440.Tls.Leaks
import EC440.Tls.Process
import EC440.FileSystems.Crash
