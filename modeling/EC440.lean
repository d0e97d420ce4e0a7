import EC440.Lib.Run
import EC440.Lib.Search
import EC440.Lib.Chain
import EC440.Lib.Count
import EC440.Lib.LittleEndian
import EC440.FileSystem.Disk
import EC440.FileSystem.Layout
import EC440.FileSystem.Fs
import EC440.FileSystem.Blocks
import EC440.FileSystem.Calls
import EC440.FileSystem.Shape
import EC440.FileSystem.Invariant
import EC440.FileSystem.Data
import EC440.FileSystem.Mount
import EC440.FileSystem.Session
import EC440.FileSystem.Persist
import EC440.FileSystem.Cycles
import EC440.FileSystem.Store
import EC440.FileSystem.Refine
import EC440.FileSystem.Leaks
import EC440.FileSystem.Offsets
import EC440.FileSystem.Stale
import EC440.FileSystem.Failures
import EC440.FileSystem.Sound
import EC440.FileSystem.Reading
import EC440.FileSystem.Allocation
import EC440.FileSystem.Deletion
import EC440.FileSystem.Truncation
import EC440.FileSystem.Bitmap
import EC440.FileSystem.Volume
import EC440.FileSystem.Crash
import EC440.FileSystem.Images
import EC440.FileSystem.Lookup
import EC440.Lib.Loop
import EC440.Lib.Text
import EC440.Lib.CString
import EC440.Lib.Descriptors
import EC440.Lib.RefCount
import EC440.Tls.Memory
import EC440.Tls.Tls
import EC440.Tls.Table
import EC440.Tls.Pages
import EC440.Tls.Index
import EC440.Tls.Steps
import EC440.Tls.Copy
import EC440.Tls.Write
import EC440.Tls.Access
import EC440.Tls.Lifetime
import EC440.Tls.Counts
import EC440.Tls.Bounds
import EC440.Tls.Granularity
import EC440.Tls.FiniteMap
import EC440.Tls.Isolation
import EC440.Tls.Protection
import EC440.Tls.Fault
import EC440.Tls.Program
import EC440.Threads.Scheduler
import EC440.Threads.Library
import EC440.Threads.Mutex
import EC440.Threads.Waiters
import EC440.Threads.Barrier
import EC440.Threads.Rounds
import EC440.Threads.BarrierRuns
import EC440.Threads.Release
import EC440.Threads.RoundRobin
import EC440.Threads.Opening
import EC440.Threads.LastExit
import EC440.Threads.Slots
import EC440.Threads.WaitQueue
import EC440.Threads.Line
import EC440.Threads.Mutexes
import EC440.Threads.MutexCalls
import EC440.Threads.MutexLines
import EC440.Lib.Words
import EC440.Threads.Context
import EC440.Shell.Parser
import EC440.Shell.Erase
import EC440.Shell.Link
import EC440.Shell.Build
import EC440.Shell.Robust
import EC440.Shell.Free
import EC440.Shell.Lines
import EC440.Shell.Redirects
import EC440.Shell.Wiring
import EC440.Shell.Tokens
import EC440.Shell.Tight
import EC440.Shell.Spacing
import EC440.Shell.Processes
import EC440.Shell.PipeEnds
import EC440.Shell.Script
