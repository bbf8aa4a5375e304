import OperatingSystems.Machine.Basic
import OperatingSystems.Heap.Order
import OperatingSystems.Heap.PriorityQueue
import OperatingSystems.Web.Queue
import OperatingSystems.Web.Server
import OperatingSystems.Threads.Table
import OperatingSystems.Threads.View
import OperatingSystems.Threads.Effect
import OperatingSystems.Threads.Size
import OperatingSystems.Threads.Directories
import OperatingSystems.Threads.Sharing
import OperatingSystems.Sync.Dispenser
import OperatingSystems.Sorting.Comparator
import OperatingSystems.Sorting.Fastsort
import OperatingSystems.Threads.Condition
import OperatingSystems.Threads.Tickets
import OperatingSystems.Threads.Locks
import OperatingSystems.Threads.Reaping
import OperatingSystems.Files.Descriptors
import OperatingSystems.Vm.Memory
import OperatingSystems.Vm.Process
import OperatingSystems.Vm.Layout
import OperatingSystems.Vm.Arguments
import OperatingSystems.Bytes.Basic
import OperatingSystems.Bytes.Log
import OperatingSystems.Mfs.Format
import OperatingSystems.Mfs.Server
import OperatingSystems.Mfs.Image
import OperatingSystems.Mfs.Loading
import OperatingSystems.Mfs.Storage
import OperatingSystems.Mfs.Entries
import OperatingSystems.Mfs.Effects
import OperatingSystems.Mfs.Insertion
import OperatingSystems.Mfs.Creation
import OperatingSystems.Mfs.Writing
import OperatingSystems.Names.Tree
import OperatingSystems.Mfs.Directory
import OperatingSystems.Mfs.Search
import OperatingSystems.Mfs.Reachable
import OperatingSystems.Mfs.Requests
import OperatingSystems.Mfs.Lookups
import OperatingSystems.Mfs.Hierarchy
import OperatingSystems.Mfs.Removal
import OperatingSystems.Mfs.Freeing
import OperatingSystems.Mfs.Accesses
import OperatingSystems.Mfs.Bounds
import OperatingSystems.Rpc.Datagram
import OperatingSystems.Mfs.Client
import OperatingSystems.Mfs.Resending
import OperatingSystems.Web.Wakeups
import OperatingSystems.Web.Fifo
import OperatingSystems.Shell.Foreground
import OperatingSystems.Shell.Restoring
import OperatingSystems.Sched.Ticks
import OperatingSystems.Web.Request
import OperatingSystems.Web.Service
import OperatingSystems.Links.Doubly
import OperatingSystems.Mem.Allocator
import OperatingSystems.Mem.Headers
import OperatingSystems.Mem.Search
import OperatingSystems.Tiling.Basic
import OperatingSystems.Mem.Invariant
import OperatingSystems.Mem.Coalesce
import OperatingSystems.Mem.Calls
import OperatingSystems.Mem.Runs
import OperatingSystems.Mem.Blocks
import OperatingSystems.Mem.Failures
import OperatingSystems.Mfs.Restart
import OperatingSystems.Bytes.Pages
import OperatingSystems.Fs.Inode
import OperatingSystems.Fs.Layout
import OperatingSystems.Fs.Mapping
import OperatingSystems.Fs.Transfer
import OperatingSystems.Fs.Calls
import OperatingSystems.Fs.Checked
import OperatingSystems.Fs.Durability
import OperatingSystems.Fs.Release
import OperatingSystems.Fs.Detection
import OperatingSystems.Fs.Stat
import OperatingSystems.Fs.Places
import OperatingSystems.Fs.Answers
import OperatingSystems.Fs.Volume
import OperatingSystems.Weights.Basic
import OperatingSystems.Sched.Lottery
import OperatingSystems.Vm.Acceptance
import OperatingSystems.Custody.Basic
import OperatingSystems.Vm.Frames
import OperatingSystems.Vm.Growth
import OperatingSystems.Vm.Faults
import OperatingSystems.Vm.Copying
import OperatingSystems.Vm.Forking
import OperatingSystems.Threads.Cloning
import OperatingSystems.Vm.Paging
import OperatingSystems.Vm.Tables
import OperatingSystems.Vm.Duplicate
import OperatingSystems.Threads.Writes
import OperatingSystems.Stages.Basic
import OperatingSystems.Vm.Exec
import OperatingSystems.Vm.Segments
import OperatingSystems.Vm.Pushing
import OperatingSystems.Vm.Replacing
import OperatingSystems.Vm.System
import OperatingSystems.Vm.Ownership
import OperatingSystems.Links.Circular
import OperatingSystems.Cover.Basic
import OperatingSystems.Umalloc.Allocator
import OperatingSystems.Umalloc.FreeList
import OperatingSystems.Umalloc.Malloc
import OperatingSystems.Umalloc.Accounts
import OperatingSystems.Umalloc.Stacks
import OperatingSystems.Sched.Passes
import OperatingSystems.Sched.Pinfo
import OperatingSystems.Lehmer.Basic
import OperatingSystems.Sched.Generator
import OperatingSystems.Web.Smallest
import OperatingSystems.Streams.Lines
import OperatingSystems.Web.Headers
import OperatingSystems.Shell.CommandLines
import OperatingSystems.Mfs.Sizes
import OperatingSystems.Mfs.Numbering
import OperatingSystems.Mfs.Atomic
import OperatingSystems.Mfs.RoundTrip
import OperatingSystems.Mfs.Emptiness
import OperatingSystems.Links.Ring
import OperatingSystems.Stores.Exclusive
import OperatingSystems.Bio.Cache
import OperatingSystems.Bio.Steps
import OperatingSystems.Bio.Invariant
import OperatingSystems.Bio.Recency
import OperatingSystems.Bio.Durable
import OperatingSystems.Bio.Coherence
import OperatingSystems.Bio.Progress
import OperatingSystems.Queues.Counters
import OperatingSystems.Pipes.Pipe
import OperatingSystems.Pipes.Steps
import OperatingSystems.Pipes.Ends
import OperatingSystems.Pipes.Stream
import OperatingSystems.Pipes.Wakeups
import OperatingSystems.Sh.Lexer
import OperatingSystems.Sh.Parser
import OperatingSystems.Sh.Grammar
import OperatingSystems.Sh.Loops
import OperatingSystems.Sh.Correctness
import OperatingSystems.Sh.Strings
import OperatingSystems.Sh.Spelling
import OperatingSystems.Consoles.Console
import OperatingSystems.Consoles.Terminal
import OperatingSystems.Consoles.Stream
import OperatingSystems.Grep.Pattern
import OperatingSystems.Dirs.Entries
import OperatingSystems.Dirs.Fields
import OperatingSystems.Dirs.Calls
import OperatingSystems.Dirs.Invariant
import OperatingSystems.Dirs.Memory
import OperatingSystems.Dirs.Links
import OperatingSystems.Dirs.Steps
import OperatingSystems.Dirs.Runs
import OperatingSystems.Dirs.Names
import OperatingSystems.Dirs.Progress
