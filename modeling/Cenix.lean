import Cenix.AddressSpace.Atomicity
import Cenix.AddressSpace.ThreadIds
import Cenix.AddressSpace.ThreadTables
import Cenix.Bflt.Bounds
import Cenix.Bflt.Loader
import Cenix.Bflt.Placement
import Cenix.Bflt.Relocation
import Cenix.Capabilities.Attenuation
import Cenix.Capabilities.Authority
import Cenix.Capabilities.Badges
import Cenix.Capabilities.Booting
import Cenix.Capabilities.Confinement
import Cenix.Capabilities.CopyMove
import Cenix.Capabilities.Deletion
import Cenix.Capabilities.Derivations
import Cenix.Capabilities.EmptySources
import Cenix.Capabilities.LookUps
import Cenix.Capabilities.Moves
import Cenix.Capabilities.NewObjects
import Cenix.Capabilities.NodeTrees
import Cenix.Capabilities.Operations
import Cenix.Capabilities.OrderedLists
import Cenix.Capabilities.Readdressing
import Cenix.Capabilities.ResourceRuns
import Cenix.Capabilities.Resources
import Cenix.Capabilities.Revocation
import Cenix.Capabilities.RevokedTrees
import Cenix.Capabilities.SharedResources
import Cenix.Capabilities.StaleLists
import Cenix.Capabilities.TransferPhases
import Cenix.Capabilities.Walks
import Cenix.Common.Copying
import Cenix.Common.Filling
import Cenix.Console.Drawing
import Cenix.Console.Terminal
import Cenix.Console.Video
import Cenix.Endpoint.BlockedThreads
import Cenix.Endpoint.Blocking
import Cenix.Endpoint.BlockingCalls
import Cenix.Endpoint.Delivery
import Cenix.Endpoint.Destruction
import Cenix.Endpoint.Relocation
import Cenix.Endpoint.Transfers
import Cenix.FileProtocol.Agreement
import Cenix.FileProtocol.Fields
import Cenix.FileProtocol.Stubs
import Cenix.Grafting
import Cenix.Heap.Allocation
import Cenix.Heap.Chains
import Cenix.Heap.CleanLocking
import Cenix.Heap.Completeness
import Cenix.Heap.Edits
import Cenix.Heap.Evacuation
import Cenix.Heap.Evolution
import Cenix.Heap.Freeing
import Cenix.Heap.Fuel
import Cenix.Heap.Gaps
import Cenix.Heap.Headers
import Cenix.Heap.Holders
import Cenix.Heap.LockedRegions
import Cenix.Heap.Locking
import Cenix.Heap.LockingConditions
import Cenix.Heap.MemoryMap
import Cenix.Heap.Moving
import Cenix.Heap.Regions
import Cenix.Heap.Relocating
import Cenix.Heap.Reserving
import Cenix.Heap.Searching
import Cenix.Heap.Sizes
import Cenix.Heap.Soundness
import Cenix.Heap.Spans
import Cenix.Heap.Stages
import Cenix.Heap.StrayLinks
import Cenix.Heap.Termination
import Cenix.Heap.Trapping
import Cenix.Heap.Unlinking
import Cenix.InitrdFs.Directories
import Cenix.InitrdFs.ExactListing
import Cenix.InitrdFs.Files
import Cenix.InitrdFs.Listing
import Cenix.InitrdFs.MainLoop
import Cenix.InitrdFs.Messages
import Cenix.InitrdFs.Opening
import Cenix.InitrdFs.Reading
import Cenix.InitrdFs.UntrustedArchives
import Cenix.Interrupts.Layout
import Cenix.Interrupts.Registers
import Cenix.Interrupts.SystemCalls
import Cenix.Interrupts.Trampoline
import Cenix.Interrupts.UserMode
import Cenix.Jax.Archive
import Cenix.Jax.Finding
import Cenix.JaxTool.Appending
import Cenix.JaxTool.Host
import Cenix.JaxTool.RoundTrip
import Cenix.Kernel.Capabilities
import Cenix.Kernel.Frames
import Cenix.Kernel.Heap
import Cenix.Kernel.Ipc
import Cenix.Kernel.LookUp
import Cenix.Kernel.Node
import Cenix.Kernel.Scheduler
import Cenix.Kernel.State
import Cenix.Kernel.Threads
import Cenix.Kernel.Untyped
import Cenix.LinkedLists.Container
import Cenix.LinkedLists.Families
import Cenix.LinkedLists.Fifo
import Cenix.LinkedLists.Lines
import Cenix.LinkedLists.ListedOrder
import Cenix.LinkedLists.NoContainer
import Cenix.LinkedLists.Ordered
import Cenix.LinkedLists.OrderedInsertions
import Cenix.LinkedLists.PointerWalks
import Cenix.LinkedLists.Queues
import Cenix.LinkedLists.Renaming
import Cenix.LinkedLists.Segment
import Cenix.LinkedLists.StaleLinks
import Cenix.ProcessServer.EarlyInit
import Cenix.ProcessServer.Execution
import Cenix.ProcessServer.Launching
import Cenix.ProcessServer.Pids
import Cenix.ProcessServer.Starting
import Cenix.Programs.Triple
import Cenix.RoundRobin
import Cenix.Runs
import Cenix.Scheduler.Continuity
import Cenix.Scheduler.Fairness
import Cenix.Scheduler.InLine
import Cenix.Scheduler.Interleavings
import Cenix.Scheduler.Runqueues
import Cenix.Scheduler.Switching
import Cenix.Searches
import Cenix.TracedMemory
import Cenix.Untyped.Locks
import Cenix.Vfs.Asking
import Cenix.Vfs.Bitsets
import Cenix.Vfs.Constructors
import Cenix.Vfs.Creation
import Cenix.Vfs.Descriptors
import Cenix.Vfs.Directories
import Cenix.Vfs.DirectoryIds
import Cenix.Vfs.Emissions
import Cenix.Vfs.Footprints
import Cenix.Vfs.Layout
import Cenix.Vfs.Leftovers
import Cenix.Vfs.Main
import Cenix.Vfs.Messages
import Cenix.Vfs.MountAtomicity
import Cenix.Vfs.MountLists
import Cenix.Vfs.MountPoints
import Cenix.Vfs.MountTables
import Cenix.Vfs.MountedLists
import Cenix.Vfs.NamespaceTables
import Cenix.Vfs.Namespaces
import Cenix.Vfs.Opening
import Cenix.Vfs.Outcomes
import Cenix.Vfs.Permissions
import Cenix.Vfs.Processes
import Cenix.Vfs.ReadOnly
import Cenix.Vfs.References
import Cenix.Vfs.Rounds
import Cenix.Vfs.Routing
import Cenix.Vfs.Server
import Cenix.Vfs.Structures
import Cenix.Vfs.SystemCalls
import Cenix.Vfs.Totality
import Cenix.Vfs.Union
import Cenix.Vfs.UnionDirectories
import Cenix.WordMemory
