import ToyOS.Lib.Loop
import ToyOS.Lib.Bits
import ToyOS.Lib.Words
import ToyOS.Lib.Runs
import ToyOS.Lib.Ownership
import ToyOS.Lib.CStrings
import ToyOS.Lib.Overlay
import ToyOS.Lib.FirstHit
import ToyOS.Lib.Tiles
import ToyOS.Lib.Ring
import ToyOS.Lib.Rotation
import ToyOS.Lib.Provision
import ToyOS.Lib.Slices
import ToyOS.Lib.Walks
import ToyOS.Lib.Stacks
import ToyOS.Lib.Grid
import ToyOS.Lib.Pathmaps
import ToyOS.Lib.Typing
import ToyOS.Ramdisk.Image
import ToyOS.Ramdisk.Blocks
import ToyOS.Ramdisk.Places
import ToyOS.Ramdisk.Allocation
import ToyOS.Ramdisk.Bitmap
import ToyOS.Ramdisk.Ownership
import ToyOS.Ramdisk.Growth
import ToyOS.Ramdisk.Release
import ToyOS.Ramdisk.Trees
import ToyOS.Ramdisk.Paths
import ToyOS.Ramdisk.Components
import ToyOS.Ramdisk.Lookup
import ToyOS.Ramdisk.Directories
import ToyOS.Ramdisk.Slots
import ToyOS.Ramdisk.Scanning
import ToyOS.Ramdisk.Clearing
import ToyOS.Ramdisk.Namespace
import ToyOS.Ramdisk.Creating
import ToyOS.Ramdisk.Removing
import ToyOS.Ramdisk.Unlinking
import ToyOS.Ramdisk.Descriptors
import ToyOS.Ramdisk.Write
import ToyOS.Ramdisk.Read
import ToyOS.Ramdisk.Writing
import ToyOS.Ramdisk.System
import ToyOS.Ramdisk.Effects
import ToyOS.Ramdisk.BlockOwnership
import ToyOS.Ramdisk.FreeCount
import ToyOS.Ramdisk.Leaks
import ToyOS.Ramdisk.FullDirectory
import ToyOS.Ramdisk.Atomicity
import ToyOS.Ramdisk.Frames
import ToyOS.Ramdisk.Integrity
import ToyOS.Ramdisk.Files
import ToyOS.Ramdisk.Ranges
import ToyOS.Ramdisk.Storing
import ToyOS.Ramdisk.Opened
import ToyOS.Ramdisk.Contents
import ToyOS.Ramdisk.Chunking
import ToyOS.Ramdisk.Overwriting
import ToyOS.Ramdisk.Tables
import ToyOS.Ramdisk.Discipline
import ToyOS.Ramdisk.Isolation
import ToyOS.Ramdisk.Fetching
import ToyOS.Ramdisk.ReadBuffer
import ToyOS.Ramdisk.BufferBounds
import ToyOS.Ramdisk.Records
import ToyOS.Ramdisk.Catalog
import ToyOS.Ramdisk.Supply
import ToyOS.Ramdisk.Counting
import ToyOS.Ramdisk.Binding
import ToyOS.Ramdisk.Confined
import ToyOS.Ramdisk.Cursors
import ToyOS.Ramdisk.Reading
import ToyOS.Ramdisk.Reclaiming
import ToyOS.Ramdisk.Access
import ToyOS.Ramdisk.UserLookup
import ToyOS.Ramdisk.Versions
import ToyOS.Ramdisk.Uninitialised
import ToyOS.Ramdisk.Sizes
import ToyOS.Ramdisk.Accounting
import ToyOS.Ramdisk.Chains
import ToyOS.Ramdisk.Exclusive
import ToyOS.Ramdisk.LongNames
import ToyOS.Ramdisk.Route
import ToyOS.Ramdisk.ShortWrites
import ToyOS.Ramdisk.WriteCounts
import ToyOS.Ramdisk.ReadBack
import ToyOS.Ramdisk.RoundTrip
import ToyOS.Ramdisk.Resolving
import ToyOS.Ramdisk.Entering
import ToyOS.Ramdisk.Totals
import ToyOS.Ramdisk.Deleting
import ToyOS.Ramdisk.Capacity
import ToyOS.Ramdisk.Hierarchy
import ToyOS.Ramdisk.Grafting
import ToyOS.Ramdisk.Pruning
import ToyOS.Ramdisk.Purpose
import ToyOS.Ramdisk.Representation
import ToyOS.Ramdisk.Refinement
import ToyOS.Ramdisk.Ioctl
import ToyOS.Ramdisk.Library
import ToyOS.Ramdisk.Service
import ToyOS.Heap.Memory
import ToyOS.Heap.Layout
import ToyOS.Heap.Blocks
import ToyOS.Heap.Allocation
import ToyOS.Heap.Clients
import ToyOS.Heap.Untouched
import ToyOS.Heap.Freeing
import ToyOS.Heap.Requests
import ToyOS.Threads.Queue
import ToyOS.Threads.Scheduler
import ToyOS.Threads.Bookkeeping
import ToyOS.Threads.RoundRobin
import ToyOS.Threads.Preemption
import ToyOS.Threads.Exits
import ToyOS.Threads.Registers
import ToyOS.Threads.Contexts
import ToyOS.Threads.StackBlocks
import ToyOS.Boot.Screen
import ToyOS.Boot.Startup
import ToyOS.Boot.Hexadecimal
import ToyOS.Boot.MemoryMap
import ToyOS.Boot.Interrupts
import ToyOS.Ramdisk.TwoVersions
