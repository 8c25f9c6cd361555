import PetKernel.Library.Machine
import PetKernel.Library.StackMachine
import PetKernel.Library.Tiling
import PetKernel.Library.BitField
import PetKernel.Library.Ledger
import PetKernel.Library.DyadicPartition
import PetKernel.Library.RadixTable
import PetKernel.Library.Threads
import PetKernel.Library.LinkedChain
import PetKernel.Library.ChainArray
import PetKernel.Library.Ring
import PetKernel.Library.RingFamily
import PetKernel.Library.Window
import PetKernel.SyncTools.Spinlock
import PetKernel.SyncTools.RwLock
import PetKernel.SyncTools.RwLockProgress
import PetKernel.SyncTools.Barrier
import PetKernel.SyncTools.BarrierClient
import PetKernel.SyncTools.LfQueue
import PetKernel.SyncTools.LfEnqueue
import PetKernel.SyncTools.LfEntries
import PetKernel.SyncTools.LfQueueFifo
import PetKernel.SyncTools.LfQueueProgress
import PetKernel.SyncTools.LfQueueSequential
import PetKernel.SyncTools.LfQueueReclaim
import PetKernel.SyncTools.LfQueueLifetime
import PetKernel.UserThreads.PetList
import PetKernel.UserThreads.PetThread
import PetKernel.UserThreads.Scheduler
import PetKernel.UserThreads.Calls
import PetKernel.UserThreads.Runs
import PetKernel.UserThreads.Partition
import PetKernel.UserThreads.Join
import PetKernel.UserThreads.Completion
import PetKernel.UserThreads.Fairness
import PetKernel.UserThreads.ContextSwitch
import PetKernel.UserThreads.Reuse
import PetKernel.UserThreads.Reclaim
import PetKernel.UserThreads.LostWaiters
import PetKernel.UserThreads.LinkedThreads
import PetKernel.VirtualMemory.MemMap
import PetKernel.VirtualMemory.LiveAllocations
import PetKernel.VirtualMemory.LazyAlloc
import PetKernel.VirtualMemory.Buddy
import PetKernel.VirtualMemory.BuddyInvariant
import PetKernel.VirtualMemory.BuddyRuns
import PetKernel.VirtualMemory.Pools
import PetKernel.VirtualMemory.PoolSearch
import PetKernel.VirtualMemory.PageTable
import PetKernel.VirtualMemory.PageWalk
import PetKernel.VirtualMemory.Processor
import PetKernel.VirtualMemory.TableEntries
import PetKernel.VirtualMemory.EntryBits
import PetKernel.VirtualMemory.FreedFrames
import PetKernel.VirtualMemory.PoolFrames
import PetKernel.VirtualMemory.AddMemory
import PetKernel.VirtualMemory.System
import PetKernel.VirtualMemory.Tlb
import PetKernel.VirtualMemory.TablePages
import PetKernel.VirtualMemory.WalkEnd
import PetKernel.VirtualMemory.TableRelease
import PetKernel.VirtualMemory.NodeList
import PetKernel.VirtualMemory.Teardown
import PetKernel.VirtualMemory.FrameExclusivity
import PetKernel.VirtualMemory.UserMemory
import PetKernel.VirtualMemory.BlockSearch
import PetKernel.VirtualMemory.Offlining
import PetKernel.HashTable.Table
import PetKernel.HashTable.Chains
import PetKernel.HashTable.Growth
import PetKernel.HashTable.Operations
import PetKernel.HashTable.Refinement
import PetKernel.HashTable.Iterator
import PetKernel.HashTable.Traversal
