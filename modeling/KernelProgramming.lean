import KernelProgramming.Paging.Optimal
import KernelProgramming.Paging.Contents
import KernelProgramming.Paging.Inclusion
import KernelProgramming.Paging.LookAhead
import KernelProgramming.Paging.Furthest
import KernelProgramming.Paging.FreedWord
import KernelProgramming.Paging.Clock
import KernelProgramming.Interceptor.Bookkeeping
import KernelProgramming.Interceptor.Serializable
import KernelProgramming.Ext2.Allocator
import KernelProgramming.Ext2.Ls
import KernelProgramming.Ext2.Writing
import KernelProgramming.Ext2.MkdirFailure
import KernelProgramming.Ext2.SymlinkLookup
import KernelProgramming.Ext2.Unlink
import KernelProgramming.Ext2.BlockInsertion
import KernelProgramming.Ext2.ExactRelease
import KernelProgramming.Ext2.EmptiedBlock
import KernelProgramming.Ext2.LinkCycle
import KernelProgramming.Ext2.GrowthRuns
import KernelProgramming.Paging.Fastslim
import KernelProgramming.Paging.LoadOrder
import KernelProgramming.Paging.EvictionCounts
import KernelProgramming.Paging.BitmapSet
import KernelProgramming.Paging.SlimOutput
import KernelProgramming.Paging.LruLinks
import KernelProgramming.Interceptor.Confinement
import KernelProgramming.Paging.Competitive
import KernelProgramming.TraceProgs.Matrices
import KernelProgramming.Ext2.SoundRuns
import KernelProgramming.Interceptor.LockDiscipline
