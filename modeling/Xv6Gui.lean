import Xv6Gui.GuardedRuns
import Xv6Gui.TransducerRuns
import Xv6Gui.LinkedSlots
import Xv6Gui.RingQueue
import Xv6Gui.WindowManagerState
import Xv6Gui.WindowManager
import Xv6Gui.MessageQueues
import Xv6Gui.WindowManagerSteps
import Xv6Gui.WindowMessages
import Xv6Gui.DockClicks
import Xv6Gui.WindowMessageOutcomes
import Xv6Gui.MessageDeliveries
import Xv6Gui.WindowSessions
import Xv6Gui.WindowCallSafety
import Xv6Gui.WindowListInvariant
import Xv6Gui.WindowFocusVisibility
import Xv6Gui.PopupOwnership
import Xv6Gui.PopupQueueRaces
import Xv6Gui.CursorCoordinates
import Xv6Gui.WindowGestures
import Xv6Gui.WindowSizes
import Xv6Gui.ProcessTable
import Xv6Gui.ProcessFamilies
import Xv6Gui.KilledProcesses
import Xv6Gui.WindowProcessLifetime
import Xv6Gui.FileTable
import Xv6Gui.FileReferences
import Xv6Gui.Pipes
import Xv6Gui.PipeBytes
import Xv6Gui.PipeWakeups
import Xv6Gui.DiskLog
import Xv6Gui.LogRecovery
import Xv6Gui.LogGroupCommit
import Xv6Gui.CommitIsolation
import Xv6Gui.LogCapacity
import Xv6Gui.LinkedRings
import Xv6Gui.BufferCache
import Xv6Gui.BufferDemand
import Xv6Gui.Directories
import Xv6Gui.FileSystem
import Xv6Gui.FileSystemSpecs
import Xv6Gui.FailedCalls
import Xv6Gui.CountedTrees
import Xv6Gui.DirectoryTree
import Xv6Gui.HeldInodes
import Xv6Gui.LinkCounts
import Xv6Gui.FileContents
import Xv6Gui.EditorSaves
import Xv6Gui.InodeCache
import Xv6Gui.InodeReferences
import Xv6Gui.UserWidgets
import Xv6Gui.WidgetList
import Xv6Gui.MouseDriver
import Xv6Gui.MousePackets
import Xv6Gui.MouseMessages
import Xv6Gui.WordMemory
import Xv6Gui.ExecArguments
import Xv6Gui.IdeDriver
import Xv6Gui.DiskBlocks
import Xv6Gui.Ledgers
import Xv6Gui.BlockMaps
import Xv6Gui.BlockOwnership
import Xv6Gui.BlockMapping
import Xv6Gui.FileBlocks
import Xv6Gui.FileWrites
import Xv6Gui.BlockRuns
import Xv6Gui.SharedWrites
import Xv6Gui.SlotMaps
import Xv6Gui.BoundedStrings
import Xv6Gui.DirectoryFiles
import Xv6Gui.MkfsImage
import Xv6Gui.MkfsAppends
import Xv6Gui.MkfsFiles
import Xv6Gui.Console
import Xv6Gui.ConsoleInput
import Xv6Gui.WrappedText
import Xv6Gui.TextLayouts
import Xv6Gui.InputFields
import Xv6Gui.WidgetDispatch
import Xv6Gui.KeyFocus
import Xv6Gui.RowMajor
import Xv6Gui.RectOutlines
import Xv6Gui.WindowFrames
import Xv6Gui.WindowPresses
import Xv6Gui.WindowTitles
import Xv6Gui.CircularLists
import Xv6Gui.UserMalloc
import Xv6Gui.FreeLists
import Xv6Gui.Allocations
import Xv6Gui.MallocRuns
import Xv6Gui.ShellParser
import Xv6Gui.ShellTokens
import Xv6Gui.ShellRenderings
import Xv6Gui.Bitmaps
import Xv6Gui.BreakLoops
import Xv6Gui.ByteCopies
import Xv6Gui.PixelBuffers
import Xv6Gui.GlyphDrawing
import Xv6Gui.ImageCopies
import Xv6Gui.WindowImages
import Xv6Gui.ScreenImages
import Xv6Gui.ScreenDrawing
import Xv6Gui.TextPositions
import Xv6Gui.EditorRefinement
import Xv6Gui.WindowStacking
import Xv6Gui.DockLayout
import Xv6Gui.TitleDrags
import Xv6Gui.EditorScrolling
import Xv6Gui.ExplorerPaths
import Xv6Gui.ShellOutput
import Xv6Gui.PageEntries
import Xv6Gui.PageTables
import Xv6Gui.PageViews
import Xv6Gui.PageOwnership
import Xv6Gui.PageMappings
import Xv6Gui.UserMemory
import Xv6Gui.ProcessGrowth
import Xv6Gui.AddressSpaces
import Xv6Gui.SpaceCopies
import Xv6Gui.CopyOut
import Xv6Gui.ExecImages
import Xv6Gui.ExecStacks
import Xv6Gui.PathNames
import Xv6Gui.LoggedWrites
import Xv6Gui.MemoryMoves
import Xv6Gui.MpTables
import Xv6Gui.InodeSharing
import Xv6Gui.PageRemovals
import Xv6Gui.RangeMappings
import Xv6Gui.ShellTerminators
import Xv6Gui.ShellAccesses
import Xv6Gui.MallocRequests
import Xv6Gui.SpinLocks
import Xv6Gui.Scheduling
import Xv6Gui.SchedulingSafety
import Xv6Gui.SchedulingRefinement
import Xv6Gui.SleepChannels
import Xv6Gui.SleepLocks
import Xv6Gui.FreePages
import Xv6Gui.Grep
import Xv6Gui.Keyboard
