import LinuxUms.KernelList
import LinuxUms.RingFamily
import LinuxUms.Transition
import LinuxUms.Complist
import LinuxUms.EventQueue
import LinuxUms.Handoff
import LinuxUms.History
import LinuxUms.Device
import LinuxUms.Simulation
import LinuxUms.Refinement
import LinuxUms.Conservation
import LinuxUms.Suspension
import LinuxUms.Lifetime
import LinuxUms.References
import LinuxUms.Holders
import LinuxUms.Counting
import LinuxUms.Initialisation
import LinuxUms.Ioctl
import LinuxUms.IdleLists
import LinuxUms.Calls
import LinuxUms.CString
import LinuxUms.ProcTree
import LinuxUms.Procfs
import LinuxUms.BatchCalls
import LinuxUms.Effects
import LinuxUms.Iteration
import LinuxUms.ProcLayout
import LinuxUms.OpenDevice
import LinuxUms.Teardown
import LinuxUms.WorkerLinks
import LinuxUms.Ledger
import LinuxUms.Release
import LinuxUms.LedgerRuns
import LinuxUms.Tables
import LinuxUms.Identity
import LinuxUms.WorkerRoutine
import LinuxUms.Handlers
import LinuxUms.AtomicSections
import LinuxUms.Balance
import LinuxUms.GracePeriods
import LinuxUms.FoundObjects
import LinuxUms.Sheltered
import LinuxUms.ProcPaths
import LinuxUms.ModuleLoad
import LinuxUms.Directories
import LinuxUms.InfoFiles
import LinuxUms.LinkNames
import LinuxUms.ListIds
import LinuxUms.EnterErrors
import LinuxUms.DeviceMoves
import LinuxUms.Application
import LinuxUms.ApplicationCalls
import LinuxUms.ApplicationRuns
import LinuxUms.DeviceLists
import LinuxUms.ApplicationOrder
import LinuxUms.ApplicationResults
import LinuxUms.ApplicationProgress
import LinuxUms.ApplicationBound
import LinuxUms.StoreProgram
import LinuxUms.ListPrograms
import LinuxUms.StoreDevice
import LinuxUms.StoreRelation
import LinuxUms.StoreSteps
import LinuxUms.StoreRefinement
import LinuxUms.StoreSafety
import LinuxUms.ContextRecords
import LinuxUms.SwitchCounts
import LinuxUms.EventStore
import LinuxUms.EventStoreRelation
import LinuxUms.EventStoreRefinement
