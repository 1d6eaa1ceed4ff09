import Crono.FallibleLists
import Crono.SqlTable
import Crono.TransitionSystem
import Crono.RankedGraph
import Crono.OrderedMap
import Crono.RunDomain
import Crono.WorkflowDomain
import Crono.ControlPlaneSchema
import Crono.WorkflowGraph
import Crono.StoredValues
import Crono.RunStore
import Crono.WorkflowStore
import Crono.ControlPlane
import Crono.StoreWrites
import Crono.StoreHistory
import Crono.RequestTable
import Crono.RunLifecycle
import Crono.RunCoupling
import Crono.ExecutionGrants
import Crono.RunTimeline
import Crono.TerminalRuns
import Crono.DispatchNetwork
import Crono.DispatchDelivery
import Crono.DispatchRouting
import Crono.RequestCalls
import Crono.RunRequests
import Crono.RequestAnswers
import Crono.WorkflowNodes
import Crono.WorkflowPhases
import Crono.WorkflowEvents
import Crono.WorkflowMoves
import Crono.WorkflowActivation
import Crono.WorkflowPasses
import Crono.WorkflowLaunches
import Crono.WorkflowProgress
import Crono.WorkflowExecutions
import Crono.WorkflowCancellation
import Crono.WorkflowOutcome
import Crono.Capabilities
import Crono.GrantSets
import Crono.GrantPolicy
import Crono.GrantDocuments
import Crono.SchedulePlanner
import Crono.ScheduleStore
import Crono.ScheduleClaims
import Crono.LossyText
import Crono.WorkerOutput
import Crono.OutputStorage
import Crono.ExecutionInputs
import Crono.InputStorage
import Crono.WorkflowCatalog
import Crono.OptimisticWrites
import Crono.ClientPrograms
import Crono.StoreReads
import Crono.ApplicationCalls
import Crono.CatalogEdits
import Crono.RunNamespaces
import Crono.GrantedRuns
import Crono.HiddenHistory
import Crono.OrderedPoints
import Crono.CronRecurrence
import Crono.ScheduleBacklog
import Crono.ScheduleMisfires
import Crono.RecursiveQuery
import Crono.WorkflowValidation
import Crono.DelimiterSearch
import Crono.ArgumentTemplates
import Crono.SequencedLog
import Crono.AttemptOutputs
import Crono.UuidText
import Crono.LiveOutput
import Crono.KeysetPages
import Crono.ListQueries
import Crono.ListTraversals
import Crono.MachineIntegers
import Crono.DispatchBackoff
import Crono.TextPatterns
import Crono.ResourceNames
import Crono.InputPaths
import Crono.ScalarPaths
import Crono.BoundaryCuts
import Crono.OutputTails
import Crono.FencedReplacement
import Crono.SecretRedaction
import Crono.RedactedContext
import Crono.RedactedOutput
import Crono.KahnTraversal
import Crono.WorkflowLayout
import Crono.WorkflowEditor
import Crono.EditedWorkflows
import Crono.RerunChains
import Crono.StampedRows
import Crono.RepairPasses
import Crono.RunProgress
import Crono.WorkerRunner
import Crono.ExecutionTimelines
import Crono.WorkerSessions
import Crono.WorkerReports
import Crono.WorkerPresence
import Crono.WorkerControl
import Crono.RunningAttempts
import Crono.WorkerConfinement
import Crono.ResourceTables
