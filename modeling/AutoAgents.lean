import AutoAgents.StoreStatus
import AutoAgents.StoreContracts
import AutoAgents.LedgerFencing
import AutoAgents.LedgerAccounting
import AutoAgents.DeliveryRecovery
import AutoAgents.DeliveryConsistency
import AutoAgents.MigrationForest
import AutoAgents.EngineBounds
import AutoAgents.ProjectCancellation
import AutoAgents.EngineCalls
import AutoAgents.EngineBatches
import AutoAgents.EngineSchedule
import AutoAgents.EngineChildren
import AutoAgents.ObserverMilestones
import AutoAgents.PrototypeApproval
import AutoAgents.WorkspaceAdoption
import AutoAgents.WatchAccounting
import AutoAgents.WatchPublish
import AutoAgents.GatePhased
import AutoAgents.OperatorIndependence
import AutoAgents.ContractEncoding
import AutoAgents.VerificationCoverage
import AutoAgents.ProofReuse
import AutoAgents.CleanupRuns
import AutoAgents.PersistenceRebuild
import AutoAgents.SchemaDetection
import AutoAgents.DiagnosticCapture
import AutoAgents.BaseBounded
import AutoAgents.RequirementChains
import AutoAgents.RebindAtomic
import AutoAgents.StageRequirements
import AutoAgents.RebindBatch
import AutoAgents.WorkerDelivery
import AutoAgents.ProviderAuthority
import AutoAgents.ProofReplay
import AutoAgents.WorkerDiscovery
import AutoAgents.ReleaseJobs
import AutoAgents.AdapterStreams
import AutoAgents.ProofRevocation
import AutoAgents.InstructionHistory
import AutoAgents.TraceAuthority
import AutoAgents.ShardAttribution
import AutoAgents.ChangedSymbols
import AutoAgents.PersistenceUpgrade
import AutoAgents.RebindDecision
import AutoAgents.ImportClosure
import AutoAgents.WatchProgress
import AutoAgents.BaseScan
import AutoAgents.ExecutedCount
import AutoAgents.RepairProgress
import AutoAgents.CacheMiss
import AutoAgents.ParseReply
import AutoAgents.Supervision
import AutoAgents.SupervisionSteps
import AutoAgents.SupervisionRuns
import AutoAgents.BaseShell
import AutoAgents.VitestCache
import AutoAgents.VitestRewrite
import AutoAgents.VitestInvocations
import AutoAgents.ReplyChoice
import AutoAgents.RepoMap
import AutoAgents.RepoBudget
import AutoAgents.RepoAnswers
import AutoAgents.BaseJsonEqual
import AutoAgents.ResumeChain
import AutoAgents.AuthorityChain
import AutoAgents.SettingsKept
import AutoAgents.FrontendFrozen
import AutoAgents.PromptHandoffs
import AutoAgents.SlotLeases
