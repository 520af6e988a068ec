import Forgent.PromoteAcyclic
import Forgent.GateReplay
import Forgent.GateRefine
import Forgent.KnowledgeLineage
import Forgent.KnowledgeRefused
import Forgent.UnionGraph
import Forgent.Lifecycle
import Forgent.DeliveredGate
import Forgent.CallStack
import Forgent.FrontierRun
import Forgent.Mailbox.Holders
import Forgent.Mailbox.FrameSafe
import Forgent.Mailbox.NoticesLane
import Forgent.Mailbox.Crashes
import Forgent.ScopeGrammar
import Forgent.SeatBinding.Policy
import Forgent.LockScope
import Forgent.Config.TrustedProject
import Forgent.Config.Serial
import Forgent.Config.Relocated
import Forgent.RunRetry
import Forgent.RunOutcome
import Forgent.YamlDoc.PathText
import Forgent.GitWalOnce
import Forgent.ProviderCapacityRun
import Forgent.RunAdmissionRetry
import Forgent.Workflow.Consent
import Forgent.Workflow.Passed
import Forgent.Workflow.Ended
import Forgent.Workflow.Spending
import Forgent.BatchApplies
import Forgent.Identity.SequenceOnce
import Forgent.Workflow.InboxOnce
import Forgent.Execution.ReviewedPass
import Forgent.Identity.DirectoryHeld
import Forgent.Terminal.SlotsHeld
import Forgent.Workflow.BindingsSettled
import Forgent.Patterns.Kept
import Forgent.Metrics.Schedule
import Forgent.Metrics.Cycles
import Forgent.Mailbox.TimeRules
import Forgent.Mailbox.NoChange
import Forgent.Concurrent
import Forgent.FoldAnswer
import Forgent.OpenRead
import Forgent.MergeOrder
import Forgent.Workflow.Recheck
import Forgent.Timestamp
import Forgent.Secrets.Redaction
