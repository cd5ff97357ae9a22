import Apme.Remediation.PendingAi
import Apme.Remediation.AiResponse
import Apme.Remediation.Accounting
import Apme.Cli.Check
import Apme.Gitleaks.Coverage
import Apme.Daemon.Merging
import Apme.Daemon.PostReview
import Apme.Daemon.Escalation
import Apme.Remediation.Asked
import Apme.Formatter.Handlers
import Apme.Gateway.Decisions
import Apme.Gateway.Lifecycle
import Apme.Gateway.Outcome
import Apme.Gateway.Client
import Apme.Graph.Redaction
import Apme.Gateway.ProxySync
import Apme.Validators.NodeLookup
import Apme.Validators.PluginCache
import Apme.Remediation.FixedPoint
import Apme.Graph.Rescan
import Apme.Builder.Keys
import Apme.Builder.OpaPayload
import Apme.Graph.Variables
import Apme.Builder.Produced
import Apme.Formatter.Loading
import Apme.Galaxy.Generations
import Apme.Gateway.ReviewCounts
import Apme.Daemon.Ingress
import Apme.Daemon.UploadSeal
import Apme.Remediation.ExactSplice
import Apme.Galaxy.Closure
import Apme.Venv.Records
import Apme.Graph.NoLog
import Apme.Graph.RuntimeOrder
import Apme.Remediation.WithToLoop
import Apme.Formatter.Soft
import Apme.Graph.ExecutionOrder
import Apme.Gateway.Sbom
import Apme.Gateway.Credentials
import Apme.Gateway.ProjectLookup
import Apme.Gateway.Grouping
import Apme.Gateway.ProjectLock
