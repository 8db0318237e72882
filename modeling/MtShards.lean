import MtShards.Core.Action
import MtShards.Models.Tenant.Snapshot
import MtShards.Models.Context.Routing
import MtShards.Models.Context.Restoration
import MtShards.Core.Interleaving
import MtShards.Models.Migrator.Requests
import MtShards.Models.Migrator.Run
import MtShards.Models.Migrator.Operators
import MtShards.Models.Migrator.Protocol
import MtShards.Models.Migrator.Conformance
import MtShards.Models.Migrator.Frames
import MtShards.Models.Migrator.Fencing
import MtShards.Models.Migrator.Transactions
import MtShards.Models.Migrator.Sessions
import MtShards.Models.Migrator.StatusMachine
import MtShards.Models.Migrator.Sight
import MtShards.Models.Migrator.Maintenance
import MtShards.Models.Migrator.AdminForm
import MtShards.Core.HoldCache
import MtShards.Models.Resolver.Database
import MtShards.Models.Resolver.World
import MtShards.Models.Resolver.Cache
import MtShards.Models.Resolver.Registry
import MtShards.Models.Resolver.Writers
import MtShards.Models.Resolver.Protocol
import MtShards.Models.Resolver.Conformance
import MtShards.Models.Resolver.Coherence
import MtShards.Models.Resolver.ResolvePath
import MtShards.Models.Resolver.Service
import MtShards.Models.Resolver.StatusRace
import MtShards.Models.Resolver.Exactness
import MtShards.Models.Context.Router
import MtShards.Models.Context.Thread
import MtShards.Models.Context.Confinement
import MtShards.Core.Solo
import MtShards.Core.Occurrences
import MtShards.Models.Fanout.Dispatch
import MtShards.Models.Fanout.Calendar
import MtShards.Models.Scheduler.Bookkeeping
import MtShards.Core.Events
import MtShards.Models.Scheduler.Loops
import MtShards.Models.Scheduler.Conservation
import MtShards.Models.Scheduler.HardStop
import MtShards.Models.Migrator.OperatorRelease
import MtShards.Models.Migrator.OneShard
import MtShards.Models.Migrator.Connections
import MtShards.Models.Migrator.Exits
import MtShards.Models.Migrator.ProvisionOutcome
import MtShards.Models.Migrator.ForeignSchema
import MtShards.Models.Fanout.Watermarks
import MtShards.Models.Fanout.Delivery
import MtShards.Models.Migrator.ConnErrors
import MtShards.Models.Keys.CacheKeys
import MtShards.Models.Tenant.Repoint
import MtShards.Models.Scheduler.FailureLimit
import MtShards.Core.Gregorian
import MtShards.Models.Fanout.Cronspec
import MtShards.Models.Worker.TaskRouting
import MtShards.Models.Worker.Freshness
import MtShards.Models.Resolver.Rounds
import MtShards.Models.Resolver.Resurrection
import MtShards.Models.Resolver.GateCompleteness
import MtShards.Models.Tenant.StatusStamp
import MtShards.Core.Text
import MtShards.Core.Like
import MtShards.Models.Tenant.Hosts
import MtShards.Models.Tenant.ReservedHosts
import MtShards.Models.Tenant.SchemaNames
import MtShards.Models.Tenant.QuoteSchema
import MtShards.Models.Tenant.DropSchema
import MtShards.Models.Fanout.ArgSig
import MtShards.Models.Resolver.Outage
import MtShards.Models.Resolver.SingleFlight
import MtShards.Models.Resolver.Coalescing
import MtShards.Core.RateLimit
import MtShards.Models.Resolver.FillCap
import MtShards.Core.RoundRobin
import MtShards.Models.Scheduler.Fairness
import MtShards.Core.Paths
import MtShards.Models.Migrator.LogNames
import MtShards.Models.Migrator.Site
import MtShards.Models.Migrator.Convergence
import MtShards.Models.Migrator.Resume
import MtShards.Models.Migrator.Report
import MtShards.Models.Migrator.SiteRun
import MtShards.Models.Migrator.Survey
import MtShards.Models.Migrator.ServedMigrated
import MtShards.Models.Migrator.Reconcile
import MtShards.Models.Migrator.DeployGate
import MtShards.Models.Scheduler.CommandRun
import MtShards.Models.Scheduler.ExitCode
import MtShards.Models.Context.Migrations
import MtShards.Models.Context.Tables
import MtShards.Models.Auth.World
import MtShards.Models.Auth.Serve
import MtShards.Models.Auth.Binding
import MtShards.Models.Auth.Isolation
import MtShards.Models.Migrator.Releases
