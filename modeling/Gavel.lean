import Gavel.Cluster.Lemmas.Handle
import Gavel.Cluster.Lemmas.Accounting
import Gavel.Cluster.Lemmas.Startup
import Gavel.Cluster.Theorems.Accounting
import Gavel.Cluster.Theorems.Attempts
import Gavel.Cluster.Theorems.Leadership
import Gavel.Cluster.Lemmas.Mirror
import Gavel.Cluster.Agent
import Gavel.Cluster.Lemmas.Registry
import Gavel.Cluster.Lemmas.Fleet
import Gavel.Cluster.Theorems.Connections
import Gavel.Cluster.Theorems.Roles
import Gavel.Cluster.Persistence
import Gavel.Cluster.Lemmas.Placement
import Gavel.Cluster.Theorems.Placement
import Gavel.Cluster.Lemmas.Channels
import Gavel.Cluster.Lemmas.Handover
import Gavel.Cluster.Theorems.Durability
import Gavel.Cluster.Theorems.Recovery
import Gavel.Cluster.Theorems.Reporting
import Gavel.Cluster.Lemmas.Signals
import Gavel.Cluster.Lemmas.Traffic
import Gavel.Cluster.Theorems.Stranding
import Gavel.Cluster.Protocol
import Gavel.Cluster.Theorems.Framing
import Gavel.Lib.Text
import Gavel.Lib.Groups
import Gavel.Market.Basic
import Gavel.Market.Depth
import Gavel.Lib.Assoc
import Gavel.Market.Engine
import Gavel.Market.Series
import Gavel.Market.Correlate
import Gavel.Market.Analysis
import Gavel.Market.Catalog
import Gavel.Market.Materialise
import Gavel.Server.AnalysisWork
import Gavel.Server.Theorems.Partition
import Gavel.Server.Theorems.Collecting
import Gavel.Server.MaterialiseTask
import Gavel.Server.Theorems.Publishing
import Gavel.Market.Realm
import Gavel.Market.Rollup
import Gavel.Lib.Staging
import Gavel.Storage.ReadModel
import Gavel.Storage.Theorems.Publication
import Gavel.Lib.Keyed
import Gavel.Storage.Instants
import Gavel.Storage.RealmPrices
import Gavel.Market.Lemmas.Ladders
import Gavel.Market.Lemmas.Summaries
import Gavel.Storage.Lemmas.Snapshots
import Gavel.Storage.Lemmas.States
import Gavel.Storage.Lemmas.Archive
import Gavel.Storage.Theorems.Suppression
import Gavel.Market.Lemmas.Rollups
import Gavel.Storage.Lemmas.Sequences
import Gavel.Storage.Theorems.OnSale
import Gavel.Storage.Theorems.Depth
import Gavel.Storage.Lemmas.Versions
import Gavel.Storage.Theorems.Lifecycle
import Gavel.Storage.Theorems.Isolation
import Gavel.Market.Theorems.Keys
import Gavel.Market.Theorems.Reductions
import Gavel.Market.Theorems.Curves
import Gavel.Market.Theorems.Codecs
import Gavel.Market.Theorems.Scopes
import Gavel.Market.Theorems.Reordering
import Gavel.Lib.Dict
import Gavel.Web.Headers
import Gavel.Web.Csrf
import Gavel.Web.Theorems.Csrf
import Gavel.Web.Throttle
import Gavel.Web.Theorems.Origins
import Gavel.Lib.Slots
import Gavel.Web.Login
import Gavel.Web.Theorems.Guesses
import Gavel.Storage.Releases
import Gavel.Storage.Theorems.Releases
import Gavel.Lib.Sorting
import Gavel.Market.Archive
import Gavel.Market.Release
import Gavel.Lib.Intervals
import Gavel.Market.Lemmas.Hierarchy
import Gavel.Market.Theorems.Drafts
import Gavel.Market.Theorems.Owners
import Gavel.Market.Theorems.TierDates
import Gavel.Cluster.Theorems.Slices
import Gavel.Lib.Unicode
import Gavel.Web.Query
import Gavel.Web.Prefs
import Gavel.Web.Theorems.Prefs
import Gavel.Web.FragmentCache
import Gavel.Web.Categories
import Gavel.Web.Theorems.Categories
import Gavel.Cluster.Theorems.WakeUps
import Gavel.Cluster.Theorems.Spread
import Gavel.Lib.Arithmetic
import Gavel.Cluster.Theorems.Splitting
import Gavel.Lib.Calendar
import Gavel.Market.Theorems.Dates
import Gavel.Market.Theorems.Slots
import Gavel.Lib.Extremes
import Gavel.Market.Theorems.Swings
import Gavel.Market.Theorems.Sweeps
import Gavel.Market.Theorems.Percentages
import Gavel.Lib.Gaps
import Gavel.Market.Lemmas.Hours
import Gavel.Market.Theorems.WindowRows
import Gavel.Lib.OrderStatistics
import Gavel.Market.Theorems.RollupSeries
import Gavel.Lib.Slices
import Gavel.Market.Cadence
import Gavel.Market.Event
import Gavel.Market.Theorems.Polling
import Gavel.Market.Theorems.Positions
import Gavel.Market.Theorems.Resets
import Gavel.Market.Theorems.Thinning
import Gavel.Market.Theorems.RealmSummaries
import Gavel.Market.Deals
import Gavel.Market.Theorems.Deals
import Gavel.Market.Theorems.Newest
import Gavel.Market.Theorems.PatchWindows
import Gavel.Market.Theorems.StrictDates
import Gavel.Lib.Calls
import Gavel.Market.Alerts
import Gavel.Storage.Prices
import Gavel.Storage.Collect
import Gavel.Storage.Theorems.Alerts
import Gavel.Web.Theorems.Tampering
import Gavel.Market.Daily
import Gavel.Market.Theorems.Daily
import Gavel.Web.Admin
import Gavel.Web.Theorems.Annotations
import Gavel.Web.Streams
import Gavel.Web.Theorems.Streams
import Gavel.Web.Theorems.Encoding
import Gavel.Web.Groups
import Gavel.Web.Theorems.Groups
import Gavel.Lib.Windows
import Gavel.Web.Lemmas.Failures
import Gavel.Web.Theorems.Rates
import Gavel.Server.SourceRange
import Gavel.Server.Theorems.SourceRange
import Gavel.Web.Coalescing
import Gavel.Web.Theorems.Coalescing
import Gavel.Web.Tooltips
import Gavel.Web.Theorems.Tooltips
import Gavel.Lib.Digests
import Gavel.Cluster.Theorems.Integrity
import Gavel.Lib.Ranks
import Gavel.Market.Theorems.Ranks
import Gavel.Integrations.Tsm
import Gavel.Integrations.Theorems.Timestamps
import Gavel.Lib.Lines
import Gavel.Server.EnvFile
import Gavel.Server.Theorems.EnvFile
import Gavel.Lib.Fractions
import Gavel.Integrations.Theorems.Feeds
import Gavel.Cluster.Theorems.Picture
import Gavel.Lib.Log
import Gavel.Storage.Accounts
import Gavel.Web.Account
import Gavel.Web.Lemmas.Account
import Gavel.Web.Theorems.Account
import Gavel.Web.Discord
import Gavel.Web.Theorems.Discord
import Gavel.Lib.Fanout
import Gavel.Server.CollectRealms
import Gavel.Server.Theorems.CollectRealms
import Gavel.Integrations.Token
import Gavel.Integrations.Theorems.Token
