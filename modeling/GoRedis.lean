import GoRedis.Persistence.ByteReader
import GoRedis.Persistence.Corruption
import GoRedis.Persistence.Reanchor
import GoRedis.Persistence.Reload
import GoRedis.Persistence.Repeats
import GoRedis.Persistence.Saving
import GoRedis.Resp.Buffering
import GoRedis.Resp.Inline
import GoRedis.Resp.RoundTrip
import GoRedis.Server.Aggregates
import GoRedis.Server.Atomicity
import GoRedis.Server.Concurrency
import GoRedis.Server.Deadlines
import GoRedis.Server.Expiry
import GoRedis.Server.Glob
import GoRedis.Server.Indexing
import GoRedis.Server.Journal
import GoRedis.Server.Process
import GoRedis.Server.Range
import GoRedis.Server.Refusal
import GoRedis.Server.Shutdown
import GoRedis.Server.Tracking
import GoRedis.Store.Amortized
import GoRedis.Store.Escalation
import GoRedis.Store.Occupancy
import GoRedis.Store.PointerSafety
import GoRedis.Store.Progress
import GoRedis.Store.Recency
import GoRedis.Store.Refinement
import GoRedis.Store.Sampling
import GoRedis.Store.Survival
import GoRedis.Store.Sweeper
import GoRedis.Store.Tickets
