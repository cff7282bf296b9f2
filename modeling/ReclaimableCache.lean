import ReclaimableCache.Cleaner.Rule
import ReclaimableCache.Metrics.Exposition
import ReclaimableCache.Session
import ReclaimableCache.Proofs.Effect
import ReclaimableCache.Proofs.Pins
import ReclaimableCache.Proofs.Table
import ReclaimableCache.Proofs.Work
import ReclaimableCache.Proofs.Growth
import ReclaimableCache.Proofs.Consistency
import ReclaimableCache.Proofs.Release
import ReclaimableCache.Proofs.Accounting
import ReclaimableCache.Proofs.Quiescence
import ReclaimableCache.Proofs.Fate
import ReclaimableCache.Proofs.Contents
import ReclaimableCache.Proofs.Draining
import ReclaimableCache.Proofs.Retain
import ReclaimableCache.Proofs.Refinement
import ReclaimableCache.Proofs.Protection
import ReclaimableCache.Proofs.Iteration
import ReclaimableCache.Proofs.Reaction
import ReclaimableCache.Proofs.Alike
import ReclaimableCache.Proofs.Parallel
import ReclaimableCache.Proofs.Comparison
import ReclaimableCache.Proofs.Sharding
import ReclaimableCache.Proofs.Clearing
import ReclaimableCache.Proofs.Ledger
import ReclaimableCache.Proofs.Log
import ReclaimableCache.Proofs.Balance
import ReclaimableCache.Proofs.Undisturbed
import ReclaimableCache.Proofs.Stale
import ReclaimableCache.Proofs.Forgiveness
import ReclaimableCache.Proofs.Echo
import ReclaimableCache.Proofs.Calls
import ReclaimableCache.Proofs.Nesting
import ReclaimableCache.Proofs.Occupancy
import ReclaimableCache.Proofs.Pass
import ReclaimableCache.Proofs.Rest
import ReclaimableCache.Proofs.Trim
import ReclaimableCache.Proofs.Bounds
import ReclaimableCache.Proofs.Touches
import ReclaimableCache.Proofs.Reentry
import ReclaimableCache.Proofs.Equality
import ReclaimableCache.Proofs.Picking
import ReclaimableCache.Proofs.Panic
import ReclaimableCache.Proofs.Readback
import ReclaimableCache.Proofs.OneMap
import ReclaimableCache.Proofs.SharedPins
import ReclaimableCache.Proofs.Misses
