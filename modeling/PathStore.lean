import PathStore.Mount
import PathStore.Path.Order
import PathStore.Setup
import PathStore.Store.History
import PathStore.Walk.Depth
import PathStore.Walk.Trace
import PathStore.Proofs.Path.Beneath
import PathStore.Proofs.Store.Subtree
import PathStore.Proofs.Store.Changes
import PathStore.Proofs.Store.Rebase
import PathStore.Proofs.Store.Tree
import PathStore.Proofs.Walk.Ends
import PathStore.Proofs.Walk.Line
import PathStore.Proofs.Path.Preorder
import PathStore.Proofs.Store.Itinerary
import PathStore.Proofs.Store.AtRest
import PathStore.Proofs.Walk.Hint
import PathStore.Proofs.Store.Resume
import PathStore.Proofs.Store.Failing
import PathStore.Proofs.Walk.Follow
import PathStore.Proofs.Store.Ordered
import PathStore.Proofs.Store.Busy
import PathStore.Proofs.Store.Stable
import PathStore.Proofs.Disk.Changes
import PathStore.Proofs.Disk.Region
import PathStore.Proofs.Mount.Climbing
import PathStore.Proofs.Mount.Confined
import PathStore.Proofs.Store.Hinted
import PathStore.Proofs.Store.Paging
import PathStore.Proofs.Walk.FilesOnly
import PathStore.Proofs.Walk.Lockstep
import PathStore.Proofs.Walk.Cancelled
import PathStore.Context.History
import PathStore.Proofs.Context.Lineage
import PathStore.Proofs.Walk.Twins
import PathStore.Proofs.Walk.Stale
import PathStore.Proofs.Store.Effect
import PathStore.Proofs.Store.Commute
import PathStore.Proofs.Store.Outcome
import PathStore.Proofs.Store.FileCount
import PathStore.Proofs.Store.Agreement
import PathStore.Proofs.Store.Pruned
import PathStore.Proofs.Disk.Way
import PathStore.Proofs.Mount.Plain
import PathStore.Proofs.Mount.Tidy
import PathStore.Proofs.Mount.Mirror
import PathStore.Proofs.Mount.Names
import PathStore.Proofs.Mount.Told
import PathStore.Proofs.Mount.Refined
import PathStore.Proofs.Walk.Shuffled
import PathStore.Proofs.Walk.Accounts
import PathStore.Proofs.Store.Dwindling
import PathStore.Proofs.Disk.Obstacle
import PathStore.Proofs.Mount.Absent
import PathStore.Proofs.Disk.Onward
import PathStore.Proofs.Mount.Listing
import PathStore.Proofs.Walk.Charted
import PathStore.Proofs.Mount.Linked
