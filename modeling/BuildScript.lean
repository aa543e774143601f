import BuildScript.Document.Snapshot
import BuildScript.Journal
import BuildScript.Proofs.Name
import BuildScript.Proofs.Store.Entries
import BuildScript.Proofs.Store.Staging
import BuildScript.Proofs.Store.Indices
import BuildScript.Proofs.Document.Tables
import BuildScript.Proofs.Document.Lineage
import BuildScript.Proofs.Document.Release
import BuildScript.Proofs.Linked.Basic
import BuildScript.Proofs.Linked.Alloc
import BuildScript.Proofs.Document.Edited
import BuildScript.Proofs.Linked.Edit
import BuildScript.Proofs.Apply.Steps
import BuildScript.Proofs.Linked.Apply
import BuildScript.Proofs.Linked.Reset
import BuildScript.Proofs.Document.Answers
import BuildScript.Proofs.Linked.Merge
import BuildScript.Proofs.Reachable
import BuildScript.Proofs.Rollback
import BuildScript.Proofs.Owned.Basic
import BuildScript.Proofs.Owned.Release
import BuildScript.Proofs.Owned.Apply
import BuildScript.Proofs.Owned.Edit
import BuildScript.Proofs.Owned.Reset
import BuildScript.Proofs.Owned.Merge
import BuildScript.Proofs.Ownership
import BuildScript.Proofs.Apply.Frame
import BuildScript.Proofs.Visibility
import BuildScript.Proofs.Apply.Audit
import BuildScript.Proofs.Apply.Plan
import BuildScript.Proofs.Apply.Calls
import BuildScript.Proofs.Isolation
import BuildScript.Proofs.Retry
import BuildScript.Proofs.Changes.Flags
import BuildScript.Proofs.Changes.Alters
import BuildScript.Proofs.Changes.Graft
import BuildScript.Proofs.Changes.Insert
import BuildScript.Proofs.Changes.Replace
import BuildScript.Proofs.Changes.Edit
import BuildScript.Proofs.Changes.Merge
import BuildScript.Proofs.Changes.Run
import BuildScript.Proofs.Borrowing
import BuildScript.Proofs.Grounds
import BuildScript.Proofs.CreateFirst
import BuildScript.Proofs.ListsOwned
import BuildScript.Proofs.Lending
import BuildScript.Proofs.LentInOverlays
import BuildScript.Proofs.Traces
import BuildScript.Proofs.Clearing.Steps
import BuildScript.Proofs.Clearing.Run
import BuildScript.Proofs.Apply.Traversal
import BuildScript.Proofs.Unstaged
import BuildScript.Proofs.Settlement
import BuildScript.Proofs.Containment
import BuildScript.Proofs.Replay.Run
import BuildScript.Proofs.CommittedOrder
import BuildScript.Proofs.Document.Lookup
import BuildScript.Proofs.Folding.Region
import BuildScript.Proofs.Folding.Block
import BuildScript.Proofs.Folding.Copy
import BuildScript.Proofs.Folding.Law
import BuildScript.Proofs.Folding.Twin
import BuildScript.Proofs.Folding.Withdrawal
import BuildScript.Proofs.Operation
import BuildScript.Proofs.Folding.Coverage
import BuildScript.Proofs.Folding.Renewal
import BuildScript.Proofs.Folding.Recount
import BuildScript.Proofs.Remerge
import BuildScript.Proofs.Interlude
import BuildScript.Proofs.Retention
import BuildScript.Proofs.Folding.Image
import BuildScript.Proofs.Fidelity
import BuildScript.Proofs.Placement.Linear
import BuildScript.Proofs.Placement.Rounds
import BuildScript.Proofs.Placement.Increasing
import BuildScript.Proofs.Placement.Longest
import BuildScript.Proofs.Placement.Moves
import BuildScript.Proofs.Store.Reordering
import BuildScript.Proofs.CanonicalOrder
import BuildScript.Proofs.References.Rescan
import BuildScript.Proofs.References.Scanned
import BuildScript.Proofs.References.Walk
import BuildScript.Proofs.Layers
import BuildScript.Proofs.References.Shadowing
import BuildScript.Proofs.References.Order
import BuildScript.Proofs.References.Soundness
import BuildScript.Proofs.Folding.Excerpt
import BuildScript.Proofs.Openings
import BuildScript.Proofs.CreateInside
import BuildScript.Proofs.ResetOrder
import BuildScript.Proofs.Refusal
import BuildScript.Proofs.BorrowsUnstaged
import BuildScript.Proofs.Persistence
import BuildScript.Proofs.Loans
import BuildScript.Proofs.Replacement.Acceptance
import BuildScript.Proofs.Replacement.Representation
import BuildScript.Proofs.Replacement.Splice
import BuildScript.Proofs.Replacement.Slot
import BuildScript.Proofs.Document.Views
import BuildScript.Proofs.Document.Cut
import BuildScript.Proofs.Apply.Turns
import BuildScript.Proofs.Anchors
import BuildScript.Proofs.Upsert
import BuildScript.Proofs.Backing.Basic
import BuildScript.Proofs.Backing.Apply
import BuildScript.Proofs.Number.Decimal
import BuildScript.Proofs.Number.Rounding
import BuildScript.Proofs.Number.Nearest
import BuildScript.Proofs.Json.Strings
import BuildScript.Proofs.Json.Numerals
import BuildScript.Proofs.Json.Roundtrip
import BuildScript.Proofs.Json.Codec
import BuildScript.Proofs.Document.CanonicalText
