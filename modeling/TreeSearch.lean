import TreeSearch.Branch.Completion
import TreeSearch.Grammar.Check
import TreeSearch.Grammar.Draft
import TreeSearch.Search.Enumerator
import TreeSearch.Proofs.Branch.Endless
import TreeSearch.Proofs.Branch.Fixpoint
import TreeSearch.Proofs.Pattern.Persistence
import TreeSearch.Proofs.Search.Compaction
import TreeSearch.Proofs.Search.SizeLimit
import TreeSearch.Proofs.Branch.WithinLimits
import TreeSearch.Proofs.Branch.Announcing
import TreeSearch.Proofs.Branch.Faultless
import TreeSearch.Proofs.Branch.AnnouncedOnce
import TreeSearch.Proofs.Branch.Mirroring
import TreeSearch.Proofs.Branch.Waiting
import TreeSearch.Proofs.Branch.Forks
import TreeSearch.Proofs.Grammar.Containment
import TreeSearch.Proofs.Grammar.Occurrence
import TreeSearch.Proofs.Completions
import TreeSearch.Proofs.Branch.Hosts
import TreeSearch.Proofs.Branch.LeastSize
import TreeSearch.Proofs.Branch.OrderOutcome
import TreeSearch.Proofs.Constraint.Climbing
import TreeSearch.Proofs.Branch.Core
import TreeSearch.Proofs.Branch.Arrivals
import TreeSearch.Proofs.Branch.Tightness
import TreeSearch.Proofs.Search.NoBacktracking
import TreeSearch.Branch.PathForest
import TreeSearch.Proofs.Branch.Forest
import TreeSearch.Proofs.Constraint.Validity
import TreeSearch.Proofs.Constraint.Duplicates
import TreeSearch.Proofs.Tree.Editing
import TreeSearch.Proofs.Grammar.Checking
import TreeSearch.Proofs.Branch.NarrowOutcome
import TreeSearch.Proofs.Branch.Bookkeeping
import TreeSearch.Proofs.Domain.Bits
import TreeSearch.Proofs.Tree.Listing
