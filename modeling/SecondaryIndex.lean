import SecondaryIndex.Cursor.Reclaim
import SecondaryIndex.Log
import SecondaryIndex.Proofs.Account
import SecondaryIndex.Proofs.Account.Ledger
import SecondaryIndex.Proofs.Account.Sessions
import SecondaryIndex.Proofs.Accounting
import SecondaryIndex.Proofs.Acquiring
import SecondaryIndex.Proofs.Answers
import SecondaryIndex.Proofs.Attaching
import SecondaryIndex.Proofs.Building
import SecondaryIndex.Proofs.CloseTrees
import SecondaryIndex.Proofs.Codec
import SecondaryIndex.Proofs.Columns
import SecondaryIndex.Proofs.Completeness
import SecondaryIndex.Proofs.Configuring
import SecondaryIndex.Proofs.Deferring
import SecondaryIndex.Proofs.Delivering.Readings
import SecondaryIndex.Proofs.Entering
import SecondaryIndex.Proofs.Exactness
import SecondaryIndex.Proofs.Filling
import SecondaryIndex.Proofs.Independence
import SecondaryIndex.Proofs.Indexes
import SecondaryIndex.Proofs.Intervals.Growing
import SecondaryIndex.Proofs.Keys
import SecondaryIndex.Proofs.MergeTrees
import SecondaryIndex.Proofs.Muting.Quota
import SecondaryIndex.Proofs.Muting.Running
import SecondaryIndex.Proofs.Narrowing
import SecondaryIndex.Proofs.NoTrace
import SecondaryIndex.Proofs.Order
import SecondaryIndex.Proofs.Prefixes
import SecondaryIndex.Proofs.Pruning
import SecondaryIndex.Proofs.Replacing
import SecondaryIndex.Proofs.Retaining
import SecondaryIndex.Proofs.Scanning
import SecondaryIndex.Proofs.Searching.Rows
import SecondaryIndex.Proofs.Serving
import SecondaryIndex.Proofs.Soundness
import SecondaryIndex.Proofs.Stream.Calls
import SecondaryIndex.Proofs.Undoing
import SecondaryIndex.Proofs.Updating
import SecondaryIndex.Query.Run
