import ClauseDiscovery.Clause.Search
import ClauseDiscovery.Clause.Formula
import ClauseDiscovery.Oracle.Verdicts
import ClauseDiscovery.Memo.Batch
import ClauseDiscovery.Memo.Pooled
import ClauseDiscovery.Memo.Shared
import ClauseDiscovery.Proofs.Clause.Coverage
import ClauseDiscovery.Proofs.Clause.Frontier
import ClauseDiscovery.Proofs.Clause.Grammar
import ClauseDiscovery.Proofs.Clause.Insertion
import ClauseDiscovery.Proofs.Clause.LeastPart
import ClauseDiscovery.Proofs.Clause.Numbering
import ClauseDiscovery.Proofs.Clause.Part
import ClauseDiscovery.Proofs.Clause.Passes
import ClauseDiscovery.Proofs.Clause.Renumbering
import ClauseDiscovery.Proofs.Clause.Representative
import ClauseDiscovery.Proofs.Clause.Sides
import ClauseDiscovery.Proofs.Clause.Variant
import ClauseDiscovery.Proofs.Enumeration.Odometer
import ClauseDiscovery.Proofs.Enumeration.Permutation
import ClauseDiscovery.Proofs.Enumeration.Successor
import ClauseDiscovery.Proofs.FirstOccurrence
import ClauseDiscovery.Proofs.Language.Ancestry
import ClauseDiscovery.Proofs.Language.Order
import ClauseDiscovery.Proofs.Memo.Accounts
import ClauseDiscovery.Proofs.Memo.Agreement
import ClauseDiscovery.Proofs.Memo.Answers
import ClauseDiscovery.Proofs.Memo.Batch
import ClauseDiscovery.Proofs.Memo.Calls
import ClauseDiscovery.Proofs.Memo.Progress
import ClauseDiscovery.Proofs.Memo.Service
import ClauseDiscovery.Proofs.Memo.Session
import ClauseDiscovery.Proofs.Memo.Shared
import ClauseDiscovery.Proofs.Memo.Step
import ClauseDiscovery.Proofs.Oracle.Record
import ClauseDiscovery.Proofs.Row
import ClauseDiscovery.Proofs.Typing
import ClauseDiscovery.Proofs.Universe
import ClauseDiscovery.Proofs.Universe.Repetition
import ClauseDiscovery.Proofs.Work.Given
import ClauseDiscovery.Proofs.Work.Jobs
import ClauseDiscovery.Proofs.Work.Rest
import ClauseDiscovery.Proofs.Work.Step
import ClauseDiscovery.Proofs.Work.Wakeup
import ClauseDiscovery.Proofs.Clause.Parent
import ClauseDiscovery.Proofs.Clause.Enlarged
import ClauseDiscovery.Proofs.Clause.Formula
import ClauseDiscovery.Proofs.Memo.Failure
import ClauseDiscovery.Proofs.Memo.SharedAccounts
import ClauseDiscovery.Proofs.Clause.Rejection
import ClauseDiscovery.Proofs.Typing.Narrowing
import ClauseDiscovery.Proofs.Text.Lines
import ClauseDiscovery.Proofs.Oracle.Verdicts
import ClauseDiscovery.Proofs.World.Slots
import ClauseDiscovery.Proofs.World.Interpretation
import ClauseDiscovery.Proofs.Enumeration.InPlace
import ClauseDiscovery.Proofs.Clause.Precedence
import ClauseDiscovery.Proofs.Work.Audience
import ClauseDiscovery.Proofs.Clause.Checked
