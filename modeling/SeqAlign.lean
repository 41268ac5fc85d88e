import SeqAlign.Ownership
import SeqAlign.Printing
import SeqAlign.Relation
import SeqAlign.Session
import SeqAlign.Strategy.Budget
import SeqAlign.Text.Printer
import SeqAlign.View
import SeqAlign.Proofs.Run
import SeqAlign.Proofs.Walks
import SeqAlign.Proofs.Books
import SeqAlign.Proofs.FirstWalk
import SeqAlign.Proofs.Alike
import SeqAlign.Proofs.DeadEnds
import SeqAlign.Proofs.Groups
import SeqAlign.Proofs.Matching
import SeqAlign.Proofs.Limits
import SeqAlign.Proofs.Mirror
import SeqAlign.Proofs.Agreement
import SeqAlign.Proofs.Cuts
import SeqAlign.Proofs.Greedy
import SeqAlign.Proofs.Bounds
import SeqAlign.Proofs.Insertion
import SeqAlign.Proofs.Recording
import SeqAlign.Proofs.Text.Reading
import SeqAlign.Proofs.Text.RoundTrip
import SeqAlign.Proofs.Maxima
import SeqAlign.Proofs.Effects
import SeqAlign.Proofs.Recall
import SeqAlign.Proofs.Transparency
import SeqAlign.Proofs.Text.Stops
import SeqAlign.Proofs.Text.Labels
import SeqAlign.Proofs.Text.Segments
import SeqAlign.Proofs.Text.Recovery
import SeqAlign.Proofs.Paths
import SeqAlign.Proofs.Reachable
import SeqAlign.Proofs.Exploration
import SeqAlign.Proofs.Courses
import SeqAlign.Proofs.Economy
import SeqAlign.Proofs.Exchange
import SeqAlign.Proofs.Tracing
import SeqAlign.Proofs.Text.Layout
import SeqAlign.Proofs.Text.Lookahead
import SeqAlign.Proofs.Text.ReportCount
import SeqAlign.Proofs.Text.ReportOrder
import SeqAlign.Proofs.Absorption
import SeqAlign.Proofs.Candidates
import SeqAlign.Proofs.Custody
import SeqAlign.Proofs.Text.Construction
import SeqAlign.Proofs.Accounting
