import StorageMarket.Main
import StorageMarket.Proofs.Audit.Periods
import StorageMarket.Proofs.Chronicle.Times
import StorageMarket.Proofs.Ledger.Due
import StorageMarket.Proofs.Tracker.EachEventOnce
import StorageMarket.Proofs.Tracker.ExactTimes
import StorageMarket.Proofs.Tracker.FailedUpdates
import StorageMarket.Proofs.Tracker.InTime
import StorageMarket.Proofs.Tracker.Notices
import StorageMarket.Proofs.Tracker.Pace
import StorageMarket.Proofs.Tracker.Window
import StorageMarket.Proofs.Audit.Review
import StorageMarket.Proofs.Tracker.ReferenceBlock
import StorageMarket.Proofs.Tracker.Polling
import StorageMarket.Proofs.Tracker.Foresight
import StorageMarket.Proofs.Tracker.Isolation
import StorageMarket.Proofs.Recording.RoundTrip
import StorageMarket.Proofs.Chronicle.Completeness
import StorageMarket.Proofs.Archive.Answers
import StorageMarket.Proofs.Tracker.Feasibility
import StorageMarket.Proofs.Observer.Panels
import StorageMarket.Proofs.Command.Passes
import StorageMarket.Proofs.Command.Summary
import StorageMarket.Proofs.Tracker.Coverage
import StorageMarket.Proofs.Identity.Spelling
import StorageMarket.Proofs.Archive.Faults
import StorageMarket.Proofs.Ledger.Growth
import StorageMarket.Proofs.Tracker.Slots
import StorageMarket.Proofs.Deadlines.Pairs
import StorageMarket.Proofs.Deal.FinishTime
import StorageMarket.Proofs.Event.Streams
