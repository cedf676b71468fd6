import TimedMachine.Duration
import TimedMachine.Event
import TimedMachine.History
import TimedMachine.History.Json
import TimedMachine.Hub
import TimedMachine.Journal
import TimedMachine.Json
import TimedMachine.Json.Inspect
import TimedMachine.Machine
import TimedMachine.Machine.Clause
import TimedMachine.Machine.Issue
import TimedMachine.Machine.Resolution
import TimedMachine.Options
import TimedMachine.Pattern
import TimedMachine.Pattern.Symbol
import TimedMachine.Queue
import TimedMachine.Registry
import TimedMachine.Script
import TimedMachine.Service
import TimedMachine.Service.Clock
import TimedMachine.Service.Operation
import TimedMachine.Snapshot
import TimedMachine.Switchboard
import TimedMachine.Table
import TimedMachine.Text.Decimal
import TimedMachine.Text.Hidden
import TimedMachine.Text.Inspect
import TimedMachine.TimerQueue
import TimedMachine.TimerQueue.Progress
import TimedMachine.TimerQueue.Roster
import TimedMachine.Proofs.Actions
import TimedMachine.Proofs.Agreement
import TimedMachine.Proofs.Draining
import TimedMachine.Proofs.Move
import TimedMachine.Proofs.Step
import TimedMachine.Proofs.Calm
import TimedMachine.Proofs.Shortfall
import TimedMachine.Proofs.Slicing
import TimedMachine.Proofs.Validation
import TimedMachine.Proofs.Soundness
import TimedMachine.Proofs.Answers
import TimedMachine.Proofs.Overflow
import TimedMachine.Proofs.Passes
import TimedMachine.Proofs.Calls
import TimedMachine.Proofs.Protocol
import TimedMachine.Proofs.Act
import TimedMachine.Proofs.Firing
import TimedMachine.Proofs.Counterpart
import TimedMachine.Proofs.Shift
import TimedMachine.Proofs.Twin
import TimedMachine.Proofs.Recording
import TimedMachine.Proofs.Restart
import TimedMachine.Proofs.Level
import TimedMachine.Proofs.Accounts
import TimedMachine.Proofs.Window
import TimedMachine.Proofs.Waking
import TimedMachine.Proofs.Path
import TimedMachine.Proofs.Standing
import TimedMachine.Proofs.Commitment
import TimedMachine.Proofs.Requests
import TimedMachine.Proofs.Deferral
import TimedMachine.Proofs.Timekeeping
import TimedMachine.Proofs.Relapse
import TimedMachine.Hub.Deed
import TimedMachine.Proofs.Ledger
import TimedMachine.Proofs.Notification
import TimedMachine.Proofs.Wiring
import TimedMachine.Proofs.Subscriptions
import TimedMachine.Proofs.Spelling
import TimedMachine.Proofs.Transparency
import TimedMachine.Proofs.Handling
import TimedMachine.Proofs.Arrangement
import TimedMachine.Proofs.Rearrangement
import TimedMachine.Proofs.Enduring
import TimedMachine.Proofs.Placement
import TimedMachine.Proofs.Numbering
import TimedMachine.Proofs.Contest
import TimedMachine.Proofs.Delivery
import TimedMachine.Proofs.Revisit
import TimedMachine.Proofs.Intact
import TimedMachine.Proofs.Flag
import TimedMachine.Proofs.Enumeration
import TimedMachine.Proofs.Dangling
import TimedMachine.Proofs.Retention
import TimedMachine.Proofs.Budget
import TimedMachine.Proofs.Calendar
import TimedMachine.Proofs.Stamps
import TimedMachine.Proofs.Interchange
import TimedMachine.Proofs.Rest
import TimedMachine.Proofs.Hearing
import TimedMachine.Proofs.Errands
import TimedMachine.Proofs.Tenure
import TimedMachine.Proofs.Roster
import TimedMachine.Proofs.Overlay
import TimedMachine.Proofs.Events
import TimedMachine.Proofs.Origins
