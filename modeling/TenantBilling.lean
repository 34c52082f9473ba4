import TenantBilling.Properties.PaidIffCharged
import TenantBilling.Properties.NoDoubleCharge
import TenantBilling.Invariant.Ready
import TenantBilling.Properties.SuccessKept
import TenantBilling.Properties.Deadlock
import TenantBilling.Properties.DurableAttempt
import TenantBilling.Properties.StateMachine
import TenantBilling.Invariant.Scoped
import TenantBilling.Properties.TenantWrites
import TenantBilling.Properties.Noninterference
import TenantBilling.World.Agree
import TenantBilling.Properties.Refused
import TenantBilling.World.JsonText
import TenantBilling.Invariant.Each
import TenantBilling.Properties.Replay
import TenantBilling.Properties.Money
import TenantBilling.Properties.Errors
import TenantBilling.Base.Transcript
import TenantBilling.Invariant.Transcripts
import TenantBilling.Invariant.Reads
import TenantBilling.Points.Poll
import TenantBilling.Points.Requests
import TenantBilling.World.Posts
import TenantBilling.Invariant.Polling
import TenantBilling.Invariant.Deliveries
import TenantBilling.Properties.DeliveryStates
import TenantBilling.Properties.Schedule
import TenantBilling.Base.IntText
import TenantBilling.Model.Verification
import TenantBilling.Properties.Signatures
import TenantBilling.Properties.RoundTrip
import TenantBilling.Properties.Onwards
import TenantBilling.Properties.Ranges
import TenantBilling.Base.Paging
import TenantBilling.Properties.Paging
import TenantBilling.Properties.Outcomes
import TenantBilling.Properties.Payable
import TenantBilling.Properties.Outbox
import TenantBilling.Properties.Contest
import TenantBilling.Properties.ConcurrentPayments
import TenantBilling.Properties.ConcurrentRetries
import TenantBilling.Properties.Worker
import TenantBilling.Properties.Prefixes
import TenantBilling.Properties.Batches
import TenantBilling.Properties.Recorded
import TenantBilling.Properties.Independent
import TenantBilling.Properties.AtRest
import TenantBilling.Abstract.Ledger
import TenantBilling.Properties.Ledger
import TenantBilling.Properties.Tokens
import TenantBilling.Base.Accounts
import TenantBilling.Properties.Truthful
import TenantBilling.Properties.Drains
import TenantBilling.Properties.Later
import TenantBilling.World.Registers
import TenantBilling.Properties.Lasting
import TenantBilling.Properties.Emails
import TenantBilling.Model.Authentication
import TenantBilling.Model.Gateway
import TenantBilling.Properties.Directories
import TenantBilling.Properties.Gateway
import TenantBilling.Properties.Revocation
