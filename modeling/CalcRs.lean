import CalcRs.Foundation.Outcome
import CalcRs.Foundation.Table
import CalcRs.Foundation.Kahn
import CalcRs.Foundation.Best
import CalcRs.Foundation.Dispatch
import CalcRs.Foundation.Budget
import CalcRs.Foundation.Lists
import CalcRs.Foundation.Paging
import CalcRs.Foundation.Digits
import CalcRs.CosmWasm.Std
import CalcRs.CosmWasm.Coins
import CalcRs.Model.Types
import CalcRs.Model.Market
import CalcRs.Model.Swap
import CalcRs.Model.Distribution
import CalcRs.Model.FinLimitOrder
import CalcRs.Model.Schedule
import CalcRs.Model.Condition
import CalcRs.Model.Node
import CalcRs.Model.Strategy
import CalcRs.Model.Scheduler
import CalcRs.Model.Manager
import CalcRs.Actions.Payouts
import CalcRs.Actions.Destinations
import CalcRs.Actions.Shares
import CalcRs.Actions.Remainder
import CalcRs.Actions.Quotes
import CalcRs.Actions.Overflow
import CalcRs.Actions.Pricing
import CalcRs.Actions.Routes
import CalcRs.Actions.Orders
import CalcRs.Actions.Targets
import CalcRs.Actions.Standing
import CalcRs.Conditions.Catchup
import CalcRs.Conditions.Execution
import CalcRs.Conditions.Cron
import CalcRs.Conditions.Trigger
import CalcRs.Conditions.Limits
import CalcRs.Conditions.Panics
import CalcRs.Conditions.Rebates
import CalcRs.Conditions.Batches
import CalcRs.Conditions.Filters
import CalcRs.Conditions.Values
import CalcRs.Runs.Graph
import CalcRs.Runs.Admission
import CalcRs.Runs.Loop
import CalcRs.Runs.Process
import CalcRs.Runs.Chain
import CalcRs.Runs.Messages
import CalcRs.Runs.Invariant
import CalcRs.Runs.Replacement
import CalcRs.Runs.Executions
import CalcRs.Runs.Ascent
import CalcRs.Runs.Ahead
import CalcRs.Runs.Tallies
import CalcRs.Runs.Orders
import CalcRs.Runs.Balances
import CalcRs.Runs.Cancel
import CalcRs.System.World
import CalcRs.System.Calls
import CalcRs.System.Rehearsal
import CalcRs.System.Fees
import CalcRs.System.Withdrawals
import CalcRs.System.Solvency
import CalcRs.System.Requests
import CalcRs.System.Status
import CalcRs.System.Listing
import CalcRs.System.Reentry
import CalcRs.System.Recursion
import CalcRs.Actions.Depth
import CalcRs.Actions.Guards
import CalcRs.Conditions.Due
import CalcRs.Conditions.Identity
import CalcRs.Foundation.Wire
import CalcRs.Model.Deposit
import CalcRs.Actions.Deposits
import CalcRs.Conditions.Sweeps
import CalcRs.Foundation.History
import CalcRs.Foundation.Hysteresis
import CalcRs.Runs.Tracking
import CalcRs.System.Payees
import CalcRs.System.Commands
import CalcRs.System.Registry
import CalcRs.System.Custody
import CalcRs.System.Levies
import CalcRs.System.Books
import CalcRs.System.Current
import CalcRs.System.Directory
import CalcRs.System.Recovery
import CalcRs.System.Wakeups
