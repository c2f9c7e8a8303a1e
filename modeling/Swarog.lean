import Swarog.Accounts.Deletion
import Swarog.Accounts.Fetches
import Swarog.AsyncEvents.Operator
import Swarog.AsyncEvents.Retention
import Swarog.Belongings
import Swarog.Config.Snapshots
import Swarog.Edge.Shutdown
import Swarog.Gateway.Headers
import Swarog.Gateway.KeyCache
import Swarog.Gateway.Presence
import Swarog.Gateway.Proxy
import Swarog.Httpmw.ClientIp
import Swarog.Httpmw.Limiter
import Swarog.Mail.Resend
import Swarog.Party.Revisions
import Swarog.Relations
import Swarog.Remote.Backplane
import Swarog.Remote.Executions
import Swarog.Scheduler.Once
import Swarog.Scheduler.Rotation
import Swarog.Spellings
import Swarog.Storage.Objects
import Swarog.Wallet.Purge
import Swarog.Wallet.Starter
