import BitcoinSpoon.Transaction.Validate
import BitcoinSpoon.Transaction.Binding
import BitcoinSpoon.Node.TxMessage
import BitcoinSpoon.Transaction.AddSignature
import BitcoinSpoon.Transaction.Again
import BitcoinSpoon.Transaction.Legacy
import BitcoinSpoon.Merkle.Bounds
import BitcoinSpoon.Merkle.Duplicates
import BitcoinSpoon.Merkle.Complete
import BitcoinSpoon.Node.Handshake
import BitcoinSpoon.Node.Close
import BitcoinSpoon.Tracker.Fee
import BitcoinSpoon.Tracker.Fresh
import BitcoinSpoon.Tracker.Restart
import BitcoinSpoon.Tracker.Funding
import BitcoinSpoon.Tracker.Analyze
import BitcoinSpoon.Tracker.VaultCache
import BitcoinSpoon.Analyzer.Masks
import BitcoinSpoon.Manager.Active
import BitcoinSpoon.Manager.SendTx
import BitcoinSpoon.Manager.Sync
import BitcoinSpoon.Manager.WorkQueue
import BitcoinSpoon.Address.RoundTrip
import BitcoinSpoon.Hd.Commute
import BitcoinSpoon.Loop.Lending
import BitcoinSpoon.Tracker.Scripts
import BitcoinSpoon.Analyzer.Payment
import BitcoinSpoon.Util.RoundTrips
import BitcoinSpoon.Store.BasicStorage
import BitcoinSpoon.Keys.Settings
import BitcoinSpoon.Keys.Devices
import BitcoinSpoon.Database.Locator
import BitcoinSpoon.Database.Transactions
import BitcoinSpoon.Database.Nodes
import BitcoinSpoon.Database.Competing
import BitcoinSpoon.Util.ScriptNum
import BitcoinSpoon.Util.Tokenizer
import BitcoinSpoon.Hd.Path
import BitcoinSpoon.Transaction.Sort
import BitcoinSpoon.Transaction.AddScripts
import BitcoinSpoon.Transaction.Copy
import BitcoinSpoon.Transaction.InRange
import BitcoinSpoon.Transaction.Multisig
import BitcoinSpoon.Util.Intersection
import BitcoinSpoon.Util.Components
import BitcoinSpoon.Message.Encrypted
import BitcoinSpoon.Util.Membership
import BitcoinSpoon.Util.FilterLoad
import BitcoinSpoon.Mnemonic.Bip39
import BitcoinSpoon.Manager.Rejects
import BitcoinSpoon.Manager.Received
import BitcoinSpoon.Store.Refused
import BitcoinSpoon.Keys.Import
import BitcoinSpoon.Keys.Nonces
import BitcoinSpoon.Manager.Deadline
import BitcoinSpoon.Webserver.Uri
import BitcoinSpoon.Webserver.Request
import BitcoinSpoon.Tracking.Wallets
import BitcoinSpoon.Tracking.Packets
import BitcoinSpoon.Tracking.Balance
import BitcoinSpoon.Tracking.Allocations
import BitcoinSpoon.Address.Vendored
import BitcoinSpoon.Tracking.Calls
import BitcoinSpoon.Manager.Wakeup
import BitcoinSpoon.Manager.Destroy
