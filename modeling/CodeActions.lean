import CodeActions.Settings
import CodeActions.Edit
import CodeActions.Offer
import CodeActions.Failure
import CodeActions.Settings.Yaml
import CodeActions.Settings.Loading
import CodeActions.Session
import CodeActions.Provider.Script
import CodeActions.Notice.Filter
import CodeActions.Proofs.Discovery.Pass
import CodeActions.Proofs.Discovery.Cancellation
import CodeActions.Proofs.Registration.History
import CodeActions.Proofs.Registration.Sessions
import CodeActions.Proofs.Registration.Slots
import CodeActions.Proofs.Routing
import CodeActions.Proofs.Discovery.Finality
import CodeActions.Proofs.Json.Document
import CodeActions.Proofs.Json.Lexing
import CodeActions.Proofs.Json.Parsing
import CodeActions.Proofs.Json.Reading
import CodeActions.Proofs.Json.Record
import CodeActions.Proofs.Json.Integer
import CodeActions.Proofs.Json.Codec
import CodeActions.Proofs.Json.Alike
import CodeActions.Proofs.Wire
import CodeActions.Proofs.Json.Printing
import CodeActions.Proofs.Json.RoundTrip
import CodeActions.Proofs.Json.Canonical
import CodeActions.Proofs.Json.Numbers
import CodeActions.Proofs.Settings.Extra
import CodeActions.Proofs.Yaml.Content
import CodeActions.Proofs.Settings.RoundTrip
import CodeActions.Proofs.Json.Resolution
import CodeActions.Proofs.Wire.RoundTrip
import CodeActions.Proofs.Settings.Reading
import CodeActions.Proofs.Discovery.Offered
import CodeActions.Proofs.Discovery.Contributions
import CodeActions.Proofs.Breakdown
import CodeActions.Proofs.Registration.Views
import CodeActions.Proofs.Renaming
import CodeActions.Proofs.Discovery.Insertion
import CodeActions.Proofs.LoadingOrder
import CodeActions.Proofs.Registration.Isolation
import CodeActions.Proofs.Registration.Strict
import CodeActions.Proofs.Json.KeyOrder
import CodeActions.Proofs.Json.Reordering
import CodeActions.Proofs.Settings.Canonical
import CodeActions.Proofs.Json.Nesting
import CodeActions.Proofs.Yaml.Refold
import CodeActions.Proofs.Yaml.Quoted
import CodeActions.Proofs.Yaml.Plain
import CodeActions.Proofs.Yaml.Scanning
import CodeActions.Proofs.Yaml.Tokens
import CodeActions.Proofs.Yaml.Signs
import CodeActions.Proofs.Yaml.Characters
import CodeActions.Proofs.Yaml.Reread
import CodeActions.Proofs.Yaml.Verbatim
import CodeActions.Proofs.Yaml.Growing
import CodeActions.Proofs.Yaml.Documents
import CodeActions.Proofs.Yaml.Shown
import CodeActions.Proofs.Settings.BothReaders
import CodeActions.Proofs.Selection
import CodeActions.Proofs.Newline
import CodeActions.Proofs.Wire.Spans
import CodeActions.Proofs.Registration.Accounts
import CodeActions.Proofs.Settings.Loading
