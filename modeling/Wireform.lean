import Wireform.Document.Write
import Wireform.Instance.Capture
import Wireform.Json.Scan
import Wireform.Json.Scanner
import Wireform.Proofs.Binary.Acceptance
import Wireform.Proofs.Binary.Consumption
import Wireform.Proofs.Binary.Failures
import Wireform.Proofs.Binary.Limits
import Wireform.Proofs.Binary.Respelling
import Wireform.Proofs.Binary.Results
import Wireform.Proofs.Binary.Reuse
import Wireform.Proofs.Binary.Spelling
import Wireform.Proofs.Binary.Stream
import Wireform.Proofs.Binary.Takes
import Wireform.Proofs.Bytes.Groups
import Wireform.Proofs.Bytes.Payloads
import Wireform.Proofs.Bytes.Windows
import Wireform.Proofs.Curtails
import Wireform.Proofs.Document.Agreement
import Wireform.Proofs.Document.Ending
import Wireform.Proofs.Document.Exactness
import Wireform.Proofs.Document.Extent
import Wireform.Proofs.Document.Failures
import Wireform.Proofs.Document.Formats
import Wireform.Proofs.Document.Limits
import Wireform.Proofs.Document.Members
import Wireform.Proofs.Document.Orders
import Wireform.Proofs.Document.Pacing
import Wireform.Proofs.Document.Presentation
import Wireform.Proofs.Document.Reading
import Wireform.Proofs.Document.Renamed
import Wireform.Proofs.Document.Repetition
import Wireform.Proofs.Document.Results
import Wireform.Proofs.Document.RoundTrip
import Wireform.Proofs.Document.Texts
import Wireform.Proofs.Document.Writing
import Wireform.Proofs.Instance.Assigning
import Wireform.Proofs.Instance.Conforming
import Wireform.Proofs.Instance.Conversion
import Wireform.Proofs.Instance.Decoding
import Wireform.Proofs.Instance.Defaults
import Wireform.Proofs.Instance.Equality
import Wireform.Proofs.Instance.Typed
import Wireform.Proofs.Json.Boundaries
import Wireform.Proofs.Json.Building
import Wireform.Proofs.Json.Bytewise
import Wireform.Proofs.Json.Calls
import Wireform.Proofs.Json.Compact
import Wireform.Proofs.Json.Delivery
import Wireform.Proofs.Json.Drafting
import Wireform.Proofs.Json.Escapes
import Wireform.Proofs.Json.Grammar
import Wireform.Proofs.Json.Keeping
import Wireform.Proofs.Json.Lexing
import Wireform.Proofs.Json.Moves
import Wireform.Proofs.Json.Names
import Wireform.Proofs.Json.PlusSigns
import Wireform.Proofs.Json.Runs
import Wireform.Proofs.Json.Scanning
import Wireform.Proofs.Json.Skipping
import Wireform.Proofs.Registry
import Wireform.Proofs.Schema.Checking
import Wireform.Proofs.Schema.Declared
import Wireform.Proofs.Schema.Reachable
import Wireform.Proofs.Schema.Validation
import Wireform.Proofs.Traversal
import Wireform.Proofs.Units.Zone
import Wireform.Proofs.Value.Normal
import Wireform.Proofs.Value.Regular
import Wireform.Proofs.Yields
import Wireform.Registry
