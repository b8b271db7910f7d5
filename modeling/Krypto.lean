import Krypto.Aead
import Krypto.Aead.Authentic
import Krypto.Aead.Header
import Krypto.Aead.Length
import Krypto.Aead.Reseal
import Krypto.Aead.Verdict
import Krypto.Base64
import Krypto.Base64.Canonical
import Krypto.Base64.Digits
import Krypto.Calendar
import Krypto.Cli
import Krypto.Cli.Args
import Krypto.Cli.ExitCode
import Krypto.Cli.Grammar
import Krypto.Cli.ReadSecret
import Krypto.Cli.SealOpen
import Krypto.Cli.Stdout
import Krypto.Cli.WrongCall
import Krypto.Effect.Crash
import Krypto.Effect.Descriptors
import Krypto.Effect.Disk
import Krypto.Effect.Embed
import Krypto.Effect.Host
import Krypto.Effect.HostErrors
import Krypto.Effect.Kernel
import Krypto.Effect.Logic
import Krypto.Effect.Memory
import Krypto.Effect.Parties
import Krypto.Effect.Program
import Krypto.Effect.Protocol
import Krypto.Effect.Quiet
import Krypto.Effect.Ram
import Krypto.Effect.Recursion
import Krypto.Effect.Rely
import Krypto.Effect.Service
import Krypto.Effect.Stateful
import Krypto.Effect.Tree
import Krypto.Error
import Krypto.Harden
import Krypto.Hex
import Krypto.Hex.Canonical
import Krypto.Inspect
import Krypto.Inspect.Base64Text
import Krypto.Inspect.Blind
import Krypto.Inspect.DateTime
import Krypto.Inspect.Der
import Krypto.Inspect.Elements
import Krypto.Inspect.Encoding
import Krypto.Inspect.Entries
import Krypto.Inspect.Families
import Krypto.Inspect.Files
import Krypto.Inspect.Finding
import Krypto.Inspect.Formats
import Krypto.Inspect.HexText
import Krypto.Inspect.Json
import Krypto.Inspect.KeePass
import Krypto.Inspect.Layers
import Krypto.Inspect.Nested
import Krypto.Inspect.Octets
import Krypto.Inspect.Oid
import Krypto.Inspect.P256
import Krypto.Inspect.Packets
import Krypto.Inspect.Passphrase
import Krypto.Inspect.PasswordHash
import Krypto.Inspect.Pgp
import Krypto.Inspect.Pkix
import Krypto.Inspect.Plain
import Krypto.Inspect.Printable
import Krypto.Inspect.Printable.Copies
import Krypto.Inspect.Printable.Formats
import Krypto.Inspect.Printable.Pgp
import Krypto.Inspect.Printable.Pkix
import Krypto.Inspect.Printable.Texts
import Krypto.Inspect.Quoted
import Krypto.Inspect.RsaSize
import Krypto.Inspect.Ssh
import Krypto.Inspect.Zip
import Krypto.Kdf
import Krypto.LockedPages
import Krypto.LockedPages.Apart
import Krypto.Password
import Krypto.Python
import Krypto.Python.Calls
import Krypto.Python.Counts
import Krypto.Python.Descriptors
import Krypto.Python.Ownership
import Krypto.Radix
import Krypto.Secret
import Krypto.Secret.Pages
import Krypto.Secret.Threads
import Krypto.Sign
import Krypto.Store
import Krypto.Store.Acceptance
import Krypto.Store.Alias
import Krypto.Store.Binding
import Krypto.Store.Calls
import Krypto.Store.Codec
import Krypto.Store.Conflict
import Krypto.Store.Crash
import Krypto.Store.Descriptors
import Krypto.Store.Durability
import Krypto.Store.Effects
import Krypto.Store.Exclusion
import Krypto.Store.Failure
import Krypto.Store.File
import Krypto.Store.Format
import Krypto.Store.Grammar
import Krypto.Store.Holder
import Krypto.Store.Image
import Krypto.Store.Interleaving
import Krypto.Store.Locking
import Krypto.Store.Name
import Krypto.Store.Opening
import Krypto.Store.Operations
import Krypto.Store.Outline
import Krypto.Store.Path
import Krypto.Store.Refinement
import Krypto.Store.Refusal
import Krypto.Store.Replacing
import Krypto.Store.Rotation
import Krypto.Store.Secrets
import Krypto.Store.Serial
import Krypto.Store.Session
import Krypto.Store.Sharing
import Krypto.Store.Size
import Krypto.Str
import Krypto.Text
