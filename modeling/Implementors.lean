import Implementors.Session
import Implementors.Proofs.Registry.Lookup
import Implementors.Proofs.Text.Lines
import Implementors.Proofs.Text.Trim
import Implementors.Proofs.Json.Takes
import Implementors.Proofs.Json.Written
import Implementors.Proofs.Descriptor.Written
import Implementors.Proofs.Script.EntryLines
import Implementors.Proofs.Script.Meaning
import Implementors.Proofs.Json.OneLine
import Implementors.Proofs.Script.RoundTrip
import Implementors.Proofs.Board.Conservation
import Implementors.Proofs.Board.Arrival
import Implementors.Proofs.Board.Slot
import Implementors.Proofs.Session.Hosts
import Implementors.Proofs.Session.Startup
import Implementors.Proofs.Index.Assembly
import Implementors.Proofs.Index.Synthetic
import Implementors.Proofs.Session.Growth
import Implementors.Proofs.Session.Install
import Implementors.Proofs.Text.Octets
import Implementors.Proofs.Path.Components
import Implementors.Proofs.TraitPath.Location
import Implementors.Proofs.TraitPath.RoundTrip
import Implementors.Proofs.Registry.Written
import Implementors.Proofs.Registry.Content
import Implementors.Proofs.Registry.Walk
import Implementors.Proofs.Registry.History
import Implementors.Proofs.Script.Canonical
import Implementors.Proofs.Json.Exact
import Implementors.Proofs.Json.Peeking
import Implementors.Proofs.Json.Skipped
import Implementors.Proofs.Descriptor.Exact
import Implementors.Proofs.Registry.Spelled
import Implementors.Proofs.Script.Loaders
import Implementors.Proofs.Session.Account
import Implementors.Proofs.Script.Relaid
import Implementors.Proofs.Descriptor.Shapes
import Implementors.Proofs.Script.EntryGrammar
import Implementors.Proofs.Index.Places
import Implementors.Proofs.Index.Shown
import Implementors.Proofs.Index.OwnLibrary
import Implementors.Proofs.Session.Inlining
import Implementors.Proofs.TraitPath.Above
import Implementors.Proofs.Path.Spelling
import Implementors.Proofs.TraitPath.Reading
import Implementors.Proofs.TraitPath.Order
import Implementors.Proofs.Fragment.Stored
import Implementors.Proofs.TraitPath.Separators
import Implementors.Proofs.Path.Texts
import Implementors.Proofs.Tree.Standing
