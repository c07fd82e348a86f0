import Scriptlet.Builtin.Answer
import Scriptlet.Builtin.Basic
import Scriptlet.Closure
import Scriptlet.Console
import Scriptlet.Fault
import Scriptlet.Fnv
import Scriptlet.HashKey
import Scriptlet.Keyed
import Scriptlet.Kind
import Scriptlet.Scopes.Basic
import Scriptlet.Scopes.Lemmas
import Scriptlet.Scopes.Outline
import Scriptlet.Session.Basic
import Scriptlet.Session.Command
import Scriptlet.Session.Snapshot
import Scriptlet.Session.Step
import Scriptlet.Session.Term
import Scriptlet.Store
import Scriptlet.Text.Basic
import Scriptlet.Text.Layout
import Scriptlet.Text.Quoted
import Scriptlet.Text.Shown
import Scriptlet.Tree.Basic
import Scriptlet.Tree.Draft
import Scriptlet.Tree.Equality
import Scriptlet.Tree.Operator
import Scriptlet.Tree.Outline
import Scriptlet.Tree.Source
import Scriptlet.Value.Basic
import Scriptlet.Value.Equality
import Scriptlet.Value.Hash
import Scriptlet.Value.Outline
import Scriptlet.Value.Render
import Scriptlet.Proofs.Forest
import Scriptlet.Proofs.Lookup
import Scriptlet.Proofs.Likeness
import Scriptlet.Proofs.Entries
import Scriptlet.Proofs.Host
import Scriptlet.Proofs.Tracing
import Scriptlet.Proofs.Commands
import Scriptlet.Proofs.Equality
import Scriptlet.Proofs.HashEquality
import Scriptlet.Proofs.LastWrite
import Scriptlet.Proofs.Congruence
import Scriptlet.Proofs.Legible
import Scriptlet.Proofs.UniqueReading
import Scriptlet.Proofs.Storable
import Scriptlet.Proofs.Creation
import Scriptlet.Proofs.Activation
import Scriptlet.Proofs.KeySeparation
import Scriptlet.Proofs.Printing
import Scriptlet.Proofs.Isolation
import Scriptlet.Proofs.Output
import Scriptlet.Proofs.Rewinding
import Scriptlet.Proofs.Spread
import Scriptlet.Proofs.Shadowing
import Scriptlet.Proofs.CallScope
import Scriptlet.Proofs.EntryOrder
import Scriptlet.Proofs.SharedHashes
import Scriptlet.Proofs.Subtrees
import Scriptlet.Proofs.Brackets
import Scriptlet.Proofs.Quotation
import Scriptlet.Proofs.Shapes
import Scriptlet.Proofs.TreeOutlines
import Scriptlet.Proofs.ValueOutlines
import Scriptlet.Proofs.ArrayLaws
import Scriptlet.Proofs.Registration
import Scriptlet.Proofs.ByteOrder
import Scriptlet.Proofs.LocalNames
