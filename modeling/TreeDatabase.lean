import TreeDatabase.CommandLine.Machine
import TreeDatabase.Main
import TreeDatabase.Proofs.Database.FileBackend
import TreeDatabase.Proofs.Database.Serialized
import TreeDatabase.Proofs.Engine.Alphabet
import TreeDatabase.Proofs.Engine.Defining
import TreeDatabase.Proofs.Engine.Deleting
import TreeDatabase.Proofs.Engine.Renaming
import TreeDatabase.Proofs.Engine.Repetition
import TreeDatabase.Proofs.Engine.Targets
import TreeDatabase.Proofs.Exchange.Merged
import TreeDatabase.Proofs.Operation.Reading
import TreeDatabase.Proofs.Ruleset.Exactness
import TreeDatabase.Proofs.Ruleset.Renaming
import TreeDatabase.Proofs.Statement.Completeness
import TreeDatabase.Proofs.Store.Repathing
import TreeDatabase.Proofs.Store.Patterns
import TreeDatabase.Proofs.Store.MergeEffect
import TreeDatabase.Proofs.Operation.Mutators
import TreeDatabase.Proofs.Engine.Safety
import TreeDatabase.Proofs.Operation.Settled
import TreeDatabase.Proofs.Operation.Rewriting
import TreeDatabase.Proofs.Ruleset.Redefinition
import TreeDatabase.Proofs.Engine.Idempotence
import TreeDatabase.Proofs.Store.Handles
import TreeDatabase.Proofs.Statement.Rendering
import TreeDatabase.Proofs.Engine.Keywords
import TreeDatabase.Proofs.Engine.Quotation
import TreeDatabase.Proofs.Ruleset.Bounds
import TreeDatabase.Proofs.Generator.FreshNumbers
import TreeDatabase.Proofs.Generator.Typed
import TreeDatabase.Proofs.Exchange.RecordJson
import TreeDatabase.Proofs.Exchange.Xml
import TreeDatabase.Proofs.Script.Buffering
import TreeDatabase.Proofs.Exchange.Printed
import TreeDatabase.Proofs.Reply.TreeLines
import TreeDatabase.Proofs.Statement.KeywordFields
import TreeDatabase.Proofs.Store.Preorder
import TreeDatabase.Proofs.Statement.Conditions
