import FlatMemory.CommandLine.InMemory
import FlatMemory.Main
import FlatMemory.Proofs.Access.Elements
import FlatMemory.Proofs.Batch
import FlatMemory.Proofs.Code.Agreement
import FlatMemory.Proofs.Code.ArgumentLists
import FlatMemory.Proofs.Code.BodyLines
import FlatMemory.Proofs.Code.Calls
import FlatMemory.Proofs.Code.ExpandedBody
import FlatMemory.Proofs.Code.Idempotence
import FlatMemory.Proofs.Code.LineCursor
import FlatMemory.Proofs.Code.Rewriting
import FlatMemory.Proofs.Session.CycleCheck
import FlatMemory.Proofs.Session.FieldPaths
import FlatMemory.Proofs.Session.MemberNames
import FlatMemory.Proofs.Session.Rounds
import FlatMemory.Proofs.Session.TagHash
import FlatMemory.Proofs.Text.Balance
import FlatMemory.Proofs.Text.Trie
import FlatMemory.Proofs.Token.Progress
