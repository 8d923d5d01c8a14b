import FlashBasic.Main
import FlashBasic.Proofs.Store.FlashPage
import FlashBasic.Proofs.Store.HeapSort
import FlashBasic.Proofs.Store.Search
import FlashBasic.Proofs.Store.Layout
import FlashBasic.Proofs.Store.Volume
import FlashBasic.Proofs.Store.Coherence
import FlashBasic.Proofs.Store.Recovery
import FlashBasic.Proofs.Store.Choice
import FlashBasic.Proofs.Store.Editing
import FlashBasic.Proofs.Store.Renewal
import FlashBasic.Proofs.Store.Contents
import FlashBasic.Proofs.Store.Reopening
import FlashBasic.Proofs.Store.Lines
import FlashBasic.Proofs.Store.Mounting
import FlashBasic.Proofs.Store.PowerLoss
import FlashBasic.Proofs.Store.RecordCopies
import FlashBasic.Proofs.Store.Compaction
import FlashBasic.Proofs.Store.ReadBack
import FlashBasic.Proofs.Store.Discipline
import FlashBasic.Proofs.Store.Guarded
import FlashBasic.Proofs.Text
import FlashBasic.Proofs.Token.Words
import FlashBasic.Proofs.Token.Tokenizing
import FlashBasic.Proofs.Token.Listing
import FlashBasic.Proofs.Token.Relisting
import FlashBasic.Proofs.Line.Typed
import FlashBasic.Proofs.Line.Retyping
import FlashBasic.Proofs.Expr.Tree
import FlashBasic.Proofs.Expr.Phrase
import FlashBasic.Proofs.Expr.Evaluation
import FlashBasic.Proofs.Expr.Lexing
import FlashBasic.Proofs.Expr.Counting
import FlashBasic.Proofs.Expr.Acceptance
import FlashBasic.Proofs.Machine.Reading
import FlashBasic.Proofs.Machine.Moves
import FlashBasic.Proofs.Machine.Course
import FlashBasic.Proofs.Machine.Stack
import FlashBasic.Proofs.Machine.Shadowing
import FlashBasic.Proofs.Machine.Program
import FlashBasic.Proofs.Machine.Performing
import FlashBasic.Proofs.Machine.Heap
import FlashBasic.Proofs.Machine.Partition
import FlashBasic.Proofs.Machine.Places
import FlashBasic.Proofs.Machine.Calls
import FlashBasic.Proofs.Machine.Blocks
import FlashBasic.Proofs.Machine.Loops
import FlashBasic.Proofs.Machine.Ending
import FlashBasic.Proofs.Machine.Reachable
import FlashBasic.Proofs.Machine.Entering
import FlashBasic.Proofs.Machine.Recording
import FlashBasic.Proofs.Machine.Failing
import FlashBasic.Proofs.Machine.Transfer
import FlashBasic.Proofs.Machine.Files
import FlashBasic.Proofs.Machine.Filing
import FlashBasic.Proofs.Machine.FileRuns
import FlashBasic.Proofs.Store.Safety
import FlashBasic.Proofs.Token.InPlace
import FlashBasic.Proofs.Flash.Image
import FlashBasic.Proofs.Machine.FailedLoops
import FlashBasic.Proofs.Machine.Hidden
import FlashBasic.Proofs.Line.Numbers
import FlashBasic.Proofs.Machine.ItemLoops
import FlashBasic.Proofs.Store.Ages
