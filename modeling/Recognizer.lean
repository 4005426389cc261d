import Recognizer.Main
import Recognizer.Proofs.GeneratedTests
import Recognizer.Proofs.Verdict
import Recognizer.Proofs.Replay
import Recognizer.Proofs.Remainders
import Recognizer.Proofs.Representation
import Recognizer.Proofs.Language
import Recognizer.Proofs.Renaming
import Recognizer.Proofs.GivenWords
import Recognizer.Proofs.Escaping
import Recognizer.Proofs.Breaks
import Recognizer.Proofs.Reachability
import Recognizer.Proofs.Repetition
import Recognizer.Proofs.Size
import Recognizer.Proofs.Listing
import Recognizer.Proofs.Complaint
import Recognizer.Proofs.Indentation
import Recognizer.Proofs.StateNumbers
import Recognizer.Proofs.Parts
import Recognizer.Proofs.Embedding
import Recognizer.Proofs.Nesting
import Recognizer.Proofs.Geometry
import Recognizer.Proofs.Table
import Recognizer.Proofs.Newlines
import Recognizer.Proofs.Scopes
import Recognizer.Proofs.Graft
import Recognizer.Proofs.Refinement
