import FieldShow.Main
import FieldShow.Show.Draft
import FieldShow.Proofs.Boundary
import FieldShow.Proofs.Building
import FieldShow.Proofs.Jumps
import FieldShow.Proofs.Scanning
import FieldShow.Proofs.Together
import FieldShow.Proofs.Isolation
import FieldShow.Proofs.Segments
import FieldShow.Proofs.Documents
import FieldShow.Proofs.Decimals
import FieldShow.Proofs.Scripts
import FieldShow.Proofs.Records
import FieldShow.Proofs.Packing
import FieldShow.Proofs.Growth
import FieldShow.Proofs.Recall
import FieldShow.Proofs.Unscripted
import FieldShow.Proofs.Reading
import FieldShow.Proofs.Moved
import FieldShow.Proofs.Origin
import FieldShow.Proofs.Answers
import FieldShow.Proofs.Stepping
import FieldShow.Proofs.Laps
import FieldShow.Proofs.Clashes
import FieldShow.Proofs.Navigation
import FieldShow.Proofs.Doglegs
import FieldShow.Proofs.GridLines
import FieldShow.Proofs.Formations
import FieldShow.Proofs.Fountains
import FieldShow.Proofs.Sentences
import FieldShow.Proofs.Pacing
import FieldShow.Proofs.Diagonals
import FieldShow.Proofs.Counts
