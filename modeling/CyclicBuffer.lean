import CyclicBuffer.Outline
import CyclicBuffer.Ring.Operation
import CyclicBuffer.Session.Run
import CyclicBuffer.Proofs.Circle
import CyclicBuffer.Proofs.Chunks
import CyclicBuffer.Proofs.Coherence
import CyclicBuffer.Proofs.Reachable
import CyclicBuffer.Proofs.Contents
import CyclicBuffer.Proofs.Queue
import CyclicBuffer.Proofs.Traffic
import CyclicBuffer.Proofs.Tokens
import CyclicBuffer.Proofs.Verdicts
import CyclicBuffer.Proofs.Custody
import CyclicBuffer.Proofs.Errands
import CyclicBuffer.Proofs.Handover
import CyclicBuffer.Proofs.Chronicle
import CyclicBuffer.Proofs.Steps
import CyclicBuffer.Proofs.Course
import CyclicBuffer.Proofs.Steady
import CyclicBuffer.Proofs.Transit
import CyclicBuffer.Proofs.Exits
import CyclicBuffer.Proofs.Snapshot
import CyclicBuffer.Proofs.Delivery
import CyclicBuffer.Proofs.Cancellation
import CyclicBuffer.Proofs.Nesting
import CyclicBuffer.Proofs.Suspension
import CyclicBuffer.Proofs.Refusal
import CyclicBuffer.Proofs.Account
import CyclicBuffer.Proofs.Supply
import CyclicBuffer.Proofs.Likeness
import CyclicBuffer.Proofs.Agreement
import CyclicBuffer.Proofs.Apart
import CyclicBuffer.Proofs.Alongside
import CyclicBuffer.Proofs.Stake
import CyclicBuffer.Proofs.Replay
import CyclicBuffer.Proofs.Serial
import CyclicBuffer.Proofs.Independence
import CyclicBuffer.Proofs.Words
import CyclicBuffer.Proofs.Unruly
import CyclicBuffer.Proofs.Reports
import CyclicBuffer.Proofs.Containment
import CyclicBuffer.Proofs.Journal
import CyclicBuffer.Proofs.Trace
import CyclicBuffer.Proofs.Bytewise
import CyclicBuffer.Proofs.Calls
import CyclicBuffer.Proofs.Relocation
import CyclicBuffer.Proofs.Renewal
import CyclicBuffer.Proofs.Budget
import CyclicBuffer.Proofs.Construction
import CyclicBuffer.Proofs.Removal
import CyclicBuffer.Proofs.Displacement
import CyclicBuffer.Proofs.Coverage
import CyclicBuffer.Proofs.Belief
import CyclicBuffer.Proofs.Relay
import CyclicBuffer.Proofs.Strides
