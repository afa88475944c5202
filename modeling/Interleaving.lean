import Interleaving.Actors.Campaign
import Interleaving.Json.Reader
import Interleaving.Proofs.Accounting
import Interleaving.Proofs.ActorIterations
import Interleaving.Proofs.ActorRuns
import Interleaving.Proofs.ActorSteps
import Interleaving.Proofs.Alternatives
import Interleaving.Proofs.Attempts
import Interleaving.Proofs.BacktrackSets
import Interleaving.Proofs.Blocking
import Interleaving.Proofs.Candidates
import Interleaving.Proofs.Causality
import Interleaving.Proofs.ClockRows
import Interleaving.Proofs.ClockSizes
import Interleaving.Proofs.ClockUse
import Interleaving.Proofs.Clocks
import Interleaving.Proofs.Commuting
import Interleaving.Proofs.Completion
import Interleaving.Proofs.Conflicts
import Interleaving.Proofs.Consistency
import Interleaving.Proofs.Course
import Interleaving.Proofs.Deeds
import Interleaving.Proofs.DirectRaces
import Interleaving.Proofs.Directives
import Interleaving.Proofs.Divergence
import Interleaving.Proofs.DrawTrees
import Interleaving.Proofs.Exhaustive
import Interleaving.Proofs.Exploring
import Interleaving.Proofs.Forcing
import Interleaving.Proofs.Forgetting
import Interleaving.Proofs.Growth
import Interleaving.Proofs.HappensBefore
import Interleaving.Proofs.Inclusion
import Interleaving.Proofs.Iteration
import Interleaving.Proofs.JsonTexts
import Interleaving.Proofs.LevelMarks
import Interleaving.Proofs.Marking
import Interleaving.Proofs.Marks
import Interleaving.Proofs.Nodes
import Interleaving.Proofs.Noting
import Interleaving.Proofs.Ordering
import Interleaving.Proofs.Passed
import Interleaving.Proofs.Path
import Interleaving.Proofs.Picks
import Interleaving.Proofs.PlainRuns
import Interleaving.Proofs.RaceReversal
import Interleaving.Proofs.RaceWalks
import Interleaving.Proofs.RandomCalls
import Interleaving.Proofs.RandomIterations
import Interleaving.Proofs.RandomRaces
import Interleaving.Proofs.Reduction
import Interleaving.Proofs.Redundancy
import Interleaving.Proofs.Renumbering
import Interleaving.Proofs.Replays
import Interleaving.Proofs.Reversals
import Interleaving.Proofs.Rewinding
import Interleaving.Proofs.Schedules
import Interleaving.Proofs.Scheduling
import Interleaving.Proofs.Shuffles
import Interleaving.Proofs.SleepHistory
import Interleaving.Proofs.SleepSets
import Interleaving.Proofs.Sleepers
import Interleaving.Proofs.Soundness
import Interleaving.Proofs.Subruns
import Interleaving.Proofs.Sweep
import Interleaving.Proofs.Termination
import Interleaving.Proofs.ThreadTexts
import Interleaving.Proofs.Waking
import Interleaving.Proofs.Walking
import Interleaving.Proofs.WrittenForms
import Interleaving.Proofs.Yields
