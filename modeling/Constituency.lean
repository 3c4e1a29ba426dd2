import Constituency.Text.Reading
import Constituency.Score.Float
import Constituency.Model.Dropout
import Constituency.Derivation.Bracketed
import Constituency.Tree.Listing
import Constituency.Search.Searcher
import Constituency.Proofs.ExtendedReal
import Constituency.Proofs.Fold
import Constituency.Proofs.Grounded
import Constituency.Proofs.UnlimitedBeam
import Constituency.Proofs.Numbering
import Constituency.Proofs.UnaryGraph
import Constituency.Proofs.Filed
import Constituency.Proofs.BottomUp
import Constituency.Proofs.Built
import Constituency.Proofs.Table
import Constituency.Proofs.Intervals
import Constituency.Derivation.Parse
import Constituency.Proofs.Parents
import Constituency.Proofs.Parse
import Constituency.Proofs.Admitted
import Constituency.Proofs.ParseScore
import Constituency.Proofs.ScoreOrder
import Constituency.Proofs.Settling
import Constituency.Proofs.Closure
import Constituency.Proofs.BestCells
import Constituency.Proofs.ReadOff
import Constituency.Proofs.Links
import Constituency.Proofs.Outcomes
import Constituency.Proofs.BeamRounds
import Constituency.Proofs.FilledChart
import Constituency.Proofs.ChartScores
import Constituency.Proofs.ExactSearch
import Constituency.Proofs.BeamSearch
import Constituency.Proofs.MassCells
import Constituency.Proofs.Balance
import Constituency.Proofs.InsidePass
import Constituency.Proofs.LiveParses
import Constituency.Proofs.Partition
import Constituency.Proofs.RuleCodes
import Constituency.Proofs.Runs
import Constituency.Proofs.NumbersDrawn
import Constituency.Proofs.Sampling
import Constituency.Proofs.LegalSamples
import Constituency.Proofs.Ancestry
import Constituency.Proofs.Accepted
import Constituency.Proofs.FlatParse
import Constituency.Proofs.TreeParse
import Constituency.Proofs.GrownTree
import Constituency.Proofs.SpanOrder
import Constituency.Proofs.TreeMoves
import Constituency.Proofs.HillClimb
import Constituency.Proofs.DrawnParses
import Constituency.Proofs.RestartAccounts
import Constituency.Proofs.RestartSearch
import Constituency.Proofs.Interleaving
import Constituency.Proofs.SoundSearch
import Constituency.Proofs.MoveSet
import Constituency.Proofs.Calls
import Constituency.Proofs.UnaryRules
import Constituency.Proofs.UnaryOrder
import Constituency.Proofs.LocalOptimum
import Constituency.Proofs.LastLabel
import Constituency.Proofs.UnaryChains
import Constituency.Proofs.LoopFree
import Constituency.Proofs.Written
import Constituency.Proofs.TextLines
import Constituency.Proofs.FaultPlaces
import Constituency.Proofs.FailedStatements
import Constituency.Proofs.Rereading
import Constituency.Proofs.ParentLinks
import Constituency.Proofs.Preorder
import Constituency.Proofs.RoundTrip
import Constituency.Proofs.Descriptions
import Constituency.Proofs.FeatureCounts
import Constituency.Proofs.LogSpace
import Constituency.Proofs.BracketedText
import Constituency.Proofs.DrawnPlace
import Constituency.Proofs.DropoutRate
import Constituency.Proofs.LargestScore
import Constituency.Proofs.TableCalls
