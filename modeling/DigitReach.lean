import DigitReach.CommandLine
import DigitReach.Main
import DigitReach.Proofs.Concurrency
import DigitReach.Proofs.Optimality
import DigitReach.Proofs.Double
import DigitReach.Proofs.Numeral
import DigitReach.Proofs.Reader
import DigitReach.Proofs.Regrouping
import DigitReach.Proofs.Readback
import DigitReach.Proofs.Recipes
import DigitReach.Proofs.Trials
import DigitReach.Proofs.OperandOrder
import DigitReach.Proofs.Reachability
import DigitReach.Proofs.Rounding
import DigitReach.Proofs.Arithmetic
import DigitReach.Proofs.Accuracy
import DigitReach.Proofs.TextValue
import DigitReach.Proofs.Totals
import DigitReach.Proofs.Outcomes
import DigitReach.Proofs.Parentheses
import DigitReach.Proofs.Merges
import DigitReach.Proofs.Changes
import DigitReach.Proofs.Chronicle
import DigitReach.Proofs.Improvements
import DigitReach.Proofs.Repetitions
import DigitReach.Proofs.Advance
import DigitReach.Proofs.Surroundings
import DigitReach.Proofs.Undefined
import DigitReach.Proofs.ReportReading
import DigitReach.Proofs.ShownDigits
import DigitReach.Proofs.Concatenations
import DigitReach.Proofs.Ranks
