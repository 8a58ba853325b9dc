import FuzzyControl.Codec.Settings
import FuzzyControl.Codec.Variable
import FuzzyControl.Decimal.Fixed
import FuzzyControl.Main
import FuzzyControl.Proofs.Admission
import FuzzyControl.Proofs.Centroid
import FuzzyControl.Proofs.Declaration
import FuzzyControl.Proofs.Extension
import FuzzyControl.Proofs.Independence
import FuzzyControl.Proofs.LatticeLaws
import FuzzyControl.Proofs.Lookup
import FuzzyControl.Proofs.Obtaining
import FuzzyControl.Proofs.Polarity
import FuzzyControl.Proofs.Rephrasing
import FuzzyControl.Proofs.Reports
import FuzzyControl.Proofs.RoundTrip
import FuzzyControl.Proofs.Summation
import FuzzyControl.Proofs.Recording
import FuzzyControl.Proofs.Statements
import FuzzyControl.Proofs.Refusal
import FuzzyControl.Proofs.Binary64.Sums
import FuzzyControl.Proofs.WeightedMean
import FuzzyControl.Proofs.DoubleNegation
import FuzzyControl.Proofs.Vocabulary
import FuzzyControl.Proofs.Divisors
import FuzzyControl.Proofs.StrategyNames
