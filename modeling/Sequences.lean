import Sequences.Feed.Plan
import Sequences.Fibonacci
import Sequences.Proofs.Bracketing
import Sequences.Proofs.Closing
import Sequences.Proofs.Conservation
import Sequences.Proofs.Course
import Sequences.Proofs.Delivery
import Sequences.Proofs.Demand
import Sequences.Proofs.Draws
import Sequences.Proofs.Eager
import Sequences.Proofs.ExactTerms
import Sequences.Proofs.FinerKeys
import Sequences.Proofs.FirstGreatest
import Sequences.Proofs.FirstPlaces
import Sequences.Proofs.FullCycle
import Sequences.Proofs.GroupDemand
import Sequences.Proofs.Halving
import Sequences.Proofs.Instalments
import Sequences.Proofs.Interleaving
import Sequences.Proofs.Interruption
import Sequences.Proofs.Ledger
import Sequences.Proofs.Lookahead
import Sequences.Proofs.OrderedUnion
import Sequences.Proofs.Orders
import Sequences.Proofs.Palindromes
import Sequences.Proofs.PlainLetters
import Sequences.Proofs.Progress
import Sequences.Proofs.Questions
import Sequences.Proofs.Refusal
import Sequences.Proofs.Regrouping
import Sequences.Proofs.Reversal
import Sequences.Proofs.SearchEffort
import Sequences.Proofs.SharedInput
import Sequences.Proofs.ShortestPrefix
import Sequences.Proofs.Sifting
import Sequences.Proofs.Spelling
import Sequences.Proofs.StableMerge
import Sequences.Proofs.Standing
import Sequences.Proofs.Unnoted
import Sequences.Proofs.Vowels
import Sequences.Text.Reading
import Sequences.Workspace.Basic
