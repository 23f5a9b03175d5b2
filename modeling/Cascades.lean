import Cascades.Constraint.Json
import Cascades.Main
import Cascades.Memo.Json
import Cascades.Pattern.Json
import Cascades.Statistics.Json
import Cascades.Proofs.Action
import Cascades.Proofs.Stateful
import Cascades.Proofs.Memo.History
import Cascades.Proofs.Memo.Resolution
import Cascades.Proofs.Memo.Formed
import Cascades.Proofs.Binding.Giving
import Cascades.Proofs.Binding.Turning
import Cascades.Proofs.Binding.Resumption
import Cascades.Proofs.Binding.Completeness
import Cascades.Proofs.Binding.Drawn
import Cascades.Proofs.Property.Reading
import Cascades.Proofs.Property.Completion
import Cascades.Proofs.Statistics
import Cascades.Proofs.JoinOrder
import Cascades.Proofs.Search.Candidates
import Cascades.Proofs.Search.Round
import Cascades.Proofs.Search.Exhaustion
import Cascades.Proofs.Search.Budget
import Cascades.Proofs.Meaning.Row
import Cascades.Proofs.Meaning.Scope
import Cascades.Proofs.Meaning.Sense
import Cascades.Proofs.Meaning.Joined
import Cascades.Proofs.Meaning.Group
import Cascades.Proofs.Meaning.Sound
import Cascades.Proofs.Meaning.Facts
import Cascades.Proofs.Meaning.Coherence
import Cascades.Proofs.Meaning.Predicate
import Cascades.Proofs.Meaning.Join
import Cascades.Proofs.Meaning.Exploration
import Cascades.Proofs.Meaning.Expansion
import Cascades.Proofs.Meaning.Implementation
import Cascades.Proofs.Meaning.Run
import Cascades.Proofs.Meaning.Plan
import Cascades.Proofs.Meaning.Query
import Cascades.Proofs.Plan.Memory
import Cascades.Proofs.Rule.Implementation
import Cascades.Proofs.Search.Safety
import Cascades.Proofs.Search.Reach
import Cascades.Proofs.Binding.Presence
import Cascades.Proofs.Plan.Implementable
import Cascades.Proofs.Search.Planning
import Cascades.Proofs.Constraint.Range
import Cascades.Proofs.Constraint.Place
import Cascades.Proofs.Constraint.Interval
import Cascades.Proofs.Constraint.Satisfaction
import Cascades.Proofs.Constraint.Building
import Cascades.Proofs.Constraint.Contradiction
import Cascades.Proofs.Constraint.Recognition
import Cascades.Proofs.Constraint.Predicate
import Cascades.Proofs.Meaning.Standard
import Cascades.Proofs.Meaning.Regular
import Cascades.Proofs.Meaning.Values
import Cascades.Proofs.Meaning.Shown
import Cascades.Proofs.Meaning.Size
import Cascades.Proofs.Search.Invariant
import Cascades.Proofs.Property.Knowledge
import Cascades.Proofs.Property.Constraint
import Cascades.Proofs.Property.Cardinality
import Cascades.Proofs.Gathering.Contents
import Cascades.Proofs.Gathering.Gathered
import Cascades.Proofs.Gathering.Exploration
import Cascades.Proofs.Gathering.Expansion
import Cascades.Proofs.JoinRequest.Tables
import Cascades.Proofs.JoinRequest.Loading
import Cascades.Proofs.JoinRequest.Tree
import Cascades.Proofs.JoinRequest.Answer
import Cascades.Proofs.Gathering.Rearranged
import Cascades.Proofs.Gathering.Rearranging
import Cascades.Proofs.Gathering.Counting
import Cascades.Proofs.Gathering.Bound
import Cascades.Proofs.Search.Termination
import Cascades.Proofs.Memo.Growth
import Cascades.Proofs.Search.Forms
import Cascades.Proofs.Estimate
import Cascades.Proofs.Search.GroupLimit
import Cascades.Proofs.Property.Retention
import Cascades.Proofs.Rule.Lasting
import Cascades.Proofs.Plan.Transfer
import Cascades.Proofs.Search.Comparison
import Cascades.Proofs.Search.Interruption
import Cascades.Proofs.Property.Repetition
import Cascades.Proofs.Property.Derivation
import Cascades.Proofs.Property.Routine
import Cascades.Proofs.Property.Scratch
import Cascades.Proofs.Property.Interleaving
import Cascades.Proofs.Property.Profile
import Cascades.Proofs.Gathering.Members
import Cascades.Proofs.Search.Members
import Cascades.Proofs.Meaning.Behaviour
import Cascades.Proofs.Property.Dependence
import Cascades.Proofs.Constraint.View
import Cascades.Proofs.Memo.Permanence
import Cascades.Proofs.JoinRequest.Totality
import Cascades.Proofs.Search.Orders
import Cascades.Proofs.Constraint.Renaming
import Cascades.Proofs.Double
import Cascades.Proofs.Greedy.Course
import Cascades.Proofs.Greedy.Application
import Cascades.Proofs.Greedy.Crossing
import Cascades.Proofs.Greedy.Choice
import Cascades.Proofs.Plan.Depth
import Cascades.Proofs.Plan.Shape
import Cascades.Proofs.Binding.Order
import Cascades.Proofs.Binding.Growing
import Cascades.Proofs.Rule.Image
import Cascades.Proofs.Search.Exactness
import Cascades.Proofs.Search.Crossless
import Cascades.Proofs.Memo.Shapes
import Cascades.Proofs.Statistics.Agreement
import Cascades.Proofs.JoinRequest.Statistics
import Cascades.Proofs.Property.Agreement
import Cascades.Proofs.Memo.Flattening
import Cascades.Proofs.Search.Worklist
import Cascades.Proofs.Double.Parts
import Cascades.Proofs.Double.Rounding
import Cascades.Proofs.Constraint.Clash
import Cascades.Proofs.Descent
import Cascades.Proofs.Property.Readiness
import Cascades.Proofs.Search.FirstMembers
