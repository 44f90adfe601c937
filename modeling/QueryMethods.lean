import QueryMethods.Filter.Inline
import QueryMethods.Main
import QueryMethods.Proofs.Filter.Aliases
import QueryMethods.Proofs.Filter.Concord
import QueryMethods.Proofs.Filter.Injection
import QueryMethods.Proofs.Filter.Inlining
import QueryMethods.Proofs.Filter.Positions
import QueryMethods.Proofs.Filter.Rebinding
import QueryMethods.Proofs.Filter.TextFunctions
import QueryMethods.Proofs.Filter.Ungrouped
import QueryMethods.Proofs.Grammar.Walk
import QueryMethods.Proofs.Invocation.Failures
import QueryMethods.Proofs.Name.Faults
import QueryMethods.Proofs.Name.Meaning
import QueryMethods.Proofs.Name.Styles
import QueryMethods.Proofs.Pattern.Around
import QueryMethods.Proofs.Pattern.Regex
import QueryMethods.Proofs.Placeholder
import QueryMethods.Proofs.Reading.Meaning
import QueryMethods.Proofs.Repository
import QueryMethods.Proofs.Survey
import QueryMethods.Proofs.Text.Redaction
import QueryMethods.Proofs.Traversal.Script
import QueryMethods.Proofs.Value.Equality
import QueryMethods.Repository
import QueryMethods.Value.Equality
