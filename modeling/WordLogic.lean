import WordLogic.Workspace
import WordLogic.Proofs.Blob.RoundTrip
import WordLogic.Proofs.Blob.Damage
import WordLogic.Proofs.Blob.Truncation
import WordLogic.Proofs.Blob.Source
import WordLogic.Proofs.Condition.Memory
import WordLogic.Proofs.Condition.Casing
import WordLogic.Proofs.Condition.Explanation
import WordLogic.Proofs.RuleFile.Grammar
import WordLogic.Proofs.RuleSet.Selection
import WordLogic.Proofs.Tree.Truth
import WordLogic.Proofs.RuleFile.Readers
import WordLogic.Proofs.RuleFile.Lines
import WordLogic.Proofs.Condition.Enclosure
import WordLogic.Proofs.Condition.Wrapping
import WordLogic.Proofs.Condition.Parentheses
import WordLogic.Proofs.RuleSet.Report
import WordLogic.Proofs.RuleSet.Naming
import WordLogic.Proofs.Condition.Display
import WordLogic.Proofs.RuleFile.Writing
import WordLogic.Proofs.RuleSet.Polarity
import WordLogic.Proofs.Condition.Steps
import WordLogic.Proofs.Condition.Layout
import WordLogic.Proofs.Sentence
