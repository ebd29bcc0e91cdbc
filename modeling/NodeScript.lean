import NodeScript.Main
import NodeScript.Proofs.NestingLimit
import NodeScript.Proofs.Cancellation
import NodeScript.Proofs.Schedules
import NodeScript.Proofs.Stepping
import NodeScript.Proofs.Phases
import NodeScript.Proofs.Disconnection
import NodeScript.Proofs.CallerScopes
import NodeScript.Proofs.ArrayLengths
import NodeScript.Proofs.Faithfulness
import NodeScript.Proofs.Parse.Printed
import NodeScript.Proofs.Spellings
import NodeScript.Proofs.Documents
import NodeScript.Proofs.Cycles
import NodeScript.Proofs.Relays
import NodeScript.Proofs.NameSpace
import NodeScript.Proofs.TokenLines
import NodeScript.Proofs.Records
import NodeScript.Proofs.Retargeting
import NodeScript.Proofs.Parse.Nesting
import NodeScript.Proofs.Parse.Viability
import NodeScript.Proofs.StrayJumps
import NodeScript.Proofs.CallLimit
import NodeScript.Proofs.NumericPrefix
import NodeScript.Proofs.EditorFlows
import NodeScript.Proofs.Suggestions
import NodeScript.Proofs.Grouping
