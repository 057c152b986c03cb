import PatternTable.Files.Disk
import PatternTable.Main
import PatternTable.Proofs.Calendar
import PatternTable.Proofs.Casing
import PatternTable.Proofs.Module.Includes
import PatternTable.Proofs.Module.Planning
import PatternTable.Proofs.Table.DebugNames
import PatternTable.Proofs.Table.Definitions
import PatternTable.Proofs.Table.Rearranged
import PatternTable.Proofs.Table.Records
import PatternTable.Proofs.Workspace.Changes
import PatternTable.Proofs.Workspace.Duplicates
import PatternTable.Proofs.Workspace.Findings
import PatternTable.Proofs.Workspace.Identifiers
import PatternTable.Proofs.Workspace.Isolation
import PatternTable.Proofs.Workspace.References
import PatternTable.Proofs.Workspace.Regeneration
import PatternTable.Proofs.Workspace.Removal
import PatternTable.Proofs.Workspace.Specifiers
import PatternTable.Proofs.Files.Disk
import PatternTable.Proofs.Command.Delivery
import PatternTable.Proofs.Command.Forecast
import PatternTable.Proofs.Grammar.Spellings
import PatternTable.Proofs.Rule.Comments
import PatternTable.Proofs.Workspace.Comments
import PatternTable.Proofs.Scope.Members
import PatternTable.Proofs.Scope.Remarks
import PatternTable.Proofs.Scope.Selection
import PatternTable.Proofs.Tree.Inline
import PatternTable.Proofs.Tree.Spacing
import PatternTable.Proofs.Regex.Flags
import PatternTable.Proofs.Regex.CharacterSets
import PatternTable.Proofs.Regex.Delimiters
import PatternTable.Proofs.Regex.Terminators
import PatternTable.Proofs.Regex.Stability
import PatternTable.Proofs.Regex.Names
import PatternTable.Proofs.Regex.Lossless
