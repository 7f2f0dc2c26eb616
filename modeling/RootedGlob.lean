import RootedGlob.Main
import RootedGlob.Proofs.Brace.Alternation
import RootedGlob.Proofs.Brace.Closed
import RootedGlob.Proofs.Brace.Plain
import RootedGlob.Proofs.Path.Location
import RootedGlob.Proofs.Anchoring.Spelling
import RootedGlob.Proofs.PatternList.Tokens
import RootedGlob.Proofs.Lists
import RootedGlob.Proofs.Workspace.Folders
import RootedGlob.Proofs.Glob.Combined
import RootedGlob.Proofs.Anchoring.Placement
import RootedGlob.Proofs.Anchoring.Rendering
import RootedGlob.Proofs.Anchoring.Layout
import RootedGlob.Proofs.Anchoring.Decomposition
import RootedGlob.Proofs.Path.Ancestors
import RootedGlob.Proofs.Anchoring.Climbing
import RootedGlob.Proofs.Anchoring.Parents
import RootedGlob.Proofs.Brace.Counting
import RootedGlob.Proofs.Anchoring.Marks
import RootedGlob.Proofs.Anchoring.Damage
import RootedGlob.Proofs.Anchoring.Joins
import RootedGlob.Proofs.Glob.Matching
import RootedGlob.Proofs.Glob.Selection
import RootedGlob.Proofs.Brace.Remnants
import RootedGlob.Proofs.Scope.Exactness
import RootedGlob.Proofs.Scope.DefaultInclude
import RootedGlob.Proofs.Brace.Tree
import RootedGlob.Proofs.Glob.Escaping
import RootedGlob.Proofs.Glob.Segments
import RootedGlob.Proofs.Anchoring.AnyDepth
import RootedGlob.Proofs.Disk.Lookup
import RootedGlob.Proofs.Finder.Walk
import RootedGlob.Proofs.Workspace.Innermost
import RootedGlob.Proofs.Finder.Reporting
import RootedGlob.Proofs.Finder.Grouping
import RootedGlob.Proofs.Brace.Outcome
import RootedGlob.Proofs.PatternList.Separation
import RootedGlob.Proofs.PatternList.Seams
import RootedGlob.Proofs.Anchoring.Named
import RootedGlob.Proofs.Json.Lexing
import RootedGlob.Proofs.Json.Document
import RootedGlob.Proofs.Json.Stripping
import RootedGlob.Proofs.Octets.Offsets
import RootedGlob.Proofs.Octets.Tokens
import RootedGlob.Proofs.Octets.Strides
import RootedGlob.Proofs.Octets.Groups
import RootedGlob.Proofs.Octets.Expansion
import RootedGlob.Proofs.Anchoring.Order
import RootedGlob.Proofs.Workspace.Building
import RootedGlob.Proofs.Path.Normalizing
import RootedGlob.Proofs.Path.Joining
import RootedGlob.Proofs.Path.Relative
import RootedGlob.Proofs.Anchoring.Flattening
import RootedGlob.Proofs.Scope.Blank
import RootedGlob.Proofs.Settings.Layering
import RootedGlob.Proofs.Glob.Classes
import RootedGlob.Proofs.Path.Components
import RootedGlob.Proofs.Workspace.Loading
import RootedGlob.Proofs.Glob.Subtrees
import RootedGlob.Proofs.Finder.Exclusion
import RootedGlob.Proofs.Brace.Resuming
import RootedGlob.Proofs.Octets.Worklist
import RootedGlob.Proofs.Octets.Descent
import RootedGlob.Proofs.Settings.Overlay
import RootedGlob.Proofs.Settings.Precedence
import RootedGlob.Proofs.Octets.Order
import RootedGlob.Proofs.Path.Steps
import RootedGlob.Proofs.Workspace.Detection
