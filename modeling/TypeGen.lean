import TypeGen.Code.Function
import TypeGen.Code.Page
import TypeGen.Code.Step
import TypeGen.Command.Request
import TypeGen.Command.Run
import TypeGen.Command.Summary
import TypeGen.Command.Words
import TypeGen.Main
import TypeGen.Project.Discovery
import TypeGen.Project.Fault
import TypeGen.Project.Format
import TypeGen.Project.Generate
import TypeGen.Project.Layout
import TypeGen.Project.Metadata
import TypeGen.Project.Outdated
import TypeGen.Proofs.Code.Annotating
import TypeGen.Proofs.Code.Brackets
import TypeGen.Proofs.Code.Closing
import TypeGen.Proofs.Code.Comments
import TypeGen.Proofs.Code.Cutting
import TypeGen.Proofs.Code.Indenting
import TypeGen.Proofs.Code.Lexing
import TypeGen.Proofs.Code.Nesting
import TypeGen.Proofs.Code.Opening
import TypeGen.Proofs.Code.Phrases
import TypeGen.Proofs.Code.Piecing
import TypeGen.Proofs.Code.Reading
import TypeGen.Proofs.Code.Scopes
import TypeGen.Proofs.Code.Signatures
import TypeGen.Proofs.Code.Balancing
import TypeGen.Proofs.Code.Trace
import TypeGen.Proofs.Code.Wording
import TypeGen.Proofs.Code.Writing
import TypeGen.Proofs.Generate.Checking
import TypeGen.Proofs.Generate.Draft
import TypeGen.Proofs.Generate.Failing
import TypeGen.Proofs.Generate.Growing
import TypeGen.Proofs.Generate.Guarding
import TypeGen.Proofs.Generate.History
import TypeGen.Proofs.Generate.Keeping
import TypeGen.Proofs.Generate.Overwriting
import TypeGen.Proofs.Generate.Recording
import TypeGen.Proofs.Generate.Referring
import TypeGen.Proofs.Generate.Rehashing
import TypeGen.Proofs.Generate.Repeating
import TypeGen.Proofs.Generate.Sample
import TypeGen.Proofs.Generate.Skipping
import TypeGen.Proofs.Layout.Destinations
import TypeGen.Proofs.Layout.Including
import TypeGen.Proofs.Layout.Libraries
import TypeGen.Proofs.Layout.Naming
import TypeGen.Proofs.Layout.Outputs
import TypeGen.Proofs.Layout.Tracing
import TypeGen.Proofs.Layout.Twins
import TypeGen.Proofs.Path.Components
import TypeGen.Proofs.Path.Following
import TypeGen.Proofs.Path.Joining
import TypeGen.Proofs.Render.Annotating
import TypeGen.Proofs.Render.Containing
import TypeGen.Proofs.Render.Deciding
import TypeGen.Proofs.Render.Definition
import TypeGen.Proofs.Render.Directives
import TypeGen.Proofs.Render.Dispatching
import TypeGen.Proofs.Render.Distinguishing
import TypeGen.Proofs.Render.Documenting
import TypeGen.Proofs.Render.Emitting
import TypeGen.Proofs.Render.Indenting
import TypeGen.Proofs.Render.Matching
import TypeGen.Proofs.Render.Mention
import TypeGen.Proofs.Render.Pairing
import TypeGen.Proofs.Render.Placing
import TypeGen.Proofs.Render.Recovering
import TypeGen.Proofs.Render.Searching
import TypeGen.Proofs.Render.Serializing
import TypeGen.Proofs.Render.Variables
import TypeGen.Proofs.Render.Wording
import TypeGen.Proofs.Spec.Accepting
import TypeGen.Proofs.Spec.Features
import TypeGen.Proofs.Spec.Flaws
import TypeGen.Proofs.Spec.Occurrences
import TypeGen.Proofs.Store.Aiming
import TypeGen.Proofs.Store.Keeping
import TypeGen.Proofs.Store.Passing
import TypeGen.Proofs.Store.Places
import TypeGen.Proofs.Store.Resaving
import TypeGen.Proofs.Store.Saving
import TypeGen.Proofs.Store.Visiting
import TypeGen.Proofs.Store.Walking
import TypeGen.Proofs.Text.Json
import TypeGen.Proofs.Text.Literal
import TypeGen.Proofs.Text.Splitting
import TypeGen.Render.Code
import TypeGen.Render.Enum
import TypeGen.Render.Integration
import TypeGen.Render.Names
import TypeGen.Render.Outline
import TypeGen.Render.Registry
import TypeGen.Render.Struct
import TypeGen.Render.Variant
import TypeGen.Spec.Basic
import TypeGen.Spec.Check
import TypeGen.Spec.Config
import TypeGen.Spec.Error
import TypeGen.Spec.Feature
import TypeGen.Spec.Include
import TypeGen.Spec.Raw
import TypeGen.Store.Disk
import TypeGen.Store.FilePath
import TypeGen.Store.FileTree
import TypeGen.Store.Walk
import TypeGen.Text.Blank
import TypeGen.Text.Digest
import TypeGen.Text.Digit
import TypeGen.Text.Identifier
import TypeGen.Text.Json
import TypeGen.Text.Quoted
import TypeGen.Toml.Document
import TypeGen.Toml.Reader
import TypeGen.Toml.Scalar
import TypeGen.Toml.Value
import TypeGen.Proofs.Layout.Clearing
import TypeGen.Proofs.Layout.Listing
import TypeGen.Proofs.Layout.Respelling
import TypeGen.Proofs.Generate.Respelling
import TypeGen.Proofs.Store.Respelling
import TypeGen.Proofs.Spec.Relisting
import TypeGen.Proofs.Spec.Spelling
import TypeGen.Proofs.Code.Collecting
import TypeGen.Proofs.Code.Commenting
import TypeGen.Proofs.Code.Quoting
