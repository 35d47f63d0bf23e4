import LayeredViews.Main
import LayeredViews.Catalog.Memory
import LayeredViews.Proofs.Ending
import LayeredViews.Proofs.Table
import LayeredViews.Proofs.Render.Closed
import LayeredViews.Proofs.Output.Carried
import LayeredViews.Proofs.Render.Session
import LayeredViews.Proofs.Render.BufferLimit
import LayeredViews.Proofs.Render.PartialOutput
import LayeredViews.Proofs.Template.TagForms
import LayeredViews.Proofs.Template.Grammar
import LayeredViews.Proofs.Template.Nodes
import LayeredViews.Proofs.Text.Position
import LayeredViews.Proofs.Cache.Sound
import LayeredViews.Proofs.View.Offered
import LayeredViews.Proofs.Cache.Render
import LayeredViews.Proofs.Cache.Transparent
import LayeredViews.Proofs.Render.Serving
import LayeredViews.Proofs.Template.TagPositions
import LayeredViews.Proofs.Cache.Trusted
import LayeredViews.Proofs.Render.Attribution
import LayeredViews.Proofs.Render.Inlining
import LayeredViews.Proofs.Render.Refusal
import LayeredViews.Proofs.Render.Executions
import LayeredViews.Proofs.Render.Depth
import LayeredViews.Proofs.Catalog.Checked
import LayeredViews.Proofs.Cache.Stocked
import LayeredViews.Proofs.Html.Safe
import LayeredViews.Proofs.Render.EscapedOutput
import LayeredViews.Proofs.Render.UnreadData
import LayeredViews.Proofs.View.Spelling
import LayeredViews.Proofs.Catalog.Shelved
import LayeredViews.Proofs.View.Wrapping
import LayeredViews.Proofs.Render.Passages
import LayeredViews.Proofs.Render.Cancellation
import LayeredViews.Proofs.Output.Account
import LayeredViews.Proofs.Render.Phases
import LayeredViews.Proofs.Catalog.Located
import LayeredViews.Proofs.Render.Lookups
import LayeredViews.Proofs.FileSystem.Walk
import LayeredViews.Proofs.Catalog.Agreement
import LayeredViews.Proofs.Template.Printing
import LayeredViews.Proofs.Template.Joined
import LayeredViews.Proofs.Render.Rechunked
import LayeredViews.Proofs.Render.Joined
import LayeredViews.Proofs.Text.Decimal
import LayeredViews.Proofs.Template.Substitution
import LayeredViews.Proofs.Render.Unrolling
import LayeredViews.Proofs.Template.Scoping
import LayeredViews.Proofs.Render.Stacks
import LayeredViews.Proofs.Html.Decoding
import LayeredViews.Proofs.Text.Occurrences
import LayeredViews.Proofs.FailurePage
import LayeredViews.Proofs.Template.TagOrder
import LayeredViews.Proofs.Template.OpenBlocks
import LayeredViews.Proofs.Template.Culprits
import LayeredViews.Proofs.Template.LoopNames
import LayeredViews.Proofs.Cache.Calls
import LayeredViews.Proofs.Cache.Composing
import LayeredViews.Proofs.View.Stripping
import LayeredViews.Proofs.Since
import LayeredViews.Proofs.Catalog.Listed
import LayeredViews.Proofs.Catalog.LastWritten
import LayeredViews.Proofs.Catalog.Met
import LayeredViews.Proofs.Settings
import LayeredViews.Proofs.CommandLine.Complaints
import LayeredViews.Proofs.Render.Values
import LayeredViews.Proofs.View.Retraction
import LayeredViews.Proofs.Text.Offsets
