import PageInliner.Main
import PageInliner.Proofs.Build.Embedding
import PageInliner.Proofs.Build.Run
import PageInliner.Proofs.Config.Acceptance
import PageInliner.Proofs.Text.Scan
import PageInliner.Proofs.Build.Outcome
import PageInliner.Proofs.Files.Resolution
import PageInliner.Proofs.Files.Making
import PageInliner.Proofs.Files.Writable
import PageInliner.Proofs.Build.Outputs
import PageInliner.Proofs.Build.Independence
import PageInliner.Proofs.Text.Apart
import PageInliner.Proofs.Page.Modes
import PageInliner.Proofs.Text.Spaced
import PageInliner.Proofs.Minify.Comments
import PageInliner.Proofs.Minify.Passes
import PageInliner.Proofs.Minify.Style
import PageInliner.Proofs.Minify.Script
import PageInliner.Proofs.Minify.Shrinking
import PageInliner.Proofs.Minify.Fixpoints
import PageInliner.Proofs.Minify.LineBreaks
import PageInliner.Proofs.Minify.Idempotence
import PageInliner.Proofs.Minify.Scanner
import PageInliner.Proofs.Minify.Tokens
import PageInliner.Proofs.Page.Guarding
import PageInliner.Proofs.Page.ScriptModes
import PageInliner.Proofs.Build.Pairing
import PageInliner.Proofs.Page.Places
import PageInliner.Proofs.Files.Joining
import PageInliner.Proofs.Config.InputPaths
import PageInliner.Proofs.Config.Violations
import PageInliner.Proofs.Files.Ancestors
import PageInliner.Proofs.Config.Discovery
import PageInliner.Proofs.Config.Precedence
import PageInliner.Proofs.Config.Selection
import PageInliner.Proofs.CommandLine.Spelling
import PageInliner.Proofs.Config.UnknownKeys
import PageInliner.Proofs.Console.Listing
import PageInliner.Proofs.Config.Reports
import PageInliner.Proofs.Size.Kilobytes
