import LineForth.Main
import LineForth.Program.Wrapper
import LineForth.Proofs.Conditional
import LineForth.Proofs.Dictionary
import LineForth.Proofs.Glyphs
import LineForth.Proofs.Reading
import LineForth.Task
import LineForth.Proofs.Tokens
import LineForth.Proofs.Reachable
import LineForth.Proofs.Binding
import LineForth.Proofs.Modes
import LineForth.Proofs.Naming
import LineForth.Proofs.Locality
import LineForth.Proofs.LowerCase
import LineForth.Proofs.Symbols
import LineForth.Proofs.Listing
import LineForth.Proofs.Layout
import LineForth.Proofs.Streams
import LineForth.Proofs.Ansi
import LineForth.Proofs.Sinks
import LineForth.Proofs.Alike
import LineForth.Proofs.Rounds
import LineForth.Proofs.Output
import LineForth.Proofs.Success
import LineForth.Proofs.Settings
import LineForth.Proofs.Tracing
import LineForth.Proofs.Balance
import LineForth.Proofs.Grammar
import LineForth.Proofs.Spread
import LineForth.Proofs.Parts
import LineForth.Proofs.Steady
import LineForth.Proofs.Echo
import LineForth.Proofs.Closing
import LineForth.Proofs.Breaking
import LineForth.Proofs.Faults
import LineForth.Proofs.Encoding
import LineForth.Proofs.Tees
import LineForth.Proofs.Letters
import LineForth.Proofs.Respelling
import LineForth.Proofs.Spelling
import LineForth.Proofs.Operands
import LineForth.Proofs.Division
import LineForth.Proofs.Numbers
import LineForth.Proofs.Display
import LineForth.Proofs.Dump
import LineForth.Proofs.Grouping
import LineForth.Proofs.LineLog
import LineForth.Proofs.Journal
import LineForth.Proofs.Generator
import LineForth.Proofs.Indentation
