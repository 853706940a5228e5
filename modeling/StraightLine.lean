import StraightLine.Assignment
import StraightLine.Compilation
import StraightLine.Construct
import StraightLine.Declaration
import StraightLine.Diagnostic
import StraightLine.Dump
import StraightLine.Emitter
import StraightLine.IR
import StraightLine.Listing
import StraightLine.NumType
import StraightLine.Operator
import StraightLine.Options
import StraightLine.Proofs.Acceptance
import StraightLine.Proofs.Agreement
import StraightLine.Proofs.Availability
import StraightLine.Proofs.Blocks
import StraightLine.Proofs.CodeTypes
import StraightLine.Proofs.Correctness
import StraightLine.Proofs.Declared
import StraightLine.Proofs.Decoding
import StraightLine.Proofs.Divisor
import StraightLine.Proofs.Effects
import StraightLine.Proofs.EmissionOrder
import StraightLine.Proofs.Expression
import StraightLine.Proofs.Failure
import StraightLine.Proofs.Freshness
import StraightLine.Proofs.Interleaving
import StraightLine.Proofs.Layouts
import StraightLine.Proofs.Lines
import StraightLine.Proofs.OperandRuns
import StraightLine.Proofs.Policies
import StraightLine.Proofs.QuotedCuts
import StraightLine.Proofs.ReadBack
import StraightLine.Proofs.RecordMeaning
import StraightLine.Proofs.Registers
import StraightLine.Proofs.Rejection
import StraightLine.Proofs.RootOperator
import StraightLine.Proofs.Scans
import StraightLine.Proofs.ScopeFrames
import StraightLine.Proofs.ScopeRuns
import StraightLine.Proofs.Shape
import StraightLine.Proofs.SingleOperator
import StraightLine.Proofs.Source
import StraightLine.Proofs.StringConstants
import StraightLine.Proofs.Succession
import StraightLine.Proofs.Temporaries
import StraightLine.Proofs.TextLaws
import StraightLine.Proofs.Tokens
import StraightLine.Proofs.WellFormed
import StraightLine.Record
import StraightLine.Rhs.Classify
import StraightLine.Rhs.Operands
import StraightLine.Rhs.Token
import StraightLine.Scope
import StraightLine.Session
import StraightLine.Symbol.Basic
import StraightLine.Symbol.Table
import StraightLine.Text.Basic
import StraightLine.Text.Becomes
import StraightLine.Text.Quoted
import StraightLine.Text.Shown
import StraightLine.Tiny.Emission
import StraightLine.Tiny.Instr
import StraightLine.Tiny.Machine
import StraightLine.Traversal
