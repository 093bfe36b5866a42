import Z80.CommandLine
import Z80.Main
import Z80.Proofs.Alu.Decimal
import Z80.Proofs.Block.Dependence
import Z80.Proofs.Block.Limit
import Z80.Proofs.Block.Shared
import Z80.Proofs.Block.Timing
import Z80.Proofs.Cache.Ledger
import Z80.Proofs.Core.Budget
import Z80.Proofs.Core.Faults
import Z80.Proofs.Core.Hidden
import Z80.Proofs.Core.Sections
import Z80.Proofs.Core.Service
import Z80.Proofs.Core.Signals
import Z80.Proofs.Core.Steady
import Z80.Proofs.Core.Transparency
import Z80.Proofs.Core.Verdict
import Z80.Proofs.Decode.Stream
import Z80.Proofs.Execution.Stack
import Z80.Proofs.Interrupt.Agenda
import Z80.Proofs.Interrupt.Release
import Z80.Proofs.Memory.Notices
import Z80.Proofs.Memory.Partition
import Z80.Text.Utf8
