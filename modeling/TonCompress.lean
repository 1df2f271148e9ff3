import TonCompress.Evolve.Lineage
import TonCompress.Evolve.Crossover
import TonCompress.Boc.References
import TonCompress.Boc.RoundTrip
import TonCompress.Boc.Sizes
import TonCompress.Arith.RoundTrip
import TonCompress.Lzma.RoundTrip
import TonCompress.Lzma.Wrapper
import TonCompress.Boc.Checksum
import TonCompress.Boc.Sections
import TonCompress.Whole.Errors
import TonCompress.Whole.Twice
import TonCompress.Arith.AnyStream
import TonCompress.Lzma.Steps
import TonCompress.Lzma.Trace
import TonCompress.Boc.Renumber
import TonCompress.Boc.ByteForm
import TonCompress.Shuffle.Fields
import TonCompress.Evolve.Selection
import TonCompress.Lzma.Lost
import TonCompress.Shuffle.ThreadCalls
import TonCompress.Evolve.Compress
import TonCompress.Coder.Copies
import TonCompress.Arith.Strings
import TonCompress.Zpaq.AnyInput
