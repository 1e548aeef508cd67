import Triepack.Dictionary.RoundTrip
import Triepack.Dictionary.Missing
import Triepack.Dictionary.Iteration
import Triepack.Dictionary.PrefixSearch
import Triepack.Dictionary.LastWins
import Triepack.Dictionary.Canonical
import Triepack.Dictionary.Options
import Triepack.Dictionary.Corruption
import Triepack.Untrusted.Values
import Triepack.Untrusted.Prefix
import Triepack.Json.Buffers
import Triepack.Json.Grammar
import Triepack.Json.Enumerate
import Triepack.Json.Partial
import Triepack.Terseml.Merge
import Triepack.Terseml.Grammar
import Triepack.Terseml.Agreement
import Triepack.Terseml.PythonEncode
import Triepack.Python.Agreement
import Triepack.Bitstream.Concat
import Triepack.Bitstream.Cursor
import Triepack.Bitstream.VarintExact
import Triepack.Core.ValueStore
import Triepack.Dictionary.FailedBuild
import Triepack.Untrusted.Termination
import Triepack.Library.BinarySearch
import Triepack.Library.Louds
import Triepack.Python.Decode
import Triepack.Python.ReadBack
import Triepack.Python.RoundTrip
import Triepack.V2.Bitvec
import Triepack.V2.Compress
import Triepack.V2.Lookup
import Triepack.Bitstream.Utf8Exact
import Triepack.Json.Emit
import Triepack.Json.IndexOrder
import Triepack.Json.Integers
import Triepack.Json.Inverse
import Triepack.Library.OrderedTree
import Triepack.Library.RankSelect
import Triepack.Library.SuffixPool
import Triepack.Terseml.Escapes
import Triepack.Terseml.Memory
import Triepack.Terseml.MemorySafe
import Triepack.V2.Louds
import Triepack.V2.Tails
import Triepack.Json.Strings
import Triepack.Terseml.PythonRoundTrip
import Triepack.Json.WalkAgrees
import Triepack.Untrusted.Forward
import Triepack.Json.DecodeBounds
import Triepack.Json.DecodedText
import Triepack.Json.Hosts
import Triepack.Json.Reencode
import Triepack.Core.SizeBound
import Triepack.Json.Total
import Triepack.Library.Acyclic
import Triepack.Library.Binary64
import Triepack.Library.Huffman
import Triepack.Terseml.Builder
import Triepack.Terseml.Interchange
import Triepack.V2.Huffman
import Triepack.Go.Bitstream
import Triepack.Go.Encode
import Triepack.Go.SameBytes
import Triepack.Go.LibraryBytes
