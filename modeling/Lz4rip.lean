import Lz4rip.Framework.Run
import Lz4rip.Framework.Slice
import Lz4rip.Framework.Target
import Lz4rip.Framework.Sim
import Lz4rip.Framework.Proc
import Lz4rip.Framework.Lz77
import Lz4rip.Framework.Words
import Lz4rip.Spec.Block
import Lz4rip.Impl.Core
import Lz4rip.Impl.Frame.Io
import Lz4rip.Impl.Frame.Header
import Lz4rip.Impl.Frame.Decompress
import Lz4rip.Impl.Frame.Compress
import Lz4rip.Spec.Frame
import Lz4rip.Spec.Hash
import Lz4rip.Spec.Format
import Lz4rip.Spec.Stream
import Lz4rip.Spec.Text
import Lz4rip.Proof.Frame.Io
import Lz4rip.Proof.Frame.Naive
import Lz4rip.Proof.Frame.Drain
import Lz4rip.Proof.Frame.Alike
import Lz4rip.Proof.Frame.Window
import Lz4rip.Proof.Frame.Block
import Lz4rip.Proof.Frame.Decoder
import Lz4rip.Proof.Frame.Refine
import Lz4rip.Proof.Frame.Bounded
import Lz4rip.Proof.Frame.Granularity
import Lz4rip.Proof.Frame.Reused
import Lz4rip.Proof.Frame.Limit
import Lz4rip.Proof.Frame.Truncate
import Lz4rip.Proof.Frame.Header
import Lz4rip.Proof.Frame.Dictionary
import Lz4rip.Proof.Frame.Source
import Lz4rip.Proof.Frame.Emit
import Lz4rip.Proof.Frame.Encoder
import Lz4rip.Impl.Decode.Decompress
import Lz4rip.Proof.Decode.Copy
import Lz4rip.Proof.Decode.Token
import Lz4rip.Proof.Decode.Fast
import Lz4rip.Proof.Decode.Body
import Lz4rip.Proof.Decode.Reference
import Lz4rip.Proof.Decode.Decompress
import Lz4rip.Proof.Decode.Buffer
import Lz4rip.Impl.Decode.Validate
import Lz4rip.Proof.Decode.Validate
import Lz4rip.Impl.Encode.Emit
import Lz4rip.Impl.Encode.Compress
import Lz4rip.Impl.Encode.Compressor
import Lz4rip.Proof.Encode.Table
import Lz4rip.Proof.Encode.Emit
import Lz4rip.Proof.Encode.Match
import Lz4rip.Proof.Encode.Search
import Lz4rip.Proof.Encode.Block
import Lz4rip.Proof.Encode.Compress
import Lz4rip.Proof.Encode.Compressor
import Lz4rip.Proof.Encode.RoundTrip
import Lz4rip.Proof.Encode.Sim
import Lz4rip.Proof.Encode.Reuse
import Lz4rip.Proof.Encode.Capacity
import Lz4rip.Framework.Suffix
import Lz4rip.Impl.Encode.Dict
import Lz4rip.Proof.Encode.Retention
import Lz4rip.Framework.Greedy
import Lz4rip.Proof.Encode.Cover
import Lz4rip.Proof.Encode.Train
import Lz4rip.Proof.Frame.Live
import Lz4rip.Proof.Frame.Session
import Lz4rip.Proof.Encode.Integer
import Lz4rip.Proof.Encode.Hash
import Lz4rip.Proof.Encode.Lookup
import Lz4rip.Proof.Frame.Invariant
import Lz4rip.Framework.Tandem
import Lz4rip.Proof.Frame.Twin
import Lz4rip.Proof.Frame.InStep
import Lz4rip.Proof.Frame.Latch
import Lz4rip.Proof.Frame.Split
import Lz4rip.Proof.Frame.Afresh
import Lz4rip.Framework.Parse
import Lz4rip.Proof.Frame.Deliver
import Lz4rip.Proof.Frame.Accept
import Lz4rip.Proof.Frame.Language
import Lz4rip.Proof.Frame.Skippable
import Lz4rip.Proof.Frame.RoundTrip
import Lz4rip.Framework.Ensures
import Lz4rip.Impl.Wasm
import Lz4rip.Proof.Encode.Messages
import Lz4rip.Proof.Frame.Corrupt
import Lz4rip.Proof.Frame.Partial
import Lz4rip.Proof.Frame.Expansion
import Lz4rip.Proof.Frame.Trim
import Lz4rip.Proof.Frame.Portable
import Lz4rip.Proof.Frame.Interrupt
import Lz4rip.Proof.Frame.Exhaust
import Lz4rip.Proof.Frame.Place
import Lz4rip.Framework.Logged
import Lz4rip.Proof.Encode.Trace
