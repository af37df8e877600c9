import MergeScan.Source.Buffer
import MergeScan.Source.Run
import MergeScan.Source.Scripted

/-! # The sources of the library as one type -/

namespace MergeScan

/-- Any source, so that sources of different kinds can be merged. -/
inductive AnySource
  | run (reader : RunReader)
  | buffer (cursor : BufferCursor)
  | scripted (source : ScriptedSource)

namespace AnySource

/-- Show a source the buffer as it is after a write. -/
def refresh (generation : Nat) (written : Buffer) : AnySource → AnySource
  | run reader => run reader
  | buffer cursor => buffer (cursor.refresh generation written)
  | scripted source => scripted source

instance : Source AnySource where
  remaining
    | run reader => Source.remaining reader
    | buffer cursor => Source.remaining cursor
    | scripted source => Source.remaining source
  peek
    | run reader => Source.peek reader
    | buffer cursor => Source.peek cursor
    | scripted source => Source.peek source
  advance
    | run reader => (Source.advance reader).map id run
    | buffer cursor => (Source.advance cursor).map id buffer
    | scripted source => (Source.advance source).map id scripted
  seek
    | run reader, key => (Source.seek reader key).map id run
    | buffer cursor, key => (Source.seek cursor key).map id buffer
    | scripted source, key => (Source.seek source key).map id scripted
  reseek
    | run reader, key => (Source.reseek reader key).map id run
    | buffer cursor, key => (Source.reseek cursor key).map id buffer
    | scripted source, key => (Source.reseek source key).map id scripted
  supportsExactSeek
    | run reader => Source.supportsExactSeek reader
    | buffer cursor => Source.supportsExactSeek cursor
    | scripted source => Source.supportsExactSeek source
  seekExactly
    | run reader, key, forward => (Source.seekExactly reader key forward).map id run
    | buffer cursor, key, forward => (Source.seekExactly cursor key forward).map id buffer
    | scripted source, key, forward =>
      (Source.seekExactly source key forward).map id scripted
  sequenceId
    | run reader => Source.sequenceId reader
    | buffer cursor => Source.sequenceId cursor
    | scripted source => Source.sequenceId source
  kind
    | run reader => Source.kind reader
    | buffer cursor => Source.kind cursor
    | scripted source => Source.kind source
  origin
    | run reader => Source.origin reader
    | buffer cursor => Source.origin cursor
    | scripted source => Source.origin source
  close
    | run reader => (Source.close reader).map id run
    | buffer cursor => (Source.close cursor).map id buffer
    | scripted source => (Source.close source).map id scripted

end AnySource

end MergeScan
