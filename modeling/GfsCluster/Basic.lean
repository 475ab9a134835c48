import Mathlib.Algebra.Order.Ring.Rat
import Mathlib.Data.Char
import Mathlib.Data.List.Lex

/-! Strings, byte strings and the constants of `gfs/config.py`. A Python `str` is
its list of characters, so that its order is the lexicographic one and the SQL
separator of `GROUP_CONCAT` can be found in it. Clock readings are seconds. -/

namespace GfsCluster

abbrev Str := List Char
abbrev Filename := Str
abbrev ChunkId := Str
abbrev Addr := Str
abbrev Bytes := List UInt8
abbrev Seconds := ℚ

instance : LawfulBEq Str := inferInstance

/-- Fixed chunk size: 1 KB. -/
def chunkSize : ℕ := 1024

/-- Number of chunks packed into one StoreChunks or GetChunks request. -/
def batchSize : ℕ := 1024

/-- Seconds without a heartbeat before a storage server is considered dead. -/
def heartbeatTimeout : Seconds := 15

/-- What the naming server is started with. -/
structure Settings where
  replication : ℕ
  cleanupMaxAge : Seconds

/-- An address of the form `host:port`, which never contains a comma. -/
def CommaFree (addr : Addr) : Prop := ',' ∉ addr

instance (addr : Addr) : Decidable (CommaFree addr) := inferInstanceAs (Decidable (_ ∉ _))

end GfsCluster
