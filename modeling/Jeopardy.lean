import Jeopardy.Hotring.OneRing
import Jeopardy.Hotring.Delete
import Jeopardy.Hotring.Index
import Jeopardy.Hotring.Slots
import Jeopardy.Hotring.Unique
import Jeopardy.Hotring.Halving
import Jeopardy.Hotring.RehashLaw
import Jeopardy.Hotring.AfterRehash
import Jeopardy.Hotring.Counters
import Jeopardy.Hotring.NullHead
import Jeopardy.Hotring.Primitives
import Jeopardy.Hotring.Report
import Jeopardy.Hotring.Moderate
import Jeopardy.RadixTree.Map
import Jeopardy.RadixTree.Digits
import Jeopardy.RadixTree.Enomem
import Jeopardy.RadixTree.Canonical
import Jeopardy.RadixTree.ReplaceLoop
import Jeopardy.RadixTree.EditLoop
import Jeopardy.RadixTree.Retry
import Jeopardy.RadixTree.Benchmark
import Jeopardy.ChainingHash.Lookup
import Jeopardy.ChainingHash.ListSafe
import Jeopardy.ChainingHash.Benchmark
import Jeopardy.ProducerConsumer.AcceptLoop
import Jeopardy.ProducerConsumer.Fifo
import Jeopardy.ProducerConsumer.Progress
import Jeopardy.ProducerConsumer.Average
import Jeopardy.ProducerConsumer.Exchange
import Jeopardy.ProducerConsumer.Lifetime
import Jeopardy.Jifs.File
import Jeopardy.Jifs.Readers
import Jeopardy.Jifs.Tickets
