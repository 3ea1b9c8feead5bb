import ToiLang.NestedRuns
import ToiLang.Flow
import ToiLang.Jumps
import ToiLang.Vm.Sample
import ToiLang.TableLength
import ToiLang.TableIterate
import ToiLang.Slice
import ToiLang.Indentation
import ToiLang.KeySeparation
import ToiLang.BTree.Shape
import ToiLang.BTree.File
import ToiLang.BTree.Robust
import ToiLang.CoroutineChain
import ToiLang.ImportContext
import ToiLang.Channel
import ToiLang.Http.Framing
import ToiLang.Http.Serving
import ToiLang.Http.Delivery
import ToiLang.Http.MessageRoundTrip
import ToiLang.Http.Streamed
import ToiLang.Http.Mount
import ToiLang.Http.Dispatch
import ToiLang.CsvRoundTrip
import ToiLang.StructRoundTrip
import ToiLang.Gc.Safety
import ToiLang.CacheTransparency
import ToiLang.BinaryKept
import ToiLang.RegexLoops
import ToiLang.Database.Atomicity
import ToiLang.Database.Uniqueness
import ToiLang.Database.Transparency
import ToiLang.Scheduler
import ToiLang.NestedReturns
import ToiLang.ExceptionChain
import ToiLang.Markdown.Faithful
import ToiLang.Lookahead
import ToiLang.CallForms
import ToiLang.MultiAssignment
import ToiLang.Url.Parse
import ToiLang.Strings.Split
import ToiLang.DeepClone
import ToiLang.SequenceEdits
import ToiLang.TableSort
import ToiLang.Http.Ranges
import ToiLang.Http.RequestStep
import ToiLang.Http.Upsert
import ToiLang.TableQueries
import ToiLang.Comparison
import ToiLang.Database.Paging
import ToiLang.Modulo
import ToiLang.StreamRuns
import ToiLang.Cli
import ToiLang.Json.RoundTrip
