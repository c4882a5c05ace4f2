import Bronze.Map.FastLookup
import Bronze.Il.RoundTrip
import Bronze.Modules.Correctness
import Bronze.Objects.Correctness
import Bronze.Rename.Correctness
import Bronze.Promise.Reports
import Bronze.Json.Inverse
import Bronze.Json.NumberFormat
import Bronze.Proxy.Correctness
import Bronze.BigNum.Bitwise
import Bronze.Regex.Refinement
import Bronze.Types.Identity
import Bronze.Types.Monotone
import Bronze.Date.RoundTrip
import Bronze.Decimal.ExactDigits
import Bronze.Sorting.Correctness
import Bronze.Flow.Switch
import Bronze.Map.SetAlgebra
import Bronze.Codec.Utf8Decoder
import Bronze.Regex.Transparency
import Bronze.Check.Merge
import Bronze.Il.Deserialize
import Bronze.Regex.Execution
import Bronze.Regex.Agreement
import Bronze.Wpo.Semilattice
import Bronze.Lower.Liveness
import Bronze.Wpo.Slots
import Bronze.Rewrite.Execution
import Bronze.Il.Licences
import Bronze.Lower.TransitionRuns
import Bronze.Gc.RootRemset
import Bronze.TypedArray.Conversion
import Bronze.Json.StringToNumber
