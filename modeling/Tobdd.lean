import Tobdd.Spin.Guards
import Tobdd.CacheCalls
import Tobdd.SetThreads
import Tobdd.Between
import Tobdd.Housekeeping
import Tobdd.RoundTrip
import Tobdd.Sharing
import Tobdd.WellFormed
import Tobdd.Malformed
import Tobdd.Cover
import Tobdd.Doubling
import Tobdd.Owners
import Tobdd.ThreadSafety
import Tobdd.ArraySizes
import Tobdd.WriteErrors
import Tobdd.MarkBound
import Tobdd.Retries
import Tobdd.Decision
import Tobdd.Observers
import Tobdd.Debug
import Tobdd.Life
import Tobdd.LockRefines
import Tobdd.TableRefines
import Tobdd.Queens
import Tobdd.Agreement
import Tobdd.Hash
import Tobdd.Text
