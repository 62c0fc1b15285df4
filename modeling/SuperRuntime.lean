import SuperRuntime.Zcode
import SuperRuntime.Value
import SuperRuntime.Aggregate.Aggregator
import SuperRuntime.Aggregate.Concrete
import SuperRuntime.Aggregate.Run
import SuperRuntime.Aggregate.InMemory
import SuperRuntime.Aggregate.Keys
import SuperRuntime.Aggregate.Sorted
import SuperRuntime.Aggregate.Done
import SuperRuntime.Aggregate.Partials
import SuperRuntime.Join
import SuperRuntime.Join.RecordSplicer
import SuperRuntime.Slicer
import SuperRuntime.Lister
import SuperRuntime.Lister.Pull
import SuperRuntime.Over
import SuperRuntime.Over.Flatten
import SuperRuntime.Vcache.Union
import SuperRuntime.Conditional
