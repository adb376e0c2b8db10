import Mathlib.Logic.Function.Basic
import Mitdist.MrCoordinator
import Mitdist.RecordFile

/-!
# The MapReduce worker and the sequential program

A map task writes its pairs to the files mr-i-p, one for each partition p of
the keys, and a reduce task reads the files of its partition, sorts their pairs
and prints one line for each run of equal keys. The sequential program sorts
all pairs and has the same loop. A call of log.Fatalf ends the process with a
message, and so does a panic. Reading and writing fail only where an input file
is missing or cannot be read. A pair decodes to what was encoded, so a file is
modelled by its pairs.
-/

set_option autoImplicit false

namespace Mitdist.MapReduce
open Mitdist.RecordFile Mitdist.MrCoordinator

structure KeyValue where
  key : String
  value : String
  deriving DecidableEq, Repr

/-- The order by which pairs are sorted, the method Less of ByKey. -/
def less (a b : KeyValue) : Bool := a.key < b.key

/-- The 32 bit FNV-1a hash of the key, without its sign bit. -/
def ihash (key : String) : ℕ :=
  (key.toUTF8.data.foldl (fun h b => (h ^^^ b.toUInt32) * 16777619) (2166136261 : UInt32) &&&
    0x7fffffff).toNat

/-- The files that the workers share. The first component is indexed by map task
and partition, the second has the arguments of the Fprintf calls of a reduce
task. -/
structure Files where
  intermediate : ℕ × ℕ → Option (List (Option KeyValue))
  out : ℕ → Option (List (String × String))

/-- The line that is printed for a key and its output. -/
def line (r : String × String) : String := r.1 ++ " " ++ r.2 ++ "\n"

inductive FileError
  | open
  | read

section Worker
variable (contents : String → Except FileError String) (sort : List KeyValue → List KeyValue)
variable (mapf : String → String → List KeyValue) (reducef : String → List String → String)

def readInput (filename : String) : Except String String :=
  match contents filename with
  | .ok content => .ok content
  | .error .open => .error ("cannot open " ++ filename)
  | .error .read => .error ("cannot read " ++ filename)

/-- The encoders of a map task: the positions in the files opened so far. -/
structure Encoder where
  taskId : ℕ
  nReduce : ℕ
  mapOutSplit : List ℕ
  deriving DecidableEq

def createNext (e : Encoder) (fs : Files) : Encoder × Files :=
  ({ e with mapOutSplit := e.mapOutSplit ++ [0] },
    { fs with
      intermediate :=
        Function.update fs.intermediate (e.taskId, e.mapOutSplit.length) (some []) })

def encodeAt (fs : Files) (taskId partition position : ℕ) (kv : KeyValue) : Files :=
  { fs with
    intermediate := Function.update fs.intermediate (taskId, partition)
      ((fs.intermediate (taskId, partition)).map (fun cells => writeAt cells position kv)) }

/-- There is no result if there are no encoders to choose from. -/
def encodeOne (e : Encoder) (fs : Files) (kv : KeyValue) : Option (Encoder × Files) :=
  let partition := ihash kv.key % e.nReduce
  (e.mapOutSplit[partition]?).map (fun position =>
    ({ e with mapOutSplit := e.mapOutSplit.set partition (position + 1) },
      encodeAt fs e.taskId partition position kv))

def createLoop : ℕ → Encoder → Files → Encoder × Files
  | 0, e, fs => (e, fs)
  | n+1, e, fs => createLoop n (createNext e fs).1 (createNext e fs).2

def encodeLoop : List KeyValue → Encoder → Files → Option (Encoder × Files)
  | [], e, fs => some (e, fs)
  | kv::kvs, e, fs => (encodeOne e fs kv).bind (fun r => encodeLoop kvs r.1 r.2)

def encodeKV (fs : Files) (kvs : List KeyValue) (taskId nReduce : ℕ) : Except String Files :=
  let r := createLoop nReduce ⟨taskId,nReduce,[]⟩ fs
  match encodeLoop kvs r.1 r.2 with
  | some (_, fs') => .ok fs'
  | none => .error "runtime error: integer divide by zero"

def mapFile (fs : Files) (filename : String) (nReduce taskId : ℕ) : Except String Files := do
  let content ← readInput contents filename
  encodeKV fs (mapf filename content) taskId nReduce

/-- The loop over the mappers, from mapper `i` on. -/
def readLoop (fs : Files) (partition : ℕ) : ℕ → ℕ → List KeyValue → Except String (List KeyValue)
  | 0, _, kva => .ok kva
  | n+1, i, kva =>
    match fs.intermediate (i, partition) with
    | none => .error ("cannot open mr-" ++ toString i ++ "-" ++ toString partition)
    | some cells => readLoop fs partition n (i + 1) (kva ++ readAll cells)

def readPartition (fs : Files) (partition nMappers : ℕ) : Except String (List KeyValue) :=
  readLoop fs partition nMappers 0 []

/-- The inner loop, which looks for the end of a run of equal keys. -/
def runEnd (kvs : List KeyValue) (key : String) : ℕ → ℕ → ℕ
  | 0, j => j
  | fuel+1, j =>
    match kvs[j]? with
    | some kv => if kv.key = key then runEnd kvs key fuel (j + 1) else j
    | none => j

def reduceLoop (kvs : List KeyValue) : ℕ → ℕ → List (String × String)
  | 0, _ => []
  | fuel+1, i =>
    match kvs[i]? with
    | some kv =>
      let j := runEnd kvs kv.key kvs.length (i + 1)
      let values := ((kvs.take j).drop i).map KeyValue.value
      (kv.key, reducef kv.key values) :: reduceLoop kvs fuel j
    | none => []

def reduceSorted (kvs : List KeyValue) : List (String × String) :=
  reduceLoop reducef kvs kvs.length 0

/-- The output is written to a temporary file that is then renamed. -/
def reduce (fs : Files) (partition nMappers : ℕ) : Except String Files := do
  let intermediate ← readPartition fs partition nMappers
  .ok { fs with
    out := Function.update fs.out partition (some (reduceSorted reducef (sort intermediate))) }

def executeTask (fs : Files) : Task → Except String Files
  | .mapTaskReply filename nReduce taskId => mapFile contents mapf fs filename nReduce taskId
  | .reduceTaskReply partition nMappers => reduce sort reducef fs partition nMappers
  | .terminateTaskReply => .ok fs

def executeTasks : Files → List Task → Except String Files
  | fs, [] => .ok fs
  | fs, task::tasks => do
    let fs' ← executeTask contents sort mapf reducef fs task
    executeTasks fs' tasks

/-- The first loop of mrsequential. -/
def collect : List String → List KeyValue → Except String (List KeyValue)
  | [], intermediate => .ok intermediate
  | filename::files, intermediate => do
    let content ← readInput contents filename
    collect files (intermediate ++ mapf filename content)

def mrsequential (files : List String) : Except String (List (String × String)) := do
  let intermediate ← collect contents mapf files []
  .ok (reduceSorted reducef (sort intermediate))

end Worker

end Mitdist.MapReduce
