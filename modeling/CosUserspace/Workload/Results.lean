import CosUserspace.Workload.HandOff
import Mathlib.Data.List.Sort

/-!
# The report of an experiment

The last part of `workload/rocksdb.cpp`: `PrintResults` discards the requests of the first second, and prints for each stage of the others their number, throughput and latencies. A report is the list of its lines, or the reason why it breaks off; the layout of a line and the log are left out. The product of a size and a percentile is taken exactly.
-/

namespace CosUserspace

namespace Workload

/-- Why a report breaks off. -/
inductive ReportStop
  /-- `durations.at` throws. -/
  | outOfRange
  | divisionByZero
  deriving DecidableEq, Repr

structure Results (T : Type) where
  total : T
  throughput : T
  min : T
  fifty : T
  ninetynine : T
  ninetyninefive : T
  ninetyninenine : T
  max : T
  deriving DecidableEq, Repr

/-- `NS2S` -/
def ns2s : UInt64 := 1000000000

inductive Line
  | text (s : String)
  | strings (stage : String) (results : Results String)
  | numbers (stage : String) (results : Results Nat)
  deriving DecidableEq, Repr

def durationsAt (durations : List UInt64) (idx : Nat) : Except ReportStop UInt64 :=
  match durations[idx]? with
  | none => .error .outOfRange
  | some duration => .ok duration

def divide (dividend : Nat) (divisor : UInt64) : Except ReportStop Nat :=
  if divisor = 0 then .error .divisionByZero else .ok (dividend / divisor.toNat)

/-- `size` in `PrintStage` -/
def sizeForPercentiles (durations : List UInt64) : Nat :=
  if durations.length % 2 = 0 then durations.length - 1 else durations.length

/-- `divisor` in `PrintStage` -/
def Options.divisor (options : Options) : UInt64 := if options.ns then 1 else 1000

/-- `PrintStage` -/
def printStage (durations : List UInt64) (runtime : UInt64) (stage : String) (options : Options) :
    Except ReportStop Line :=
  if hempty : durations = [] then
    .ok (.strings stage ⟨"-", "-", "-", "-", "-", "-", "-", "-"⟩)
  else do
    let throughput ← divide durations.length (runtime / ns2s)
    let size := sizeForPercentiles durations
    let fifty ← durationsAt durations (size * 5 / 10)
    let ninetynine ← durationsAt durations (size * 99 / 100)
    let ninetyninefive ← durationsAt durations (size * 995 / 1000)
    let ninetyninenine ← durationsAt durations (size * 999 / 1000)
    .ok (.numbers stage
      { total := durations.length
        throughput
        min := (durations.head hempty / options.divisor).toNat
        fifty := (fifty / options.divisor).toNat
        ninetynine := (ninetynine / options.divisor).toNat
        ninetyninefive := (ninetyninefive / options.divisor).toNat
        ninetyninenine := (ninetyninenine / options.divisor).toNat
        max := (durations.getLast hempty / options.divisor).toNat })

/-- `GetStageResults` -/
def getStageResults (requests : List Request) (shouldInclude : Request → Bool) (difference : Request → UInt64) :
    List UInt64 :=
  ((requests.filter shouldInclude).map difference).insertionSort fun a b => a ≤ b

/-- The arguments of one `HANDLE_STAGE` that differ from stage to stage. -/
structure StageArguments where
  name : String
  firstTimestamp : Request → UInt64
  secondTimestamp : Request → UInt64

/-- The latencies of a stage, sorted. -/
def StageArguments.durations (stage : StageArguments) (requests : List Request) : List UInt64 :=
  getStageResults requests (fun r => stage.secondTimestamp r ≠ 0)
    fun r => stage.secondTimestamp r - stage.firstTimestamp r

/-- `HANDLE_STAGE` -/
def handleStage (stage : StageArguments) (requests : List Request) (runtime : UInt64) (options : Options) :
    Except ReportStop Line :=
  printStage (stage.durations requests) runtime stage.name options

def printPrettyPreface (options : Options) : Line :=
  let unit := if options.ns then "ns" else "us"
  .strings "Stage"
    { total := "Total Requests"
      throughput := "Throughput (req/s)"
      min := "Min (" ++ unit ++ ")"
      fifty := "50% (" ++ unit ++ ")"
      ninetynine := "99% (" ++ unit ++ ")"
      ninetyninefive := "99.5% (" ++ unit ++ ")"
      ninetyninenine := "99.9% (" ++ unit ++ ")"
      max := "Max (" ++ unit ++ ")" }

/-- The stages that `Print` handles, in its order. -/
def stages (options : Options) : List StageArguments :=
  (if options.printLast then [] else
    [⟨"Ingress Queue Time", fun r => r.requestGenerated, fun r => r.requestReceived⟩,
      ⟨"Repeatable Handle Time", fun r => r.requestReceived, fun r => r.requestAssigned⟩,
      ⟨"Worker Queue Time", fun r => r.requestAssigned, fun r => r.requestStart⟩,
      ⟨"Worker Handle Time", fun r => r.requestStart, fun r => r.requestFinished⟩]) ++
    [⟨"Total", fun r => r.requestGenerated, fun r => r.requestFinished⟩]

def handleStages (requests : List Request) (runtime : UInt64) (options : Options) :
    List StageArguments → Except ReportStop (List Line)
  | [] => .ok []
  | stage :: rest => do
    let line ← handleStage stage requests runtime options
    let lines ← handleStages requests runtime options rest
    .ok (line :: lines)

def print (requests : List Request) (runtime : UInt64) (options : Options) : Except ReportStop (List Line) := do
  let lines ← handleStages requests runtime options (stages options)
  .ok (printPrettyPreface options :: lines)

def printResultsHelper (resultsName : String) (experimentDuration : UInt64) (requests : List Request)
    (options : Options) : Except ReportStop (List Line) := do
  let lines ← print requests experimentDuration options
  .ok (.text (resultsName ++ ":") :: lines)

/-- The requests of all workers, from the map `requests`, that are to be included. -/
def filterRequests (requests : List (UInt32 × List Request)) (shouldInclude : Request → Bool) : List Request :=
  (requests.flatMap fun workerRequests => workerRequests.2).filter shouldInclude

/-- `options.discard_duration * NS2S`, in the 64 bits of `NS2S` -/
def Options.discarded (options : Options) : UInt64 := options.discardDuration.toInt64.toUInt64 * ns2s

def shouldDiscard (options : Options) (startTime : Int64) (request : Request) : Bool :=
  request.requestGenerated < startTime.toUInt64 + options.discarded

/-- `PrintResults`, with the globals it reads. -/
def printResults (options : Options) (startTime : Int64) (requests : List (UInt32 × List Request))
    (experimentDuration : UInt64) : Except ReportStop (List Line) := do
  let trackedDuration := experimentDuration - options.discarded
  let lines ← printResultsHelper "All" trackedDuration
    (filterRequests requests fun r => !shouldDiscard options startTime r) options
  .ok (.text "Stats:" :: lines)

end Workload

end CosUserspace
