import PtrTag.Module
import PtrTag.Tally
import PtrTag.Tagging.Tag

/-!
# `PtrTag/Tagging/Run.lean` — tagging functions and modules

A run over a function takes the address computations in the order in which they stand at the start,
so that nothing it emits is looked at again. Those that will be tagged are checked before the first of
them is touched.

A run over a module takes the functions in order and stops at the first that fails. Functions before
it keep what was done to them, and so does the failing one; the functions behind it are as before.

A run leaves three things: the new state, the events on the way, and a result or what stopped it.
They come together as a `Trace`, because the state and the events are there also after a failure.
-/

set_option autoImplicit false

namespace PtrTag

/-! ## Events -/

inductive Level where
  | debug
  | info
  deriving Repr, DecidableEq

/-- Something that a run reports. Instructions are given by their text at that moment. -/
inductive Event where
  | looking (gep : String)
  | skipping (gep : String) (why : Skip)
  | splitEdge (source dest invoke func : String)
  | finished (func : String) (tally : Tally)
  deriving Repr, DecidableEq

namespace Event

def level : Event → Level
  | .finished .. => .info
  | _ => .debug

def message : Event → String
  | .looking gep => "Looking at GEP: " ++ gep
  | .skipping gep why => "Skipping " ++ gep ++ ": " ++ why.text
  | .splitEdge source dest invoke func =>
    s!"Split normal edge {source} -> {dest} of {invoke} in '{func}'"
  | .finished func t =>
    func ++ ": rewrote " ++ toString t.tagged ++ " of " ++ toString t.candidates ++ " GEPs ("
      ++ toString t.skipped ++ " skipped, " ++ toString t.edgesSplit ++ " edges split)"

end Event

/-- The report of a split edge, as the function is after it. -/
def EdgeSplit.event (split : EdgeSplit) (f : Func) : Event :=
  let label := fun b => f.blocks[b]?.elim "" Block.name
  .splitEdge (label split.source) (label split.dest) (f.instText split.invoke) f.name

/-- The reports of finding a site. -/
def Site.events (site : Site) (f : Func) : List Event := (site.split.map (·.event f)).toList

/-- The state after a run, the events on the way, and the result. -/
structure Trace (σ ε α : Type) where
  state : σ
  events : List Event
  result : Except ε α

/-! ## Functions -/

/-- The tally of one address computation. -/
def Outcome.tally : Outcome → Tally
  | .skipped .zeroIndex => { candidates := 1, zeroIndex := 1 }
  | .skipped .dispatch => { candidates := 1, dispatch := 1 }
  | .skipped .vector => { candidates := 1, vector := 1 }
  | .skipped .alreadyTagged => { candidates := 1, alreadyTagged := 1 }
  | .tagged _ constantOffset splitEdge =>
    { candidates := 1
      tagged := 1
      constantOffsets := constantOffset.toNat
      dynamicOffsets := (!constantOffset).toNat
      edgesSplit := splitEdge.toNat }

/-- What became of each address computation of a function, in the order in which they were met. -/
abbrev Outcomes := List (InstId × Outcome)

def Outcomes.tally (outcomes : Outcomes) : Tally :=
  outcomes.foldr (fun (_, outcome) t => outcome.tally + t) {}

namespace Func

/-- Checks an address computation if it will be tagged. -/
def checkCandidate (f : Func) (s : Scheme) (L : Layout) (globals : List String) (gep : InstId) :
    Except Fault Unit := do
  match ← f.skipReason s globals gep with
  | some _ => .ok ()
  | none => f.checkGep L gep

/-- What is said about an address computation once it is clear what becomes of it. -/
def afterwards (f : Func) (gep : InstId) : Outcome → List Event
  | .skipped why => [.skipping (f.instText gep) why]
  | .tagged .. => []

/-- Tags the listed address computations in turn. -/
def tagEach (s : Scheme) (L : Layout) (globals : List String) :
    List InstId → Func → Trace Func Fault Outcomes
  | [], f => { state := f, events := [], result := .ok [] }
  | gep :: rest, f =>
    let looking := Event.looking (f.instText gep)
    match Edit.tagGep s L globals gep f with
    | .error e f => { state := f, events := [looking], result := .error e }
    | .ok outcome f =>
      let after := tagEach s L globals rest f
      { state := after.state
        events := looking :: f.afterwards gep outcome ++ after.events
        result := after.result.map ((gep, outcome) :: ·) }

/-- Tags every address computation of a function that is not to be left alone. -/
def tag (f : Func) (s : Scheme) (L : Layout) (globals : List String) : Trace Func Fault Outcomes :=
  match f.geps.forM (f.checkCandidate s L globals) with
  | .error e => { state := f, events := [], result := .error e }
  | .ok () => tagEach s L globals f.geps f

end Func

/-! ## Modules -/

/-- The function at which a run stopped, and why. -/
structure TagFailure where
  func : String
  cause : Fault
  deriving Repr, DecidableEq

def TagFailure.message (e : TagFailure) : String :=
  "Failed to instrument function '" ++ e.func ++ "': " ++ e.cause.message

/-- Tags those of the functions that ask for it, starting from the tally `t`. -/
def tagFunctions (s : Scheme) (L : Layout) (globals : List String) :
    List Func → Tally → Trace (List Func) TagFailure Tally
  | [], t => { state := [], events := [], result := .ok t }
  | f :: rest, t =>
    if f.wantsTagging s then
      let here := f.tag s L globals
      match here.result with
      | .error e =>
        { state := here.state :: rest, events := here.events, result := .error ⟨f.name, e⟩ }
      | .ok outcomes =>
        let tally := outcomes.tally
        let after := tagFunctions s L globals rest (t + { seen := 1, instrumented := 1 } + tally)
        { state := here.state :: after.state
          events := here.events ++ .finished f.name tally :: after.events
          result := after.result }
    else
      let after := tagFunctions s L globals rest (t + { seen := 1 })
      { after with state := f :: after.state }

/-- Tags the functions of a module. -/
def Module.tag (m : Module) (s : Scheme) : Trace Module TagFailure Tally :=
  let run := tagFunctions s m.layout m.globalNames m.functions {}
  { state := { m with functions := run.state }, events := run.events, result := run.result }

/-! ## The pass -/

/-- Which analyses of a module are still good after a pass. -/
inductive Preserved where
  | all
  | none
  deriving Repr, DecidableEq

/-- A tagging scheme, and the tally of the last run that succeeded. -/
structure Pass where
  scheme : Scheme := {}
  tally : Tally := {}
  deriving Repr, DecidableEq

namespace Pass

def name : String := "canonptr"

/-- A pass of a scheme, if the scheme is sound. -/
def ofScheme (s : Scheme) : Except Fault Pass := do
  s.validate
  return { scheme := s }

/-- Tags a module. The tally of the pass changes only if that succeeds. -/
def run (p : Pass) (m : Module) : Pass × Trace Module TagFailure Preserved :=
  let trace := m.tag p.scheme
  match trace.result with
  | .ok tally => ({ p with tally := tally }, { trace with result := .ok .none })
  | .error e => (p, { trace with result := .error e })

end Pass

end PtrTag
