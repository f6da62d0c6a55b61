import Straightline.Source.Fault

/-!
# What is reported along the way

Compiling reports its steps and its warnings as a list of events, in the order in which they were
made. An event is data; its wording, level and fields are read off it by `message`, `level` and
`fields`, with every field as text.
-/

set_option autoImplicit false

namespace Straightline

inductive Level where
  | warn
  | info
  | debug
  | trace
deriving DecidableEq, Repr

namespace Level

def text : Level → String
  | warn => "WARN"
  | info => "INFO"
  | debug => "DEBUG"
  | trace => "TRACE"

end Level

inductive Event where
  | unitStarted (project unit : String) (bytes : Nat)
  | declarationsStarted
  /-- The header of a declaration was read; a method is named without its owner. -/
  | declared (name : String)
  | bodiesStarted (methods functions : Nat)
  /-- A body, which begins at offset `resume`, is about to be compiled. -/
  | bodyStarted (function : String) (resume : Nat)
  | unitRolledBack (unit : String) (cause : Fault)
  | unreachableStatement (function : String) (start : Nat)
  | ignoredResult (function : String) (start : Nat)
  | sourceLoaded (path : String) (bytes : Nat)
  | outputWritten (path : String) (bytes : Nat)
  | runIgnored
deriving DecidableEq, Repr

namespace Event

def level : Event → Level
  | unitStarted .. | declarationsStarted | bodiesStarted .. | unitRolledBack .. => .debug
  | declared _ | bodyStarted .. => .trace
  | unreachableStatement .. | ignoredResult .. | runIgnored => .warn
  | sourceLoaded .. | outputWritten .. => .info

def message : Event → String
  | unitStarted .. => "compiling unit"
  | declarationsStarted => "phase 1: forward declarations"
  | declared _ => "declaration"
  | bodiesStarted .. => "phase 2: function bodies"
  | bodyStarted .. => "compiling body"
  | unitRolledBack .. => "rolling back unit"
  | unreachableStatement .. => "unreachable statement after return"
  | ignoredResult .. => "ignoring value returned from a Void function"
  | sourceLoaded .. => "loaded source"
  | outputWritten .. => "wrote output"
  | runIgnored => "--run is ignored for non-wasm outputs"

def fields : Event → List (String × String)
  | unitStarted project unit bytes =>
    [("project", project), ("unit", unit), ("bytes", toString bytes)]
  | declarationsStarted | runIgnored => []
  | declared name => [("name", name)]
  | bodiesStarted methods functions =>
    [("instance_functions", toString methods), ("functions", toString functions)]
  | bodyStarted function resume => [("function", function), ("resume", toString resume)]
  | unitRolledBack unit cause => [("unit", unit), ("error", cause.message)]
  | unreachableStatement function start | ignoredResult function start =>
    [("function", function), ("position", toString start)]
  | sourceLoaded path bytes | outputWritten path bytes =>
    [("path", path), ("bytes", toString bytes)]

end Event

end Straightline
