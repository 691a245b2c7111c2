import Mathlib.Data.Finset.Sort
import Tunnel.Lib.Text
import Tunnel.Pipeline

/-!
# Dump and draw.py

`Dump` of `tunnel/pipeline.h`, and `tool/draw.py` as far as it reads the file of a dump. `Dump` writes the names as they
are, whatever their bytes. The script opens the file as UTF-8 in text mode, so that it works on characters, with `\n`
for every line end.
-/

namespace Tunnel

open Lib

/-! ## Dump -/

section

variable {V : Type}

/-- The order in which the loops of `Dump` go through `nodes_` and through each set of `dags_`. -/
structure DumpOrder (p : Pipeline V) where
  nodes : IdSet
  edges : Id → IdSet
  nodes_eq : nodes.elems.toFinset = p.nodes.keys
  edges_eq : ∀ u, (edges u).elems.toFinset = p.succs u

instance (p : Pipeline V) : Nonempty (DumpOrder p) :=
  ⟨{ nodes := ⟨p.nodes.keys.sort (· ≤ ·), p.nodes.keys.sort_nodup (· ≤ ·)⟩
     edges := fun u => ⟨(p.succs u).sort (· ≤ ·), (p.succs u).sort_nodup (· ≤ ·)⟩
     nodes_eq := p.nodes.keys.sort_toFinset (· ≤ ·)
     edges_eq := fun u => (p.succs u).sort_toFinset (· ≤ ·) }⟩

/-- What `Dump` writes for a node: `edges` is what `dags_` holds for it, if there is an entry. -/
def dumpNode (id : Id) (name : Name) (edges : Option (List Id)) : Bytes :=
  utf8 (decimal id) ++ utf8 (chars " (") ++ name ++ utf8 (chars ") : ") ++
    match edges with
    | some edges => edges.flatMap (fun target => utf8 (decimal target) ++ utf8 (chars " ")) ++ utf8 (chars "\n")
    | none => utf8 (chars "\n")

/-- The loop of `Dump` over `nodes_`. -/
def Pipeline.dumpNodes (p : Pipeline V) (edges : Id → IdSet) : List Id → Bytes
  | [] => []
  | each :: rest =>
    (match p.nodes.get each with
      | some node => dumpNode each node.name ((p.dags.get each).map (fun _ => (edges each).elems))
      | none => []) ++ p.dumpNodes edges rest

def Pipeline.dump (p : Pipeline V) (order : DumpOrder p) : Bytes :=
  utf8 (chars "pipeline : ") ++ p.option.name ++ utf8 (chars "\n") ++
  (utf8 (chars "node size : ") ++ utf8 (decimal p.getProcessorSize) ++ utf8 (chars "\n")) ++
  p.dumpNodes order.edges order.nodes.elems ++
  (utf8 (chars "the pipeline is ") ++ utf8 (chars (if p.isCompleted then "completed" else "incompleted")) ++
    utf8 (chars "\n"))

end

/-! ## draw.py -/

/-- The exceptions that end the script: bytes that are not UTF-8, an index outside a list, and an `int` of a text that
is not a number. -/
inductive DrawError where
  | unicodeDecodeError
  | indexError
  | valueError
  deriving DecidableEq, Repr

/-- What the script has read. -/
structure Drawing where
  pipelineName : Text
  processorMap : PMap Text (List Text) := .empty
  processorName : PMap Text Text := .empty

namespace Drawing

/-- `xs[i]`. -/
def item {α : Type} (xs : List α) (i : Nat) : Except DrawError α :=
  match xs[i]? with
  | some x => .ok x
  | none => .error .indexError

/-- `xs[i:-1]`. -/
def slice {α : Type} (i : Nat) (xs : List α) : List α := (xs.drop i).dropLast

/-- `int(s)`. -/
def int (s : Text) : Except DrawError Int :=
  match parseInt s with
  | some n => .ok n
  | none => .error .valueError

/-- The body of the loop, with the line it reads. -/
def readNode (d : Drawing) (line : Text) : Except DrawError Drawing := do
  let line ← item (line.splitOn '\n') 0
  let id ← item (line.splitOn ' ') 0
  let name ← item (line.splitOn ' ') 1
  .ok { d with
    processorName := d.processorName.assign id (slice 1 name)
    processorMap := d.processorMap.assign id (slice 3 (line.splitOn ' ')) }

/-- The loop, this many times. -/
def readNodes : Nat → Text → Drawing → Except DrawError Drawing
  | 0, _, d => .ok d
  | n + 1, f, d => do
    let d ← d.readNode (readline f).1
    readNodes n (readline f).2 d

/-- `open(filename, encoding='utf-8')`. Python decodes a file piece by piece as it is read, here all of it is decoded at
once; the two differ in which exception comes first, and on bytes behind the last line that the script reads. -/
def decode (file : Bytes) : Except DrawError Text :=
  match utf8Decode file with
  | some t => .ok (universalNewlines t)
  | none => .error .unicodeDecodeError

/-- The script up to the graph, on a file with these bytes. -/
def read (file : Bytes) : Except DrawError Drawing := do
  let f ← decode file
  let field ← item ((readline f).1.splitOn ' ') 2
  let pipelineName ← item (field.splitOn '\n') 0
  let f := (readline f).2
  let field ← item ((readline f).1.splitOn ' ') 3
  let nodeSize ← int field
  readNodes nodeSize.toNat (readline f).2 { pipelineName := pipelineName }

end Drawing

end Tunnel
